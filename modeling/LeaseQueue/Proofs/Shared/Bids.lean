import LeaseQueue.Proofs.Shared.Asking

/-
  What a reader bids for, and what it makes of the outcome.

  A bid is an update that a reader asks for: a claim or a retirement. It is for a
  message that the reader has just read, and no two bids follow one read. A bid is
  in vain if it leads to no claim: the message was not any more as it was read, or
  the bid has retired it. This module says of a reader, whatever it is answered,
  that

  1. its bids are for messages it has just read unacknowledged (`Bidding.bids`);
  2. after a retirement it counts it before it does anything else, and it counts
     nothing else as one (`Bidding.counts`, `tallied_eq`);
  3. it looks where the reader bucket stands at most as often as its scan limit
     says, once more, and once for each bid in vain (`Bidding.looks`, `passes_le`).
-/

namespace LeaseQueue.Shared

variable {q : Queue} {rule : Rule} {w : World} {t : Nat} {tr tr' : List Seen} {limit : Nat}
  {hide : Duration} {m : Message} {position next : Int64} {b : UInt64}

/-! ## What a reader has seen -/

/-- The effect reads messages or is to change one. -/
def Handles : Effect → Bool
  | .call (.readBucket _) => true
  | .call (.readMessage _ _) => true
  | .call (.updateMessage _ _ _) => true
  | _ => false

/-- The messages that the task has just read; none if it has tried to change one since. -/
def justRead : List Seen → List Message
  | [] => []
  | ⟨.call (.readBucket _), .ok ms⟩ :: _ => ms
  | ⟨.call (.readMessage _ _), .ok found⟩ :: _ => found.toList
  | s :: before => if Handles s.effect then [] else justRead before

/-- The message that an applied acknowledgement left. -/
def Seen.acked? : Seen → Option Message
  | ⟨.call (.updateMessage _ m ⟨_, false⟩), .ok true⟩ => some m
  | _ => none

/-- An acknowledgement was applied. If it is one of a reader, it has retired a message. -/
def Seen.retires (s : Seen) : Bool := s.acked?.isSome

def Seen.refused : Seen → Bool
  | ⟨.call (.updateMessage _ _ _), .ok false⟩ => true
  | _ => false

/-- The task looked where the reader bucket stands, as each pass of a search begins. -/
def Seen.begins : Seen → Bool
  | ⟨.call (.readCell .readerBucket), _⟩ => true
  | _ => false

def Seen.tallies (c : Counter) : Seen → Bool
  | ⟨.tally d, _⟩ => d = c
  | _ => false

def passes (tr : List Seen) : Nat := (tr.filter Seen.begins).length

def retirals (tr : List Seen) : Nat := (tr.filter Seen.retires).length

def refusals (tr : List Seen) : Nat := (tr.filter Seen.refused).length

def tallied (c : Counter) (tr : List Seen) : Nat := (tr.filter (Seen.tallies c)).length

theorem length_filter_cons {s : Seen} {p : Seen → Bool} :
    ((s :: tr).filter p).length = (tr.filter p).length + (p s).toNat := by
  cases hp : p s <;> simp [hp]

theorem passes_cons {s : Seen} : passes (s :: tr) = passes tr + s.begins.toNat := length_filter_cons

theorem retirals_cons {s : Seen} : retirals (s :: tr) = retirals tr + s.retires.toNat :=
  length_filter_cons

theorem refusals_cons {s : Seen} : refusals (s :: tr) = refusals tr + s.refused.toNat :=
  length_filter_cons

theorem tallied_cons {s : Seen} {c : Counter} :
    tallied c (s :: tr) = tallied c tr + (s.tallies c).toNat := length_filter_cons

/-- The reader has just retired a message, and has not counted it yet. -/
def owing : List Seen → Bool
  | [] => false
  | s :: _ => s.retires

/-! ## What a reader may ask for -/

theorem retires_error {c : Call} {e : StorageError} : Seen.retires ⟨.call c, .error e⟩ = false := by
  cases c with
  | updateMessage b m cond =>
    obtain ⟨version, unacked⟩ := cond
    cases unacked <;> rfl
  | _ => rfl

/-- The update is for the message as it was read, unacknowledged, in its bucket. -/
structure Bid (q : Queue) (b : UInt64) (next : Message) (cond : Condition) (m : Message) :
    Prop where
  unacked : m.acked = false
  bucket : b = q.bucketOf m.index
  index : next.index = m.index
  version : cond.version = m.version

/-- What a reader does next, after what it has seen. -/
structure Bidding (q : Queue) (limit : Nat) (tr : List Seen) (e : Effect) : Prop where
  counts : owing tr = true ↔ e = .tally .retired
  looks : e = .call (.readCell .readerBucket) → passes tr ≤ limit + retirals tr + refusals tr
  bids : ∀ b next cond, e = .call (.updateMessage b next cond) →
    ∃ m ∈ justRead tr, Bid q b next cond m

/-- A reader ends when it has counted what it has retired. -/
def bidding (q : Queue) (limit : Nat) : Contract where
  asks := Bidding q limit
  faults := fun tr _ => owing tr = false
  storage := fun _ _ _ _ => retires_error

/-- The effect is of no account here. -/
def Plain : Effect → Bool
  | .tally .retired => false
  | .call (.readCell .readerBucket) => false
  | .call (.updateMessage _ _ _) => false
  | _ => true

theorem bidding_plain {e : Effect} (ho : owing tr = false) (he : Plain e = true) :
    (bidding q limit).asks tr e := by
  refine ⟨⟨fun h => ?_, ?_⟩, ?_, ?_⟩
  · rw [ho] at h
    cases h
  · rintro rfl
    cases he
  · rintro rfl
    cases he
  · rintro _ _ _ rfl
    cases he

/-- Nothing is left to count, and the search is in the same pass. -/
def Calm (tr tr' : List Seen) : Prop := owing tr' = false ∧ passes tr' = passes tr

theorem Calm.refl (ho : owing tr = false) : Calm tr tr := ⟨ho, rfl⟩

theorem Calm.trans {tr'' : List Seen} (h : Calm tr tr') (h' : Calm tr' tr'') : Calm tr tr'' :=
  ⟨h'.1, h'.2.trans h.2⟩

theorem Calm.cons {s : Seen} (h : Calm tr tr') (hr : s.retires = false) (hb : s.begins = false) :
    Calm tr (s :: tr') :=
  ⟨hr, by rw [passes_cons, hb, h.2, Bool.toNat_false, Nat.add_zero]⟩

/-! ## The operations of a reader -/

theorem nextIndex_bids (ho : owing tr = false) :
    nextIndex.Obeys (bidding q limit) (fun tr' _ => Calm tr tr') tr :=
  .bind (.call (bidding_plain ho rfl) fun _ => .pure ((Calm.refl ho).cons rfl rfl))

theorem moveIf_bids {c : Cursor} (ho : owing tr = false) :
    (c.moveIf position next).Obeys (bidding q limit) (fun tr' _ => Calm tr tr') tr := by
  refine .bind (.call (bidding_plain ho (by cases c <;> rfl)) fun a => ?_)
  have hc : Calm tr (⟨.call (.swapCell c.cell (some position) next), .ok a⟩ :: tr) :=
    (Calm.refl ho).cons rfl rfl
  match a with
  | .swapped => exact .pure hc
  | .conflict (some found) => exact .pure hc
  | .conflict none =>
    refine .ite (fun _ => ?_) fun _ => .pure hc
    refine .bind (.call (bidding_plain hc.1 (by cases c <;> rfl)) fun a => ?_)
    cases a with
    | swapped => exact .pure (hc.cons rfl rfl)
    | conflict found => exact .pure (hc.cons rfl rfl)

theorem park_bids {i : UInt64} (ho : owing tr = false) :
    (Queue.park position i).Obeys (bidding q limit) (fun tr' _ => Calm tr tr') tr :=
  .ite (fun _ => .andThen (moveIf_bids ho) fun _ _ _ hc => .pure hc) fun _ => .pure (Calm.refl ho)

/-- How a bid ends: without a claim it was in vain. -/
def BidEnd (tr tr' : List Seen) (o : Option Message) : Prop :=
  Calm tr tr' ∧ (o = none →
    retirals tr' + refusals tr' = retirals tr + refusals tr + 1)

theorem claimOrRetire_bids (ho : owing tr = false) (hm : m ∈ justRead tr) (hack : m.acked = false) :
    (q.claimOrRetire m hide).Obeys (bidding q limit) (BidEnd tr) tr := by
  have asks : ∀ {tr' next cond}, owing tr' = false → justRead tr' = justRead tr →
      next.index = m.index → cond.version = m.version →
      (bidding q limit).asks tr' (.call (.updateMessage (q.bucketOf next.index) next cond)) := by
    intro tr' next cond ho' hsame hi hv
    refine ⟨⟨fun h => ?_, nofun⟩, nofun, ?_⟩
    · rw [ho'] at h
      cases h
    · rintro _ _ _ ⟨⟩
      exact ⟨m, hsame ▸ hm, hack, hi ▸ rfl, hi, hv⟩
  refine .ite (fun _ => ?_) fun _ => ?_
  · refine .bind (.bind (.inRange (fun next hn => .bind (.bind ?_)) fun _ => ho))
    have hi := (Message.became_of_acknowledged? hn).index
    refine .call (asks ho rfl hi rfl) fun done => ?_
    cases done with
    | true =>
      -- The retirement is counted at once.
      refine .pure (.pure (.bind (.tally ⟨⟨fun _ => rfl, fun _ => rfl⟩, nofun, nofun⟩ (.pure ?_))))
      exact ⟨⟨rfl, rfl⟩, fun _ => Nat.add_right_comm _ _ _⟩
    | false => exact .pure (.pure (.pure ⟨(Calm.refl ho).cons rfl rfl, fun _ => rfl⟩))
  · refine .bind (.bind (.now (bidding_plain ho rfl) fun u _ => .bind (.inRange (fun next hn => ?_)
      fun _ => rfl)))
    have hi := (Message.became_of_claimed? hn).index
    refine .bind (.call (asks rfl rfl hi rfl) fun done => ?_)
    cases done with
    | true => exact .pure (.pure ⟨⟨rfl, rfl⟩, nofun⟩)
    | false =>
      refine .pure (.bind (.tally (bidding_plain rfl rfl) (.pure ⟨⟨rfl, rfl⟩, fun _ => rfl⟩)))

theorem settle_bids {ms : List Message} (ho : owing tr = false) :
    (q.settle position b ms).Obeys (bidding q limit) (fun tr' _ => Calm tr tr') tr := by
  unfold Queue.settle
  split
  · exact .andThen (park_bids ho) fun _ _ _ hc => .pure hc
  · refine .ite (fun _ => .pure (Calm.refl ho)) fun _ => ?_
    exact .andThen (nextIndex_bids ho) fun _ _ _ hc => .pure hc

theorem scan_bids (ho : owing tr = false) :
    (q.scan position b hide).Obeys (bidding q limit) (fun tr' _ => Calm tr tr') tr := by
  refine .bind (.call (bidding_plain ho rfl) fun ms => ?_)
  refine .bind (.now (bidding_plain rfl rfl) fun u _ => ?_)
  have hc : Calm tr (⟨.now, u⟩ :: ⟨.call (.readBucket b), .ok ms⟩ :: tr) :=
    ((Calm.refl ho).cons rfl rfl).cons rfl rfl
  split
  · exact .andThen (park_bids rfl) fun _ _ _ hp => .pure (hc.trans hp)
  · rename_i m _ hexpired
    have hm : m ∈ ms := List.mem_of_find?_eq_some hexpired
    have hexp := List.find?_some (p := (Message.expired · u)) hexpired
    simp only [Message.expired, Bool.and_eq_true, Bool.not_eq_true'] at hexp
    refine .andThen (claimOrRetire_bids rfl hm hexp.1.1) fun tr₁ o _ hbid => ?_
    have hc₁ := hc.trans hbid.1
    cases o with
    | none => exact (settle_bids hc₁.1).mono fun _ _ hs => hc₁.trans hs
    | some m => exact .andThen (park_bids hc₁.1) fun _ _ _ hp => .pure (hc₁.trans hp)
  · exact (settle_bids rfl).mono fun _ _ hs => hc.trans hs

theorem glance_bids (ho : owing tr = false) :
    (q.glance position hide).Obeys (bidding q limit) (fun tr' _ => Calm tr tr') tr := by
  refine .ite (fun _ => .pure (Calm.refl ho)) fun _ => ?_
  refine .bind (.call (bidding_plain ho rfl) fun found => ?_)
  have hc : Calm tr (⟨.call (.readMessage (q.bucketOf position.toUInt64) position.toUInt64),
      .ok found⟩ :: tr) := (Calm.refl ho).cons rfl rfl
  cases found with
  | none => exact .pure hc
  | some m =>
    refine .ite (fun _ => .pure hc) fun hack => .ite (fun _ => .pure hc) fun _ => ?_
    refine .bind (.now (bidding_plain rfl rfl) fun u _ => ?_)
    have hc' := hc.cons (s := ⟨.now, u⟩) rfl rfl
    refine .ite (fun _ => .pure hc') fun _ => ?_
    refine .andThen (claimOrRetire_bids rfl (List.mem_singleton_self m) (by simpa using hack))
      fun tr₁ o _ hbid => ?_
    cases o with
    | none => exact .pure (hc'.trans hbid.1)
    | some m => exact .pure (hc'.trans hbid.1)

theorem resurrectFrom_bids {n : Nat} (ho : owing tr = false) :
    (q.resurrectFrom hide n position).Obeys (bidding q limit) (fun tr' _ => Calm tr tr') tr := by
  induction n generalizing position tr with
  | zero => exact .pure (Calm.refl ho)
  | succ n ih =>
    refine .andThen (glance_bids ho) fun tr₁ g _ hg => ?_
    cases g with
    | claimed m => exact .pure hg
    | held => exact .pure hg
    | past =>
      refine .andThen (scan_bids hg.1) fun tr₂ s _ hs => ?_
      have hc := hg.trans hs
      cases s with
      | claimed m => exact .pure hc
      | parked => exact .pure hc
      | settled =>
        refine .bind (.inRange (fun next _ => .bind (.inRange (fun start _ => ?_)
          fun _ => hc.1)) fun _ => hc.1)
        refine .andThen (moveIf_bids hc.1) fun tr₃ at_ _ hm => ?_
        exact (ih hm.1).mono fun _ _ hr => (hc.trans hm).trans hr

/-- A search has nothing to count, and has begun at most as many passes as it has left buckets and
bid in vain. -/
structure Searching (limit passed : Nat) (tr : List Seen) : Prop where
  counted : owing tr = false
  within : passed ≤ limit
  passes_le : passes tr ≤ passed + retirals tr + refusals tr

theorem vain_mono (hs : tr <:+ tr') :
    retirals tr + refusals tr ≤ retirals tr' + refusals tr' :=
  Nat.add_le_add (hs.sublist.filter _).length_le (hs.sublist.filter _).length_le

theorem forwardPass_bids {passed : Nat} (h : Searching limit passed tr) :
    (q.forwardPass limit hide passed).Obeys (bidding q limit)
      (passEnd (Searching limit) fun _ tr => owing tr = false) tr := by
  obtain ⟨ho, hle, hpasses⟩ := h
  have hlooks : (bidding q limit).asks tr (.call (.readCell .readerBucket)) := by
    refine ⟨⟨fun h => ?_, nofun⟩, fun _ => ?_, nofun⟩
    · rw [ho] at h
      cases h
    · calc passes tr
        _ ≤ passed + retirals tr + refusals tr := hpasses
        _ ≤ limit + retirals tr + refusals tr := by omega
  refine .bind (.bind (.call hlooks fun cell => .pure ?_))
  refine .bind (.call (bidding_plain rfl rfl) fun ms => ?_)
  refine .bind (.now (bidding_plain rfl rfl) fun u _ => ?_)
  -- The pass has begun, and nothing was bid for in it yet.
  have hbegun : ∀ {tr'}, Calm
      (⟨.now, u⟩ :: ⟨.call (.readBucket (Cursor.readerBucket.position cell).toUInt64), .ok ms⟩ ::
        ⟨.call (.readCell .readerBucket), .ok cell⟩ :: tr) tr' → passes tr' = passes tr + 1 :=
    fun hc => hc.2
  have hvain : ∀ {tr'}, (⟨.now, u⟩ ::
      ⟨.call (.readBucket (Cursor.readerBucket.position cell).toUInt64), .ok ms⟩ ::
      ⟨.call (.readCell .readerBucket), .ok cell⟩ :: tr) <:+ tr' →
      retirals tr + refusals tr ≤ retirals tr' + refusals tr' :=
    fun hs => vain_mono (List.IsSuffix.trans ⟨[_, _, _], rfl⟩ hs)
  split
  · rename_i m hfirst
    have hfree := List.find?_some hfirst
    simp only [Bool.and_eq_true, Bool.not_eq_true'] at hfree
    refine .andThen (claimOrRetire_bids rfl (List.mem_of_find?_eq_some hfirst) hfree.1)
      fun tr₁ o _ hbid => ?_
    cases o with
    | some claimed => exact .pure hbid.1.1
    | none =>
      refine .pure ⟨hbid.1.1, hle, ?_⟩
      have hone : retirals tr₁ + refusals tr₁ = retirals tr + refusals tr + 1 := hbid.2 rfl
      rw [hbegun hbid.1]
      omega
  · refine .andThen (nextIndex_bids rfl) fun tr₁ i hs₁ hc₁ => ?_
    refine .ite (fun _ => .pure hc₁.1) fun _ => .ite (fun _ => .pure hc₁.1) fun hpassed => ?_
    refine .bind (.bind (.now (bidding_plain hc₁.1 rfl) fun v _ =>
      .call (bidding_plain rfl rfl) fun sealedAt => ?_))
    refine .bind (.inRange (fun next _ => ?_) fun _ => rfl)
    refine .andThen (moveIf_bids rfl) fun tr₂ at_ hs₂ hc₂ => ?_
    have hc : Calm _ tr₂ := hc₁.trans (((Calm.refl hc₁.1).cons rfl rfl).cons rfl rfl |>.trans hc₂)
    have hmore :=
      hvain (hs₁.trans ((List.suffix_cons _ _).trans ((List.suffix_cons _ _).trans hs₂)))
    have hnext : Searching limit (passed + 1) tr₂ := by
      refine ⟨hc.1, by omega, ?_⟩
      rw [hbegun hc]
      omega
    refine .ite (fun _ => .bind (.tally (bidding_plain hc.1 rfl) (.pure ?_))) fun _ => .pure hnext
    exact ⟨rfl, hnext.within, hnext.passes_le⟩

theorem nextMessage_bids :
    (q.nextMessage limit hide).Obeys (bidding q limit) (fun tr _ => owing tr = false) [] := by
  refine .andThen (P := fun tr _ => Calm [] tr) ?_ fun tr₁ o _ hc => ?_
  · refine .bind (.bind (.call (bidding_plain rfl rfl) fun cell => .pure ?_))
    exact (resurrectFrom_bids rfl).mono fun _ _ hc => ((Calm.refl rfl).cons rfl rfl).trans hc
  cases o with
  | some m =>
    exact .bind
      (.tally (bidding_plain hc.1 rfl) (.bind (.tally (bidding_plain rfl rfl) (.pure rfl))))
  | none =>
    refine .andThen (P := fun tr _ => owing tr = false)
      (.loop (Searching limit) ⟨hc.1, Nat.zero_le _, ?_⟩ fun _ _ h => forwardPass_bids h)
      fun tr₂ o _ ho => ?_
    · rw [hc.2]
      exact Nat.zero_le _
    · exact .ite (fun _ => .bind (.tally (bidding_plain ho rfl) (.pure rfl))) fun _ => .pure ho

/-- Every reader bids so, and has nothing to count when it ends. -/
theorem readers_bid (rule : Rule) :
    Keeps q rule (fun r tr e => ∀ limit hide, r = .receive limit hide → Bidding q limit tr e)
      fun r tr _ => ∀ limit hide, r = .receive limit hide → owing tr = false := by
  intro r w hr
  cases r with
  | receive limit hide =>
    have hreceive :
        (q.receive limit hide).Obeys (bidding q limit) (fun tr _ => owing tr = false) [] :=
      .bind (nextMessage_bids.mono fun _ _ ho => .pure ho)
    refine Program.Obeys.mono (fun _ _ h => ?_) (fun tr result hend => ?_)
      (Op.Obeys.map (R := fun tr _ => owing tr = false) hreceive)
    · rintro _ _ ⟨⟩
      exact h
    · rintro _ _ ⟨⟩
      cases result <;> exact hend
  | _ => exact (requests_keep rule _ w hr).mono (fun _ _ _ => nofun) fun _ _ _ => nofun

theorem others_retire_none (rule : Rule) :
    Keeps q rule (fun r _ e => (∀ limit hide, r ≠ .receive limit hide) → e ≠ .tally .retired)
      fun _ _ _ => True :=
  fun r w hr => (others_common rule r w hr).mono (fun _ _ h hne => ne_retired_of_common (h hne))
    fun _ _ h => h

/-! ## In every run -/

theorem Reachable.bidding (h : Reachable q rule w)
    (hr : .started t (.receive limit hide) ∈ w.history) {s : Seen} {before : List Seen}
    (hs : s :: before <:+ seenBy t w.history) : Bidding q limit before s.effect := by
  obtain ⟨c, rows, past, hpast, rfl⟩ := performed_of_seenBy hs
  obtain ⟨r, hstarted, hasks⟩ := h.effect_permitted (readers_bid rule) hpast
  have hsub := (List.suffix_cons _ _).trans hpast
  exact hasks limit hide (h.started_unique (hsub.subset hstarted) hr)

theorem tallies_iff {s : Seen} {c : Counter} :
    s.tallies c = true ↔ s.effect = .tally c := by
  unfold Seen.tallies
  split
  · simp
  · rename_i hne
    refine ⟨nofun, fun he => ?_⟩
    obtain ⟨effect, answer⟩ := s
    cases he
    exact absurd rfl (hne c answer)

/-- What is counted after it was seen, and at no other time, is counted once for each time that it
was seen, but for the latest. -/
theorem tallied_add {c : Counter} {p : Seen → Bool} {owed : List Seen → Bool}
    (hnil : owed [] = false) (hcons : ∀ s tr, owed (s :: tr) = p s)
    (h : ∀ s before, s :: before <:+ tr → (owed before = true ↔ s.effect = .tally c)) :
    tallied c tr + (owed tr).toNat = (tr.filter p).length := by
  induction tr with
  | nil => rw [hnil]; rfl
  | cons s tr ih =>
    have hrest := ih fun s' before hs => h s' before (hs.trans (List.suffix_cons s tr))
    have hcounts : s.tallies c = owed tr :=
      Bool.eq_iff_iff.mpr (tallies_iff.trans (h s tr (List.suffix_refl _)).symm)
    calc tallied c (s :: tr) + (owed (s :: tr)).toNat
      _ = tallied c tr + (owed tr).toNat + (p s).toNat := by rw [tallied_cons, hcounts, hcons]
      _ = ((s :: tr).filter p).length := by rw [hrest, length_filter_cons]

/-- Each retirement is counted once, but for the one that the reader has just made. -/
theorem tallied_eq (h : ∀ s before, s :: before <:+ tr → Bidding q limit before s.effect) :
    tallied .retired tr + (owing tr).toNat = retirals tr :=
  tallied_add rfl (fun _ _ => rfl) fun s before hs => (h s before hs).counts

/-- A search has begun at most one pass more than its limit and its bids in vain allow. -/
theorem passes_le (h : ∀ s before, s :: before <:+ tr → Bidding q limit before s.effect) :
    passes tr ≤ limit + 1 + retirals tr + refusals tr := by
  induction tr with
  | nil => exact Nat.zero_le _
  | cons s tr ih =>
    have hrest := ih fun s' before hs => h s' before (hs.trans (List.suffix_cons s tr))
    have hvain := vain_mono (List.suffix_cons s tr)
    rw [passes_cons]
    cases hb : s.begins with
    | false =>
      rw [Bool.toNat_false]
      omega
    | true =>
      have heffect : s.effect = .call (.readCell .readerBucket) := by
        unfold Seen.begins at hb
        split at hb
        · rfl
        · cases hb
      have hlooks := (h s tr (List.suffix_refl _)).looks heffect
      rw [Bool.toNat_true]
      omega

end LeaseQueue.Shared
