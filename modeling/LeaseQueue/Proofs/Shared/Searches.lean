import LeaseQueue.Proofs.Shared.Lasting

/-
  What a reader has seen when its search ends.

  A call that hands out a message has claimed that message and nothing else, and
  one that hands out nothing has claimed nothing. It has then read a bucket in
  which nothing could be claimed, and either the counter had not come past that
  bucket, or the call had passed as many buckets as it may. Each bucket that it
  passes is behind the reader bucket when it looks there again, so it cannot have
  passed more than there are before the one it has read last.
-/

namespace LeaseQueue.Shared

variable {q : Queue} {rule : Rule} {w : World} {t : Nat} {tr tr' before : List Seen} {limit : Nat}
  {hide : Duration} {m : Message} {p position next : Int64} {b : UInt64}

/-! ## Claims -/

/-- The message that the effect claimed or revised. -/
def Seen.hid? : Seen → Option Message
  | ⟨.call (.updateMessage _ m ⟨_, true⟩), .ok true⟩ => some m
  | _ => none

def hidBy (tr : List Seen) : List Message := tr.filterMap Seen.hid?

theorem hidBy_silent {s : Seen} (h : s.hid? = none) : hidBy (s :: tr) = hidBy tr := by
  simp [hidBy, h]

theorem mem_hidBy_of_told {v : UInt64} (told : Told tr (.updateMessage b m ⟨v, true⟩) true) :
    m ∈ hidBy tr := List.mem_filterMap.mpr ⟨_, told, rfl⟩

/-! ## Moves of the reader bucket -/

/-- The task has read where the reader bucket stands, and its attempt to move it on from there was
answered. A swap that finds no cell where the cursor has moved before has not been answered yet. -/
def MovedOn (tr : List Seen) (p : Int64) : Prop :=
  ∃ expected next a before,
    ⟨.call (.swapCell .readerBucket expected next), .ok a⟩ :: before <:+ tr ∧
    (∃ cell, Told before (.readCell .readerBucket) cell ∧ Cursor.readerBucket.position cell = p) ∧
    ((expected = some p ∧ (a = .conflict none → p ≠ 0)) ∨ (expected = none ∧ p = 0))

theorem MovedOn.mono (hm : MovedOn tr p) (hs : tr <:+ tr') : MovedOn tr' p := by
  obtain ⟨expected, next, a, before, hb, hrest⟩ := hm
  exact ⟨expected, next, a, before, hb.trans hs, hrest⟩

/-- Wherever the task has read the reader bucket, it was past all that the task had moved on
from. -/
def Upward (tr : List Seen) : Prop :=
  ∀ cell before, ⟨.call (.readCell .readerBucket), .ok cell⟩ :: before <:+ tr →
    ∀ p, MovedOn before p → p.toUInt64 < (Cursor.readerBucket.position cell).toUInt64

theorem Upward.mono (hu : Upward tr') (hs : tr <:+ tr') : Upward tr :=
  fun cell before hb => hu cell before (hb.trans hs)

/-- A search that has passed so many buckets has moved on from one that has as many before it. -/
def Covered (passed : Nat) (tr : List Seen) : Prop :=
  passed = 0 ∨ ∃ p, MovedOn tr p ∧ (Upward tr → passed ≤ p.toUInt64.toNat + 1)

theorem Covered.mono {passed : Nat} (hc : Covered passed tr) (hs : tr <:+ tr') :
    Covered passed tr' :=
  hc.imp_right fun ⟨p, hm, hle⟩ => ⟨p, hm.mono hs, fun hu => hle (hu.mono hs)⟩

theorem Covered.le {passed : Nat} {cell : Option Int64} (hc : Covered passed tr)
    (hs : ⟨.call (.readCell .readerBucket), .ok cell⟩ :: tr <:+ tr') (hu : Upward tr') :
    passed ≤ (Cursor.readerBucket.position cell).toUInt64.toNat := by
  rcases hc with rfl | ⟨p, hm, hle⟩
  · exact Nat.zero_le _
  · have hlt := hu cell tr hs p hm
    have hpassed := hle (hu.mono ((List.suffix_cons _ _).trans hs))
    rw [UInt64.lt_iff_toNat_lt] at hlt
    omega

/-! ## The end of a search -/

/-- In what the task read in the bucket, there was nothing left to claim. -/
def Spent (tr : List Seen) (b : UInt64) : Prop :=
  ∃ ms t, Told tr (.readBucket b) ms ∧ Clocked tr t ∧ ∀ m ∈ ms, m.acked = true ∨ t < m.visibleAt

/-- The search has read a bucket in which nothing was left to claim, and the counter had not come
past it or it was the last one that the search may look at. -/
def Searched (q : Queue) (limit : Nat) (tr : List Seen) : Prop :=
  ∃ cell, Told tr (.readCell .readerBucket) cell ∧
    Spent tr (Cursor.readerBucket.position cell).toUInt64 ∧
    ((∃ count, Told tr (.readCell .counter) count ∧
        q.bucketOf (counterValue count).toUInt64 ≤ (Cursor.readerBucket.position cell).toUInt64) ∨
      (Upward tr → limit ≤ (Cursor.readerBucket.position cell).toUInt64.toNat))

/-- What was seen when a call is answered: it has claimed what it hands out and nothing else, and if
it hands out nothing, it has searched the queue. -/
def Finding (q : Queue) (limit : Nat) (o : Option Message) (tr : List Seen) : Prop :=
  hidBy tr = o.toList ∧ (o = none → Searched q limit tr)

/-! ## The operations of a reader -/

/-- The storage failed the task when it moved the invisibility cursor, after it had claimed the
message. -/
def Stranded (tr : List Seen) (m : Message) (e : StorageError) : Prop :=
  ∃ expected target before,
    tr = ⟨.call (.swapCell .invisibility expected target), .error e⟩ :: before ∧ hidBy before = [m]

theorem Stranded.hidBy_eq {tr : List Seen} {m : Message} {e : StorageError} (h : Stranded tr m e) :
    hidBy tr = [m] := by
  obtain ⟨_, _, before, rfl, hhid⟩ := h
  rw [hidBy_silent rfl, hhid]

/-- Once a reader has claimed a message, it makes no call but to move the invisibility cursor; so
nothing else can end it then without an answer. -/
def watched : Contract where
  asks := fun tr e => ∀ c, e = .call c →
    hidBy tr = [] ∨
      (∃ m, hidBy tr = [m]) ∧ ∃ expected target, c = .swapCell .invisibility expected target
  faults := fun tr f => hidBy tr = [] ∨ ∃ m e, f = .storage e ∧ Stranded tr m e
  storage := by
    intro tr c e h
    rcases h c rfl with hnone | ⟨⟨m, hm⟩, expected, target, rfl⟩
    · exact .inl (by simpa [hidBy, Seen.hid?] using hnone)
    · exact .inr ⟨m, e, rfl, expected, target, tr, rfl, hm⟩

theorem watched_free {e : Effect} (hnone : hidBy tr = []) : watched.asks tr e :=
  fun _ _ => .inl hnone

theorem watched_overflow (hnone : hidBy tr = []) : watched.faults tr .overflow := .inl hnone

theorem watched_park {o : Option Message} {expected : Option Int64} (ho : hidBy tr = o.toList) :
    watched.asks tr (.call (.swapCell .invisibility expected next)) := by
  rintro _ ⟨⟩
  cases o with
  | none => exact .inl ho
  | some m => exact .inr ⟨⟨m, ho⟩, expected, next, rfl⟩

/-- Since then, nothing was claimed. -/
def Unclaimed (tr tr' : List Seen) : Prop := tr <:+ tr' ∧ hidBy tr' = hidBy tr

theorem Unclaimed.refl : Unclaimed tr tr := ⟨List.suffix_refl tr, rfl⟩

theorem Unclaimed.cons {s : Seen} (hu : Unclaimed tr tr') (hs : s.hid? = none) :
    Unclaimed tr (s :: tr') :=
  ⟨hu.1.trans (List.suffix_cons s tr'), (hidBy_silent hs).trans hu.2⟩

theorem nextIndex_watched (hnone : hidBy tr = []) :
    nextIndex.Obeys watched (fun tr' i => Unclaimed tr tr' ∧
      ∃ cell, Told tr' (.readCell .counter) cell ∧ i = (counterValue cell).toUInt64) tr :=
  .bind (.call (watched_free hnone) fun cell =>
    .pure ⟨Unclaimed.refl.cons rfl, cell, List.mem_cons_self, rfl⟩)

theorem moveIf_watched {c : Cursor}
    (h : ∀ expected tr', hidBy tr' = hidBy tr →
      watched.asks tr' (.call (.swapCell c.cell expected next))) :
    (c.moveIf position next).Obeys watched (fun tr' _ => Unclaimed tr tr') tr := by
  refine .bind (.call (h _ _ rfl) fun a => ?_)
  match a with
  | .swapped => exact .pure (Unclaimed.refl.cons rfl)
  | .conflict (some found) => exact .pure (Unclaimed.refl.cons rfl)
  | .conflict none =>
    refine .ite (fun _ => ?_) fun _ => .pure (Unclaimed.refl.cons rfl)
    refine .bind (.call (h _ _ (hidBy_silent rfl)) fun a => ?_)
    cases a with
    | swapped => exact .pure ((Unclaimed.refl.cons rfl).cons rfl)
    | conflict found => exact .pure ((Unclaimed.refl.cons rfl).cons rfl)

theorem moveIf_moves {cell : Option Int64} (hnone : hidBy tr = [])
    (told : Told tr (.readCell .readerBucket) cell)
    (hp : Cursor.readerBucket.position cell = p) :
    (Cursor.readerBucket.moveIf p next).Obeys watched
      (fun tr' _ => Unclaimed tr tr' ∧ MovedOn tr' p) tr := by
  have hread : ∃ cell, Told tr (.readCell .readerBucket) cell ∧
      Cursor.readerBucket.position cell = p := ⟨cell, told, hp⟩
  refine .bind (.call (watched_free hnone) fun a => ?_)
  match a with
  | .swapped =>
    exact .pure ⟨Unclaimed.refl.cons rfl, _, _, _, _, List.suffix_refl _, hread, .inl ⟨rfl, nofun⟩⟩
  | .conflict (some found) =>
    exact .pure ⟨Unclaimed.refl.cons rfl, _, _, _, _, List.suffix_refl _, hread, .inl ⟨rfl, nofun⟩⟩
  | .conflict none =>
    refine .ite (fun hzero => ?_) fun hzero => .pure ⟨Unclaimed.refl.cons rfl, _, _, _, _,
      List.suffix_refl _, hread, .inl ⟨rfl, fun _ => hzero⟩⟩
    have hmoved : ∀ a, MovedOn (⟨.call (.swapCell .readerBucket none next), .ok a⟩ ::
        ⟨.call (.swapCell .readerBucket (some p) next), .ok (.conflict none)⟩ :: tr) p :=
      fun a => ⟨_, _, a, _, List.suffix_refl _,
        hread.imp fun _ h => ⟨List.mem_cons_of_mem _ h.1, h.2⟩, .inr ⟨rfl, hzero⟩⟩
    refine .bind (.call (watched_free ((hidBy_silent rfl).trans hnone)) fun a => ?_)
    cases a with
    | swapped => exact .pure ⟨(Unclaimed.refl.cons rfl).cons rfl, hmoved _⟩
    | conflict found => exact .pure ⟨(Unclaimed.refl.cons rfl).cons rfl, hmoved _⟩

theorem park_watched {i : UInt64} {o : Option Message} (ho : hidBy tr = o.toList) :
    (Queue.park position i).Obeys watched (fun tr' _ => Unclaimed tr tr') tr := by
  refine .ite (fun _ => ?_) fun _ => .pure Unclaimed.refl
  exact .andThen (moveIf_watched fun _ _ h => watched_park (h.trans ho)) fun tr' _ _ hu => .pure hu

theorem claimOrRetire_watched (hnone : hidBy tr = []) :
    (q.claimOrRetire m hide).Obeys watched (fun tr' o => hidBy tr' = o.toList) tr := by
  have free : ∀ {s : Seen} {e : Effect}, s.hid? = none → watched.asks (s :: tr) e :=
    fun hs => watched_free ((hidBy_silent hs).trans hnone)
  have kept : ∀ {s : Seen} {tr' : List Seen},
      s.hid? = none → hidBy tr' = [] → hidBy (s :: tr') = [] :=
    fun hs h => (hidBy_silent hs).trans h
  refine .ite (fun _ => ?_) fun _ => ?_
  · refine .bind (.bind (.inRange (fun n _ => .bind (.bind ?_))
      fun _ => watched_overflow hnone))
    refine .call (watched_free hnone) fun done => ?_
    cases done with
    | true => exact .pure (.pure (.bind (.tally nofun (.pure (kept rfl (kept rfl hnone))))))
    | false => exact .pure (.pure (.pure (kept rfl hnone)))
  · refine .bind (.bind (.now nofun fun u _ => .bind (.inRange (fun n _ => ?_)
      fun _ => watched_overflow (kept rfl hnone))))
    refine .bind (.call (free rfl) fun done => ?_)
    cases done with
    | true => exact .pure (.pure (congrArg (n :: ·) (kept rfl hnone)))
    | false => exact .pure (.bind (.tally nofun (.pure (kept rfl (kept rfl (kept rfl hnone))))))

def scanned : Queue.Scan → Option Message
  | .claimed m => some m
  | _ => none

def glanced : Queue.Glance → Option Message
  | .claimed m => some m
  | _ => none

theorem settle_watched {ms : List Message} (hnone : hidBy tr = []) :
    (q.settle position b ms).Obeys watched (fun tr' s => hidBy tr' = (scanned s).toList) tr := by
  unfold Queue.settle
  split
  · exact .andThen (park_watched (o := none) hnone) fun tr' _ _ hu => .pure (hu.2.trans hnone)
  · refine .ite (fun _ => .pure hnone) fun _ => ?_
    refine .andThen (nextIndex_watched hnone) fun tr' i _ hu => .pure ?_
    split <;> exact hu.1.2.trans hnone

theorem scan_watched (hnone : hidBy tr = []) :
    (q.scan position b hide).Obeys watched (fun tr' s => hidBy tr' = (scanned s).toList) tr := by
  refine .bind (.call (watched_free hnone) fun ms => .bind (.now nofun fun u _ => ?_))
  have hread : hidBy (⟨.now, u⟩ :: ⟨.call (.readBucket b), .ok ms⟩ :: tr) = [] := hnone
  split
  · exact .andThen (park_watched (o := none) hread) fun tr' _ _ hu => .pure (hu.2.trans hread)
  · refine .andThen (claimOrRetire_watched hread) fun tr' o _ hc => ?_
    cases o with
    | none => exact settle_watched hc
    | some m => exact .andThen (park_watched hc) fun tr'' _ _ hu => .pure (hu.2.trans hc)
  · exact settle_watched hread

theorem glance_watched (hnone : hidBy tr = []) :
    (q.glance position hide).Obeys watched (fun tr' g => hidBy tr' = (glanced g).toList) tr := by
  refine .ite (fun _ => .pure hnone) fun _ => .bind (.call (watched_free hnone) fun found => ?_)
  cases found with
  | none => exact .pure hnone
  | some m =>
    refine .ite (fun _ => .pure hnone) fun _ => .ite (fun _ => .pure hnone) fun _ => ?_
    refine .bind (.now nofun fun u _ => .ite (fun _ => .pure hnone) fun _ => ?_)
    refine .andThen (claimOrRetire_watched (by exact hnone)) fun tr' o _ hc => ?_
    cases o with
    | none => exact .pure hc
    | some m => exact .pure hc

theorem resurrectFrom_watched {n : Nat} (hnone : hidBy tr = []) :
    (q.resurrectFrom hide n position).Obeys watched (fun tr' o => hidBy tr' = o.toList) tr := by
  induction n generalizing position tr with
  | zero => exact .pure hnone
  | succ n ih =>
    refine .andThen (glance_watched hnone) fun tr₁ g _ hg => ?_
    cases g with
    | claimed m => exact .pure hg
    | held => exact .pure hg
    | past =>
      refine .andThen (scan_watched hg) fun tr₂ s _ hs => ?_
      cases s with
      | claimed m => exact .pure hs
      | parked => exact .pure hs
      | settled =>
        have hs : hidBy tr₂ = [] := hs
        refine .bind (.inRange (fun next _ => .bind (.inRange (fun start _ => ?_)
          fun _ => watched_overflow hs)) fun _ => watched_overflow hs)
        exact .andThen (moveIf_watched fun _ _ h => watched_free (h.trans hs))
          fun tr₃ at_ _ hu => ih (hu.2.trans hs)

/-- A search looks at the reader bucket, having claimed nothing and passed so many buckets. -/
def Forth (passed : Nat) (tr : List Seen) : Prop := hidBy tr = [] ∧ Covered passed tr

theorem forwardPass_watched {passed : Nat} (h : Forth passed tr) :
    (q.forwardPass limit hide passed).Obeys watched
      (passEnd Forth fun o tr => Finding q limit o tr) tr := by
  obtain ⟨hnone, hcovered⟩ := h
  refine .bind (.bind (.call (watched_free hnone) fun cell => .pure ?_))
  refine .bind (.call (watched_free (by exact hnone)) fun ms => .bind (.now nofun fun u _ => ?_))
  let position := Cursor.readerBucket.position cell
  let tr₁ : List Seen := ⟨.now, u⟩ :: ⟨.call (.readBucket position.toUInt64), .ok ms⟩ ::
    ⟨.call (.readCell .readerBucket), .ok cell⟩ :: tr
  have hread : ⟨.call (.readCell .readerBucket), .ok cell⟩ :: tr <:+ tr₁ :=
    (List.suffix_cons _ _).trans (List.suffix_cons _ _)
  have hnone₁ : hidBy tr₁ = [] := hnone
  have hfirst : Covered passed tr₁ := hcovered.mono ((List.suffix_cons _ _).trans hread)
  -- Whatever follows, this look was at a bucket that has as many before it.
  have hle : ∀ {tr'}, tr₁ <:+ tr' → Upward tr' → passed ≤ position.toUInt64.toNat :=
    fun hs hu => hcovered.le (hread.trans hs) hu
  split
  · refine .andThen (claimOrRetire_watched hnone₁) fun tr₂ o hs₂ hc => ?_
    cases o with
    | some claimed => exact .pure ⟨hc, nofun⟩
    | none => exact .pure ⟨hc, hfirst.mono hs₂⟩
  · rename_i hsome
    have hspent := List.find?_eq_none.mp (Option.eq_none_iff_forall_ne_some.mpr hsome)
    refine .andThen (nextIndex_watched hnone₁) fun tr₂ i _ hi => ?_
    obtain ⟨⟨hs₂, hsame⟩, count, htold, rfl⟩ := hi
    have hnone₂ : hidBy tr₂ = [] := hsame.trans hnone₁
    have spent : Spent tr₂ position.toUInt64 := by
      refine ⟨ms, u, hs₂.subset (List.mem_cons_of_mem _ List.mem_cons_self),
        hs₂.subset List.mem_cons_self, fun m hm => ?_⟩
      simpa [Message.visible, imp_iff_not_or] using hspent m hm
    have told : Told tr₂ (.readCell .readerBucket) cell :=
      (hread.trans hs₂).subset List.mem_cons_self
    refine .ite (fun hhead => .pure ⟨hnone₂, fun _ => ⟨cell, told, spent, .inl ⟨count, htold, ?_⟩⟩⟩)
      fun _ => ?_
    · simp only [Bool.and_eq_true, decide_eq_true_eq] at hhead
      exact hhead.2
    refine .ite (fun hlimit => .pure ⟨hnone₂, fun _ => ⟨cell, told, spent, .inr fun hu => ?_⟩⟩)
      fun _ => ?_
    · exact hlimit ▸ hle hs₂ hu
    refine .bind (.bind (.now (watched_free hnone₂) fun v _ => ?_))
    refine .call (watched_free (by exact hnone₂)) fun sealedAt => ?_
    refine .bind (.inRange (fun next _ => ?_) fun _ => watched_overflow (by exact hnone₂))
    have told₂ : Told
        (⟨.call (.insertTombstone position.toUInt64 v), .ok sealedAt⟩ :: ⟨.now, v⟩ :: tr₂)
        (.readCell .readerBucket) cell := List.mem_cons_of_mem _ (List.mem_cons_of_mem _ told)
    refine .andThen (moveIf_moves (by exact hnone₂) told₂ rfl) fun tr₃ at_ hs₃ hm => ?_
    obtain ⟨hu₃, hmoved⟩ := hm
    have hforth : Forth (passed + 1) tr₃ := by
      refine ⟨hu₃.2.trans hnone₂, .inr ⟨position, hmoved, fun hu => ?_⟩⟩
      exact Nat.succ_le_succ
        (hle (hs₂.trans (((List.suffix_cons _ _).trans (List.suffix_cons _ _)).trans hs₃)) hu)
    refine .ite (fun _ => ?_) fun _ => .pure hforth
    exact .bind (.tally (watched_free hforth.1)
      (.pure ⟨hforth.1, hforth.2.mono (List.suffix_cons _ _)⟩))

/-- A call that hands out a message has claimed it and nothing else, and one that hands out nothing
has claimed nothing and has searched the queue. -/
theorem nextMessage_watched :
    (q.nextMessage limit hide).Obeys watched (fun tr o => Finding q limit o tr) [] := by
  refine .andThen (P := fun tr o => hidBy tr = o.toList) ?_ fun tr₁ o _ ho => ?_
  · refine .bind (.bind (.call (watched_free rfl) fun cell => .pure ?_))
    exact resurrectFrom_watched rfl
  cases o with
  | some m => exact .bind (.tally nofun (.bind (.tally nofun (.pure ⟨ho, nofun⟩))))
  | none =>
    refine .andThen (P := fun tr o => Finding q limit o tr)
      (.loop Forth ⟨ho, .inl rfl⟩ fun _ _ h => forwardPass_watched h) fun tr₂ o _ hf => ?_
    cases o with
    | none => exact .pure hf
    | some m => exact .bind (.tally nofun (.pure ⟨hf.1, nofun⟩))

/-- What is seen of a reader's call by its end. -/
def Ending (q : Queue) (r : Request) (tr : List Seen) (result : Result) : Prop :=
  ∀ limit hide d, r = .receive limit hide → result = .ok (.delivery d) →
    ∃ o, d = o.map Delivery.of ∧ Finding q limit o tr

/-- What is seen of a reader's call when it fails. -/
def Failing (r : Request) (tr : List Seen) (result : Result) : Prop :=
  ∀ limit hide f, r = .receive limit hide → result = .error f → watched.faults tr f

/-- Every reader is watched, and ends as one. -/
theorem readers_watched (rule : Rule) :
    Keeps q rule (fun r tr e => ∀ limit hide, r = .receive limit hide → watched.asks tr e)
      fun r tr result => Ending q r tr result ∧ Failing r tr result := by
  intro r w hr
  cases r with
  | receive limit hide =>
    refine Program.Obeys.mono (fun _ _ h _ _ _ => h) (fun tr result hend => ?_)
      (Op.Obeys.map (R := fun tr reply => ∃ o, reply = .delivery (o.map Delivery.of) ∧
        Finding q limit o tr)
        (.bind (nextMessage_watched.mono fun tr o hf => .pure ⟨o, rfl, hf⟩)))
    cases result with
    | ok reply =>
      obtain ⟨o, rfl, hf⟩ := hend
      refine ⟨?_, nofun⟩
      rintro _ _ d ⟨⟩ ⟨⟩
      exact ⟨o, rfl, hf⟩
    | error f =>
      refine ⟨nofun, ?_⟩
      rintro _ _ _ ⟨⟩ ⟨⟩
      exact hend
  | _ => exact (requests_keep rule _ w hr).mono (fun _ _ _ => nofun) fun _ _ _ => ⟨nofun, nofun⟩

theorem readers_end (rule : Rule) : Keeps q rule (fun _ _ _ => True) (Ending q) :=
  fun r w hr => (readers_watched rule r w hr).mono (fun _ _ _ => trivial) fun _ _ h => h.1

/-! ## In every run -/

/-- The reader bucket has no cell that stands for its first position. -/
theorem Reachable.reader_cell_ne_zero (h : Reachable q Undropped w) :
    ∀ x, w.rows.cells.readerBucket = some x → x.toUInt64 ≠ 0 := by
  refine h.course (P := fun rows _ => ∀ x, rows.cells.readerBucket = some x → x.toUInt64 ≠ 0)
    (fun _ _ => id) nofun (fun _ _ _ _ ih => ih) (fun _ _ _ _ ih => ih) ?_
  intro v t r s rows hv _ hp hturn ih
  cases hturn with
  | leaves _ => exact ih
  | inserts _ => exact ih
  | replaces _ => exact ih
  | deletes => exact ih
  | records _ => exact ih
  | @swaps cell target =>
    cases cell with
    | counter => exact ih
    | invisibility => exact ih
    | repairBucket => exact ih
    | readerBucket =>
      intro x hx hzero
      cases hx
      have hnext := (hv.swap_reader_next hp).1
      rw [hzero, UInt64.toNat_zero] at hnext
      omega

/-- A task moves on only from what the reader bucket has left, moved by the task or by another. -/
theorem Reachable.moved_on (h : Reachable q Undropped w) (hm : MovedOn (seenBy t w.history) p) :
    p.toUInt64 < cursorAt q .readerBucket w.rows := by
  obtain ⟨expected, next, a, before, hs, ⟨cell, told, hcell⟩, hexpected⟩ := hm
  obtain ⟨c, rows, past, hat, rfl⟩ := performed_of_seenBy hs
  obtain ⟨v, r, _, _, hv, rfl, rfl, rfl, ht, _, _⟩ := h.at_effect hat
  have hp := (hv.task_obeys (requests_keep _) ht).2.1
  -- The reader bucket has not gone back since the task read it.
  have hle : p.toUInt64 ≤ cursorAt q .readerBucket v.rows := by
    obtain ⟨_, _, _, _, hs₀, _, _, hans₀⟩ := hv.seen_at told
    refine (lasting_cursor .readerBucket p.toUInt64).since hv (hs₀.subset List.mem_cons_self)
      (UInt64.le_of_eq ?_)
    rw [← hcell]
    cases hans₀
    rfl
  refine (lasting_past .readerBucket p.toUInt64).after h (hat.subset List.mem_cons_self) ?_
  intro rows' hans
  simp only [Answered, Rows.apply] at hans
  split at hans
  · -- The swap was applied.
    rename_i hfound
    cases hans
    rw [← hfound] at hp
    have hnext := (hv.swap_reader_next hp).1
    rw [UInt64.le_iff_toNat_le] at hle
    have hset : cursorAt q .readerBucket
        { v.rows with cells := v.rows.cells.set .readerBucket next } = next.toUInt64 := cursorAt_set
    rw [hset, UInt64.lt_iff_toNat_lt]
    omega
  · rename_i hother
    cases hans
    refine UInt64.lt_of_le_of_ne hle fun heq => ?_
    change ¬ v.rows.cells.readerBucket = expected at hother
    change p.toUInt64 = (Cursor.readerBucket.position v.rows.cells.readerBucket).toUInt64 at heq
    have hsame : p = Cursor.readerBucket.position v.rows.cells.readerBucket :=
      calc
        p = p.toUInt64.toInt64 := p.toInt64_toUInt64.symm
        _ = _ := congrArg UInt64.toInt64 heq
        _ = _ := Int64.toInt64_toUInt64 _
    rcases hexpected with ⟨rfl, hne⟩ | ⟨rfl, hzero⟩
    · cases hfound : v.rows.cells.readerBucket with
      | none => exact hne (congrArg Swap.conflict hfound) (hsame.trans (by rw [hfound]; rfl))
      | some x => exact hother (by rw [hfound, hsame, hfound]; rfl)
    · cases hfound : v.rows.cells.readerBucket with
      | none => exact hother hfound
      | some x =>
        refine hv.reader_cell_ne_zero x hfound ?_
        rw [hfound] at heq
        rw [← show p.toUInt64 = x.toUInt64 from heq, hzero]
        rfl

theorem Reachable.upward (h : Reachable q Undropped w) : Upward (seenBy t w.history) := by
  intro cell before hs p hm
  obtain ⟨c, rows, past, hat, rfl⟩ := performed_of_seenBy hs
  obtain ⟨v, _, _, _, hv, rfl, rfl, _, _, hans, _⟩ := h.at_effect hat
  cases hans
  exact hv.moved_on hm

end LeaseQueue.Shared
