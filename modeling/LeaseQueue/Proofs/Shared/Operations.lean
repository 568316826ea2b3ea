import LeaseQueue.Proofs.Shared.Permitted
import LeaseQueue.Proofs.Shared.Succession

/-
  The operations keep to what their requests are permitted.

  Each operation is opened here once, in the order in which one is built on the
  other: a lemma says what it asks for and what it has seen when it answers.
  `requests_keep` puts them together, so that whoever reasons about a run looks
  at `Permitted` and `Ends` and at no operation again.
-/

namespace LeaseQueue.Shared

def contract (q : Queue) (r : Request) : Contract where
  asks := Permitted q r
  faults := Faults q
  storage := fun _ _ _ _ => trivial

variable {q : Queue} {r : Request} {tr tr' : List Seen} {limit : Nat} {hide : Duration}
  {cfg : Repair.Config}

theorem contract_looks {e : Effect} (h : Writing e = false) : (contract q r).asks tr e :=
  Permitted.looks h

theorem contract_overflow : (contract q r).faults tr .overflow := trivial

/-! ## What was seen in between -/

/-- The effect reads a bucket or sleeps. -/
def Stirs : Effect → Bool
  | .call (.readBucket _) => true
  | .sleepUntil _ => true
  | _ => false

/-- From `tr` to `tr'`, no bucket was read and nobody slept. -/
structure Steady (tr tr' : List Seen) : Prop where
  suffix : tr <:+ tr'
  reads : ∀ b, lastRead b tr' = lastRead b tr
  sleeps : ∀ wake, ⟨.sleepUntil wake, ()⟩ ∈ tr' → ⟨.sleepUntil wake, ()⟩ ∈ tr

theorem Steady.refl : Steady tr tr := ⟨List.suffix_refl tr, fun _ => rfl, fun _ h => h⟩

theorem Steady.cons {s : Seen} (h : Steady tr tr') (hs : Stirs s.effect = false) :
    Steady tr (s :: tr') := by
  refine ⟨h.suffix.trans (List.suffix_cons s tr'), fun b => ?_, fun wake hw => ?_⟩
  · rw [← h.reads b, lastRead]
    rintro b' ms rfl
    cases hs
  · rcases List.mem_cons.mp hw with rfl | hw
    · cases hs
    · exact h.sleeps wake hw

theorem Steady.trans {tr'' : List Seen} (h : Steady tr tr') (h' : Steady tr' tr'') :
    Steady tr tr'' :=
  ⟨h.suffix.trans h'.suffix, fun b => (h'.reads b).trans (h.reads b),
    fun wake hw => h.sleeps wake (h'.sleeps wake hw)⟩

theorem Known.mono {m : Message} (hs : tr <:+ tr') (h : Known tr m) : Known tr' m := by
  rcases h with ⟨b, ms, h, hm⟩ | ⟨b, i, h⟩
  · exact .inl ⟨b, ms, hs.subset h, hm⟩
  · exact .inr ⟨b, i, hs.subset h⟩

theorem lastRead_told {b : UInt64} {ms : List Message} {before : List Seen}
    (h : lastRead b tr = some (ms, before)) : Told tr (.readBucket b) ms := by
  fun_induction lastRead b tr with
  | case1 => cases h
  | case2 ms' tr =>
    cases h
    exact List.mem_cons_self
  | case3 b' ms' tr hne ih => exact List.mem_cons_of_mem _ (ih h)
  | case4 s tr hs ih => exact List.mem_cons_of_mem _ (ih h)

theorem known_of_told {b : UInt64} {ms : List Message} {m : Message}
    (h : Told tr (.readBucket b) ms) (hm : m ∈ ms) : Known tr m := .inl ⟨b, ms, h, hm⟩

/-! ## Indices and cursors -/

theorem allocate_obeys :
    allocate.Obeys (contract q r) (fun tr' i => inHand tr' = some i ∧ Steady tr tr') tr := by
  refine .bind (.call (contract_looks rfl) fun cell => ?_)
  refine .loop (fun seen tr' => counterSeen tr' = some seen ∧ Steady tr tr')
    ⟨rfl, Steady.refl.cons rfl⟩ fun seen tr' hI => ?_
  obtain ⟨saw, hs⟩ := hI
  refine .bind (.inRange (fun next hn => ?_) fun _ => contract_overflow)
  refine .bind (.call (.takes saw hn) fun a => ?_)
  cases a with
  | swapped => exact .pure ⟨rfl, hs.cons rfl⟩
  | conflict found => exact .pure ⟨rfl, hs.cons rfl⟩

theorem nextIndex_obeys :
    nextIndex.Obeys (contract q r) (fun tr' i => Steady tr tr' ∧
      ∃ cell, Told tr' (.readCell .counter) cell ∧ i = (counterValue cell).toUInt64) tr :=
  .bind (.call (contract_looks rfl) fun cell =>
    .pure ⟨Steady.refl.cons rfl, cell, List.mem_cons_self, rfl⟩)

theorem cursorGet_obeys {c : Cursor} :
    c.get.Obeys (contract q r) (fun tr' _ => Steady tr tr') tr :=
  .bind (.call (contract_looks rfl) fun _ => .pure (Steady.refl.cons rfl))

/-- A cursor may be moved if the grounds for it outlast the first swap. -/
theorem moveIf_obeys {c : Cursor} {position target : Int64}
    (h : ∀ tr' expected, Steady tr tr' → Expects c position expected →
      Permitted q r tr' (.call (.swapCell c.cell expected target))) :
    (c.moveIf position target).Obeys (contract q r) (fun tr' _ => Steady tr tr') tr := by
  refine .bind (.call (h tr (some position) Steady.refl (.inl rfl)) fun a => ?_)
  match a with
  | .swapped => exact .pure (Steady.refl.cons rfl)
  | .conflict (some found) => exact .pure (Steady.refl.cons rfl)
  | .conflict none =>
    refine .ite (fun hp => ?_) fun _ => .pure (Steady.refl.cons rfl)
    refine .bind (.call (h _ none (Steady.refl.cons rfl) (.inr ⟨rfl, hp⟩)) fun a => ?_)
    cases a with
    | swapped => exact .pure ((Steady.refl.cons rfl).cons rfl)
    | conflict found => exact .pure ((Steady.refl.cons rfl).cons rfl)

/-! ## Messages -/

theorem write_obeys {i : UInt64} {blob : Blob} {delay : Duration} (hi : inHand tr = some i)
    (h : ∀ tr' m, tr <:+ tr' → Inserts tr' blob delay m →
      Permitted q r tr' (.call (.insertMessage (q.bucketOf m.index) m))) :
    (q.write i blob delay).Obeys (contract q r) (fun tr' m => Steady tr tr' ∧ m.index = i ∧
      Told tr' (.insertMessage (q.bucketOf i) m) true) tr := by
  refine .bind (.now (contract_looks rfl) fun t _ => ?_)
  refine .bind (.drawTag (contract_looks rfl) fun tag => ?_)
  have hs : Steady tr (⟨.drawTag, tag⟩ :: ⟨.now, t⟩ :: tr) := (Steady.refl.cons rfl).cons rfl
  have hins : Inserts (⟨.drawTag, tag⟩ :: ⟨.now, t⟩ :: tr) blob delay
      (Message.fresh i blob tag t delay) :=
    ⟨hi, rfl, t, tag, List.mem_cons_of_mem _ List.mem_cons_self, rfl⟩
  refine .bind (.call (h _ _ hs.suffix hins) fun done => ?_)
  cases done with
  | true => exact .pure ⟨hs.cons rfl, rfl, List.mem_cons_self⟩
  | false => exact .throw ⟨_, rfl, List.mem_cons_self⟩

theorem replace_obeys {next : Message} {cond : Condition}
    (h : Permitted q r tr (.call (.updateMessage (q.bucketOf next.index) next cond))) :
    (q.replace next cond).Obeys (contract q r) (fun tr' o => Steady tr tr' ∧
      ∃ done, o = (if done then some next else none) ∧
        Told tr' (.updateMessage (q.bucketOf next.index) next cond) done) tr :=
  .bind (.call h fun done => .pure ⟨Steady.refl.cons rfl, done, rfl, List.mem_cons_self⟩)

theorem acknowledge_obeys {m : Message}
    (h : ∀ next, m.acknowledged? = some next →
      Permitted q r tr (.call (.updateMessage (q.bucketOf m.index) next ⟨m.version, false⟩))) :
    (q.acknowledge m).Obeys (contract q r)
      (fun tr' done => Steady tr tr' ∧ Tried q tr' m done) tr := by
  refine .bind (.inRange (fun next hn => ?_) fun _ => contract_overflow)
  have hi : next.index = m.index := (Message.became_of_acknowledged? hn).index
  refine .andThen (replace_obeys (hi ▸ h next hn)) fun tr' o _ ho => ?_
  obtain ⟨hs, done, rfl, told⟩ := ho
  refine .pure ⟨hs, next, hn, ?_⟩
  rw [hi] at told
  cases done <;> exact told

/-- A write of the task that hides a message from the readers was applied, and left it as `m`. -/
def Hid (q : Queue) (tr : List Seen) (v : UInt64) (m : Message) : Prop :=
  Told tr (.updateMessage (q.bucketOf m.index) m ⟨v, true⟩) true

theorem claim_obeys {m : Message} (known : Known tr m) (unacked : m.acked = false)
    (visible : ∃ t, Clocked tr t ∧ m.visibleAt ≤ t) (within : q.exhausted m.deliveries = false) :
    (q.claim m hide).Obeys (contract q (.receive limit hide)) (fun tr' o => Steady tr tr' ∧
      ∀ next, o = some next → next.index = m.index ∧ Hid q tr' m.version next) tr := by
  refine .bind (.now (contract_looks rfl) fun t _ => ?_)
  refine .bind (.inRange (fun next hn => ?_) fun _ => contract_overflow)
  have hi : next.index = m.index := (Message.became_of_claimed? hn).index
  obtain ⟨u, hu, hle⟩ := visible
  have hs : Steady tr (⟨.now, t⟩ :: tr) := Steady.refl.cons rfl
  have hc : Claims q (⟨.now, t⟩ :: tr) hide m next :=
    ⟨known.mono hs.suffix, unacked, ⟨u, hs.suffix.subset hu, hle⟩, within,
      t, List.mem_cons_self, hn⟩
  refine (replace_obeys (hi ▸ .claims hc)).mono fun tr' o ho => ?_
  obtain ⟨hs', done, rfl, told⟩ := ho
  refine ⟨hs.trans hs', fun n hnext => ?_⟩
  cases done with
  | true =>
    cases hnext
    exact ⟨hi, told⟩
  | false => cases hnext

theorem claimOrRetire_obeys {m : Message} (known : Known tr m) (unacked : m.acked = false)
    (visible : ∃ t, Clocked tr t ∧ m.visibleAt ≤ t) :
    (q.claimOrRetire m hide).Obeys (contract q (.receive limit hide)) (fun tr' o => Steady tr tr' ∧
      ∀ next, o = some next → next.index = m.index ∧ Hid q tr' m.version next) tr := by
  refine .ite (fun hx => ?_) fun hx => ?_
  · have hack : ∀ next, m.acknowledged? = some next → Permitted q (.receive limit hide) tr
        (.call (.updateMessage (q.bucketOf m.index) next ⟨m.version, false⟩)) :=
      fun next hn => .retires ⟨known, unacked, hx, hn⟩
    refine .andThen (acknowledge_obeys hack) fun tr' done _ hd => ?_
    refine .ite (fun _ => ?_) fun _ => .pure ⟨hd.1, nofun⟩
    exact .bind (.tally (contract_looks rfl) (.pure ⟨hd.1.cons rfl, nofun⟩))
  · have within : q.exhausted m.deliveries = false := by simpa using hx
    refine .andThen (claim_obeys known unacked visible within) fun tr' o _ ho => ?_
    cases o with
    | some next => exact .pure ho
    | none => exact .bind (.tally (contract_looks rfl) (.pure ⟨ho.1.cons rfl, nofun⟩))

/-! ## Readers -/

theorem leastOf_of_all {P : UInt64 → Prop} {i : UInt64} {others : List (Option UInt64)} (hi : P i)
    (hs : ∀ j, some j ∈ others → P j) : P (Queue.leastOf i others) := by
  induction others generalizing i with
  | nil => exact hi
  | cons o others ih =>
    refine ih ?_ fun j hj => hs j (List.mem_cons_of_mem o hj)
    cases o with
    | none =>
      show P (min i i)
      rw [Std.min_self]
      exact hi
    | some j =>
      show P (min i j)
      rcases Std.MinEqOr.min_eq_or i j with h | h
      · rw [h]
        exact hi
      · rw [h]
        exact hs j List.mem_cons_self

theorem leastOf_le {i : UInt64} {others : List (Option UInt64)} :
    Queue.leastOf i others ≤ i ∧ ∀ j, some j ∈ others → Queue.leastOf i others ≤ j := by
  induction others generalizing i with
  | nil => exact ⟨UInt64.le_refl i, fun j hj => absurd hj List.not_mem_nil⟩
  | cons o others ih =>
    obtain ⟨hi, hs⟩ := ih (i := min i (o.getD i))
    refine ⟨UInt64.le_trans hi Std.min_le_left, fun j hj => ?_⟩
    rcases List.mem_cons.mp hj with rfl | hj
    · exact UInt64.le_trans hi Std.min_le_right
    · exact hs j hj

/-- The messages of the invisibility cursor's bucket, as they were last read. -/
def Spread (q : Queue) (position : Int64) (ms : List Message) (tr : List Seen) : Prop :=
  ∃ before, lastRead (q.bucketOfCursor position) tr = some (ms, before)

theorem Spread.steady {position : Int64} {ms : List Message} (h : Spread q position ms tr)
    (hs : Steady tr tr') : Spread q position ms tr' :=
  h.imp fun _ hb => (hs.reads _).trans hb

theorem park_obeys {position : Int64} {i : UInt64} {ms : List Message}
    (hr : Spread q position ms tr) (hi : ∃ m ∈ ms, m.index = i)
    (hfirst : ∀ j, Queue.firstPending ms = some j → i ≤ j) :
    (Queue.park position i).Obeys (contract q (.receive limit hide))
      (fun tr' _ => Steady tr tr') tr := by
  obtain ⟨m, hm, rfl⟩ := hi
  refine .ite (fun _ => ?_) fun _ => .pure Steady.refl
  have hp : ∀ tr' expected, Steady tr tr' → Expects .invisibility position expected →
      Permitted q (.receive limit hide) tr'
        (.call (.swapCell .invisibility expected m.index.toInt64)) := by
    intro tr' expected hs he
    obtain ⟨before, hb⟩ := hr.steady hs
    exact .parks he ⟨ms, before, m, hb, hm, rfl, hfirst⟩
  exact .andThen (moveIf_obeys hp) fun tr' _ _ hs => .pure hs

theorem firstPending_mem {ms : List Message} {i : UInt64} (h : Queue.firstPending ms = some i) :
    ∃ m ∈ ms, m.index = i := by
  obtain ⟨m, hm, rfl⟩ := Option.map_eq_some_iff.mp h
  exact ⟨m, List.mem_of_find?_eq_some hm, rfl⟩

theorem firstInFlight_mem {ms : List Message} {t : Instant} {i : UInt64}
    (h : Queue.firstInFlight ms t = some i) : ∃ m ∈ ms, m.index = i := by
  obtain ⟨m, hm, rfl⟩ := Option.map_eq_some_iff.mp h
  exact ⟨m, List.mem_of_find?_eq_some hm, rfl⟩

/-- All in the cursor's bucket was last read acknowledged, and the counter has passed it. -/
def Emptied (q : Queue) (position : Int64) (tr : List Seen) : Prop :=
  (∃ ms, Spread q position ms tr ∧ ∀ m ∈ ms, m.acked = true) ∧
    ∃ cell, Told tr (.readCell .counter) cell ∧
      q.bucketOfCursor position < q.bucketOf (counterValue cell).toUInt64

/-- What was seen when a scan comes to its result. -/
def ScanEnd (q : Queue) (position : Int64) (tr : List Seen) : Queue.Scan → Prop
  | .claimed m => ∃ v, Hid q tr v m
  | .parked => True
  | .settled => Emptied q position tr

theorem settle_obeys {position : Int64} {ms : List Message} (hr : Spread q position ms tr) :
    (q.settle position (q.bucketOfCursor position) ms).Obeys (contract q (.receive limit hide))
      (ScanEnd q position) tr := by
  unfold Queue.settle
  split
  · rename_i i hp
    refine .andThen
      (park_obeys hr (firstPending_mem hp) fun j hj => ?_) fun _ _ _ _ => .pure trivial
    exact UInt64.le_of_eq (Option.some.inj (hp.symm.trans hj))
  · refine .ite (fun _ => .pure trivial) fun hacked => ?_
    refine .andThen nextIndex_obeys fun tr' i _ hi => ?_
    obtain ⟨hs, cell, told, rfl⟩ := hi
    by_cases hle : q.bucketOf (counterValue cell).toUInt64 ≤ q.bucketOfCursor position
    · rw [if_pos hle]
      exact .pure trivial
    · rw [if_neg hle]
      refine .pure ⟨⟨ms, hr.steady hs, ?_⟩, cell, told, UInt64.not_le.mp hle⟩
      simpa using hacked

theorem scan_obeys {position : Int64} :
    (q.scan position (q.bucketOfCursor position) hide).Obeys (contract q (.receive limit hide))
      (ScanEnd q position) tr := by
  refine .bind (.call (contract_looks rfl) fun ms => ?_)
  have hr : Spread q position ms
      (⟨.call (.readBucket (q.bucketOfCursor position)), .ok ms⟩ :: tr) :=
    ⟨tr, by rw [lastRead, if_pos rfl]⟩
  refine .bind (.now (contract_looks rfl) fun t _ => ?_)
  have hr' := hr.steady (Steady.refl.cons (s := ⟨.now, t⟩) rfl)
  split
  · rename_i i o hw
    refine .andThen (park_obeys hr' ?_ fun j hj => leastOf_le.2 j (by simp [hj]))
      fun _ _ _ _ => .pure trivial
    refine leastOf_of_all (P := fun i => ∃ m ∈ ms, m.index = i) (firstInFlight_mem hw) ?_
    intro j hj
    simp only [List.mem_cons, List.not_mem_nil, or_false] at hj
    rcases hj with hj | hj
    · obtain ⟨m, hm, rfl⟩ := Option.map_eq_some_iff.mp hj.symm
      exact ⟨m, List.mem_of_find?_eq_some hm, rfl⟩
    · exact firstPending_mem hj.symm
  · rename_i m _ he
    have hm : m ∈ ms := List.mem_of_find?_eq_some he
    have hexp : m.expired t = true := List.find?_some (p := (Message.expired · t)) he
    simp only [Message.expired, Message.visible, Bool.and_eq_true, Bool.not_eq_true',
      decide_eq_true_eq] at hexp
    obtain ⟨before, hb⟩ := hr'
    refine .andThen (claimOrRetire_obeys (known_of_told (lastRead_told hb) hm) hexp.1.1
      ⟨t, List.mem_cons_self, hexp.2⟩) fun tr' o _ ho => ?_
    obtain ⟨hs, hnext⟩ := ho
    cases o with
    | none => exact settle_obeys (Spread.steady ⟨before, hb⟩ hs)
    | some next =>
      obtain ⟨hi, hid⟩ := hnext next rfl
      refine .andThen (park_obeys (Spread.steady ⟨before, hb⟩ hs) ?_
        fun j hj => leastOf_le.2 j (by simp [hj])) fun tr'' _ hs' _ => ?_
      · refine leastOf_of_all (P := fun i => ∃ m ∈ ms, m.index = i) ⟨m, hm, hi.symm⟩ ?_
        intro j hj
        exact firstPending_mem (List.mem_singleton.mp hj).symm
      · exact .pure ⟨m.version, hs'.subset hid⟩
  · exact settle_obeys hr'

/-- What was seen when a look at the message under the cursor comes to its result. -/
def GlanceEnd (q : Queue) (tr : List Seen) : Queue.Glance → Prop
  | .claimed m => ∃ v, Hid q tr v m
  | _ => True

theorem glance_obeys {position : Int64} :
    (q.glance position hide).Obeys (contract q (.receive limit hide)) (GlanceEnd q) tr := by
  refine .ite (fun _ => .pure trivial) fun _ => ?_
  refine .bind (.call (contract_looks rfl) fun found => ?_)
  cases found with
  | none => exact .pure trivial
  | some m =>
    refine .ite (fun _ => .pure trivial) fun hack => ?_
    refine .ite (fun _ => .pure trivial) fun _ => ?_
    refine .bind (.now (contract_looks rfl) fun t _ => ?_)
    refine .ite (fun _ => .pure trivial) fun hvis => ?_
    have known : Known (⟨.now, t⟩ :: ⟨.call (.readMessage (q.bucketOf position.toUInt64)
        position.toUInt64), .ok (some m)⟩ :: tr) m :=
      .inr ⟨_, _, List.mem_cons_of_mem _ List.mem_cons_self⟩
    have unacked : m.acked = false := by simpa using hack
    have visible : m.visibleAt ≤ t := by simpa [Message.visible] using hvis
    refine .andThen (claimOrRetire_obeys known unacked ⟨t, List.mem_cons_self, visible⟩)
      fun tr' o _ ho => ?_
    cases o with
    | none => exact .pure trivial
    | some next => exact .pure ⟨m.version, (ho.2 next rfl).2⟩

/-- The message found, if any, was claimed. -/
def Found (q : Queue) (tr : List Seen) (o : Option Message) : Prop :=
  ∀ m, o = some m → ∃ v, Hid q tr v m

theorem found_none : Found q tr none := nofun

theorem found_some {m : Message} (h : ∃ v, Hid q tr v m) : Found q tr (some m) := by
  intro n hn
  cases hn
  exact h

theorem resurrectFrom_obeys {n : Nat} {position : Int64} :
    (q.resurrectFrom hide n position).Obeys (contract q (.receive limit hide)) (Found q) tr := by
  induction n generalizing position tr with
  | zero => exact .pure found_none
  | succ n ih =>
    refine .andThen glance_obeys fun tr₁ g _ hg => ?_
    cases g with
    | claimed m => exact .pure (found_some hg)
    | held => exact .pure found_none
    | past =>
      refine .andThen scan_obeys fun tr₂ s _ hs => ?_
      cases s with
      | claimed m => exact .pure (found_some hs)
      | parked => exact .pure found_none
      | settled =>
        refine .bind (.inRange (fun next hnext => ?_) fun _ => contract_overflow)
        refine .bind (.inRange (fun start hstart => ?_) fun _ => contract_overflow)
        obtain ⟨⟨ms, hr, hacked⟩, cell, told, hlt⟩ := hs
        have hp : ∀ tr' expected, Steady tr₂ tr' → Expects .invisibility position expected →
            Permitted q (.receive limit hide) tr'
              (.call (.swapCell .invisibility expected start.toInt64)) := by
          intro tr' expected hs he
          obtain ⟨before, hb⟩ := hr.steady hs
          exact .leaves he
            ⟨⟨ms, before, hb, hacked⟩, ⟨cell, hs.suffix.subset told, hlt⟩,
              next, start, hnext, hstart, rfl⟩
        exact .andThen (moveIf_obeys hp) fun _ _ _ _ => ih

theorem forwardPass_obeys {passed : Nat} :
    (q.forwardPass limit hide passed).Obeys (contract q (.receive limit hide))
      (passEnd (fun _ _ => True) fun o tr => Found q tr o) tr := by
  refine .andThen cursorGet_obeys fun tr₁ position _ _ => ?_
  refine .bind (.call (contract_looks rfl) fun ms => ?_)
  refine .bind (.now (contract_looks rfl) fun t _ => ?_)
  have told : Told (⟨.now, t⟩ :: ⟨.call (.readBucket position.toUInt64), .ok ms⟩ :: tr₁)
      (.readBucket position.toUInt64) ms := List.mem_cons_of_mem _ List.mem_cons_self
  have clocked : Clocked (⟨.now, t⟩ :: ⟨.call (.readBucket position.toUInt64), .ok ms⟩ :: tr₁) t :=
    List.mem_cons_self
  split
  · rename_i m hm
    have hfree := List.find?_some hm
    simp only [Message.visible, Bool.and_eq_true, Bool.not_eq_true', decide_eq_true_eq] at hfree
    refine .andThen (claimOrRetire_obeys (known_of_told told (List.mem_of_find?_eq_some hm)) hfree.1
      ⟨t, clocked, hfree.2⟩) fun tr₂ o _ ho => ?_
    cases o with
    | none => exact .pure trivial
    | some next => exact .pure (found_some ⟨m.version, (ho.2 next rfl).2⟩)
  · rename_i hsome
    have hnone := List.find?_eq_none.mp (Option.eq_none_iff_forall_ne_some.mpr hsome)
    refine .andThen nextIndex_obeys fun tr₂ i hs hi => ?_
    obtain ⟨_, cell, htold, rfl⟩ := hi
    refine .ite (fun _ => .pure found_none) fun hclosed => ?_
    refine .ite (fun _ => .pure found_none) fun _ => ?_
    refine .andThen
      (P := fun tr' at_ => ∃ t', Told tr' (.insertTombstone position.toUInt64 t') at_) ?_
      fun tr₃ sealedAt hs₃ hsealed => ?_
    · refine .bind (.now (contract_looks rfl) fun t' _ => ?_)
      refine .call (.seals List.mem_cons_self ⟨⟨ms, t, ?_, ?_, ?_⟩, ?_⟩) fun a =>
        ⟨t', List.mem_cons_self⟩
      · exact List.mem_cons_of_mem _ (hs.subset told)
      · exact List.mem_cons_of_mem _ (hs.subset clocked)
      · intro m hm
        simpa [Message.visible, imp_iff_not_or] using hnone m hm
      · by_cases hfull : ms.length = q.bucketSize.toNat
        · exact .inl ⟨ms, List.mem_cons_of_mem _ (hs.subset told), hfull⟩
        · refine .inr ⟨cell, List.mem_cons_of_mem _ htold, ?_⟩
          simpa [hfull] using hclosed
    · obtain ⟨t', hsealed⟩ := hsealed
      refine .bind (.inRange (fun next hnext => ?_) fun _ => contract_overflow)
      have hp : ∀ tr' expected, Steady tr₃ tr' → Expects .readerBucket position expected →
          Permitted q (.receive limit hide) tr' (.call (.swapCell .readerBucket expected next)) :=
        fun tr' expected hs he => .advances he (hs.suffix.subset hsealed) hnext
      refine .andThen (moveIf_obeys hp) fun tr₄ at_ _ _ => ?_
      refine .ite (fun _ => ?_) fun _ => .pure trivial
      exact .bind (.tally (contract_looks rfl) (.pure trivial))

theorem nextMessage_obeys :
    (q.nextMessage limit hide).Obeys (contract q (.receive limit hide)) (Found q) tr := by
  refine .andThen (.andThen cursorGet_obeys fun _ _ _ _ => resurrectFrom_obeys) fun tr₁ o _ ho => ?_
  cases o with
  | some m =>
    obtain ⟨v, hv⟩ := ho m rfl
    refine .bind (.tally (contract_looks rfl) (.bind (.tally (contract_looks rfl) (.pure ?_))))
    exact found_some ⟨v, List.mem_cons_of_mem _ (List.mem_cons_of_mem _ hv)⟩
  | none =>
    refine .andThen (P := Found q) (.loop (fun _ _ => True) trivial fun _ _ _ => forwardPass_obeys)
      fun tr₂ o _ ho => ?_
    cases o with
    | none => exact .pure found_none
    | some m =>
      obtain ⟨v, hv⟩ := ho m rfl
      exact .bind (.tally (contract_looks rfl) (.pure (found_some ⟨v, List.mem_cons_of_mem _ hv⟩)))

/-! ## Producers and consumers -/

theorem put_obeys {blob : Blob} {delay : Duration} :
    (q.put blob delay).Obeys (contract q (.put blob delay)) (fun tr' i =>
      ∃ m, m.index = i ∧ Told tr' (.insertMessage (q.bucketOf m.index) m) true) tr := by
  refine .andThen allocate_obeys fun tr₁ i _ hi => ?_
  refine .andThen (write_obeys hi.1 fun _ _ _ h => .puts h) fun tr₂ m _ hm => .pure ?_
  obtain ⟨_, rfl, told⟩ := hm
  exact ⟨m, rfl, told⟩

theorem authorize_obeys {receipt : Receipt} :
    (q.authorize receipt).Obeys (contract q r) (fun tr' o =>
      ∀ m, o = some m → Authorized q tr' receipt m) tr := by
  refine .bind (.call (contract_looks rfl) fun found => .pure fun m hm => ?_)
  obtain ⟨rfl, hfits⟩ := Option.filter_eq_some_iff.mp hm
  exact ⟨List.mem_cons_self, hfits⟩

theorem ack_obeys {receipt : Receipt} :
    (q.ack receipt).Obeys (contract q (.ack receipt)) (fun tr' done => done = true →
      ∃ m, Told tr' (.updateMessage (q.bucketOf receipt.index) m ⟨receipt.version, false⟩) true)
      tr := by
  refine .andThen authorize_obeys fun tr₁ o _ ho => ?_
  cases o with
  | none => exact .pure nofun
  | some m =>
    have hauth := ho m rfl
    refine (acknowledge_obeys fun next hn => .acks hauth hn).mono fun tr₂ done hd => ?_
    rintro rfl
    obtain ⟨_, next, _, told⟩ := hd
    rw [Receipt.fits_iff.mp hauth.fits]
    exact ⟨next, told⟩

theorem update_obeys {receipt : Receipt} {blob : Blob} :
    (q.update receipt blob hide).Obeys (contract q (.update receipt blob hide)) (fun tr' o =>
      ∀ given, o = some given → ∃ m, given = Receipt.of m ∧ Hid q tr' receipt.version m) tr := by
  refine .andThen authorize_obeys fun tr₁ o _ ho => ?_
  cases o with
  | none => exact .pure nofun
  | some m =>
    have hauth := ho m rfl
    refine .bind (.bind (.now (contract_looks rfl) fun t _ => ?_))
    refine .bind (.inRange (fun next hn => ?_) fun _ => contract_overflow)
    have hi : next.index = m.index := (Message.became_of_revised? hn).index
    have hauth' : Authorized q (⟨.now, t⟩ :: tr₁) receipt m :=
      ⟨List.mem_cons_of_mem _ hauth.told, hauth.fits⟩
    refine (replace_obeys (hi ▸ .revises hauth' List.mem_cons_self hn)).mono
      fun tr₂ o ho => .pure ?_
    obtain ⟨_, done, rfl, told⟩ := ho
    rintro given hg
    cases done with
    | false => cases hg
    | true =>
      cases hg
      rw [Receipt.fits_iff.mp hauth.fits]
      exact ⟨next, rfl, told⟩

end LeaseQueue.Shared
