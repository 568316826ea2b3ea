import Mathlib.Algebra.Ring.Int.Defs
import Mathlib.Algebra.Ring.Nat
import LeaseQueue.Proofs.Shared.Conversion
import LeaseQueue.Proofs.Shared.Progress

/-
  Operations that stay within their ranges.

  While what a task is answered is in range (`Seen.InRange`), its operation does
  the same with conversions that keep the value as it does by the bits, and it
  never runs past the end of a range. A bucket of the store is in range, and what
  comes after it is because the operation looks first: the invisibility cursor
  goes on only to a bucket that the counter has come to, and repair goes no
  further than that bucket.
-/

namespace LeaseQueue

namespace Shared

variable {q : Queue} {m next : Message} {ms : List Message} {position target : Int64}
  {i b : UInt64} {hide : Duration} {c : Cursor} {limit : Nat}

/-- A word below the last cell value. -/
def Small (n : UInt64) : Prop := n.toNat + 1 < 2 ^ 63

/-- A cell value that is not negative, and not the last one. -/
def CellSmall (n : Int64) : Prop := 0 ≤ n.toInt ∧ n.toInt + 1 < 2 ^ 63

/-- What is found in a cell is small. The invisibility cursor may stand before the first index. -/
def Cell.Found (cell : Cell) (held : Option Int64) : Prop :=
  cell ≠ .invisibility → CellSmall (held.getD 0)

/-- A message that lies at a small index, and has another version to come. -/
structure Message.Ranged (m : Message) : Prop where
  index : Small m.index
  version : m.version.toNat + 1 < UInt64.size

/-- Cells were found with small values, and messages at small indices with a version to come. -/
def Seen.InRange : Seen → Prop
  | ⟨.call (.readCell cell), .ok held⟩ => Cell.Found cell held
  | ⟨.call (.swapCell cell _ _), .ok (.conflict held)⟩ => Cell.Found cell held
  | ⟨.call (.readBucket _), .ok ms⟩ => ∀ m ∈ ms, Message.Ranged m
  | ⟨.call (.readMessage _ _), .ok found⟩ => ∀ m, found = some m → Message.Ranged m
  | _ => True

/-! ## Conversions -/

theorem CellSmall.toWord (h : CellSmall position) : Small position.toUInt64 := by
  have hword := toNat_toUInt64_of_nonneg h.1
  have hlast := h.2
  rw [Small]
  omega

theorem Small.toCell (h : Small i) : i.toInt64.toInt = i.toNat :=
  toInt_toInt64 (by rw [Small] at h; rw [Int64.toInt_maxValue]; omega)

theorem Small.cellSmall (h : Small i) : CellSmall i.toInt64 := by
  have hcell := h.toCell
  rw [Small] at h
  rw [CellSmall]
  omega

theorem Small.mono (h : Small i) {j : UInt64} (hle : j ≤ i) : Small j := by
  rw [UInt64.le_iff_toNat_le] at hle
  rw [Small] at h ⊢
  omega

theorem Small.bucketOf (h : Small i) : Small (q.bucketOf i) := by
  have hle := Nat.div_le_self i.toNat q.bucketSize.toNat
  rw [Small] at h ⊢
  rw [Queue.bucketOf_toNat]
  omega

theorem exact_toWord (h : 0 ≤ position.toInt) :
    Conversion.exact.toWord position = pure position.toUInt64 := by
  show Op.inRange (Conversion.exactWord? position) = _
  rw [Conversion.exactWord?, if_pos (toNat_toUInt64_of_nonneg h)]
  rfl

theorem exact_toCell (h : Small i) : Conversion.exact.toCell i = pure i.toInt64 := by
  show Op.inRange (Conversion.exactCell? i) = _
  rw [Conversion.exactCell?, if_pos h.toCell]
  rfl

theorem exact_bucketOfCursor :
    Conversion.exact.bucketOfCursor q position = pure (q.bucketOfCursor position) := by
  rw [Conversion.bucketOfCursor, Queue.bucketOfCursor]
  split
  · rfl
  · rename_i hneg
    rw [exact_toWord (by rw [Int64.lt_iff_toInt_lt] at hneg; exact Int.not_lt.mp hneg)]
    rfl

/-! ## Values that are not the last -/

theorem wordSucc?_of_lt (h : i.toNat + 1 < UInt64.size) : ∃ n, wordSucc? i = some n :=
  ⟨_, if_pos h⟩

theorem exists_cellSucc? (h : CellSmall position) :
    ∃ n, cellSucc? position = some n ∧ n.toInt = position.toInt + 1 := by
  have hne : position ≠ Int64.maxValue := by
    rintro rfl
    have hlast := h.2
    rw [Int64.toInt_maxValue] at hlast
    omega
  have hsome : cellSucc? position = some (position + 1) := if_neg hne
  exact ⟨_, hsome, cellSucc?_eq_some hsome⟩

theorem Message.Ranged.exists_acknowledged? (h : Message.Ranged m) :
    ∃ next, m.acknowledged? = some next := by
  obtain ⟨version, hversion⟩ := wordSucc?_of_lt h.version
  rw [Message.acknowledged?, hversion]
  exact ⟨_, rfl⟩

theorem Message.Ranged.exists_claimed? (h : Message.Ranged m) (now : Instant) (hide : Duration) :
    ∃ next, m.claimed? now hide = some next ∧ next.index = m.index := by
  obtain ⟨version, hversion⟩ := wordSucc?_of_lt h.version
  rw [Message.claimed?, hversion]
  exact ⟨_, rfl, rfl⟩

theorem Message.Ranged.exists_revised? (h : Message.Ranged m) (blob : Blob) (now : Instant)
    (hide : Duration) : ∃ next, m.revised? blob now hide = some next := by
  obtain ⟨version, hversion⟩ := wordSucc?_of_lt h.version
  rw [Message.revised?, hversion]
  exact ⟨_, rfl⟩

/-! ## Operations without a conversion -/

/-- The operation does the same with conversions that keep the value, and stays within its
ranges. -/
abbrev Stays {α : Type} (x x' : Op α) (P : α → Prop) : Prop := x.Tracks Seen.InRange x' P

theorem effect_stays {e : Effect} : Stays (Op.perform e) (Op.perform e) fun _ => True :=
  .perform fun _ _ => trivial

theorem call_stays {call : Call} : Stays (Op.call call) (Op.call call) fun _ => True :=
  .call fun _ _ => trivial

theorem readCell_stays {cell : Cell} :
    Stays (Op.call (.readCell cell)) (Op.call (.readCell cell)) (Cell.Found cell) :=
  .call fun _ h => h

theorem readBucket_stays :
    Stays (Op.call (.readBucket b)) (Op.call (.readBucket b))
      fun ms => ∀ m ∈ ms, Message.Ranged m :=
  .call fun _ h => h

theorem fetch_stays :
    Stays (q.fetch i) (q.fetch i) fun found => ∀ m, found = some m → Message.Ranged m :=
  .call fun _ h => h

theorem swap_stays {cell : Cell} {expected : Option Int64} :
    Stays (Op.call (.swapCell cell expected target)) (Op.call (.swapCell cell expected target))
      fun a : Swap => ∀ held, a = .conflict held → Cell.Found cell held := by
  refine .call fun a ha held he => ?_
  subst he
  exact ha

theorem get_stays (hc : c ≠ .invisibility) : Stays c.get c.get CellSmall := by
  refine .bind readCell_stays fun held hheld => .pure ?_
  cases c with
  | invisibility => exact absurd rfl hc
  | _ => exact hheld nofun

/-- Where a cursor stands after a move is small if it was moved to a small value. -/
theorem moveIf_stays :
    Stays (c.moveIf position target) (c.moveIf position target)
      fun at_ => Cell.Found c.cell (some target) → Cell.Found c.cell (some at_) := by
  have hinitial : Cell.Found c.cell (some c.initial) := fun hc => by
    cases c with
    | invisibility => exact absurd rfl hc
    | _ => exact ⟨Int.le_refl 0, by decide⟩
  refine .bind swap_stays fun a ha => ?_
  match a with
  | .swapped => exact .pure id
  | .conflict (some found) => exact .pure fun _ => ha _ rfl
  | .conflict none =>
    refine .ite (fun _ => .bind swap_stays fun a ha => ?_) fun _ => .pure fun _ => hinitial
    match a with
    | .swapped => exact .pure id
    | .conflict none => exact .pure fun _ => hinitial
    | .conflict (some found) => exact .pure fun _ => ha _ rfl

theorem write_stays {blob : Blob} {delay : Duration} :
    Stays (q.write i blob delay) (q.write i blob delay) fun _ => True := by
  refine .bind effect_stays fun now _ => .bind effect_stays fun tag _ => .bind call_stays
    fun done _ => ?_
  cases done
  · exact .throw nofun
  · exact .pure trivial

theorem replace_stays {cond : Condition} :
    Stays (q.replace next cond) (q.replace next cond) fun o => ∀ m, o = some m → m = next := by
  refine .bind call_stays fun applied _ => .pure fun m hm => ?_
  cases applied <;> cases hm
  rfl

theorem acknowledge_stays (h : Message.Ranged m) :
    Stays (q.acknowledge m) (q.acknowledge m) fun _ => True :=
  .bind (.inRange (h.exists_acknowledged?.imp fun _ hn => ⟨hn, trivial⟩)) fun _ _ =>
    .bind replace_stays fun _ _ => .pure trivial

theorem claim_stays (h : Message.Ranged m) :
    Stays (q.claim m hide) (q.claim m hide)
      fun o => ∀ claimed, o = some claimed → claimed.index = m.index := by
  refine .bind effect_stays fun now _ =>
    .bind (.inRange (h.exists_claimed? now hide)) fun next hnext => ?_
  refine replace_stays.mono fun o ho claimed hc => ?_
  rw [ho claimed hc, hnext]

theorem revise_stays {blob : Blob} (h : Message.Ranged m) :
    Stays (q.revise m blob hide) (q.revise m blob hide) fun _ => True :=
  .bind effect_stays fun now _ => .bind
    (.inRange ((h.exists_revised? blob now hide).imp fun _ hn => ⟨hn, trivial⟩))
    fun _ _ => replace_stays.mono fun _ _ => trivial

theorem claimOrRetire_stays (h : Message.Ranged m) :
    Stays (q.claimOrRetire m hide) (q.claimOrRetire m hide)
      fun o => ∀ claimed, o = some claimed → claimed.index = m.index := by
  refine .ite (fun _ => ?_) fun _ => ?_
  · refine .bind (acknowledge_stays h) fun done _ => .ite (fun _ => ?_) fun _ => .pure nofun
    exact .bind effect_stays fun _ _ => .pure nofun
  · refine .bind (claim_stays h) fun o ho => ?_
    cases o with
    | none => exact .bind effect_stays fun _ _ => .pure nofun
    | some claimed => exact .pure ho

/-! ## Allocation -/

theorem nextIndex_stays : Stays nextIndex Conversion.exact.nextIndex Small := by
  refine .bind readCell_stays fun cell hcell => ?_
  have hsmall : CellSmall (counterValue cell) := hcell nofun
  rw [exact_toWord hsmall.1]
  exact .pure hsmall.toWord

theorem allocate_stays : Stays allocate Conversion.exact.allocate fun _ => True := by
  refine .bind readCell_stays fun cell hcell => ?_
  refine .loop (Cell.Found .counter) hcell fun seen hseen => ?_
  have hsmall : CellSmall (counterValue seen) := hseen nofun
  obtain ⟨next, hnext, _⟩ := exists_cellSucc? hsmall
  refine .bind (.inRange (P := fun _ => True) ⟨next, hnext, trivial⟩) fun next _ =>
    .bind swap_stays fun a ha => ?_
  cases a with
  | swapped =>
    rw [exact_toWord hsmall.1]
    exact .pure trivial
  | conflict found => exact .pure (ha _ rfl)

theorem put_stays {blob : Blob} {delay : Duration} :
    Stays (q.put blob delay) (Conversion.exact.put q blob delay) fun _ => True :=
  .bind allocate_stays fun _ _ => .bind write_stays fun _ _ => .pure trivial

/-! ## Readers -/

theorem park_stays (h : Small i) :
    Stays (Queue.park position i) (Conversion.exact.park position i) fun _ => True := by
  rw [Conversion.park, exact_toCell h, pure_bind]
  exact .ite (fun _ => .bind moveIf_stays fun _ _ => .pure trivial) fun _ => .pure trivial

theorem firstPending_small (hms : ∀ m ∈ ms, Message.Ranged m) (h : Queue.firstPending ms = some i) :
    Small i := by
  obtain ⟨m, hm, rfl⟩ := firstPending_mem h
  exact (hms m hm).index

theorem settle_stays (hms : ∀ m ∈ ms, Message.Ranged m) :
    Stays (q.settle position b ms) (Conversion.exact.settle q position b ms)
      fun s => s = .settled → ∃ i, Small i ∧ b < q.bucketOf i := by
  rw [Queue.settle, Conversion.settle]
  cases hpending : Queue.firstPending ms with
  | some pending =>
    exact .bind (park_stays (firstPending_small hms hpending)) fun _ _ => .pure nofun
  | none =>
    refine .ite (fun _ => .pure nofun) fun _ => .bind nextIndex_stays fun i hi => .pure fun hs => ?_
    refine ⟨i, hi, UInt64.not_le.mp fun hle => ?_⟩
    rw [if_pos hle] at hs
    cases hs

theorem scan_stays :
    Stays (q.scan position b hide) (Conversion.exact.scan q position b hide)
      fun s => s = .settled → ∃ i, Small i ∧ b < q.bucketOf i := by
  refine .bind readBucket_stays fun ms hms =>
    .bind effect_stays fun now _ => ?_
  have hpending : ∀ j, some j ∈ [Queue.firstPending ms] → Small j := fun j hj =>
    firstPending_small hms (List.mem_singleton.mp hj).symm
  cases hwaiting : Queue.firstInFlight ms now with
  | some waiting =>
    obtain ⟨m, hm, rfl⟩ := firstInFlight_mem hwaiting
    refine .bind (park_stays (leastOf_of_all (hms m hm).index fun j hj => ?_))
      fun _ _ => .pure nofun
    rcases List.mem_cons.mp hj with hj | hj
    · obtain ⟨m, hm, rfl⟩ := Option.map_eq_some_iff.mp hj.symm
      exact (hms m (List.mem_of_find?_eq_some hm)).index
    · exact hpending j hj
  | none =>
    cases hexpired : Queue.firstExpired ms now with
    | none => exact settle_stays hms
    | some m =>
      have hm := hms m (List.mem_of_find?_eq_some hexpired)
      refine .bind (claimOrRetire_stays hm) fun o ho => ?_
      cases o with
      | none => exact settle_stays hms
      | some claimed =>
        have hindex : Small claimed.index := ho claimed rfl ▸ hm.index
        exact .bind (park_stays (leastOf_of_all hindex hpending)) fun _ _ => .pure nofun

theorem glance_stays :
    Stays (q.glance position hide) (Conversion.exact.glance q position hide) fun _ => True := by
  refine .ite (fun _ => .pure trivial) fun hneg => ?_
  have hpos : 0 ≤ position.toInt := by
    rw [Int64.lt_iff_toInt_lt] at hneg
    exact Int.not_lt.mp hneg
  rw [exact_toWord hpos, pure_bind]
  refine .bind fetch_stays fun found hfound => ?_
  cases found with
  | none => exact .pure trivial
  | some m =>
    refine .ite (fun _ => .pure trivial) fun _ => .ite (fun _ => .pure trivial) fun _ => ?_
    refine .bind effect_stays fun now _ =>
      .ite (fun _ => .pure trivial) fun _ => ?_
    refine .bind (claimOrRetire_stays (hfound m rfl)) fun o _ => ?_
    cases o <;> exact .pure trivial

/-- The bucket after one that the counter has passed starts at an index not beyond the counter. -/
theorem exists_bucketStart? (hi : Small i) (hpassed : b < q.bucketOf i) :
    ∃ after, wordSucc? b = some after ∧
      ∃ start, q.bucketStart? after = some start ∧ Small start := by
  obtain ⟨after, hafter⟩ := exists_wordSucc? hpassed
  have hle : after.toNat * q.bucketSize.toNat ≤ i.toNat := by
    rw [UInt64.lt_iff_toNat_lt, Queue.bucketOf_toNat] at hpassed
    refine (Nat.le_div_iff_mul_le q.bucketSize_pos).mp ?_
    rw [wordSucc?_eq_some hafter]
    exact hpassed
  have hfits : after.toNat * q.bucketSize.toNat < UInt64.size := Nat.lt_of_le_of_lt hle i.toNat_lt
  have hstart : q.bucketStart? after = some (after * q.bucketSize) := if_pos hfits
  refine ⟨after, hafter, _, hstart, hi.mono ?_⟩
  rw [UInt64.le_iff_toNat_le, wordMul?_eq_some hstart]
  exact hle

theorem resurrectFrom_stays :
    Stays (q.resurrectFrom hide limit position)
      (Conversion.exact.resurrectFrom q hide limit position) fun _ => True := by
  induction limit generalizing position with
  | zero => exact .pure trivial
  | succ limit ih =>
    refine .bind glance_stays fun g _ => ?_
    cases g with
    | claimed m => exact .pure trivial
    | held => exact .pure trivial
    | past =>
      simp only [exact_bucketOfCursor, pure_bind]
      refine .bind scan_stays fun s hs => ?_
      cases s with
      | claimed m => exact .pure trivial
      | parked => exact .pure trivial
      | settled =>
        obtain ⟨i, hi, hpassed⟩ := hs rfl
        refine .bind (.inRange (exists_bucketStart? hi hpassed)) fun after hafter =>
          .bind (.inRange hafter) fun start hstart => ?_
        rw [exact_toCell hstart, pure_bind]
        exact .bind moveIf_stays fun _ _ => ih

theorem forwardPass_stays {passed : Nat} :
    Stays (q.forwardPass limit hide passed) (Conversion.exact.forwardPass q limit hide passed)
      (Pass.Ends (fun _ => True) fun _ => True) := by
  refine .bind (get_stays (c := .readerBucket) nofun) fun position hposition => ?_
  rw [exact_toWord hposition.1, pure_bind]
  refine .bind readBucket_stays fun ms hms =>
    .bind effect_stays fun now _ => ?_
  cases hcandidate : ms.find? fun m => !m.acked && m.visible now with
  | some m =>
    have hm := hms m (List.mem_of_find?_eq_some hcandidate)
    refine .bind (claimOrRetire_stays hm) fun o _ => ?_
    cases o <;> exact .pure trivial
  | none =>
    refine .bind nextIndex_stays fun i _ => .ite (fun _ => .pure trivial) fun _ =>
      .ite (fun _ => .pure trivial) fun _ => ?_
    refine .bind (.bind effect_stays fun _ _ => call_stays) fun _ _ => ?_
    obtain ⟨next, hnext, _⟩ := exists_cellSucc? hposition
    refine .bind (.inRange (P := fun _ => True) ⟨next, hnext, trivial⟩) fun next _ =>
      .bind moveIf_stays fun at_ _ => .ite (fun _ => ?_) fun _ => .pure trivial
    exact .bind effect_stays fun _ _ => .pure trivial

theorem nextMessage_stays :
    Stays (q.nextMessage limit hide) (Conversion.exact.nextMessage q limit hide) fun _ => True := by
  have hresurrect : Stays (q.resurrect limit hide) (Conversion.exact.resurrect q limit hide)
      fun _ => True :=
    .bind (.bind call_stays fun _ _ => .pure trivial) fun _ (_ : True) => resurrectFrom_stays
  refine .bind hresurrect fun o _ => ?_
  cases o with
  | some m => exact .bind effect_stays fun _ _ => .bind effect_stays fun _ _ => .pure trivial
  | none =>
    refine .bind (.loop (R := fun _ => True) (fun _ => True) trivial fun _ _ => forwardPass_stays)
      fun found _ => .ite (fun _ => ?_) fun _ => .pure trivial
    exact .bind effect_stays fun _ _ => .pure trivial

/-! ## Repair -/

theorem advance_stays (hb : Small b) :
    Stays (Repair.advance q b) (Conversion.exact.advance q b)
      fun o => ∀ n, o = some n → Small n := by
  have hfits : b.toNat + 1 < UInt64.size := Nat.lt_trans hb (by decide)
  obtain ⟨after, hafter⟩ := wordSucc?_of_lt hfits
  refine .bind nextIndex_stays fun i hi =>
    .bind (.inRange (P := fun _ => True) ⟨after, hafter, trivial⟩) fun after _ =>
    .ite (fun _ => .pure nofun) fun _ => ?_
  have hnext : Small (min after (q.bucketOf i)) := hi.bucketOf.mono Std.min_le_right
  rw [exact_toCell hb, exact_toCell hnext, pure_bind, pure_bind]
  refine .bind moveIf_stays fun at_ hat => ?_
  have hsmall : CellSmall at_ := hat (fun _ => hnext.cellSmall) nofun
  rw [exact_toWord hsmall.1, pure_bind]
  refine .pure ?_
  rintro _ ⟨⟩
  exact hsmall.toWord

theorem republish_stays (hm : Message.Ranged m) :
    Stays (Repair.republish q m) (Conversion.exact.republish q m) fun _ => True :=
  .bind allocate_stays fun _ _ => .bind write_stays fun _ _ => .bind (acknowledge_stays hm)
    fun _ _ => .bind effect_stays fun _ _ => .pure trivial

theorem repairMessage_stays {now : Instant} {seen : Bool × Nat} (hm : Message.Ranged m) :
    Stays (Repair.repairMessage q now seen m) (Conversion.exact.repairMessage q now seen m)
      fun _ => True :=
  .ite (fun _ => .pure trivial) fun _ => .ite (fun _ => .pure trivial) fun _ =>
    .bind (republish_stays hm) fun _ _ => .pure trivial

theorem waitPass_stays {seen : Instant × List Message} (hms : ∀ m ∈ seen.2, Message.Ranged m) :
    Stays (Repair.waitPass b seen) (Repair.waitPass b seen)
      (Pass.Ends (fun seen => ∀ m ∈ seen.2, Message.Ranged m)
        fun ms => ∀ m ∈ ms, Message.Ranged m) := by
  refine .bind effect_stays fun now _ =>
    .ite (fun _ => .pure hms) fun _ => ?_
  refine .bind effect_stays fun _ _ => ?_
  exact .bind readBucket_stays fun ms hms => .pure hms

theorem clear_stays {cfg : Repair.Config} :
    Stays (Repair.clear cfg b) (Repair.clear cfg b) fun _ => True :=
  .ite (fun _ => .bind call_stays fun _ _ => effect_stays) fun _ => .pure trivial

theorem repairBucket_stays {cfg : Repair.Config} {sealedAt : Instant} (hb : Small b)
    (hms : ∀ m ∈ ms, Message.Ranged m) :
    Stays (Repair.repairBucket q cfg b sealedAt ms)
      (Conversion.exact.repairBucket q cfg b sealedAt ms) fun _ => True := by
  refine .bind (.loop (fun seen => ∀ m ∈ seen.2, Message.Ranged m) hms fun _ h => waitPass_stays h)
    fun ms hms => .bind effect_stays fun now _ => ?_
  refine .bind (.foldlM fun _ m hm => repairMessage_stays (hms m hm)) fun seen _ => ?_
  refine .bind (advance_stays hb) fun _ _ => .ite (fun _ => ?_) fun _ => .pure trivial
  exact .bind clear_stays fun _ _ => .pure trivial

theorem tickPass_stays {cfg : Repair.Config} (hb : Small b) :
    Stays (Repair.tickPass q cfg b) (Conversion.exact.tickPass q cfg b)
      (Pass.Ends Small fun _ => True) := by
  refine .bind readBucket_stays fun ms hms =>
    .ite (fun _ => ?_) fun _ => ?_
  · refine .bind clear_stays fun _ _ => .bind (advance_stays hb) fun o ho => ?_
    cases o with
    | none => exact .pure trivial
    | some next =>
      refine .pure ?_
      by_cases hlt : b < next
      · rw [if_pos hlt]
        exact ho next rfl
      · rw [if_neg hlt]
        trivial
  · refine .bind call_stays fun o _ => ?_
    cases o with
    | none => exact .pure trivial
    | some sealedAt => exact .bind (repairBucket_stays hb hms) fun _ _ => .pure trivial

theorem tick_stays {cfg : Repair.Config} :
    Stays (Repair.tick q cfg) (Conversion.exact.tick q cfg) fun _ => True := by
  refine .bind (get_stays (c := .repairBucket) nofun) fun position hposition => ?_
  rw [exact_toWord hposition.1, pure_bind]
  exact .loop Small hposition.toWord fun _ hb => tickPass_stays hb

/-! ## Requests -/

theorem authorize_stays {receipt : Receipt} :
    Stays (q.authorize receipt) (q.authorize receipt)
      fun found => ∀ m, found = some m → Message.Ranged m :=
  .bind fetch_stays fun _ hfound => .pure fun m hm => hfound m (Option.eq_some_of_filter_eq_some hm)

/-- Every request is served the same with conversions that keep the value, and no value runs past
the end of its range. -/
theorem op_stays {r : Request} : Stays (r.op q) (Conversion.exact.op q r) fun _ => True := by
  cases r with
  | put blob delay => exact .map (put_stays.mono fun _ _ => trivial)
  | receive scanLimit hide => exact .map (.bind nextMessage_stays fun _ _ => .pure trivial)
  | ack receipt =>
    refine .map (.bind authorize_stays fun found hfound => ?_)
    cases found with
    | none => exact .pure trivial
    | some m => exact acknowledge_stays (hfound m rfl)
  | update receipt blob hide =>
    refine .map (.bind authorize_stays fun found hfound => ?_)
    cases found with
    | none => exact .pure trivial
    | some m => exact .bind (revise_stays (hfound m rfl)) fun _ _ => .pure trivial
  | tick cfg => exact .map (tick_stays.mono fun _ _ => trivial)
  | drop => exact .map (call_stays.mono fun _ _ => trivial)

end Shared

end LeaseQueue
