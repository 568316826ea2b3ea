import LeaseQueue.Proofs.Shared.Course
import Mathlib.Data.List.Perm.Subperm

/-
  What a task saw when it last looked.

  A task moves a cursor by what it has read before. `lastLook` finds the latest
  read of a bucket in a history and what had happened before it. A message that
  was inserted before that read and is stored now was in what the read returned,
  as it was then (`Reachable.in_look`).
-/

namespace LeaseQueue

theorem toInt_toInt64 {i : UInt64} (h : (i.toNat : Int) ≤ Int64.maxValue.toInt) :
    i.toInt64.toInt = i.toNat := by
  rw [Int64.toInt_maxValue] at h
  show i.toBitVec.toInt = _
  rw [BitVec.toInt_eq_toNat_of_lt (by simpa using (by omega : 2 * i.toNat < 2 ^ 64))]
  rfl

namespace Queue

variable {q : Queue}

theorem bucketOfCursor_toInt64 {i : UInt64} (h : (i.toNat : Int) ≤ Int64.maxValue.toInt) :
    q.bucketOfCursor i.toInt64 = q.bucketOf i := by
  have hpos : ¬ i.toInt64 < 0 := by
    rw [Int64.lt_iff_toInt_lt, toInt_toInt64 h]
    simp
  rw [bucketOfCursor, if_neg hpos, UInt64.toUInt64_toInt64]

theorem bucketSize_pos (q : Queue) : 0 < q.bucketSize.toNat := by
  refine Nat.pos_of_ne_zero fun h => q.bucketSize_ne_zero ?_
  exact UInt64.toNat_inj.mp h

theorem bucketOf_start {b start : UInt64} (h : q.bucketStart? b = some start) :
    q.bucketOf start = b := by
  rw [← UInt64.toNat_inj, bucketOf_toNat, wordMul?_eq_some h]
  exact Nat.mul_div_cancel _ q.bucketSize_pos

theorem length_le_bucketSize {b : UInt64} {indices : List UInt64} (hd : indices.Nodup)
    (hb : ∀ j ∈ indices, q.bucketOf j = b) : indices.length ≤ q.bucketSize.toNat := by
  have hbucket : ∀ j ∈ indices, j.toNat / q.bucketSize.toNat = b.toNat := fun j hj => by
    rw [← bucketOf_toNat, hb j hj]
  have hoffsets : (indices.map fun j => j.toNat % q.bucketSize.toNat).Nodup := by
    refine List.Nodup.map_on (fun j hj k hk he => ?_) hd
    rw [← UInt64.toNat_inj, ← Nat.div_add_mod j.toNat q.bucketSize.toNat, he,
      (hbucket j hj).trans (hbucket k hk).symm, Nat.div_add_mod]
  have hsub : indices.map (fun j => j.toNat % q.bucketSize.toNat) ⊆
      List.range q.bucketSize.toNat := by
    intro n hn
    obtain ⟨j, _, rfl⟩ := List.mem_map.mp hn
    exact List.mem_range.mpr (Nat.mod_lt _ q.bucketSize_pos)
  simpa using (List.subperm_of_subset hoffsets hsub).length_le

/-- As many indices of a bucket as it has are all of them. -/
theorem mem_of_full {i : UInt64} {indices : List UInt64} (hd : indices.Nodup)
    (hb : ∀ j ∈ indices, q.bucketOf j = q.bucketOf i)
    (hfull : indices.length = q.bucketSize.toNat) : i ∈ indices := by
  by_contra hi
  -- With one more there would be more of them than the bucket has.
  have hle := length_le_bucketSize (List.nodup_cons.mpr ⟨hi, hd⟩)
    (List.forall_mem_cons.mpr ⟨rfl, hb⟩)
  rw [List.length_cons, hfull] at hle
  omega

end Queue

namespace Shared

variable {q : Queue} {rule : Rule} {w : World} {t : Nat} {h past : History} {b i : UInt64}
  {ms : List Message}

/-- The latest answer to a read of the bucket by the task, and what had happened before it. -/
def lastLook (t : Nat) (b : UInt64) : History → Option (List Message × History)
  | [] => none
  | .performed u _ _ ⟨.call (.readBucket b'), .ok ms⟩ :: past =>
    if u = t ∧ b' = b then some (ms, past) else lastLook t b past
  | _ :: past => lastLook t b past

theorem lastLook_other {c : Instant} {rows : Rows} {s : Seen} {u : Nat}
    (hs : u ≠ t ∨ ∀ b' ms, s ≠ ⟨.call (.readBucket b'), .ok ms⟩) :
    lastLook t b (.performed u c rows s :: past) = lastLook t b past := by
  by_cases hread : ∃ b' ms, s = ⟨.call (.readBucket b'), .ok ms⟩
  · obtain ⟨b', ms, rfl⟩ := hread
    rw [lastLook]
    exact if_neg fun hu => hs.elim (fun hne => hne hu.1) fun hne => hne b' ms rfl
  · rw [lastLook]
    rintro _ _ _ b' ms he
    cases he
    exact hread ⟨b', ms, rfl⟩

theorem lastLook_of_lastRead {before : List Seen}
    (hl : lastRead b (seenBy t h) = some (ms, before)) :
    ∃ looked, lastLook t b h = some (ms, looked) ∧ seenBy t looked = before := by
  -- Both go back to the same read; `lastLook` also goes past what is not the task's.
  induction h with
  | nil => cases hl
  | cons e past ih =>
    cases e with
    | started u r => exact ih hl
    | ended u r => exact ih hl
    | performed u c rows s =>
      rw [seenBy_performed] at hl
      split at hl
      · rename_i hu
        unfold lastRead at hl
        split at hl
        · cases ‹_ = []›
        · rename_i b' ms' before' he
          cases he
          rw [lastLook]
          split at hl
          · rename_i hb
            cases hl
            exact ⟨past, if_pos ⟨hu, hb⟩, rfl⟩
          · rename_i hb
            rw [if_neg fun hand => hb hand.2]
            exact ih hl
        · rename_i hne he
          cases he
          rw [lastLook_other (.inr fun b' ms' hs => hne b' ms' hs)]
          exact ih hl
      · rename_i hu
        rw [lastLook_other (.inl hu)]
        exact ih hl

theorem lastLook_performed {c : Instant} {rows : Rows} {s : Seen} {u : Nat} {looked : History}
    (hl : lastLook t b (.performed u c rows s :: past) = some (ms, looked)) :
    (u = t ∧ s = ⟨.call (.readBucket b), .ok ms⟩ ∧ looked = past) ∨
      lastLook t b past = some (ms, looked) := by
  unfold lastLook at hl
  split at hl
  · cases ‹_ = []›
  · rename_i he
    cases he
    split at hl
    · rename_i hu
      obtain ⟨rfl, rfl⟩ := hu
      cases hl
      exact .inl ⟨rfl, rfl, rfl⟩
    · exact .inr hl
  · rename_i he
    cases he
    exact .inr hl

theorem lastLook_event {looked : History} (hl : lastLook t b h = some (ms, looked)) :
    ∃ c rows, .performed t c rows ⟨.call (.readBucket b), .ok ms⟩ :: looked <:+ h := by
  have later : ∀ {e : Event} {past : History},
      (∃ c rows, .performed t c rows ⟨.call (.readBucket b), .ok ms⟩ :: looked <:+ past) →
      ∃ c rows, .performed t c rows ⟨.call (.readBucket b), .ok ms⟩ :: looked <:+ e :: past :=
    fun ⟨c, rows, hs⟩ => ⟨c, rows, hs.trans (List.suffix_cons _ _)⟩
  induction h with
  | nil => cases hl
  | cons e past ih =>
    cases e with
    | started u r => exact later (ih hl)
    | ended u r => exact later (ih hl)
    | performed u c rows s =>
      rcases lastLook_performed hl with ⟨rfl, rfl, rfl⟩ | hl
      · exact ⟨c, rows, List.suffix_refl _⟩
      · exact later (ih hl)

/-! ## What a look returned -/

/-- A look returned the rows of the bucket as they were. -/
theorem Reachable.look_rows (h : Reachable q rule w) {looked : History}
    (hl : lastLook t b w.history = some (ms, looked)) :
    ∃ v c rows, Reachable q rule v ∧ v.history = looked ∧ v.rows = rows ∧ v.clock = c ∧
      ms = rows.inBucket b ∧
      .performed t c rows ⟨.call (.readBucket b), .ok ms⟩ :: looked <:+ w.history := by
  obtain ⟨c, rows, hs⟩ := lastLook_event hl
  obtain ⟨v, _, _, rows', hv, hhist, hrows, hclock, _, hans, _⟩ := h.at_effect hs
  exact ⟨v, c, rows, hv, hhist, hrows, hclock, congrArg Prod.fst hans, hs⟩

/-- A stored message that was inserted before a look at its bucket was seen there. -/
theorem Reachable.in_look (h : Reachable q Undropped w) {looked : History} {r : Row}
    (hl : lastLook t r.bucket w.history = some (ms, looked)) (hr : r ∈ w.rows.messages)
    (hi : Inserted r.message.index looked) : ∃ m ∈ ms, m.Became r.message := by
  obtain ⟨v, c, rows, hv, rfl, rfl, _, rfl, hs⟩ := h.look_rows hl
  obtain ⟨r₀, hr₀, hi₀⟩ := h.traced.since _ _ _ _ _ hs r hr hi
  have hb : r₀.bucket = r.bucket := by
    rw [hv.filed.placed r₀ hr₀, h.filed.placed r hr, hi₀]
  refine ⟨r₀.message, Rows.mem_inBucket.mpr (hb ▸ hr₀), ?_⟩
  exact h.traced.met r₀ ⟨t, c, _, _, hs.subset List.mem_cons_self, hr₀⟩ r hr hi₀.symm

theorem Reachable.look_placed (h : Reachable q Undropped w) {looked : History} {m : Message}
    (hl : lastLook t b w.history = some (ms, looked)) (hm : m ∈ ms) :
    b = q.bucketOf m.index ∧ Inserted m.index looked := by
  obtain ⟨v, c, rows, hv, rfl, rfl, _, rfl, _⟩ := h.look_rows hl
  have hr := Rows.mem_inBucket.mp hm
  exact ⟨hv.filed.placed _ hr, hv.filed.inserted _ hr⟩

theorem Reachable.look_full (h : Reachable q Undropped w) {looked : History}
    (hl : lastLook t (q.bucketOf i) w.history = some (ms, looked))
    (hfull : ms.length = q.bucketSize.toNat) : Inserted i looked := by
  have hplaced : ∀ m ∈ ms, q.bucketOf i = q.bucketOf m.index ∧ Inserted m.index looked :=
    fun m hm => h.look_placed hl hm
  obtain ⟨v, _, _, hv, _, rfl, _, rfl, _⟩ := h.look_rows hl
  have hmem : i ∈ (v.rows.inBucket (q.bucketOf i)).map (·.index) := by
    refine Queue.mem_of_full hv.filed.distinct.inBucket (fun j hj => ?_)
      (by rw [List.length_map, hfull])
    obtain ⟨m, hm, rfl⟩ := List.mem_map.mp hj
    exact (hplaced m hm).1.symm
  obtain ⟨m, hm, rfl⟩ := List.mem_map.mp hmem
  exact (hplaced m hm).2

end Shared

end LeaseQueue
