import LeaseQueue.Proofs.Shared.Lasting

/-
  Cursors, seals and the counter stay in order.

  Readers and repair move the cursors and seal buckets on the strength of stale
  reads. What they read is a lower bound nevertheless, for the counter never goes
  back: a bucket that was seen full or passed by the counter is before the head
  for good. So the cursors stay behind the head, and no index is taken in a
  bucket that was sealed.
-/

namespace LeaseQueue.Shared

variable {q : Queue} {w : World} {t : Nat} {c : Instant} {rows : Rows}

theorem Reachable.taken_unsealed (h : Reachable q Undropped w) {seen : Option Int64} {next : Int64}
    (he : .performed t c rows ⟨.call (.swapCell .counter seen next), .ok .swapped⟩ ∈ w.history) :
    rows.sealedAt? (q.bucketOf (counterValue seen).toUInt64) = none := by
  obtain ⟨past, hs⟩ := suffix_of_mem he
  obtain ⟨v, _, _, _, hv, rfl, rfl, rfl, _, hans, _⟩ := h.at_effect hs
  have hseen : v.rows.cells.counter = seen := by
    simp only [Answered, Rows.apply] at hans
    split at hans
    · assumption
    · cases hans
  subst hseen
  refine Option.eq_none_iff_forall_ne_some.mpr fun sealedAt hsealed => ?_
  exact absurd (hv.sealed_lt_head _ sealedAt hsealed) (UInt64.lt_irrefl _)

/-- The reader bucket, the repair cursor and the bucket of the invisibility cursor are not past the
head, every bucket that the readers have passed is sealed, and every sealed bucket is before the
head, so that no index was taken in a bucket that was sealed. Whatever happens from then on, no
cursor goes back, the seals stay as they are, and the next index falls into none of the sealed
buckets. -/
theorem cursors_ordered (h : Reachable q Undropped w) :
    (∀ cur, cursorAt q cur w.rows ≤ headOf q w.rows) ∧
    (∀ b, b < cursorAt q .readerBucket w.rows → ∃ sealedAt, w.rows.sealedAt? b = some sealedAt) ∧
    (∀ b sealedAt, w.rows.sealedAt? b = some sealedAt → b < headOf q w.rows) ∧
    (∀ t c rows seen next,
      .performed t c rows ⟨.call (.swapCell .counter seen next), .ok .swapped⟩ ∈ w.history →
      rows.sealedAt? (q.bucketOf (counterValue seen).toUInt64) = none) ∧
    (∀ actions w', .start .drop ∉ actions → w.run? q actions = some w' →
      (∀ cur, cursorAt q cur w.rows ≤ cursorAt q cur w'.rows) ∧
      (∀ b sealedAt, w.rows.sealedAt? b = some sealedAt →
        w'.rows.sealedAt? b = some sealedAt ∧ b < headOf q w'.rows)) := by
  refine ⟨h.cursor_le_head, fun b => h.passed_sealed, h.sealed_lt_head,
    fun t c rows seen next he => h.taken_unsealed he, fun actions w' hdrop hw => ⟨?_, ?_⟩⟩
  · intro cur
    exact (lasting_cursor cur _).run hdrop h hw (UInt64.le_refl _)
  · intro b sealedAt hsealed
    have hkept := (lasting_seal b sealedAt).run hdrop h hw hsealed
    have h' : Reachable q Undropped w' :=
      Reachable.run (fun a ha v (he : a = .start .drop) => hdrop (he ▸ ha)) h hw
    exact ⟨hkept, h'.sealed_lt_head b sealedAt hkept⟩

/-- A message is handed out, and its bucket is sealed. -/
def firstSealed : List Action :=
  serve 0 (.put [1] 0) 6 ++ serve 1 (.receive 1 1000) 12 ++ serve 2 (.receive 1 1000) 18

def secondSealed : List Action :=
  serve 3 (.put [2] 0) 6 ++ serve 4 (.receive 1 1000) 10 ++ serve 5 (.receive 1 1000) 17

theorem cursors_ordered_two_sealed :
    ∃ w w', Reachable singles Undropped w ∧ w.run? singles secondSealed = some w' ∧
      cursorAt singles .readerBucket w.rows = 1 ∧ cursorAt singles .readerBucket w'.rows = 2 ∧
      w.rows.sealedAt? 0 = some 0 ∧ (0 : UInt64) < headOf singles w.rows ∧
      (∀ cur, cursorAt singles cur w.rows ≤ cursorAt singles cur w'.rows) ∧
      w'.rows.sealedAt? 0 = some 0 := by
  obtain ⟨w, w', hw, hw', hat, hat', hsealed⟩ : ∃ w w',
      ({} : World).run? singles firstSealed = some w ∧ w.run? singles secondSealed = some w' ∧
      cursorAt singles .readerBucket w.rows = 1 ∧ cursorAt singles .readerBucket w'.rows = 2 ∧
      w.rows.sealedAt? 0 = some 0 :=
    ⟨_, _, rfl, rfl, rfl, rfl, rfl⟩
  have h : Reachable singles Undropped w :=
    .run (by simp [firstSealed, serve, Undropped]) .fresh hw
  obtain ⟨_, _, hbefore, _, hlasts⟩ := cursors_ordered h
  obtain ⟨hcursors, hseals⟩ := hlasts secondSealed w' (by simp [secondSealed, serve]) hw'
  exact ⟨w, w', h, hw', hat, hat', hsealed, hbefore 0 0 hsealed, hcursors, (hseals 0 0 hsealed).1⟩

end LeaseQueue.Shared
