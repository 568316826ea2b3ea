import LeaseQueue.Proofs.Shared.Progress

/-
  What lasts.

  No effect moves a cursor or the counter back, and none changes a seal. What no
  effect ends is kept by every action (`Lasting.step`) and so by every run
  (`Lasting.run`). In a history it lasts from the rows that an effect met
  (`Lasting.since`) or left (`Lasting.after`) to those that are stored now.
-/

namespace LeaseQueue.Shared

variable {q : Queue} {M : Rows → Prop} {cur : Cursor} {w w' : World} {a : Action} {t : Nat}
  {c : Instant} {rows : Rows} {s : Seen} {b : UInt64} {sealedAt : Instant}

/-- Once it holds of the rows, no effect of a task ends it. -/
def Lasting (q : Queue) (M : Rows → Prop) : Prop :=
  ∀ v t r s rows, Reachable q Undropped v → .started t r ∈ v.history →
    Permitted q r (seenBy t v.history) s.effect → Turn q v.history v.rows t r s rows →
    M v.rows → M rows

theorem Lasting.step (hl : Lasting q M) (h : Reachable q Undropped w)
    (hs : w.step? q a = some w') (hM : M w.rows) : M w'.rows := by
  cases move_of_step? hs with
  | starts request => exact hM
  | passes d => exact hM
  | turns ht => exact hM
  | ends ht => exact hM
  | performs ht hans =>
    obtain ⟨hstarted, hp, _⟩ := h.task_obeys (requests_keep _) ht
    exact hl w _ _ _ _ h hstarted hp (h.turn hstarted hp (touch_of_answered hans)) hM

theorem Lasting.run (hl : Lasting q M) {actions : List Action} (hdrop : .start .drop ∉ actions)
    (h : Reachable q Undropped w) (hw : w.run? q actions = some w') (hM : M w.rows) :
    M w'.rows := by
  induction actions generalizing w with
  | nil =>
    cases hw
    exact hM
  | cons a rest ih =>
    obtain ⟨v, hv, hrest⟩ := Option.bind_eq_some_iff.mp hw
    obtain ⟨ha, hdrop⟩ := not_or.mp (List.mem_cons.not.mp hdrop)
    exact ih hdrop (h.step (Ne.symm ha) hv) hrest (hl.step h hv hM)

/-- What held of the rows that an effect left holds now. -/
theorem Lasting.after (hl : Lasting q M) (h : Reachable q Undropped w)
    (he : .performed t c rows s ∈ w.history)
    (hM : ∀ rows', Answered rows c s rows' → M rows') : M w.rows := by
  induction h with
  | fresh => exact absurd he List.not_mem_nil
  | @step w w' a hw ha hs ih =>
    cases move_of_step? hs with
    | starts request => exact ih (performed_of_started he)
    | passes d => exact ih he
    | turns ht => exact ih he
    | ends ht => exact ih (performed_of_ended he)
    | performs ht hans =>
      rcases List.mem_cons.mp he with he | he
      · cases he
        exact hM _ hans
      · exact hl.step hw hs (ih he)

/-- What held of the rows that an effect met holds now. -/
theorem Lasting.since (hl : Lasting q M) (h : Reachable q Undropped w)
    (he : .performed t c rows s ∈ w.history) (hM : M rows) : M w.rows := by
  refine hl.after h he fun rows' hans => ?_
  obtain ⟨past, hs⟩ := suffix_of_mem he
  obtain ⟨v, request, k, _, hv, rfl, rfl, rfl, ht, _, _⟩ := h.at_effect hs
  obtain ⟨hstarted, hp, _⟩ := hv.task_obeys (requests_keep _) ht
  exact hl v t request s rows' hv hstarted hp (hv.turn hstarted hp (touch_of_answered hans)) hM

/-! ## Seals -/

theorem lasting_seal (b : UInt64) (sealedAt : Instant) :
    Lasting q fun rows => rows.sealedAt? b = some sealedAt := by
  intro v t r s rows _ _ _ hturn hsealed
  cases hturn with
  | leaves _ => exact hsealed
  | swaps => exact hsealed
  | inserts _ => exact hsealed
  | replaces _ => exact hsealed
  | deletes => exact hsealed
  | @records b' at_ free =>
    have hne : (b == b') = false := by
      refine beq_false_of_ne fun he => ?_
      rw [he, free] at hsealed
      cases hsealed
    simpa [Rows.sealedAt?, Rows.addSeal, List.lookup_cons, hne] using hsealed

theorem Reachable.sealed_of_recorded (h : Reachable q Undropped w) {u : Instant}
    (told : Told (seenBy t w.history) (.insertTombstone b u) sealedAt) :
    w.rows.sealedAt? b = some sealedAt := by
  obtain ⟨c, rows, he⟩ := mem_seenBy.mp told
  refine (lasting_seal b sealedAt).after h he fun rows' hans => ?_
  simp only [Answered, Rows.apply] at hans
  split at hans
  · rename_i earlier hearlier
    cases hans
    exact hearlier
  · cases hans
    simp [Rows.sealedAt?, Rows.addSeal]

theorem Reachable.sealed_of_told (h : Reachable q Undropped w) (hs : past <:+ w.history)
    {sealedAt : Instant} (told : Told (seenBy t past) (.readTombstone b) (some sealedAt)) :
    w.rows.sealedAt? b = some sealedAt := by
  obtain ⟨c, rows, he⟩ := mem_seenBy.mp told
  obtain ⟨before, hbefore⟩ := suffix_of_mem (hs.subset he)
  obtain ⟨v, _, _, _, _, _, rfl, _, _, hans, _⟩ := h.at_effect hbefore
  exact (lasting_seal b sealedAt).since h (hs.subset he) (congrArg Prod.fst hans).symm

/-! ## Cursors -/

theorem Reachable.swap_reader_next (h : Reachable q Undropped w) {r : Request} {target : Int64}
    (hp : Permitted q r (seenBy t w.history)
      (.call (.swapCell .readerBucket w.rows.cells.readerBucket target))) :
    target.toUInt64.toNat = (cursorAt q .readerBucket w.rows).toNat + 1 ∧
      ∃ u sealedAt, Told (seenBy t w.history)
        (.insertTombstone (cursorAt q .readerBucket w.rows) u) sealedAt := by
  obtain ⟨hsucc, told⟩ := hp.swap_reader
  have hstep : target.toInt = (readerOf w.rows).toInt + 1 := cellSucc?_eq_some hsucc
  have hpos := h.reader_le_head.1
  have hread := toNat_toUInt64_of_nonneg hpos
  have hnext := toNat_toUInt64_of_nonneg (n := target) (by omega)
  refine ⟨?_, told⟩
  change _ = (readerOf w.rows).toUInt64.toNat + 1
  omega

/-- A cursor is moved to its bucket or a later one, but not past the head. -/
theorem Reachable.swap_cursor (h : Reachable q Undropped w) {r : Request} {target : Int64}
    (hp : Permitted q r (seenBy t w.history)
      (.call (.swapCell cur.cell (w.rows.cells.get cur.cell) target))) :
    cursorAt q cur w.rows ≤ cur.bucket q target ∧ cur.bucket q target ≤ headOf q w.rows := by
  cases cur with
  | readerBucket =>
    obtain ⟨hnext, _, _, told⟩ := h.swap_reader_next hp
    have hlt := h.sealed_lt_head _ _ (h.sealed_of_recorded told)
    change _ ≤ target.toUInt64 ∧ target.toUInt64 ≤ _
    rw [UInt64.lt_iff_toNat_lt] at hlt
    rw [UInt64.le_iff_toNat_le, UInt64.le_iff_toNat_le]
    omega
  | invisibility =>
    -- The cursor is parked in its bucket, or it leaves for one that the counter has come to.
    rcases Permitted.swap_invisibility hp with hparks | hleaves
    · have hstays := hparks.stays h
      obtain ⟨i, _, _, rfl, hi, hb, _⟩ := hparks.index h
      refine ⟨UInt64.le_of_eq hstays.symm, ?_⟩
      calc
        Cursor.invisibility.bucket q i.toInt64 = cursorAt q .invisibility w.rows := hstays
        _ = q.bucketOf i := hb.symm
        _ ≤ headOf q w.rows := q.bucketOf_mono (UInt64.le_of_lt hi)
    · have hnext := hleaves.target_next h
      obtain ⟨start, rfl, hle, _⟩ := hleaves.start h
      have hfits := h.toInt_index hle
      refine ⟨?_, ?_⟩
      · rw [UInt64.le_iff_toNat_le]
        exact Nat.le_trans (Nat.le_succ _) (Nat.le_of_eq hnext.symm)
      · change q.bucketOfCursor start.toInt64 ≤ headOf q w.rows
        rw [Queue.bucketOfCursor_toInt64 (hfits ▸ Int64.toInt_le _)]
        exact q.bucketOf_mono hle
  | repairBucket =>
    obtain ⟨cfg, b, next, rfl, hpos, rfl, hpasses⟩ := Permitted.swap_repair hp
    obtain ⟨cell, told, hle⟩ := hpasses.passed
    have hat : cursorAt q .repairBucket w.rows = b := cursorAt_repair hpos
    have hnext : Cursor.repairBucket.bucket q next.toInt64 = next := UInt64.toUInt64_toInt64 next
    rw [hat, hnext]
    refine ⟨?_, UInt64.le_trans hle (q.bucketOf_mono (h.told_counter told))⟩
    rw [UInt64.le_iff_toNat_le, hpasses.step]
    exact Nat.le_succ _

/-- No cursor goes back to an earlier bucket. -/
theorem lasting_cursor (cur : Cursor) (b : UInt64) :
    Lasting q fun rows => b ≤ cursorAt q cur rows := by
  intro v t r s rows hv _ hp hturn hle
  cases hturn with
  | leaves _ => exact hle
  | inserts _ => exact hle
  | replaces _ => exact hle
  | deletes => exact hle
  | records _ => exact hle
  | @swaps cell target =>
    show b ≤ cursorAt q cur { v.rows with cells := v.rows.cells.set cell target }
    rw [cursorAt_set]
    split
    · rename_i hcell
      subst hcell
      exact UInt64.le_trans hle (hv.swap_cursor hp).1
    · exact hle

theorem lasting_past (cur : Cursor) (b : UInt64) :
    Lasting q fun rows => b < cursorAt q cur rows := by
  intro v t r s rows hv hstarted hp hturn hlt
  have hle := lasting_cursor cur (cursorAt q cur v.rows) v t r s rows hv hstarted hp hturn
  exact UInt64.lt_of_lt_of_le hlt (hle (UInt64.le_refl _))

/-- No cursor is past the head. -/
theorem Reachable.cursor_le_head (h : Reachable q Undropped w) (cur : Cursor) :
    cursorAt q cur w.rows ≤ headOf q w.rows := by
  refine h.course (P := fun rows _ => cursorAt q cur rows ≤ headOf q rows) (fun _ _ => id) ?_
    (fun _ _ _ _ ih => ih) (fun _ _ _ _ ih => ih) ?_
  · cases cur <;> exact UInt64.zero_le
  · intro v t r s rows hv _ hp hturn ih
    have hle := hv.head_le hp hturn
    refine UInt64.le_trans ?_ hle
    cases hturn with
    | leaves _ => exact ih
    | inserts _ => exact ih
    | replaces _ => exact ih
    | deletes => exact ih
    | records _ => exact ih
    | @swaps cell target =>
      rw [cursorAt_set]
      split
      · rename_i hcell
        subst hcell
        exact (hv.swap_cursor hp).2
      · exact ih

/-- Every bucket that the readers have passed was sealed by one of them. -/
theorem Reachable.passed_told (h : Reachable q Undropped w) :
    ∀ b, b < cursorAt q .readerBucket w.rows →
      ∃ t u sealedAt, Told (seenBy t w.history) (.insertTombstone b u) sealedAt := by
  refine h.course (P := fun rows h => ∀ b, b < cursorAt q .readerBucket rows →
    ∃ t u sealedAt, Told (seenBy t h) (.insertTombstone b u) sealedAt) (fun _ _ => id) ?_
    (fun _ _ _ _ ih => ih) (fun _ _ _ _ ih => ih) ?_
  · exact fun b hb => absurd hb UInt64.not_lt_zero
  · intro v t r s rows hv _ hp hturn ih b hb
    suffices htold : ∃ t u sealedAt,
        Told (seenBy t v.history) (.insertTombstone b u) sealedAt by
      obtain ⟨t', u, sealedAt, told⟩ := htold
      exact ⟨t', u, sealedAt, (seenBy_suffix (List.suffix_cons _ _)).subset told⟩
    cases hturn with
    | leaves _ => exact ih b hb
    | inserts _ => exact ih b hb
    | replaces _ => exact ih b hb
    | deletes => exact ih b hb
    | records _ => exact ih b hb
    | @swaps cell target =>
      rw [cursorAt_set] at hb
      split at hb
      · rename_i hcell
        subst hcell
        obtain ⟨hnext, told⟩ := hv.swap_reader_next hp
        change b < target.toUInt64 at hb
        by_cases hpast : b < cursorAt q .readerBucket v.rows
        · exact ih b hpast
        · -- The bucket that is left was sealed by the reader that leaves it.
          have hat : b = cursorAt q .readerBucket v.rows := by
            rw [UInt64.lt_iff_toNat_lt] at hb hpast
            exact UInt64.toNat_inj.mp (by omega)
          exact ⟨t, hat ▸ told⟩
      · exact ih b hb

theorem Reachable.passed_sealed (h : Reachable q Undropped w)
    (hb : b < cursorAt q .readerBucket w.rows) :
    ∃ sealedAt, w.rows.sealedAt? b = some sealedAt := by
  obtain ⟨_, _, sealedAt, told⟩ := h.passed_told b hb
  exact ⟨sealedAt, h.sealed_of_recorded told⟩

end LeaseQueue.Shared
