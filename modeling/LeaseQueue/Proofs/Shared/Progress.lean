import LeaseQueue.Proofs.Shared.Cursors

/-
  How far a queue has come.

  The counter only goes up, so whatever a task was told of it is a lower bound
  from then on. The head is the bucket that indices are taken from now. Only
  buckets before it are sealed, and the reader bucket does not pass it.
-/

namespace LeaseQueue.Shared

variable {q : Queue} {w : World} {t : Nat} {b : UInt64} {cell : Option Int64} {rows rows' : Rows}

def nextOf (rows : Rows) : Int64 := counterValue rows.cells.counter

/-- The bucket that the next index falls into. -/
def headOf (q : Queue) (rows : Rows) : UInt64 := q.bucketOf (nextOf rows).toUInt64

def readerOf (rows : Rows) : Int64 := Cursor.readerBucket.position rows.cells.readerBucket

def invisibilityOf (rows : Rows) : Int64 := Cursor.invisibility.position rows.cells.invisibility

def repairOf (rows : Rows) : Int64 := Cursor.repairBucket.position rows.cells.repairBucket

/-! ## The counter -/

theorem Turn.next_le {past : History} {r : Request} {s : Seen}
    (hp : Permitted q r (seenBy t past) s.effect) (h : Turn q past rows t r s rows') :
    (nextOf rows).toInt ≤ (nextOf rows').toInt := by
  cases h with
  | @swaps cell desired =>
    cases cell with
    | counter =>
      have hsucc : desired.toInt = (nextOf rows).toInt + 1 := cellSucc?_eq_some hp.swap_counter.2
      show _ ≤ desired.toInt
      omega
    | readerBucket => exact Int.le_refl _
    | invisibility => exact Int.le_refl _
    | repairBucket => exact Int.le_refl _
  | leaves _ => exact Int.le_refl _
  | inserts _ => exact Int.le_refl _
  | replaces _ => exact Int.le_refl _
  | records _ => exact Int.le_refl _
  | deletes => exact Int.le_refl _

theorem Reachable.next_le (h : Reachable q Undropped w) : ∀ t c rows s,
    .performed t c rows s ∈ w.history → (nextOf rows).toInt ≤ (nextOf w.rows).toInt := by
  refine h.course (P := fun rows h => ∀ t c rs s, .performed t c rs s ∈ h →
    (nextOf rs).toInt ≤ (nextOf rows).toInt) (fun _ _ => id)
    (fun _ _ _ _ he => absurd he List.not_mem_nil) ?_ ?_ ?_
  · exact fun rows past t r ih u c rs s he => ih u c rs s (performed_of_started he)
  · exact fun rows past t r ih u c rs s he => ih u c rs s (performed_of_ended he)
  · intro v t r s rows _ _ hp hturn ih u c rs s' he
    have hstep := hturn.next_le hp
    rcases List.mem_cons.mp he with he | he
    · cases he
      exact hstep
    · exact Int.le_trans (ih u c rs s' he) hstep

theorem Reachable.next_eq (h : Reachable q Undropped w) :
    ((nextOf w.rows).toUInt64.toNat : Int) = (nextOf w.rows).toInt :=
  toNat_toUInt64_of_nonneg h.indexed.start

/-- What a task was told was so in a world in which the counter was not ahead of where it is, and
the task was permitted to ask. -/
theorem Reachable.told_at (h : Reachable q Undropped w) {c : Call} {a : c.Answer}
    (told : Told (seenBy t w.history) c a) :
    ∃ v r, Reachable q Undropped v ∧ (v.rows.apply c).1 = a ∧
      (nextOf v.rows).toUInt64 ≤ (nextOf w.rows).toUInt64 ∧
      Permitted q r (seenBy t v.history) (.call c) := by
  obtain ⟨v, r, _, hv, hat, _, hp, hans⟩ := h.seen_at told
  refine ⟨v, r, hv, (congrArg Prod.fst hans).symm, ?_, hp⟩
  have := h.next_le _ _ _ _ (hat.subset List.mem_cons_self)
  have := hv.next_eq
  have := h.next_eq
  rw [UInt64.le_iff_toNat_le]
  omega

theorem Reachable.told_counter (h : Reachable q Undropped w)
    (told : Told (seenBy t w.history) (.readCell .counter) cell) :
    (counterValue cell).toUInt64 ≤ (nextOf w.rows).toUInt64 := by
  obtain ⟨v, _, _, rfl, hle, _⟩ := h.told_at told
  exact hle

theorem Reachable.inserted_lt (h : Reachable q Undropped w) {i : UInt64}
    (hi : Inserted i w.history) : i < (nextOf w.rows).toUInt64 := by
  have hbelow : (i.toNat : Int) < (nextOf w.rows).toInt := h.indexed.below i hi
  have hnext := h.next_eq
  rw [UInt64.lt_iff_toNat_lt]
  omega

/-! ## Buckets that take no more -/

theorem Reachable.full_lt_head (h : Reachable q Undropped w)
    (hfull : (w.rows.inBucket b).length = q.bucketSize.toNat) : b < headOf q w.rows := by
  have hplaced : ∀ m ∈ w.rows.inBucket b, q.bucketOf m.index = b ∧
      m.index < (nextOf w.rows).toUInt64 := by
    intro m hm
    have hr := Rows.mem_inBucket.mp hm
    exact ⟨(h.filed.placed _ hr).symm, h.inserted_lt (h.filed.inserted _ hr)⟩
  -- The bucket has a message, so it is not past the head; were it the head, it would have a message
  -- at the next index.
  obtain ⟨m, hm⟩ := List.exists_mem_of_length_pos (hfull ▸ q.bucketSize_pos)
  have hle : b ≤ headOf q w.rows := by
    rw [← (hplaced m hm).1]
    exact q.bucketOf_mono (UInt64.le_of_lt (hplaced m hm).2)
  refine UInt64.lt_of_le_of_ne hle fun hb => ?_
  have hmem : (nextOf w.rows).toUInt64 ∈ (w.rows.inBucket b).map (·.index) := by
    refine Queue.mem_of_full h.filed.distinct.inBucket (fun j hj => ?_)
      (by rw [List.length_map, hfull])
    obtain ⟨n, hn, rfl⟩ := List.mem_map.mp hj
    exact (hplaced n hn).1.trans hb
  obtain ⟨n, hn, hi⟩ := List.mem_map.mp hmem
  exact absurd (hi ▸ (hplaced n hn).2) (UInt64.lt_irrefl _)

theorem Reachable.closed_lt_head (h : Reachable q Undropped w)
    (hc : Closed q (seenBy t w.history) b) : b < headOf q w.rows := by
  rcases hc with ⟨ms, told, hfull⟩ | ⟨cell, told, hlt⟩
  · obtain ⟨v, _, hv, rfl, hle, _⟩ := h.told_at told
    exact UInt64.lt_of_lt_of_le (hv.full_lt_head hfull) (q.bucketOf_mono hle)
  · exact UInt64.lt_of_lt_of_le hlt (q.bucketOf_mono (h.told_counter told))

theorem Permitted.seal {r : Request} {tr : List Seen} {at_ : Instant}
    (h : Permitted q r tr (.call (.insertTombstone b at_))) : Seals q tr b := by
  cases h with
  | looks h => cases h
  | seals _ h => exact h

theorem Reachable.head_le {r : Request} {s : Seen} (h : Reachable q Undropped w)
    (hp : Permitted q r (seenBy t w.history) s.effect)
    (hturn : Turn q w.history w.rows t r s rows') : headOf q w.rows ≤ headOf q rows' := by
  have hstart : 0 ≤ (nextOf w.rows).toInt := h.indexed.start
  have hle := hturn.next_le hp
  have hnext := h.next_eq
  have hnext' := toNat_toUInt64_of_nonneg (Int.le_trans hstart hle)
  exact q.bucketOf_mono (UInt64.le_iff_toNat_le.mpr (by omega))

theorem Reachable.sealed_lt_head (h : Reachable q Undropped w) :
    ∀ b sealedAt, w.rows.sealedAt? b = some sealedAt → b < headOf q w.rows := by
  refine h.course (P := fun rows _ => ∀ b sealedAt, rows.sealedAt? b = some sealedAt →
    b < headOf q rows) (fun _ _ => id) nofun (fun _ _ _ _ ih => ih) (fun _ _ _ _ ih => ih) ?_
  intro v t r s rows hv _ hp hturn ih b sealedAt hsealed
  have hle := hv.head_le hp hturn
  cases hturn with
  | leaves _ => exact ih b sealedAt hsealed
  | inserts _ => exact ih b sealedAt hsealed
  | replaces _ => exact ih b sealedAt hsealed
  | deletes => exact ih b sealedAt hsealed
  | swaps => exact UInt64.lt_of_lt_of_le (ih b sealedAt hsealed) hle
  | @records b' at_ free =>
    by_cases hb : b = b'
    · subst hb
      exact hv.closed_lt_head hp.seal.closed
    · have hne : (b == b') = false := beq_false_of_ne hb
      refine ih b sealedAt ?_
      simpa [Rows.sealedAt?, Rows.addSeal, List.lookup_cons, hne] using hsealed

/-! ## What the rows themselves tell -/

/-- What is stored is at indices before the next one, and what is sealed is before the head. -/
structure Tidy (q : Queue) (rows : Rows) : Prop where
  orderly : Orderly q rows
  counted : 0 ≤ (nextOf rows).toInt
  below : ∀ r ∈ rows.messages, r.message.index < (nextOf rows).toUInt64
  closed : ∀ b sealedAt, rows.sealedAt? b = some sealedAt → b < headOf q rows

theorem Reachable.tidy (h : Reachable q Undropped w) : Tidy q w.rows :=
  ⟨h.orderly, h.indexed.start, fun r hr => h.inserted_lt (h.stored_inserted r hr), h.sealed_lt_head⟩

theorem Tidy.within (h : Tidy q rows) : ∀ r ∈ rows.messages, r.bucket ≤ headOf q rows := by
  intro r hr
  rw [h.orderly.2 r hr]
  exact q.bucketOf_mono (UInt64.le_of_lt (h.below r hr))

/-! ## Versions -/

/-- A message's version is at most the number of events. -/
theorem Reachable.version_le (h : Reachable q Undropped w) :
    ∀ row ∈ w.rows.messages, row.message.version.toNat ≤ w.history.length := by
  refine h.course (P := fun rows h => ∀ row ∈ rows.messages, row.message.version.toNat ≤ h.length)
    (fun _ _ => id) nofun ?_ ?_ ?_
  · exact fun rows past t r ih row hrow => Nat.le_succ_of_le (ih row hrow)
  · exact fun rows past t r ih row hrow => Nat.le_succ_of_le (ih row hrow)
  · intro v t req s rows hv _ hp hturn ih row hrow
    cases hturn with
    | leaves _ => exact Nat.le_succ_of_le (ih row hrow)
    | swaps => exact Nat.le_succ_of_le (ih row hrow)
    | records _ => exact Nat.le_succ_of_le (ih row hrow)
    | deletes => exact Nat.le_succ_of_le (ih row (Rows.mem_removeBucket.mp hrow).1)
    | inserts _ =>
      rcases Rows.mem_insert.mp hrow with rfl | hrow
      · obtain ⟨_, _, _, hins⟩ := hp.insert
        obtain ⟨_, _, _, hfresh⟩ := hins.fresh
        rw [hfresh]
        exact Nat.zero_le _
      · exact Nat.le_succ_of_le (ih row hrow)
    | @replaces next old cond hrep =>
      rcases Rows.mem_replace.mp hrow with ⟨_, _, _, rfl⟩ | ⟨hrow, _⟩
      · have hold : old.version.toNat ≤ v.history.length := ih _ hrep.stored
        have hstep := hrep.updates.step
        simp only [List.length_cons]
        omega
      · exact Nat.le_succ_of_le (ih row hrow)

/-- In a run that is not as long as there are versions, each message has a next one. -/
theorem Reachable.has_next (h : Reachable q Undropped w)
    (hlen : w.history.length + 1 < UInt64.size) :
    ∀ row ∈ w.rows.messages, (wordSucc? row.message.version).isSome := by
  intro row hrow
  have hle := h.version_le row hrow
  have hnext : row.message.version.toNat + 1 < UInt64.size := by omega
  rw [wordSucc?, if_pos hnext]
  rfl

/-! ## The reader bucket -/

theorem Permitted.swap_reader {r : Request} {tr : List Seen} {expected : Option Int64}
    {next : Int64} (h : Permitted q r tr (.call (.swapCell .readerBucket expected next))) :
    cellSucc? (Cursor.readerBucket.position expected) = some next ∧
      ∃ t sealedAt, Told tr (.insertTombstone (Cursor.readerBucket.position expected).toUInt64 t)
        sealedAt := by
  cases h with
  | looks h => cases h
  | advances he told h =>
    rw [he.position]
    exact ⟨h, _, _, told⟩

/-- The reader bucket does not pass the head. -/
theorem Reachable.reader_le_head (h : Reachable q Undropped w) :
    0 ≤ (readerOf w.rows).toInt ∧ (readerOf w.rows).toUInt64 ≤ headOf q w.rows := by
  refine h.course (P := fun rows _ => 0 ≤ (readerOf rows).toInt ∧
    (readerOf rows).toUInt64 ≤ headOf q rows) (fun _ _ => id) ?_
    (fun _ _ _ _ ih => ih) (fun _ _ _ _ ih => ih) ?_
  · have hzero : (readerOf {}).toUInt64 = 0 := by decide
    rw [hzero]
    exact ⟨by decide, UInt64.zero_le⟩
  intro v t r s rows hv _ hp hturn ih
  have hle := hv.head_le hp hturn
  cases hturn with
  | leaves _ => exact ih
  | inserts _ => exact ih
  | replaces _ => exact ih
  | deletes => exact ih
  | records _ => exact ih
  | @swaps cell next =>
    cases cell with
    | counter => exact ⟨ih.1, UInt64.le_trans ih.2 hle⟩
    | invisibility => exact ih
    | repairBucket => exact ih
    | readerBucket =>
      -- The bucket that is left was sealed, so it was before the head.
      obtain ⟨hsucc, u, sealedAt, told⟩ := hp.swap_reader
      obtain ⟨v', _, hv', _, hnext, hasked⟩ := hv.told_at told
      have hlt : (readerOf v.rows).toUInt64 < headOf q v.rows :=
        UInt64.lt_of_lt_of_le (hv'.closed_lt_head hasked.seal.closed) (q.bucketOf_mono hnext)
      have hstep : next.toInt = (readerOf v.rows).toInt + 1 := cellSucc?_eq_some hsucc
      have hread := toNat_toUInt64_of_nonneg ih.1
      have hpos : 0 ≤ next.toInt := by have := ih.1; omega
      have hnat := toNat_toUInt64_of_nonneg hpos
      refine ⟨hpos, ?_⟩
      show next.toUInt64 ≤ headOf q v.rows
      rw [UInt64.lt_iff_toNat_lt] at hlt
      rw [UInt64.le_iff_toNat_le]
      omega

/-! ## The invisibility cursor -/

theorem Permitted.swap_invisibility {r : Request} {tr : List Seen} {expected : Option Int64}
    {target : Int64} (h : Permitted q r tr (.call (.swapCell .invisibility expected target))) :
    Parks q tr (Cursor.invisibility.position expected) target ∨
      Leaves q tr (Cursor.invisibility.position expected) target := by
  cases h with
  | looks h => cases h
  | parks he h => exact .inl (he.position ▸ h)
  | leaves he h => exact .inr (he.position ▸ h)

theorem Reachable.toInt_index (h : Reachable q Undropped w) {i : UInt64}
    (hi : i ≤ (nextOf w.rows).toUInt64) : i.toInt64.toInt = i.toNat := by
  have hnext := h.next_eq
  have hmax := (nextOf w.rows).toInt_le
  rw [UInt64.le_iff_toNat_le] at hi
  exact toInt_toInt64 (by omega)

theorem Parks.index {position target : Int64} (h : Reachable q Undropped w)
    (hp : Parks q (seenBy t w.history) position target) :
    ∃ i ms looked, target = i.toInt64 ∧ i < (nextOf w.rows).toUInt64 ∧
      q.bucketOf i = q.bucketOfCursor position ∧
      lastLook t (q.bucketOfCursor position) w.history = some (ms, looked) ∧
      ∀ j, Queue.firstPending ms = some j → i ≤ j := by
  obtain ⟨ms, before, m, hread, hm, rfl, hfirst⟩ := hp
  obtain ⟨looked, hlook, _⟩ := lastLook_of_lastRead hread
  obtain ⟨hplaced, hins⟩ := h.look_placed hlook hm
  obtain ⟨_, _, _, _, _, _, _, _, hs⟩ := h.look_rows hlook
  have hlt := h.inserted_lt (hins.mono ((List.suffix_cons _ _).trans hs))
  exact ⟨m.index, ms, looked, rfl, hlt, hplaced.symm, hlook, hfirst⟩

/-- A reader leaves a bucket for the start of the next one, which the counter has reached. -/
theorem Leaves.start {position target : Int64} (h : Reachable q Undropped w)
    (hl : Leaves q (seenBy t w.history) position target) :
    ∃ start, target = start.toInt64 ∧ start ≤ (nextOf w.rows).toUInt64 ∧
      start.toNat = ((q.bucketOfCursor position).toNat + 1) * q.bucketSize.toNat := by
  obtain ⟨cell, told, hpassed⟩ := hl.passed
  obtain ⟨next, start, hnext, hstart, rfl⟩ := hl.target
  have hcount := h.told_counter told
  have hmul := wordMul?_eq_some hstart
  rw [wordSucc?_eq_some hnext] at hmul
  refine ⟨start, rfl, UInt64.le_trans (UInt64.le_iff_toNat_le.mpr ?_) hcount, hmul⟩
  rw [UInt64.lt_iff_toNat_lt, Queue.bucketOf_toNat, Nat.lt_iff_add_one_le,
    Nat.le_div_iff_mul_le q.bucketSize_pos] at hpassed
  exact hmul ▸ hpassed

theorem Parks.stays {target : Int64} (h : Reachable q Undropped w)
    (hp : Parks q (seenBy t w.history)
      (Cursor.invisibility.position w.rows.cells.invisibility) target) :
    Cursor.invisibility.bucket q target = cursorAt q .invisibility w.rows := by
  obtain ⟨i, _, _, rfl, hi, hb, _⟩ := hp.index h
  have hfits := h.toInt_index (UInt64.le_of_lt hi)
  exact (Queue.bucketOfCursor_toInt64 (hfits ▸ Int64.toInt_le _)).trans hb

theorem Leaves.target_next {target : Int64} {position : Int64} (h : Reachable q Undropped w)
    (hl : Leaves q (seenBy t w.history) position target) :
    (q.bucketOfCursor target).toNat = (q.bucketOfCursor position).toNat + 1 := by
  obtain ⟨start, rfl, hle, hmul⟩ := hl.start h
  have hfits := h.toInt_index hle
  rw [Queue.bucketOfCursor_toInt64 (hfits ▸ Int64.toInt_le _), Queue.bucketOf_toNat, hmul,
    Nat.mul_div_cancel _ q.bucketSize_pos]

/-! ## The repair cursor -/

theorem Permitted.swap_repair {req : Request} {tr : List Seen} {expected : Option Int64}
    {target : Int64} (h : Permitted q req tr (.call (.swapCell .repairBucket expected target))) :
    ∃ cfg b next, req = .tick cfg ∧ Cursor.repairBucket.position expected = b.toInt64 ∧
      target = next.toInt64 ∧ Passes q tr cfg b next := by
  cases h with
  | looks h => cases h
  | passes he h => exact ⟨_, _, _, rfl, he.position, rfl, h⟩

theorem cursorAt_repair (hpos : repairOf rows = b.toInt64) : cursorAt q .repairBucket rows = b := by
  change (repairOf rows).toUInt64 = b
  rw [hpos, UInt64.toUInt64_toInt64]

end LeaseQueue.Shared
