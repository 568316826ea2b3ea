import LeaseQueue.Proofs.Shared.Turns

/-
  The invisibility cursor passes nothing that is left to do.

  Readers move the cursor on the strength of what they have read, and any number
  of them may do so at a time. What keeps it right is that nothing is inserted
  behind it: while a reader is served, its looks stay complete, and a publisher
  that takes its index later takes one that the cursor has not passed.
-/

namespace LeaseQueue

namespace Queue

variable {q : Queue} {i : UInt64}

theorem bucketOfCursor_le {position : Int64} (h : position.toInt ≤ i.toNat) :
    q.bucketOfCursor position ≤ q.bucketOf i := by
  unfold bucketOfCursor
  split
  · exact UInt64.zero_le
  · rename_i hneg
    rw [Int64.lt_iff_toInt_lt, Int64.toInt_zero, Int.not_lt] at hneg
    have hnat := toNat_toUInt64_of_nonneg hneg
    exact q.bucketOf_mono (UInt64.le_iff_toNat_le.mpr (by omega))

theorem bucketOf_lt_of_start {start : UInt64} {n : Nat} (hs : start.toNat = n * q.bucketSize.toNat)
    (h : i < start) : (q.bucketOf i).toNat < n := by
  rw [UInt64.lt_iff_toNat_lt, hs] at h
  rw [bucketOf_toNat]
  exact Nat.div_lt_of_lt_mul (Nat.mul_comm _ _ ▸ h)

/-- In the order of indices, the first pending message comes no later than any other. -/
theorem exists_firstPending_le {ms : List Message} {m : Message}
    (hs : ms.Pairwise fun m n => m.index < n.index) (hm : m ∈ ms) (hp : m.pending = true) :
    ∃ i, firstPending ms = some i ∧ i ≤ m.index := by
  cases hfirst : ms.find? (·.pending) with
  | none => exact absurd hp (by simpa using List.find?_eq_none.mp hfirst m hm)
  | some first =>
    refine ⟨first.index, by simp [firstPending, hfirst], ?_⟩
    obtain ⟨_, before, after, rfl, hbefore⟩ := List.find?_eq_some_iff_append.mp hfirst
    rcases List.mem_append.mp hm with hm | hm
    · have := hbefore m hm
      simp [hp] at this
    · rcases List.mem_cons.mp hm with rfl | hm
      · exact UInt64.le_refl _
      · have hlater := (List.pairwise_cons.mp (List.pairwise_append.mp hs).2.1).1
        exact UInt64.le_of_lt (hlater m hm)

end Queue

namespace Shared

variable {q : Queue} {w : World} {t : Nat} {r : Request} {rows : Rows} {target : Int64}

/-- The cursor is not past the next index; what is stored before it is acknowledged or was
delivered, and what is stored before its bucket is acknowledged. -/
structure Settled (q : Queue) (rows : Rows) : Prop where
  reached : (invisibilityOf rows).toInt ≤ (nextOf rows).toInt
  passed : ∀ row ∈ rows.messages, (row.message.index.toNat : Int) < (invisibilityOf rows).toInt →
    row.message.acked = true ∨ row.message.delivered = true
  unacked : ∀ row ∈ rows.messages, row.message.acked = false →
    q.bucketOfCursor (invisibilityOf rows) ≤ row.bucket

theorem Settled.other {rows' : Rows} (hs : Settled q rows)
    (hcur : invisibilityOf rows' = invisibilityOf rows)
    (hnext : (nextOf rows).toInt ≤ (nextOf rows').toInt)
    (hr : ∀ r' ∈ rows'.messages, ∃ r ∈ rows.messages, r'.bucket = r.bucket ∧
      r.message.Became r'.message) : Settled q rows' := by
  refine ⟨?_, fun r' hr' hlt => ?_, fun r' hr' hacked => ?_⟩
  · rw [hcur]
    exact Int.le_trans hs.reached hnext
  · obtain ⟨r, hr, _, hb⟩ := hr r' hr'
    rw [hcur, hb.index] at hlt
    exact (hs.passed r hr hlt).imp hb.acked hb.delivered
  · obtain ⟨r, hr, hbucket, hb⟩ := hr r' hr'
    rw [hcur, hbucket]
    exact hs.unacked r hr (Bool.eq_false_iff.mpr fun ha => by simp [hb.acked ha] at hacked)

theorem Settled.insert {m : Message} (hs : Settled q rows)
    (hm : (invisibilityOf rows).toInt ≤ m.index.toNat) :
    Settled q (rows.insert (q.bucketOf m.index) m) := by
  refine ⟨hs.reached, fun r hr hlt => ?_, fun r hr hacked => ?_⟩
  · rcases Rows.mem_insert.mp hr with rfl | hr
    · exact absurd hlt (Int.not_lt.mpr hm)
    · exact hs.passed r hr hlt
  · rcases Rows.mem_insert.mp hr with rfl | hr
    · exact Queue.bucketOfCursor_le hm
    · exact hs.unacked r hr hacked

/-! ## How readers move the cursor -/

/-- What a reader that is served has last seen in a bucket has become what is stored there. -/
theorem Reachable.in_complete_look (h : Reachable q TakingTurns w) (ht : Serving w t r)
    (hr : r.reads = true) {row : Row} {ms : List Message} {looked : History}
    (hl : lastLook t row.bucket w.history = some (ms, looked)) (hrow : row ∈ w.rows.messages) :
    ∃ m ∈ ms, m.Became row.message := by
  have hd := h.mono fun _ _ => undropped_of_takingTurns
  exact hd.in_look hl hrow (h.look_complete ht hr hl (hd.filed.inserted row hrow))

theorem Settled.parks (hs : Settled q w.rows) (h : Reachable q TakingTurns w) (ht : Serving w t r)
    (hr : r.reads = true) (hp : Parks q (seenBy t w.history) (invisibilityOf w.rows) target) :
    Settled q { w.rows with cells := w.rows.cells.set .invisibility target } := by
  have hd := h.mono fun _ _ => undropped_of_takingTurns
  have hstays : q.bucketOfCursor target = q.bucketOfCursor (invisibilityOf w.rows) := hp.stays hd
  obtain ⟨i, ms, looked, rfl, hi, hb, hlook, hfirst⟩ := hp.index hd
  have hfits := hd.toInt_index (UInt64.le_of_lt hi)
  refine ⟨?_, fun row hrow hbefore => ?_, fun row hrow hacked => ?_⟩
  · show i.toInt64.toInt ≤ (nextOf w.rows).toInt
    have hnext := hd.next_eq
    rw [UInt64.lt_iff_toNat_lt] at hi
    omega
  · change _ < i.toInt64.toInt at hbefore
    rw [hfits] at hbefore
    by_cases hacked : row.message.acked = true
    · exact .inl hacked
    · -- It is unacknowledged and not after the cursor's bucket, so the reader has seen it there.
      have hge := hs.unacked row hrow (Bool.eq_false_iff.mpr hacked)
      have hle : row.bucket ≤ q.bucketOfCursor (invisibilityOf w.rows) := by
        rw [hd.filed.placed row hrow, ← hb]
        exact q.bucketOf_mono (UInt64.le_iff_toNat_le.mpr (by omega))
      have hbucket := UInt64.le_antisymm hle hge
      obtain ⟨n, hn, hbec⟩ := h.in_complete_look ht hr (hbucket ▸ hlook) hrow
      refine .inr ?_
      by_contra hdel
      have hpending : n.pending = true := hbec.pending (by simp [Message.pending, hacked, hdel])
      obtain ⟨v, _, _, hv, _, rfl, _, rfl, _⟩ := hd.look_rows hlook
      obtain ⟨j, hj, hjn⟩ := Queue.exists_firstPending_le hv.sorted.inBucket hn hpending
      have hle := UInt64.le_trans (hfirst j hj) hjn
      rw [UInt64.le_iff_toNat_le, ← hbec.index] at hle
      omega
  · show q.bucketOfCursor i.toInt64 ≤ row.bucket
    rw [hstays]
    exact hs.unacked row hrow hacked

theorem Settled.leaves (hs : Settled q w.rows) (h : Reachable q TakingTurns w) (ht : Serving w t r)
    (hr : r.reads = true) (hl : Leaves q (seenBy t w.history) (invisibilityOf w.rows) target) :
    Settled q { w.rows with cells := w.rows.cells.set .invisibility target } := by
  have hd := h.mono fun _ _ => undropped_of_takingTurns
  have hto := hl.target_next hd
  obtain ⟨start, rfl, hle, hmul⟩ := hl.start hd
  obtain ⟨ms, before, hread, hacked⟩ := hl.settled
  obtain ⟨looked, hlook, _⟩ := lastLook_of_lastRead hread
  have hfits := hd.toInt_index hle
  -- Whatever is stored in the bucket that is left has been seen there acknowledged.
  have hleft : ∀ row ∈ w.rows.messages,
      row.bucket.toNat < (q.bucketOfCursor (invisibilityOf w.rows)).toNat + 1 →
      row.message.acked = true := by
    intro row hrow hlt
    by_contra hnot
    have hge := hs.unacked row hrow (Bool.eq_false_iff.mpr hnot)
    have hbucket : q.bucketOfCursor (invisibilityOf w.rows) = row.bucket := by
      rw [UInt64.le_iff_toNat_le] at hge
      exact UInt64.toNat_inj.mp (by omega)
    obtain ⟨n, hn, hbec⟩ := h.in_complete_look ht hr (hbucket ▸ hlook) hrow
    exact hnot (hbec.acked (hacked n hn))
  refine ⟨?_, fun row hrow hbefore => ?_, fun row hrow hnot => ?_⟩
  · show start.toInt64.toInt ≤ (nextOf w.rows).toInt
    have hnext := hd.next_eq
    rw [UInt64.le_iff_toNat_le] at hle
    omega
  · change _ < start.toInt64.toInt at hbefore
    rw [hfits] at hbefore
    have hlt : row.message.index < start := UInt64.lt_iff_toNat_lt.mpr (by omega)
    refine .inl (hleft row hrow ?_)
    rw [hd.filed.placed row hrow]
    exact Queue.bucketOf_lt_of_start hmul hlt
  · show q.bucketOfCursor start.toInt64 ≤ row.bucket
    rw [UInt64.le_iff_toNat_le, hto]
    by_contra hlt
    have := hleft row hrow (by omega)
    rw [hnot] at this
    cases this

/-! ## In every run -/

/-- An effect of a task whose index, if it has one to write to, is not behind the cursor. Only
readers move the cursor. -/
theorem Settled.turn {s : Seen} (hs : Settled q w.rows) (h : Reachable q TakingTurns w)
    (ht : Serving w t r) (hp : Permitted q r (seenBy t w.history) s.effect)
    (hturn : Turn q w.history w.rows t r s rows)
    (held : ∀ i, r.fills = true → inHand (seenBy t w.history) = some i →
      (invisibilityOf w.rows).toInt ≤ i.toNat) :
    Settled q rows ∧ (invisibilityOf rows = invisibilityOf w.rows ∨ r.reads = true) := by
  have hnext := hturn.next_le hp
  have same : ∀ r' ∈ w.rows.messages, ∃ r ∈ w.rows.messages, r'.bucket = r.bucket ∧
      r.message.Became r'.message := fun r' hr' => ⟨r', hr', rfl, .refl _⟩
  cases hturn with
  | leaves _ => exact ⟨hs, .inl rfl⟩
  | records _ => exact ⟨hs.other rfl hnext same, .inl rfl⟩
  | deletes =>
    exact ⟨hs.other rfl hnext fun r hr => same r (Rows.mem_removeBucket.mp hr).1, .inl rfl⟩
  | @replaces next old cond hrep =>
    refine ⟨hs.other rfl hnext fun r' hr' => ?_, .inl rfl⟩
    rcases Rows.mem_replace.mp hr' with ⟨_, _, _, rfl⟩ | ⟨hr', _⟩
    · exact ⟨_, hrep.stored, rfl, hrep.updates.became⟩
    · exact same r' hr'
  | inserts first =>
    obtain ⟨_, _, _, hins⟩ := hp.insert
    exact ⟨hs.insert (held _ hp.fills hins.hand), .inl rfl⟩
  | @swaps cell target =>
    cases cell with
    | counter => exact ⟨hs.other rfl hnext same, .inl rfl⟩
    | readerBucket => exact ⟨hs.other rfl hnext same, .inl rfl⟩
    | repairBucket => exact ⟨hs.other rfl hnext same, .inl rfl⟩
    | invisibility =>
      refine ⟨?_, .inr hp.reads⟩
      rcases Permitted.swap_invisibility hp with hparks | hleaves
      · exact hs.parks h ht hp.reads hparks
      · exact hs.leaves h ht hp.reads hleaves

/-- Nothing that is left to do is behind the cursor, and no task that writes new messages has an
index that is. -/
theorem Reachable.settled (h : Reachable q TakingTurns w) :
    Settled q w.rows ∧ ∀ t r i, Serving w t r → r.fills = true →
      inHand (seenBy t w.history) = some i → (invisibilityOf w.rows).toInt ≤ i.toNat := by
  induction h with
  | fresh =>
    refine ⟨⟨by decide, nofun, nofun⟩, fun t r i ht => ?_⟩
    obtain ⟨_, ht⟩ := ht
    cases ht
  | @step w w' a hw ha hs ih =>
    obtain ⟨hset, held⟩ := ih
    have hd := hw.mono fun _ _ => undropped_of_takingTurns
    have hm := move_of_step? hs
    -- An index is taken where the counter stands, which the cursor has not passed.
    have hheld : ∀ t r i, Serving w' t r → r.fills = true →
        inHand (seenBy t w'.history) = some i → (invisibilityOf w.rows).toInt ≤ i.toNat := by
      intro t r i ht hr hi
      obtain ⟨ht, hi | rfl⟩ := hm.hand hw ht hi
      · exact held t r i ht hr hi
      · rw [hd.next_eq]
        exact hset.reached
    have hserved : ∀ t r i, Serving w' t r → inHand (seenBy t w'.history) = some i →
        Serving w t r := fun t r i ht hi => (hm.hand hw ht hi).1
    cases hm with
    | starts request => exact ⟨hset, hheld⟩
    | passes d => exact ⟨hset, hheld⟩
    | turns hu => exact ⟨hset, hheld⟩
    | ends hu => exact ⟨hset, hheld⟩
    | @performs _ u request s k rows hu hans =>
      have hp := (hw.task_obeys (requests_keep _) hu).2.1
      have hstarted := (hw.task_obeys (requests_keep _) hu).1
      have hturn := hd.turn hstarted hp (touch_of_answered hans)
      obtain ⟨hset', hcur⟩ := hset.turn hw ⟨_, hu⟩ hp hturn fun i => held u request i ⟨_, hu⟩
      refine ⟨hset', fun t r i ht hr hi => ?_⟩
      rcases hcur with hcur | hreads
      · show (invisibilityOf rows).toInt ≤ _
        rw [hcur]
        exact hheld t r i ht hr hi
      · -- While a reader is served, nobody writes new messages.
        have hclash := hw.apart (hserved t r i ht hi) ⟨_, hu⟩
        simp [Request.clashes, hr, hreads] at hclash

/-- Every stored message with an index below the cursor is acknowledged or was delivered, and every
stored unacknowledged one lies in the cursor's bucket or a later one. -/
theorem invisibility_passes_nothing (h : Reachable q TakingTurns w) :
    ∀ row ∈ w.rows.messages,
      ((row.message.index.toNat : Int) < (invisibilityOf w.rows).toInt →
        row.message.acked = true ∨ row.message.delivered = true) ∧
      (row.message.acked = false → q.bucketOfCursor (invisibilityOf w.rows) ≤ row.bucket) :=
  fun row hrow => ⟨h.settled.1.passed row hrow, h.settled.1.unacked row hrow⟩

/-- Two messages are put, and two readers hand them out at a time, both moving the cursor. The first
message is acknowledged, and another reader parks the cursor on the second one. -/
def parking : List Action :=
  serve 0 (.put [1] 0) 6 ++ serve 1 (.put [2] 0) 6 ++
    [.start (.receive 1 1000), .start (.receive 1 1000)] ++
    (List.replicate 4 [.act 2 ⟨7⟩, .act 3 ⟨7⟩]).flatten ++ List.replicate 8 (.act 2 ⟨7⟩) ++
    [.finish 2] ++ List.replicate 8 (.act 3 ⟨7⟩) ++ [.finish 3] ++ serve 4 (.ack ⟨0, 1, ⟨7⟩⟩) 2 ++
    serve 5 (.receive 1 1000) 20

theorem invisibility_passes_nothing_parking :
    ∃ w first second, Reachable pairs TakingTurns w ∧ w.rows.messages = [first, second] ∧
      invisibilityOf w.rows = 1 ∧ first.message.index = 0 ∧
      (first.message.acked = true ∨ first.message.delivered = true) ∧
      second.message.acked = false ∧
      pairs.bucketOfCursor (invisibilityOf w.rows) ≤ second.bucket := by
  obtain ⟨w, first, second, hw, hmessages, hcur, hindex, hacked⟩ : ∃ w first second,
      ({} : World).runIf? pairs turnFree parking = some w ∧
      w.rows.messages = [first, second] ∧ invisibilityOf w.rows = 1 ∧ first.message.index = 0 ∧
      second.message.acked = false :=
    ⟨_, _, _, rfl, rfl, rfl, rfl, rfl⟩
  have h : Reachable pairs TakingTurns w := .runIf (fun _ _ hr => hr.turnFree) .fresh hw
  have passed := (invisibility_passes_nothing h first (by simp [hmessages])).1
  have unacked := (invisibility_passes_nothing h second (by simp [hmessages])).2
  exact ⟨w, first, second, h, hmessages, hcur, hindex, passed (by rw [hcur, hindex]; decide),
    hacked, unacked hacked⟩

end Shared

end LeaseQueue
