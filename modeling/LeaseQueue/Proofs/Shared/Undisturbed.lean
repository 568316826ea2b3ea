import LeaseQueue.Proofs.Shared.Payloads
import LeaseQueue.Proofs.Shared.Solo

/-
  What the parts of an operation do when nothing disturbs them.

  Each lemma says what one of them leaves in the rows. A write that compares
  versions applies, since what it compares with is what is stored, a cursor is
  where its mover has seen it, and the first swap of the counter succeeds.
-/

namespace LeaseQueue

open Shared

variable {q : Queue} {S : Setting} {rows : Rows} {c : Instant} {m next : Message} {b i : UInt64}
  {blob : Blob} {hide delay : Duration} {position : Int64} {cfg : Repair.Config}

/-! ## Messages -/

theorem replace_solo {cond : Condition} {P : Outcome (Option Message)} (hb : S.Bears rows)
    (hf : rows.find? (q.bucketOf m.index) m.index = some m) (hi : next.index = m.index)
    (hc : cond.holds m = true)
    (h : ∀ t, c ≤ t → P (some next) (rows.replace (q.bucketOf m.index) next) t) :
    (q.replace next cond).Solo S P rows c := by
  refine .bind (.call hb fun t ht => ?_)
  have happly : rows.apply (.updateMessage (q.bucketOf next.index) next cond) =
      (true, rows.replace (q.bucketOf m.index) next) := by
    simp [Rows.apply, hi, hf, hc]
  rw [happly]
  exact h t ht

theorem acknowledge_solo {P : Outcome Bool} (hb : S.Bears rows)
    (hf : rows.find? (q.bucketOf m.index) m.index = some m)
    (hsome : ∀ next t, c ≤ t → m.acknowledged? = some next →
      P true (rows.replace (q.bucketOf m.index) next) t)
    (hnone : wordSucc? m.version = none → S.faults .overflow rows) :
    (q.acknowledge m).Solo S P rows c := by
  refine .bind (.inRange (fun next hn => .bind ?_) fun hn => hnone (Option.map_eq_none_iff.mp hn))
  exact replace_solo hb hf (Message.became_of_acknowledged? hn).index (by simp [Condition.holds])
    fun t ht => hsome next t ht hn

theorem claim_solo {P : Outcome (Option Message)} (hb : S.Bears rows)
    (hf : rows.find? (q.bucketOf m.index) m.index = some m) (hacked : m.acked = false)
    (hsome : ∀ next now t, c ≤ now → m.claimed? now hide = some next →
      P (some next) (rows.replace (q.bucketOf m.index) next) t)
    (hnone : wordSucc? m.version = none → S.faults .overflow rows) :
    (q.claim m hide).Solo S P rows c := by
  refine .bind (.now fun now hnow => .bind ?_)
  refine .inRange (fun next hn => ?_) fun hn => hnone (Option.map_eq_none_iff.mp hn)
  exact replace_solo hb hf (Message.became_of_claimed? hn).index (by simp [Condition.holds, hacked])
    fun t _ => hsome next now t hnow hn

theorem revise_solo {P : Outcome (Option Message)} (hb : S.Bears rows)
    (hf : rows.find? (q.bucketOf m.index) m.index = some m) (hacked : m.acked = false)
    (hsome : ∀ next now t, c ≤ now → m.revised? blob now hide = some next →
      P (some next) (rows.replace (q.bucketOf m.index) next) t)
    (hnone : wordSucc? m.version = none → S.faults .overflow rows) :
    (q.revise m blob hide).Solo S P rows c := by
  refine .bind (.now fun now hnow => .bind ?_)
  refine .inRange (fun next hn => ?_) fun hn => hnone (Option.map_eq_none_iff.mp hn)
  exact replace_solo hb hf (Message.became_of_revised? hn).index (by simp [Condition.holds, hacked])
    fun t _ => hsome next now t hnow hn

theorem write_solo {P : Outcome Message} (hb : S.Bears rows)
    (hfree : rows.find? (q.bucketOf i) i = none)
    (h : ∀ now tag t, c ≤ now → now ≤ t → P (Message.fresh i blob tag now delay)
      (rows.insert (q.bucketOf i) (Message.fresh i blob tag now delay)) t) :
    (q.write i blob delay).Solo S P rows c := by
  refine .bind (.now fun now hnow => .bind (.drawTag fun tag t ht => ?_))
  refine .bind (.call hb fun t' ht' => ?_)
  have happly : rows.apply (.insertMessage (q.bucketOf i) (Message.fresh i blob tag now delay)) =
      (true, rows.insert (q.bucketOf i) (Message.fresh i blob tag now delay)) := by
    have hfree : rows.find? (q.bucketOf i) (Message.fresh i blob tag now delay).index = none :=
      hfree
    rw [Rows.apply, hfree]
  rw [happly]
  exact h now tag t' hnow (Nat.le_trans ht ht')

theorem authorize_solo {P : Outcome (Option Message)} {r : Receipt} (hb : S.Bears rows)
    (hnone : ∀ t, (∀ m, rows.find? (q.bucketOf r.index) r.index = some m → r.fits m = false) →
      P none rows t)
    (hsome : ∀ m t, rows.find? (q.bucketOf r.index) r.index = some m → r.fits m = true →
      P (some m) rows t) :
    (q.authorize r).Solo S P rows c := by
  refine .bind (.call hb fun t _ => ?_)
  show P ((rows.find? (q.bucketOf r.index) r.index).filter r.fits) rows t
  cases hf : (rows.find? (q.bucketOf r.index) r.index).filter r.fits with
  | none => exact hnone t fun m hm => Bool.eq_false_iff.mpr (Option.filter_eq_none_iff.mp hf m hm)
  | some m =>
    obtain ⟨hm, hfits⟩ := Option.filter_eq_some_iff.mp hf
    exact hsome m t hm hfits

/-! ## The counter and the cursors -/

theorem nextIndex_solo {P : Outcome UInt64} (hb : S.Bears rows)
    (h : ∀ t, c ≤ t → P (nextOf rows).toUInt64 rows t) : nextIndex.Solo S P rows c :=
  .bind (.call hb h)

theorem allocate_solo {P : Outcome UInt64} (hb : S.Bears rows)
    (hsome : ∀ next t, c ≤ t → cellSucc? (nextOf rows) = some next →
      P (nextOf rows).toUInt64 { rows with cells := rows.cells.set .counter next } t)
    (hnone : cellSucc? (nextOf rows) = none → S.faults .overflow rows) :
    allocate.Solo S P rows c := by
  refine .bind (.call hb fun t ht => ?_)
  -- The first pass leaves the loop: the swap expects what was just read.
  refine .loop (fun n seen rs c' => n = 0 ∧ seen = rows.cells.counter ∧ rs = rows ∧ c ≤ c')
    ⟨rfl, rfl, rfl, ht⟩ ?_
  rintro _ _ rs c' ⟨rfl, rfl, rfl, hc'⟩
  refine .bind (.inRange (fun next hn => .bind (.call hb fun t ht => ?_)) hnone)
  have happly : rs.apply (.swapCell .counter rs.cells.counter next) =
      (.swapped, { rs with cells := rs.cells.set .counter next }) := if_pos rfl
  rw [happly]
  exact hsome next t (Nat.le_trans hc' ht) hn

namespace Cursor

variable {cur : Cursor}

theorem get_solo {P : Outcome Int64} (hb : S.Bears rows)
    (h : ∀ t, c ≤ t → P (cur.position (rows.cells.get cur.cell)) rows t) :
    cur.get.Solo S P rows c :=
  .bind (.call hb h)

theorem moveIf_solo {desired : Int64} {P : Outcome Int64} (hb : S.Bears rows)
    (hpos : cur.position (rows.cells.get cur.cell) = position)
    (h : ∀ t, c ≤ t → P desired { rows with cells := rows.cells.set cur.cell desired } t) :
    (cur.moveIf position desired).Solo S P rows c := by
  subst hpos
  refine .bind (.call hb fun t ht => ?_)
  cases hcell : rows.cells.get cur.cell with
  | some value =>
    have happly : rows.apply (.swapCell cur.cell (some (cur.position (some value))) desired) =
        (.swapped, { rows with cells := rows.cells.set cur.cell desired }) := if_pos hcell
    rw [happly]
    exact h t ht
  | none =>
    -- There is no cell to compare with, so the first swap fails and the second one makes it.
    have hfirst : rows.apply (.swapCell cur.cell (some (cur.position none)) desired) =
        (.conflict none, rows) := by
      simp [Rows.apply, hcell]
    have hsecond : rows.apply (.swapCell cur.cell none desired) =
        (.swapped, { rows with cells := rows.cells.set cur.cell desired }) := if_pos hcell
    rw [hfirst]
    refine .ite (fun _ => .bind (.call hb fun t' ht' => ?_)) fun hne => absurd rfl hne
    rw [hsecond]
    exact h t' (Nat.le_trans ht ht')

/-- Wherever a cursor stands, it stays there or is moved. -/
theorem moveIf_stays_or_moves {desired : Int64} {P : Outcome Int64} (hb : S.Bears rows)
    (hstays : ∀ value t, c ≤ t → P value rows t)
    (hmoves : ∀ t, c ≤ t → P desired { rows with cells := rows.cells.set cur.cell desired } t) :
    (cur.moveIf position desired).Solo S P rows c := by
  by_cases hpos : cur.position (rows.cells.get cur.cell) = position
  · exact moveIf_solo hb hpos hmoves
  · refine .bind (.call hb fun t ht => ?_)
    cases hcell : rows.cells.get cur.cell with
    | some value =>
      have hne : rows.cells.get cur.cell ≠ some position := fun he => hpos (by rw [he]; rfl)
      have happly : rows.apply (.swapCell cur.cell (some position) desired) =
          (.conflict (some value), rows) := by
        rw [← hcell]
        exact if_neg hne
      rw [happly]
      exact .pure (hstays value t ht)
    | none =>
      have happly : rows.apply (.swapCell cur.cell (some position) desired) =
          (.conflict none, rows) := by
        simp [Rows.apply, hcell]
      rw [happly]
      refine .ite (fun he => absurd ?_ hpos) fun _ => .pure (hstays _ t ht)
      rw [hcell, he]
      rfl

end Cursor

theorem park_solo {P : Outcome Unit} (hb : S.Bears rows)
    (hpos : invisibilityOf rows = position) (hstays : ∀ t, c ≤ t → P () rows t)
    (hmoves : ∀ value t, c ≤ t →
      P () { rows with cells := rows.cells.set .invisibility value } t) :
    (Queue.park position i).Solo S P rows c :=
  .ite (fun _ => .bind (Cursor.moveIf_solo hb hpos fun t ht => .pure (hmoves _ t ht)))
    fun _ => .pure (hstays c (Nat.le_refl c))

/-! ## Buckets -/

theorem sealBucket_solo {P : Outcome Instant} (hb : S.Bears rows)
    (h : ∀ sealedAt seals t, c ≤ t → (seals = rows.seals ∨ ∃ now, seals = (b, now) :: rows.seals) →
      P sealedAt { rows with seals } t) :
    (Queue.sealBucket b).Solo S P rows c := by
  refine .bind (.now fun now hnow => .call hb fun t ht => ?_)
  have hseals : ∃ sealedAt seals, (seals = rows.seals ∨ ∃ now, seals = (b, now) :: rows.seals) ∧
      rows.apply (.insertTombstone b now) = (sealedAt, { rows with seals }) := by
    simp only [Rows.apply]
    split
    · exact ⟨_, rows.seals, .inl rfl, rfl⟩
    · exact ⟨_, _, .inr ⟨now, rfl⟩, rfl⟩
  obtain ⟨sealedAt, seals, hseals, happly⟩ := hseals
  rw [happly]
  exact h sealedAt seals t (Nat.le_trans hnow ht) hseals

/-! ## Readers -/

/-- A call for the next message has two phases. The second one begins when the first one has found
nothing. -/
theorem receive_solo {limit : Nat} {Q : Outcome (Option Message)} {P : Option Message → Rows → Prop}
    (hfirst : (q.resurrect limit hide).Solo S Q rows c)
    (hsome : ∀ m rows t, Q (some m) rows t → P (some m) rows)
    (hnone : ∀ rows t, Q none rows t →
      (q.forward limit hide).Solo S (fun o rows _ => P o rows) rows t) :
    ((Request.receive limit hide).op q).Solo S
      (fun reply rows _ => ∃ o, reply = .delivery (o.map Delivery.of) ∧ P o rows) rows c := by
  have hnext : (q.nextMessage limit hide).Solo S (fun o rows _ => P o rows) rows c := by
    refine .andThen hfirst fun o rows t ho => ?_
    cases o with
    | some m =>
      have hm := hsome m rows t ho
      exact .bind (.tally fun _ _ => .bind (.tally fun _ _ => .pure hm))
    | none =>
      refine .andThen (hnone rows t ho) fun o rows t ho => ?_
      exact .ite (fun _ => .bind (.tally fun _ _ => .pure ho)) fun _ => .pure ho
  exact .map (.bind (hnext.mono fun o _ _ ho => .pure ⟨o, rfl, ho⟩))

/-! ## Repair -/

theorem clear_solo {P : Outcome Unit} (hb : S.Bears rows)
    (hstays : ∀ t, c ≤ t → cfg.deleteAcked = false → P () rows t)
    (hclears : ∀ t, c ≤ t → cfg.deleteAcked = true → P () (rows.removeBucket b) t) :
    (Repair.clear cfg b).Solo S P rows c := by
  refine .ite (fun hwanted => .bind (.call hb fun t ht => ?_)) fun hkept => ?_
  · exact .tally fun t' ht' => hclears t' (Nat.le_trans ht ht') hwanted
  · exact .pure (hstays c (Nat.le_refl c) (Bool.eq_false_iff.mpr hkept))

theorem advance_solo {P : Outcome (Option UInt64)} (hb : S.Bears rows)
    (hpos : repairOf rows = b.toInt64) (hover : wordSucc? b = none → S.faults .overflow rows)
    (hstays : ∀ t, c ≤ t → headOf q rows ≤ b → P none rows t)
    (hmoves : ∀ next t, c ≤ t → b < headOf q rows → wordSucc? b = some next →
      P (some next) { rows with cells := rows.cells.set .repairBucket next.toInt64 } t) :
    (Repair.advance q b).Solo S P rows c := by
  refine .bind (nextIndex_solo hb fun t ht => .bind (.inRange (fun next hnext => ?_) hover))
  have hsucc := wordSucc?_eq_some hnext
  refine .ite (fun hle => .pure (hstays t ht ?_)) fun hgt => ?_
  · -- The next bucket is after this one, so it is the head that is not.
    rw [UInt64.le_iff_toNat_le, UInt64.toNat_min] at hle
    rw [UInt64.le_iff_toNat_le, headOf]
    omega
  · rw [UInt64.le_iff_toNat_le, UInt64.toNat_min] at hgt
    have hlt : b < headOf q rows := by
      rw [UInt64.lt_iff_toNat_lt, headOf]
      omega
    have hmin : min next (q.bucketOf (nextOf rows).toUInt64) = next := by
      rw [← UInt64.toNat_inj, UInt64.toNat_min]
      omega
    rw [hmin]
    refine .bind (Cursor.moveIf_solo hb hpos fun t' ht' => .pure ?_)
    rw [UInt64.toUInt64_toInt64]
    exact hmoves next t' (Nat.le_trans ht ht') hlt hnext

theorem advance_past {P : Outcome (Option UInt64)} (hb : S.Bears rows) {after : UInt64}
    (hpos : repairOf rows = b.toInt64) (hlt : b < headOf q rows) (hafter : wordSucc? b = some after)
    (h : ∀ t, P (some after) { rows with cells := rows.cells.set .repairBucket after.toInt64 } t) :
    (Repair.advance q b).Solo S P rows c := by
  refine advance_solo hb hpos (fun hlast => ?_) (fun _ _ hle => ?_) fun next t _ _ hnext => ?_
  · rw [hafter] at hlast
    cases hlast
  · exact absurd hlt (UInt64.not_lt.mpr hle)
  · rw [hafter] at hnext
    cases hnext
    exact h t

/-- A stored message is written again at the next index, and is acknowledged where it was. -/
theorem republish_parts {P : Outcome Bool} (ht : Tidy q rows) (hm : ⟨b, m⟩ ∈ rows.messages)
    (bears : S.Bears rows)
    (full : cellSucc? (nextOf rows) = none → S.faults .overflow rows)
    (taken : ∀ value, S.Bears { rows with cells := rows.cells.set .counter value })
    (copied : ∀ value now tag, cellSucc? (nextOf rows) = some value →
      S.Bears (appended q rows value (.fresh (nextOf rows).toUInt64 m.blob tag now 0)) ∧
      (wordSucc? m.version = none → S.faults .overflow
        (appended q rows value (.fresh (nextOf rows).toUInt64 m.blob tag now 0))))
    (moved : ∀ value now tag next t, cellSucc? (nextOf rows) = some value →
      m.acknowledged? = some next → P true
        ((appended q rows value (.fresh (nextOf rows).toUInt64 m.blob tag now 0)).replace b next)
        t) :
    (Repair.republish q m).Solo S P rows c := by
  have hbucket : b = q.bucketOf m.index := ht.orderly.2 _ hm
  refine .bind (allocate_solo bears (fun value t _ hn => ?_) full)
  refine .bind (write_solo (taken value) ht.free fun now tag t' _ _ => .bind ?_)
  have hstored : (appended q rows value (.fresh (nextOf rows).toUInt64 m.blob tag now 0)).find?
      (q.bucketOf m.index) m.index = some m := by
    rw [← hbucket]
    exact (ht.append hn rfl).orderly.1.find? (Rows.mem_insert.mpr (.inr hm))
  obtain ⟨hbears, hover⟩ := copied value now tag hn
  refine acknowledge_solo hbears hstored (fun next t'' _ hack => ?_) hover
  exact .bind (.tally fun _ _ => .pure (hbucket ▸ moved value now tag next _ hn hack))

/-- A wait ends with the bucket as it is, once all that is pending there is visible: after it has
slept, nothing is left to wait for. -/
theorem wait_solo {P : Outcome (List Message)} {deadline : Instant} (hb : S.Bears rows)
    (h : ∀ t, Repair.deadlineAfter (rows.inBucket b) deadline ≤ t → P (rows.inBucket b) rows t) :
    (Op.loop (Repair.waitPass b) (deadline, rows.inBucket b)).Solo S P rows c := by
  refine .loop (fun n s rs c => rs = rows ∧ s.2 = rows.inBucket b ∧
    Repair.deadlineAfter s.2 deadline ≤ Repair.deadlineAfter s.2 s.1 ∧
    (n = 1 ∨ n = 0 ∧ Repair.deadlineAfter s.2 s.1 ≤ c)) ⟨rfl, rfl, Nat.le_refl _, .inl rfl⟩ ?_
  rintro n ⟨due, _⟩ _ c ⟨rfl, rfl, hlater, hn⟩
  refine .bind (.now fun t ht => .ite (fun hover => .pure (h t (Nat.le_trans hlater hover))) ?_)
  intro hlate
  rcases hn with rfl | ⟨rfl, hdue⟩
  · refine .bind (.sleepUntil fun t' _ hwake => .bind (.call hb fun t'' ht'' => .pure ?_))
    refine ⟨0, Nat.zero_lt_one, rfl, rfl, ?_, .inr ⟨rfl, ?_⟩⟩
    · exact Nat.le_trans hlater (le_deadlineAfter _ _).1
    · refine deadlineAfter_le (Nat.le_trans hwake ht'') fun m hm hp => ?_
      exact Nat.le_trans ((le_deadlineAfter _ _).2 m hm hp) (Nat.le_trans hwake ht'')
  · exact absurd (Nat.le_trans hdue ht) hlate

/-- The bucket is full, and all in it is acknowledged. -/
def BucketSpent (q : Queue) (rows : Rows) (b : UInt64) : Prop :=
  (rows.inBucket b).length = q.bucketSize.toNat ∧ ∀ m ∈ rows.inBucket b, m.acked = true

/-- A tick by what it does at the buckets that it comes to: it passes a spent one, and has nothing
to do or repairs another one. -/
theorem tick_course {J : UInt64 → Rows → Prop} {P : Outcome Repair.Tick}
    (bears : ∀ {b rows}, J b rows → S.Bears rows)
    (passes : ∀ {b rows c}, J b rows → BucketSpent q rows b → (Repair.clear cfg b).Solo S
      (fun _ rows c => (Repair.advance q b).Solo S (fun next rows t =>
        (∀ b', next = some b' → b < b' → J b' rows) ∧
        ((∀ b', next = some b' → b' ≤ b) → P .idle rows t)) rows c) rows c)
    (idle : ∀ {b rows t}, J b rows → ¬ BucketSpent q rows b → rows.sealedAt? b = none →
      P .idle rows t)
    (repairs : ∀ {b rows c sealedAt}, J b rows → ¬ BucketSpent q rows b →
      rows.sealedAt? b = some sealedAt →
      (Repair.repairBucket q cfg b sealedAt (rows.inBucket b)).Solo S P rows c)
    (h : J (repairOf rows).toUInt64 rows) : (Repair.tick q cfg).Solo S P rows c := by
  refine .bind (Cursor.get_solo (bears h) fun t _ => ?_)
  -- Each pass is at a later bucket, and there are only so many.
  refine .loop (fun n b rows _ => J b rows ∧ n = UInt64.size - b.toNat) ⟨h, rfl⟩ ?_
  rintro _ b rows t ⟨h, rfl⟩
  have hspent : (decide ((rows.inBucket b).length = q.bucketSize.toNat) &&
      (rows.inBucket b).all (·.acked)) = true ↔ BucketSpent q rows b := by
    simp [BucketSpent]
  refine .bind (.call (bears h) fun t _ => .ite (fun hfull => ?_) fun hfull => ?_)
  · refine .andThen (passes h (hspent.mp hfull)) fun _ rows t hadvance => .andThen hadvance ?_
    rintro (_ | next) rows t ⟨hgoes, hstays⟩
    · exact .pure (hstays nofun)
    · refine .pure ?_
      split
      · rename_i hlt
        refine ⟨_, ?_, hgoes next rfl hlt, rfl⟩
        rw [UInt64.lt_iff_toNat_lt] at hlt
        have hmax := next.toNat_lt
        simp only [UInt64.size]
        omega
      · rename_i hnot
        refine hstays ?_
        rintro _ ⟨⟩
        exact UInt64.not_lt.mp hnot
  · have hnot := fun hs => hfull (hspent.mpr hs)
    refine .bind (.call (bears h) fun t' _ => ?_)
    have hread : ((rows.apply (.readBucket b)).2.apply (.readTombstone b)).1 =
        rows.sealedAt? b := rfl
    rw [hread]
    cases hsealed : rows.sealedAt? b with
    | none => exact .pure (idle h hnot hsealed)
    | some sealedAt => exact .bind ((repairs h hnot hsealed).mono fun _ _ _ hP => .pure hP)

/-- What every part of a tick keeps holds when it is done. -/
theorem tick_parts {J : UInt64 → Rows → Prop} {P : Rows → Prop}
    (bears : ∀ {b rows}, J b rows → S.Bears rows) (idle : ∀ {b rows}, J b rows → P rows)
    (clears : ∀ {b rows}, J b rows →
      (∀ row ∈ rows.messages, row.bucket = b → row.message.acked = true) →
      J b (rows.removeBucket b))
    (advances : ∀ {b rows c}, J b rows → (Repair.advance q b).Solo S
      (fun next rows _ => P rows ∧ ∀ b', next = some b' → J b' rows) rows c)
    (repairs : ∀ {b rows c sealedAt}, J b rows → rows.sealedAt? b = some sealedAt →
      (Repair.repairBucket q cfg b sealedAt (rows.inBucket b)).Solo S (fun _ rows _ => P rows)
        rows c)
    (h : J (repairOf rows).toUInt64 rows) :
    (Repair.tick q cfg).Solo S (fun _ rows _ => P rows) rows c := by
  refine tick_course bears (fun {b rows _} h hspent => ?_) (fun h _ _ => idle h)
    (fun h _ hsealed => repairs h hsealed) h
  have hacked : ∀ row ∈ rows.messages, row.bucket = b → row.message.acked = true := by
    rintro row hrow rfl
    exact hspent.2 _ (Rows.mem_inBucket.mpr hrow)
  have next : ∀ {rows c}, J b rows → (Repair.advance q b).Solo S (fun next rows _ =>
      (∀ b', next = some b' → b < b' → J b' rows) ∧
      ((∀ b', next = some b' → b' ≤ b) → P rows)) rows c :=
    fun h => (advances h).mono fun _ _ _ ⟨hP, hJ⟩ => ⟨fun b' hb' _ => hJ b' hb', fun _ => hP⟩
  exact clear_solo (bears h) (fun _ _ _ => next h) fun _ _ _ => next (clears h hacked)

end LeaseQueue
