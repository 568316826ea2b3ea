import LeaseQueue.Proofs.Shared.Undisturbed

/-
  The repair of one bucket by a tick that is left alone.

  The tick takes the messages of a sealed bucket one by one. It leaves each as it
  is or, if it was never handed out, acknowledges it (`mended`) and stores a copy
  of it at the next index. A sealed bucket is before the head, where the copies
  go, so they lie behind everything else (`Mending`). When the tick has come
  through, it knows whether anything is left there unacknowledged (`verdict`).
-/

namespace LeaseQueue.Shared

variable {q : Queue} {rows₀ rows : Rows} {c : Instant} {b : UInt64} {m next : Message}
  {done rest copies : List Message}

/-! ## What repair makes of a bucket -/

/-- What repair makes of a message: one that is unacknowledged and was never handed out is
acknowledged. -/
def mended (m : Message) : Message := if m.pending then m.acknowledged?.getD m else m

/-- The row, mended if it is in the bucket and its message is one of those given. -/
def mendRow (b : UInt64) (ms : List Message) (row : Row) : Row :=
  if row.bucket = b ∧ row.message ∈ ms then ⟨b, mended row.message⟩ else row

/-- The messages of a bucket that a tick stores again when it repairs it. -/
def ghostsIn (rows : Rows) (b : UInt64) : List Message := (rows.inBucket b).filter (·.pending)

/-- Once the bucket is repaired, nothing in it is unacknowledged. -/
def Drained (rows : Rows) (b : UInt64) : Prop := ∀ m ∈ rows.inBucket b, (mended m).acked = true

instance : Decidable (Drained rows b) :=
  inferInstanceAs (Decidable (∀ m ∈ rows.inBucket b, (mended m).acked = true))

/-- The messages are copies of others in their order, at indices in a row. -/
structure Copies (start : Nat) (ms copies : List Message) : Prop where
  fresh : ∀ m ∈ copies, ∃ tag now, m = .fresh m.index m.blob tag now 0
  blobs : copies.map (·.blob) = ms.map (·.blob)
  indices : copies.map (·.index.toNat) = List.range' start ms.length

/-- The rows of messages that lie in the buckets of their indices. -/
def rowsOf (q : Queue) (ms : List Message) : List Row := ms.map fun m => ⟨q.bucketOf m.index, m⟩

/-- There are indices for the copies of the bucket's ghosts, and each ghost has a next version. -/
structure Room (rows : Rows) (b : UInt64) : Prop where
  indices : (nextOf rows).toInt + (ghostsIn rows b).length ≤ Int64.maxValue.toInt
  versions : ∀ m ∈ rows.inBucket b, m.pending = true → (wordSucc? m.version).isSome

/-- A tick that repairs the bucket fails only for want of room, and before it has moved the cursor.
-/
def cramped (rows : Rows) (b : UInt64) : Setting where
  fails := false
  faults f rows' := f = .overflow ∧ ¬ Room rows b ∧
    rows'.cells.get .repairBucket = rows.cells.get .repairBucket

/-! ## Messages and copies -/

theorem mended_of_not_pending (hm : m.pending = false) : mended m = m := by
  simp [mended, hm]

theorem mended_of_acknowledged? (hm : m.pending = true) (hn : m.acknowledged? = some next) :
    mended m = next := by
  simp [mended, hm, hn]

theorem mended_index : (mended m).index = m.index := by
  unfold mended
  split
  · cases hn : m.acknowledged? with
    | none => rfl
    | some next => exact (Message.became_of_acknowledged? hn).index
  · rfl

theorem mendRow_bucket {row : Row} : (mendRow b done row).bucket = row.bucket := by
  unfold mendRow
  split
  · rename_i h
    exact h.1.symm
  · rfl

theorem mendRow_index {row : Row} : (mendRow b done row).message.index = row.message.index := by
  unfold mendRow
  split
  · exact mended_index
  · rfl

theorem mendRow_concat {row : Row} : mendRow b (done ++ [m]) row =
    if row.bucket = b ∧ row.message = m then ⟨b, mended m⟩ else mendRow b done row := by
  unfold mendRow
  by_cases hm : row.bucket = b ∧ row.message = m
  · simp [hm]
  · rw [if_neg hm]
    refine if_congr ?_ rfl rfl
    simp only [List.mem_append, List.mem_singleton]
    exact ⟨fun h => ⟨h.1, h.2.resolve_right fun he => hm ⟨h.1, he⟩⟩, fun h => ⟨h.1, .inl h.2⟩⟩

theorem Copies.start_le {start : Nat} {ms : List Message} (h : Copies start ms copies)
    (hm : m ∈ copies) : start ≤ m.index.toNat := by
  have hi : m.index.toNat ∈ List.range' start ms.length := h.indices ▸ List.mem_map_of_mem hm
  exact (List.mem_range'_1.mp hi).1

theorem Copies.concat {start : Nat} {ms : List Message} {i : UInt64} {tag : Tag} {now : Instant}
    (h : Copies start ms copies) (hi : i.toNat = start + ms.length) :
    Copies start (ms ++ [m]) (copies ++ [.fresh i m.blob tag now 0]) where
  fresh n hn := by
    rcases List.mem_append.mp hn with hn | hn
    · exact h.fresh n hn
    · rw [List.mem_singleton.mp hn]
      exact ⟨tag, now, rfl⟩
  blobs := by
    rw [List.map_append, h.blobs, List.map_append]
    rfl
  indices := by
    rw [List.map_append, h.indices, List.length_append, List.length_singleton, List.range'_1_concat,
      ← hi]
    rfl

theorem Copies.not_in {ms : List Message} (h : Copies (nextOf rows₀).toUInt64.toNat ms copies)
    (hb : b < headOf q rows₀) : ∀ row ∈ rowsOf q copies, row.bucket ≠ b := by
  rintro _ hrow rfl
  obtain ⟨m, hm, rfl⟩ := List.mem_map.mp hrow
  have hle : headOf q rows₀ ≤ q.bucketOf m.index :=
    q.bucketOf_mono (UInt64.le_iff_toNat_le.mpr (h.start_le hm))
  exact absurd (UInt64.lt_of_lt_of_le hb hle) (UInt64.lt_irrefl _)

/-- When the bucket is deleted, the copies are left. -/
theorem Copies.filter_mended {ms : List Message} {l : List Row}
    (h : Copies (nextOf rows₀).toUInt64.toNat ms copies) (hb : b < headOf q rows₀) :
    (l.map (mendRow b done) ++ rowsOf q copies).filter (·.bucket ≠ b) =
      (l.filter (·.bucket ≠ b)).map (mendRow b done) ++ rowsOf q copies := by
  have hbucket : ((fun row : Row => decide (row.bucket ≠ b)) ∘ mendRow b done) =
      fun row => decide (row.bucket ≠ b) :=
    funext fun row => by rw [Function.comp_apply, mendRow_bucket]
  have hcopies : (rowsOf q copies).filter (·.bucket ≠ b) = rowsOf q copies :=
    List.filter_eq_self.mpr fun row hrow => decide_eq_true (h.not_in hb row hrow)
  rw [List.filter_append, List.filter_map, hbucket, hcopies]

/-! ## Going through a bucket -/

/-- A tick is at a bucket and has gone through some of its messages. -/
structure Mending (q : Queue) (rows₀ : Rows) (b : UInt64) (done : List Message) (rows : Rows) :
    Prop where
  tidy : Tidy q rows
  cells : ∀ cell, cell ≠ .counter → rows.cells.get cell = rows₀.cells.get cell
  seals : rows.seals = rows₀.seals
  next : (nextOf rows).toInt = (nextOf rows₀).toInt + (done.filter (·.pending)).length
  messages : ∃ copies, Copies (nextOf rows₀).toUInt64.toNat (done.filter (·.pending)) copies ∧
    rows.messages = rows₀.messages.map (mendRow b done) ++ rowsOf q copies

theorem Mending.start (ht : Tidy q rows) : Mending q rows b [] rows := by
  refine ⟨ht, fun _ _ => rfl, rfl, (Int.add_zero _).symm, [], ⟨nofun, rfl, rfl⟩, ?_⟩
  have hsame : ∀ row ∈ rows.messages, mendRow b [] row = row :=
    fun row _ => if_neg fun h => nomatch h.2
  rw [List.map_congr_left hsame, List.map_id']
  exact (List.append_nil _).symm

theorem Mending.pass (h : Mending q rows₀ b done rows) (hm : m.pending = false) :
    Mending q rows₀ b (done ++ [m]) rows := by
  have hghosts : (done ++ [m]).filter (·.pending) = done.filter (·.pending) := by simp [hm]
  obtain ⟨copies, hcopies, hmessages⟩ := h.messages
  refine ⟨h.tidy, h.cells, h.seals, hghosts ▸ h.next, copies, hghosts ▸ hcopies, ?_⟩
  rw [hmessages]
  congr 1
  refine List.map_congr_left fun row _ => ?_
  rw [mendRow_concat]
  split
  · rename_i hrow
    obtain ⟨bucket, message⟩ := row
    obtain ⟨rfl, rfl⟩ := hrow
    simp [mendRow, mended_of_not_pending hm]
  · rfl

/-- A message that is still to come is stored as it was found. -/
theorem Mending.stored (h : Mending q rows₀ b done rows) (hm : ⟨b, m⟩ ∈ rows₀.messages)
    (hnot : m ∉ done) : ⟨b, m⟩ ∈ rows.messages := by
  obtain ⟨copies, _, hmessages⟩ := h.messages
  rw [hmessages]
  refine List.mem_append_left _ (List.mem_map.mpr ⟨_, hm, if_neg fun h => hnot h.2⟩)

theorem Mending.next_toNat (h : Mending q rows₀ b done rows) (ht : Tidy q rows₀) :
    (nextOf rows).toUInt64.toNat =
      (nextOf rows₀).toUInt64.toNat + (done.filter (·.pending)).length := by
  have hnext := h.next
  have hbefore := toNat_toUInt64_of_nonneg ht.counted
  have hafter := toNat_toUInt64_of_nonneg h.tidy.counted
  omega

/-- A ghost is stored again and acknowledged where it was. -/
theorem Mending.move {value : Int64} {tag : Tag} {now : Instant} (h : Mending q rows₀ b done rows)
    (ht : Tidy q rows₀) (hb : b < headOf q rows₀) (hm : ⟨b, m⟩ ∈ rows₀.messages)
    (hp : m.pending = true) (hn : cellSucc? (nextOf rows) = some value)
    (hack : m.acknowledged? = some next) :
    Mending q rows₀ b (done ++ [m]) ((appended q rows value
      (.fresh (nextOf rows).toUInt64 m.blob tag now 0)).replace b next) := by
  have hghosts : (done ++ [m]).filter (·.pending) = done.filter (·.pending) ++ [m] := by simp [hp]
  have hindex := (Message.became_of_acknowledged? hack).index
  obtain ⟨copies, hcopies, hmessages⟩ := h.messages
  have hcopies' : Copies (nextOf rows₀).toUInt64.toNat (done.filter (·.pending) ++ [m])
      (copies ++ [.fresh (nextOf rows).toUInt64 m.blob tag now 0]) :=
    hcopies.concat (h.next_toNat ht)
  refine ⟨(h.tidy.append hn rfl).replace, fun cell hcell => ?_, h.seals, ?_, _,
    hghosts ▸ hcopies', ?_⟩
  · show (rows.cells.set .counter value).get cell = _
    rw [Cells.get_set, if_neg hcell, h.cells cell hcell]
  · have hstep : value.toInt = (nextOf rows).toInt + 1 := cellSucc?_eq_some hn
    have hnext := h.next
    rw [hghosts, List.length_append, List.length_singleton]
    show value.toInt = _
    omega
  · -- In the bucket only the ghost is replaced, and the copies lie in other ones.
    have hfound : ∀ row ∈ rows₀.messages,
        (mendRow b done row).sits b next.index = true ↔ row.bucket = b ∧ row.message = m := by
      intro row hrow
      simp only [Row.sits, mendRow_bucket, mendRow_index, hindex, Bool.and_eq_true,
        decide_eq_true_eq]
      refine and_congr_right fun _ => ⟨fun hi => ?_, fun he => he ▸ rfl⟩
      exact congrArg Row.message (ht.orderly.1.eq hrow hm hi)
    have happended :
        (appended q rows value (.fresh (nextOf rows).toUInt64 m.blob tag now 0)).messages =
        rows₀.messages.map (mendRow b done) ++
          rowsOf q (copies ++ [.fresh (nextOf rows).toUInt64 m.blob tag now 0]) := by
      rw [h.tidy.appended_eq rfl, hmessages, List.append_assoc, rowsOf, rowsOf, List.map_append]
      rfl
    rw [Rows.replace, happended, List.map_append, List.map_map]
    refine congrArg₂ (· ++ ·) ?_ ?_
    · refine List.map_congr_left fun row hrow => ?_
      rw [mendRow_concat, Function.comp_apply]
      by_cases hrm : row.bucket = b ∧ row.message = m
      · rw [if_pos hrm, if_pos ((hfound row hrow).mpr hrm), mended_of_acknowledged? hp hack]
      · rw [if_neg hrm, if_neg fun hsits => hrm ((hfound row hrow).mp hsits)]
    · refine (List.map_congr_left fun row hrow => if_neg fun hsits => ?_).trans (List.map_id _)
      simp only [Row.sits, Bool.and_eq_true, decide_eq_true_eq] at hsits
      exact hcopies'.not_in hb row hrow hsits.1

/-- What a tick keeps of the messages that it has gone through: whether all of them are acknowledged
now, and how many of them it has stored again. -/
def verdict (ms : List Message) : Bool × Nat :=
  (ms.all fun m => (mended m).acked, (ms.filter (·.pending)).length)

section
variable (ht : Tidy q rows₀) (hb : b < headOf q rows₀)
  (hdone : rows₀.inBucket b = done ++ m :: rest)
include ht hb hdone

theorem republish_course (h : Mending q rows₀ b done rows) (hp : m.pending = true) :
    (Repair.republish q m).Solo (cramped rows₀ b) (fun unchanged rows _ => unchanged = true ∧
      (mended m).acked = true ∧ Mending q rows₀ b (done ++ [m]) rows) rows c := by
  have hmem : m ∈ rows₀.inBucket b := by simp [hdone]
  have hm : ⟨b, m⟩ ∈ rows₀.messages := Rows.mem_inBucket.mp hmem
  have hnot : m ∉ done := by
    intro hin
    have hnodup : (rows₀.inBucket b).Nodup := .of_map _ ht.orderly.1.inBucket
    rw [hdone, List.nodup_append] at hnodup
    exact hnodup.2.2 m hin m List.mem_cons_self rfl
  have hstands := h.cells .repairBucket nofun
  refine republish_parts h.tidy (h.stored hm hnot) (.unfailing rfl)
    (fun hfull => ⟨rfl, fun room => ?_, hstands⟩) (fun _ => .unfailing rfl)
    (fun value now tag _ => ⟨.unfailing rfl, fun hlast => ⟨rfl, fun room => ?_, hstands⟩⟩) ?_
  · -- The counter is at its end, and this ghost is still to be stored again.
    have hleft : (done.filter (·.pending)).length + 1 ≤ (ghostsIn rows₀ b).length := by
      simp [ghostsIn, hdone, hp]
    have hend : nextOf rows = Int64.maxValue := by
      by_contra hne
      simp [cellSucc?, hne] at hfull
    have hnext := h.next
    have hindices := room.indices
    rw [hend] at hnext
    omega
  · have hsome := room.versions m hmem hp
    rw [hlast] at hsome
    cases hsome
  · intro value now tag next t hn hack
    refine ⟨rfl, ?_, h.move ht hb hm hp hn hack⟩
    rw [mended_of_acknowledged? hp hack, (Message.acknowledged?_eq_some hack).2]

theorem repairMessage_course {now : Instant} (h : Mending q rows₀ b done rows)
    (hvisible : ∀ m ∈ rows₀.inBucket b, m.pending = true → m.visibleAt ≤ now) :
    (Repair.repairMessage q now (verdict done) m).Solo (cramped rows₀ b)
      (fun seen rows _ => seen = verdict (done ++ [m]) ∧ Mending q rows₀ b (done ++ [m]) rows)
      rows c := by
  refine .ite (fun hacked => ?_) fun hacked => .ite (fun hleft => ?_) fun hdue => ?_
  · have hp : m.pending = false := Message.not_pending_of_acked hacked
    exact .pure ⟨by simp [verdict, mended_of_not_pending hp, hp, hacked], h.pass hp⟩
  · have hacked : m.acked = false := Bool.eq_false_iff.mpr hacked
    have hp : m.pending = false := by
      by_contra hp
      have hp : m.pending = true := by simpa using hp
      have hseen := hvisible m (by simp [hdone]) hp
      simp only [Message.pending, Bool.and_eq_true, Bool.not_eq_true'] at hp
      simp [hp.2, Message.visible, hseen] at hleft
    exact .pure ⟨by simp [verdict, mended_of_not_pending hp, hp, hacked], h.pass hp⟩
  · simp only [Bool.or_eq_true, not_or, Bool.not_eq_true] at hdue
    have hp : m.pending = true :=
      Message.pending_of_undelivered (Bool.eq_false_iff.mpr hacked) hdue.1
    refine .andThen (republish_course ht hb hdone h hp) ?_
    rintro _ rows t ⟨rfl, hacked, hmoved⟩
    exact .pure ⟨by simp [verdict, hacked, hp], hmoved⟩

end

theorem repairAll_course {now : Instant} (ht : Tidy q rows) (hb : b < headOf q rows)
    (hvisible : ∀ m ∈ rows.inBucket b, m.pending = true → m.visibleAt ≤ now) :
    ((rows.inBucket b).foldlM (Repair.repairMessage q now) (true, 0)).Solo (cramped rows b)
      (fun seen rows' _ => seen = verdict (rows.inBucket b) ∧
        Mending q rows b (rows.inBucket b) rows') rows c := by
  refine .mono ?_ (.foldlM (fun rest seen rs _ => ∃ done, rows.inBucket b = done ++ rest ∧
    seen = verdict done ∧ Mending q rows b done rs) ⟨[], rfl, rfl, .start ht⟩ ?_)
  · rintro _ rs _ ⟨done, hdone, rfl, h⟩
    obtain rfl : rows.inBucket b = done := by simpa using hdone
    exact ⟨rfl, h⟩
  · rintro m rest _ rs c ⟨done, hdone, rfl, h⟩
    refine (repairMessage_course ht hb hdone h hvisible).mono ?_
    rintro _ rs _ ⟨rfl, h⟩
    exact ⟨done ++ [m], by simp [hdone], rfl, h⟩

end LeaseQueue.Shared
