import Mathlib.Algebra.Ring.Nat
import LeaseQueue.Proofs.Shared.Lasting
import LeaseQueue.Proofs.Shared.Mending
import LeaseQueue.Proofs.Shared.Turns

/-
  What a tick skips.

  Left alone, a tick passes the buckets from the repair cursor on that are full
  and all acknowledged, up to the first other one (`RunEnd`), for what it deletes
  and where it puts the cursor leaves the buckets still before it as they were
  (`Nearing`). Only there does it look for a seal. Without one, it has nothing to
  do and leaves just what it has passed (`Skipped`). With one, it takes the
  messages of the bucket one by one (`Mending`): those that were never handed out
  are acknowledged, and copies of them are stored behind everything else
  (`Mended`).

  Every bucket that the readers have passed is sealed. So behind them a tick never
  stops where it has begun.
-/

namespace LeaseQueue.Shared

variable {q : Queue} {w : World} {cfg : Repair.Config} {rows₀ rows rows' : Rows} {c : Instant}
  {a b e : UInt64}

/-! ## The run of spent buckets -/

/-- From the repair cursor on, the bucket is the first one that is not spent. -/
structure RunEnd (q : Queue) (rows : Rows) (e : UInt64) : Prop where
  ahead : cursorAt q .repairBucket rows ≤ e
  spent : ∀ b, cursorAt q .repairBucket rows ≤ b → b < e → BucketSpent q rows b
  unspent : ¬ BucketSpent q rows e

theorem exists_unspent (hspent : ∀ b, BucketSpent q rows b → b < headOf q rows) (a : UInt64) :
    ∃ e, a ≤ e ∧ (∀ b, a ≤ b → b < e → BucketSpent q rows b) ∧ ¬ BucketSpent q rows e := by
  by_cases ha : BucketSpent q rows a
  · have hlt := UInt64.lt_iff_toNat_lt.mp (hspent a ha)
    obtain ⟨next, hnext⟩ := exists_wordSucc? (hspent a ha)
    have hsucc := wordSucc?_eq_some hnext
    obtain ⟨e, hle, hrun, hend⟩ := exists_unspent hspent next
    rw [UInt64.le_iff_toNat_le] at hle
    refine ⟨e, UInt64.le_iff_toNat_le.mpr (by omega), fun b hab hbe => ?_, hend⟩
    rcases UInt64.le_iff_lt_or_eq.mp hab with hlt | rfl
    · refine hrun b ?_ hbe
      rw [UInt64.lt_iff_toNat_lt] at hlt
      rw [UInt64.le_iff_toNat_le]
      omega
    · exact ha
  · exact ⟨a, UInt64.le_refl a, fun b hab hba => absurd hab (UInt64.not_le.mpr hba), ha⟩
termination_by (headOf q rows).toNat - a.toNat
decreasing_by omega

theorem Reachable.spent_lt_head (h : Reachable q Undropped w) (hs : BucketSpent q w.rows b) :
    b < headOf q w.rows := h.full_lt_head hs.1

theorem Reachable.exists_runEnd (h : Reachable q Undropped w) : ∃ e, RunEnd q w.rows e := by
  obtain ⟨e, hle, hrun, hend⟩ := exists_unspent (fun b => h.spent_lt_head)
    (cursorAt q .repairBucket w.rows)
  exact ⟨e, hle, hrun, hend⟩

/-! ## Passing spent buckets -/

/-- The rows that are left when the buckets from `a` to before `b` are deleted, if that is
wanted. -/
def leftBy (cfg : Repair.Config) (a b : UInt64) (rows : List Row) : List Row :=
  if cfg.deleteAcked then rows.filter fun r => r.bucket < a || b ≤ r.bucket else rows

/-- The tick has come to the bucket and has done no more than to pass those before it. -/
structure Skipped (q : Queue) (cfg : Repair.Config) (rows₀ : Rows) (b : UInt64) (rows : Rows) :
    Prop where
  cursor : cursorAt q .repairBucket rows = b
  cells : ∀ cell, cell ≠ .repairBucket → rows.cells.get cell = rows₀.cells.get cell
  seals : rows.seals = rows₀.seals
  messages : rows.messages = leftBy cfg (cursorAt q .repairBucket rows₀) b rows₀.messages

theorem leftBy_self {l : List Row} : leftBy cfg a a l = l := by
  unfold leftBy
  split
  · refine List.filter_eq_self.mpr fun r _ => ?_
    rcases UInt64.lt_or_le r.bucket a with hlt | hle
    · simp [hlt]
    · simp [hle]
  · rfl

/-- One more bucket is passed. -/
theorem leftBy_next {next : UInt64} {l : List Row} (hab : a ≤ b) (hnext : wordSucc? b = some next) :
    leftBy cfg a next l =
      if cfg.deleteAcked then (leftBy cfg a b l).filter (·.bucket ≠ b) else leftBy cfg a b l := by
  unfold leftBy
  split
  · rw [List.filter_filter]
    refine List.filter_congr fun r _ => ?_
    have hsucc := wordSucc?_eq_some hnext
    rw [UInt64.le_iff_toNat_le] at hab
    rw [Bool.eq_iff_iff]
    simp only [Bool.or_eq_true, Bool.and_eq_true, decide_eq_true_eq, UInt64.lt_iff_toNat_lt,
      UInt64.le_iff_toNat_le, ne_eq, ← UInt64.toNat_inj]
    omega
  · rfl

theorem Skipped.stands (h : Skipped q cfg rows₀ b rows) : repairOf rows = b.toInt64 := by
  rw [← h.cursor]
  exact (Int64.toInt64_toUInt64 _).symm

theorem Skipped.next_eq (h : Skipped q cfg rows₀ b rows) : nextOf rows = nextOf rows₀ :=
  congrArg counterValue (h.cells .counter nofun)

theorem Skipped.head_eq (h : Skipped q cfg rows₀ b rows) : headOf q rows = headOf q rows₀ := by
  rw [headOf, h.next_eq]
  rfl

theorem Skipped.sealedAt_eq (h : Skipped q cfg rows₀ b rows) :
    rows.sealedAt? a = rows₀.sealedAt? a := congrArg (List.lookup a) h.seals

theorem Skipped.inBucket_eq (h : Skipped q cfg rows₀ b rows) (hba : b ≤ a) :
    rows.inBucket a = rows₀.inBucket a := by
  unfold Rows.inBucket
  rw [h.messages, leftBy]
  split
  · rw [List.filter_filter]
    refine congrArg _ (List.filter_congr fun r _ => ?_)
    by_cases hr : r.bucket = a
    · simp [hr, hba]
    · simp [hr]
  · rfl

theorem Skipped.spent_iff (h : Skipped q cfg rows₀ b rows) (hba : b ≤ a) :
    BucketSpent q rows a ↔ BucketSpent q rows₀ a := by
  rw [BucketSpent, BucketSpent, h.inBucket_eq hba]

/-- A tick is on its way to the end of the run. -/
structure Nearing (q : Queue) (cfg : Repair.Config) (rows₀ : Rows) (e b : UInt64) (rows : Rows) :
    Prop where
  tidy : Tidy q rows
  ahead : cursorAt q .repairBucket rows₀ ≤ b
  before : b ≤ e
  skipped : Skipped q cfg rows₀ b rows

/-- The first bucket that the tick finds unspent is the end of the run. -/
theorem Nearing.at_end (h : Nearing q cfg rows₀ e b rows) (he : RunEnd q rows₀ e)
    (hb : ¬ BucketSpent q rows b) : b = e := by
  by_contra hne
  have hlt : b < e := UInt64.lt_of_le_of_ne h.before hne
  exact hb ((h.skipped.spent_iff (UInt64.le_refl b)).mpr (he.spent b h.ahead hlt))

theorem cursorAt_moved {cs : Cells} :
    cursorAt q .repairBucket { rows with cells := cs.set .repairBucket b.toInt64 } = b :=
  UInt64.toUInt64_toInt64 b

theorem Nearing.pass {next : UInt64} (h : Nearing q cfg rows₀ e b rows) (he : RunEnd q rows₀ e)
    (hb : BucketSpent q rows b) (hnext : wordSucc? b = some next) :
    Nearing q cfg rows₀ e next
      { (if cfg.deleteAcked then rows.removeBucket b else rows) with
        cells := rows.cells.set .repairBucket next.toInt64 } := by
  have hsucc := wordSucc?_eq_some hnext
  have hlt : b < e := by
    refine UInt64.lt_of_le_of_ne h.before ?_
    rintro rfl
    exact he.unspent ((h.skipped.spent_iff (UInt64.le_refl b)).mp hb)
  have hahead := UInt64.le_iff_toNat_le.mp h.ahead
  rw [UInt64.lt_iff_toNat_lt] at hlt
  refine ⟨?_, UInt64.le_iff_toNat_le.mpr (by omega), UInt64.le_iff_toNat_le.mpr (by omega), ?_⟩
  · split
    · exact h.tidy.removeBucket.moved rfl
    · exact h.tidy.moved rfl
  · refine ⟨?_, fun cell hcell => ?_, ?_, ?_⟩
    · exact cursorAt_moved
    · show (rows.cells.set .repairBucket next.toInt64).get cell = _
      rw [Cells.get_set, if_neg hcell, h.skipped.cells cell hcell]
    · rw [← h.skipped.seals]
      split <;> rfl
    · rw [leftBy_next h.ahead hnext, ← h.skipped.messages]
      split <;> rfl

theorem Nearing.pass_solo {S : Setting} {P : Rows → Prop} (h : Nearing q cfg rows₀ e b rows)
    (he : RunEnd q rows₀ e) (hb : BucketSpent q rows b) (hlt : b < headOf q rows)
    (hS : S.fails = false) :
    (Repair.clear cfg b).Solo S (fun _ rows c => (Repair.advance q b).Solo S (fun o rows _ =>
      (∀ b', o = some b' → b < b' → Nearing q cfg rows₀ e b' rows) ∧
      ((∀ b', o = some b' → b' ≤ b) → P rows)) rows c) rows c := by
  obtain ⟨next, hnext⟩ := exists_wordSucc? hlt
  have hgt : b < next := by
    rw [UInt64.lt_iff_toNat_lt, wordSucc?_eq_some hnext]
    exact Nat.lt_succ_self _
  have onward : ∀ {o rs}, o = some next → Nearing q cfg rows₀ e next rs →
      (∀ b', o = some b' → b < b' → Nearing q cfg rows₀ e b' rs) ∧
      ((∀ b', o = some b' → b' ≤ b) → P rs) := by
    rintro _ rs rfl hnear
    refine ⟨?_, fun hstays => absurd hgt (UInt64.not_lt.mpr (hstays next rfl))⟩
    rintro _ ⟨⟩ _
    exact hnear
  have hpass := h.pass he hb hnext
  refine clear_solo (.unfailing hS) (fun _ _ hkeep => ?_) fun _ _ hdelete => ?_
  · rw [if_neg (Bool.eq_false_iff.mp hkeep)] at hpass
    exact advance_past (.unfailing hS) h.skipped.stands hlt hnext fun _ => onward rfl hpass
  · rw [if_pos hdelete] at hpass
    exact advance_past (.unfailing hS) h.skipped.stands hlt hnext fun _ => onward rfl hpass

/-! ## The repair of a sealed bucket -/

/-- What a tick leaves that has passed the buckets before `e` and has repaired that one: the cursor
is one past it, its ghosts are acknowledged and stored again at the next indices, and it is deleted
as those before it are if nothing in it is unacknowledged. -/
structure Mended (q : Queue) (cfg : Repair.Config) (rows₀ : Rows) (e : UInt64) (rows : Rows) :
    Prop where
  cursor : wordSucc? e = some (cursorAt q .repairBucket rows)
  cells : ∀ cell, cell ≠ .repairBucket → cell ≠ .counter →
    rows.cells.get cell = rows₀.cells.get cell
  next : (nextOf rows).toInt = (nextOf rows₀).toInt + (ghostsIn rows₀ e).length
  seals : rows.seals = rows₀.seals
  messages : ∃ copies, Copies (nextOf rows₀).toUInt64.toNat (ghostsIn rows₀ e) copies ∧
    rows.messages = (leftBy cfg (cursorAt q .repairBucket rows₀)
      (if Drained rows₀ e then cursorAt q .repairBucket rows else e) rows₀.messages).map
        (mendRow e (rows₀.inBucket e)) ++ rowsOf q copies

/-- The cursor is moved past the bucket, which is deleted if it is drained and that is wanted. -/
theorem Mending.finish {next : UInt64} (h : Mending q rows e (rows.inBucket e) rows')
    (hn : Nearing q cfg rows₀ e e rows) (hhead : e < headOf q rows)
    (hnext : wordSucc? e = some next) :
    Mended q cfg rows₀ e
      { (if Drained rows e ∧ cfg.deleteAcked then rows'.removeBucket e else rows') with
        cells := rows'.cells.set .repairBucket next.toInt64 } := by
  have hbucket := hn.skipped.inBucket_eq (UInt64.le_refl e)
  have hghosts : (rows.inBucket e).filter (·.pending) = ghostsIn rows₀ e := by
    rw [hbucket, ghostsIn]
  have hdrained : Drained rows e ↔ Drained rows₀ e := by rw [Drained, Drained, hbucket]
  obtain ⟨copies, hcopies, hmessages⟩ := h.messages
  rw [hghosts, hn.skipped.next_eq] at hcopies
  refine ⟨?_, fun cell hrepair hcounter => ?_, ?_, ?_, copies, hcopies, ?_⟩
  · rw [cursorAt_moved, hnext]
  · show (rows'.cells.set .repairBucket next.toInt64).get cell = _
    rw [Cells.get_set, if_neg hrepair, h.cells cell hcounter, hn.skipped.cells cell hrepair]
  · have hcount := h.next
    rw [hghosts, hn.skipped.next_eq] at hcount
    exact hcount
  · rw [← hn.skipped.seals, ← h.seals]
    split <;> rfl
  · rw [cursorAt_moved]
    rw [hbucket] at hmessages
    -- A drained bucket is deleted as those of the run before it are.
    by_cases hs : Drained rows₀ e
    · rw [if_pos hs, leftBy_next hn.ahead hnext, ← hn.skipped.messages]
      cases hdelete : cfg.deleteAcked with
      | true =>
        show (if Drained rows e ∧ true = true then rows'.removeBucket e else rows').messages = _
        rw [if_pos ⟨hdrained.mpr hs, rfl⟩, if_pos rfl, Rows.removeBucket, hmessages]
        exact hcopies.filter_mended (hn.skipped.head_eq ▸ hhead)
      | false =>
        show (if Drained rows e ∧ false = true then rows'.removeBucket e else rows').messages = _
        rw [if_neg fun h => Bool.false_ne_true h.2, if_neg Bool.false_ne_true, hmessages]
    · rw [if_neg hs, ← hn.skipped.messages]
      show (if Drained rows e ∧ cfg.deleteAcked = true then rows'.removeBucket e
        else rows').messages = _
      rw [if_neg fun h => hs (hdrained.mp h.1), hmessages]

theorem repairBucket_course {sealedAt : Instant} (hn : Nearing q cfg rows₀ e e rows)
    (hhead : e < headOf q rows) :
    (Repair.repairBucket q cfg e sealedAt (rows.inBucket e)).Solo (cramped rows e)
      (fun tick rows' _ => tick = .repaired e (ghostsIn rows₀ e).length ∧
        Mended q cfg rows₀ e rows') rows c := by
  refine .bind (wait_solo (.unfailing rfl) fun t hover => .bind (.now fun now hnow => ?_))
  have hvisible : ∀ m ∈ rows.inBucket e, m.pending = true → m.visibleAt ≤ now := fun m hm hp =>
    Nat.le_trans ((le_deadlineAfter _ _).2 m hm hp) (Nat.le_trans hover hnow)
  refine .andThen (repairAll_course hn.tidy hhead hvisible) ?_
  rintro _ rs t ⟨rfl, h⟩
  have hstands : repairOf rs = e.toInt64 := by
    rw [← hn.skipped.stands]
    exact congrArg (Cursor.position .repairBucket) (h.cells .repairBucket nofun)
  have hmore : e < headOf q rs := by
    refine UInt64.lt_of_lt_of_le hhead (q.bucketOf_mono (UInt64.le_iff_toNat_le.mpr ?_))
    rw [h.next_toNat hn.tidy]
    exact Nat.le_add_right _ _
  have hcount : Repair.Tick.repaired e (verdict (rows.inBucket e)).2 =
      .repaired e (ghostsIn rows₀ e).length := by
    rw [verdict, hn.skipped.inBucket_eq (UInt64.le_refl e), ghostsIn]
  have hdrained : (verdict (rows.inBucket e)).1 = true ↔ Drained rows e := by
    simp [verdict, Drained]
  obtain ⟨next, hnext⟩ := exists_wordSucc? hhead
  have hend := h.finish hn hhead hnext
  refine .andThen (P := fun _ rs' _ => rs' = { rs with
    cells := rs.cells.set .repairBucket next.toInt64 }) ?_ ?_
  · exact advance_past (.unfailing rfl) hstands hmore hnext fun _ => rfl
  · rintro _ _ t' rfl
    refine .ite (fun hset => .bind ?_) fun hset => ?_
    · refine clear_solo (.unfailing rfl) (fun _ _ hkeep => ?_) fun _ _ hdelete => ?_
      · rw [if_neg fun h => absurd h.2 (Bool.eq_false_iff.mp hkeep)] at hend
        exact .pure ⟨hcount, hend⟩
      · rw [if_pos ⟨hdrained.mp hset, hdelete⟩] at hend
        exact .pure ⟨hcount, hend⟩
    · rw [if_neg fun h => hset (hdrained.mpr h.1)] at hend
      exact .pure ⟨hcount, hend⟩

/-! ## Every tick -/

/-- What a tick is told that is left alone, and what it leaves, if the run of spent buckets ends at
`e`. -/
inductive Ticked (q : Queue) (cfg : Repair.Config) (rows₀ : Rows) (e : UInt64) :
    Result → Rows → Prop where
  | idle {rows : Rows} (unsealed : rows₀.sealedAt? e = none)
    (skipped : Skipped q cfg rows₀ e rows) :
    Ticked q cfg rows₀ e (.ok (.ticked .idle)) rows
  | repaired {rows : Rows} {ghosts : Nat} (closed : rows₀.sealedAt? e ≠ none)
      (count : ghosts = (ghostsIn rows₀ e).length) (mended : Mended q cfg rows₀ e rows) :
    Ticked q cfg rows₀ e (.ok (.ticked (.repaired e ghosts))) rows
  | cramped {rows : Rows} (closed : rows₀.sealedAt? e ≠ none) (short : ¬ Room rows₀ e)
      (stands : cursorAt q .repairBucket rows = e) :
    Ticked q cfg rows₀ e (.error .overflow) rows

/-- A tick fails only as it may where it is left alone. -/
def skipping (q : Queue) (cfg : Repair.Config) (rows : Rows) (e : UInt64) : Setting :=
  ⟨false, fun f rows' => Ticked q cfg rows e (.error f) rows'⟩

theorem tick_skips_solo (ht : Tidy q rows) (hspent : ∀ b, BucketSpent q rows b → b < headOf q rows)
    (he : RunEnd q rows e) :
    (Repair.tick q cfg).Solo (skipping q cfg rows e)
      (fun tick rows' _ => Ticked q cfg rows e (.ok (.ticked tick)) rows') rows c := by
  have hstart : Skipped q cfg rows (cursorAt q .repairBucket rows) rows :=
    ⟨rfl, fun _ _ => rfl, rfl, leftBy_self.symm⟩
  refine tick_course (J := Nearing q cfg rows e) (fun _ => .unfailing rfl) ?_ ?_ ?_
    ⟨ht, UInt64.le_refl _, he.ahead, hstart⟩
  · intro b rs c h hb
    have hlt : b < headOf q rs := by
      rw [h.skipped.head_eq]
      exact hspent b ((h.skipped.spent_iff (UInt64.le_refl b)).mp hb)
    exact h.pass_solo he hb hlt rfl
  · intro b rs t h hb hsealed
    obtain rfl := h.at_end he hb
    exact .idle (h.skipped.sealedAt_eq ▸ hsealed) h.skipped
  · intro b rs c sealedAt h hb hsealed
    obtain rfl := h.at_end he hb
    have hsame := h.skipped.inBucket_eq (UInt64.le_refl b)
    have hroom : Room rows b → Room rs b := by
      rintro ⟨hindices, hversions⟩
      refine ⟨?_, hsame ▸ hversions⟩
      rwa [h.skipped.next_eq, ghostsIn, hsame]
    have hclosed : rows.sealedAt? b ≠ none := by
      rw [← h.skipped.sealedAt_eq, hsealed]
      exact Option.some_ne_none _
    refine .mono ?_ (.widen (S := cramped rs b) rfl (fun f rs' hf => ?_)
      (repairBucket_course h (h.tidy.closed b sealedAt hsealed)))
    · rintro _ rs' t ⟨rfl, hmended⟩
      exact .repaired hclosed rfl hmended
    · obtain ⟨rfl, hshort, hstands⟩ := hf
      refine .cramped hclosed (fun room => hshort (hroom room)) ?_
      exact (congrArg (fun cell => Cursor.repairBucket.bucket q
        (Cursor.repairBucket.position cell)) hstands).trans h.skipped.cursor

/-- Neither the counter nor the number of messages is more than the number of events. -/
theorem Reachable.counts_le (h : Reachable q Undropped w) :
    (nextOf w.rows).toInt ≤ w.history.length ∧ w.rows.messages.length ≤ w.history.length := by
  refine h.course
    (P := fun rows h => (nextOf rows).toInt ≤ h.length ∧ rows.messages.length ≤ h.length)
    (fun _ _ => id)
    ⟨Int.le_refl _, Nat.le_refl _⟩
    ?_ ?_ ?_
  · intro rows past t r ⟨hnext, hrows⟩
    simp only [List.length_cons]
    omega
  · intro rows past t r ⟨hnext, hrows⟩
    simp only [List.length_cons]
    omega
  · intro v t req s rows hv _ hp hturn ⟨hnext, hrows⟩
    have hstay : (nextOf v.rows).toInt ≤ (v.history.length + 1 : Nat) := by omega
    cases hturn with
    | leaves _ => exact ⟨hstay, Nat.le_succ_of_le hrows⟩
    | records _ => exact ⟨hstay, Nat.le_succ_of_le hrows⟩
    | replaces _ =>
      refine ⟨hstay, Nat.le_succ_of_le ?_⟩
      rw [Rows.replace, List.length_map]
      exact hrows
    | deletes => exact ⟨hstay, Nat.le_succ_of_le (Nat.le_trans (List.length_filter_le _ _) hrows)⟩
    | inserts _ =>
      refine ⟨hstay, ?_⟩
      rw [Rows.insert, (Rows.insertRow_perm _ _).length_eq]
      exact Nat.succ_le_succ hrows
    | @swaps cell desired =>
      refine ⟨?_, Nat.le_succ_of_le hrows⟩
      cases cell with
      | counter =>
        have hsucc : desired.toInt = (nextOf v.rows).toInt + 1 :=
          cellSucc?_eq_some hp.swap_counter.2
        show desired.toInt ≤ (v.history.length + 1 : Nat)
        omega
      | readerBucket => exact hstay
      | invisibility => exact hstay
      | repairBucket => exact hstay

/-- Unless a run is so long that it could use up the indices, there is room. -/
theorem Reachable.room (h : Reachable q Undropped w) (hlen : w.history.length < 2 ^ 62)
    (b : UInt64) : Room w.rows b := by
  obtain ⟨hnext, hrows⟩ := h.counts_le
  refine ⟨?_, fun m hm _ => ?_⟩
  · have hghosts : (ghostsIn w.rows b).length ≤ w.rows.messages.length := calc
      (ghostsIn w.rows b).length ≤ (w.rows.inBucket b).length := List.length_filter_le _ _
      _ = (w.rows.messages.filter (·.bucket = b)).length := List.length_map _
      _ ≤ w.rows.messages.length := List.length_filter_le _ _
    rw [Int64.toInt_maxValue]
    omega
  · refine h.has_next ?_ ⟨b, m⟩ (Rows.mem_inBucket.mp hm)
    simp only [UInt64.size]
    omega

/-- A tick that begins at a sealed bucket gets past it. -/
theorem Ticked.progress {reply : Reply} (h : Ticked q cfg rows₀ e (.ok reply) rows)
    (he : RunEnd q rows₀ e) (hsealed : rows₀.sealedAt? (cursorAt q .repairBucket rows₀) ≠ none) :
    cursorAt q .repairBucket rows₀ < cursorAt q .repairBucket rows := by
  cases h with
  | idle unsealed skipped =>
    rw [skipped.cursor]
    refine UInt64.lt_of_le_of_ne he.ahead fun hsame => hsealed ?_
    rw [hsame, unsealed]
  | repaired _ _ mended =>
    refine UInt64.lt_of_le_of_lt he.ahead (UInt64.lt_iff_toNat_lt.mpr ?_)
    rw [wordSucc?_eq_some mended.cursor]
    exact Nat.lt_succ_self _

/-- What a tick skips. A tick that is left alone takes finitely many steps and can be continued to
its end at any time. It passes just the spent buckets from the repair cursor up to the first other
one. If that one is not sealed, it has nothing to do: it leaves the cursor there and everything as
it was, but for the messages of the buckets passed if those are to be deleted. If it is sealed, the
tick repairs it and leaves the cursor one past it; it deletes the buckets passed and, if nothing in
the repaired one is unacknowledged then, also that one, if that is wanted, and no other. It fails
only where indices or versions end, which takes a run of at least 2 ^ 62 events. From behind the
reader bucket it always gets further. -/
theorem tick_skips (h : Reachable q Undropped w) (cfg : Repair.Config) :
    ∃ e, RunEnd q w.rows e ∧
      Acc (fun v' v => OwnStep q w.started v v') (World.starting q w (.tick cfg)) ∧
      (∀ actions w', (∀ a ∈ actions, Own w.started a) →
        w.run? q (.start (.tick cfg) :: actions) = some w' →
        ∃ more w'' result, (∀ a ∈ more, Own w.started a) ∧ w'.run? q more = some w'' ∧
          .ended w.started result ∈ w''.history) ∧
      (∀ result w', ServedAlone q w (.tick cfg) result w' →
        Ticked q cfg w.rows e result w'.rows) ∧
      (w.history.length < 2 ^ 62 → Room w.rows e) ∧
      (cursorAt q .repairBucket w.rows < cursorAt q .readerBucket w.rows →
        ∀ reply w', ServedAlone q w (.tick cfg) (.ok reply) w' →
          cursorAt q .repairBucket w.rows < cursorAt q .repairBucket w'.rows) := by
  obtain ⟨e, he⟩ := h.exists_runEnd
  have hsolo : ((Request.tick cfg).op q).Solo (skipping q cfg w.rows e)
      (fun reply rows' _ => Ticked q cfg w.rows e (.ok reply) rows') w.rows w.clock :=
    .map (tick_skips_solo h.tidy (fun _ => h.spent_lt_head) he)
  have hticked : ∀ result w', ServedAlone q w (.tick cfg) result w' →
      Ticked q cfg w.rows e result w'.rows := by
    rintro result w' ⟨actions, hown, hrun, hended⟩
    obtain ⟨c, hend⟩ := h.served_ended hsolo hown hrun hended
    cases result with
    | ok reply => exact hend
    | error f => exact hend
  refine ⟨e, he,
    solo_acc (soloTask_start h hsolo),
    fun actions w' hown hrun => h.served_on hsolo hown hrun,
    hticked,
    fun hlen => h.room hlen e,
    fun hbehind reply w' hserved => ?_⟩
  obtain ⟨sealedAt, hsealed⟩ := h.passed_sealed hbehind
  refine (hticked _ w' hserved).progress he ?_
  rw [hsealed]
  exact Option.some_ne_none _

/-- The first message is acknowledged. The second one is hidden when a reader passes its bucket for
the third one. -/
def spentThenSealed : List Action :=
  serve 0 (.put [1] 0) 6 ++ serve 1 (.receive 1 1000) 12 ++ serve 2 (.ack ⟨0, 1, ⟨7⟩⟩) 2 ++
    serve 3 (.put [2] 5) 6 ++ serve 4 (.put [3] 0) 6 ++ serve 5 (.receive 2 1000) 33 ++
      [.pass 30000]

/-- A tick passes the first bucket and repairs the second one. The next tick finds the third one
neither spent nor sealed. -/
theorem tick_skips_spent_then_sealed :
    ∃ w v v', Reachable singles OneByOne w ∧ RunEnd singles w.rows 1 ∧
      ServedAlone singles w (.tick {}) (.ok (.ticked (.repaired 1 1))) v ∧
      Mended singles {} w.rows 1 v.rows ∧
      cursorAt singles .repairBucket w.rows < cursorAt singles .repairBucket v.rows ∧
      RunEnd singles v.rows 2 ∧ ServedAlone singles v (.tick {}) (.ok (.ticked .idle)) v' ∧
      Skipped singles {} v.rows 2 v'.rows := by
  obtain ⟨w, v, v', hw, hv, hv', hw6, hv7, hfirst, hsecond, hbehind, hstands⟩ : ∃ w v v',
      ({} : World).runIf? singles allDone spentThenSealed = some w ∧
      w.run? singles (serve 6 (.tick {}) 26) = some v ∧
      v.run? singles (serve 7 (.tick {}) 4) = some v' ∧
      w.started = 6 ∧ v.started = 7 ∧
      v.history[0]? = some (.ended 6 (.ok (.ticked (.repaired 1 1)))) ∧
      v'.history[0]? = some (.ended 7 (.ok (.ticked .idle))) ∧
      cursorAt singles .repairBucket w.rows < cursorAt singles .readerBucket w.rows ∧
      cursorAt singles .repairBucket v'.rows = 2 :=
    ⟨_, _, _, rfl, rfl, rfl, rfl, rfl, rfl, rfl, by decide +kernel, rfl⟩
  have h : Reachable singles OneByOne w := .runIf (fun _ _ hr => hr.allDone) .fresh hw
  have hundropped := h.mono fun _ _ ha => undropped_of_takingTurns (takingTurns_of_oneByOne ha)
  have hundropped' : Reachable singles Undropped v :=
    .run (by simp [serve, Undropped]) hundropped hv
  have first : ServedAlone singles w (.tick {}) (.ok (.ticked (.repaired 1 1))) v :=
    ⟨_, by simp [hw6, Own], hv, hw6 ▸ List.mem_of_getElem? hfirst⟩
  have second : ServedAlone singles v (.tick {}) (.ok (.ticked .idle)) v' :=
    ⟨_, by simp [hv7, Own], hv', hv7 ▸ List.mem_of_getElem? hsecond⟩
  obtain ⟨e, he, _, _, hticked, _, hfurther⟩ := tick_skips hundropped {}
  obtain ⟨e', he', _, _, hticked', _, _⟩ := tick_skips hundropped' {}
  cases hticked _ v first with
  | repaired _ _ mended =>
    cases hticked' _ v' second with
    | idle _ skipped =>
      obtain rfl : 2 = e' := hstands.symm.trans skipped.cursor
      exact ⟨w, v, v', h, he, first, mended, hfurther hbehind _ v first, he', second, skipped⟩

end LeaseQueue.Shared
