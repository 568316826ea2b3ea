import LeaseQueue.Proofs.Shared.Holders
import LeaseQueue.Proofs.Shared.Lasting

/-
  What repair leaves behind.

  A tick moves its cursor off a bucket once it has tried to acknowledge all that
  it last read pending there. The attempt fails only if somebody has written to
  the message since, so a message that is pending as it was inserted, and lies
  behind the cursor, was not there when the tick last looked
  (`Reachable.swept_fresh`). The same goes for what is unacknowledged in a bucket
  that a tick deletes (`Reachable.overlooks_of_clears`).
-/

namespace LeaseQueue.Shared

variable {q : Queue} {rule : Rule} {cfg : Repair.Config} {w : World} {t : Nat} {h past : History}
  {r : Row} {m : Message}

/-- Nobody has written to the message since its insert, and it is pending. -/
def Fresh (m : Message) : Prop := m.pending = true ∧ m.version = 0

theorem Fresh.eq_of_became {n : Message} (hn : Fresh n) (hb : m.Became n) : n = m := by
  have hle : m.version ≤ 0 := hn.2 ▸ hb.version_le
  refine hb.eq_of_version (hn.2.trans (UInt64.toNat_inj.mp ?_))
  rw [UInt64.le_iff_toNat_le] at hle
  exact (Nat.le_zero.mp hle).symm

theorem Reachable.insertedAs_version (h : Reachable q rule w) (hm : InsertedAs m w.history) :
    m.version = 0 := by
  obtain ⟨t, c, rows, b, he⟩ := hm
  obtain ⟨past, hs⟩ := suffix_of_mem he
  obtain ⟨_, _, hp⟩ := h.effect_permitted (requests_keep rule) hs
  obtain ⟨_, blob, delay, hins⟩ := hp.insert
  obtain ⟨u, tag, _, hfresh⟩ := hins.fresh
  rw [hfresh]
  rfl

/-! ## What a tick has acknowledged -/

theorem Reachable.acked_of_tried (h : Reachable q Undropped w) (hr : r ∈ w.rows.messages)
    (hb : m.Became r.message) (ht : Tried q (seenBy t w.history) m true) :
    r.message.acked = true := by
  obtain ⟨next, hnext, told⟩ := ht
  obtain ⟨c, rows, he⟩ := mem_seenBy.mp told
  have hi : r.message.index = next.index :=
    hb.index.trans (Message.became_of_acknowledged? hnext).index.symm
  refine (h.traced.wrote next ⟨t, c, rows, _, he, rfl⟩ r hr hi).acked ?_
  rw [(Message.acknowledged?_eq_some hnext).2]

/-- A fresh message was stored as it is at every moment since its insert. -/
theorem Reachable.fresh_since (h : Reachable q Undropped w) (hr : r ∈ w.rows.messages)
    (hf : Fresh r.message) {c : Instant} {rows : Rows} {s : Seen}
    (hs : .performed t c rows s :: past <:+ w.history) (hi : Inserted r.message.index past) :
    rows.find? (q.bucketOf r.message.index) r.message.index = some r.message := by
  obtain ⟨r₀, hr₀, hi₀⟩ := h.traced.since _ _ _ _ _ hs r hr hi
  have hmet := h.traced.met r₀ ⟨t, c, rows, s, hs.subset List.mem_cons_self, hr₀⟩ r hr hi₀.symm
  have hsame : r.message = r₀.message := hf.eq_of_became hmet
  obtain ⟨v, _, _, _, hv, _, rfl, _⟩ := h.at_effect hs
  rw [hsame, ← hv.filed.placed r₀ hr₀]
  exact hv.filed.distinct.find? hr₀

theorem Reachable.not_fresh_of_tried (h : Reachable q Undropped w) (hr : r ∈ w.rows.messages)
    (hb : m.Became r.message) {done : Bool} (ht : Tried q (seenBy t w.history) m done) :
    ¬ Fresh r.message := by
  intro hf
  cases done with
  | true =>
    have hacked := h.acked_of_tried hr hb ht
    have hp := hf.1
    simp [Message.pending, hacked] at hp
  | false =>
    -- The attempt met the message as it still is now, so it did not fail.
    obtain rfl := hf.eq_of_became hb
    obtain ⟨next, hnext, told⟩ := ht
    obtain ⟨c, rows, he⟩ := mem_seenBy.mp told
    obtain ⟨before, hs⟩ := suffix_of_mem he
    obtain ⟨v, req, k, rows', hv, rfl, rfl, rfl, htask, hans, _⟩ := h.at_effect hs
    have hi := (Message.became_of_acknowledged? hnext).index
    have hins : Inserted r.message.index v.history := by
      obtain ⟨m', _, hu⟩ := (hv.task_obeys (requests_keep _) htask).2.1.update
      obtain ⟨b, hmet⟩ := hv.met_of_known hu.known
      rw [← hi, hu.became.index]
      exact (hv.met_filed hmet).2
    have hfind := h.fresh_since hr hf hs hins
    simp [Answered, Rows.apply, hi, hfind, Condition.holds] at hans

/-! ## What a tick overlooks -/

/-- A fresh message holds the repair cursor back, unless it was overlooked. -/
theorem repair_steps : Steps q Undropped .repairBucket Fresh := by
  intro v t req target hv _ hp
  obtain ⟨cfg, b, next, rfl, hpos, rfl, hpasses⟩ := hp.swap_repair
  have hat : cursorAt q .repairBucket v.rows = b := cursorAt_repair hpos
  have hnext : Cursor.repairBucket.bucket q next.toInt64 = next := UInt64.toUInt64_toInt64 next
  obtain ⟨ms, before, hread, _, hms⟩ := hpasses.handled
  obtain ⟨looked, hlook, _⟩ := lastLook_of_lastRead hread
  rw [hat, hnext]
  refine .inr ⟨hpasses.step, ms, looked, hlook, fun r hr hb hfresh hi => ?_⟩
  -- Had it been inserted before the look, the tick would have seen it there and taken it.
  obtain ⟨m, hm, hbec⟩ := hv.in_look (hb ▸ hlook) hr hi
  have hpm := hbec.pending hfresh.1
  simp only [Message.pending, Bool.and_eq_true, Bool.not_eq_true'] at hpm
  rcases hms m hm with hacked | hdelivered | ⟨done, ht⟩
  · exact absurd hacked (Bool.eq_false_iff.mp hpm.1)
  · exact absurd hdelivered (Bool.eq_false_iff.mp hpm.2)
  · exact hv.not_fresh_of_tried hr hbec ht hfresh

theorem Reachable.swept_fresh (h : Reachable q Undropped w) :
    Swept q .repairBucket Fresh w.rows w.history := by
  refine h.swept (fun _ _ => id) rfl repair_steps fun m n hb hn => ?_
  rw [← hn.eq_of_became hb]
  exact hn

/-- Where consumers present only receipts that were handed out, every pending message is fresh. -/
theorem Reachable.swept_repair (h : Reachable q Honest w) :
    Swept q .repairBucket (fun m => m.pending = true) w.rows w.history := by
  obtain ⟨covered, ahead, overtaken⟩ := (h.mono fun _ _ => undropped_of_honest).swept_fresh
  exact ⟨covered, ahead, fun r hr hp hb =>
    overtaken r hr ⟨hp, h.insertedAs_version (h.untouched r hr hp)⟩ hb⟩

/-- What is unacknowledged in a bucket that a tick may delete was overlooked. -/
theorem Reachable.overlooks_of_clears (h : Reachable q Undropped w)
    (hc : Clears q (seenBy t w.history) cfg r.bucket) (hr : r ∈ w.rows.messages)
    (hacked : r.message.acked = false) : Overlooks w.history t r := by
  obtain ⟨ms, before, hread, _, hms⟩ := hc.settled
  obtain ⟨looked, hlook, _⟩ := lastLook_of_lastRead hread
  refine ⟨ms, looked, hlook, fun hi => ?_⟩
  obtain ⟨m, hm, hbec⟩ := h.in_look hlook hr hi
  have : r.message.acked = true := (hms m hm).elim hbec.acked (h.acked_of_tried hr hbec)
  exact absurd this (Bool.eq_false_iff.mp hacked)

end LeaseQueue.Shared
