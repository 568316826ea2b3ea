import LeaseQueue.Proofs.Shared.Progress

/-
  Which delivered messages can be handed out again.

  A message that was handed out and not acknowledged comes back through the
  reader bucket or through the invisibility cursor. A reader moves that cursor
  off a bucket once it has read there that all is acknowledged and has read then
  that the counter has passed the bucket. Between the two reads a message can
  still land in the bucket. So a message is out of reach exactly if the reader
  bucket has passed it and it was overtaken: somebody moved the invisibility
  cursor off its bucket after a last look that came before its insert. This does
  happen.
-/

namespace LeaseQueue.Shared

variable {q : Queue} {w : World} {t : Nat}

/-! ## How the invisibility cursor moves -/

/-- An unacknowledged message holds the invisibility cursor back, unless it was overlooked. -/
theorem invisibility_steps : Steps q Undropped .invisibility fun m => m.acked = false := by
  intro v t r target hv _ hp
  rcases Permitted.swap_invisibility hp with hparks | hleaves
  · exact .inl (hparks.stays hv)
  · obtain ⟨ms, before, hread, hacked⟩ := hleaves.settled
    obtain ⟨looked, hlook, _⟩ := lastLook_of_lastRead hread
    change lastLook t (cursorAt q .invisibility v.rows) v.history = some (ms, looked) at hlook
    refine .inr ⟨hleaves.target_next hv, ms, looked, hlook, fun row hrow hb hunacked hi => ?_⟩
    -- Had it been inserted before the look, it would have been seen there, acknowledged.
    obtain ⟨m, hm, hbec⟩ := hv.in_look (hb ▸ hlook) hrow hi
    exact absurd (hbec.acked (hacked m hm)) (Bool.eq_false_iff.mp hunacked)

theorem Reachable.swept_invisibility (h : Reachable q Undropped w) :
    Swept q .invisibility (fun m => m.acked = false) w.rows w.history := by
  refine h.swept (fun _ _ => id) rfl invisibility_steps fun m n hb hn => ?_
  exact Bool.eq_false_iff.mpr fun hm => absurd (hb.acked hm) (Bool.eq_false_iff.mp hn)

/-! ## Within reach -/

/-- The row's bucket is at or after the reader bucket, or at or after the bucket of the invisibility
cursor. -/
def Within (q : Queue) (rows : Rows) (r : Row) : Prop :=
  min (cursorAt q .readerBucket rows) (cursorAt q .invisibility rows) ≤ r.bucket

instance (q : Queue) (rows : Rows) (r : Row) : Decidable (Within q rows r) :=
  inferInstanceAs (Decidable (_ ≤ _))

/-- An unacknowledged message is within reach exactly unless the reader bucket has passed it and the
invisibility cursor has overtaken it. -/
theorem within_reach_iff (h : Reachable q Undropped w) {r : Row} (hr : r ∈ w.rows.messages)
    (hacked : r.message.acked = false) :
    Within q w.rows r ↔ (r.bucket < cursorAt q .readerBucket w.rows →
      ¬ Overtaken q .invisibility w.history r) := by
  rw [Within, Std.min_le, ← h.swept_invisibility.behind_iff hr hacked, UInt64.not_lt,
    ← UInt64.not_lt, ← imp_iff_not_or]

/-- A message is put while a reader scans its bucket, between the read of the bucket and the read of
the counter. The reader leaves the bucket behind and claims the message there; another one seals the
bucket. -/
def overtaking : List Action :=
  [.start (.receive 1 1000), .act 0 ⟨7⟩, .act 0 ⟨7⟩] ++ serve 1 (.put [1] 0) 6 ++
    List.replicate 11 (.act 0 ⟨7⟩) ++ [.finish 0] ++ serve 2 (.receive 1 1000) 20

theorem within_reach_iff_overtaking :
    ∃ w r, Reachable singles Undropped w ∧ r ∈ w.rows.messages ∧ r.message.acked = false ∧
      r.bucket < cursorAt singles .readerBucket w.rows ∧
      Overtaken singles .invisibility w.history r := by
  obtain ⟨w, r, hw, hr, hacked, hbehind, hreach⟩ : ∃ w r,
      ({} : World).run? singles overtaking = some w ∧ w.rows.messages = [r] ∧
      r.message.acked = false ∧ r.bucket < cursorAt singles .readerBucket w.rows ∧
      ¬ Within singles w.rows r :=
    ⟨_, _, rfl, rfl, rfl, by decide +kernel, by decide +kernel⟩
  have h : Reachable singles Undropped w :=
    .run (by simp [overtaking, serve, Undropped]) .fresh hw
  have hmem : r ∈ w.rows.messages := hr ▸ List.mem_singleton_self r
  refine ⟨w, r, h, hmem, hacked, hbehind, ?_⟩
  by_contra hover
  exact hreach ((within_reach_iff h hmem hacked).mpr fun _ => hover)

/-- Publishers, readers and honest consumers, and no call fails. -/
def Faultless : Rule
  | _, .start (.tick _) => False
  | _, .fail _ _ => False
  | w, a => Honest w a

/-- A delivered message can get out of reach. -/
theorem out_of_reach_occurs :
    ¬ ∀ (q : Queue) (w : World), Reachable q Faultless w → ∀ r ∈ w.rows.messages,
      r.message.delivered = true → r.message.acked = false → Within q w.rows r := by
  intro claimed
  obtain ⟨w, r, hw, hr, hdel, hacked, hreach⟩ : ∃ w r,
      ({} : World).run? singles overtaking = some w ∧ w.rows.messages = [r] ∧
      r.message.delivered = true ∧ r.message.acked = false ∧
      ¬ Within singles w.rows r :=
    ⟨_, _, rfl, rfl, rfl, rfl, by decide +kernel⟩
  have h : Reachable singles Faultless w :=
    .run (by simp [overtaking, serve, Faultless, Honest]) .fresh hw
  exact hreach (claimed singles w h r (hr ▸ List.mem_singleton_self r) hdel hacked)

end LeaseQueue.Shared
