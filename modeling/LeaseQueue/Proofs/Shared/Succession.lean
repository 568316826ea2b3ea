import LeaseQueue.Receipt
import LeaseQueue.Store.Call

/-
  What becomes of a message.

  Each successor keeps the identity of a message and raises its version by one.
  `Became` is the order that this generates: by it a message as it was once read
  and the stored one are compared, and equal versions mean equal messages.
-/

namespace LeaseQueue

theorem countUp_ge (n : UInt32) : n ≤ countUp n := by
  unfold countUp
  split
  · rw [UInt32.le_iff_toNat_le, UInt32.toNat_add]
    rename_i h
    exact Nat.le_trans (Nat.le_succ _) (Nat.le_of_eq (Nat.mod_eq_of_lt h).symm)
  · exact UInt32.le_refl n

theorem countUp_pos (n : UInt32) : 0 < countUp n := by
  unfold countUp
  split
  · rw [UInt32.lt_iff_toNat_lt, UInt32.toNat_add]
    rename_i h
    exact Nat.lt_of_lt_of_eq (Nat.succ_pos _) (Nat.mod_eq_of_lt h).symm
  · rename_i h
    rw [UInt32.lt_iff_toNat_lt]
    simp only [UInt32.toNat_zero]
    have := n.toNat_lt
    simp only [UInt32.size] at h
    omega

theorem countUp_toNat (n : UInt32) : (countUp n).toNat = min (n.toNat + 1) (UInt32.size - 1) := by
  have hlt : n.toNat < UInt32.size := n.toNat_lt
  unfold countUp
  split
  · rename_i h
    have hsucc : (n + 1).toNat = n.toNat + 1 := by
      rw [UInt32.toNat_add]
      exact Nat.mod_eq_of_lt h
    omega
  · omega

namespace Message

variable {m n : Message} {t : Instant} {hide : Duration} {blob : Blob}

theorem claimed?_eq_some (h : m.claimed? t hide = some n) :
    n.version.toNat = m.version.toNat + 1 ∧
      n = { m with
        version := n.version, deliveries := countUp m.deliveries, visibleAt := t + hide } := by
  obtain ⟨v, hv, rfl⟩ := Option.map_eq_some_iff.mp h
  exact ⟨wordSucc?_eq_some hv, rfl⟩

theorem acknowledged?_eq_some (h : m.acknowledged? = some n) :
    n.version.toNat = m.version.toNat + 1 ∧ n = { m with version := n.version, acked := true } := by
  obtain ⟨v, hv, rfl⟩ := Option.map_eq_some_iff.mp h
  exact ⟨wordSucc?_eq_some hv, rfl⟩

theorem revised?_eq_some (h : m.revised? blob t hide = some n) :
    n.version.toNat = m.version.toNat + 1 ∧
      n = { m with version := n.version, blob := blob, visibleAt := t + hide } := by
  obtain ⟨v, hv, rfl⟩ := Option.map_eq_some_iff.mp h
  exact ⟨wordSucc?_eq_some hv, rfl⟩

theorem unacked_of_pending (hp : m.pending = true) : m.acked = false := by
  simp only [pending, Bool.and_eq_true, Bool.not_eq_true'] at hp
  exact hp.1

theorem pending_of_undelivered (hacked : m.acked = false) (hd : m.delivered = false) :
    m.pending = true := by
  simp [pending, hacked, hd]

theorem not_pending_of_delivered (hd : m.delivered = true) : m.pending = false := by
  simp [pending, hd]

theorem not_pending_of_acked (hacked : m.acked = true) : m.pending = false := by
  simp [pending, hacked]

/-- The second message is the first one or came of it by conditional writes. -/
structure Became (m n : Message) : Prop where
  index : n.index = m.index
  tag : n.tag = m.tag
  createdAt : n.createdAt = m.createdAt
  acked : m.acked = true → n.acked = true
  deliveries : m.deliveries ≤ n.deliveries
  version : n = m ∨ m.version < n.version

theorem Became.refl (m : Message) : Became m m :=
  ⟨rfl, rfl, rfl, id, UInt32.le_refl _, .inl rfl⟩

theorem Became.trans {o : Message} (h : Became m n) (h' : Became n o) : Became m o where
  index := h'.index.trans h.index
  tag := h'.tag.trans h.tag
  createdAt := h'.createdAt.trans h.createdAt
  acked := h'.acked ∘ h.acked
  deliveries := UInt32.le_trans h.deliveries h'.deliveries
  version := by
    rcases h.version with rfl | hv
    · exact h'.version
    · rcases h'.version with rfl | hv'
      · exact .inr hv
      · exact .inr (UInt64.lt_trans hv hv')

theorem Became.version_le (h : Became m n) : m.version ≤ n.version := by
  rcases h.version with rfl | hv
  · exact UInt64.le_refl _
  · exact UInt64.le_of_lt hv

/-- Equal versions of what is one message are equal messages. -/
theorem Became.eq_of_version (h : Became m n) (hv : n.version = m.version) : n = m := by
  refine h.version.resolve_right fun hlt => ?_
  rw [hv] at hlt
  exact UInt64.lt_irrefl _ hlt

theorem Became.delivered (h : Became m n) (hm : m.delivered = true) : n.delivered = true := by
  simp only [Message.delivered, decide_eq_true_eq] at hm ⊢
  exact UInt32.lt_of_lt_of_le hm h.deliveries

theorem Became.pending (h : Became m n) (hn : n.pending = true) : m.pending = true := by
  simp only [Message.pending, Bool.and_eq_true, Bool.not_eq_true'] at hn ⊢
  refine ⟨Bool.eq_false_iff.mpr fun hm => ?_, Bool.eq_false_iff.mpr fun hm => ?_⟩
  · exact absurd (h.acked hm) (Bool.eq_false_iff.mp hn.1)
  · exact absurd (h.delivered hm) (Bool.eq_false_iff.mp hn.2)

theorem became_of_claimed? (h : m.claimed? t hide = some n) : Became m n := by
  obtain ⟨hv, hn⟩ := claimed?_eq_some h
  have hlt : m.version < n.version := UInt64.lt_iff_toNat_lt.mpr (by omega)
  rw [hn]
  exact ⟨rfl, rfl, rfl, id, countUp_ge _, .inr hlt⟩

theorem became_of_acknowledged? (h : m.acknowledged? = some n) : Became m n := by
  obtain ⟨hv, hn⟩ := acknowledged?_eq_some h
  have hlt : m.version < n.version := UInt64.lt_iff_toNat_lt.mpr (by omega)
  rw [hn]
  exact ⟨rfl, rfl, rfl, fun _ => rfl, UInt32.le_refl _, .inr hlt⟩

theorem became_of_revised? (h : m.revised? blob t hide = some n) : Became m n := by
  obtain ⟨hv, hn⟩ := revised?_eq_some h
  have hlt : m.version < n.version := UInt64.lt_iff_toNat_lt.mpr (by omega)
  rw [hn]
  exact ⟨rfl, rfl, rfl, id, UInt32.le_refl _, .inr hlt⟩

end Message

namespace Receipt

theorem fits_iff {r : Receipt} {m : Message} : r.fits m = true ↔ r = of m := by
  cases r
  simp [fits, of, and_assoc]

end Receipt

end LeaseQueue
