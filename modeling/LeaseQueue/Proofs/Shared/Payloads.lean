import LeaseQueue.Proofs.Shared.Progress

/-
  What an insert, an update and a deletion make of tidy rows.

  The payloads that are not acknowledged are a list, each as often as it is
  stored. An insert adds one, an acknowledgement takes one away, and so they are
  also a measure of what is left to acknowledge.
-/

namespace LeaseQueue.Shared

variable {q : Queue} {rows : Rows} {b : UInt64} {m next : Message}

/-! ## Payloads -/

def payload? (row : Row) : Option Blob :=
  if row.message.acked then none else some row.message.blob

/-- The payloads that are stored unacknowledged, each as often as it is. -/
def payloads (rows : Rows) : List Blob := rows.messages.filterMap payload?

theorem payloads_insert (hm : m.acked = false) :
    (payloads (rows.insert b m)).Perm (m.blob :: payloads rows) := by
  have hm : payload? ⟨b, m⟩ = some m.blob := by simp [payload?, hm]
  refine ((Rows.insertRow_perm ⟨b, m⟩ rows.messages).filterMap payload?).trans ?_
  rw [List.filterMap_cons_some hm]
  exact .refl _

theorem payloads_replace (hd : rows.Distinct) (hm : ⟨b, m⟩ ∈ rows.messages) (hm' : m.acked = false)
    (hi : next.index = m.index) (hn : next.acked = true) :
    (payloads rows).Perm (m.blob :: payloads (rows.replace b next)) := by
  obtain ⟨before, after, he⟩ := List.append_of_mem hm
  have hother : ∀ r ∈ before ++ after, r.sits b next.index = false := by
    intro r hr
    rw [Rows.Distinct, he, List.map_append, List.map_cons, List.nodup_middle, List.nodup_cons,
      ← List.map_append] at hd
    refine Bool.eq_false_iff.mpr fun hsits => hd.1 (List.mem_map.mpr ⟨r, hr, ?_⟩)
    simp only [Row.sits, Bool.and_eq_true, decide_eq_true_eq] at hsits
    exact hsits.2.trans hi
  have hsame : ∀ l, l ⊆ before ++ after →
      l.filterMap (fun r => payload? (if r.sits b next.index then ⟨b, next⟩ else r)) =
        l.filterMap payload? :=
    fun l hl => List.filterMap_congr fun r hr => by simp [hother r (hl hr)]
  have hafter : payloads (rows.replace b next) =
      before.filterMap payload? ++ after.filterMap payload? := by
    have hnone : payload? ⟨b, next⟩ = none := by simp [payload?, hn]
    rw [payloads, Rows.replace, List.filterMap_map, he, List.filterMap_append]
    simp only [Function.comp_def]
    rw [hsame before (List.subset_append_left _ _),
      List.filterMap_cons_none (by simp [Row.sits, hi, hnone]),
      hsame after (List.subset_append_right _ _)]
  have hsome : payload? ⟨b, m⟩ = some m.blob := by simp [payload?, hm']
  rw [hafter, payloads, he, List.filterMap_append, List.filterMap_cons_some hsome]
  exact List.perm_middle

theorem payloads_removeBucket (h : ∀ r ∈ rows.messages, r.bucket = b → r.message.acked = true) :
    payloads (rows.removeBucket b) = payloads rows := by
  rw [payloads, Rows.removeBucket, List.filterMap_filter]
  refine List.filterMap_congr fun r hr => ?_
  by_cases hb : r.bucket = b
  · simp [hb, payload?, h r hr hb]
  · simp [hb]

/-! ## Tidy rows -/

theorem Tidy.removeBucket (h : Tidy q rows) : Tidy q (rows.removeBucket b) where
  orderly := ⟨h.orderly.1.removeBucket, fun r hr => h.orderly.2 r (Rows.mem_removeBucket.mp hr).1⟩
  counted := h.counted
  below := fun r hr => h.below r (Rows.mem_removeBucket.mp hr).1
  closed := h.closed

theorem Tidy.replace (h : Tidy q rows) : Tidy q (rows.replace b m) where
  orderly := h.orderly.replace
  counted := h.counted
  below := by
    intro r hr
    rcases Rows.mem_replace.mp hr with ⟨s, hs, hsits, rfl⟩ | ⟨hr, _⟩
    · simp only [Row.sits, Bool.and_eq_true, decide_eq_true_eq] at hsits
      exact hsits.2 ▸ h.below s hs
    · exact h.below r hr
  closed := h.closed

theorem Tidy.moved {cells : Cells} (h : Tidy q rows) (hc : cells.counter = rows.cells.counter) :
    Tidy q { rows with cells } := by
  have hnext : nextOf { rows with cells } = nextOf rows := congrArg counterValue hc
  refine ⟨h.orderly, hnext ▸ h.counted, hnext ▸ h.below, fun b sealedAt hs => ?_⟩
  rw [headOf, hnext]
  exact h.closed b sealedAt hs

theorem Tidy.free (h : Tidy q rows) : rows.find? b (nextOf rows).toUInt64 = none := by
  cases hf : rows.find? b (nextOf rows).toUInt64 with
  | none => rfl
  | some m =>
    obtain ⟨hm, hi⟩ := Rows.find?_eq_some hf
    exact absurd (hi ▸ h.below _ hm) (UInt64.lt_irrefl _)

/-- The rows after an index was taken and a message was written there. -/
def appended (q : Queue) (rows : Rows) (value : Int64) (m : Message) : Rows :=
  ({ rows with cells := rows.cells.set .counter value } : Rows).insert (q.bucketOf m.index) m

/-- The message at the next index is stored behind all others. -/
theorem Tidy.appended_eq {value : Int64} (h : Tidy q rows) (hi : m.index = (nextOf rows).toUInt64) :
    (appended q rows value m).messages = rows.messages ++ [⟨q.bucketOf m.index, m⟩] := by
  refine Rows.insertRow_last fun r hr => ?_
  have hbucket : r.bucket ≤ q.bucketOf m.index := hi ▸ h.within r hr
  have hindex : r.message.index < m.index := hi ▸ h.below r hr
  rw [← Bool.not_eq_true, Rows.before_iff]
  rintro (hlt | ⟨_, hlt⟩)
  · exact absurd hbucket (UInt64.not_le.mpr hlt)
  · exact absurd (UInt64.lt_trans hindex hlt) (UInt64.lt_irrefl _)

theorem Tidy.next_lt {value : Int64} (h : Tidy q rows) (hn : cellSucc? (nextOf rows) = some value) :
    0 ≤ value.toInt ∧ (nextOf rows).toUInt64 < value.toUInt64 := by
  obtain ⟨hpos, hnat⟩ := cellSucc?_toNat hn h.counted
  refine ⟨hpos, UInt64.lt_iff_toNat_lt.mpr ?_⟩
  rw [hnat]
  exact Nat.lt_succ_self _

theorem Tidy.append {value : Int64} (h : Tidy q rows) (hn : cellSucc? (nextOf rows) = some value)
    (hi : m.index = (nextOf rows).toUInt64) : Tidy q (appended q rows value m) := by
  obtain ⟨hpos, hlt⟩ := h.next_lt hn
  refine ⟨Orderly.insert h.orderly (hi ▸ h.free), hpos, fun r hr => ?_, fun b sealedAt hs => ?_⟩
  · show r.message.index < value.toUInt64
    rcases Rows.mem_insert.mp hr with rfl | hr
    · exact hi ▸ hlt
    · exact UInt64.lt_trans (h.below r hr) hlt
  · exact UInt64.lt_of_lt_of_le (h.closed b sealedAt hs) (q.bucketOf_mono (UInt64.le_of_lt hlt))

end LeaseQueue.Shared
