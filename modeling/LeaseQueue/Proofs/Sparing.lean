import LeaseQueue.Proofs.Shared.Repairs

/-
  Repair does no harm where it has seen everything.

  A tick acts on what it last read in a bucket, while readers claim and consumers
  acknowledge the very messages that it moves. That does not matter: what was
  acknowledged stays so, and an attempt to acknowledge fails only where somebody
  else was first. What matters is what the tick has not read. A full bucket takes
  no insert, so if nothing lands in any other bucket after the last look of the
  tick that passes or deletes it, no message is deleted unacknowledged, and none
  that nobody has delivered is left behind.
-/

namespace LeaseQueue.Shared

variable {q : Queue} {w : World} {t : Nat} {h past looked part : History} {b i : UInt64}
  {c : Instant} {rows : Rows} {s : Seen} {r : Row} {ms : List Message}

/-! ## Last looks -/

/-- The bucket that a tick is done with by this effect: it moves the repair cursor off the bucket or
deletes it. -/
def concluded? (q : Queue) (rows : Rows) : Seen → Option UInt64
  | ⟨.call (.swapCell .repairBucket _ target), .ok .swapped⟩ =>
    if cursorAt q .repairBucket rows < Cursor.repairBucket.bucket q target then
      some (cursorAt q .repairBucket rows)
    else none
  | ⟨.call (.deleteBucket b), .ok ()⟩ => some b
  | _ => none

/-- The task last saw the bucket full, or all that has been inserted there was inserted before. -/
def SawAll (q : Queue) (h : History) (t : Nat) (b : UInt64) (past : History) : Prop :=
  ∀ ms looked, lastLook t b past = some (ms, looked) → ms.length ≠ q.bucketSize.toNat →
    ∀ i, q.bucketOf i = b → Inserted i h → Inserted i looked

/-- No message was inserted in a bucket after the last look of a task that found the bucket not full
and was done with it nevertheless. -/
def FinalLooks (q : Queue) (h : History) : Prop :=
  ∀ t c rows s past, .performed t c rows s :: past <:+ h →
    ∀ b, concluded? q rows s = some b → SawAll q h t b past

/-- Who is done with a bucket has overlooked nothing there. -/
theorem Reachable.not_overlooks (h : Reachable q Undropped w) (hfinal : FinalLooks q w.history)
    (hs : .performed t c rows s :: past <:+ w.history) (hc : concluded? q rows s = some r.bucket)
    (hb : r.bucket = q.bucketOf r.message.index) (hi : Inserted r.message.index w.history) :
    ¬ Overlooks past t r := by
  rintro ⟨ms, looked, hlook, hnot⟩
  by_cases hfull : ms.length = q.bucketSize.toNat
  · obtain ⟨v, _, _, _, hv, rfl, _⟩ := h.at_effect hs
    exact hnot (hv.look_full (hb ▸ hlook) hfull)
  · exact hnot (hfinal t c rows s past hs r.bucket hc ms looked hlook hfull _ hb.symm hi)

def Seen.inserted? : Seen → Option UInt64
  | ⟨.call (.insertMessage _ m), .ok true⟩ => some m.index
  | _ => none

def insertedIn : History → List UInt64
  | [] => []
  | .performed _ _ _ s :: past => s.inserted?.toList ++ insertedIn past
  | .started _ _ :: past => insertedIn past
  | .ended _ _ :: past => insertedIn past

theorem mem_insertedIn : i ∈ insertedIn h ↔ Inserted i h := by
  induction h with
  | nil => exact ⟨nofun, fun hi => absurd hi not_inserted_nil⟩
  | cons e h ih =>
    cases e with
    | started u r => simp [insertedIn, ih]
    | ended u r => simp [insertedIn, ih]
    | performed u c rows s =>
      rw [inserted_performed, ← ih, insertedIn, List.mem_append]
      refine or_congr_left ⟨fun hi => ?_, ?_⟩
      · unfold Seen.inserted? at hi
        split at hi
        · exact ⟨_, _, rfl, (List.mem_singleton.mp hi).symm⟩
        · exact absurd hi List.not_mem_nil
      · rintro ⟨b, m, rfl, rfl⟩
        exact List.mem_singleton_self _

/-- Whether all that was inserted in the bucket was inserted before. -/
def holdsAll (q : Queue) (h : History) (b : UInt64) (looked : History) : Bool :=
  (insertedIn h).all fun i => q.bucketOf i ≠ b || (insertedIn looked).contains i

theorem holdsAll_iff : holdsAll q h b looked = true ↔
    ∀ i, q.bucketOf i = b → Inserted i h → Inserted i looked := by
  simp only [holdsAll, List.all_eq_true, Bool.or_eq_true, decide_eq_true_eq, List.contains_iff_mem,
    mem_insertedIn, ← imp_iff_not_or]
  exact forall_congr' fun i => forall_comm

instance : Decidable (SawAll q h t b past) :=
  decidable_of_iff ((lastLook t b past).all (fun look =>
      look.1.length = q.bucketSize.toNat || holdsAll q h b look.2) = true) <| by
    simp only [SawAll, Option.all_eq_true, Bool.or_eq_true, decide_eq_true_eq, holdsAll_iff,
      Prod.forall, or_iff_not_imp_left, ne_eq]

/-- `FinalLooks` as far as the events of a part of the history go. -/
def finalLooksIn (q : Queue) (h : History) : History → Bool
  | [] => true
  | .performed t _ rows s :: past =>
    (concluded? q rows s).all (fun b => SawAll q h t b past) && finalLooksIn q h past
  | .started _ _ :: past => finalLooksIn q h past
  | .ended _ _ :: past => finalLooksIn q h past

theorem finalLooksIn_iff : finalLooksIn q h part = true ↔
    ∀ t c rows s past, .performed t c rows s :: past <:+ part →
      ∀ b, concluded? q rows s = some b → SawAll q h t b past := by
  induction part with
  | nil => simp [finalLooksIn]
  | cons e part ih =>
    cases e with
    | started u r => simp [finalLooksIn, ih, List.suffix_cons_iff]
    | ended u r => simp [finalLooksIn, ih, List.suffix_cons_iff]
    | performed u c rows s =>
      rw [finalLooksIn, Bool.and_eq_true, Option.all_eq_true, ih]
      simp only [decide_eq_true_eq]
      constructor
      · rintro ⟨hfirst, hrest⟩ t c' rows' s' past hs
        rcases List.suffix_cons_iff.mp hs with he | hs
        · cases he
          exact hfirst
        · exact hrest t c' rows' s' past hs
      · intro hall
        exact ⟨hall u c rows s part (List.suffix_refl _), fun t c' rows' s' past hs =>
          hall t c' rows' s' past (hs.trans (List.suffix_cons _ _))⟩

instance : Decidable (FinalLooks q h) := decidable_of_iff _ finalLooksIn_iff

theorem MovedOff.concluded (hm : MovedOff q .repairBucket h t b past) :
    ∃ c rows s, .performed t c rows s :: past <:+ h ∧ concluded? q rows s = some b := by
  obtain ⟨c, rows, expected, target, hs, rfl, hlt⟩ := hm
  exact ⟨c, rows, _, hs, if_pos hlt⟩

/-! ## Every repair -/

/-- Where ticks have seen all there was of the buckets that they passed or deleted, no
unacknowledged message is deleted, and a message behind the repair cursor is acknowledged or was
delivered, unless somebody with a receipt that was never handed out has revised it before its first
delivery. -/
theorem repair_spares (h : Reachable q Undropped w) (hfinal : FinalLooks q w.history) :
    (∀ t c rows b past,
      .performed t c rows ⟨.call (.deleteBucket b), .ok ()⟩ :: past <:+ w.history →
      ∀ r ∈ rows.messages, r.bucket = b → r.message.acked = true) ∧
    (∀ r ∈ w.rows.messages, r.bucket < cursorAt q .repairBucket w.rows →
      r.message.acked = true ∨ r.message.delivered = true ∨ Hidden r.message w.history) ∧
    (Reachable q Honest w → ∀ r ∈ w.rows.messages, r.bucket < cursorAt q .repairBucket w.rows →
      r.message.acked = true ∨ r.message.delivered = true) := by
  have behind : ∀ r ∈ w.rows.messages, r.bucket < cursorAt q .repairBucket w.rows →
      r.message.acked = true ∨ r.message.delivered = true ∨ Hidden r.message w.history := by
    intro r hr hb
    by_contra hnone
    simp only [not_or, Bool.not_eq_true] at hnone
    obtain ⟨hacked, hdelivered, hhidden⟩ := hnone
    have hp : r.message.pending = true := by simp [Message.pending, hacked, hdelivered]
    have hins := (h.inserted_or_hidden r hr hp).resolve_right hhidden
    obtain ⟨t, past, hm, ho⟩ := h.swept_fresh.overtaken r hr ⟨hp, h.insertedAs_version hins⟩ hb
    obtain ⟨c, rows, s, hs, hc⟩ := hm.concluded
    exact h.not_overlooks hfinal hs hc (h.filed.placed r hr) hins.inserted ho
  refine ⟨?_, behind, fun hhonest r hr hb => ?_⟩
  · rintro t c rows _ past hs r hr rfl
    by_contra hacked
    obtain ⟨v, req, _, _, hv, rfl, rfl, rfl, htask, _, _⟩ := h.at_effect hs
    obtain ⟨cfg, _, hclears⟩ := (hv.task_obeys (requests_keep _) htask).2.1.clear
    have hins := (hv.filed.inserted r hr).mono ((List.suffix_cons _ _).trans hs)
    exact h.not_overlooks hfinal hs rfl (hv.filed.placed r hr) hins
      (hv.overlooks_of_clears hclears hr (Bool.eq_false_iff.mpr hacked))
  · rcases behind r hr hb with hacked | hdelivered | hhidden
    · exact .inl hacked
    · exact .inr hdelivered
    · exact .inr (hhonest.hidden_delivered _ hhidden)

/-- A publisher takes the first of two indices and never writes there. The next message is hidden
when a reader passes the bucket, so a tick writes it again and deletes the bucket. -/
def copiedAway : List Action :=
  [.start (.put [1] 0)] ++ List.replicate 3 (.act 0 ⟨7⟩) ++ serve 1 (.put [2] 5) 6 ++
    serve 2 (.put [3] 0) 6 ++ serve 3 (.receive 1 1000) 22 ++ [.pass 30000] ++
    serve 4 (.tick {}) 20

/-- What is in the second bucket is handed out before another tick passes it. -/
def handedOn : List Action :=
  serve 5 (.receive 1 1000) 13 ++ serve 6 (.receive 1 1000) 10 ++ serve 7 (.receive 1 1000) 17 ++
    [.pass 30000] ++ serve 8 (.tick {}) 9

theorem repair_spares_copied_away :
    ∃ w rows r t c past, Reachable pairs Honest w ∧ FinalLooks pairs w.history ∧
      .performed t c rows ⟨.call (.deleteBucket 0), .ok ()⟩ :: past <:+ w.history ∧
      (∃ r ∈ rows.messages, r.bucket = 0 ∧ r.message.acked = true) ∧
      r ∈ w.rows.messages ∧ r.bucket < cursorAt pairs .repairBucket w.rows ∧
      (r.message.acked = true ∨ r.message.delivered = true) := by
  obtain ⟨v, w, t, c, rows, cleared, r, hv, hw, hfinal, hdeleted, hcleared, hbucket, hr, hbehind⟩ :
      ∃ v w t c rows cleared r, ({} : World).run? pairs copiedAway = some v ∧
        v.run? pairs handedOn = some w ∧ FinalLooks pairs w.history ∧
        w.history[53]? = some (.performed t c rows ⟨.call (.deleteBucket 0), .ok ()⟩) ∧
        rows.messages.head? = some cleared ∧ cleared.bucket = 0 ∧
        w.rows.messages.head? = some r ∧ r.bucket < cursorAt pairs .repairBucket w.rows :=
    ⟨_, _, _, _, _, _, _, rfl, rfl, by decide +kernel, rfl, rfl, rfl, rfl, by decide +kernel⟩
  have h : Reachable pairs Honest w :=
    .run (by simp [handedOn, serve, Honest])
      (.run (by simp [copiedAway, serve, Honest]) .fresh hv) hw
  obtain ⟨hspared, _, hleft⟩ := repair_spares (h.mono fun _ _ => undropped_of_honest) hfinal
  obtain ⟨past, hs⟩ := suffix_of_mem (List.mem_of_getElem? hdeleted)
  have hmem := List.mem_of_mem_head? hcleared
  exact ⟨w, rows, r, t, c, past, h, hfinal, hs,
    ⟨cleared, hmem, hbucket, hspared t c rows 0 past hs cleared hmem hbucket⟩,
    List.mem_of_mem_head? hr, hbehind, hleft h r (List.mem_of_mem_head? hr) hbehind⟩

end LeaseQueue.Shared
