import LeaseQueue.Proofs.Shared.Solo
import LeaseQueue.Proofs.Shared.Turns

/-
  Runs of complete operations.

  When requests are served one by one and no call fails, a run is a sequence of
  whole operations, each of which meets the rows that the one before has left. What
  holds of the results so far, the rows and the clock between two operations is
  proved of one operation that is left alone, and holds of the whole run
  (`Reachable.between`).
-/

namespace LeaseQueue.Shared

variable {q : Queue} {rule : Rule} {w w' : World} {t : Nat}

def results : History → List Result
  | [] => []
  | .ended _ result :: past => result :: results past
  | .started _ _ :: past => results past
  | .performed _ _ _ _ :: past => results past

/-- Requests are served one by one, and no call fails. -/
def Whole : Rule := fun w a => OneByOne w a ∧ ∀ t e, a ≠ .fail t e

/-- Between two operations the invariant holds; within one, it held before, and it will hold when
the operation has ended. -/
def Between (I : List Result → Rows → Instant → Prop) (w : World) : Prop :=
  (Idle w ∧ I (results w.history) w.rows w.clock) ∨
    ∃ t task c, w.tasks t = some task ∧ (∀ u, u ≠ t → w.tasks u = none) ∧
      (∃ rows c, I (results w.history) rows c) ∧ c ≤ w.clock ∧
      task.rest.Solo false (fun result rows c => I (result :: results w.history) rows c) w.rows c

section
variable {I : List Result → Rows → Instant → Prop}

theorem Between.serving (h : Between I w) {task : Task} (ht : w.tasks t = some task) :
    ∃ c, (∀ u, u ≠ t → w.tasks u = none) ∧ (∃ rows c, I (results w.history) rows c) ∧ c ≤ w.clock ∧
      task.rest.Solo false (fun result rows c => I (result :: results w.history) rows c)
        w.rows c := by
  rcases h with ⟨hidle, _⟩ | ⟨u, task', c, hu, hothers, hbefore, hc, hsolo⟩
  · rw [hidle t] at ht
    cases ht
  · by_cases htu : t = u
    · subst htu
      cases hu.symm.trans ht
      exact ⟨c, hothers, hbefore, hc, hsolo⟩
    · rw [hothers t htu] at ht
      cases ht

theorem Between.step (h : Between I w) {a : Action} (ha : Whole w a)
    (later : ∀ {rs rows c c'}, c ≤ c' → I rs rows c → I rs rows c')
    (served : ∀ r, a = .start r → I (results w.history) w.rows w.clock →
      (r.op q).run.Solo false (fun result rows c => I (result :: results w.history) rows c) w.rows
        w.clock) (hs : w.step? q a = some w') : Between I w' := by
  have others : ∀ {t : Nat} {o : Option Task}, (∀ u, u ≠ t → w.tasks u = none) →
      ∀ u, u ≠ t → Function.update w.tasks t o u = none :=
    fun hothers u hu => (Function.update_of_ne hu _ _).trans (hothers u hu)
  cases a with
  | fail t e => exact absurd rfl (ha.2 t e)
  | start r =>
    have hidle : Idle w := (ha.1 r rfl).2
    cases hs
    rcases h with ⟨_, hI⟩ | ⟨u, _, _, hu, _⟩
    · refine .inr ⟨w.started, _, w.clock, Function.update_self _ _ _, others fun u _ => hidle u,
        ⟨_, _, hI⟩, Nat.le_refl _, served r rfl hI⟩
    · rw [hidle u] at hu
      cases hu
  | pass d =>
    cases hs
    rcases h with ⟨hidle, hI⟩ | ⟨t, task, c, ht, hothers, hbefore, hc, hsolo⟩
    · exact .inl ⟨hidle, later (Nat.le_add_right _ _) hI⟩
    · exact .inr ⟨t, task, c, ht, hothers, hbefore, Nat.le_trans hc (Nat.le_add_right _ _), hsolo⟩
  | act t tag =>
    simp only [World.step?] at hs
    split at hs
    · rename_i request e k ht
      obtain ⟨⟨answer, rows⟩, hans, rfl⟩ := Option.map_eq_some_iff.mp hs
      obtain ⟨c, hothers, hbefore, hc, hsolo⟩ := h.serving ht
      refine .inr ⟨t, _, w.clock, Function.update_self _ _ _, others hothers, hbefore,
        Nat.le_refl _, hsolo w.clock answer rows hc (fun hf => ?_) (answered_of_answer? hans)⟩
      rw [not_failed_of_answer? hans] at hf
      cases hf
    · rename_i ht
      cases hs
      obtain ⟨c, hothers, hbefore, hc, hsolo⟩ := h.serving ht
      exact .inr ⟨t, _, c, Function.update_self _ _ _, others hothers, hbefore, hc, hsolo.unroll⟩
    · cases hs
  | finish t =>
    simp only [World.step?] at hs
    split at hs
    · rename_i result ht
      cases hs
      obtain ⟨c, hothers, _, hc, hsolo⟩ := h.serving ht
      refine .inl ⟨fun u => ?_, later hc hsolo⟩
      by_cases hu : u = t
      · subst hu
        exact Function.update_self _ _ _
      · exact others hothers u hu
    · cases hs

/-- An invariant of a run of complete operations: it holds at first, time does not matter to it, and
an operation that is left alone keeps it. -/
theorem Reachable.between (h : Reachable q rule w) (hrule : ∀ w a, rule w a → Whole w a)
    (fresh : I [] {} 0) (later : ∀ {rs rows c c'}, c ≤ c' → I rs rows c → I rs rows c')
    (served : ∀ w r, Reachable q rule w → rule w (.start r) → I (results w.history) w.rows w.clock →
      (r.op q).run.Solo false (fun result rows c => I (result :: results w.history) rows c) w.rows
        w.clock) : Between I w := by
  induction h with
  | fresh => exact .inl ⟨fun _ => rfl, fresh⟩
  | step hw ha hs ih =>
    refine ih.step (hrule _ _ ha) later (fun r hr hI => ?_) hs
    subst hr
    exact served _ r hw ha hI

/-- Whatever holds of the results between two operations holds of them at any time. -/
theorem Between.at_any_time (h : Between I w) : ∃ rows c, I (results w.history) rows c := by
  rcases h with ⟨_, hI⟩ | ⟨_, _, _, _, _, hbefore, _⟩
  · exact ⟨_, _, hI⟩
  · exact hbefore

end

end LeaseQueue.Shared
