import LeaseQueue.Proofs.Shared.Progress

/-
  Runs in which readers and writers of new messages take turns.

  While a reader is served, nothing is inserted, so whatever it has looked at is
  still complete (`Reachable.look_complete`). A run of requests that are served
  one by one is a special case.
-/

namespace LeaseQueue.Shared

variable {q : Queue} {rule : Rule} {w w' : World} {a : Action} {t u : Nat} {r r' : Request}
  {b i : UInt64} {ms : List Message} {looked : History}

def Request.reads : Request → Bool
  | .receive _ _ => true
  | _ => false

/-- The request writes new messages. -/
def Request.fills : Request → Bool
  | .put _ _ => true
  | .tick _ => true
  | _ => false

/-- One of the two requests reads and the other writes new messages. -/
def Request.clashes (r r' : Request) : Bool := r.reads && r'.fills || r.fills && r'.reads

def Serving (w : World) (t : Nat) (r : Request) : Prop := ∃ rest, w.tasks t = some ⟨r, rest⟩

def Idle (w : World) : Prop := ∀ t, w.tasks t = none

theorem Idle.not_serving (h : Idle w) : ¬ Serving w t r := by
  rintro ⟨rest, ht⟩
  rw [h t] at ht
  cases ht

/-- Nobody drops the queue, and no request is started while one that clashes with it is served. -/
def TakingTurns : Rule := fun w a =>
  ∀ r, a = .start r → r ≠ .drop ∧ ∀ t r', Serving w t r' → r.clashes r' = false

/-- Nobody drops the queue, and a request is started only when nothing is being served. -/
def OneByOne : Rule := fun w a => ∀ r, a = .start r → r ≠ .drop ∧ Idle w

theorem undropped_of_takingTurns (h : TakingTurns w a) : Undropped w a := by
  rintro rfl
  exact (h .drop rfl).1 rfl

theorem takingTurns_of_oneByOne (h : OneByOne w a) : TakingTurns w a := by
  intro r hr
  obtain ⟨hdrop, hidle⟩ := h r hr
  exact ⟨hdrop, fun t r' hs => absurd hs hidle.not_serving⟩

/-! ## What is being served -/

theorem Move.serving (hm : Move q w a w') (h : Serving w' t r) :
    Serving w t r ∨ a = .start r ∧ t = w.started ∧ w'.history = .started t r :: w.history := by
  obtain ⟨rest, ht⟩ := h
  cases hm with
  | starts request =>
    by_cases htu : t = w.started
    · subst htu
      simp only [Function.update_self, Option.some.injEq, Task.mk.injEq] at ht
      rw [← ht.1]
      exact .inr ⟨rfl, rfl, rfl⟩
    · simp only [Function.update_of_ne htu] at ht
      exact .inl ⟨rest, ht⟩
  | passes d => exact .inl ⟨rest, ht⟩
  | @performs _ u request s k rows hu hans =>
    by_cases htu : t = u
    · subst htu
      simp only [World.performed, Function.update_self, Option.some.injEq, Task.mk.injEq] at ht
      exact .inl ⟨_, ht.1 ▸ hu⟩
    · simp only [World.performed, Function.update_of_ne htu] at ht
      exact .inl ⟨rest, ht⟩
  | @turns _ u request _ _ _ _ _ hu =>
    by_cases htu : t = u
    · subst htu
      simp only [Function.update_self, Option.some.injEq, Task.mk.injEq] at ht
      exact .inl ⟨_, ht.1 ▸ hu⟩
    · simp only [Function.update_of_ne htu] at ht
      exact .inl ⟨rest, ht⟩
  | @ends u request result hu =>
    by_cases htu : t = u
    · subst htu
      simp only [Function.update_self] at ht
      cases ht
    · simp only [Function.update_of_ne htu] at ht
      exact .inl ⟨rest, ht⟩

theorem Request.clashes_comm : r.clashes r' = r'.clashes r := by
  simp [Request.clashes, Bool.and_comm, Bool.or_comm]

theorem Request.not_clashes_self : r.clashes r = false := by
  cases r <;> rfl

/-- Requests that clash are not served at a time. -/
theorem Reachable.apart (h : Reachable q TakingTurns w) (ht : Serving w t r)
    (hu : Serving w u r') : r.clashes r' = false := by
  induction h generalizing t u r r' with
  | fresh =>
    obtain ⟨_, ht⟩ := ht
    cases ht
  | step _ ha hs ih =>
    have hm := move_of_step? hs
    rcases hm.serving ht with ht | ⟨rfl, _, _⟩ <;> rcases hm.serving hu with hu | ⟨he, _, _⟩
    · exact ih ht hu
    · rw [Request.clashes_comm]
      exact (ha r' he).2 t r ht
    · exact (ha r rfl).2 u r' hu
    · cases he
      exact Request.not_clashes_self

theorem Permitted.fills {tr : List Seen} {m : Message}
    (h : Permitted q r tr (.call (.insertMessage b m))) : r.fills = true := by
  cases h with
  | looks h => cases h
  | puts _ => rfl
  | copies _ _ _ => rfl

theorem Permitted.reads {tr : List Seen} {expected : Option Int64} {target : Int64}
    (h : Permitted q r tr (.call (.swapCell .invisibility expected target))) : r.reads = true := by
  cases h with
  | looks h => cases h
  | parks _ _ => rfl
  | leaves _ _ => rfl

theorem Move.hand (h : Reachable q rule w) (hm : Move q w a w') (ht : Serving w' t r)
    (hi : inHand (seenBy t w'.history) = some i) :
    Serving w t r ∧ (inHand (seenBy t w.history) = some i ∨ i = (nextOf w.rows).toUInt64) := by
  rcases hm.serving ht with ht' | ⟨_, rfl, hhist⟩
  · refine ⟨ht', ?_⟩
    cases hm with
    | starts request => exact .inl hi
    | passes d => exact .inl hi
    | turns hu => exact .inl hi
    | ends hu => exact .inl hi
    | @performs _ u request s k rows hu hans =>
      simp only [World.performed, seenBy_performed] at hi
      split at hi
      · rcases inHand_cons hi with ⟨seen, next, rfl, rfl⟩ | ⟨hi, _⟩
        · refine .inr ?_
          simp only [Answered, Rows.apply] at hans
          split at hans
          · rename_i hseen
            rw [← hseen]
            rfl
          · cases hans
        · exact .inl hi
      · exact .inl hi
  · rw [hhist, seenBy_started, (h.untraced _ (Nat.le_refl _)).seen] at hi
    cases hi

/-! ## Checks -/

/-- Whether a request may be started now, by turns. -/
def turnFree (w : World) : Action → Bool
  | .start r => r ≠ .drop && (List.range w.started).all fun t =>
    (w.tasks t).all fun task => !r.clashes task.request
  | _ => true

/-- Whether a request may be started now, one by one. -/
def allDone (w : World) : Action → Bool
  | .start r => r ≠ .drop && (List.range w.started).all fun t => (w.tasks t).isNone
  | _ => true

theorem Reachable.lt_started (h : Reachable q rule w) (ht : w.tasks t ≠ none) : t < w.started :=
  Nat.lt_of_not_le fun hle => ht (h.untraced t hle).task

theorem Reachable.turnFree (h : Reachable q rule w) (ha : turnFree w a = true) :
    TakingTurns w a := by
  rintro r rfl
  simp only [Shared.turnFree, Bool.and_eq_true, decide_eq_true_eq, List.all_eq_true] at ha
  refine ⟨ha.1, fun t r' hs => ?_⟩
  obtain ⟨rest, ht⟩ := hs
  have hlt : t < w.started := h.lt_started (by rw [ht]; nofun)
  simpa [ht] using ha.2 t (List.mem_range.mpr hlt)

theorem Reachable.allDone (h : Reachable q rule w) (ha : allDone w a = true) : OneByOne w a := by
  rintro r rfl
  simp only [Shared.allDone, Bool.and_eq_true, decide_eq_true_eq, List.all_eq_true] at ha
  refine ⟨ha.1, fun t => ?_⟩
  by_contra ht
  have hnone := ha.2 t (List.mem_range.mpr (h.lt_started ht))
  exact ht (Option.isNone_iff_eq_none.mp hnone)

/-! ## What a reader has looked at -/

/-- While a reader is served, nothing was inserted since it looked. -/
theorem Reachable.look_complete (h : Reachable q TakingTurns w) (ht : Serving w t r)
    (hr : r.reads = true) (hl : lastLook t b w.history = some (ms, looked))
    (hi : Inserted i w.history) : Inserted i looked := by
  induction h with
  | fresh => cases hl
  | @step w w' a hw ha hs ih =>
    have hm := move_of_step? hs
    rcases hm.serving ht with ht' | ⟨_, rfl, hhist⟩
    · cases hm with
      | starts request => exact ih ht' hl (inserted_started.mp hi)
      | passes d => exact ih ht' hl hi
      | turns hu => exact ih ht' hl hi
      | ends hu => exact ih ht' hl (inserted_ended.mp hi)
      | @performs _ u request s k rows hu hans =>
        have hins : ∀ b m, s ≠ ⟨.call (.insertMessage b m), .ok true⟩ := by
          rintro b m rfl
          have hfills := (hw.task_obeys (requests_keep _) hu).2.1.fills
          have hclash := hw.apart ht' ⟨_, hu⟩
          simp [Request.clashes, hr, hfills] at hclash
        have hi : Inserted i w.history := (inserted_of_not_applied hins).mp hi
        rcases lastLook_performed hl with ⟨_, _, rfl⟩ | hl
        · exact hi
        · exact ih ht' hl hi
    · -- A task that is only started has not looked yet.
      rw [hhist] at hl
      change lastLook w.started b w.history = some (ms, looked) at hl
      obtain ⟨c, rows, hlook⟩ := lastLook_event hl
      have hseen := mem_seenBy.mpr ⟨c, rows, hlook.subset List.mem_cons_self⟩
      rw [(hw.untraced _ (Nat.le_refl _)).seen] at hseen
      cases hseen

end LeaseQueue.Shared
