import LeaseQueue.Proofs.Managed.World

/-
  Which workers the manager has charge of.

  A worker that runs is registered under the key of its queue, or it is one that the
  manager has told to stop and waits for, or is left to be stopped when the manager
  closes. `World.charge` is the register of all these. It has one entry to a key, so
  no two workers for one key run (`Reachable.held`).
-/

namespace LeaseQueue.Managed

variable {s : Setup} {w w' : World} {n m : Nat} {q : Queue} {key : String}

/-! ## Workers go on or end -/

/-- Whoever runs now ran before, for the same queue, and was told to stop now if it was then. -/
def Onward (f f' : Nat → Option Worker) : Prop :=
  ∀ n x', f' n = some x' → ∃ x, f n = some x ∧ x.queue = x'.queue ∧ (x.told = true → x'.told = true)

theorem Onward.refl {f : Nat → Option Worker} : Onward f f := fun _ x h => ⟨x, h, rfl, id⟩

/-- Whoever runs after one worker was put in its place is this worker, or is another one that ran
before. -/
theorem some_of_update {f : Nat → Option Worker} {y : Option Worker} {x : Worker}
    (h : Function.update f m y n = some x) : (n = m ∧ y = some x) ∨ (n ≠ m ∧ f n = some x) := by
  by_cases hn : n = m
  · subst hn
    rw [Function.update_self] at h
    exact .inl ⟨rfl, h⟩
  · rw [Function.update_of_ne hn] at h
    exact .inr ⟨hn, h⟩

theorem onward_rest {f : Nat → Option Worker} {x : Worker} {rest : Program Unit}
    (running : f n = some x) : Onward f (Function.update f n (some { x with rest })) := by
  intro m x' hm
  rcases some_of_update hm with ⟨rfl, he⟩ | ⟨_, hm⟩
  · cases he
    exact ⟨x, running, rfl, id⟩
  · exact ⟨x', hm, rfl, id⟩

theorem onward_ended {f : Nat → Option Worker} : Onward f (Function.update f n none) := by
  intro m x' hm
  rcases some_of_update hm with ⟨_, he⟩ | ⟨_, hm⟩
  · cases he
  · exact ⟨x', hm, rfl, id⟩

theorem onward_tell : Onward w.workers (w.tell n).workers := by
  intro m x' hm
  rcases some_of_update hm with ⟨rfl, he⟩ | ⟨_, hm⟩
  · obtain ⟨x, hx, rfl⟩ := Option.map_eq_some_iff.mp he
    exact ⟨x, hx, rfl, fun _ => rfl⟩
  · exact ⟨x', hm, rfl, id⟩

theorem told_tell {x : Worker} (h : (w.tell n).workers n = some x) : x.told = true := by
  simp only [World.tell, Function.update_self] at h
  obtain ⟨x, _, rfl⟩ := Option.map_eq_some_iff.mp h
  rfl

theorem onward_shutDown {left : Register Nat} : Onward w.workers (w.shutDown left).workers := by
  cases left with
  | nil => exact .refl
  | cons e rest => exact onward_tell

/-- A step spawns a worker for a queue that has none, or workers only go on or end. -/
theorem Move.workers (hm : Move s w w') :
    (Onward w.workers w'.workers ∧ w'.spawned = w.spawned ∧
      ∀ n q, .spawned n q ∈ w'.history ↔ .spawned n q ∈ w.history) ∨
    ∃ q, w.phase = .ready ∧ w.register.lookup q.id = none ∧
      w'.workers = Function.update w.workers w.spawned (some { queue := q, rest := s.program q }) ∧
      w'.spawned = w.spawned + 1 ∧
      ∀ n q', .spawned n q' ∈ w'.history ↔
        (n = w.spawned ∧ q' = q) ∨ .spawned n q' ∈ w.history := by
  have shut : ∀ left : Register Nat, Onward w.workers (w.shutDown left).workers ∧
      (w.shutDown left).spawned = w.spawned ∧
      ∀ n q, .spawned n q ∈ (w.shutDown left).history ↔ .spawned n q ∈ w.history := by
    intro left
    refine ⟨onward_shutDown, ?_, fun n q => ?_⟩ <;> cases left <;> simp [World.shutDown, World.tell]
  cases hm with
  | sends r _ => exact .inl ⟨.refl, rfl, by simp⟩
  | closes => exact .inl ⟨.refl, rfl, by simp⟩
  | tells _ _ _ => exact .inl ⟨.refl, rfl, by simp [World.answered]⟩
  | @spawns q rest ready _ free =>
    exact .inr ⟨q, ready, free, rfl, rfl, by simp [World.answered, World.spawn]⟩
  | stops _ _ _ => exact .inl ⟨onward_tell (w := w), rfl, by simp [World.tell]⟩
  | stopped _ _ => exact .inl ⟨.refl, rfl, by simp [World.answered]⟩
  | shuts _ _ _ => exact .inl (shut _)
  | shutsNext _ _ => exact .inl (shut _)
  | works running => exact .inl ⟨onward_rest running, rfl, by simp [World.worked]⟩
  | turns running => exact .inl ⟨onward_rest running, rfl, by simp⟩
  | ends running => exact .inl ⟨onward_ended, rfl, by simp [World.ended]⟩
  | calls store => exact .inl ⟨.refl, rfl, by simp⟩
  | passes clock => exact .inl ⟨.refl, rfl, by simp⟩

/-! ## Numbers of workers -/

/-- A number that was given to no worker yet has left no trace. -/
theorem Reachable.untraced (h : Reachable s w) (hn : w.spawned ≤ n) :
    w.workers n = none ∧ ∀ q, .spawned n q ∉ w.history := by
  induction h with
  | fresh => exact ⟨rfl, fun _ => List.not_mem_nil⟩
  | step _ hs ih =>
    rcases (move_of_step? hs).workers with ⟨honward, hspawned, hevents⟩ |
      ⟨q, _, _, hworkers, hspawned, hevents⟩
    · obtain ⟨hnone, hno⟩ := ih (hspawned ▸ hn)
      refine ⟨Option.eq_none_iff_forall_ne_some.mpr fun x hx => ?_, fun q => ?_⟩
      · obtain ⟨_, hold, _⟩ := honward n x hx
        rw [hnone] at hold
        cases hold
      · rw [hevents]
        exact hno q
    · rw [hspawned] at hn
      obtain ⟨hnone, hno⟩ := ih (Nat.le_of_succ_le hn)
      have hne : n ≠ _ := Nat.ne_of_gt hn
      refine ⟨by rw [hworkers, Function.update_of_ne hne, hnone], fun q' => ?_⟩
      rw [hevents]
      rintro (⟨he, _⟩ | he)
      · exact hne he
      · exact hno q' he

theorem Reachable.lt_spawned (h : Reachable s w) (hn : .spawned n q ∈ w.history) : n < w.spawned :=
  Nat.lt_of_not_le fun hle => (h.untraced hle).2 q hn

theorem Reachable.spawned_for (h : Reachable s w) :
    (∀ n x, w.workers n = some x → .spawned n x.queue ∈ w.history) ∧
      ∀ n q q', .spawned n q ∈ w.history → .spawned n q' ∈ w.history → q = q' := by
  induction h with
  | fresh => exact ⟨nofun, nofun⟩
  | @step v _ _ hw hs ih =>
    rcases (move_of_step? hs).workers with ⟨honward, _, hevents⟩ | ⟨q, _, _, hworkers, _, hevents⟩
    · simp only [hevents]
      refine ⟨fun n x hx => ?_, ih.2⟩
      obtain ⟨x', hold, hqueue, _⟩ := honward n x hx
      exact hqueue ▸ ih.1 n x' hold
    · simp only [hevents]
      refine ⟨fun n x hx => ?_, fun n q₁ q₂ h₁ h₂ => ?_⟩
      · rw [hworkers] at hx
        rcases some_of_update hx with ⟨rfl, he⟩ | ⟨_, hx⟩
        · cases he
          exact .inl ⟨rfl, rfl⟩
        · exact .inr (ih.1 n x hx)
      · have hnot := fun q => (hw.untraced (Nat.le_refl _)).2 q
        rcases h₁ with ⟨rfl, rfl⟩ | h₁ <;> rcases h₂ with ⟨he, rfl⟩ | h₂
        · rfl
        · exact absurd h₂ (hnot q₂)
        · exact absurd (he ▸ h₁) (hnot q₁)
        · exact ih.2 n q₁ q₂ h₁ h₂

theorem Move.stays_ended (hm : Move s w w') (hn : n < w.spawned)
    (hnone : w.workers n = none) : w'.workers n = none := by
  rcases hm.workers with ⟨honward, _, _⟩ | ⟨q, _, _, hworkers, _, _⟩
  · refine Option.eq_none_iff_forall_ne_some.mpr fun x hx => ?_
    obtain ⟨_, hold, _⟩ := honward n x hx
    rw [hnone] at hold
    cases hold
  · rw [hworkers, Function.update_of_ne (Nat.ne_of_lt hn), hnone]

/-! ## The charge -/

def World.charge (w : World) : Register Nat :=
  match w.phase with
  | .ready => w.register
  | .stopping key n => w.register.enter key n
  | .closing left => left
  | .finished => []

theorem charge_of_ready (ready : w.phase = .ready) : w.charge = w.register := by
  simp [World.charge, ready]

theorem charge_of_stopping (waits : w.phase = .stopping key n) :
    w.charge = w.register.enter key n := by
  simp [World.charge, waits]

theorem charge_shutDown {left : Register Nat} : (w.shutDown left).charge = left := by
  cases left <;> rfl

theorem register_shutDown {left : Register Nat} : (w.shutDown left).register = [] := by
  cases left <;> rfl

/-- What is known of the workers that the manager has charge of. -/
structure Charged (w : World) : Prop where
  register_sorted : w.register.Sorted
  sorted : w.charge.Sorted
  /-- Every worker that runs is one of them. -/
  held : ∀ n x, w.workers n = some x → w.charge.lookup x.queue.id = some n
  /-- A worker that is waited for is not registered any more. -/
  struck : ∀ key n, w.phase = .stopping key n → w.register.lookup key = none

theorem Charged.onward (h : Charged w) (hworkers : Onward w.workers w'.workers)
    (hregister : w'.register = w.register) (hphase : w'.phase = w.phase) : Charged w' := by
  have hcharge : w'.charge = w.charge := by simp only [World.charge, hphase, hregister]
  refine ⟨hregister ▸ h.register_sorted, hcharge ▸ h.sorted, fun n x hx => ?_, ?_⟩
  · obtain ⟨x', hold, hqueue, _⟩ := hworkers n x hx
    rw [hcharge, ← hqueue]
    exact h.held n x' hold
  · rw [hphase, hregister]
    exact h.struck

theorem Charged.spawn (h : Charged w) (ready : w.phase = .ready)
    (free : w.register.lookup q.id = none) : Charged (w.spawn s q) := by
  have hcharge : w.charge = w.register := charge_of_ready ready
  have hcharge' : (w.spawn s q).charge = w.register.enter q.id w.spawned := by
    simp [World.charge, World.spawn, ready]
  refine ⟨h.register_sorted.enter, hcharge' ▸ h.register_sorted.enter, fun n x hx => ?_, ?_⟩
  · rw [hcharge', Register.lookup_enter]
    rcases some_of_update hx with ⟨rfl, he⟩ | ⟨_, hx⟩
    · cases he
      exact if_pos rfl
    · have hheld := h.held n x hx
      rw [hcharge] at hheld
      have hne : x.queue.id ≠ q.id := by
        intro he
        rw [he, free] at hheld
        cases hheld
      rw [if_neg hne]
      exact hheld
  · intro key n hphase
    simp only [World.spawn, ready] at hphase
    cases hphase

theorem Charged.stop (h : Charged w) (ready : w.phase = .ready)
    (found : w.register.lookup key = some n) :
    Charged { w.tell n with register := w.register.strike key, phase := .stopping key n } := by
  have hcharge : w.charge = w.register := charge_of_ready ready
  refine ⟨h.register_sorted.strike, h.register_sorted.strike.enter, fun m x hx => ?_, ?_⟩
  · obtain ⟨x', hold, hqueue, _⟩ := onward_tell m x hx
    have hheld := h.held m x' hold
    rw [hcharge] at hheld
    simp only [World.charge, Register.lookup_enter, Register.lookup_strike, ← hqueue]
    by_cases hk : x'.queue.id = key
    · rw [if_pos hk, ← found, ← hk, hheld]
    · rw [if_neg hk, if_neg hk]
      exact hheld
  · rintro _ _ ⟨⟩
    simp [Register.lookup_strike]

theorem Charged.stopped (h : Charged w) (waits : w.phase = .stopping key n)
    (gone : w.workers n = none) :
    Charged { w with phase := .ready, gauge := w.register.length } := by
  refine ⟨h.register_sorted, h.register_sorted, fun m x hx => ?_, nofun⟩
  have hheld := h.held m x hx
  rw [charge_of_stopping waits, Register.lookup_enter] at hheld
  split at hheld
  · cases hheld
    have hx : w.workers n = some x := hx
    rw [gone] at hx
    cases hx
  · exact hheld

theorem charged_shutDown {left : Register Nat} (hsorted : left.Sorted)
    (hheld : ∀ n x, w.workers n = some x → left.lookup x.queue.id = some n) :
    Charged (w.shutDown left) := by
  refine ⟨register_shutDown ▸ List.Pairwise.nil, charge_shutDown ▸ hsorted, fun n x hx => ?_, ?_⟩
  · obtain ⟨x', hold, hqueue, _⟩ := onward_shutDown n x hx
    rw [charge_shutDown, ← hqueue]
    exact hheld n x' hold
  · intro key n _
    rw [register_shutDown]
    rfl

theorem Charged.move (h : Charged w) (hm : Move s w w') : Charged w' := by
  cases hm with
  | sends r _ => exact h.onward .refl rfl rfl
  | closes => exact h.onward .refl rfl rfl
  | tells _ _ _ => exact h.onward .refl rfl rfl
  | @spawns q rest ready _ free =>
    have hrest : Charged { w with mailbox := rest } := h.onward .refl rfl rfl
    exact (hrest.spawn ready free).onward .refl rfl rfl
  | @stops key n rest ready _ found =>
    have hrest : Charged { w with mailbox := rest } := h.onward .refl rfl rfl
    exact hrest.stop ready found
  | stopped waits gone => exact (h.stopped waits gone).onward .refl rfl rfl
  | shuts ready _ _ =>
    refine charged_shutDown h.register_sorted fun n x hx => ?_
    rw [← charge_of_ready ready]
    exact h.held n x hx
  | @shutsNext key n rest waits gone =>
    have hcharge : w.charge = (key, n) :: rest := by simp [World.charge, waits]
    have hsorted := h.sorted
    rw [hcharge] at hsorted
    refine charged_shutDown (List.pairwise_cons.mp hsorted).2 fun m x hx => ?_
    have hheld := h.held m x hx
    rw [hcharge, Register.lookup_cons] at hheld
    split at hheld
    · cases hheld
      rw [gone] at hx
      cases hx
    · exact hheld
  | works running => exact h.onward (onward_rest running) rfl rfl
  | turns running => exact h.onward (onward_rest running) rfl rfl
  | ends _ => exact h.onward onward_ended rfl rfl
  | calls store => exact h.onward .refl rfl rfl
  | passes clock => exact h.onward .refl rfl rfl

theorem Reachable.charged (h : Reachable s w) : Charged w := by
  induction h with
  | fresh => exact ⟨.nil, .nil, nofun, nofun⟩
  | step _ hs ih => exact ih.move (move_of_step? hs)

/-- No two workers for one key run. -/
theorem Reachable.held (h : Reachable s w) {x y : Worker} (hx : w.workers m = some x)
    (hy : w.workers n = some y) (hkey : x.queue.id = y.queue.id) : m = n := by
  have hm := h.charged.held m x hx
  rw [hkey, h.charged.held n y hy] at hm
  exact (Option.some.inj hm).symm

end LeaseQueue.Managed
