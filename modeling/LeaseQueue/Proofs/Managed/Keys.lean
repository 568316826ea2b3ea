import LeaseQueue.Proofs.Workers

/-
  What a key is to the manager.

  The manager and its workers know a queue by its key alone. What a request about a key
  is told does not depend on requests about other keys (`fitting_about`); a worker is
  told to stop only on a request for the key of its queue, or because the manager
  closes (`Reachable.told_for`); and rows are changed only by a worker for a queue with
  their key, or from outside (`rows_of_step?`).
-/

namespace LeaseQueue

def Manager.Request.key? : Manager.Request → Option String
  | .start q => some q.id
  | .stop key => some key
  | .running => none

namespace Managed

open Manager (Request Reply)

variable {s : Setup} {w w' : World} {key : String}

/-! ## Answers -/

/-- The event is an answer to a request about the key. -/
def Event.about (key : String) (e : Event) : Bool := e.answers?.bind Request.key? = some key

/-- An event says by itself whether the key is started, and is about it then, or changes nothing. -/
theorem started_cons (key : String) (e : Event) :
    (∀ past, started key (e :: past) = started key past) ∨
      (e.about key = true ∧ ∃ now, ∀ past, started key (e :: past) = now) := by
  cases e with
  | answered r reply gauge =>
    match r, reply with
    | .start q, .flag true =>
      by_cases hkey : q.id = key
      · exact .inr ⟨by simp [Event.about, Event.answers?, Request.key?, hkey], true,
          by simp [started, hkey]⟩
      · exact .inl fun past => by simp [started, hkey]
    | .stop k, .flag true =>
      by_cases hkey : k = key
      · exact .inr ⟨by simp [Event.about, Event.answers?, Request.key?, hkey], false,
          by simp [started, hkey]⟩
      · exact .inl fun past => by simp [started, hkey]
    | .start _, .flag false => exact .inl fun _ => rfl
    | .start _, .keys _ => exact .inl fun _ => rfl
    | .stop _, .flag false => exact .inl fun _ => rfl
    | .stop _, .keys _ => exact .inl fun _ => rfl
    | .running, _ => exact .inl fun _ => rfl
  | _ => exact .inl fun _ => rfl

theorem started_about (h : History) : started key (h.filter (Event.about key)) = started key h := by
  induction h with
  | nil => rfl
  | cons e past ih =>
    rcases started_cons key e with hsame | ⟨habout, now, hnow⟩
    · rw [hsame, ← ih, List.filter_cons]
      split
      · exact hsame _
      · rfl
    · rw [List.filter_cons_of_pos habout, hnow, hnow]

/-- What a request about the key is told fits the answers about this key. -/
theorem fitting_about {r : Request} {reply : Reply} {past : History} (hr : r.key? = some key)
    (h : Fitting past r reply) : Fitting (past.filter (Event.about key)) r reply := by
  cases r with
  | start q =>
    cases hr
    simpa only [Fitting, started_about] using h
  | stop k =>
    cases hr
    simpa only [Fitting, started_about] using h
  | running => cases hr

/-! ## Stops -/

theorem Reachable.asked_of_mem_mailbox (h : Reachable s w) {r : Request} (hr : r ∈ w.mailbox) :
    .asked r ∈ w.history := by
  have hasks : r ∈ asks w.history := by
    rw [h.in_turn]
    exact List.mem_append_left _ (List.mem_append_left _ (List.mem_reverse.mpr hr))
  obtain ⟨e, he, hask⟩ := List.mem_filterMap.mp hasks
  cases e with
  | asked r' =>
    cases hask
    exact he
  | _ => cases hask

/-- Whoever is registered, or in charge of the manager otherwise, was spawned for a queue with the
key. -/
def Enlisted (w : World) : Prop :=
  ∀ e, e ∈ w.register ∨ e ∈ w.charge → ∃ q, .spawned e.2 q ∈ w.history ∧ q.id = e.1

theorem Enlisted.grow (h : Enlisted w) (hhistory : w.history <:+ w'.history)
    (hlists : ∀ e, e ∈ w'.register ∨ e ∈ w'.charge → e ∈ w.register ∨ e ∈ w.charge) :
    Enlisted w' := by
  intro e he
  obtain ⟨q, hq, hkey⟩ := h e (hlists e he)
  exact ⟨q, hhistory.subset hq, hkey⟩

theorem Enlisted.move (h : Enlisted w) (hm : Move s w w') : Enlisted w' := by
  have hgrows := hm.grows.1
  have shut : ∀ left : Register Nat, left ⊆ w.charge → ∀ e,
      e ∈ (w.shutDown left).register ∨ e ∈ (w.shutDown left).charge →
        e ∈ w.register ∨ e ∈ w.charge := by
    intro left hleft e he
    rw [register_shutDown, charge_shutDown] at he
    exact .inr (hleft (he.resolve_left List.not_mem_nil))
  cases hm with
  | sends r _ => exact h.grow hgrows fun _ => id
  | closes => exact h.grow hgrows fun _ => id
  | tells _ _ _ => exact h.grow hgrows fun _ => id
  | @spawns q rest ready _ _ =>
    intro e he
    have hcharge :
        (({ w with mailbox := rest }.spawn s q).answered (.start q) (.flag true)).charge =
          w.register.enter q.id w.spawned := by
      simp [World.charge, World.spawn, World.answered, ready]
    have he : e ∈ w.register.enter q.id w.spawned := he.elim id (hcharge ▸ ·)
    rcases Register.mem_enter he with rfl | he
    · exact ⟨q, by simp [World.spawn, World.answered], rfl⟩
    · obtain ⟨p, hp, hkey⟩ := h e (.inl he)
      exact ⟨p, hgrows.subset hp, hkey⟩
  | stops _ _ found =>
    refine h.grow hgrows fun e he => .inl ?_
    rcases he with he | he
    · exact (List.mem_filter.mp he).1
    · rcases Register.mem_enter he with rfl | he
      · exact Register.mem_of_lookup found
      · exact (List.mem_filter.mp he).1
  | stopped _ _ => exact h.grow hgrows fun _ he => .inl (he.elim id id)
  | shuts ready _ _ => exact h.grow hgrows (shut _ (charge_of_ready ready ▸ List.Subset.refl _))
  | shutsNext waits _ =>
    exact h.grow hgrows (shut _ (by simp [World.charge, waits]))
  | works _ => exact h.grow hgrows fun _ => id
  | turns _ => exact h.grow hgrows fun _ => id
  | ends _ => exact h.grow hgrows fun _ => id
  | calls _ => exact h.grow hgrows fun _ => id
  | passes _ => exact h.grow hgrows fun _ => id

theorem Reachable.enlisted (h : Reachable s w) : Enlisted w := by
  induction h with
  | fresh =>
    intro e he
    exact absurd (he.elim id id) List.not_mem_nil
  | step _ hs ih => exact ih.move (move_of_step? hs)

/-- A worker is told to stop on a request for its key, or because the manager closes. -/
theorem Reachable.told_for (h : Reachable s w) {n : Nat} {x : Worker} (hx : w.workers n = some x)
    (htold : x.told = true) : w.closed = true ∨ .asked (.stop x.queue.id) ∈ w.history := by
  induction h generalizing n x with
  | fresh => cases hx
  | @step v v' _ hv hs ih =>
    obtain ⟨hhistory, hclosed⟩ := (move_of_step? hs).grows
    have old : ∀ {m y}, v.workers m = some y → y.told = true →
        v'.closed = true ∨ .asked (.stop y.queue.id) ∈ v'.history := fun hy htold =>
      (ih hy htold).imp hclosed (hhistory.subset ·)
    cases move_of_step? hs with
    | spawns _ _ _ =>
      rcases some_of_update hx with ⟨_, he⟩ | ⟨_, hx⟩
      · cases he
        cases htold
      · exact old hx htold
    | @stops key m rest _ next found =>
      rcases some_of_update hx with ⟨rfl, he⟩ | ⟨_, hx⟩
      · obtain ⟨y, hy, rfl⟩ := Option.map_eq_some_iff.mp he
        obtain ⟨q, hq, rfl⟩ := hv.enlisted _ (.inl (Register.mem_of_lookup found))
        have hqueue : y.queue = q := hv.spawned_for.2 n _ _ (hv.spawned_for.1 n y hy) hq
        refine .inr (hv.asked_of_mem_mailbox ?_)
        rw [next, hqueue]
        exact List.mem_cons_self
      · exact old hx htold
    | shuts _ _ closed => exact .inl (hclosed closed)
    | shutsNext waits _ => exact .inl (hclosed (hv.poised.shut (.inl ⟨_, waits⟩)).2)
    | works running =>
      rcases some_of_update hx with ⟨_, he⟩ | ⟨_, hx⟩
      · cases he
        have hold := old running htold
        exact hold
      · exact old hx htold
    | turns running =>
      rcases some_of_update hx with ⟨_, he⟩ | ⟨_, hx⟩
      · cases he
        have hold := old running htold
        exact hold
      · exact old hx htold
    | ends _ =>
      rcases some_of_update hx with ⟨_, he⟩ | ⟨_, hx⟩
      · cases he
      · exact old hx htold
    | _ => exact old hx htold

/-! ## Rows -/

theorem store_shutDown {left : Register Nat} : (w.shutDown left).store = w.store := by
  cases left <;> rfl

theorem store_carryOut {r : Request} : (w.carryOut s r).store = w.store := by
  unfold World.carryOut
  split <;> rfl

theorem store_manage? (h : w.manage? s = some w') : w'.store = w.store := by
  unfold World.manage? at h
  split at h
  · split at h
    · cases h
      exact store_carryOut
    · split at h
      · cases h
        exact store_shutDown
      · cases h
  · split at h
    · cases h
    · cases h
      rfl
  · split at h
    · cases h
    · cases h
      exact store_shutDown
  · cases h
  · cases h

/-- Rows are changed by a worker for a queue with their key, or by a call on this key. -/
theorem rows_of_step? {a : Action} (h : w.step? s a = some w')
    (hrows : w'.store.rows key ≠ w.store.rows key) :
    (∃ n tag x, a = .work n tag ∧ w.workers n = some x ∧ x.queue.id = key) ∨
      ∃ c, a = .client key c := by
  have other : ∀ {k rows}, w'.store = w.store.setRows k rows → key = k := by
    intro k rows hstore
    by_contra hne
    rw [hstore, Store.rows_setRows, if_neg hne] at hrows
    exact hrows rfl
  have same : w'.store ≠ w.store := fun hstore => hrows (by rw [hstore])
  cases a with
  | work n tag =>
    refine .inl ⟨n, tag, ?_⟩
    simp only [World.step?] at h
    split at h
    · rename_i running
      obtain ⟨a, _, rfl⟩ := Option.map_eq_some_iff.mp h
      exact ⟨_, rfl, running, (other rfl).symm⟩
    · cases h
      exact absurd rfl same
    · cases h
  | fail n error =>
    simp only [World.step?] at h
    split at h
    · -- A call that failed leaves the rows under its key as they were.
      cases h
      rw [World.worked, Store.rows_setRows] at hrows
      split at hrows
      · rename_i hkey
        rw [hkey] at hrows
        exact absurd rfl hrows
      · exact absurd rfl hrows
    · cases h
  | client k c =>
    cases h
    obtain rfl := other rfl
    exact .inr ⟨c, rfl⟩
  | manage => exact absurd (store_manage? h) same
  | send r =>
    simp only [World.step?] at h
    split at h
    · cases h
    · cases h
      exact absurd rfl same
  | close =>
    cases h
    exact absurd rfl same
  | finish n =>
    simp only [World.step?] at h
    split at h
    · cases h
      exact absurd rfl same
    · cases h
      exact absurd rfl same
    · cases h
  | pass d =>
    cases h
    exact absurd rfl same

end Managed

end LeaseQueue
