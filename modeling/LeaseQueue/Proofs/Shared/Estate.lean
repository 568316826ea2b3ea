import LeaseQueue.Proofs.Shared.History

/-
  Queues of several tenants on one store.

  Each queue is used as in `World`, by tasks of its own. All of them share the clock
  and the store, in which the rows of a queue stand under its key. What is done on
  queues with other keys leaves no trace:

    1. a run goes through without it, and whoever uses the key finds everything the
       same (`Estate.Same.run`);
    2. a queue that has its key to itself is used as in a world of its own
       (`Estate.view_run`), so what holds of every such world holds of it.
-/

namespace LeaseQueue.Shared

/-- What is done on a queue. -/
structure Desk where
  tasks : Nat → Option Task := fun _ => none
  started : Nat := 0
  history : History := []

/-- The store of all queues, the clock, and what is done on each queue. -/
structure Estate where
  store : Store := []
  clock : Instant := 0
  desks : Queue → Desk := fun _ => {}

structure Deed where
  queue : Queue
  action : Action
  deriving DecidableEq, Repr

/-- Whoever uses the rows under the key can tell that the action happened: time passes, or it is an
action on a queue with this key. -/
def Deed.concerns (key : String) : Deed → Bool
  | ⟨_, .pass _⟩ => true
  | ⟨q, _⟩ => q.id = key

namespace Estate

/-- What is there for the tasks of a queue: the rows under its key. -/
def view (e : Estate) (q : Queue) : World where
  rows := e.store.rows q.id
  clock := e.clock
  tasks := (e.desks q).tasks
  started := (e.desks q).started
  history := (e.desks q).history

/-- The estate with another world for a queue, whose rows are put under its key. -/
def put (e : Estate) (q : Queue) (w : World) : Estate where
  store := e.store.setRows q.id w.rows
  clock := w.clock
  desks := Function.update e.desks q ⟨w.tasks, w.started, w.history⟩

/-- The estate after an action on a queue; `none` where the action cannot happen. -/
def step? (e : Estate) (d : Deed) : Option Estate :=
  ((e.view d.queue).step? d.queue d.action).map (e.put d.queue)

def run? : List Deed → Estate → Option Estate
  | [], e => some e
  | d :: rest, e => (e.step? d).bind (run? rest)

variable {e e' f : Estate} {d : Deed} {deeds : List Deed} {key : String} {q : Queue} {w v : World}

/-- Two estates are the same to whoever uses the rows under the key. -/
structure Same (key : String) (e f : Estate) : Prop where
  clock : e.clock = f.clock
  rows : e.store.rows key = f.store.rows key
  desks : ∀ q, q.id = key → e.desks q = f.desks q

theorem Same.refl : Same key e e := ⟨rfl, rfl, fun _ _ => rfl⟩

theorem Same.trans {g : Estate} (h : Same key e f) (h' : Same key f g) : Same key e g :=
  ⟨h.clock.trans h'.clock, h.rows.trans h'.rows,
    fun q hq => (h.desks q hq).trans (h'.desks q hq)⟩

theorem Same.view (h : Same key e f) (hq : q.id = key) : e.view q = f.view q := by
  simp only [Estate.view, hq, h.clock, h.rows, h.desks q hq]

/-- A queue with another key can come to any world, as long as the clock is the same. -/
theorem Same.put (h : Same key e f) (hclock : w.clock = v.clock) (hown : q.id = key → w = v) :
    Same key (e.put q w) (f.put q v) := by
  refine ⟨hclock, ?_, fun p hp => ?_⟩
  · simp only [Estate.put, Store.rows_setRows]
    split
    · rename_i hkey
      rw [hown hkey.symm]
    · exact h.rows
  · simp only [Estate.put]
    by_cases hpq : p = q
    · subst hpq
      rw [Function.update_self, Function.update_self, hown hp]
    · rw [Function.update_of_ne hpq, Function.update_of_ne hpq, h.desks p hp]

theorem same_put_other (hq : q.id ≠ key) (hclock : w.clock = e.clock) : Same key (e.put q w) e := by
  refine ⟨hclock, ?_, fun p hp => ?_⟩
  · simp only [Estate.put, Store.rows_setRows]
    rw [if_neg (Ne.symm hq)]
  · simp only [Estate.put]
    refine Function.update_of_ne ?_ _ _
    rintro rfl
    exact hq hp

theorem view_put : (e.put q w).view q = w := by
  simp [view, put, Store.rows_setRows]

theorem view_put_clock {p : Queue} {c : Instant} :
    (e.put p { e.view p with clock := c }).view q = { e.view q with clock := c } := by
  have hrows : (e.store.setRows p.id (e.store.rows p.id)).rows q.id = e.store.rows q.id := by
    rw [Store.rows_setRows]
    split
    · rename_i hkey
      rw [hkey]
    · rfl
  simp [view, put, hrows]

theorem Same.step (h : Same key e f) (hd : d.concerns key = true) (hs : e.step? d = some e') :
    ∃ f', f.step? d = some f' ∧ Same key e' f' := by
  obtain ⟨w, hw, rfl⟩ := Option.map_eq_some_iff.mp hs
  obtain ⟨q, a⟩ := d
  cases a with
  | pass span =>
    cases hw
    refine ⟨_, rfl, h.put ?_ fun hq => ?_⟩
    · exact congrArg (· + span) h.clock
    · rw [h.view hq]
  | _ =>
    have hq : q.id = key := by simpa [Deed.concerns] using hd
    exact ⟨f.put q w, by rw [step?, ← h.view hq, hw, Option.map_some], h.put rfl fun _ => rfl⟩

theorem clock_step? {a : Action} (ha : ∀ span, a ≠ .pass span) (h : w.step? q a = some v) :
    v.clock = w.clock := by
  cases move_of_step? h with
  | passes span => exact absurd rfl (ha span)
  | _ => rfl

theorem same_of_other (hd : d.concerns key = false) (hs : e.step? d = some e') : Same key e' e := by
  obtain ⟨w, hw, rfl⟩ := Option.map_eq_some_iff.mp hs
  obtain ⟨q, a⟩ := d
  have ha : ∀ span, a ≠ .pass span := by
    rintro span rfl
    cases hd
  refine same_put_other ?_ (clock_step? ha hw)
  cases a with
  | pass span => cases hd
  | _ => simpa [Deed.concerns] using hd

/-- A run goes through without the actions that do not concern the key, and comes to what is the
same for it. -/
theorem Same.run (h : Same key e f) (hr : e.run? deeds = some e') :
    ∃ f', f.run? (deeds.filter (Deed.concerns key)) = some f' ∧ Same key e' f' := by
  induction deeds generalizing e f with
  | nil =>
    cases hr
    exact ⟨f, rfl, h⟩
  | cons d rest ih =>
    obtain ⟨e₁, hs, hrest⟩ := Option.bind_eq_some_iff.mp hr
    cases hd : d.concerns key with
    | true =>
      obtain ⟨f₁, hs', h₁⟩ := h.step hd hs
      obtain ⟨f', hr', h'⟩ := ih h₁ hrest
      refine ⟨f', ?_, h'⟩
      rw [List.filter_cons_of_pos hd, run?, hs', Option.bind_some, hr']
    | false =>
      obtain ⟨f', hr', h'⟩ := ih ((same_of_other hd hs).trans h) hrest
      exact ⟨f', by rw [List.filter_cons_of_neg (by simp [hd]), hr'], h'⟩

/-! ## A queue that has its key to itself -/

def actionsFor (key : String) (deeds : List Deed) : List Action :=
  (deeds.filter (Deed.concerns key)).map Deed.action

theorem view_step (hd : d.concerns q.id = true) (hown : d.queue.id = q.id → d.queue = q)
    (hs : e.step? d = some e') : (e.view q).step? q d.action = some (e'.view q) := by
  obtain ⟨w, hw, rfl⟩ := Option.map_eq_some_iff.mp hs
  obtain ⟨p, a⟩ := d
  cases a with
  | pass span =>
    cases hw
    rw [view_put_clock]
    rfl
  | _ =>
    obtain rfl : p = q := hown (by simpa [Deed.concerns] using hd)
    rw [view_put]
    exact hw

/-- A queue that has its key to itself is used as in a world of its own. -/
theorem view_run (hown : ∀ d ∈ deeds, d.queue.id = q.id → d.queue = q)
    (hr : e.run? deeds = some e') :
    (e.view q).run? q (actionsFor q.id deeds) = some (e'.view q) := by
  induction deeds generalizing e with
  | nil =>
    cases hr
    rfl
  | cons d rest ih =>
    obtain ⟨e₁, hs, hrest⟩ := Option.bind_eq_some_iff.mp hr
    have hrun := ih (fun d hd => hown d (List.mem_cons_of_mem _ hd)) hrest
    cases hd : d.concerns q.id with
    | true =>
      have hstep := view_step hd (hown d List.mem_cons_self) hs
      rw [actionsFor, List.filter_cons_of_pos hd, List.map_cons, World.run?, hstep]
      exact hrun
    | false =>
      rw [(same_of_other hd hs).view rfl] at hrun
      rw [actionsFor, List.filter_cons_of_neg (by simp [hd])]
      exact hrun

end Estate

end LeaseQueue.Shared
