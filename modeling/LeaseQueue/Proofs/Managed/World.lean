import LeaseQueue.Manager
import LeaseQueue.Retry
import LeaseQueue.Proofs.Shared.World

/-
  The manager of repair workers among its workers and other clients of the store.

  Requests wait in a mailbox, and the manager takes one after the other. It waits
  for the end of each worker that it tells to stop, and meanwhile takes no other
  request. A worker runs on its own from when it is spawned, one effect at a time;
  once it was told to stop it may end wherever it is, and it may also go on for a
  while. When the mailbox is closed and empty, the manager stops all that is left.
-/

namespace LeaseQueue.Managed

open Manager (Request Reply judge)
open Shared (Seen answer?)

/-- How a manager runs its workers. -/
structure Setup where
  cfg : Repair.Config := {}
  /-- The way from a worker to the store. -/
  route : Route := {}

def Setup.program (s : Setup) (q : Queue) : Program Unit := s.route.apply (Repair.worker q s.cfg)

/-- A worker that was spawned and has not ended. -/
structure Worker where
  queue : Queue
  /-- It was told to stop. -/
  told : Bool := false
  /-- What is left to do. -/
  rest : Program Unit

inductive Phase where
  | ready
  /-- It waits for the end of the worker that was under the key. -/
  | stopping (key : String) (worker : Nat)
  /-- It stops these workers, one after the other, and waits for the end of the first. -/
  | closing (left : Register Nat)
  | finished

inductive Event where
  | asked (r : Request)
  | spawned (worker : Nat) (q : Queue)
  | worked (worker : Nat) (seen : Seen)
  | ended (worker : Nat)
  /-- The request was answered, and the gauge of running workers then stood at the number. -/
  | answered (r : Request) (reply : Reply) (gauge : Nat)
  | finished (gauge : Nat)

/-- What happened, the latest first. -/
abbrev History := List Event

/-- The store, the manager, and its workers. -/
structure World where
  store : Store := []
  clock : Instant := 0
  workers : Nat → Option Worker := fun _ => none
  /-- How many workers were spawned; the next one gets this number. -/
  spawned : Nat := 0
  register : Register Nat := []
  phase : Phase := .ready
  /-- Requests that wait, the oldest first. -/
  mailbox : List Request := []
  /-- Nobody can send to the mailbox any more. -/
  closed : Bool := false
  /-- The gauge of running workers. -/
  gauge : Nat := 0
  history : History := []

inductive Action where
  | send (r : Request)
  /-- Drops the last sender of the mailbox. -/
  | close
  /-- Lets the manager take its next step. -/
  | manage
  /-- Lets a worker take its next step; a tag is drawn for it if it asks for one. -/
  | work (worker : Nat) (tag : Tag)
  /-- Lets the next call of a worker fail. -/
  | fail (worker : Nat) (error : StorageError)
  /-- Lets a worker end that was told to stop, or has nothing left to do. -/
  | finish (worker : Nat)
  /-- Another client makes a storage call. -/
  | client (key : String) (c : Call)
  /-- Lets time pass. -/
  | pass (d : Duration)

namespace World

def answered (w : World) (r : Request) (reply : Reply) : World :=
  { w with history := .answered r reply w.gauge :: w.history }

def tell (w : World) (n : Nat) : World :=
  let told := (w.workers n).map fun x => { x with told := true }
  { w with workers := Function.update w.workers n told }

def spawn (s : Setup) (w : World) (q : Queue) : World :=
  { w with
    workers := Function.update w.workers w.spawned (some { queue := q, rest := s.program q })
    spawned := w.spawned + 1
    register := w.register.enter q.id w.spawned
    gauge := (w.register.enter q.id w.spawned).length
    history := .spawned w.spawned q :: w.history }

def carryOut (s : Setup) (w : World) (r : Request) : World :=
  match judge w.register r with
  | .tells reply => w.answered r reply
  | .spawns q => (w.spawn s q).answered r (.flag true)
  | .stops key n =>
    { w.tell n with register := w.register.strike key, phase := .stopping key n }

/-- The manager goes on to stop these workers; it is over when there are none. -/
def shutDown (w : World) (left : Register Nat) : World :=
  match left with
  | [] =>
    { w with register := [], phase := .finished, gauge := 0, history := .finished 0 :: w.history }
  | (_, n) :: _ => { w.tell n with register := [], phase := .closing left }

/-- The next step of the manager; `none` while it has to wait. -/
def manage? (s : Setup) (w : World) : Option World :=
  match w.phase with
  | .ready =>
    match w.mailbox with
    | r :: rest => some ({ w with mailbox := rest }.carryOut s r)
    | [] => if w.closed then some (w.shutDown w.register) else none
  | .stopping key n =>
    match w.workers n with
    | some _ => none
    | none =>
      some ({ w with phase := .ready, gauge := w.register.length }.answered (.stop key)
        (.flag true))
  | .closing ((_, n) :: rest) =>
    match w.workers n with
    | some _ => none
    | none => some (w.shutDown rest)
  | .closing [] => none
  | .finished => none

def worked (w : World) (n : Nat) (x : Worker) (seen : Seen) (rows : Rows) (rest : Program Unit) :
    World :=
  { w with
    store := w.store.setRows x.queue.id rows
    workers := Function.update w.workers n (some { x with rest })
    history := .worked n seen :: w.history }

def ended (w : World) (n : Nat) : World :=
  { w with workers := Function.update w.workers n none, history := .ended n :: w.history }

/-- The world after an action; `none` where the action cannot happen. -/
def step? (s : Setup) (w : World) : Action → Option World
  | .send r =>
    if w.closed then none
    else some { w with mailbox := w.mailbox ++ [r], history := .asked r :: w.history }
  | .close => some { w with closed := true }
  | .manage => w.manage? s
  | .work n tag =>
    match w.workers n with
    | some ⟨q, told, .effect e k⟩ =>
      (answer? (w.store.rows q.id) w.clock tag e).map fun a =>
        w.worked n ⟨q, told, .effect e k⟩ ⟨e, a.1⟩ a.2 (k a.1)
    | some ⟨q, told, .loop body start k⟩ =>
      some { w with
        workers := Function.update w.workers n (some ⟨q, told, Program.unroll body start k⟩) }
    | _ => none
  | .fail n error =>
    match w.workers n with
    | some ⟨q, told, .effect (.call c) k⟩ =>
      some (w.worked n ⟨q, told, .effect (.call c) k⟩ ⟨.call c, .error error⟩ (w.store.rows q.id)
        (k (.error error)))
    | _ => none
  | .finish n =>
    match w.workers n with
    | some ⟨_, true, _⟩ => some (w.ended n)
    | some ⟨_, false, .done _⟩ => some (w.ended n)
    | _ => none
  | .client key c => some { w with store := w.store.setRows key ((w.store.rows key).apply c).2 }
  | .pass d => some { w with clock := w.clock + d }

def run? (s : Setup) : List Action → World → Option World
  | [], w => some w
  | a :: rest, w => (w.step? s a).bind (run? s rest)

end World

/-- The worlds that runs of a fresh manager come to. -/
inductive Reachable (s : Setup) : World → Prop where
  | fresh : Reachable s {}
  | step {w w' : World} {a : Action} : Reachable s w → w.step? s a = some w' → Reachable s w'

theorem Reachable.run {s : Setup} {actions : List Action} {w w' : World} (h : Reachable s w)
    (hw : w.run? s actions = some w') : Reachable s w' := by
  induction actions generalizing w with
  | nil =>
    cases hw
    exact h
  | cons a rest ih =>
    obtain ⟨v, hv, hrest⟩ := Option.bind_eq_some_iff.mp hw
    exact ih (h.step hv) hrest

/-! ## Steps -/

inductive Move (s : Setup) (w : World) : World → Prop where
  | sends (r : Request) (isOpen : w.closed = false) :
    Move s w { w with mailbox := w.mailbox ++ [r], history := .asked r :: w.history }
  | closes : Move s w { w with closed := true }
  | tells {r : Request} {rest : List Request} {reply : Reply} (ready : w.phase = .ready)
    (next : w.mailbox = r :: rest) (judged : judge w.register r = .tells reply) :
    Move s w ({ w with mailbox := rest }.answered r reply)
  | spawns {q : Queue} {rest : List Request} (ready : w.phase = .ready)
    (next : w.mailbox = .start q :: rest) (free : w.register.lookup q.id = none) :
    Move s w (({ w with mailbox := rest }.spawn s q).answered (.start q) (.flag true))
  | stops {key : String} {n : Nat} {rest : List Request} (ready : w.phase = .ready)
    (next : w.mailbox = .stop key :: rest) (found : w.register.lookup key = some n) :
    Move s w { { w with mailbox := rest }.tell n with
      register := w.register.strike key
      phase := .stopping key n }
  | stopped {key : String} {n : Nat} (waits : w.phase = .stopping key n)
    (gone : w.workers n = none) :
    Move s w ({ w with phase := .ready, gauge := w.register.length }.answered (.stop key)
      (.flag true))
  | shuts (ready : w.phase = .ready) (empty : w.mailbox = []) (closed : w.closed = true) :
    Move s w (w.shutDown w.register)
  | shutsNext {key : String} {n : Nat} {rest : Register Nat}
    (waits : w.phase = .closing ((key, n) :: rest)) (gone : w.workers n = none) :
    Move s w (w.shutDown rest)
  | works {n : Nat} {x : Worker} {seen : Seen} {rows : Rows} {rest : Program Unit}
    (running : w.workers n = some x) :
    Move s w (w.worked n x seen rows rest)
  | turns {n : Nat} {x : Worker} {rest : Program Unit} (running : w.workers n = some x) :
    Move s w { w with workers := Function.update w.workers n (some { x with rest }) }
  | ends {n : Nat} {x : Worker} (running : w.workers n = some x) :
    Move s w (w.ended n)
  | calls (store : Store) : Move s w { w with store }
  | passes (clock : Instant) : Move s w { w with clock }

variable {s : Setup} {w w' : World} {a : Action}

theorem move_of_carryOut {r : Request} {rest : List Request} (ready : w.phase = .ready)
    (next : w.mailbox = r :: rest) : Move s w ({ w with mailbox := rest }.carryOut s r) := by
  cases r with
  | start q =>
    cases hfound : w.register.lookup q.id with
    | none =>
      simp only [World.carryOut, judge, hfound]
      exact .spawns ready next hfound
    | some n =>
      simp only [World.carryOut, judge, hfound]
      exact .tells ready next (by simp [judge, hfound])
  | stop key =>
    cases hfound : w.register.lookup key with
    | none =>
      simp only [World.carryOut, judge, hfound]
      exact .tells ready next (by simp [judge, hfound])
    | some n =>
      simp only [World.carryOut, judge, hfound]
      exact .stops ready next hfound
  | running => exact .tells ready next rfl

theorem move_of_manage? (h : w.manage? s = some w') : Move s w w' := by
  unfold World.manage? at h
  split at h
  · rename_i ready
    split at h
    · rename_i r rest next
      cases h
      exact move_of_carryOut ready next
    · rename_i empty
      split at h
      · rename_i closed
        cases h
        exact .shuts ready empty closed
      · cases h
  · rename_i waits
    split at h
    · cases h
    · rename_i gone
      cases h
      exact .stopped waits gone
  · rename_i waits
    split at h
    · cases h
    · rename_i gone
      cases h
      exact .shutsNext waits gone
  · cases h
  · cases h

theorem move_of_step? (h : w.step? s a = some w') : Move s w w' := by
  cases a with
  | send r =>
    simp only [World.step?] at h
    split at h
    · cases h
    · rename_i hopen
      cases h
      exact .sends r (Bool.eq_false_iff.mpr hopen)
  | close =>
    cases h
    exact .closes
  | manage => exact move_of_manage? h
  | work n tag =>
    simp only [World.step?] at h
    split at h
    · rename_i running
      obtain ⟨⟨answer, rows⟩, _, rfl⟩ := Option.map_eq_some_iff.mp h
      exact .works running
    · rename_i q told _ _ body start k running
      cases h
      exact .turns (x := ⟨q, told, .loop body start k⟩) running
    · cases h
  | fail n error =>
    simp only [World.step?] at h
    split at h
    · rename_i running
      cases h
      exact .works running
    · cases h
  | finish n =>
    simp only [World.step?] at h
    split at h
    · rename_i running
      cases h
      exact .ends running
    · rename_i running
      cases h
      exact .ends running
    · cases h
  | client key c =>
    cases h
    exact .calls _
  | pass d =>
    cases h
    exact .passes _

/-- What happened stays in the history, and a mailbox that is closed stays so. -/
theorem Move.grows (hm : Move s w w') :
    w.history <:+ w'.history ∧ (w.closed = true → w'.closed = true) := by
  have shut : ∀ left : Register Nat, w.history <:+ (w.shutDown left).history ∧
      (w.closed = true → (w.shutDown left).closed = true) := by
    intro left
    cases left with
    | nil => exact ⟨List.suffix_cons _ _, id⟩
    | cons e rest => exact ⟨List.suffix_refl _, id⟩
  cases hm with
  | sends r _ => exact ⟨List.suffix_cons _ _, id⟩
  | closes => exact ⟨List.suffix_refl _, fun _ => rfl⟩
  | tells _ _ _ => exact ⟨List.suffix_cons _ _, id⟩
  | spawns _ _ _ => exact ⟨(List.suffix_cons _ _).trans (List.suffix_cons _ _), id⟩
  | stops _ _ _ => exact ⟨List.suffix_refl _, id⟩
  | stopped _ _ => exact ⟨List.suffix_cons _ _, id⟩
  | shuts _ _ _ => exact shut _
  | shutsNext _ _ => exact shut _
  | works _ => exact ⟨List.suffix_cons _ _, id⟩
  | turns _ => exact ⟨List.suffix_refl _, id⟩
  | ends _ => exact ⟨List.suffix_cons _ _, id⟩
  | calls _ => exact ⟨List.suffix_refl _, id⟩
  | passes _ => exact ⟨List.suffix_refl _, id⟩

/-- What a step adds to the history, and on what grounds. -/
inductive Adds (w w' : World) : Event → History → Prop where
  | asked {r : Request} : Adds w w' (.asked r) w.history
  | spawned {q : Queue} : Adds w w' (.spawned w.spawned q) w.history
  | worked {n : Nat} {x : Worker} {seen : Seen} (running : w.workers n = some x) :
    Adds w w' (.worked n seen) w.history
  | ended {n : Nat} : Adds w w' (.ended n) w.history
  | told {r : Request} {reply : Reply} {gauge : Nat} (judged : judge w.register r = .tells reply) :
    Adds w w' (.answered r reply gauge) w.history
  | granted {q : Queue} {gauge : Nat} :
    Adds w w' (.answered (.start q) (.flag true) gauge) (.spawned w.spawned q :: w.history)
  | stopped {key : String} {n gauge : Nat} (waits : w.phase = .stopping key n)
    (gone : w.workers n = none) : Adds w w' (.answered (.stop key) (.flag true) gauge) w.history
  | finished (atEnd : w'.phase = .finished) (zero : w'.gauge = 0) :
    Adds w w' (.finished 0) w.history

theorem Move.adds (hm : Move s w w') {e : Event} {past : History} (hs : e :: past <:+ w'.history) :
    e :: past <:+ w.history ∨ Adds w w' e past := by
  have first : ∀ {e' : Event}, e :: past <:+ e' :: w.history → Adds w w' e' w.history →
      e :: past <:+ w.history ∨ Adds w w' e past := by
    intro e' hs hadds
    rcases List.suffix_cons_iff.mp hs with he | hs
    · cases he
      exact .inr hadds
    · exact .inl hs
  have shut : ∀ left : Register Nat, w' = w.shutDown left →
      e :: past <:+ w.history ∨ Adds w w' e past := by
    rintro left rfl
    cases left with
    | nil => exact first hs (.finished rfl rfl)
    | cons e rest => exact .inl hs
  cases hm with
  | sends r _ => exact first hs .asked
  | closes => exact .inl hs
  | tells _ _ judged => exact first hs (.told judged)
  | spawns _ _ _ =>
    rcases List.suffix_cons_iff.mp hs with he | hs
    · cases he
      exact .inr .granted
    · exact first hs .spawned
  | stops _ _ _ => exact .inl hs
  | stopped waits gone => exact first hs (.stopped waits gone)
  | shuts _ _ _ => exact shut _ rfl
  | shutsNext _ _ => exact shut _ rfl
  | works running => exact first hs (.worked running)
  | turns _ => exact .inl hs
  | ends _ => exact first hs .ended
  | calls _ => exact .inl hs
  | passes _ => exact .inl hs

end LeaseQueue.Managed
