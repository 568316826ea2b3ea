import LeaseQueue.Client
import LeaseQueue.Repair
import LeaseQueue.Store.Rows
import Mathlib.Logic.Function.Basic

/-
  A queue shared by any number of tasks.

  Each request runs as a task of its own, whose program is the operation that
  serves it. One action of the world lets one task perform one effect, or lets
  a call fail, or lets time pass, so the actions of a run are any interleaving
  of the effects of its tasks. A task that nobody lets act any more has been
  cancelled. The history keeps every effect with its answer, the clock and the
  rows it met, the latest first: it is what the statements about a run speak
  of, and no program can read it.
-/

namespace LeaseQueue.Shared

/-- What is asked of the queue: by publishers, readers, consumers, and repair. -/
inductive Request where
  | put (blob : Blob) (delay : Duration)
  | receive (scanLimit : Nat) (hide : Duration)
  | ack (receipt : Receipt)
  | update (receipt : Receipt) (blob : Blob) (hide : Duration)
  | tick (cfg : Repair.Config)
  | drop
  deriving DecidableEq, Repr

inductive Reply where
  | index (n : UInt64)
  | delivery (d : Option Delivery)
  | acked (done : Bool)
  | updated (receipt : Option Receipt)
  | ticked (tick : Repair.Tick)
  | dropped
  deriving DecidableEq, Repr

abbrev Result := Except Fault Reply

def Request.op (q : Queue) : Request → Op Reply
  | .put blob delay => Reply.index <$> q.put blob delay
  | .receive scanLimit hide => Reply.delivery <$> q.receive scanLimit hide
  | .ack r => Reply.acked <$> q.ack r
  | .update r blob hide => Reply.updated <$> q.update r blob hide
  | .tick cfg => Reply.ticked <$> Repair.tick q cfg
  | .drop => (fun _ => Reply.dropped) <$> Queue.drop

/-- An effect that was performed, and its answer. -/
structure Seen where
  effect : Effect
  answer : effect.Answer

/-- One thing that happened. -/
inductive Event where
  | started (task : Nat) (request : Request)
  /-- The task performed an effect at the given clock, on the given rows. -/
  | performed (task : Nat) (clock : Instant) (rows : Rows) (seen : Seen)
  | ended (task : Nat) (result : Result)

/-- What happened, the latest first. -/
abbrev History := List Event

/-- What a task has seen, the latest first. -/
def seenBy (task : Nat) : History → List Seen
  | [] => []
  | .performed t _ _ s :: past => if t = task then s :: seenBy task past else seenBy task past
  | .started _ _ :: past => seenBy task past
  | .ended _ _ :: past => seenBy task past

structure Task where
  request : Request
  /-- What is left to do. -/
  rest : Program Result

/-- The rows of the queue, the clock, and the tasks. -/
structure World where
  rows : Rows := {}
  clock : Instant := 0
  tasks : Nat → Option Task := fun _ => none
  /-- How many tasks were started; the next one gets this number. -/
  started : Nat := 0
  history : History := []

inductive Action where
  | start (request : Request)
  /-- Lets time pass. -/
  | pass (d : Duration)
  /-- Lets a task take its next step; a tag is drawn for it if it asks for one. -/
  | act (task : Nat) (tag : Tag)
  /-- Lets the next call of a task fail. -/
  | fail (task : Nat) (error : StorageError)
  /-- Takes the result of a task that is done. -/
  | finish (task : Nat)
  deriving DecidableEq, Repr

/-- The answer to an effect, and the rows it leaves; `none` while it has to wait. -/
def answer? (rows : Rows) (clock : Instant) (tag : Tag) : (e : Effect) → Option (e.Answer × Rows)
  | .call c => some (.ok (rows.apply c).1, (rows.apply c).2)
  | .send _ => some ((), rows)
  | .now => some (clock, rows)
  | .sleepUntil wake => if wake ≤ clock then some ((), rows) else none
  | .drawTag => some (tag, rows)
  | .tally _ => some ((), rows)

namespace World

def performed (w : World) (task : Nat) (request : Request) (seen : Seen) (rows : Rows)
    (rest : Program Result) : World :=
  { w with
    rows
    tasks := Function.update w.tasks task (some ⟨request, rest⟩)
    history := .performed task w.clock w.rows seen :: w.history }

/-- The world after an action; `none` where the action cannot happen. -/
def step? (q : Queue) (w : World) : Action → Option World
  | .start request =>
    some { w with
      tasks := Function.update w.tasks w.started (some ⟨request, (request.op q).run⟩)
      started := w.started + 1
      history := .started w.started request :: w.history }
  | .pass d => some { w with clock := w.clock + d }
  | .act task tag =>
    match w.tasks task with
    | some ⟨request, .effect e k⟩ =>
      (answer? w.rows w.clock tag e).map fun a => w.performed task request ⟨e, a.1⟩ a.2 (k a.1)
    | some ⟨request, .loop body start k⟩ =>
      some { w with
        tasks := Function.update w.tasks task (some ⟨request, Program.unroll body start k⟩) }
    | _ => none
  | .fail task error =>
    match w.tasks task with
    | some ⟨request, .effect (.call c) k⟩ =>
      some (w.performed task request ⟨.call c, .error error⟩ w.rows (k (.error error)))
    | _ => none
  | .finish task =>
    match w.tasks task with
    | some ⟨_, .done result⟩ =>
      some { w with
        tasks := Function.update w.tasks task none
        history := .ended task result :: w.history }
    | _ => none

def run? (q : Queue) : List Action → World → Option World
  | [], w => some w
  | a :: rest, w => (w.step? q a).bind (run? q rest)

/-- The world after several actions, each of which was checked. -/
def runIf? (q : Queue) (ok : World → Action → Bool) : List Action → World → Option World
  | [], w => some w
  | a :: rest, w => if ok w a then (w.step? q a).bind (runIf? q ok rest) else none

end World

/-- What may happen in a run, by the world it happens in. -/
abbrev Rule := World → Action → Prop

/-- The worlds that runs of a fresh queue come to, where each action follows the rule. -/
inductive Reachable (q : Queue) (rule : Rule) : World → Prop where
  | fresh : Reachable q rule {}
  | step {w w' : World} {a : Action} :
    Reachable q rule w → rule w a → w.step? q a = some w' → Reachable q rule w'

def Undropped : Rule := fun _ a => a ≠ .start .drop

/-- The receipt was handed out: with a delivery, or as the new receipt of a message that was given
another payload. -/
def Issued (h : History) (r : Receipt) : Prop :=
  (∃ t d, .ended t (.ok (.delivery (some d))) ∈ h ∧ d.receipt = r) ∨
    ∃ t, .ended t (.ok (.updated (some r))) ∈ h

/-- Nobody drops the queue, and consumers present only receipts that were handed out. -/
def Honest : Rule
  | _, .start .drop => False
  | w, .start (.ack r) => Issued w.history r
  | w, .start (.update r _ _) => Issued w.history r
  | _, _ => True

theorem undropped_of_honest {w : World} {a : Action} (h : Honest w a) : Undropped w a := by
  rintro rfl
  exact h

theorem Issued.mono {past h : History} {r : Receipt} (hr : Issued past r) (hs : past <:+ h) :
    Issued h r := by
  rcases hr with ⟨t, d, he, rfl⟩ | ⟨t, he⟩
  · exact .inl ⟨t, d, hs.subset he, rfl⟩
  · exact .inr ⟨t, hs.subset he⟩

def singles : Queue := ⟨"account", "queue", 1, 1, none, by decide, by decide⟩

def pairs : Queue := ⟨"account", "queue", 1, 2, none, by decide, by decide⟩

/-- A request that is served without a break, in so many steps. -/
def serve (task : Nat) (request : Request) (steps : Nat) : List Action :=
  .start request :: (List.replicate steps (.act task ⟨7⟩) ++ [.finish task])

theorem Reachable.mono {q : Queue} {rule rule' : Rule} (hr : ∀ w a, rule w a → rule' w a)
    {w : World} (h : Reachable q rule w) : Reachable q rule' w := by
  induction h with
  | fresh => exact .fresh
  | step _ ha hs ih => exact .step ih (hr _ _ ha) hs

/-- A run whose actions follow the rule wherever they happen. -/
theorem Reachable.run {q : Queue} {rule : Rule} {actions : List Action}
    (ha : ∀ a ∈ actions, ∀ w, rule w a) {w w' : World} (h : Reachable q rule w)
    (hw : w.run? q actions = some w') : Reachable q rule w' := by
  induction actions generalizing w with
  | nil =>
    cases hw
    exact h
  | cons a rest ih =>
    obtain ⟨v, hv, hrest⟩ := Option.bind_eq_some_iff.mp hw
    exact ih (fun b hb => ha b (List.mem_cons_of_mem a hb))
      (h.step (ha a List.mem_cons_self w) hv) hrest

/-- A run whose actions were checked against the rule. -/
theorem Reachable.runIf {q : Queue} {rule : Rule} {ok : World → Action → Bool}
    (hok : ∀ w a, Reachable q rule w → ok w a = true → rule w a) {actions : List Action}
    {w w' : World} (h : Reachable q rule w) (hw : w.runIf? q ok actions = some w') :
    Reachable q rule w' := by
  induction actions generalizing w with
  | nil =>
    cases hw
    exact h
  | cons a rest ih =>
    simp only [World.runIf?] at hw
    split at hw
    · rename_i ha
      obtain ⟨v, hv, hrest⟩ := Option.bind_eq_some_iff.mp hw
      exact ih (h.step (hok w a h ha) hv) hrest
    · cases hw

end LeaseQueue.Shared
