import LeaseQueue.Manager
import LeaseQueue.Simulation.Machine

/-
  The machine together with the workers that sleep in the background.

  A worker is woken when its instant comes and runs until it next has to wait;
  time passes for everyone from one waking to the next. A worker is meant to come
  back to waiting for ever. One that ends, or that runs on without a wait, has broken
  down, and the world with it.
-/

namespace LeaseQueue.Simulation

/-- A program that waits for its instant. -/
structure Sleeper where
  wake : Instant
  rest : Program Unit

/-- The machine and its workers, each under the key of the rows it works on. -/
structure World where
  machine : Machine
  workers : Register Sleeper
  /-- Some worker has ended, or some program has made no end. -/
  broken : Bool := false

/-- Runs a program until it has to wait; `none` if it ends or makes no end. -/
def Machine.runToSleep (key : String) : Nat → Program Unit → Machine → Option Sleeper × Machine
  | 0, _, m => (none, m)
  | _ + 1, .done _, m => (none, m)
  | steps + 1, .effect (.sleepUntil wake) k, m =>
    if m.clock < wake then (some ⟨wake, k ()⟩, m) else runToSleep key steps (k ()) m
  | steps + 1, .effect e k, m =>
    let (answer, m) := m.perform key e
    runToSleep key steps (k answer) m
  | steps + 1, .loop body start k, m => runToSleep key steps (Program.unroll body start k) m

namespace World

/-- The first instant up to `limit` at which a worker is to be woken. -/
def firstDue (w : World) (limit : Instant) : Option Instant :=
  ((w.workers.map (·.2.wake)).filter (· ≤ limit)).min?

/-- Wakes every worker that is due, one after the other, and leaves out those that break down. -/
def wakeWorkers : Register Sleeper → Machine → Register Sleeper × Machine
  | [], m => ([], m)
  | (key, s) :: rest, m =>
    let (woken, m) := if s.wake ≤ m.clock then m.runToSleep key patience s.rest else (some s, m)
    let (rest, m) := wakeWorkers rest m
    ((woken.map (key, ·)).toList ++ rest, m)

def wakeDue (w : World) : World :=
  let (workers, machine) := wakeWorkers w.workers w.machine
  { machine, workers, broken := w.broken || workers.length < w.workers.length }

def setClock (w : World) (t : Instant) : World :=
  { w with machine := { w.machine with clock := max w.machine.clock t } }

/-- Lets time pass until `t`, waking each worker at its instant. -/
def passUntil (t : Instant) : Nat → World → World
  | 0, w => { w.setClock t with broken := true }
  | steps + 1, w =>
    match w.firstDue t with
    | none => w.setClock t
    | some wake => passUntil t steps (w.setClock wake).wakeDue

/-- Sleeps until `t`, not at all if that has come. -/
def sleepUntil (w : World) (t : Instant) : World :=
  if w.machine.clock < t then w.passUntil t patience else w

def settle (w : World) : World := w.passUntil w.machine.clock patience

def perform (w : World) (key : String) : (e : Effect) → e.Answer × World
  | .sleepUntil wake => ((), w.sleepUntil wake)
  | e =>
    let (answer, machine) := w.machine.perform key e
    (answer, { w with machine })

end World

end LeaseQueue.Simulation
