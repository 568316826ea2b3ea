import LeaseQueue.Metrics
import LeaseQueue.Store.Call

/-
  Programs: what an operation on a queue does, one effect at a time.

  A program is a tree. `effect` performs one step of the outside world and
  continues with its answer; `loop` repeats a body whose passes are programs.
  The tree says nothing of what other programs do between two of its effects,
  so the same one can be run alone, interleaved with others at every call, or
  cut off before any of them.
-/

namespace LeaseQueue

/-- One step that a program asks of the world. -/
inductive Effect where
  /-- Applies a storage call. -/
  | call (c : Call)
  /-- Lets it be seen that a call sets out for the store. -/
  | send (c : Call)
  /-- Reads the clock. -/
  | now
  /-- Waits until the instant, not at all if it has come. -/
  | sleepUntil (wake : Instant)
  /-- Draws a fresh tag. -/
  | drawTag
  /-- Counts an event. -/
  | tally (counter : Counter)

@[reducible] def Effect.Answer : Effect → Type
  | .call c => Except StorageError c.Answer
  | .send _ => Unit
  | .now => Instant
  | .sleepUntil _ => Unit
  | .drawTag => Tag
  | .tally _ => Unit

/-- How a pass of a loop ends. -/
inductive Pass (σ β : Type) where
  | again (state : σ)
  | leave (result : β)

/-- A program that ends in an `α`. -/
inductive Program : Type → Type 1 where
  | done {α : Type} (a : α) : Program α
  /-- Performs an effect and goes on with the answer. -/
  | effect {α : Type} (e : Effect) (k : e.Answer → Program α) : Program α
  /-- Repeats the body from a state to the next until a pass leaves, and goes on with its result. -/
  | loop {α σ β : Type} (body : σ → Program (Pass σ β)) (start : σ) (k : β → Program α) : Program α

namespace Program

/-- Goes on with another program once the first has ended. -/
def bind {α β : Type} : Program α → (α → Program β) → Program β
  | .done a, f => f a
  | .effect e k, f => .effect e fun a => (k a).bind f
  | .loop body start k, f => .loop body start fun b => (k b).bind f

instance : Monad Program where
  pure := .done
  bind := bind

theorem bind_done {α : Type} (p : Program α) : p.bind .done = p := by
  induction p with
  | done a => rfl
  | effect e k ih => exact congrArg (Program.effect e) (funext ih)
  | loop body start k _ ih => exact congrArg (Program.loop body start) (funext ih)

theorem bind_assoc {α β γ : Type} (p : Program α) (f : α → Program β) (g : β → Program γ) :
    (p.bind f).bind g = p.bind fun a => (f a).bind g := by
  induction p with
  | done a => rfl
  | effect e k ih => exact congrArg (Program.effect e) (funext fun a => ih a f)
  | loop body start k _ ih => exact congrArg (Program.loop body start) (funext fun b => ih b f)

instance : LawfulMonad Program := LawfulMonad.mk' Program bind_done (fun _ _ => rfl) bind_assoc

/-- The loop with its first pass in front. -/
def unroll {α σ β : Type} (body : σ → Program (Pass σ β)) (start : σ) (k : β → Program α) :
    Program α :=
  (body start).bind fun
    | .again state => .loop body state k
    | .leave result => k result

/-- The program with every storage call replaced by a program that answers it. -/
def mapCalls (serve : (c : Call) → Program (Except StorageError c.Answer)) {α : Type} :
    Program α → Program α
  | .done a => .done a
  | .effect (.call c) k => (serve c).bind fun a => mapCalls serve (k a)
  | .effect e k => .effect e fun a => mapCalls serve (k a)
  | .loop body start k =>
    .loop (fun s => mapCalls serve (body s)) start fun b => mapCalls serve (k b)

def now : Program Instant := .effect .now .done

def sleepUntil (wake : Instant) : Program Unit := .effect (.sleepUntil wake) .done

def sleep (d : Duration) : Program Unit := now >>= fun t => sleepUntil (t + d)

def call (c : Call) : Program (Except StorageError c.Answer) := .effect (.call c) .done

def send (c : Call) : Program Unit := .effect (.send c) .done

def tally (c : Counter) : Program Unit := .effect (.tally c) .done

end Program

/-- A program that ends in an answer or a fault. -/
abbrev Op := ExceptT Fault Program

namespace Op

/-- An effect as an operation that cannot fail. -/
def perform (e : Effect) : Op e.Answer := ExceptT.lift (.effect e .done)

def now : Op Instant := perform .now

def sleepUntil (wake : Instant) : Op Unit := perform (.sleepUntil wake)

def drawTag : Op Tag := perform .drawTag

def tally (c : Counter) : Op Unit := perform (.tally c)

def call (c : Call) : Op c.Answer :=
  ExceptT.mk <| Program.call c >>= fun
    | .ok a => pure (.ok a)
    | .error e => pure (.error (.storage e))

/-- A value that is missing because it ran past the end of its range. -/
def inRange {α : Type} : Option α → Op α
  | some a => pure a
  | none => throw .overflow

/-- Repeats the body until a pass leaves the loop or fails. -/
def loop {σ β : Type} (body : σ → Op (Pass σ β)) (start : σ) : Op β :=
  ExceptT.mk <| Program.loop
    (fun s => (body s).run >>= fun
      | .ok (.again state) => pure (.again state)
      | .ok (.leave result) => pure (.leave (.ok result))
      | .error fault => pure (.leave (.error fault)))
    start .done

end Op

end LeaseQueue
