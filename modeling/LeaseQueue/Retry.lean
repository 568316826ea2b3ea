import LeaseQueue.Program

/-
  What lies between an operation and the store: the time a call travels, and
  another attempt after a failure.

  Both take a program to a program. `retrying` replaces each storage call by
  attempts with growing pauses between them; `delayed` lets each call be seen
  and then wait before it is applied. An operation written once runs behind
  either, or both.
-/

namespace LeaseQueue

structure RetryConfig where
  /-- Attempts after the first one. -/
  maxRetries : Nat := 5
  /-- The pause before the first retry. -/
  initialBackoff : Duration := 50
  /-- The most that doubling raises a pause to. -/
  maxBackoff : Duration := 2000
  /-- The most that all pauses of one call add up to. -/
  maxWait : Duration := 10000
  deriving DecidableEq, Repr

/-- Where the attempts at one call stand. -/
structure Attempts where
  /-- Attempts that failed. -/
  failed : Nat
  /-- Time spent in pauses. -/
  waited : Duration
  /-- The next pause. -/
  backoff : Duration
  deriving DecidableEq, Repr

namespace RetryConfig

def start (cfg : RetryConfig) : Attempts := ⟨0, 0, cfg.initialBackoff⟩

/-- One more attempt failed and the next pause would exceed a limit. -/
def givesUp (cfg : RetryConfig) (s : Attempts) : Bool :=
  cfg.maxRetries < s.failed + 1 || cfg.maxWait < s.waited + s.backoff

/-- After one more failed attempt and the pause that follows it. -/
def next (cfg : RetryConfig) (s : Attempts) : Attempts :=
  ⟨s.failed + 1, s.waited + s.backoff, min (2 * s.backoff) cfg.maxBackoff⟩

def attempt (cfg : RetryConfig) (c : Call) (s : Attempts) :
    Program (Pass Attempts (Except StorageError c.Answer)) := do
  match ← Program.call c with
  | .ok a => return .leave (.ok a)
  | .error e =>
    if !e.transient then return .leave (.error e)
    if cfg.givesUp s then return .leave (.error (.exhausted (s.failed + 1) e))
    Program.sleep s.backoff
    return .again (cfg.next s)

/-- A call, tried again as long as the limits allow. -/
def attempts (cfg : RetryConfig) (c : Call) : Program (Except StorageError c.Answer) :=
  .loop (cfg.attempt c) cfg.start .done

end RetryConfig

namespace Program

/-- The program with every call tried again after a transient failure. -/
def retrying (cfg : RetryConfig) {α : Type} (p : Program α) : Program α := p.mapCalls cfg.attempts

/-- A call that is seen when it sets out, and applied when it has travelled for `latency`. -/
def travel (latency : Option Duration) (c : Call) : Program (Except StorageError c.Answer) := do
  send c
  if let some d := latency then sleep d
  call c

/-- The program with every call taking its time. -/
def delayed (latency : Option Duration) {α : Type} (p : Program α) : Program α :=
  p.mapCalls (travel latency)

end Program

/-- The way from a program to the store. -/
structure Route where
  latency : Option Duration := none
  /-- `none` where no call is tried again. -/
  retry : Option RetryConfig := none
  deriving DecidableEq, Repr

/-- The program as it runs over the route; each attempt travels. -/
def Route.apply (r : Route) {α : Type} (p : Program α) : Program α :=
  match r.retry with
  | none => p.delayed r.latency
  | some cfg => (p.retrying cfg).delayed r.latency

end LeaseQueue
