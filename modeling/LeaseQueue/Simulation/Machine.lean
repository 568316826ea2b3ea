import LeaseQueue.Program
import LeaseQueue.Store.Rows

/-
  The machine that programs run on: a store in memory, a clock that only moves
  when someone sleeps, a source of tags, and failures that were ordered in
  advance.
-/

namespace LeaseQueue.Simulation

structure Machine where
  store : Store := []
  clock : Instant := 0
  /-- The state of the tag source. -/
  seed : UInt64 := 0
  /-- How many of the coming calls fail. -/
  outages : UInt64 := 0
  meters : Meters := []
  deriving DecidableEq, Repr

namespace Machine

def rows (m : Machine) (key : String) : Rows := Store.rows m.store key

/-- The number that a state of the tag source yields. -/
def scramble (s : UInt64) : UInt64 :=
  let z := (s ^^^ (s >>> 30)) * 0xBF58476D1CE4E5B9
  let z := (z ^^^ (z >>> 27)) * 0x94D049BB133111EB
  z ^^^ (z >>> 31)

def drawTag (m : Machine) : Tag × Machine :=
  let seed := m.seed + 0x9E3779B97F4A7C15
  (⟨scramble seed⟩, { m with seed })

/-- Serves a storage call on the rows under the key, or fails it if a failure is due. -/
def serve (m : Machine) (key : String) (c : Call) : Except StorageError c.Answer × Machine :=
  if m.outages = 0 then
    let (answer, rows) := (m.rows key).apply c
    (.ok answer, { m with store := Store.setRows key rows m.store })
  else
    (.error (.unavailable ("injected failure: " ++ c.name)), { m with outages := m.outages - 1 })

/-- Performs an effect for a program on the rows under the key. Nobody else acts while it
sleeps. -/
def perform (m : Machine) (key : String) : (e : Effect) → e.Answer × Machine
  | .call c => m.serve key c
  | .send _ => ((), m)
  | .now => (m.clock, m)
  | .sleepUntil wake => ((), { m with clock := max m.clock wake })
  | .drawTag => m.drawTag
  | .tally c => ((), { m with meters := Meters.tally key c m.meters })

end Machine

/-- How many steps are waited for a program to end or to wait. One that takes more is held to
make no end. -/
def patience : Nat := 1000000

/-- How many calls are waited for an operation to end. A reader that keeps losing to a row it reads
in the wrong bucket would go on for ever. -/
def callLimit : Nat := 5000

end LeaseQueue.Simulation
