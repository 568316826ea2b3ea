import LeaseQueue.Program

/-
  Cursors: how far readers and repair have come in a queue.

  A cursor is a cell with a value that an absent cell stands for. It only
  moves from a value its mover has seen.
-/

namespace LeaseQueue

inductive Cursor where
  | readerBucket
  | invisibility
  | repairBucket
  deriving DecidableEq, Repr

namespace Cursor

def cell : Cursor → Cell
  | .readerBucket => .readerBucket
  | .invisibility => .invisibility
  | .repairBucket => .repairBucket

/-- Where a cursor stands before its first move. -/
def initial : Cursor → Int64
  | .readerBucket => 0
  | .invisibility => -1
  | .repairBucket => 0

/-- Where the cursor stands, given its cell. -/
def position (c : Cursor) (held : Option Int64) : Int64 := held.getD c.initial

def get (c : Cursor) : Op Int64 := return c.position (← Op.call (.readCell c.cell))

/-- Moves the cursor if it stands at `expected`, and answers where it stands then. A cursor that
was never moved has no cell to compare with, so it takes a second swap. -/
def moveIf (c : Cursor) (expected desired : Int64) : Op Int64 := do
  match ← Op.call (.swapCell c.cell (some expected) desired) with
  | .swapped => return desired
  | .conflict none =>
    if expected = c.initial then
      match ← Op.call (.swapCell c.cell none desired) with
      | .swapped => return desired
      | .conflict found => return c.position found
    else return c.initial
  | .conflict (some found) => return found

end Cursor

end LeaseQueue
