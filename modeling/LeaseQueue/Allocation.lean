import LeaseQueue.Program

/-
  Handing out indices.

  The counter cell holds the next index. An allocation swaps in the successor
  of the value it last saw, and whoever wins the swap owns that value; a loser
  goes on with the value that stood in its way.
-/

namespace LeaseQueue

/-- The index that a counter cell stands for; an absent cell stands for 0. -/
def counterValue (cell : Option Int64) : Int64 := cell.getD 0

/-- One attempt to take the index that the counter was last seen at. -/
def allocateFrom (seen : Option Int64) : Op (Pass (Option Int64) UInt64) := do
  let index := counterValue seen
  let successor ← Op.inRange (cellSucc? index)
  match ← Op.call (.swapCell .counter seen successor) with
  | .swapped => return .leave index.toUInt64
  | .conflict found => return .again found

def allocate : Op UInt64 := do
  let seen ← Op.call (.readCell .counter)
  Op.loop allocateFrom seen

def nextIndex : Op UInt64 := do
  let cell ← Op.call (.readCell .counter)
  return (counterValue cell).toUInt64

end LeaseQueue
