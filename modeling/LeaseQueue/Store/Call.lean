import LeaseQueue.Message

/-
  Calls: the whole interface between a queue and the store of its rows.

  No call locks anything. A write applies only where the row still is what the
  caller says it last saw, and answers whether it did. The only failures are
  those of `StorageError`, and a call that fails was not applied.
-/

namespace LeaseQueue

/-- The integer rows of a queue. -/
inductive Cell where
  /-- The next index to hand out. -/
  | counter
  /-- The bucket that readers consume from. -/
  | readerBucket
  /-- The earliest index that may become visible again. -/
  | invisibility
  /-- The next bucket that repair looks at. -/
  | repairBucket
  deriving DecidableEq, Repr

namespace Cell

def name : Cell → String
  | .counter => "monotonic"
  | .readerBucket => "reader_bucket"
  | .invisibility => "invisibility"
  | .repairBucket => "repair_bucket"

def all : List Cell := [.counter, .readerBucket, .invisibility, .repairBucket]

end Cell

/-- The outcome of a swap: done, or the value that stood in its way. -/
inductive Swap where
  | swapped
  | conflict (found : Option Int64)
  deriving DecidableEq, Repr

/-- What a stored message must be for an update to apply. -/
structure Condition where
  version : UInt64
  /-- It must also be unacknowledged. -/
  unacked : Bool
  deriving DecidableEq, Repr

def Condition.holds (c : Condition) (stored : Message) : Bool :=
  stored.version = c.version && !(c.unacked && stored.acked)

/-- A storage call on the rows of one queue. -/
inductive Call where
  | readCell (cell : Cell)
  /-- Sets the cell to `desired` if it holds `expected`; `none` expects no row. -/
  | swapCell (cell : Cell) (expected : Option Int64) (desired : Int64)
  /-- Inserts the message unless its place is taken. -/
  | insertMessage (bucket : UInt64) (message : Message)
  | readMessage (bucket index : UInt64)
  /-- Reads a bucket in the order of indices. -/
  | readBucket (bucket : UInt64)
  /-- Replaces the message at its index if the stored one meets the condition. -/
  | updateMessage (bucket : UInt64) (message : Message) (condition : Condition)
  /-- Records when the bucket was sealed unless that is known, and answers what is on record. -/
  | insertTombstone (bucket : UInt64) (sealedAt : Instant)
  | readTombstone (bucket : UInt64)
  /-- Removes the messages of a bucket and keeps its tombstone. -/
  | deleteBucket (bucket : UInt64)
  /-- Removes every row. -/
  | dropQueue
  deriving DecidableEq, Repr

namespace Call

@[reducible] def Answer : Call → Type
  | .readCell _ => Option Int64
  | .swapCell _ _ _ => Swap
  | .insertMessage _ _ => Bool
  | .readMessage _ _ => Option Message
  | .readBucket _ => List Message
  | .updateMessage _ _ _ => Bool
  | .insertTombstone _ _ => Instant
  | .readTombstone _ => Option Instant
  | .deleteBucket _ => Unit
  | .dropQueue => Unit

def name : Call → String
  | .readCell _ => "read_cell"
  | .swapCell _ _ _ => "swap_cell"
  | .insertMessage _ _ => "insert_message"
  | .readMessage _ _ => "read_message"
  | .readBucket _ => "read_bucket"
  | .updateMessage _ _ _ => "update_message"
  | .insertTombstone _ _ => "insert_tombstone"
  | .readTombstone _ => "read_tombstone"
  | .deleteBucket _ => "delete_bucket"
  | .dropQueue => "drop_queue"

/-- The operands as they stand in a trace: no payloads and no instants. -/
def operands : Call → List String
  | .readCell c => [c.name]
  | .swapCell c expected desired =>
    [c.name, (expected.map fun v => toString v.toInt).getD "none", toString desired.toInt]
  | .insertMessage b m => [toString b.toNat, toString m.index.toNat]
  | .readMessage b i => [toString b.toNat, toString i.toNat]
  | .readBucket b => [toString b.toNat]
  | .updateMessage b m c =>
    [toString b.toNat, toString m.index.toNat, toString c.version.toNat, toString c.unacked]
  | .insertTombstone b _ => [toString b.toNat]
  | .readTombstone b => [toString b.toNat]
  | .deleteBucket b => [toString b.toNat]
  | .dropQueue => []

def line (c : Call) : String := " ".intercalate (c.name :: c.operands)

end Call

inductive StorageError where
  /-- The store could not serve the call, for the reason given. -/
  | unavailable (reason : String)
  /-- The last of `attempts` attempts failed too, because of `source`. -/
  | exhausted (attempts : Nat) (source : StorageError)
  deriving DecidableEq, Repr

namespace StorageError

def message : StorageError → String
  | .unavailable reason => "store unavailable: " ++ reason
  | .exhausted attempts source =>
    "retries exhausted after " ++ toString attempts ++ " attempts: " ++ source.message

/-- Another attempt may succeed. -/
def transient : StorageError → Bool
  | .unavailable _ => true
  | .exhausted _ _ => false

end StorageError

/-- Why an operation on a queue ended without an answer. -/
inductive Fault where
  | storage (error : StorageError)
  /-- A fresh index was already taken. -/
  | indexCollision (index : UInt64)
  /-- An index, bucket or version ran past the end of its range. -/
  | overflow
  deriving DecidableEq, Repr

def Fault.message? : Fault → Option String
  | .storage e => some ("driver error: " ++ e.message)
  | .indexCollision index => some ("index collision: " ++ toString index.toNat)
  | .overflow => none

end LeaseQueue
