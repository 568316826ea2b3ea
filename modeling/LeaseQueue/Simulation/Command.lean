import LeaseQueue.Client
import LeaseQueue.Manager
import LeaseQueue.Repair

/-
  What a script can ask for, and what it is told.
-/

namespace LeaseQueue.Simulation

/-- A receipt given as text, or by its place among those received so far; a negative place counts
from the end. -/
inductive ReceiptRef where
  | text (text : String)
  | place (place : Int)
  deriving DecidableEq, Repr

/-- A message given by the name it was kept under, or in full. -/
inductive MessageRef where
  | kept (name : String)
  | full (message : Message)
  deriving DecidableEq, Repr

inductive Command where
  | put (blob : Blob) (delay : Duration)
  | receive (hide : Duration)
  | ack (receipt : ReceiptRef)
  | update (receipt : ReceiptRef) (blob : Blob) (hide : Duration)
  | dropQueue
  /-- As `receive`, with a scan limit of its own and the whole message as the answer. -/
  | nextMessage (scanLimit : Nat) (hide : Duration)
  | allocate
  | nextIndex
  | cursorGet (cursor : Cursor)
  | cursorMove (cursor : Cursor) (expected desired : Int64)
  | write (index : UInt64) (blob : Blob) (delay : Duration)
  | fetch (index : UInt64)
  | claim (message : MessageRef) (hide : Duration)
  | revise (message : MessageRef) (blob : Blob) (hide : Duration)
  | acknowledge (message : MessageRef)
  | sealBucket (bucket : UInt64)
  /-- A call that the message table makes. -/
  | tableCall (call : Call)
  /-- A call made on the store itself. -/
  | storeCall (call : Call)
  /-- One tick of repair in the foreground. -/
  | tick
  | start
  | stop
  | running
  | close
  /-- Lets the given number of coming calls fail. -/
  | fail (count : UInt64)
  | advance (d : Duration)
  | metrics
  | metricNames
  deriving DecidableEq, Repr

/-- A command on one of the queues, by its place. -/
structure Step where
  queue : Nat
  command : Command
  /-- The name to keep the message of the answer under. -/
  keepAs : Option String
  deriving DecidableEq, Repr

/-- Steps that run just before the given call of another step. -/
structure Injection where
  before : Nat
  steps : List Step
  deriving DecidableEq, Repr

structure ScriptStep where
  step : Step
  injections : List Injection
  deriving DecidableEq, Repr

inductive Reply where
  /-- What the command refers to is not there. -/
  | skipped
  | nothing
  | flag (b : Bool)
  | word (n : UInt64)
  | value (n : Int64)
  | cell (held : Option Int64)
  | swap (outcome : Swap)
  | receipt (receipt : Option Receipt)
  | delivery (delivery : Option Delivery)
  | message (message : Option Message)
  | messages (messages : List Message)
  | instant (t : Option Instant)
  | tick (tick : Repair.Tick)
  | keys (keys : List String)
  | counts (counts : List (String × Nat))
  | names (names : List (String × String))
  deriving DecidableEq, Repr

/-- Why a command has no reply. -/
inductive Refusal where
  | storage (error : StorageError)
  | queue (fault : Fault)
  | receipt (fault : Receipt.Fault)
  /-- The program did not end. -/
  | endless
  deriving DecidableEq, Repr

namespace Refusal

def message? : Refusal → Option String
  | .storage e => some e.message
  | .queue f => f.message?
  | .receipt f => some f.message
  | .endless => none

/-- A fault of an operation that speaks to the store itself. -/
def ofStoreFault : Fault → Refusal
  | .storage e => .storage e
  | f => .queue f

end Refusal

abbrev Outcome := Except Refusal Reply

def Reply.ofAnswer : (c : Call) → c.Answer → Reply
  | .readCell _, held => .cell held
  | .swapCell _ _ _, outcome => .swap outcome
  | .insertMessage _ _, inserted => .flag inserted
  | .readMessage _ _, found => .message found
  | .readBucket _, found => .messages found
  | .updateMessage _ _ _, updated => .flag updated
  | .insertTombstone _ _, sealedAt => .instant (some sealedAt)
  | .readTombstone _, sealedAt => .instant sealedAt
  | .deleteBucket _, _ => .nothing
  | .dropQueue, _ => .nothing

/-- An answer of the manager of repair workers. -/
def Reply.ofManager : Manager.Reply → Reply
  | .flag done => .flag done
  | .keys ks => .keys ks

/-- The one message that a reply holds. -/
def Reply.keepable? : Reply → Option Message
  | .message found => found
  | _ => none

end LeaseQueue.Simulation
