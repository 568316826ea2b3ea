import LeaseQueue.Reader
import LeaseQueue.Receipt

/-
  What producers and consumers do with a queue: put, receive, acknowledge,
  revise, and drop the queue.

  A consumer acts through the receipt of its delivery; a receipt that no
  longer fits the stored message does nothing.
-/

namespace LeaseQueue

/-- A message in the hands of a consumer. -/
structure Delivery where
  index : UInt64
  blob : Blob
  receipt : Receipt
  deliveries : UInt32
  visibleAt : Instant
  deriving DecidableEq, Repr

def Delivery.of (m : Message) : Delivery :=
  ⟨m.index, m.blob, Receipt.of m, m.deliveries, m.visibleAt⟩

namespace Queue

/-- Appends a payload, hidden for `delay`, and answers its index. -/
def put (q : Queue) (blob : Blob) (delay : Duration) : Op UInt64 := do
  let index ← allocate
  let _ ← q.write index blob delay
  return index

/-- Claims the next message and hides it for `hide`. -/
def receive (q : Queue) (scanLimit : Nat) (hide : Duration) : Op (Option Delivery) :=
  return (← q.nextMessage scanLimit hide).map Delivery.of

/-- The stored message, if the receipt fits it. -/
def authorize (q : Queue) (r : Receipt) : Op (Option Message) :=
  return (← q.fetch r.index).filter r.fits

/-- Acknowledges the delivery that the receipt was issued for. -/
def ack (q : Queue) (r : Receipt) : Op Bool := do
  match ← q.authorize r with
  | none => return false
  | some m => q.acknowledge m

/-- Gives the delivered message a new payload, hides it for `hide`, and answers its new receipt. -/
def update (q : Queue) (r : Receipt) (blob : Blob) (hide : Duration) : Op (Option Receipt) := do
  match ← q.authorize r with
  | none => return none
  | some m => return (← q.revise m blob hide).map Receipt.of

def drop : Op Unit := Op.call .dropQueue

end Queue

end LeaseQueue
