import LeaseQueue.Proofs.Shared.Tracking

/-
  The operations, with their conversions left open.

  Indices and buckets are words, and cells hold signed values, so the operations
  go from one to the other. Here are those that do, once more, with the two
  conversions as parameters. `Conversion.wrapping` keeps the bits, and with it
  they are the operations themselves (`wrapping_op`). `Conversion.exact` keeps the
  value, and faults where the other type does not have it.
-/

namespace LeaseQueue

open Shared

/-- How an operation goes between words and the values of cells. -/
structure Conversion where
  toWord : Int64 → Op UInt64
  toCell : UInt64 → Op Int64

namespace Conversion

/-- Keeps the bits, whatever becomes of the value. -/
def wrapping : Conversion where
  toWord n := pure n.toUInt64
  toCell n := pure n.toInt64

/-- The word of the same value. -/
def exactWord? (n : Int64) : Option UInt64 :=
  if (n.toUInt64.toNat : Int) = n.toInt then some n.toUInt64 else none

/-- The cell value of the same value. -/
def exactCell? (n : UInt64) : Option Int64 :=
  if n.toInt64.toInt = n.toNat then some n.toInt64 else none

/-- Keeps the value, and faults where the other type does not have it. -/
def exact : Conversion where
  toWord n := Op.inRange (exactWord? n)
  toCell n := Op.inRange (exactCell? n)

variable (k : Conversion) (q : Queue)

/-! ## Allocation -/

def nextIndex : Op UInt64 := do
  let cell ← Op.call (.readCell .counter)
  k.toWord (counterValue cell)

def allocateFrom (seen : Option Int64) : Op (Pass (Option Int64) UInt64) := do
  let index := counterValue seen
  let successor ← Op.inRange (cellSucc? index)
  match ← Op.call (.swapCell .counter seen successor) with
  | .swapped => return .leave (← k.toWord index)
  | .conflict found => return .again found

def allocate : Op UInt64 := do
  let seen ← Op.call (.readCell .counter)
  Op.loop k.allocateFrom seen

def put (blob : Blob) (delay : Duration) : Op UInt64 := do
  let index ← k.allocate
  let _ ← q.write index blob delay
  return index

/-! ## Readers -/

def bucketOfCursor (value : Int64) : Op UInt64 := do
  if value < 0 then return 0
  return q.bucketOf (← k.toWord value)

def park (position : Int64) (index : UInt64) : Op Unit := do
  let target ← k.toCell index
  if target ≠ position then
    let _ ← Cursor.invisibility.moveIf position target

def settle (position : Int64) (bucket : UInt64) (messages : List Message) : Op Queue.Scan := do
  match Queue.firstPending messages with
  | some pending =>
    k.park position pending
    return .parked
  | none =>
    if messages.any (!·.acked) then return .parked
    let counter ← k.nextIndex
    return if q.bucketOf counter ≤ bucket then .parked else .settled

def scan (position : Int64) (bucket : UInt64) (hide : Duration) : Op Queue.Scan := do
  let messages ← Op.call (.readBucket bucket)
  let now ← Op.now
  let pending := Queue.firstPending messages
  match Queue.firstInFlight messages now, Queue.firstExpired messages now with
  | some waiting, expired =>
    k.park position (Queue.leastOf waiting [expired.map Message.index, pending])
    return .parked
  | none, some expired =>
    match ← q.claimOrRetire expired hide with
    | some claimed =>
      k.park position (Queue.leastOf claimed.index [pending])
      return .claimed claimed
    | none => k.settle q position bucket messages
  | none, none => k.settle q position bucket messages

def glance (position : Int64) (hide : Duration) : Op Queue.Glance := do
  if position < 0 then return .past
  match ← q.fetch (← k.toWord position) with
  | none => return .past
  | some m =>
    if m.acked then return .past
    if !m.delivered then return .held
    if !m.visible (← Op.now) then return .held
    match ← q.claimOrRetire m hide with
    | some claimed => return .claimed claimed
    | none => return .past

def resurrectFrom (hide : Duration) : Nat → Int64 → Op (Option Message)
  | 0, _ => return none
  | limit + 1, position => do
    match ← k.glance q position hide with
    | .claimed m => return some m
    | .held => return none
    | .past =>
      let bucket ← k.bucketOfCursor q position
      match ← k.scan q position bucket hide with
      | .claimed m => return some m
      | .parked => return none
      | .settled =>
        let next ← Op.inRange (wordSucc? bucket)
        let start ← Op.inRange (q.bucketStart? next)
        let position ← Cursor.invisibility.moveIf position (← k.toCell start)
        resurrectFrom hide limit position

def resurrect (scanLimit : Nat) (hide : Duration) : Op (Option Message) := do
  let position ← Cursor.invisibility.get
  k.resurrectFrom q hide scanLimit position

def forwardPass (scanLimit : Nat) (hide : Duration) (passed : Nat) :
    Op (Pass Nat (Option Message)) := do
  let position ← Cursor.readerBucket.get
  let bucket ← k.toWord position
  let messages ← Op.call (.readBucket bucket)
  let now ← Op.now
  if let some candidate := messages.find? fun m => !m.acked && m.visible now then
    match ← q.claimOrRetire candidate hide with
    | some claimed => return .leave (some claimed)
    | none => return .again passed
  let full : Bool := messages.length = q.bucketSize.toNat
  let counter ← k.nextIndex
  if !full && q.bucketOf counter ≤ bucket then return .leave none
  if passed = scanLimit then return .leave none
  let _ ← Queue.sealBucket bucket
  let next ← Op.inRange (cellSucc? position)
  if (← Cursor.readerBucket.moveIf position next) = next then Op.tally .seals
  return .again (passed + 1)

def nextMessage (scanLimit : Nat) (hide : Duration) : Op (Option Message) := do
  if let some m ← k.resurrect q scanLimit hide then
    Op.tally .resurrections
    Op.tally .deliveries
    return some m
  let found ← Op.loop (k.forwardPass q scanLimit hide) 0
  if found.isSome then Op.tally .deliveries
  return found

def receive (scanLimit : Nat) (hide : Duration) : Op (Option Delivery) :=
  return (← k.nextMessage q scanLimit hide).map Delivery.of

/-! ## Repair -/

def advance (bucket : UInt64) : Op (Option UInt64) := do
  let counter ← k.nextIndex
  let next := min (← Op.inRange (wordSucc? bucket)) (q.bucketOf counter)
  if next ≤ bucket then return none
  return some (← k.toWord (← Cursor.repairBucket.moveIf (← k.toCell bucket) (← k.toCell next)))

def republish (m : Message) : Op Bool := do
  let index ← k.allocate
  let _ ← q.write index m.blob 0
  let unchanged ← q.acknowledge m
  Op.tally .ghosts
  return unchanged

def repairMessage (now : Instant) (seen : Bool × Nat) (m : Message) : Op (Bool × Nat) := do
  let (settled, ghosts) := seen
  if m.acked then return (settled, ghosts)
  if m.delivered || !m.visible now then return (false, ghosts)
  let unchanged ← k.republish q m
  return (settled && unchanged, ghosts + 1)

def repairBucket (cfg : Repair.Config) (bucket : UInt64) (sealedAt : Instant)
    (messages : List Message) : Op Repair.Tick := do
  let messages ← Op.loop (Repair.waitPass bucket) (sealedAt + cfg.grace, messages)
  let now ← Op.now
  let (settled, ghosts) ← messages.foldlM (k.repairMessage q now) (true, 0)
  let _ ← k.advance q bucket
  if settled then Repair.clear cfg bucket
  return .repaired bucket ghosts

def tickPass (cfg : Repair.Config) (bucket : UInt64) : Op (Pass UInt64 Repair.Tick) := do
  let messages ← Op.call (.readBucket bucket)
  if messages.length = q.bucketSize.toNat && messages.all (·.acked) then
    Repair.clear cfg bucket
    match ← k.advance q bucket with
    | some next => return if bucket < next then .again next else .leave .idle
    | none => return .leave .idle
  match ← Op.call (.readTombstone bucket) with
  | none => return .leave .idle
  | some sealedAt => return .leave (← k.repairBucket q cfg bucket sealedAt messages)

def tick (cfg : Repair.Config) : Op Repair.Tick := do
  let position ← Cursor.repairBucket.get
  Op.loop (k.tickPass q cfg) (← k.toWord position)

/-! ## Requests -/

/-- The operation that serves a request, with these conversions. -/
def op : Request → Op Reply
  | .put blob delay => Reply.index <$> k.put q blob delay
  | .receive scanLimit hide => Reply.delivery <$> k.receive q scanLimit hide
  | .tick cfg => Reply.ticked <$> k.tick q cfg
  | r => r.op q

/-! ## Keeping the bits -/

theorem wrapping_bucketOfCursor (value : Int64) :
    wrapping.bucketOfCursor q value = pure (q.bucketOfCursor value) := by
  rw [bucketOfCursor, Queue.bucketOfCursor]
  split <;> rfl

theorem wrapping_resurrectFrom (hide : Duration) (limit : Nat) (position : Int64) :
    wrapping.resurrectFrom q hide limit position = q.resurrectFrom hide limit position := by
  induction limit generalizing position with
  | zero => rfl
  | succ limit ih =>
    refine bind_congr fun g => ?_
    cases g with
    | claimed m => rfl
    | held => rfl
    | past =>
      simp only [wrapping_bucketOfCursor, pure_bind]
      refine bind_congr fun s => ?_
      cases s with
      | claimed m => rfl
      | parked => rfl
      | settled => exact bind_congr fun _ => bind_congr fun _ => bind_congr fun next => ih next

/-- With conversions that keep the bits, the operations are those that serve the requests. -/
theorem wrapping_op (r : Request) : wrapping.op q r = r.op q := by
  cases r with
  | receive scanLimit hide =>
    have hresurrect : wrapping.resurrect q scanLimit hide = q.resurrect scanLimit hide :=
      bind_congr fun position => wrapping_resurrectFrom q hide scanLimit position
    have hnext : wrapping.nextMessage q scanLimit hide = q.nextMessage scanLimit hide := by
      rw [nextMessage, hresurrect]
      rfl
    rw [op, receive, hnext]
    rfl
  | _ => rfl

end Conversion

end LeaseQueue
