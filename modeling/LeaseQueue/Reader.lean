import LeaseQueue.Allocation
import LeaseQueue.Cursor
import LeaseQueue.Table

/-
  Readers: finding the next message and claiming it.

  A call first looks for a message whose claim has run out (`resurrect`), then
  for one at the reader bucket (`forward`). The invisibility cursor leaves a
  bucket only when all in it is acknowledged and no index in it is left; the
  reader bucket is sealed and left when nothing in it can be claimed and
  nothing more is due to land in it. Each phase passes at most `scanLimit`
  buckets.
-/

namespace LeaseQueue.Queue

/-- Claims a message as it was read, or retires it if it was handed out often enough. -/
def claimOrRetire (q : Queue) (m : Message) (hide : Duration) : Op (Option Message) := do
  if q.exhausted m.deliveries then
    if ← q.acknowledge m then Op.tally .retired
    return none
  match ← q.claim m hide with
  | some claimed => return some claimed
  | none =>
    Op.tally .races
    return none

/-- What a scan of the invisibility cursor's bucket comes to. -/
inductive Scan where
  /-- A message whose claim had run out was claimed again. -/
  | claimed (m : Message)
  /-- The cursor stays in this bucket. -/
  | parked
  /-- Nothing is left to come in this bucket. -/
  | settled

/-- Moves the invisibility cursor to an index, unless it stands there. -/
def park (position : Int64) (index : UInt64) : Op Unit := do
  let target := index.toInt64
  if target ≠ position then
    let _ ← Cursor.invisibility.moveIf position target

/-- The least of an index and those that are there. -/
def leastOf (index : UInt64) (others : List (Option UInt64)) : UInt64 :=
  others.foldl (fun least other => min least (other.getD least)) index

def firstPending (messages : List Message) : Option UInt64 :=
  (messages.find? (·.pending)).map Message.index

def firstInFlight (messages : List Message) (now : Instant) : Option UInt64 :=
  (messages.find? (·.inFlight now)).map Message.index

def firstExpired (messages : List Message) (now : Instant) : Option Message :=
  messages.find? (·.expired now)

/-- Where the cursor stays when nothing in its bucket can be claimed again or is in flight: on the
first message that was never handed out, or else in the bucket until no more can land in it. -/
def settle (q : Queue) (position : Int64) (bucket : UInt64) (messages : List Message) :
    Op Scan := do
  match firstPending messages with
  | some pending =>
    park position pending
    return .parked
  | none =>
    if messages.any (!·.acked) then return .parked
    let counter ← nextIndex
    return if q.bucketOf counter ≤ bucket then .parked else .settled

/-- Looks through the cursor's bucket for a message to claim again or to park on. -/
def scan (q : Queue) (position : Int64) (bucket : UInt64) (hide : Duration) : Op Scan := do
  let messages ← Op.call (.readBucket bucket)
  let now ← Op.now
  let pending := firstPending messages
  match firstInFlight messages now, firstExpired messages now with
  | some waiting, expired =>
    -- The cursor must not pass a message that was never handed out or can be claimed again.
    park position (leastOf waiting [expired.map Message.index, pending])
    return .parked
  | none, some expired =>
    match ← q.claimOrRetire expired hide with
    | some claimed =>
      park position (leastOf claimed.index [pending])
      return .claimed claimed
    | none => q.settle position bucket messages
  | none, none => q.settle position bucket messages

/-- What the message under the invisibility cursor allows. -/
inductive Glance where
  | claimed (m : Message)
  /-- It is unacknowledged, and its time has not come. -/
  | held
  /-- It is of no more interest to the cursor. -/
  | past

/-- Looks at the message that the invisibility cursor stands on. -/
def glance (q : Queue) (position : Int64) (hide : Duration) : Op Glance := do
  if position < 0 then return .past
  match ← q.fetch position.toUInt64 with
  | none => return .past
  | some m =>
    if m.acked then return .past
    if !m.delivered then return .held
    if !m.visible (← Op.now) then return .held
    match ← q.claimOrRetire m hide with
    | some claimed => return .claimed claimed
    | none => return .past

/-- Claims again the first message whose claim has run out, over at most `limit` buckets. -/
def resurrectFrom (q : Queue) (hide : Duration) : Nat → Int64 → Op (Option Message)
  | 0, _ => return none
  | limit + 1, position => do
    match ← q.glance position hide with
    | .claimed m => return some m
    | .held => return none
    | .past =>
      let bucket := q.bucketOfCursor position
      match ← q.scan position bucket hide with
      | .claimed m => return some m
      | .parked => return none
      | .settled =>
        let next ← Op.inRange (wordSucc? bucket)
        let start ← Op.inRange (q.bucketStart? next)
        let position ← Cursor.invisibility.moveIf position start.toInt64
        q.resurrectFrom hide limit position

def resurrect (q : Queue) (scanLimit : Nat) (hide : Duration) : Op (Option Message) := do
  let position ← Cursor.invisibility.get
  q.resurrectFrom hide scanLimit position

/-- One look at the reader bucket, after `passed` buckets were sealed in this call. A lost claim
makes the reader look again. -/
def forwardPass (q : Queue) (scanLimit : Nat) (hide : Duration) (passed : Nat) :
    Op (Pass Nat (Option Message)) := do
  let position ← Cursor.readerBucket.get
  let bucket := position.toUInt64
  let messages ← Op.call (.readBucket bucket)
  let now ← Op.now
  if let some candidate := messages.find? fun m => !m.acked && m.visible now then
    match ← q.claimOrRetire candidate hide with
    | some claimed => return .leave (some claimed)
    | none => return .again passed
  -- All here is acknowledged or in flight; the bucket is sealed once no more can land in it.
  let full : Bool := messages.length = q.bucketSize.toNat
  let counter ← nextIndex
  if !full && q.bucketOf counter ≤ bucket then return .leave none
  if passed = scanLimit then return .leave none
  let _ ← sealBucket bucket
  let next ← Op.inRange (cellSucc? position)
  if (← Cursor.readerBucket.moveIf position next) = next then Op.tally .seals
  return .again (passed + 1)

/-- Claims the first message at or after the reader bucket that can be claimed. -/
def forward (q : Queue) (scanLimit : Nat) (hide : Duration) : Op (Option Message) :=
  Op.loop (q.forwardPass scanLimit hide) 0

/-- Claims the next message and hides it for `hide`; `none` if there is none now. -/
def nextMessage (q : Queue) (scanLimit : Nat) (hide : Duration) : Op (Option Message) := do
  if let some m ← q.resurrect scanLimit hide then
    Op.tally .resurrections
    Op.tally .deliveries
    return some m
  let found ← q.forward scanLimit hide
  if found.isSome then Op.tally .deliveries
  return found

end LeaseQueue.Queue
