import LeaseQueue.Allocation
import LeaseQueue.Cursor
import LeaseQueue.Table

/-
  Repair: finding messages that were written into a bucket after it was
  sealed, which no reader will look for there.

  A tick passes full buckets in which all is acknowledged. At the first other
  bucket, if it is sealed, it waits for the grace period and for every message
  that was never delivered to become visible, then writes each of these again
  at a fresh index and acknowledges the old one.
-/

namespace LeaseQueue.Repair

structure Config where
  /-- How long a bucket stays sealed before it is repaired. -/
  grace : Duration := 30000
  /-- The pause between two ticks. -/
  interval : Duration := 5000
  /-- Buckets in which all is acknowledged are deleted. -/
  deleteAcked : Bool := true
  /-- How many requests the manager holds at a time. -/
  mailboxSize : Nat := 64
  deriving DecidableEq, Repr

inductive Tick where
  /-- No sealed bucket was waiting. -/
  | idle
  /-- The bucket was looked through, and so many messages were written again. -/
  | repaired (bucket : UInt64) (ghosts : Nat)
  deriving DecidableEq, Repr

/-- Deletes a bucket in which all is acknowledged, if that is wanted. -/
def clear (cfg : Config) (bucket : UInt64) : Op Unit := do
  if cfg.deleteAcked then
    Op.call (.deleteBucket bucket)
    Op.tally .deleted

/-- Moves the repair cursor past a bucket, but not past the one that indices now fall into, and
answers where it stands; `none` if it may not move yet. -/
def advance (q : Queue) (bucket : UInt64) : Op (Option UInt64) := do
  let counter ← nextIndex
  let next := min (← Op.inRange (wordSucc? bucket)) (q.bucketOf counter)
  if next ≤ bucket then return none
  return some (← Cursor.repairBucket.moveIf bucket.toInt64 next.toInt64).toUInt64

/-- The latest of the deadline and the instants at which undelivered messages become visible. -/
def deadlineAfter (messages : List Message) (deadline : Instant) : Instant :=
  (messages.filter (·.pending)).foldl (fun latest m => max latest m.visibleAt) deadline

/-- One look at whether the deadline has come; if not, waits for it and reads the bucket again. -/
def waitPass (bucket : UInt64) (seen : Instant × List Message) :
    Op (Pass (Instant × List Message) (List Message)) := do
  -- Messages may land while the worker waits, so the deadline is looked at again each time.
  let deadline := deadlineAfter seen.2 seen.1
  if deadline ≤ (← Op.now) then return .leave seen.2
  Op.sleepUntil deadline
  return .again (deadline, ← Op.call (.readBucket bucket))

/-- Writes a message again at a fresh index and acknowledges it where it was; answers whether it
was still as it had been read. -/
def republish (q : Queue) (m : Message) : Op Bool := do
  -- The copy is written before the message is acknowledged, so a tick cut off between the two
  -- leaves one copy too many and never one too few.
  let index ← allocate
  let _ ← q.write index m.blob 0
  let unchanged ← q.acknowledge m
  Op.tally .ghosts
  return unchanged

/-- Takes one message of a sealed bucket: writes it again if it is visible and was never
delivered. `settled` says whether all before it is acknowledged now, `ghosts` how many were
written again. -/
def repairMessage (q : Queue) (now : Instant) (seen : Bool × Nat) (m : Message) :
    Op (Bool × Nat) := do
  let (settled, ghosts) := seen
  if m.acked then return (settled, ghosts)
  if m.delivered || !m.visible now then return (false, ghosts)
  let unchanged ← republish q m
  return (settled && unchanged, ghosts + 1)

/-- Repairs a bucket that was sealed at the given instant. -/
def repairBucket (q : Queue) (cfg : Config) (bucket : UInt64) (sealedAt : Instant)
    (messages : List Message) : Op Tick := do
  let messages ← Op.loop (waitPass bucket) (sealedAt + cfg.grace, messages)
  let now ← Op.now
  let (settled, ghosts) ← messages.foldlM (repairMessage q now) (true, 0)
  let _ ← advance q bucket
  if settled then clear cfg bucket
  return .repaired bucket ghosts

/-- One look at a bucket: passes it if it is full and all acknowledged, repairs it if it is
sealed. -/
def tickPass (q : Queue) (cfg : Config) (bucket : UInt64) : Op (Pass UInt64 Tick) := do
  let messages ← Op.call (.readBucket bucket)
  if messages.length = q.bucketSize.toNat && messages.all (·.acked) then
    clear cfg bucket
    match ← advance q bucket with
    | some next => return if bucket < next then .again next else .leave .idle
    | none => return .leave .idle
  match ← Op.call (.readTombstone bucket) with
  | none => return .leave .idle
  | some sealedAt => return .leave (← repairBucket q cfg bucket sealedAt messages)

/-- Passes what is settled and repairs the next sealed bucket. -/
def tick (q : Queue) (cfg : Config) : Op Tick := do
  let position ← Cursor.repairBucket.get
  Op.loop (tickPass q cfg) position.toUInt64

/-- One round of a worker: a tick, counted, and the pause after it. A tick that runs past the end
of a range ends the worker uncounted. -/
def round (q : Queue) (cfg : Config) : Program (Pass Unit Unit) := do
  match ← (tick q cfg).run with
  | .error .overflow => return .leave ()
  | .error _ =>
    Program.tally .ticks
    Program.tally .failures
  | .ok _ => Program.tally .ticks
  Program.sleep cfg.interval
  return .again ()

/-- A worker, which ticks until it is stopped. -/
def worker (q : Queue) (cfg : Config) : Program Unit := .loop (fun _ => round q cfg) () .done

end LeaseQueue.Repair
