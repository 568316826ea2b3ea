import LeaseQueue.Program
import LeaseQueue.Queue

/-
  The message table of a queue: writing, claiming, acknowledging, revising,
  and sealing buckets.

  Each change of a message is conditional on the version that the writer has
  read; an answer of `none` or `false` says that someone else was first.
-/

namespace LeaseQueue.Queue

/-- Writes a new message at the index, hidden for `delay`. -/
def write (q : Queue) (index : UInt64) (blob : Blob) (delay : Duration) : Op Message := do
  let now ← Op.now
  -- The tag is spent even if the call fails.
  let tag ← Op.drawTag
  let m := Message.fresh index blob tag now delay
  if ← Op.call (.insertMessage (q.bucketOf index) m) then return m
  else throw (.indexCollision index)

/-- Replaces a message by its successor, if the stored one meets the condition. -/
def replace (q : Queue) (successor : Message) (condition : Condition) : Op (Option Message) := do
  let applied ← Op.call (.updateMessage (q.bucketOf successor.index) successor condition)
  return if applied then some successor else none

def claim (q : Queue) (m : Message) (hide : Duration) : Op (Option Message) := do
  let now ← Op.now
  let successor ← Op.inRange (m.claimed? now hide)
  q.replace successor ⟨m.version, true⟩

def acknowledge (q : Queue) (m : Message) : Op Bool := do
  let successor ← Op.inRange m.acknowledged?
  return (← q.replace successor ⟨m.version, false⟩).isSome

/-- Gives a message as it was read a new payload, and hides it for `hide`. -/
def revise (q : Queue) (m : Message) (blob : Blob) (hide : Duration) : Op (Option Message) := do
  let now ← Op.now
  let successor ← Op.inRange (m.revised? blob now hide)
  q.replace successor ⟨m.version, true⟩

def fetch (q : Queue) (index : UInt64) : Op (Option Message) :=
  Op.call (.readMessage (q.bucketOf index) index)

/-- Seals a bucket, and answers when it was first sealed. -/
def sealBucket (bucket : UInt64) : Op Instant := do
  let now ← Op.now
  Op.call (.insertTombstone bucket now)

end LeaseQueue.Queue
