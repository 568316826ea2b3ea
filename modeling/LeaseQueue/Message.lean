import LeaseQueue.Tag
import LeaseQueue.Words

/-
  Messages, and what each conditional write makes of one.

  A message is written once and afterwards only replaced by one of three
  successors: claimed by a reader, acknowledged, or given a new payload. Each
  raises the version by one, so whoever holds an older version can be told.
-/

namespace LeaseQueue

/-- Milliseconds since the epoch. -/
abbrev Instant := Nat

abbrev Duration := Nat

abbrev Blob := List UInt8

structure Message where
  /-- Its place in the log. -/
  index : UInt64
  blob : Blob
  /-- The number of conditional writes so far. -/
  version : UInt64
  /-- How often it was handed out. -/
  deliveries : UInt32
  acked : Bool
  /-- It is not handed out before this instant. -/
  visibleAt : Instant
  tag : Tag
  createdAt : Instant
  deriving DecidableEq, Repr

namespace Message

/-- The message as first written. -/
def fresh (index : UInt64) (blob : Blob) (tag : Tag) (now : Instant) (delay : Duration) : Message :=
  ⟨index, blob, 0, 0, false, now + delay, tag, now⟩

/-- May be handed out at `now`. -/
def visible (m : Message) (now : Instant) : Bool := m.visibleAt ≤ now

def delivered (m : Message) : Bool := 0 < m.deliveries

/-- The successor after a claim that hides the message for `hide`. -/
def claimed? (m : Message) (now : Instant) (hide : Duration) : Option Message :=
  (wordSucc? m.version).map fun version =>
    { m with version, deliveries := countUp m.deliveries, visibleAt := now + hide }

def acknowledged? (m : Message) : Option Message :=
  (wordSucc? m.version).map fun version => { m with version, acked := true }

/-- The successor with a new payload, hidden for `hide`. -/
def revised? (m : Message) (blob : Blob) (now : Instant) (hide : Duration) : Option Message :=
  (wordSucc? m.version).map fun version => { m with version, blob, visibleAt := now + hide }

/-- Unacknowledged and never handed out. -/
def pending (m : Message) : Bool := !m.acked && !m.delivered

/-- Handed out, unacknowledged, and still hidden. -/
def inFlight (m : Message) (now : Instant) : Bool := !m.acked && m.delivered && !m.visible now

/-- Handed out, unacknowledged, and visible again. -/
def expired (m : Message) (now : Instant) : Bool := !m.acked && m.delivered && m.visible now

end Message

end LeaseQueue
