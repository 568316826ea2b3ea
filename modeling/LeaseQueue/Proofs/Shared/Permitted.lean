import LeaseQueue.Proofs.Shared.Obeys

/-
  What each request may do to the rows, and on what grounds.

  A task knows only what it has seen. `Permitted q r tr e` lists every effect
  that the request `r` asks for, with what it has seen by then that makes it ask.
  Statements about a whole run look up here why a write was made and never open
  an operation.
-/

namespace LeaseQueue.Shared

/-! ## What a task has seen -/

/-- The task has read the message. -/
def Known (tr : List Seen) (m : Message) : Prop :=
  (∃ b ms, ⟨.call (.readBucket b), .ok ms⟩ ∈ tr ∧ m ∈ ms) ∨
    ∃ b i, ⟨.call (.readMessage b i), .ok (some m)⟩ ∈ tr

abbrev Clocked (tr : List Seen) (t : Instant) : Prop := ⟨.now, t⟩ ∈ tr

/-- The task has asked for the call and was answered `a`. -/
abbrev Told (tr : List Seen) (c : Call) (a : c.Answer) : Prop := ⟨.call c, .ok a⟩ ∈ tr

def Sleepless (tr : List Seen) : Prop := ∀ wake, ⟨.sleepUntil wake, ()⟩ ∉ tr

/-- The latest answer to a read of the bucket, and what was seen before it. -/
def lastRead (b : UInt64) : List Seen → Option (List Message × List Seen)
  | [] => none
  | ⟨.call (.readBucket b'), .ok ms⟩ :: before =>
    if b' = b then some (ms, before) else lastRead b before
  | _ :: before => lastRead b before

/-- What the task last saw of the counter, read or standing in the way of a swap; nothing once a
swap of its own went through. -/
def counterSeen : List Seen → Option (Option Int64)
  | [] => none
  | ⟨.call (.readCell .counter), .ok cell⟩ :: _ => some cell
  | ⟨.call (.swapCell .counter _ _), .ok (.conflict found)⟩ :: _ => some found
  | ⟨.call (.swapCell .counter _ _), .ok .swapped⟩ :: _ => none
  | _ :: before => counterSeen before

/-- The index that the task has taken and has not written to since. -/
def inHand : List Seen → Option UInt64
  | [] => none
  | ⟨.call (.swapCell .counter seen _), .ok .swapped⟩ :: _ => some (counterValue seen).toUInt64
  | ⟨.call (.insertMessage _ _), _⟩ :: _ => none
  | _ :: before => inHand before

/-- The tag that the task has drawn and has not written since. -/
def tagInHand : List Seen → Option Tag
  | [] => none
  | ⟨.drawTag, tag⟩ :: _ => some tag
  | ⟨.call (.insertMessage _ _), _⟩ :: _ => none
  | _ :: before => tagInHand before

/-- A swap that expects the cursor at `position`. A cursor without a cell is at its first
position. -/
def Expects (c : Cursor) (position : Int64) (expected : Option Int64) : Prop :=
  expected = some position ∨ (expected = none ∧ position = c.initial)

/-! ## Grounds for a write -/

section
variable (q : Queue) (tr : List Seen)

/-- A fresh message at an index that the task has taken, with a tag that it has drawn. -/
structure Inserts (blob : Blob) (delay : Duration) (m : Message) : Prop where
  hand : inHand tr = some m.index
  tagged : tagInHand tr = some m.tag
  fresh : ∃ t tag, Clocked tr t ∧ m = Message.fresh m.index blob tag t delay

/-- A reader claims a message that it has read unacknowledged and found visible. -/
structure Claims (hide : Duration) (m next : Message) : Prop where
  known : Known tr m
  unacked : m.acked = false
  visible : ∃ t, Clocked tr t ∧ m.visibleAt ≤ t
  within : q.exhausted m.deliveries = false
  next : ∃ t, Clocked tr t ∧ m.claimed? t hide = some next

/-- A reader retires a message that it has read unacknowledged. -/
structure Retires (m next : Message) : Prop where
  known : Known tr m
  unacked : m.acked = false
  spent : q.exhausted m.deliveries = true
  next : m.acknowledged? = some next

/-- A consumer's receipt fits the message it has read. -/
structure Authorized (r : Receipt) (m : Message) : Prop where
  told : Told tr (.readMessage (q.bucketOf r.index) r.index) (some m)
  fits : r.fits m = true

/-- Repair acknowledges a message that it has read pending. -/
structure Settles (m next : Message) : Prop where
  known : Known tr m
  pending : m.pending = true
  next : m.acknowledged? = some next

/-- The invisibility cursor is to stand on a message of the bucket it is in, and not past the first
one there that was never handed out. -/
def Parks (position target : Int64) : Prop :=
  ∃ ms before m, lastRead (q.bucketOfCursor position) tr = some (ms, before) ∧ m ∈ ms ∧
    target = m.index.toInt64 ∧ ∀ i, Queue.firstPending ms = some i → m.index ≤ i

/-- The invisibility cursor is to leave a bucket in which all was acknowledged and which the
counter has passed. -/
structure Leaves (position target : Int64) : Prop where
  settled : ∃ ms before, lastRead (q.bucketOfCursor position) tr = some (ms, before) ∧
    ∀ m ∈ ms, m.acked = true
  passed : ∃ cell, Told tr (.readCell .counter) cell ∧
    q.bucketOfCursor position < q.bucketOf (counterValue cell).toUInt64
  target : ∃ next start, wordSucc? (q.bucketOfCursor position) = some next ∧
    q.bucketStart? next = some start ∧ target = start.toInt64

/-- A bucket takes no more messages, as far as a reader can tell. -/
def Closed (b : UInt64) : Prop :=
  (∃ ms, Told tr (.readBucket b) ms ∧ ms.length = q.bucketSize.toNat) ∨
    ∃ cell, Told tr (.readCell .counter) cell ∧ b < q.bucketOf (counterValue cell).toUInt64

/-- A reader seals a bucket that takes no more messages, in which none was left to claim. -/
structure Seals (b : UInt64) : Prop where
  spent : ∃ ms t, Told tr (.readBucket b) ms ∧ Clocked tr t ∧
    ∀ m ∈ ms, m.acked = true ∨ t < m.visibleAt
  closed : Closed q tr b

/-- How repair came to be done with its wait for a bucket, `before` being what it had seen before
it last read the bucket as `ms`. -/
inductive Awaited (cfg : Repair.Config) (b : UInt64) (ms : List Message) (before : List Seen) :
    Prop where
  /-- The bucket is full of acknowledged messages, so that there was nothing to wait for. -/
  | full (size : ms.length = q.bucketSize.toNat) (acked : ∀ m ∈ ms, m.acked = true)
  /-- It read the bucket again after it had slept until the grace period was over. -/
  | slept {sealedAt wake : Instant} (told : Told tr (.readTombstone b) (some sealedAt))
    (slept : ⟨.sleepUntil wake, ()⟩ ∈ before) (due : sealedAt + cfg.grace ≤ wake)
  /-- It never slept: its first look at the clock, after it had read the bucket, found the grace
  period over. -/
  | atOnce {sealedAt now : Instant} (told : Told tr (.readTombstone b) (some sealedAt))
    (clocked : Clocked tr now) (due : sealedAt + cfg.grace ≤ now)
    (never : Sleepless tr)

/-- Repair has tried to acknowledge the message as it had read it; `done` says whether it was still
so. -/
def Tried (m : Message) (done : Bool) : Prop :=
  ∃ next, m.acknowledged? = some next ∧
    Told tr (.updateMessage (q.bucketOf m.index) next ⟨m.version, false⟩) done

/-- Repair is done with a bucket: all that it last read there was acknowledged or delivered before,
or was written again. -/
structure Repaired (cfg : Repair.Config) (b : UInt64) : Prop where
  handled : ∃ ms before, lastRead b tr = some (ms, before) ∧ Awaited q tr cfg b ms before ∧
    ∀ m ∈ ms, m.acked = true ∨ m.delivered = true ∨ ∃ done, Tried q tr m done

/-- Repair moves its cursor past a bucket. -/
structure Passes (cfg : Repair.Config) (b next : UInt64) : Prop extends Repaired q tr cfg b where
  step : next.toNat = b.toNat + 1
  passed : ∃ cell, Told tr (.readCell .counter) cell ∧
    next ≤ q.bucketOf (counterValue cell).toUInt64

/-- Repair deletes a bucket: all that it last read there was acknowledged, some of it by itself. -/
structure Clears (cfg : Repair.Config) (b : UInt64) : Prop where
  settled : ∃ ms before, lastRead b tr = some (ms, before) ∧ Awaited q tr cfg b ms before ∧
    ∀ m ∈ ms, m.acked = true ∨ Tried q tr m true

end

/-! ## What a request may ask for -/

/-- The effect may change the rows. -/
def Writing : Effect → Bool
  | .call (.swapCell _ _ _) => true
  | .call (.insertMessage _ _) => true
  | .call (.updateMessage _ _ _) => true
  | .call (.insertTombstone _ _) => true
  | .call (.deleteBucket _) => true
  | .call .dropQueue => true
  | _ => false

/-- Every effect that a request asks for, and why. -/
inductive Permitted (q : Queue) : Request → List Seen → Effect → Prop where
  | looks {r : Request} {tr : List Seen} {e : Effect} (h : Writing e = false) : Permitted q r tr e
  | takes {r : Request} {tr : List Seen} {seen : Option Int64} {next : Int64}
    (saw : counterSeen tr = some seen) (h : cellSucc? (counterValue seen) = some next) :
    Permitted q r tr (.call (.swapCell .counter seen next))
  | puts {blob : Blob} {delay : Duration} {tr : List Seen} {m : Message}
    (h : Inserts tr blob delay m) :
    Permitted q (.put blob delay) tr (.call (.insertMessage (q.bucketOf m.index) m))
  | copies {cfg : Repair.Config} {tr : List Seen} {ghost m : Message} (known : Known tr ghost)
    (pending : ghost.pending = true) (h : Inserts tr ghost.blob 0 m) :
    Permitted q (.tick cfg) tr (.call (.insertMessage (q.bucketOf m.index) m))
  | claims {limit : Nat} {hide : Duration} {tr : List Seen} {m next : Message}
    (h : Claims q tr hide m next) :
    Permitted q (.receive limit hide) tr
      (.call (.updateMessage (q.bucketOf m.index) next ⟨m.version, true⟩))
  | retires {limit : Nat} {hide : Duration} {tr : List Seen} {m next : Message}
    (h : Retires q tr m next) :
    Permitted q (.receive limit hide) tr
      (.call (.updateMessage (q.bucketOf m.index) next ⟨m.version, false⟩))
  | acks {r : Receipt} {tr : List Seen} {m next : Message} (h : Authorized q tr r m)
    (hn : m.acknowledged? = some next) :
    Permitted q (.ack r) tr
      (.call (.updateMessage (q.bucketOf m.index) next ⟨m.version, false⟩))
  | revises {r : Receipt} {blob : Blob} {hide : Duration} {tr : List Seen} {m next : Message}
    {t : Instant} (h : Authorized q tr r m) (ht : Clocked tr t)
    (hn : m.revised? blob t hide = some next) :
    Permitted q (.update r blob hide) tr
      (.call (.updateMessage (q.bucketOf m.index) next ⟨m.version, true⟩))
  | settles {cfg : Repair.Config} {tr : List Seen} {m next : Message} (h : Settles tr m next) :
    Permitted q (.tick cfg) tr
      (.call (.updateMessage (q.bucketOf m.index) next ⟨m.version, false⟩))
  | parks {limit : Nat} {hide : Duration} {tr : List Seen} {position target : Int64}
    {expected : Option Int64} (he : Expects .invisibility position expected)
    (h : Parks q tr position target) :
    Permitted q (.receive limit hide) tr (.call (.swapCell .invisibility expected target))
  | leaves {limit : Nat} {hide : Duration} {tr : List Seen} {position target : Int64}
    {expected : Option Int64} (he : Expects .invisibility position expected)
    (h : Leaves q tr position target) :
    Permitted q (.receive limit hide) tr (.call (.swapCell .invisibility expected target))
  | seals {limit : Nat} {hide : Duration} {tr : List Seen} {b : UInt64} {t : Instant}
    (ht : Clocked tr t) (h : Seals q tr b) :
    Permitted q (.receive limit hide) tr (.call (.insertTombstone b t))
  | advances {limit : Nat} {hide : Duration} {tr : List Seen} {position next : Int64}
    {expected : Option Int64} {t sealedAt : Instant}
    (he : Expects .readerBucket position expected)
    (told : Told tr (.insertTombstone position.toUInt64 t) sealedAt)
    (h : cellSucc? position = some next) :
    Permitted q (.receive limit hide) tr (.call (.swapCell .readerBucket expected next))
  | passes {cfg : Repair.Config} {tr : List Seen} {b next : UInt64} {expected : Option Int64}
    (he : Expects .repairBucket b.toInt64 expected) (h : Passes q tr cfg b next) :
    Permitted q (.tick cfg) tr (.call (.swapCell .repairBucket expected next.toInt64))
  | clears {cfg : Repair.Config} {tr : List Seen} {b : UInt64} (wanted : cfg.deleteAcked = true)
    (h : Clears q tr cfg b) :
    Permitted q (.tick cfg) tr (.call (.deleteBucket b))
  | drops {tr : List Seen} : Permitted q .drop tr (.call .dropQueue)

/-- Which faults a request may end in: it tells of a collision only when its insert was refused. -/
def Faults (q : Queue) (tr : List Seen) : Fault → Prop
  | .indexCollision i => ∃ m, m.index = i ∧ Told tr (.insertMessage (q.bucketOf i) m) false
  | _ => True

/-- What a request may end in after what it has seen: a receipt is handed out only for a write that
was applied, and an acknowledgement is confirmed only if it was. -/
inductive Ends (q : Queue) : Request → List Seen → Result → Prop where
  | faults {r : Request} {tr : List Seen} {f : Fault} (h : Faults q tr f) : Ends q r tr (.error f)
  | put {blob : Blob} {delay : Duration} {tr : List Seen} {m : Message}
    (told : Told tr (.insertMessage (q.bucketOf m.index) m) true) :
    Ends q (.put blob delay) tr (.ok (.index m.index))
  | nothing {limit : Nat} {hide : Duration} {tr : List Seen} :
    Ends q (.receive limit hide) tr (.ok (.delivery none))
  | received {limit : Nat} {hide : Duration} {tr : List Seen} {m : Message} {v : UInt64}
    (told : Told tr (.updateMessage (q.bucketOf m.index) m ⟨v, true⟩) true) :
    Ends q (.receive limit hide) tr (.ok (.delivery (some (Delivery.of m))))
  | unacked {r : Receipt} {tr : List Seen} : Ends q (.ack r) tr (.ok (.acked false))
  | acked {r : Receipt} {tr : List Seen} {m : Message}
    (told : Told tr (.updateMessage (q.bucketOf r.index) m ⟨r.version, false⟩) true) :
    Ends q (.ack r) tr (.ok (.acked true))
  | stale {r : Receipt} {blob : Blob} {hide : Duration} {tr : List Seen} :
    Ends q (.update r blob hide) tr (.ok (.updated none))
  | updated {r : Receipt} {blob : Blob} {hide : Duration} {tr : List Seen} {m : Message}
    (told : Told tr (.updateMessage (q.bucketOf m.index) m ⟨r.version, true⟩) true) :
    Ends q (.update r blob hide) tr (.ok (.updated (some (Receipt.of m))))
  | ticked {cfg : Repair.Config} {tr : List Seen} {tick : Repair.Tick} :
    Ends q (.tick cfg) tr (.ok (.ticked tick))
  | dropped {tr : List Seen} : Ends q .drop tr (.ok .dropped)

end LeaseQueue.Shared
