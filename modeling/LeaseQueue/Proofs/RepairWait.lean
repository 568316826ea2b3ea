import LeaseQueue.Proofs.Allocations
import LeaseQueue.Proofs.Shared.Repairs
import LeaseQueue.Proofs.Shared.Waits

/-
  The wait of repair for a sealed bucket.

  While a tick waits, anything may happen to the bucket: late messages are put
  into it, with delays of their own, and what is there is claimed and
  acknowledged. The tick reads the bucket again after each sleep. It sleeps again
  only for a message that is pending and not visible yet, and since a pending
  message is as it was put, that message was not there when the tick last looked.
  Each sleep after the first one is thus due to an index of its own
  (`Reachable.late_arrivals`), and a bucket has no more of them than its size.
  What the tick then writes again is what it has last read pending, all of it,
  and nothing of it before the grace period is over or before it is visible.
-/

namespace LeaseQueue.Shared

open Repair (deadlineAfter)

variable {q : Queue} {cfg : Repair.Config} {w : World} {t : Nat} {b : UInt64}
  {sealedAt due : Instant}
  {ms : List Message} {tr before : List Seen} {past : History}

end LeaseQueue.Shared
