import LeaseQueue.Words

/-
  Queues: what names one, and how its log is cut into buckets.

  A queue is a log of messages at consecutive indices. Each bucket holds
  `bucketSize` indices; `bucketOf` and `bucketStart` go between the two.
-/

namespace LeaseQueue

/-- A queue. Its three names key every stored row; its bucket size is fixed for good. -/
structure Queue where
  account : String
  name : String
  version : UInt32
  bucketSize : UInt64
  /-- Deliveries after which a message is retired; `none` for no limit. -/
  maxDeliveries : Option UInt32
  bucketSize_ne_zero : bucketSize ≠ 0
  maxDeliveries_ne_zero : maxDeliveries ≠ some 0
  deriving DecidableEq, Repr

namespace Queue

/-- Two limits that a queue cannot have. -/
inductive Fault where
  | bucketSize (account name : String)
  | maxDeliveries (account name : String)
  deriving DecidableEq, Repr

/-- The wording of a fault, which names the queue without its version. -/
def Fault.message : Fault → String
  | .bucketSize account name =>
    "queue " ++ account ++ "/" ++ name ++ ": bucket_size must be positive"
  | .maxDeliveries account name =>
    "queue " ++ account ++ "/" ++ name ++ ": max_delivery_count must be positive"

/-- A queue with the given limits, the bucket size being looked at first. -/
def define (account name : String) (version : UInt32) (bucketSize : UInt64)
    (maxDeliveries : Option UInt32) : Except Fault Queue :=
  if hb : bucketSize = 0 then .error (.bucketSize account name)
  else if hm : maxDeliveries = some 0 then .error (.maxDeliveries account name)
  else .ok ⟨account, name, version, bucketSize, maxDeliveries, hb, hm⟩

def id (q : Queue) : String := q.account ++ "/" ++ q.name ++ "/" ++ toString q.version.toNat

/-- The bucket that holds an index. -/
def bucketOf (q : Queue) (index : UInt64) : UInt64 := index / q.bucketSize

/-- The first index of a bucket, if it is a word. -/
def bucketStart? (q : Queue) (bucket : UInt64) : Option UInt64 := wordMul? bucket q.bucketSize

/-- The bucket a cursor value falls into; values before index 0 fall into bucket 0. -/
def bucketOfCursor (q : Queue) (value : Int64) : UInt64 :=
  if value < 0 then 0 else q.bucketOf value.toUInt64

/-- Whether a message delivered `count` times is to be retired. -/
def exhausted (q : Queue) (count : UInt32) : Bool :=
  match q.maxDeliveries with
  | none => false
  | some most => most ≤ count

theorem bucketOf_toNat (q : Queue) (index : UInt64) :
    (q.bucketOf index).toNat = index.toNat / q.bucketSize.toNat := UInt64.toNat_div ..

theorem bucketOf_mono (q : Queue) {a b : UInt64} (h : a ≤ b) : q.bucketOf a ≤ q.bucketOf b := by
  rw [UInt64.le_iff_toNat_le, bucketOf_toNat, bucketOf_toNat]
  exact Nat.div_le_div_right (UInt64.le_iff_toNat_le.mp h)

/-- No message is retired before its first delivery. -/
theorem not_exhausted_zero (q : Queue) : q.exhausted 0 = false := by
  unfold exhausted
  split
  · rfl
  · rename_i most hmost
    refine decide_eq_false fun hle => q.maxDeliveries_ne_zero ?_
    have hzero : most = 0 :=
      UInt32.toNat_inj.mp (Nat.le_zero.mp (UInt32.le_iff_toNat_le.mp hle))
    rw [hmost, hzero]

end Queue

end LeaseQueue
