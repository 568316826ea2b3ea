import LeaseQueue.Queue
import LeaseQueue.Repair
import LeaseQueue.Retry

/-
  The settings of a node that serves queues, and what they turn into.

  Settings are what an operator writes. The queues, the route to the store and
  the repair configuration are made from them; limits that must be positive
  are looked at only then.
-/

namespace LeaseQueue

structure StorageSettings where
  latency : Option Duration
  maxRetries : Nat
  initialBackoff : Duration
  maxBackoff : Duration
  maxWait : Duration
  deriving DecidableEq, Repr

structure RepairSettings where
  grace : Duration
  interval : Duration
  deleteAcked : Bool
  deriving DecidableEq, Repr

/-- A queue, its limits not looked at yet. -/
structure QueueSettings where
  account : String
  name : String
  version : UInt32
  bucketSize : UInt64
  maxDeliveries : Option UInt32
  deriving DecidableEq, Repr

/-- A made-up load on each queue. -/
structure Workload where
  publishInterval : Duration
  consumeInterval : Duration
  messageSize : Nat
  invisibility : Duration
  /-- How likely a delivery is acknowledged. -/
  ackProbability : Float

/-- What an operator writes. -/
structure Settings where
  logLevel : String
  logJson : Bool
  metricsPort : Nat
  scanLimit : Nat
  storage : StorageSettings
  repair : RepairSettings
  queues : List QueueSettings
  workload : Option Workload

namespace Settings

inductive Fault where
  | scanLimit
  | queue (fault : Queue.Fault)
  | ackProbability
  deriving DecidableEq, Repr

def Fault.message : Fault → String
  | .scanLimit => "scan_limit must be positive"
  | .queue fault => fault.message
  | .ackProbability => "ack_probability must be within [0, 1]"

/-- The scan limit that readers use when none is set. -/
def defaultScanLimit : Nat := 128

/-- The scan limit, which is positive. -/
def readerLimit (s : Settings) : Except Fault Nat :=
  if s.scanLimit = 0 then .error .scanLimit else .ok s.scanLimit

end Settings

def QueueSettings.queue (s : QueueSettings) : Except Settings.Fault Queue :=
  (Queue.define s.account s.name s.version s.bucketSize s.maxDeliveries).mapError .queue

/-- Every queue, or the first fault. -/
def Settings.definitions (s : Settings) : Except Settings.Fault (List Queue) :=
  s.queues.mapM QueueSettings.queue

def StorageSettings.retry (s : StorageSettings) : RetryConfig :=
  ⟨s.maxRetries, s.initialBackoff, s.maxBackoff, s.maxWait⟩

def StorageSettings.route (s : StorageSettings) : Route := ⟨s.latency, some s.retry⟩

/-- How repair runs; the mailbox has its usual size. -/
def RepairSettings.config (s : RepairSettings) : Repair.Config :=
  { grace := s.grace, interval := s.interval, deleteAcked := s.deleteAcked }

/-- The probability lies within 0 and 1, which a value that is no number does not. -/
def Workload.validate (w : Workload) : Except Settings.Fault Unit :=
  if 0.0 ≤ w.ackProbability ∧ w.ackProbability ≤ 1.0 then .ok () else .error .ackProbability

end LeaseQueue
