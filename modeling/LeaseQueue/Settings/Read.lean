import LeaseQueue.Settings.Basic
import LeaseQueue.Settings.Document

/-
  Reading settings from a document.

  Fields that are not known are passed over. Everything else must be there and
  of its type; only the optional fields may be missing or null, and `log_json`
  may be missing.
-/

namespace LeaseQueue

open Document

/-- A number of 64 bits, which is also how durations are written. -/
def Document.asWord? : Document → Option Nat := asNatBelow? UInt64.size

def Document.asWord32? (d : Document) : Option UInt32 :=
  (d.asNatBelow? UInt32.size).map UInt32.ofNat

def StorageSettings.ofDocument? (d : Document) : Option StorageSettings := do
  match ← d.fields? ["latency_ms", "max_retries", "initial_backoff_ms", "max_backoff_ms",
      "max_wait_ms"] with
  | [latency, retries, initial, most, wait] =>
    return {
      latency := ← optional asWord? latency
      maxRetries := ← required (asNatBelow? UInt32.size) retries
      initialBackoff := ← required asWord? initial
      maxBackoff := ← required asWord? most
      maxWait := ← required asWord? wait }
  | _ => none

def RepairSettings.ofDocument? (d : Document) : Option RepairSettings := do
  match ← d.fields? ["grace_period_ms", "interval_ms", "delete_acked"] with
  | [grace, interval, deleteAcked] =>
    return {
      grace := ← required asWord? grace
      interval := ← required asWord? interval
      deleteAcked := ← required asBool? deleteAcked }
  | _ => none

def QueueSettings.ofDocument? (d : Document) : Option QueueSettings := do
  match ← d.fields? ["account", "name", "version", "bucket_size", "max_delivery_count"] with
  | [account, name, version, bucketSize, maxDeliveries] =>
    return {
      account := ← required asText? account
      name := ← required asText? name
      version := ← required asWord32? version
      bucketSize := UInt64.ofNat (← required asWord? bucketSize)
      maxDeliveries := ← optional asWord32? maxDeliveries }
  | _ => none

def Workload.ofDocument? (d : Document) : Option Workload := do
  match ← d.fields? ["publish_interval_ms", "consume_interval_ms", "message_size",
      "invisibility_ms", "ack_probability"] with
  | [publish, consume, size, invisibility, probability] =>
    return {
      publishInterval := ← required asWord? publish
      consumeInterval := ← required asWord? consume
      messageSize := ← required asWord? size
      invisibility := ← required asWord? invisibility
      ackProbability := ← required asFloat? probability }
  | _ => none

def Settings.ofDocument? (d : Document) : Option Settings := do
  match ← d.fields? ["log_level", "log_json", "metrics_port", "scan_limit", "storage", "repair",
      "queues", "workload"] with
  | [logLevel, logJson, metricsPort, scanLimit, storage, repair, queues, workload] =>
    return {
      logLevel := ← required asText? logLevel
      logJson := ← defaulted false asBool? logJson
      metricsPort := ← required (asNatBelow? UInt16.size) metricsPort
      scanLimit := ← required asWord? scanLimit
      storage := ← required StorageSettings.ofDocument? storage
      repair := ← required RepairSettings.ofDocument? repair
      queues := ← (← required asList? queues).mapM QueueSettings.ofDocument?
      workload := ← optional Workload.ofDocument? workload }
  | _ => none

end LeaseQueue
