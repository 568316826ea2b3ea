/-
  What is counted, under which name, and with which description.
-/

namespace LeaseQueue

/-- An event that is counted for each queue. -/
inductive Counter where
  | deliveries
  | races
  | resurrections
  | retired
  | seals
  | deleted
  | failures
  | ghosts
  | ticks
  deriving DecidableEq, Repr

namespace Counter

/-- The events in the order of their names. -/
def all : List Counter :=
  [.deliveries, .races, .resurrections, .retired, .seals, .deleted, .failures, .ghosts, .ticks]

/-- The name of a counter, which begins with who counts. -/
def name : Counter → String
  | .deliveries => "reader_deliveries"
  | .races => "reader_races"
  | .resurrections => "reader_resurrections"
  | .retired => "reader_retired"
  | .seals => "reader_seals"
  | .deleted => "repair_deleted"
  | .failures => "repair_failures"
  | .ghosts => "repair_ghosts"
  | .ticks => "repair_ticks"

def help : Counter → String
  | .deliveries => "Messages handed to consumers"
  | .races => "Claims lost to a concurrent writer"
  | .resurrections => "Deliveries of messages whose invisibility timeout expired"
  | .retired => "Messages retired after reaching the maximum delivery count"
  | .seals => "Buckets sealed by readers"
  | .deleted => "Number of buckets deleted after every message was acknowledged"
  | .failures => "Number of repair ticks that failed"
  | .ghosts => "Number of ghost messages republished"
  | .ticks => "Number of completed repair ticks"

end Counter

/-- The name and description of the one gauge, the number of running repair workers. -/
def runningGauge : String × String := ("repair_running", "Number of running repair workers")

/-- Every counter and the gauge, by name. -/
def metricNames : List (String × String) :=
  (runningGauge :: Counter.all.map fun c => (c.name, c.help)).mergeSort fun a b => a.1 ≤ b.1

/-- How often each event was counted, by the key of the queue. -/
abbrev Meters := List ((String × Counter) × Nat)

namespace Meters

def count (m : Meters) (key : String) (c : Counter) : Nat := (m.lookup (key, c)).getD 0

def tally (key : String) (c : Counter) : Meters → Meters
  | [] => [((key, c), 1)]
  | (k, n) :: rest => if k = (key, c) then (k, n + 1) :: rest else (k, n) :: tally key c rest

end Meters

end LeaseQueue
