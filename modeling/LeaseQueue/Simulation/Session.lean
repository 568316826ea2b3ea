import LeaseQueue.Retry
import LeaseQueue.Settings.Basic
import LeaseQueue.Simulation.Command
import LeaseQueue.Simulation.World

/-
  Sessions: running a script of commands on a world.

  A command runs as one program in the foreground. While it runs, each call it
  sends is counted, and the steps that were set before that call run to their
  end at that moment. So another client can be placed between any two calls
  of an operation. A session in which something makes no end, or a worker breaks
  down, has no reports.
-/

namespace LeaseQueue.Simulation

structure Setup where
  queues : List Queue
  seed : UInt64 := 0
  route : Route := {}
  repair : Repair.Config := {}
  scanLimit : Nat := Settings.defaultScanLimit
  deriving DecidableEq, Repr

/-- What is watched while a step runs. -/
structure Watch where
  /-- Calls sent so far. -/
  calls : Nat := 0
  /-- Their lines, the last one first. -/
  lines : List String := []
  /-- Outcomes of injected steps, the last one first. -/
  injected : List Outcome := []
  deriving Repr

structure Session where
  setup : Setup
  world : World
  /-- Every receipt handed out so far. -/
  receipts : List Receipt := []
  /-- Messages kept under a name. -/
  kept : List (String × Message) := []
  /-- The manager of repair workers still takes requests. -/
  managed : Bool := true
  watch : Watch := {}

namespace Session

def start (setup : Setup) : Session :=
  { setup, world := { machine := { seed := setup.seed }, workers := [] } }

def giveUp (s : Session) : Session := { s with world := { s.world with broken := true } }

/-- Runs a program in the foreground for at most so many steps, of which at most so many send a
call; `onSend` sees every call set out. -/
def run (onSend : Call → Session → Session) (key : String) {α : Type} :
    Nat → Nat → Program α → Session → Option α × Session
  | 0, _, _, s => (none, s.giveUp)
  | _ + 1, _, .done a, s => (some a, s)
  | _ + 1, 0, .effect (.send _) _, s => (none, s.giveUp)
  | steps + 1, calls + 1, .effect (.send c) k, s => run onSend key steps calls (k ()) (onSend c s)
  | steps + 1, calls, .effect e k, s =>
    let (answer, world) := s.world.perform key e
    run onSend key steps calls (k answer) { s with world }
  | steps + 1, calls, .loop body begin k, s =>
    run onSend key steps calls (Program.unroll body begin k) s

def runOp (onSend : Call → Session → Session) (q : Queue) (refuse : Fault → Refusal) {α : Type}
    (reply : α → Reply) (op : Op α) (s : Session) : Outcome × Session :=
  match run onSend q.id patience callLimit (s.setup.route.apply op.run) s with
  | (none, s) => (.error .endless, s)
  | (some (.ok a), s) => (.ok (reply a), s)
  | (some (.error fault), s) => (.error (refuse fault), s)

/-- The receipt that a reference stands for; `none` if there is none in that place. -/
def receipt? (s : Session) : ReceiptRef → Except Receipt.Fault (Option Receipt)
  | .text text => (Receipt.decode text).map some
  | .place (.ofNat n) => .ok s.receipts[n]?
  | .place (.negSucc n) => .ok s.receipts.reverse[n]?

def message? (s : Session) : MessageRef → Option Message
  | .kept name => s.kept.lookup name
  | .full m => some m

def withWorkers (s : Session) (workers : Register Sleeper) : Session :=
  { s with world := { s.world with workers } }

/-- What a request to the manager of repair workers comes to. A worker that is to stop is cut off
where it waits. -/
def manage (s : Session) (r : Manager.Request) : Outcome × Session :=
  match Manager.judge s.world.workers r with
  | .tells reply => (.ok (Reply.ofManager reply), s)
  | .spawns q =>
    let rest := s.setup.route.apply (Repair.worker q s.setup.repair)
    let sleeper : Sleeper := ⟨s.world.machine.clock, rest⟩
    (.ok (.flag true), s.withWorkers (s.world.workers.enter q.id sleeper))
  | .stops key _ => (.ok (.flag true), s.withWorkers (s.world.workers.strike key))

/-- Stops every worker; the manager takes no requests after that. -/
def close (s : Session) : Outcome × Session :=
  (.ok (.flag true), { s.withWorkers [] with managed := false })

def request (s : Session) (act : Session → Outcome × Session) : Outcome × Session :=
  if s.managed then act s else (.ok .skipped, s)

/-- Every counter of a queue and the gauge. -/
def counts (s : Session) (key : String) : List (String × Nat) :=
  Counter.all.map (fun c => (c.name, Meters.count s.world.machine.meters key c))
    ++ [(runningGauge.1, s.world.workers.length)]

/-- Carries out a command on a queue. -/
def carryOut (onSend : Call → Session → Session) (q : Queue) (command : Command) (s : Session) :
    Outcome × Session :=
  let onQueue {α : Type} (reply : α → Reply) (op : Op α) := s.runOp onSend q .queue reply op
  let onStore {α : Type} (reply : α → Reply) (op : Op α) :=
    s.runOp onSend q Refusal.ofStoreFault reply op
  let withReceipt (ref : ReceiptRef) (act : Receipt → Outcome × Session) : Outcome × Session :=
    match s.receipt? ref with
    | .error fault => (.error (.receipt fault), s)
    | .ok none => (.ok .skipped, s)
    | .ok (some receipt) => act receipt
  let withMessage (ref : MessageRef) (act : Message → Outcome × Session) : Outcome × Session :=
    match s.message? ref with
    | none => (.ok .skipped, s)
    | some m => act m
  match command with
  | .put blob delay => onQueue .word (q.put blob delay)
  | .receive hide => onQueue .delivery (q.receive s.setup.scanLimit hide)
  | .ack ref => withReceipt ref fun r => onQueue .flag (q.ack r)
  | .update ref blob hide => withReceipt ref fun r => onQueue .receipt (q.update r blob hide)
  | .dropQueue => onQueue (fun _ => .nothing) Queue.drop
  | .nextMessage scanLimit hide => onQueue .message (q.nextMessage scanLimit hide)
  | .allocate => onStore .word LeaseQueue.allocate
  | .nextIndex => onStore .word LeaseQueue.nextIndex
  | .cursorGet cursor => onStore .value cursor.get
  | .cursorMove cursor expected desired => onStore .value (cursor.moveIf expected desired)
  | .write index blob delay => onQueue (fun m => .message (some m)) (q.write index blob delay)
  | .fetch index => onQueue .message (q.fetch index)
  | .claim ref hide => withMessage ref fun m => onQueue .message (q.claim m hide)
  | .revise ref blob hide => withMessage ref fun m => onQueue .message (q.revise m blob hide)
  | .acknowledge ref => withMessage ref fun m => onQueue .flag (q.acknowledge m)
  | .sealBucket bucket => onQueue (fun t => .instant (some t)) (Queue.sealBucket bucket)
  | .tableCall call => onQueue (Reply.ofAnswer call) (Op.call call)
  | .storeCall call => onStore (Reply.ofAnswer call) (Op.call call)
  | .tick => onQueue .tick (Repair.tick q s.setup.repair)
  | .start => s.request fun s => s.manage (.start q)
  | .stop => s.request fun s => s.manage (.stop q.id)
  | .running => s.request fun s => s.manage .running
  | .close => s.request close
  | .fail count =>
    let machine := { s.world.machine with outages := s.world.machine.outages + count }
    (.ok .nothing, { s with world := { s.world with machine } })
  | .advance d =>
    (.ok .nothing, { s with world := s.world.sleepUntil (s.world.machine.clock + d) })
  | .metrics => (.ok (.counts (s.counts q.id)), s)
  | .metricNames => (.ok (.names LeaseQueue.metricNames), s)

def keepReceipt (s : Session) (command : Command) (reply : Reply) : Session :=
  let handedOut : Option Receipt :=
    match command, reply with
    | .receive _, .delivery (some d) => some d.receipt
    | .update _ _ _, .receipt (some r) => some r
    | .nextMessage _ _, .message (some m) => some (Receipt.of m)
    | _, _ => none
  { s with receipts := s.receipts ++ handedOut.toList }

def keepMessage (s : Session) (name : Option String) (reply : Reply) : Session :=
  match name, reply.keepable? with
  | some name, some m => { s with kept := (name, m) :: s.kept }
  | _, _ => s

/-- Takes a step, and keeps what its reply hands out. -/
def take (onSend : Call → Session → Session) (step : Step) (s : Session) : Outcome × Session :=
  match s.setup.queues[step.queue]? with
  | none => (.ok .skipped, s)
  | some q =>
    match s.carryOut onSend q step.command with
    | (.ok reply, s) =>
      (.ok reply, (s.keepReceipt step.command reply).keepMessage step.keepAs reply)
    | (.error refusal, s) => (.error refusal, s)

def takeInjected (s : Session) (step : Step) : Session :=
  let (outcome, s) := s.take (fun _ s => s) step
  { s with watch := { s.watch with injected := outcome :: s.watch.injected } }

/-- Sees a call of a step set out: first takes the steps set before it, then counts it. -/
def onCall (injections : List Injection) (c : Call) (s : Session) : Session :=
  let due := (injections.filter (·.before = s.watch.calls)).flatMap Injection.steps
  let s := due.foldl takeInjected s
  { s with watch := { s.watch with calls := s.watch.calls + 1, lines := c.line :: s.watch.lines } }

structure Report where
  outcome : Outcome
  /-- The number of calls it sent. -/
  calls : Nat
  /-- Their lines in order. -/
  lines : List String
  /-- Outcomes of injected steps in order. -/
  injected : List Outcome
  /-- The clock after it. -/
  now : Instant
  /-- The cells of its queue after it. -/
  cells : Cells
  deriving Repr

def cellsAt (s : Session) (place : Nat) : Cells :=
  match s.setup.queues[place]? with
  | none => {}
  | some q => (s.world.machine.rows q.id).cells

/-- Takes a step of a script, and then lets the background do what is due. -/
def takeScripted (s : Session) (step : ScriptStep) : Report × Session :=
  let (outcome, s) := { s with watch := {} }.take (onCall step.injections) step.step
  let s := { s with world := s.world.settle }
  ({ outcome, calls := s.watch.calls, lines := s.watch.lines.reverse,
     injected := s.watch.injected.reverse, now := s.world.machine.clock,
     cells := s.cellsAt step.step.queue }, s)

/-- Takes every step of a script; `none` if the session is given up on the way. -/
def takeAll : List ScriptStep → Session → Option (List Report × Session)
  | [], s => some ([], s)
  | step :: rest, s =>
    let (report, s) := s.takeScripted step
    if s.world.broken then none
    else (takeAll rest s).map fun (reports, s) => (report :: reports, s)

end Session

structure BucketView where
  bucket : UInt64
  sealedAt : Option Instant
  messages : List Message
  deriving DecidableEq, Repr

structure QueueView where
  key : String
  cells : Cells
  buckets : List BucketView
  deriving DecidableEq, Repr

/-- A list without the neighbours that repeat an element. -/
def distinctSorted {α : Type} [DecidableEq α] : List α → List α
  | [] => []
  | [a] => [a]
  | a :: b :: rest => if a = b then distinctSorted (b :: rest) else a :: distinctSorted (b :: rest)

def bucketViews (rows : Rows) : List BucketView :=
  let numbers := rows.messages.map Row.bucket ++ rows.seals.map Prod.fst
  (distinctSorted (numbers.mergeSort fun a b => a ≤ b)).map fun bucket =>
    ⟨bucket, rows.sealedAt? bucket, rows.inBucket bucket⟩

def Session.views (s : Session) : List QueueView :=
  (distinctSorted ((s.setup.queues.map Queue.id).mergeSort fun a b => a ≤ b)).map fun key =>
    let rows := s.world.machine.rows key
    ⟨key, rows.cells, bucketViews rows⟩

/-- Runs a script from the start: what is reported of each step, and what is there in the end;
`none` if the session is given up. -/
def runScript (setup : Setup) (script : List ScriptStep) :
    Option (List Session.Report × List QueueView) :=
  ((Session.start setup).takeAll script).map fun (reports, s) => (reports, s.views)

end LeaseQueue.Simulation
