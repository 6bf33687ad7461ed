import Mathlib.Data.List.FinRange
import ScietexLogging.Asyncio.Machine
import ScietexLogging.Broker.Segments
import ScietexLogging.Lifecycle.Handler
import ScietexLogging.Sink.Segments

/-!
# Pipeline — the whole handler

Any number of threads calling `emit`, the bridge, the workers of any number of
backends, and one host calling `start_logging`, `stop_logging` and `close` one
after the other.

`emit` is cut at every statement that touches a shared object, `start_logging`
and `stop_logging` at every suspension and at every statement another thread can
see the effect of, the bridge and the workers at their suspensions. The event
loop runs its callbacks one at a time; the schedules here interleave them freely
at these cuts, so every schedule of the loop is among them.

Every start makes a new ingress, event and bridge task, known by its number. A
worker task is known by its start and its backend.
-/

namespace ScietexLogging

open Asyncio

-- ---------------------------------------------------------------------------
-- Records and backends
-- ---------------------------------------------------------------------------

/-- What `emit` puts into an ingress: the record of its `call`-th call, put in
after the `cycle`-th start. -/
structure Emitted where
  call : Nat
  cycle : Nat
  record : LogRecord

/-- An item of a backend queue. -/
inductive Item where
  | emitted (e : Emitted)
  | status (cycle : Nat) (record : LogRecord)

namespace Item

def record : Item → LogRecord
  | .emitted e => e.record
  | .status _ r => r

def cycle : Item → Nat
  | .emitted e => e.cycle
  | .status c _ => c

def call? : Item → Option Nat
  | .emitted e => some e.call
  | .status _ _ => none

end Item

/-- `DrainStatus`, with the error of a failed drain. -/
inductive DrainStatus where
  | completed
  | timeout
  | error (exc : String)
  deriving DecidableEq, Repr

/-- `_status_record`, for a backend whose display name capitalises to `label`;
`time` is when the record is made. -/
def statusRecord (label : String) (status : DrainStatus) (time : String) : LogRecord where
  levelno :=
    match status with
    | .completed => 20
    | .timeout | .error _ => 40
  name := label ++ "Logger"
  message := .ok <|
    match status with
    | .completed => label ++ " Logger has completed processing its queue."
    | .timeout => "Timeout while waiting for " ++ label ++ " logger to complete its queue."
    | .error exc => "Error while waiting for " ++ label ++ " Logger: " ++ exc
  time := .ok time

inductive BackendKind where
  | sink (kind : SinkKind)
  | broker (ownsClient : Bool)
  deriving DecidableEq, Repr

/-- The worker of a backend. -/
def BackendKind.program : BackendKind → Consumer Item Outcome
  | .sink kind => sinkConsumer kind Item
  | .broker ownsClient => brokerConsumer ownsClient fun x => logEntry x.record

/-- The registered backends, in registration order. -/
structure Config (k : Nat) where
  kind : Fin k → BackendKind
  queueMaxsize : Fin k → Nat
  /-- The backend registered its `report_status`. -/
  reporter : Fin k → Bool
  label : Fin k → String

variable {k : Nat}

def Config.worker (cfg : Config k) (i : Fin k) : Consumer Item Outcome := (cfg.kind i).program

/-- A backend with its queue, and a worker task for each start. -/
structure Desk (C : Consumer Item Outcome) where
  shared : C.Shared
  ledger : Ledger Item Outcome
  tasks : Nat → Option C.Task
  /-- How many items the queue had been given when the last start began. -/
  base : Nat

namespace Desk

variable {C : Consumer Item Outcome}

def new (C : Consumer Item Outcome) (maxsize : Nat) : Desk C where
  shared := C.initial
  ledger := Ledger.new maxsize
  tasks := fun _ => none
  base := 0

/-- `put_nowait` raises `QueueFull`. -/
def refuses (d : Desk C) (x : Item) : Bool := (d.ledger.put x).isNone

/-- `put_nowait`; an item that does not fit is not put in. -/
def offer (d : Desk C) (x : Item) : Desk C := { d with ledger := (d.ledger.put x).getD d.ledger }

def offerAll (d : Desk C) (xs : List Item) : Desk C := xs.foldl offer d

/-- `create_task(factory())` -/
def hire (d : Desk C) (c : Nat) : Desk C :=
  { d with tasks := Function.update d.tasks c (some C.create) }

/-- `task.cancel()`, which does nothing to a finished task. -/
def cancelTask (t : C.Task) : C.Task := if (C.ended t).isSome then t else C.cancel t

def cancelIf (d : Desk C) (p : Nat → Bool) : Desk C :=
  { d with tasks := fun c => if p c then (d.tasks c).map cancelTask else d.tasks c }

/-- One segment of the worker of the `c`-th start. -/
def work (d : Desk C) (running : Bool) (c : Nat) (a : C.Act) : Option (Desk C) :=
  (d.tasks c).bind fun t => (C.step running a (d.shared, d.ledger, t)).map fun y =>
    { d with shared := y.1, ledger := y.2.1, tasks := Function.update d.tasks c (some y.2.2) }

def taskEnd (d : Desk C) (c : Nat) : Option TaskEnd := (d.tasks c).bind C.ended

/-- The entries a record of an `emit` call was put in as, call by call. -/
def calls (d : Desk C) : List Nat := d.ledger.log.filterMap Item.call?

end Desk

-- ---------------------------------------------------------------------------
-- emit, the ingress and the bridge
-- ---------------------------------------------------------------------------

inductive EmitEnd where
  | notAccepting   -- the accept event was clear
  | released       -- a reference was None
  | full           -- reported
  | delivered
  deriving DecidableEq, Repr

/-- Where a call of `emit` stands, with the references it has read. -/
inductive EmitPc where
  | idle
  | called (r : LogRecord)
  | readIngress (r : LogRecord)
  | readLoop (r : LogRecord) (ingress : Option Nat)
  | readEvent (r : LogRecord) (ingress : Option Nat) (loop : Bool)
  | put (r : LogRecord) (ingress event : Nat)
  | wake (ingress event : Nat)
  | done (o : EmitEnd)

/-- An `asyncio.Event`, and the `set` calls scheduled on the loop for it. -/
structure EventState where
  flag : Bool
  callbacks : Nat

/-- Where the bridge stands, with its local references. -/
inductive BridgePc where
  | absent
  | created
  | atWait (ingress event : Nat)
  | waiting (ingress event : Nat)    -- suspended in `wait()`
  | woken (ingress event : Nat)      -- the event was set; scheduled to go on
  | moving (ingress event : Nat)     -- in the inner loop
  | ended (e : TaskEnd)
  deriving DecidableEq, Repr

structure BridgeTask where
  pc : BridgePc
  cancelRequested : Bool

/-- A record taken out of an ingress: offered to the backends, some of which
refused it, or (`none`) thrown away by the teardown. -/
structure Taken (k : Nat) where
  ingress : Nat
  call : Nat
  refusedBy : Option (Fin k → Bool)

/-- A call of the handler's `_report_error`. -/
inductive Report (k : Nat) where
  | ingressFull (call : Nat)
  | queueFull (i : Fin k) (call : Nat)
  deriving DecidableEq, Repr

/-- What `emit` shares with the rest. -/
structure Intake (k : Nat) where
  emits : Nat → EmitPc
  calls : Nat
  ingress : Nat → BoundedQueue Emitted
  event : Nat → EventState
  /-- The calls whose records were put into each ingress. -/
  entered : Nat → List Nat
  taken : List (Taken k)
  reports : List (Report k)

-- ---------------------------------------------------------------------------
-- start_logging and stop_logging
-- ---------------------------------------------------------------------------

inductive DrainPc where
  | joining
  | joined                     -- the unfinished count was seen at zero
  | done (status : DrainStatus)
  deriving DecidableEq, Repr

def DrainPc.status? : DrainPc → Option DrainStatus
  | .done st => some st
  | _ => none

/-- Where the host's call stands. -/
inductive Life (k : Nat) where
  | idle
  | startIngress (maxsize : Nat)
  | startEvent
  | startBridge
  | startWorkers
  | awaitBridge
  | flushing
  | draining (ds : Fin k → DrainPc)
  | gathering                  -- wait_for(gather(...)), before the deadline
  | timedOut                   -- the same, cancelled at the deadline
  | reaping                    -- gather(..., return_exceptions=True)
  | clearing (n : Nat)         -- emptying the n-th backend queue
  | clearingIngress
  | releaseLoop
  | releaseIngress
  | releaseEvent

structure Pipeline (cfg : Config k) where
  handler : Handler k
  /-- How often `start_logging` got past its guards. -/
  starts : Nat
  life : Life k
  bridge : Nat → BridgeTask
  intake : Intake k
  desks : (i : Fin k) → Desk (cfg.worker i)
  /-- What had entered each ingress when a flush last saw it empty. -/
  flushed : Nat → Option (List Nat)

inductive PipelineAct (cfg : Config k) where
  | emitCall (r : LogRecord)
  | emit (n : Nat)
  | runSet (e : Nat)                    -- the loop runs a scheduled `set`
  | bridge (b : Nat)
  | worker (i : Fin k) (c : Nat) (a : (cfg.worker i).Act)
  | cancelWorker (i : Fin k) (c : Nat)  -- by someone else than `stop_logging`
  | close
  | start (maxsize : Nat)
  | stop
  | advance                             -- the host's call executes its next statement
  | bridgeAwaited
  | joined (i : Fin k)
  | drainReturns (i : Fin k)
  | drainTimesOut (i : Fin k)
  | drainFails (i : Fin k) (exc : String)
  | report (times : Fin k → Fin k → String)
  | gathered
  | gatherRaises
  | deadline
  | gatherEnds
  | gatherEndsRaising
  | reaped

namespace Intake

def setEmit (x : Intake k) (n : Nat) (pc : EmitPc) : Intake k :=
  { x with emits := Function.update x.emits n pc }

/-- `call_soon_threadsafe(event.set)` -/
def schedule (x : Intake k) (e : Nat) : Intake k :=
  { x with
    event := Function.update x.event e ⟨(x.event e).flag, (x.event e).callbacks + 1⟩ }

/-- `event.clear()` -/
def clearEvent (x : Intake k) (e : Nat) : Intake k :=
  { x with event := Function.update x.event e ⟨false, (x.event e).callbacks⟩ }

def addReports (x : Intake k) (rs : List (Report k)) : Intake k :=
  { x with reports := x.reports ++ rs }

def addTaken (x : Intake k) (o : Taken k) : Intake k := { x with taken := x.taken ++ [o] }

/-- `get_nowait` on ingress `g`. -/
def take (x : Intake k) (g : Nat) : Option (Emitted × Intake k) :=
  (x.ingress g).getNowait.map fun p =>
    (p.1, { x with ingress := Function.update x.ingress g p.2 })

/-- `put_nowait` on ingress `g`, by call `n`. -/
def put (x : Intake k) (n g : Nat) (r : LogRecord) (starts : Nat) : Option (Intake k) :=
  ((x.ingress g).putNowait ⟨n, starts, r⟩).map fun q =>
    { x with
      ingress := Function.update x.ingress g q
      entered := Function.update x.entered g (x.entered g ++ [n]) }

/-- A call of `emit` executes its next statement. -/
def emitStep (x : Intake k) (h : Handler k) (starts n : Nat) : Option (Intake k) :=
  match x.emits n with
  | .called r =>
    some (x.setEmit n (if h.loggingAcceptEvent then .readIngress r else .done .notAccepting))
  | .readIngress r => some (x.setEmit n (.readLoop r h.ingress))
  | .readLoop r g => some (x.setEmit n (.readEvent r g h.loop))
  | .readEvent r g l =>
    match g, l, h.ingressEvent with
    | some g, true, some e => some (x.setEmit n (.put r g e))
    | _, _, _ => some (x.setEmit n (.done .released))
  | .put r g e =>
    match x.put n g r starts with
    | some x => some (x.setEmit n (.wake g e))
    | none => some ((x.addReports [.ingressFull n]).setEmit n (.done .full))
  | .wake _ e => some ((x.schedule e).setEmit n (.done .delivered))
  | .idle | .done _ => none

end Intake

/-- What the `set` of event `e` does to a bridge. -/
def BridgeTask.wake (b : BridgeTask) (e : Nat) : BridgeTask :=
  match b.pc with
  | .waiting g e' => if e' = e then { b with pc := .woken g e } else b
  | _ => b

def BridgeTask.cancel (b : BridgeTask) : BridgeTask :=
  match b.pc with
  | .ended _ => b
  | _ => { b with cancelRequested := true }

namespace Pipeline

variable {cfg : Config k}

def init (cfg : Config k) : Pipeline cfg where
  handler := .fresh k
  starts := 0
  life := .idle
  bridge := fun _ => ⟨.absent, false⟩
  intake :=
    { emits := fun _ => .idle
      calls := 0
      ingress := fun _ => .new 0
      event := fun _ => ⟨false, 0⟩
      entered := fun _ => []
      taken := []
      reports := [] }
  desks := fun i => .new (cfg.worker i) (cfg.queueMaxsize i)
  flushed := fun _ => none

def setLife (s : Pipeline cfg) (l : Life k) : Pipeline cfg := { s with life := l }

def setBridge (s : Pipeline cfg) (b : Nat) (pc : BridgePc) : Pipeline cfg :=
  { s with bridge := Function.update s.bridge b { s.bridge b with pc := pc } }

/-- `for backend_queue in self.log_queues.values(): ...`, for a record taken out
of ingress `g`. -/
def fanOut (s : Pipeline cfg) (g : Nat) (e : Emitted) : Pipeline cfg :=
  let refused := fun i => (s.desks i).refuses (.emitted e)
  { s with
    intake := (s.intake.addTaken ⟨g, e.call, some refused⟩).addReports
      (((List.finRange k).filter refused).map (.queueFull · e.call))
    desks := fun i => (s.desks i).offer (.emitted e) }

/-- One turn of the inner loop of `_bridge_loop`, and of the flush in
`stop_logging`; `none` when the ingress is empty. -/
def moveOne (s : Pipeline cfg) (g : Nat) : Option (Pipeline cfg) :=
  (s.intake.take g).map fun p => { s with intake := p.2 }.fanOut g p.1

/-- The bridge of start `b` runs up to its next cut. -/
def bridgeStep (s : Pipeline cfg) (b : Nat) : Option (Pipeline cfg) :=
  match (s.bridge b).pc, (s.bridge b).cancelRequested with
  | .created, true | .waiting _ _, true | .woken _ _, true =>
    some (s.setBridge b (.ended .cancelled))
  | .created, false =>
    match s.handler.ingress, s.handler.ingressEvent with
    | some g, some e => some (s.setBridge b (.atWait g e))
    | _, _ => some (s.setBridge b (.ended .raised))
  | .atWait g e, _ =>
    if (s.intake.event e).flag then
      some ({ s with intake := s.intake.clearEvent e }.setBridge b (.moving g e))
    else some (s.setBridge b (.waiting g e))
  | .woken g e, false =>
    some ({ s with intake := s.intake.clearEvent e }.setBridge b (.moving g e))
  | .moving g e, _ =>
    match s.moveOne g with
    | some s => some s
    | none => some (s.setBridge b (.atWait g e))
  | .waiting _ _, false | .absent, _ | .ended _, _ => none

def taskEnd (s : Pipeline cfg) (t : TaskId k) : Option TaskEnd := (s.desks t.2).taskEnd t.1

/-- `for task in self.log_workers_tasks: if not task.done(): task.cancel()` -/
def cancelAll (s : Pipeline cfg) : Pipeline cfg :=
  { s with
    desks := fun i => (s.desks i).cancelIf fun c =>
      s.handler.logWorkersTasks.any fun t => decide (t = (c, i)) }

/-- `reporter(results)` for every registered reporter; reporter `i` makes its record of
backend `j` at `times i j`. -/
def reportStatus (s : Pipeline cfg) (results : List DrainStatus) (times : Fin k → Fin k → String) :
    Pipeline cfg :=
  { s with
    desks := fun i =>
      if cfg.reporter i then
        (s.desks i).offerAll (((List.finRange k).zip results).map fun p =>
          .status s.starts (statusRecord (cfg.label p.1) p.2 (times i p.1)))
      else s.desks i }

/-- `start_logging`, up to its first statement past the guards. -/
def startLogging (s : Pipeline cfg) (maxsize : Nat) : Pipeline cfg :=
  { s with
    handler := { s.handler with loop := true }
    starts := s.starts + 1
    life := .startIngress maxsize
    desks := fun i => { s.desks i with base := (s.desks i).ledger.log.length } }

/-- `stop_logging`, up to its first suspension. -/
def stopLogging (s : Pipeline cfg) : Pipeline cfg :=
  if s.handler.stopIgnored then s
  else
    { s with
      handler := { s.handler with loggingAcceptEvent := false }
      life := .awaitBridge
      bridge :=
        match s.handler.bridgeTask with
        | some b => Function.update s.bridge b (s.bridge b).cancel
        | none => s.bridge }

/-- The wait for the workers is over. -/
def forgetTasks (s : Pipeline cfg) : Pipeline cfg :=
  { s with handler := { s.handler with logWorkersTasks := [] }, life := .clearing 0 }

/-- The host's call executes its next statement. -/
def advance (s : Pipeline cfg) : Option (Pipeline cfg) :=
  match s.life with
  | .startIngress m =>
    some { s with
      handler := { s.handler with ingress := some s.starts }
      life := .startEvent
      intake :=
        { s.intake with ingress := Function.update s.intake.ingress s.starts (.new m) } }
  | .startEvent =>
    some { s with
      handler := { s.handler with ingressEvent := some s.starts }
      life := .startBridge
      intake :=
        { s.intake with event := Function.update s.intake.event s.starts ⟨false, 0⟩ } }
  | .startBridge =>
    some { s with
      handler := { s.handler with bridgeTask := some s.starts, loggingAcceptEvent := true }
      life := .startWorkers
      bridge := Function.update s.bridge s.starts ⟨.created, false⟩ }
  | .startWorkers =>
    some { s with
      handler :=
        { s.handler with
          loggingRunningEvent := true
          logWorkersTasks := Handler.workerTasks k s.starts }
      life := .idle
      desks := fun i => (s.desks i).hire s.starts }
  | .flushing =>
    match s.handler.ingress with
    | none => some (s.setLife (.draining fun _ => .joining))
    | some g =>
      match s.moveOne g with
      | some s => some s
      | none =>
        some { s with
          life := .draining fun _ => .joining
          flushed := Function.update s.flushed g (some (s.intake.entered g)) }
  | .clearing n =>
    if h : n < k then
      match (s.desks ⟨n, h⟩).ledger.clear .dropped with
      | some l =>
        some { s with
          life := .clearing (n + 1)
          desks := Function.update s.desks ⟨n, h⟩ { s.desks ⟨n, h⟩ with ledger := l } }
      | none => some (s.setLife .idle)
    else some (s.setLife .clearingIngress)
  | .clearingIngress =>
    match s.handler.ingress with
    | none => some (s.setLife .releaseLoop)
    | some g =>
      match s.intake.take g with
      | none => some (s.setLife .releaseLoop)
      | some (e, x) =>
        some { s with intake := x.addTaken ⟨g, e.call, none⟩ }
  | .releaseLoop =>
    some { s with handler := { s.handler with loop := false }, life := .releaseIngress }
  | .releaseIngress =>
    some { s with handler := { s.handler with ingress := none }, life := .releaseEvent }
  | .releaseEvent =>
    some { s with
      handler := { s.handler with ingressEvent := none, bridgeTask := none }
      life := .idle }
  | .idle | .awaitBridge | .draining _ | .gathering | .timedOut | .reaping => none

/-- Drain hook `i` goes on from where it stands, if it may. -/
def drainStep (s : Pipeline cfg) (i : Fin k) (next : DrainPc → Option DrainPc) :
    Option (Pipeline cfg) :=
  match s.life with
  | .draining ds =>
    (next (ds i)).map fun d => s.setLife (.draining (Function.update ds i d))
  | _ => none

/-- The results of the drains, when all are there. -/
def results (ds : Fin k → DrainPc) : Option (List DrainStatus) :=
  (List.finRange k).mapM fun i => (ds i).status?

def clearRunning (s : Pipeline cfg) : Pipeline cfg :=
  { s with handler := { s.handler with loggingRunningEvent := false } }

/-- After the drains: the reporters, the running event, and the wait for the
workers if there are any. -/
def reportResults (s : Pipeline cfg) (results : List DrainStatus)
    (times : Fin k → Fin k → String) : Pipeline cfg :=
  if s.handler.logWorkersTasks = [] then (s.reportStatus results times).clearRunning.forgetTasks
  else (s.reportStatus results times).clearRunning.setLife .gathering

def endedBy (s : Pipeline cfg) (e : TaskEnd) (t : TaskId k) : Bool := s.taskEnd t == some e

def step (s : Pipeline cfg) : PipelineAct cfg → Option (Pipeline cfg)
  | .emitCall r =>
    some { s with
      intake := { s.intake with calls := s.intake.calls + 1 }.setEmit s.intake.calls (.called r) }
  | .emit n => (s.intake.emitStep s.handler s.starts n).map fun x => { s with intake := x }
  | .runSet e =>
    if (s.intake.event e).callbacks = 0 then none
    else some { s with
      intake :=
        { s.intake with
          event := Function.update s.intake.event e
            ⟨true, (s.intake.event e).callbacks - 1⟩ }
      bridge := fun b => (s.bridge b).wake e }
  | .bridge b => s.bridgeStep b
  | .worker i c a =>
    ((s.desks i).work s.handler.loggingRunningEvent c a).map fun d =>
      { s with desks := Function.update s.desks i d }
  | .cancelWorker i c =>
    some { s with desks := Function.update s.desks i ((s.desks i).cancelIf (decide <| · = c)) }
  | .close => some { s with handler := s.handler.close }
  | .start m =>
    match s.life with
    | .idle => if s.handler.mayStart then some (s.startLogging m) else none
    | _ => none
  | .stop =>
    match s.life with
    | .idle => some s.stopLogging
    | _ => none
  | .advance => s.advance
  | .bridgeAwaited =>
    match s.life, s.handler.bridgeTask with
    | .awaitBridge, none => some (s.setLife .flushing)
    | .awaitBridge, some b =>
      match (s.bridge b).pc with
      | .ended .raised => some (s.setLife .idle)
      | .ended _ => some (s.setLife .flushing)
      | _ => none
    | _, _ => none
  | .joined i => s.drainStep i fun d =>
    if d = .joining ∧ (s.desks i).ledger.queue.unfinished = 0 then some .joined else none
  | .drainReturns i => s.drainStep i fun d =>
    if d = .joined then some (.done .completed) else none
  | .drainTimesOut i => s.drainStep i fun d =>
    match d with
    | .done _ => none
    | _ => some (.done .timeout)
  | .drainFails i exc => s.drainStep i fun d =>
    match d with
    | .done _ => none
    | _ => some (.done (.error exc))
  | .report times =>
    match s.life with
    | .draining ds => (results ds).map fun rs => s.reportResults rs times
    | _ => none
  | .gathered =>
    match s.life with
    | .gathering =>
      if s.handler.logWorkersTasks.all (s.endedBy .returned) then some s.forgetTasks else none
    | _ => none
  | .gatherRaises =>
    match s.life with
    | .gathering =>
      if s.handler.logWorkersTasks.any fun t => s.endedBy .raised t || s.endedBy .cancelled t then
        some (s.setLife .idle)
      else none
    | _ => none
  | .deadline =>
    match s.life with
    | .gathering => some (s.cancelAll.setLife .timedOut)
    | _ => none
  | .gatherEnds =>
    match s.life with
    | .timedOut =>
      if s.handler.logWorkersTasks.any (s.endedBy .cancelled) ||
          s.handler.logWorkersTasks.all (s.endedBy .returned) then
        some (s.cancelAll.setLife .reaping)
      else none
    | _ => none
  | .gatherEndsRaising =>
    match s.life with
    | .timedOut =>
      if s.handler.logWorkersTasks.any (s.endedBy .raised) then some (s.setLife .idle) else none
    | _ => none
  | .reaped =>
    match s.life with
    | .reaping =>
      if s.handler.logWorkersTasks.all fun t => (s.taskEnd t).isSome then some s.forgetTasks
      else none
    | _ => none

end Pipeline

def pipeline (cfg : Config k) : Machine (Pipeline cfg) (PipelineAct cfg) where
  init := (· = Pipeline.init cfg)
  step := Pipeline.step

end ScietexLogging
