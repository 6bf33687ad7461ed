import ScietexLogging.Asyncio.Machine
import ScietexLogging.Lifecycle.Handler

/-!
# Lifecycle — interleaved calls

Any number of `start_logging`, `stop_logging` and `close` calls on one event
loop, interleaved with each other, with the bridge and with the workers at their
suspension points. `start_logging` and `close` do not suspend; `stop_logging`
suspends where it awaits the bridge, the drains, the reporters, and the worker
tasks (before the deadline, after it, and once more to reap them).

A worker returns only when the running event is clear and its queue is empty; it
ends cancelled only when a stop has requested it. Records come and go freely.
-/

namespace ScietexLogging

open Asyncio

/-- Where a call of `stop_logging` stands. -/
inductive CallPc (k : Nat) where
  | notCalled
  | awaitBridge
  | draining
  | reporting
  | gathering (ts : List (TaskId k))   -- wait_for(gather(...)), before the deadline
  | timedOut (ts : List (TaskId k))    -- the same, cancelled at the deadline
  | reaping (ts : List (TaskId k))     -- gather(..., return_exceptions=True)
  | returned
  | raised
  deriving DecidableEq, Repr

def CallPc.InProgress {k : Nat} : CallPc k → Prop
  | .notCalled | .returned | .raised => False
  | _ => True

instance {k : Nat} : (pc : CallPc k) → Decidable pc.InProgress
  | .notCalled | .returned | .raised => isFalse id
  | .awaitBridge | .draining | .reporting | .gathering _ | .timedOut _ | .reaping _ =>
    isTrue trivial

inductive BridgeState where
  | absent
  | alive
  | cancelling
  | ended
  deriving DecidableEq, Repr

inductive WorkerState where
  | absent
  | alive (cancelRequested : Bool)
  | ended (e : TaskEnd)
  deriving DecidableEq, Repr

def WorkerState.IsAlive : WorkerState → Prop
  | .alive _ => True
  | _ => False

/-- `task.cancel()` -/
def WorkerState.cancel : WorkerState → WorkerState
  | .alive _ => .alive true
  | w => w

/-- `task.cancel()` -/
def BridgeState.cancel : BridgeState → BridgeState
  | .alive => .cancelling
  | b => b

structure LifecycleState (k : Nat) where
  handler : Handler k
  /-- How often `start_logging` got past its guards. -/
  starts : Nat
  /-- How often `stop_logging` was called. -/
  stops : Nat
  bridge : Nat → BridgeState
  worker : TaskId k → WorkerState
  /-- The number of records in each backend queue. -/
  backlog : Fin k → Nat
  calls : Nat → CallPc k

namespace LifecycleState

variable {k : Nat}

def init (k : Nat) : LifecycleState k where
  handler := .fresh k
  starts := 0
  stops := 0
  bridge := fun _ => .absent
  worker := fun _ => .absent
  backlog := fun _ => 0
  calls := fun _ => .notCalled

inductive Act (k : Nat) where
  | start
  | close
  | stop
  | bridgeEnds (g : Nat)
  | bridgeAwaited (c : Nat)
  | drained (c : Nat)
  | reported (c : Nat)
  | gathered (c : Nat)
  | gatherCancelled (c : Nat)
  | deadline (c : Nat)
  | gatherEnds (c : Nat)
  | reaped (c : Nat)
  | workerReturns (t : TaskId k)
  | workerCancelled (t : TaskId k)
  | enqueue (i : Fin k)
  | dequeue (i : Fin k)

def setCall (s : LifecycleState k) (c : Nat) (pc : CallPc k) : LifecycleState k :=
  { s with calls := Function.update s.calls c pc }

def setWorker (s : LifecycleState k) (t : TaskId k) (w : WorkerState) : LifecycleState k :=
  { s with worker := Function.update s.worker t w }

/-- `for task in tasks: if not task.done(): task.cancel()` -/
def cancelAll (s : LifecycleState k) (ts : List (TaskId k)) : LifecycleState k :=
  { s with worker := fun t => if t ∈ ts then (s.worker t).cancel else s.worker t }

def allEnded (s : LifecycleState k) (ts : List (TaskId k)) : Bool :=
  ts.all fun t => match s.worker t with
    | .ended _ => true
    | _ => false

/-- `start_logging` -/
def startLogging (s : LifecycleState k) : LifecycleState k :=
  if s.handler.mayStart then
    { s with
      handler := s.handler.started (s.starts + 1)
      starts := s.starts + 1
      bridge := Function.update s.bridge (s.starts + 1) .alive
      worker := fun t => if t.1 = s.starts + 1 then .alive false else s.worker t }
  else s

/-- `stop_logging` up to its first suspension. -/
def stopLogging (s : LifecycleState k) : LifecycleState k :=
  let s := { s with stops := s.stops + 1 }
  if s.handler.stopIgnored then s.setCall (s.stops - 1) .returned
  else
    let bridge := match s.handler.bridgeTask with
      | some g => Function.update s.bridge g (s.bridge g).cancel
      | none => s.bridge
    { s with
      handler := { s.handler with loggingAcceptEvent := false }
      bridge := bridge }.setCall (s.stops - 1) .awaitBridge

/-- `stop_logging` from the end of the wait for the workers on. -/
def teardown (s : LifecycleState k) (c : Nat) : LifecycleState k :=
  { s with handler := s.handler.released, backlog := fun _ => 0 }.setCall c .returned

def bridgeEnded (s : LifecycleState k) : Bool :=
  match s.handler.bridgeTask with
  | some g => s.bridge g == .ended
  | none => true

def step (s : LifecycleState k) : Act k → Option (LifecycleState k)
  | .start => some s.startLogging
  | .close => some { s with handler := s.handler.close }
  | .stop => some s.stopLogging
  | .bridgeEnds g =>
    if s.bridge g = .cancelling then
      some { s with bridge := Function.update s.bridge g .ended }
    else none
  | .bridgeAwaited c =>
    if s.calls c = .awaitBridge ∧ s.bridgeEnded = true then some (s.setCall c .draining) else none
  | .drained c => if s.calls c = .draining then some (s.setCall c .reporting) else none
  | .reported c =>
    if s.calls c = .reporting then
      let s := { s with handler := { s.handler with loggingRunningEvent := false } }
      some (if s.handler.logWorkersTasks = [] then s.teardown c
        else s.setCall c (.gathering s.handler.logWorkersTasks))
    else none
  | .gathered c =>
    match s.calls c with
    | .gathering ts =>
      if ts.all fun t => s.worker t = .ended .returned then some (s.teardown c) else none
    | _ => none
  | .gatherCancelled c =>
    match s.calls c with
    | .gathering ts =>
      if ts.any fun t => s.worker t = .ended .cancelled then some (s.setCall c .raised) else none
    | _ => none
  | .deadline c =>
    match s.calls c with
    | .gathering ts => some ((s.cancelAll ts).setCall c (.timedOut ts))
    | _ => none
  | .gatherEnds c =>
    match s.calls c with
    | .timedOut ts =>
      if (ts.any fun t => s.worker t = .ended .cancelled) || s.allEnded ts then
        some ((s.cancelAll s.handler.logWorkersTasks).setCall c
          (.reaping s.handler.logWorkersTasks))
      else none
    | _ => none
  | .reaped c =>
    match s.calls c with
    | .reaping ts => if s.allEnded ts then some (s.teardown c) else none
    | _ => none
  | .workerReturns t =>
    match s.worker t with
    | .alive _ =>
      if s.handler.loggingRunningEvent = false ∧ s.backlog t.2 = 0 then
        some (s.setWorker t (.ended .returned))
      else none
    | _ => none
  | .workerCancelled t =>
    if s.worker t = .alive true then some (s.setWorker t (.ended .cancelled)) else none
  | .enqueue i => some { s with backlog := Function.update s.backlog i (s.backlog i + 1) }
  | .dequeue i => some { s with backlog := Function.update s.backlog i (s.backlog i - 1) }

def machine (k : Nat) : Machine (LifecycleState k) (Act k) where
  init := (· = init k)
  step := step

/-- No call of `stop_logging` is in progress. -/
def Quiet (s : LifecycleState k) : Prop := ∀ c < s.stops, ¬ (s.calls c).InProgress

instance (s : LifecycleState k) : Decidable s.Quiet :=
  inferInstanceAs (Decidable (∀ c < s.stops, _))

/-- `start_logging` gets past its guards only when no `stop_logging` is
unfinished. -/
def NoOverlap (s : LifecycleState k) : Act k → Prop
  | .start => s.handler.mayStart = true → s.Quiet
  | _ => True

instance (s : LifecycleState k) : (a : Act k) → Decidable (s.NoOverlap a)
  | .start => inferInstanceAs (Decidable (s.handler.mayStart = true → s.Quiet))
  | .close | .stop | .bridgeEnds _ | .bridgeAwaited _ | .drained _ | .reported _ | .gathered _
  | .gatherCancelled _ | .deadline _ | .gatherEnds _ | .reaped _ | .workerReturns _
  | .workerCancelled _ | .enqueue _ | .dequeue _ => isTrue trivial

end LifecycleState

end ScietexLogging
