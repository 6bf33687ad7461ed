import ScietexLogging.Asyncio.History
import ScietexLogging.Asyncio.Machine
import ScietexLogging.Broker.Model

/-!
# Broker — the worker and its client objects

The worker of an `AsyncBrokerHandler` once more, now with the object
`self.client` refers to, with what the subclasses await inside `connect` and
`disconnect`, and with a history of the calls it makes: the calls of the
subclass, of the client, of the error channel, of `asyncio.sleep` and of
`task_done`.

Client objects are known by the order in which the library returned them. The
three shipped subclasses differ in `connect` only: Redis probes the client it
got with a `ping` before it keeps it, and closes it if that fails.
-/

namespace ScietexLogging

open Asyncio

/-- `_CONNECT_RETRY_JITTER` -/
def connectRetryJitter : ℚ := 1 / 5

inductive BrokerClass where
  | redis
  | valkey
  | mqtt
  | custom        -- any other subclass
  deriving DecidableEq, Repr

/-- `disconnect` does nothing when `self.client` is `None`. -/
def BrokerClass.shipped : BrokerClass → Bool
  | .redis | .valkey | .mqtt => true
  | .custom => false

inductive ClientEvent where
  | started                       -- the first segment of a worker
  | connectCalled
  | obtained (c : Nat)            -- the library returned a client
  | connected (c : Option Nat)    -- `_connect` has returned, with `self.client` set
  | connectRaised (exc : String)
  | slept (delay jitter : ℚ)
  | sendCalled (n : Nat) (entry : LogEntry) (client : Option Nat)
  | sendReturned (n : Nat)
  | sendRaised (n : Nat)
  | disconnectCalled
  | closeTried (c : Nat)
  | reported (n : Option Nat) (exc : String)
  | taskDone (n : Nat)
  deriving DecidableEq

/-- Where the worker is suspended, and the record in its hand. -/
inductive ClientPc where
  | created
  | building                            -- in the library's constructor or enter call
  | pinging (c : Nat)
  | discarding (c : Nat)                -- closing a client that did not answer
  | sleeping
  | getting
  | sending (n : Nat)
  | disconnecting (n : Nat)
  | closing (e : TaskEnd)
  | ended (e : TaskEnd)
  deriving DecidableEq, Repr

/-- What ends a suspension. A failed attempt to connect comes with the factor its
sleep is jittered by. -/
inductive ClientAct where
  | start
  | built
  | buildFails (exc : String) (jitter : ℚ)
  | pingOk
  | pingFails (exc : String)
  | discarded (exc : String) (jitter : ℚ)  -- `exc`: of the ping, or of the close if it raised
  | wake
  | get
  | timeout
  | sendOk
  | sendFail (exc : String)
  | closeOk
  | closeFails (exc : String)
  | deliver

/-- The worker with its handler. -/
structure ClientWorker where
  client : Option Nat
  ownsClient : Bool
  injectedClient : Option Nat
  /-- How many clients the library has returned. -/
  made : Nat
  history : List ClientEvent
  ledger : Ledger LogRecord Outcome
  pc : ClientPc
  connectDelay : ℚ
  cancelRequested : Bool

namespace ClientWorker

variable (cls : BrokerClass) (running : Bool)

def log (x : ClientWorker) (e : ClientEvent) : ClientWorker := { x with history := e :: x.history }

def moveTo (x : ClientWorker) (pc : ClientPc) : ClientWorker := { x with pc := pc }

def setClient (x : ClientWorker) (c : Option Nat) : ClientWorker := { x with client := c }

def setDelay (x : ClientWorker) (d : ℚ) : ClientWorker := { x with connectDelay := d }

/-- The suspension has ended: a cancellation requested during it is used up. -/
def resume (x : ClientWorker) : ClientWorker := { x with cancelRequested := false }

/-- The library returns a new client. -/
def newClient (x : ClientWorker) : ClientWorker :=
  { x with made := x.made + 1, history := .obtained x.made :: x.history }

/-- `_disconnect()`: either it suspends, in `pc`, or the worker goes on with
`next`. -/
def disconnect (x : ClientWorker) (pc : ClientPc) (next : ClientWorker → ClientWorker) :
    ClientWorker :=
  if x.ownsClient then
    match x.client with
    | some c => ((x.log .disconnectCalled).log (.closeTried c)).moveTo pc
    | none => if cls.shipped then next (x.log .disconnectCalled) else (x.log .disconnectCalled).moveTo pc
  else next x

/-- `self.client = None`, and the task is over. -/
def leave (x : ClientWorker) (e : TaskEnd) : ClientWorker := (x.setClient none).moveTo (.ended e)

/-- The outer `finally`. -/
def finish (x : ClientWorker) (e : TaskEnd) : ClientWorker := x.disconnect cls (.closing e) (leave · e)

/-- `_connect()` has returned, with `self.client` set to `c`. -/
def afterConnect (x : ClientWorker) (c : Option Nat) : ClientWorker :=
  (((x.setClient c).log (.connected c)).setDelay connectRetryBase).moveTo .getting

/-- The head of the `while`, up to the next suspension. -/
def loopHead (x : ClientWorker) : ClientWorker :=
  if running || !x.ledger.queue.items.isEmpty then
    if x.client.isSome then x.moveTo .getting
    else if x.ownsClient then (x.log .connectCalled).moveTo .building
    else x.afterConnect x.injectedClient
  else x.finish cls .returned

/-- `task_done`; the `ValueError` of one call too many leaves the loop. -/
def acknowledge (x : ClientWorker) (n : Nat) (f : Outcome) (next : ClientWorker → ClientWorker) :
    ClientWorker :=
  match x.ledger.ack n f with
  | some l => next ({ x with ledger := l }.log (.taskDone n))
  | none => x.finish cls .raised

/-- Computing the entry of the record just dequeued, and `send_message`. -/
def compose (x : ClientWorker) (n : Nat) (record : LogRecord) : ClientWorker :=
  match logEntry record with
  | .ok entry => (x.log (.sendCalled n entry x.client)).moveTo (.sending n)
  | .error _ => x.finish cls .raised

/-- `_connect()` has raised. `random.uniform` stays within its bounds. -/
def afterConnectRaises (x : ClientWorker) (exc : String) (jitter : ℚ) : Option ClientWorker :=
  if 1 - connectRetryJitter ≤ jitter ∧ jitter ≤ 1 + connectRetryJitter then
    some ((((x.log (.connectRaised exc)).log (.reported none exc)).log
      (.slept x.connectDelay jitter)).moveTo .sleeping)
  else none

/-- A `CancelledError` thrown at the suspension. -/
def interrupt (x : ClientWorker) : Option ClientWorker :=
  match x.pc with
  | .created => some (x.moveTo (.ended .cancelled))
  | .building | .pinging _ | .discarding _ | .sleeping | .getting => some (x.finish cls .cancelled)
  | .sending n => some (x.acknowledge cls n .interrupted (finish cls · .cancelled))
  | .disconnecting n => some (x.acknowledge cls n .failed (finish cls · .cancelled))
  | .closing _ => some (x.moveTo (.ended .cancelled))
  | .ended _ => none

/-- One segment of `_worker`. Client code may swallow a cancellation, and so
may `wait_for` when the item it waits for is there; elsewhere a requested
cancellation is what ends the suspension. -/
def step (a : ClientAct) (x : ClientWorker) : Option ClientWorker :=
  match a, x.pc with
  | .start, .created =>
    if x.cancelRequested then none
    else some (((x.log .started).setDelay connectRetryBase).loopHead cls running)
  | .built, .building =>
    some <|
      match cls with
      | .redis => x.resume.newClient.moveTo (.pinging x.made)
      | _ => x.resume.newClient.afterConnect (some x.made)
  | .buildFails exc jitter, .building => x.resume.afterConnectRaises exc jitter
  | .pingOk, .pinging c => some (x.resume.afterConnect (some c))
  | .pingFails _, .pinging c => some ((x.resume.log (.closeTried c)).moveTo (.discarding c))
  | .discarded exc jitter, .discarding _ => x.resume.afterConnectRaises exc jitter
  | .wake, .sleeping =>
    if x.cancelRequested then none
    else some ((x.setDelay (min (x.connectDelay * 2) connectRetryCap)).loopHead cls running)
  | .get, .getting =>
    x.ledger.get.map fun p => { x.resume with ledger := p.2 }.compose cls p.1.1 p.1.2
  | .timeout, .getting => if x.cancelRequested then none else some (x.loopHead cls running)
  | .sendOk, .sending n =>
    some ((x.resume.log (.sendReturned n)).acknowledge cls n .sent (loopHead cls running))
  | .sendFail exc, .sending n =>
    some (((x.resume.log (.sendRaised n)).log (.reported (some n) exc)).disconnect cls
      (.disconnecting n) (acknowledge cls · n .failed (loopHead cls running)))
  | .closeOk, .disconnecting n | .closeFails _, .disconnecting n =>
    some ((x.resume.setClient none).acknowledge cls n .failed (loopHead cls running))
  | .closeOk, .closing e => some (x.resume.leave e)
  | .closeFails exc, .closing e => some ((x.resume.log (.reported none exc)).leave e)
  | .deliver, _ => if x.cancelRequested then x.resume.interrupt cls else none
  | _, _ => none

end ClientWorker

-- ---------------------------------------------------------------------------
-- Runs
-- ---------------------------------------------------------------------------

/-- A worker, and what it shares with the rest of the program. -/
structure ClientRun where
  worker : ClientWorker
  running : Bool

namespace ClientRun

inductive Act where
  | enqueue (record : LogRecord)
  | setRunning (b : Bool)
  | cancel
  | clear                   -- `stop_logging` empties the queue
  | restart                 -- the next `start_logging` creates a new worker
  | worker (a : ClientAct)

variable (cls : BrokerClass)

def step (s : ClientRun) : Act → Option ClientRun
  | .enqueue record =>
    (s.worker.ledger.put record).map fun l => { s with worker := { s.worker with ledger := l } }
  | .setRunning b => some { s with running := b }
  | .cancel => some { s with worker := { s.worker with cancelRequested := true } }
  | .clear =>
    match s.worker.pc with
    | .ended _ =>
      (s.worker.ledger.clear .dropped).map fun l => { s with worker := { s.worker with ledger := l } }
    | _ => none
  | .restart =>
    match s.worker.pc with
    | .ended _ =>
      some { s with
        worker :=
          { s.worker with pc := .created, connectDelay := connectRetryBase, cancelRequested := false } }
    | _ => none
  | .worker a => (s.worker.step cls s.running a).map fun x => { s with worker := x }

/-- The handler as `__init__` leaves it, given the injected client if any, and its
first worker before its first segment. -/
def initial (injected : Option Nat) (maxsize : Nat) (running : Bool) : ClientRun where
  worker :=
    { client := injected
      ownsClient := injected.isNone
      injectedClient := injected
      made := 0
      history := []
      ledger := .new maxsize
      pc := .created
      connectDelay := connectRetryBase
      cancelRequested := false }
  running := running

def machine (injected : Option Nat) : Machine ClientRun Act where
  init := fun s => ∃ maxsize running, s = initial injected maxsize running
  step := step cls

end ClientRun

end ScietexLogging
