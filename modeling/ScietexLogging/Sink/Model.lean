import ScietexLogging.Asyncio.Executor
import ScietexLogging.Broker.Model

/-!
# Sink — the console and file workers

`ConsoleBackend._worker` and `FileBackend._worker`, cut at their suspension
points: the first step of the task, `queue.get()`, the write handed to the
executor, and — in the outer `finally` — the file's close handed to the same
executor. `executor.shutdown()` does not suspend: it blocks the event loop until
the executor's thread is done.

The thread takes its jobs up and ends them by steps of their own, also while the
worker is being cancelled and after it has ended. A job has its text with it, and
the sink keeps what was written. What the stream operations raise, and what a
rotation subclass does to the stream before it writes, is chosen from outside.
-/

namespace ScietexLogging

open Asyncio

/-- `owned` is `_owns_file`: the backend opened the file itself. -/
inductive SinkKind where
  | console
  | file (owned : Bool)
  deriving DecidableEq, Repr

-- ---------------------------------------------------------------------------
-- The stream
-- ---------------------------------------------------------------------------

/-- What happened to the streams a file backend opened, each known by the number
of its opening. -/
inductive StreamEvent where
  | opened (s : Nat)
  | wrote (s : Nat)
  | closed (s : Nat)
  deriving DecidableEq, Repr

/-- The backend's side: `stream` is the `_stream` of a file backend that owns
its file. -/
structure Sink (α : Type) where
  stream : Option Nat
  opened : Nat
  events : List StreamEvent
  /-- The texts written, each with the number of its record: `write` and `flush` have returned. -/
  output : List (Nat × String)
  /-- The calls of `_report_error` so far. -/
  reports : List (α × String)

/-- What `_write_record` does between opening the stream and writing to it;
plain backends only `keep` it. -/
inductive Rollover where
  | keep
  | raises          -- before the stream is touched
  | closes          -- the old file is closed, and then an exception leaves `_stream` alone
  | abandons        -- the old file is closed, and the new one cannot be opened
  | reopens
  deriving DecidableEq, Repr

/-- How the stream operations of one write go. -/
structure WriteFx where
  openOk : Bool
  rollover : Rollover
  writeOk : Bool

namespace Sink

variable {α : Type}

def log (x : Sink α) (es : List StreamEvent) : Sink α := { x with events := x.events ++ es }

/-- `open(...)`: a stream not seen before. -/
def openNew (x : Sink α) : Sink α :=
  { x with
    stream := some x.opened
    opened := x.opened + 1
    events := x.events ++ [.opened x.opened] }

/-- `_open_stream`, for a backend that owns its file. -/
def openStream (ok : Bool) (x : Sink α) : Option (Nat × Sink α) :=
  match x.stream with
  | some s => some (s, x)
  | none => if ok then some (x.opened, x.openNew) else none

/-- `write(text)` and `flush()`, for the text of record `n`; `ok` says whether they return. -/
def write (ok : Bool) (n : Nat) (text : String) (x : Sink α) : Sink α × Bool :=
  (if ok then { x with output := x.output ++ [(n, text)] } else x, ok)

/-- The same on a stream the backend opened: a closed file raises. -/
def writeTo (ok : Bool) (s n : Nat) (text : String) (x : Sink α) : Sink α × Bool :=
  if .closed s ∈ x.events then (x, false) else (x.log [.wrote s]).write ok n text

/-- `_write_record`; the result says whether it returned. -/
def writeRecord (fx : WriteFx) (n : Nat) (text : String) (x : Sink α) : Sink α × Bool :=
  match x.openStream fx.openOk with
  | none => (x, false)
  | some (s, x) =>
    match fx.rollover with
    | .keep => x.writeTo fx.writeOk s n text
    | .raises => (x, false)
    | .closes => (x.log [.closed s], false)
    | .abandons => ({ x.log [.closed s] with stream := none }, false)
    | .reopens => (x.log [.closed s]).openNew.writeTo fx.writeOk x.opened n text

/-- `_close_stream`; `ok` says whether `close()` returned. -/
def closeStream (ok : Bool) (x : Sink α) : Sink α × Bool :=
  match x.stream with
  | none => (x, true)
  | some s => ({ x.log [.closed s] with stream := none }, ok)

end Sink

-- ---------------------------------------------------------------------------
-- The worker
-- ---------------------------------------------------------------------------

/-- What a worker hands to its executor: the write of the text of record `n`, or the close. -/
inductive Job where
  | write (n : Nat) (text : String)
  | close
  deriving DecidableEq, Repr

/-- The record a job writes, and its text. -/
def Job.line? : Job → Option (Nat × String)
  | .write n text => some (n, text)
  | .close => none

/-- Where the worker is suspended (or blocked, in `shutting`), the record in its
hand and the job it awaits. -/
inductive SinkPc (α : Type) where
  | created
  | getting
  | writing (n : Nat) (record : α) (job : Nat)
  | closing (e : TaskEnd) (job : Nat)
  | shutting (e : TaskEnd)
  | ended (e : TaskEnd)
  deriving DecidableEq, Repr

structure SinkTask (α : Type) where
  pc : SinkPc α
  executor : Executor Job
  cancelRequested : Bool

/-- What the handler's formatter makes of a record. -/
inductive Rendering where
  | unset                     -- there is no formatter
  | raises (exc : String)
  | text (s : String)
  deriving DecidableEq, Repr

/-- What ends a suspension, and the steps of the executor's thread. -/
inductive SinkAct where
  | start
  | timeout
  | get (r : Rendering)
  | jobDone (exc : String)   -- `exc` is what the job raised, if it did
  | deliver
  | release
  | jobBegins
  | writeEnds (fx : WriteFx)
  | closeEnds (ok : Bool)

/-- What a segment of the worker works on. -/
abbrev SinkSide (α : Type) := Sink α × Ledger α Outcome × SinkTask α

namespace SinkSide

variable {α : Type} (kind : SinkKind) (running : Bool)

def moveTo (x : SinkSide α) (pc : SinkPc α) : SinkSide α :=
  (x.1, x.2.1, { x.2.2 with pc := pc })

def setExecutor (x : SinkSide α) (ex : Executor Job) : SinkSide α :=
  (x.1, x.2.1, { x.2.2 with executor := ex })

/-- The suspension has ended: a cancellation requested during it is used up. -/
def resume (x : SinkSide α) : SinkSide α :=
  (x.1, x.2.1, { x.2.2 with cancelRequested := false })

def report (x : SinkSide α) (record : α) (exc : String) : SinkSide α :=
  ({ x.1 with reports := x.1.reports ++ [(record, exc)] }, x.2.1, x.2.2)

/-- `executor.run(...)`, up to its suspension. -/
def submit (x : SinkSide α) (j : Job) (pc : Nat → SinkPc α) : SinkSide α :=
  (x.setExecutor (x.2.2.executor.submit j)).moveTo (pc x.2.2.executor.submitted)

/-- The outer `finally`. -/
def finish (x : SinkSide α) (e : TaskEnd) : SinkSide α :=
  match kind with
  | .console => x.moveTo (.shutting e)
  | .file _ => x.submit .close (.closing e)

/-- The head of the `while`, up to the next suspension. -/
def loopHead (x : SinkSide α) : SinkSide α :=
  if running || !x.2.1.queue.items.isEmpty then x.moveTo .getting else x.finish kind .returned

/-- `task_done`; the `ValueError` of one call too many leaves the loop. -/
def acknowledge (x : SinkSide α) (n : Nat) (f : Outcome) (next : SinkSide α → SinkSide α) :
    SinkSide α :=
  match x.2.1.ack n f with
  | some l => next (x.1, l, x.2.2)
  | none => x.finish kind .raised

/-- From the record just dequeued to the write of its text. -/
def compose (r : Rendering) (x : SinkSide α) (n : Nat) (record : α) : SinkSide α :=
  match r with
  | .unset => x.acknowledge kind n .skipped (loopHead kind running)
  | .raises exc => (x.report record exc).acknowledge kind n .failed (loopHead kind running)
  | .text s => x.submit (.write n (s ++ "\n")) (.writing n record)

/-- The awaited write has ended. -/
def afterWrite (ok : Bool) (exc : String) (x : SinkSide α) (n : Nat) (record : α) : SinkSide α :=
  if ok then x.acknowledge kind n .written (loopHead kind running)
  else (x.report record exc).acknowledge kind n .failed (loopHead kind running)

/-- A `CancelledError` thrown at the suspension; the awaited job is cancelled
with the await. -/
def interrupt (x : SinkSide α) : Option (SinkSide α) :=
  match x.2.2.pc with
  | .created => some (x.moveTo (.ended .cancelled))
  | .getting => some (x.finish kind .cancelled)
  | .writing n _ job =>
    some ((x.setExecutor (x.2.2.executor.cancel job)).acknowledge kind n .interrupted
      (finish kind · .cancelled))
  | .closing _ job =>
    some ((x.setExecutor (x.2.2.executor.cancel job)).moveTo (.ended .cancelled))
  | .shutting _ | .ended _ => none

/-- The job on the executor's thread ends with effect `fx` on the sink. -/
def endJob (x : SinkSide α) (job : Nat) (fx : Sink α → Sink α × Bool) : SinkSide α :=
  ((fx x.1).1, x.2.1, { x.2.2 with executor := x.2.2.executor.finish job (fx x.1).2 })

/-- `_write_stdout`, or `_write_record`; whether an injected file is open is its owner's. -/
def writeEffect (fx : WriteFx) (n : Nat) (text : String) (x : Sink α) : Sink α × Bool :=
  match kind with
  | .file true => x.writeRecord fx n text
  | _ => x.write fx.writeOk n text

def closeEffect (ok : Bool) (x : Sink α) : Sink α × Bool :=
  match kind with
  | .file true => x.closeStream ok
  | _ => (x, true)

/-- One segment of `_worker`, or one step of the executor's thread. `wait_for`
may swallow a cancellation when the item it waits for is there; elsewhere a
requested cancellation is what ends the suspension. -/
def step (a : SinkAct) (x : SinkSide α) : Option (SinkSide α) :=
  match a, x.2.2.pc with
  | .start, .created =>
    if x.2.2.cancelRequested then none else some (x.loopHead kind running)
  | .timeout, .getting =>
    if x.2.2.cancelRequested then none else some (x.loopHead kind running)
  | .get r, .getting =>
    x.2.1.get.map fun p => compose kind running r (x.resume.1, p.2, x.resume.2.2) p.1.1 p.1.2
  | .jobDone exc, .writing n record job =>
    if x.2.2.cancelRequested then none
    else (x.2.2.executor.finished job).map fun ok => x.afterWrite kind running ok exc n record
  | .jobDone _, .closing e job =>
    if x.2.2.cancelRequested then none
    else (x.2.2.executor.finished job).map fun ok =>
      x.moveTo (if ok then .shutting e else .ended .raised)
  | .release, .shutting e =>
    x.2.2.executor.shutdown.map fun ex => (x.resume.setExecutor ex).moveTo (.ended e)
  | .deliver, _ => if x.2.2.cancelRequested then x.resume.interrupt kind else none
  | .jobBegins, _ => x.2.2.executor.begin.map x.setExecutor
  | .writeEnds fx, _ =>
    match x.2.2.executor.running with
    | some (job, .write n text) => some (x.endJob job (writeEffect kind fx n text))
    | _ => none
  | .closeEnds ok, _ =>
    match x.2.2.executor.running with
    | some (job, .close) => some (x.endJob job (closeEffect kind ok))
    | _ => none
  | _, _ => none

end SinkSide

end ScietexLogging
