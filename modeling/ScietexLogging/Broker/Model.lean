import Mathlib.Algebra.Order.Ring.Rat
import ScietexLogging.Asyncio.Consumer

/-!
# Broker — the worker

`AsyncBrokerHandler._worker`, cut at its suspension points: the first step of
the task, `connect()`, the sleep before a retry, `queue.get()`,
`send_message()`, and the two calls of `disconnect()` — in the `except` branch
of a failed send and in the outer `finally`. What the client calls return or
raise, and when a cancellation is delivered, is chosen from outside.

The record is turned into an entry in the segment that dequeues it, outside the
`try` that acknowledges it: an exception there leaves through the outer
`finally`.
-/

namespace ScietexLogging

open Asyncio

/-- What became of an entry of a backend queue. -/
inductive Outcome where
  | written       -- its text was handed to the sink's write
  | sent          -- its entry was handed to send_message
  | failed        -- reported through the error channel
  | skipped       -- there was no formatter to render it
  | interrupted   -- acknowledged by a worker that was cancelled
  | dropped       -- taken out by the teardown of stop_logging
  deriving DecidableEq, Repr

-- ---------------------------------------------------------------------------
-- The broker fields of a record
-- ---------------------------------------------------------------------------

/-- A `LogRecord`, as the broker worker reads it. -/
structure LogRecord where
  levelno : Int
  name : String
  /-- `getMessage()`: `msg % args`, or the exception they raise together. -/
  message : Except String String
  /-- `iso_timestamp(created)`: raises for a time out of range. -/
  time : Except String String

/-- `f"{n:03d}"`: the sign counts as one of the digits. -/
def threeDigits (n : Int) : String :=
  let digits := toString n.natAbs
  if n < 0 then "-" ++ String.ofList (List.replicate (2 - digits.length) '0') ++ digits
  else String.ofList (List.replicate (3 - digits.length) '0') ++ digits

def levelAbbreviation (logLevel : Int) : String :=
  if logLevel = 10 then "DBG"
  else if logLevel = 20 then "INF"
  else if logLevel = 30 then "WRN"
  else if logLevel = 40 then "ERR"
  else if logLevel = 50 then "CRT"
  else threeDigits logLevel

/-- The entry handed to `send_message`. -/
abbrev LogEntry := List (String × String)

def logEntry (record : LogRecord) : Except String LogEntry := do
  let level := levelAbbreviation record.levelno
  let name := record.name
  let message ← record.message
  let time ← record.time
  return [("level", level), ("message", message), ("name", name), ("time", time)]

-- ---------------------------------------------------------------------------
-- The worker
-- ---------------------------------------------------------------------------

/-- `_CONNECT_RETRY_BASE`, in seconds -/
def connectRetryBase : ℚ := 1 / 2

/-- `_CONNECT_RETRY_CAP` -/
def connectRetryCap : ℚ := 30

/-- Where the worker is suspended, and the record in its hand. -/
inductive BrokerPc (α : Type) where
  | created
  | connecting
  | sleeping
  | getting
  | sending (n : Nat) (record : α)
  | disconnecting (n : Nat) (record : α)
  | closing (e : TaskEnd)
  | ended (e : TaskEnd)
  deriving DecidableEq, Repr

structure BrokerTask (α : Type) where
  pc : BrokerPc α
  connectDelay : ℚ
  cancelRequested : Bool

/-- The handler's side: `client` says whether `self.client` is set. -/
structure Broker (α : Type) where
  client : Bool
  /-- The calls of `send_message` so far, each with the number of its record. -/
  calls : List (Nat × LogEntry)
  /-- The calls of `_report_error` so far. -/
  reports : List (Option (Nat × α) × String)

/-- What ends a suspension. `connectOk` and `disconnectOk` carry what the client
class leaves in `self.client`. -/
inductive BrokerAct where
  | start
  | connectOk (client : Bool)
  | connectFail (exc : String)
  | wake
  | get
  | timeout
  | sendOk
  | sendFail (exc : String)
  | disconnectOk (client : Bool)
  | disconnectFail (exc : String)
  | deliver
  deriving DecidableEq, Repr

/-- What a segment of the worker works on. -/
abbrev BrokerSide (α : Type) := Broker α × Ledger α Outcome × BrokerTask α

namespace BrokerSide

variable {α : Type} (ownsClient : Bool) (running : Bool)

def moveTo (x : BrokerSide α) (pc : BrokerPc α) : BrokerSide α :=
  (x.1, x.2.1, { x.2.2 with pc := pc })

def setClient (x : BrokerSide α) (c : Bool) : BrokerSide α :=
  ({ x.1 with client := c }, x.2.1, x.2.2)

def setDelay (x : BrokerSide α) (d : ℚ) : BrokerSide α :=
  (x.1, x.2.1, { x.2.2 with connectDelay := d })

/-- The suspension has ended: a cancellation requested during it is used up. -/
def resume (x : BrokerSide α) : BrokerSide α :=
  (x.1, x.2.1, { x.2.2 with cancelRequested := false })

def report (x : BrokerSide α) (record : Option (Nat × α)) (exc : String) : BrokerSide α :=
  ({ x.1 with reports := x.1.reports ++ [(record, exc)] }, x.2.1, x.2.2)

def call (x : BrokerSide α) (n : Nat) (entry : LogEntry) : BrokerSide α :=
  ({ x.1 with calls := x.1.calls ++ [(n, entry)] }, x.2.1, x.2.2)

/-- The outer `finally`; `_disconnect` is a no-op for an injected client. -/
def finish (x : BrokerSide α) (e : TaskEnd) : BrokerSide α :=
  if ownsClient then x.moveTo (.closing e) else (x.setClient false).moveTo (.ended e)

/-- The head of the `while`, up to the next suspension. -/
def loopHead (x : BrokerSide α) : BrokerSide α :=
  if running || !x.2.1.queue.items.isEmpty then
    if x.1.client then x.moveTo .getting
    else if ownsClient then x.moveTo .connecting
    else ((x.setClient true).setDelay connectRetryBase).moveTo .getting
  else x.finish ownsClient .returned

/-- `task_done`; the `ValueError` of one call too many leaves the loop. -/
def acknowledge (x : BrokerSide α) (n : Nat) (f : Outcome)
    (next : BrokerSide α → BrokerSide α) : BrokerSide α :=
  match x.2.1.ack n f with
  | some l => next (x.1, l, x.2.2)
  | none => x.finish ownsClient .raised

/-- Computing the entry of the record just dequeued, and `send_message`. -/
def compose (entry : α → Except String LogEntry) (x : BrokerSide α) (n : Nat) (record : α) :
    BrokerSide α :=
  match entry record with
  | .ok e => (x.call n e).moveTo (.sending n record)
  | .error _ => x.finish ownsClient .raised

/-- A `CancelledError` thrown at the suspension. -/
def interrupt (x : BrokerSide α) : Option (BrokerSide α) :=
  match x.2.2.pc with
  | .created => some (x.moveTo (.ended .cancelled))
  | .connecting | .sleeping | .getting => some (x.finish ownsClient .cancelled)
  | .sending n _ =>
    some (x.acknowledge ownsClient n .interrupted (finish ownsClient · .cancelled))
  | .disconnecting n _ =>
    some (x.acknowledge ownsClient n .failed (finish ownsClient · .cancelled))
  | .closing _ => some (x.moveTo (.ended .cancelled))
  | .ended _ => none

/-- One segment of `_worker`. Client code may swallow a cancellation, and so
may `wait_for` when the item it waits for is there; elsewhere a requested
cancellation is what ends the suspension. -/
def step (entry : α → Except String LogEntry) (a : BrokerAct) (x : BrokerSide α) :
    Option (BrokerSide α) :=
  match a, x.2.2.pc with
  | .start, .created =>
    if x.2.2.cancelRequested then none
    else some ((x.setDelay connectRetryBase).loopHead ownsClient running)
  | .connectOk c, .connecting =>
    some (((x.resume.setClient c).setDelay connectRetryBase).moveTo .getting)
  | .connectFail exc, .connecting => some ((x.resume.report none exc).moveTo .sleeping)
  | .wake, .sleeping =>
    if x.2.2.cancelRequested then none
    else some ((x.setDelay (min (x.2.2.connectDelay * 2) connectRetryCap)).loopHead
      ownsClient running)
  | .get, .getting =>
    x.2.1.get.map fun p => compose ownsClient entry (x.resume.1, p.2, x.resume.2.2) p.1.1 p.1.2
  | .timeout, .getting =>
    if x.2.2.cancelRequested then none else some (x.loopHead ownsClient running)
  | .sendOk, .sending n _ =>
    some (x.resume.acknowledge ownsClient n .sent (loopHead ownsClient running))
  | .sendFail exc, .sending n record =>
    let x := x.resume.report (some (n, record)) exc
    some (if ownsClient then x.moveTo (.disconnecting n record)
      else x.acknowledge ownsClient n .failed (loopHead ownsClient running))
  | .disconnectOk c, .disconnecting n _ =>
    some ((x.resume.setClient c).acknowledge ownsClient n .failed (loopHead ownsClient running))
  | .disconnectFail _, .disconnecting n _ =>
    some ((x.resume.setClient false).acknowledge ownsClient n .failed
      (loopHead ownsClient running))
  | .disconnectOk _, .closing e => some ((x.resume.setClient false).moveTo (.ended e))
  | .disconnectFail exc, .closing e =>
    some (((x.resume.report none exc).setClient false).moveTo (.ended e))
  | .deliver, _ => if x.2.2.cancelRequested then x.resume.interrupt ownsClient else none
  | _, _ => none

end BrokerSide

end ScietexLogging
