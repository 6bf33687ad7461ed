import Mathlib.Algebra.BigOperators.Fin
import Mathlib.Data.List.FinRange
import ScietexLogging.Asyncio.Queue
import ScietexLogging.Asyncio.Recursion

/-!
# Handler — emit, the error channel and the module logger

`emit` reports what it cannot deliver through `report_error`; `report_error`
falls back to the `scietex.logging` module logger when the `error_handler` is
unset or raises; and the module logger hands its record, synchronously, to the
handlers of the logger and of its ancestors, among which may be the very
handler that is reporting. The two functions are therefore mutually recursive
through the standard library, and this module models that recursion: `emitBody`
is one activation of `emit`, in terms of the `emit` the logger reaches.

Any number of `AsyncLoggingHandler` instances (`ι`) may be attached; handlers
of other kinds are taken to return. The interpreter's recursion limit is not
modelled: a recursion without end is one that never returns.
-/

namespace ScietexLogging

open Asyncio

/-! ## The standard library's loggers -/

/-- A handler attached to a logger: one of the `AsyncLoggingHandler` instances,
or (`none`) a handler of another kind. -/
structure Attached (ι : Type) where
  handler : Option ι
  level : Nat
  /-- The verdict of the handler's own filters. -/
  filter : Bool

structure Logger (ι : Type) where
  handlers : List (Attached ι)
  propagate : Bool

/-- `logging.ERROR` -/
def levelError : Nat := 40

/-- `Logger.callHandlers`: the logger's own handlers, then its ancestors' as
long as `propagate` is set. The list is the logger and its ancestors, the root
last. -/
def callHandlers {ι : Type} (levelno : Nat) : List (Logger ι) → List ι
  | [] => []
  | c :: parents =>
    (c.handlers.filter fun a => decide (a.level ≤ levelno) && a.filter).filterMap (·.handler) ++
      if c.propagate then callHandlers levelno parents else []

/-- The exceptions `emit` and the bridge report. -/
inductive DeliveryError where
  | full            -- queue.Full: the ingress
  | loopClosed      -- RuntimeError: call_soon_threadsafe on a closed loop
  | queueFull       -- asyncio.QueueFull: a backend queue
  deriving DecidableEq, Repr

/-- The module logger `_error_logger`, and the record it makes of
`"%s failed to deliver a log record: %s"`. -/
structure ErrorLogger (ι R : Type) where
  enabled : Bool
  chain : List (Logger ι)
  makeRecord : String → DeliveryError → R

/-- Whom the module logger hands an ERROR record, one entry for each time. -/
def ErrorLogger.handed {ι R : Type} (L : ErrorLogger ι R) : List ι :=
  if L.enabled then callHandlers levelError L.chain else []

/-! ## Handlers -/

/-- `error_handler`: unset, or a callback that returns, or one that raises. -/
inductive ErrorHandler where
  | unset
  | returns
  | raises
  deriving DecidableEq, Repr

inductive LoopState where
  | live
  | closed
  deriving DecidableEq, Repr

/-- What `emit` reads of a handler. -/
structure EmitterState (R : Type) where
  name : String
  errorHandler : ErrorHandler
  loggingAcceptEvent : Bool
  loop : Option LoopState
  ingress : Option (BoundedQueue R)
  /-- `_ingress_event`, as the number of its `set` callbacks scheduled so far. -/
  ingressEvent : Option Nat

/-- All `AsyncLoggingHandler` instances, and the calls of `report_error` so far. -/
structure World (ι R : Type) where
  handler : ι → EmitterState R
  reports : List (ι × R × DeliveryError)

variable {ι R : Type} [DecidableEq ι]

namespace World

def modify (w : World ι R) (h : ι) (f : EmitterState R → EmitterState R) : World ι R :=
  { w with handler := Function.update w.handler h (f (w.handler h)) }

def setIngress (w : World ι R) (h : ι) (q : BoundedQueue R) : World ι R :=
  w.modify h fun s => { s with ingress := some q }

/-- `loop.call_soon_threadsafe(ingress_event.set)` on a live loop. -/
def scheduleSet (w : World ι R) (h : ι) : World ι R :=
  w.modify h fun s => { s with ingressEvent := s.ingressEvent.map (· + 1) }

def report (w : World ι R) (h : ι) (r : R) (exc : DeliveryError) : World ι R :=
  { w with reports := w.reports ++ [(h, r, exc)] }

end World

/-! ## The mutually recursive functions -/

/-- `_error_logger.error(...)`, in terms of the `emit` it reaches. -/
def ErrorLogger.error (L : ErrorLogger ι R) (emit : World ι R × ι × R → Option (World ι R))
    (w : World ι R) (name : String) (exc : DeliveryError) : Option (World ι R) :=
  L.handed.foldlM (fun w g => emit (w, g, L.makeRecord name exc)) w

/-- `report_error`: the `error_handler` if it is set and returns, else the
module logger. -/
def reportError (L : ErrorLogger ι R) (emit : World ι R × ι × R → Option (World ι R))
    (w : World ι R) (h : ι) (r : R) (exc : DeliveryError) : Option (World ι R) :=
  match (w.handler h).errorHandler with
  | .returns => some (w.report h r exc)
  | .unset | .raises => L.error emit (w.report h r exc) (w.handler h).name exc

/-- One activation of `AsyncLoggingHandler.emit`. -/
def emitBody (L : ErrorLogger ι R) (emit : World ι R × ι × R → Option (World ι R)) :
    World ι R × ι × R → Option (World ι R)
  | (w, h, r) =>
    if (w.handler h).loggingAcceptEvent then
      match (w.handler h).ingress, (w.handler h).loop, (w.handler h).ingressEvent with
      | some ingress, some loop, some _ =>
        match ingress.putNowait r with
        | none => reportError L emit w h r .full
        | some ingress' =>
          match loop with
          | .live => some ((w.setIngress h ingress').scheduleSet h)
          | .closed => reportError L emit (w.setIngress h ingress') h r .loopClosed
      | _, _, _ => some w
    else some w

/-- `emit`, cut off at `n` nested activations. -/
def emit (L : ErrorLogger ι R) (n : Nat) (w : World ι R) (h : ι) (r : R) : Option (World ι R) :=
  approx (emitBody L) n (w, h, r)

end ScietexLogging
