import Mathlib.Data.List.FinRange
import ScietexLogging.Asyncio.Gather

/-!
# Lifecycle — the fields of a handler

The attributes `start_logging`, `stop_logging` and `close` read and write, and
what their code does to them between two suspensions. Objects that every start
makes anew (the ingress, its event, the bridge task, the worker tasks) are known
by the number of the start that made them.
-/

namespace ScietexLogging

/-- A worker task: the start that created it, and its backend. -/
abbrev TaskId (k : Nat) := Nat × Fin k

structure Handler (k : Nat) where
  loggingAcceptEvent : Bool
  loggingRunningEvent : Bool
  closed : Bool
  loop : Bool
  ingress : Option Nat
  ingressEvent : Option Nat
  bridgeTask : Option Nat
  logWorkersTasks : List (TaskId k)
  deriving DecidableEq, Repr

namespace Handler

variable {k : Nat}

/-- `__init__` -/
def fresh (k : Nat) : Handler k where
  loggingAcceptEvent := false
  loggingRunningEvent := false
  closed := false
  loop := false
  ingress := none
  ingressEvent := none
  bridgeTask := none
  logWorkersTasks := []

/-- The guards of `start_logging`. -/
def mayStart (h : Handler k) : Bool := !h.closed && !h.loggingRunningEvent

/-- One worker task for each registered factory. -/
def workerTasks (k c : Nat) : List (TaskId k) := (List.finRange k).map fun i => (c, i)

/-- `start_logging` past its guards, as the `c`-th start. -/
def started (h : Handler k) (c : Nat) : Handler k :=
  { h with
    loop := true
    ingress := some c
    ingressEvent := some c
    bridgeTask := some c
    loggingAcceptEvent := true
    loggingRunningEvent := true
    logWorkersTasks := workerTasks k c }

/-- The guard of `stop_logging`: nothing to stop. -/
def stopIgnored (h : Handler k) : Bool := !h.loggingRunningEvent && h.logWorkersTasks.isEmpty

/-- The end of `stop_logging`: the worker tasks are forgotten, the references of
the cycle released. -/
def released (h : Handler k) : Handler k :=
  { h with
    logWorkersTasks := []
    loop := false
    ingress := none
    ingressEvent := none
    bridgeTask := none }

/-- `close()` -/
def close (h : Handler k) : Handler k := { h with closed := true, loggingAcceptEvent := false }

/-- Everything a stop leaves behind. -/
structure Stopped (h : Handler k) : Prop where
  accept : h.loggingAcceptEvent = false
  running : h.loggingRunningEvent = false
  loop : h.loop = false
  ingress : h.ingress = none
  ingressEvent : h.ingressEvent = none
  bridgeTask : h.bridgeTask = none
  tasks : h.logWorkersTasks = []

theorem mem_workerTasks {c : Nat} {t : TaskId k} : t ∈ workerTasks k c ↔ t.1 = c := by
  rw [workerTasks, List.mem_map]
  constructor
  · rintro ⟨i, -, rfl⟩
    rfl
  · rintro rfl
    exact ⟨t.2, List.mem_finRange _, rfl⟩

theorem Stopped.fresh : (fresh k).Stopped := ⟨rfl, rfl, rfl, rfl, rfl, rfl, rfl⟩

/-- Once stopped, a further stop has nothing to do. -/
theorem Stopped.stopIgnored {h : Handler k} (hs : h.Stopped) : h.stopIgnored = true := by
  simp [Handler.stopIgnored, hs.running, hs.tasks]

end Handler

end ScietexLogging
