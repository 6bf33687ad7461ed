import ScietexLogging.Asyncio.Ledger

/-!
# Asyncio — consumer tasks

A `Consumer` is a coroutine that takes items out of a queue and acknowledges
them, cut at its suspension points: `step` is one segment, named by what ends
the suspension before it (a result, an exception, a delivered cancellation).
Threads that work for the coroutine take steps of their own, also once it has
ended. `task.cancel()` only requests the cancellation; a later segment delivers
it.

The laws are what the rest of a program may rely on. They are fields, so
whoever defines a consumer proves them once.
-/

namespace Asyncio

/-- How a task ended. -/
inductive TaskEnd where
  | returned
  | raised
  | cancelled
  deriving DecidableEq, Repr

/-- A coroutine that consumes a ledger. `Shared` is what it reads and writes
besides the queue. -/
structure Consumer (α φ : Type) where
  Shared : Type
  Task : Type
  Act : Type
  initial : Shared
  /-- The task as `create_task` makes it, before its first segment. -/
  create : Task
  cancel : Task → Task
  cancelRequested : Task → Bool
  hand : Task → Option Nat
  ended : Task → Option TaskEnd
  /-- One segment, given whether the program is running. -/
  step : Bool → Act → Shared × Ledger α φ × Task → Option (Shared × Ledger α φ × Task)
  /-- Which entries a segment of the task may acknowledge with which outcomes. -/
  outcome : Act → Task → Nat → φ → Prop
  /-- The segment drops the item it takes out of the queue. -/
  loses : Act → Ledger α φ → Bool
  create_hand : hand create = none
  create_ended : ended create = none
  create_quiet : cancelRequested create = false
  cancel_hand : ∀ t, hand (cancel t) = hand t
  cancel_ended : ∀ t, ended (cancel t) = ended t
  ended_hand : ∀ t e, ended t = some e → hand t = none
  ended_step : ∀ r a x y e, ended x.2.2 = some e → step r a x = some y →
    ended y.2.2 = some e ∧ y.2.1 = x.2.1
  step_moves : ∀ r a x y, x.2.1.Sound → x.2.1.Holds (hand x.2.2) → step r a x = some y →
    Ledger.Moves (outcome a x.2.2) (loses a x.2.1 = true) (hand x.2.2, x.2.1)
      (hand y.2.2, y.2.1)
  /-- A request to cancel does not outlive the segment it is met by. -/
  step_quiet : ∀ r a x y, step r a x = some y → cancelRequested y.2.2 = true →
    cancelRequested x.2.2 = true ∧ hand y.2.2 = hand x.2.2

end Asyncio
