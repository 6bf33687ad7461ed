import ScietexLogging.Asyncio.Consumer

/-!
# Asyncio — awaiting several tasks

`asyncio.gather` without `return_exceptions` finishes as soon as one of its
children has ended other than by returning, with that child's exception or
cancellation; the other children run on. `asyncio.wait_for` around it cancels
the gathering future at the deadline, which cancels the children still running
and waits for the gathering future to finish all the same.

Both are given by the order in which the children end.
-/

namespace Asyncio

/-- What awaiting a future came to. -/
inductive Awaited where
  | returned
  | raised
  | cancelled
  | timeout
  deriving DecidableEq, Repr

/-- The first task that ended other than by returning. -/
def firstAbnormal : List TaskEnd → Option TaskEnd
  | [] => none
  | .returned :: es => firstAbnormal es
  | .raised :: _ => some .raised
  | .cancelled :: _ => some .cancelled

/-- `await gather(*tasks)` over `n` tasks, when those in `ends` have ended in
this order; `none`: it is still pending. -/
def gather (n : Nat) (ends : List TaskEnd) : Option TaskEnd :=
  match firstAbnormal ends with
  | some e => some e
  | none => if ends.length = n then some .returned else none

/-- `await wait_for(gather(*tasks), timeout)`: the tasks in `before` have ended
by the deadline, the others end as in `after` once they are cancelled. -/
def waitForGather (n : Nat) (before after : List TaskEnd) : Awaited :=
  match gather n before with
  | some .returned => .returned
  | some .raised => .raised
  | some .cancelled => .cancelled
  | none => if firstAbnormal after = some .raised then .raised else .timeout

end Asyncio
