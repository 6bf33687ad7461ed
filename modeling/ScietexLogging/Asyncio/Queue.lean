import Mathlib.Data.List.Basic
import Mathlib.Logic.Basic

/-!
# Asyncio — bounded queues

`BoundedQueue` is the part `queue.Queue` and `asyncio.Queue` share: a FIFO with
a `maxsize` (`0` means unbounded) whose non-blocking operations either succeed
or fail with `Full` / `Empty`. The bound is a field, so no operation can build
an overfull queue.

`AsyncQueue` adds the unfinished-task counter of `asyncio.Queue`: a put adds
one, `task_done` takes one away (and raises `ValueError` at zero), `join`
completes when the counter is zero. The counter and the contents are
independent in asyncio itself; `AsyncQueue.Balanced` is what a consumer that
acknowledges only what it got keeps true.
-/

namespace Asyncio

/-! ## The FIFO -/

/-- A FIFO holding at most `maxsize` items, any number when `maxsize` is `0`. -/
structure BoundedQueue (α : Type*) where
  maxsize : Nat
  items : List α
  bounded : 0 < maxsize → items.length ≤ maxsize

namespace BoundedQueue

variable {α : Type*}

def new (maxsize : Nat) : BoundedQueue α :=
  ⟨maxsize, [], fun _ => Nat.zero_le _⟩

def full (q : BoundedQueue α) : Bool :=
  decide (0 < q.maxsize) && decide (q.maxsize ≤ q.items.length)

/-- `m` more puts succeed when nothing is taken out in between. -/
def HasRoom (q : BoundedQueue α) (m : Nat) : Prop :=
  q.maxsize = 0 ∨ q.items.length + m ≤ q.maxsize

instance (q : BoundedQueue α) (m : Nat) : Decidable (q.HasRoom m) :=
  inferInstanceAs (Decidable (_ ∨ _))

theorem full_iff {q : BoundedQueue α} :
    q.full = true ↔ 0 < q.maxsize ∧ q.maxsize ≤ q.items.length := by
  simp [full]

theorem full_eq_false_iff {q : BoundedQueue α} : q.full = false ↔ q.HasRoom 1 := by
  rw [← Bool.not_eq_true, full_iff, HasRoom]
  omega

theorem HasRoom.mono {q : BoundedQueue α} {m m' : Nat} (h : q.HasRoom m) (hle : m' ≤ m) :
    q.HasRoom m' := by
  unfold HasRoom at *
  omega

theorem length_lt_of_not_full {q : BoundedQueue α} (h : q.full = false) (hm : 0 < q.maxsize) :
    q.items.length < q.maxsize := by
  by_contra hge
  have : q.full = true := full_iff.mpr ⟨hm, by omega⟩
  simp [this] at h

/-- `put_nowait`: `none` is the `Full` exception. -/
def putNowait (q : BoundedQueue α) (x : α) : Option (BoundedQueue α) :=
  if h : q.full = true then none
  else some
    { maxsize := q.maxsize
      items := q.items ++ [x]
      bounded := fun hm => by
        have := length_lt_of_not_full (Bool.eq_false_iff.mpr h) hm
        simp only [List.length_append, List.length_singleton]
        omega }

/-- `get_nowait`: `none` is the `Empty` exception. -/
def getNowait (q : BoundedQueue α) : Option (α × BoundedQueue α) :=
  match h : q.items with
  | [] => none
  | x :: xs => some (x,
    { maxsize := q.maxsize
      items := xs
      bounded := fun hm => by
        have := q.bounded hm
        rw [h, List.length_cons] at this
        omega })

/-- Throw the contents away. -/
def clear (q : BoundedQueue α) : BoundedQueue α := new q.maxsize

@[simp] theorem new_items (m : Nat) : (new m : BoundedQueue α).items = [] := rfl
@[simp] theorem new_maxsize (m : Nat) : (new m : BoundedQueue α).maxsize = m := rfl
@[simp] theorem clear_items (q : BoundedQueue α) : q.clear.items = [] := rfl

theorem ext_iff {q q' : BoundedQueue α} :
    q = q' ↔ q.maxsize = q'.maxsize ∧ q.items = q'.items := by
  cases q; cases q'; simp

theorem putNowait_eq_none {q : BoundedQueue α} {x : α} :
    q.putNowait x = none ↔ q.full = true := by
  unfold putNowait
  split <;> simp_all

theorem putNowait_eq_some {q q' : BoundedQueue α} {x : α} :
    q.putNowait x = some q' ↔
      q.full = false ∧ q'.maxsize = q.maxsize ∧ q'.items = q.items ++ [x] := by
  unfold putNowait
  split
  · simp_all
  · rename_i h
    simp only [Option.some.injEq, ext_iff, Bool.eq_false_iff.mpr h, true_and]
    exact ⟨fun ⟨h₁, h₂⟩ => ⟨h₁.symm, h₂.symm⟩, fun ⟨h₁, h₂⟩ => ⟨h₁.symm, h₂.symm⟩⟩

/-- What of `xs` is let in, when one after another is put and none is taken out in between. -/
def admits {β : Type*} (q : BoundedQueue α) (xs : List β) : List β :=
  if q.maxsize = 0 then xs else xs.take (q.maxsize - q.items.length)

theorem admits_sublist {β : Type*} (q : BoundedQueue α) (xs : List β) : (q.admits xs).Sublist xs := by
  unfold admits
  split
  · exact .refl xs
  · exact List.take_sublist _ xs

theorem admits_map {β γ : Type*} (q : BoundedQueue α) (f : β → γ) (xs : List β) :
    q.admits (xs.map f) = (q.admits xs).map f := by
  unfold admits
  split
  · rfl
  · exact (List.map_take ..).symm

theorem admits_full {β : Type*} {q : BoundedQueue α} (h : q.full = true) (xs : List β) :
    q.admits xs = [] := by
  obtain ⟨hpos, hle⟩ := full_iff.mp h
  rw [admits, if_neg (by omega), Nat.sub_eq_zero_of_le hle, List.take_zero]

theorem admits_put {β : Type*} {q q' : BoundedQueue α} {x : α} (h : q.putNowait x = some q') (y : β)
    (ys : List β) : q.admits (y :: ys) = y :: q'.admits ys := by
  obtain ⟨hroom, hmaxsize, hitems⟩ := putNowait_eq_some.mp h
  unfold admits
  rw [hmaxsize, hitems, List.length_append, List.length_singleton]
  split
  · rfl
  · have hlt := length_lt_of_not_full hroom (by omega)
    rw [show q.maxsize - q.items.length = q.maxsize - (q.items.length + 1) + 1 by omega,
      List.take_succ_cons]

theorem getNowait_eq_none {q : BoundedQueue α} : q.getNowait = none ↔ q.items = [] := by
  unfold getNowait
  split <;> simp_all

theorem getNowait_eq_some {q q' : BoundedQueue α} {x : α} :
    q.getNowait = some (x, q') ↔ q'.maxsize = q.maxsize ∧ q.items = x :: q'.items := by
  unfold getNowait
  split
  · simp_all
  · rename_i y ys hitems
    simp only [Option.some.injEq, Prod.mk.injEq, ext_iff]
    rw [hitems, List.cons.injEq]
    exact ⟨fun ⟨h₁, h₂, h₃⟩ => ⟨h₂.symm, h₁, h₃⟩, fun ⟨h₁, h₂, h₃⟩ => ⟨h₂, h₁.symm, h₃⟩⟩

end BoundedQueue

/-! ## The queue with a task counter -/

/-- `asyncio.Queue`: a bounded FIFO with its count of unfinished tasks. -/
structure AsyncQueue (α : Type*) extends BoundedQueue α where
  unfinished : Nat

namespace AsyncQueue

variable {α : Type*}

def new (maxsize : Nat) : AsyncQueue α := { BoundedQueue.new maxsize with unfinished := 0 }

@[simp] theorem new_items (m : Nat) : (new m : AsyncQueue α).items = [] := rfl
@[simp] theorem new_unfinished (m : Nat) : (new m : AsyncQueue α).unfinished = 0 := rfl

/-- `put_nowait`: `none` is `QueueFull`; a put item is an unfinished task. -/
def putNowait (q : AsyncQueue α) (x : α) : Option (AsyncQueue α) :=
  (q.toBoundedQueue.putNowait x).map fun b => { b with unfinished := q.unfinished + 1 }

/-- `get_nowait`: `none` is `QueueEmpty`; the counter does not move. -/
def getNowait (q : AsyncQueue α) : Option (α × AsyncQueue α) :=
  q.toBoundedQueue.getNowait.map fun p => (p.1, { p.2 with unfinished := q.unfinished })

/-- `task_done`: `none` is the `ValueError` of one call too many. -/
def taskDone (q : AsyncQueue α) : Option (AsyncQueue α) :=
  if q.unfinished = 0 then none else some { q with unfinished := q.unfinished - 1 }

/-- What `join` waits for. -/
def joined (q : AsyncQueue α) : Bool := q.unfinished == 0

/-- Every item still in the queue is an unfinished task. -/
def Balanced (q : AsyncQueue α) : Prop := q.items.length ≤ q.unfinished

theorem putNowait_eq_none {q : AsyncQueue α} {x : α} :
    q.putNowait x = none ↔ q.full = true := by
  rw [putNowait, Option.map_eq_none_iff, BoundedQueue.putNowait_eq_none]

theorem putNowait_eq_some {q q' : AsyncQueue α} {x : α} :
    q.putNowait x = some q' ↔ q.full = false ∧ q'.maxsize = q.maxsize ∧
      q'.items = q.items ++ [x] ∧ q'.unfinished = q.unfinished + 1 := by
  rw [putNowait, Option.map_eq_some_iff]
  constructor
  · rintro ⟨b, hb, rfl⟩
    obtain ⟨hf, hm, hi⟩ := BoundedQueue.putNowait_eq_some.mp hb
    exact ⟨hf, hm, hi, rfl⟩
  · rintro ⟨hf, hm, hi, hu⟩
    refine ⟨q'.toBoundedQueue, BoundedQueue.putNowait_eq_some.mpr ⟨hf, hm, hi⟩, ?_⟩
    rw [← hu]

theorem getNowait_eq_none {q : AsyncQueue α} : q.getNowait = none ↔ q.items = [] := by
  rw [getNowait, Option.map_eq_none_iff, BoundedQueue.getNowait_eq_none]

theorem getNowait_eq_some {q q' : AsyncQueue α} {x : α} :
    q.getNowait = some (x, q') ↔
      q'.maxsize = q.maxsize ∧ q.items = x :: q'.items ∧ q'.unfinished = q.unfinished := by
  rw [getNowait, Option.map_eq_some_iff]
  constructor
  · rintro ⟨⟨y, b⟩, hb, heq⟩
    obtain ⟨hm, hi⟩ := BoundedQueue.getNowait_eq_some.mp hb
    simp only [Prod.mk.injEq] at heq
    obtain ⟨rfl, rfl⟩ := heq
    exact ⟨hm, hi, rfl⟩
  · rintro ⟨hm, hi, hu⟩
    refine ⟨(x, q'.toBoundedQueue), BoundedQueue.getNowait_eq_some.mpr ⟨hm, hi⟩, ?_⟩
    rw [← hu]

theorem taskDone_eq_some {q q' : AsyncQueue α} :
    q.taskDone = some q' ↔
      0 < q.unfinished ∧ q' = { q with unfinished := q.unfinished - 1 } := by
  unfold taskDone
  split
  · simp_all
  · simp only [Option.some.injEq]
    exact ⟨fun h => ⟨by omega, h.symm⟩, fun h => h.2.symm⟩

/-! ### Emptying a queue -/

/-- `while not q.empty(): q.get_nowait(); q.task_done()`, at most `n` rounds. -/
def clearLoop : Nat → AsyncQueue α → Option (AsyncQueue α)
  | 0, q => some q
  | n + 1, q =>
    match q.getNowait with
    | none => some q
    | some (_, q') => q'.taskDone.bind (clearLoop n)

/-- The clearing loop, run until the queue is empty. -/
def clear (q : AsyncQueue α) : Option (AsyncQueue α) := clearLoop q.items.length q

end AsyncQueue

end Asyncio
