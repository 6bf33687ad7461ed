import Mathlib.Data.List.Basic
import Mathlib.Data.List.Nodup
import Mathlib.Logic.Function.Basic

/-!
# Asyncio — a single-thread executor

A wrapper around a lazily created `ThreadPoolExecutor(max_workers=1)`: jobs run
one at a time in the order of their submission. Cancelling a submitted job takes
it back if it has not started and does nothing otherwise. `shutdown` returns
when no job is left, and forgets the pool.
-/

namespace Asyncio

structure Executor (J : Type) where
  /-- The thread pool exists. -/
  pool : Bool
  /-- The jobs handed over so far, in this order. -/
  log : List J
  pending : List (Nat × J)
  running : Option (Nat × J)
  /-- How a job ended: `true` if its function returned, `false` if it raised. -/
  finished : Nat → Option Bool

namespace Executor

variable {J : Type}

def new : Executor J where
  pool := false
  log := []
  pending := []
  running := none
  finished := fun _ => none

def submitted (ex : Executor J) : Nat := ex.log.length

/-- The submitted job is number `ex.submitted`. -/
def submit (ex : Executor J) (j : J) : Executor J :=
  { ex with
    pool := true
    log := ex.log ++ [j]
    pending := ex.pending ++ [(ex.submitted, j)] }

def cancel (ex : Executor J) (n : Nat) : Executor J :=
  { ex with pending := ex.pending.filter fun p => p.1 != n }

/-- The thread takes up the next job. -/
def begin (ex : Executor J) : Option (Executor J) :=
  match ex.running, ex.pending with
  | none, p :: ps => some { ex with pending := ps, running := some p }
  | _, _ => none

/-- The job on the thread is over. -/
def finish (ex : Executor J) (n : Nat) (ok : Bool) : Executor J :=
  { ex with running := none, finished := Function.update ex.finished n (some ok) }

/-- No job is running or pending. -/
def Idle (ex : Executor J) : Prop := ex.pending = [] ∧ ex.running = none

def idle (ex : Executor J) : Bool := ex.pending.isEmpty && ex.running.isNone

/-- `shutdown(wait=True)`, once nothing is left to wait for. -/
def shutdown (ex : Executor J) : Option (Executor J) :=
  if ex.idle then some { ex with pool := false } else none

/-- No thread is left, and nothing for one to do. -/
def Down (ex : Executor J) : Prop := ex.Idle ∧ ex.pool = false

theorem idle_iff {ex : Executor J} : ex.idle = true ↔ ex.Idle := by
  simp [idle, Idle]

theorem Down.new : (new : Executor J).Down := ⟨⟨rfl, rfl⟩, rfl⟩

theorem begin_eq_some {ex ex' : Executor J} (h : ex.begin = some ex') :
    ∃ p ps, ex.pending = p :: ps ∧ ex.running = none ∧
      ex' = { ex with pending := ps, running := some p } := by
  unfold begin at h
  split at h
  · rename_i p ps hr hp
    exact ⟨p, ps, hp, hr, (Option.some.inj h).symm⟩
  · exact absurd h (by simp)

theorem shutdown_eq_some {ex ex' : Executor J} (h : ex.shutdown = some ex') :
    ex.Idle ∧ ex'.Down := by
  unfold shutdown at h
  split at h
  · rename_i hidle
    obtain rfl := Option.some.inj h
    exact ⟨idle_iff.mp hidle, idle_iff.mp hidle, rfl⟩
  · exact absurd h (by simp)

-- ---------------------------------------------------------------------------
-- Which job is which
-- ---------------------------------------------------------------------------

/-- The jobs not yet over, in the order in which the thread ends them. -/
def jobs (ex : Executor J) : List (Nat × J) := ex.running.toList ++ ex.pending

@[simp] theorem mem_jobs {ex : Executor J} {p : Nat × J} :
    p ∈ ex.jobs ↔ ex.running = some p ∨ p ∈ ex.pending := by
  simp [jobs]

theorem submitted_submit (ex : Executor J) (j : J) : (ex.submit j).submitted = ex.submitted + 1 :=
  List.length_append

theorem jobs_submit (ex : Executor J) (j : J) :
    (ex.submit j).jobs = ex.jobs ++ [(ex.submitted, j)] := by
  simp [jobs, submit]

theorem jobs_begin {ex ex' : Executor J} (h : ex.begin = some ex') :
    ex'.jobs = ex.jobs ∧ ex'.finished = ex.finished := by
  obtain ⟨p, ps, hpending, hrunning, rfl⟩ := begin_eq_some h
  exact ⟨by simp [jobs, hpending, hrunning], rfl⟩

theorem jobs_finish {ex : Executor J} {n : Nat} {j : J} (h : ex.running = some (n, j)) (ok : Bool) :
    ex.jobs = (n, j) :: (ex.finish n ok).jobs := by
  simp [jobs, h, finish]

theorem jobs_eq_nil {ex : Executor J} : ex.jobs = [] ↔ ex.Idle := by
  rw [jobs, List.append_eq_nil_iff, Idle, and_comm]
  cases ex.running <;> simp

/-- Jobs are numbered in the order of their submission, and a job that is over
is not run again. -/
structure Sound (ex : Executor J) : Prop where
  sorted : ex.jobs.Pairwise (·.1 < ·.1)
  bound : ∀ p ∈ ex.jobs, p.1 < ex.submitted
  left : ∀ n, ex.finished n ≠ none → n < ex.submitted ∧ ∀ p ∈ ex.jobs, p.1 ≠ n

namespace Sound

variable {ex ex' : Executor J}

theorem new : (new : Executor J).Sound :=
  ⟨.nil, fun p hp => absurd hp (by simp [Executor.new]),
    fun n hn => absurd rfl hn⟩

theorem fresh (hs : ex.Sound) : ex.finished ex.submitted = none := by
  by_contra hne
  exact Nat.lt_irrefl _ (hs.left _ hne).1

/-- One number, one job. -/
theorem unique (hs : ex.Sound) {n : Nat} {j j' : J} (h : (n, j) ∈ ex.jobs) (h' : (n, j') ∈ ex.jobs) :
    j = j' := by
  have hnodup : (ex.jobs.map Prod.fst).Nodup :=
    List.pairwise_map.mpr (hs.sorted.imp Nat.ne_of_lt)
  exact (Prod.mk.inj (List.inj_on_of_nodup_map hnodup h h' rfl)).2

/-- Fewer jobs. -/
private theorem less (hs : ex.Sound) (hsub : ex'.jobs.Sublist ex.jobs)
    (hsubmitted : ex'.submitted = ex.submitted) (hover : ∀ n, ex'.finished n ≠ none →
      ex.finished n ≠ none ∨ n < ex.submitted ∧ ∀ p ∈ ex'.jobs, p.1 ≠ n) : ex'.Sound := by
  refine ⟨hs.sorted.sublist hsub, fun p hp => ?_, fun n hn => ?_⟩
  · rw [hsubmitted]
    exact hs.bound p (hsub.subset hp)
  · rw [hsubmitted]
    rcases hover n hn with h | h
    · exact ⟨(hs.left n h).1, fun p hp => (hs.left n h).2 p (hsub.subset hp)⟩
    · exact h

theorem submit (hs : ex.Sound) (j : J) : (ex.submit j).Sound := by
  have hjobs := jobs_submit ex j
  refine ⟨?_, ?_, fun n hn => ?_⟩
  · rw [hjobs, List.pairwise_append]
    refine ⟨hs.sorted, List.pairwise_singleton _ _, fun p hp q hq => ?_⟩
    rw [List.mem_singleton.mp hq]
    exact hs.bound p hp
  · intro p hp
    rw [submitted_submit]
    rw [hjobs, List.mem_append, List.mem_singleton] at hp
    rcases hp with hp | rfl
    · exact Nat.lt_succ_of_lt (hs.bound p hp)
    · exact Nat.lt_succ_self _
  · obtain ⟨hlt, hne⟩ := hs.left n hn
    rw [submitted_submit]
    refine ⟨Nat.lt_succ_of_lt hlt, fun p hp => ?_⟩
    rw [hjobs, List.mem_append, List.mem_singleton] at hp
    rcases hp with hp | rfl
    · exact hne p hp
    · exact (Nat.ne_of_lt hlt).symm

theorem cancel (hs : ex.Sound) (n : Nat) : (ex.cancel n).Sound :=
  hs.less ((List.Sublist.refl _).append List.filter_sublist) rfl fun _ h => .inl h

theorem begin (hs : ex.Sound) (h : ex.begin = some ex') : ex'.Sound := by
  have hjobs := (jobs_begin h).1
  obtain ⟨p, ps, -, -, rfl⟩ := begin_eq_some h
  exact hs.less (by rw [hjobs]) rfl fun _ h => .inl h

theorem finish (hs : ex.Sound) {n : Nat} {j : J} (h : ex.running = some (n, j)) (ok : Bool) :
    (ex.finish n ok).Sound := by
  have hjobs := jobs_finish h ok
  refine hs.less (by rw [hjobs]; exact List.sublist_cons_self _ _) rfl fun m hm => ?_
  by_cases hmn : m = n
  · rw [hmn]
    have hsorted := hs.sorted
    rw [hjobs, List.pairwise_cons] at hsorted
    refine .inr ⟨hs.bound (n, j) (mem_jobs.mpr (.inl h)), fun p hp => ?_⟩
    exact (Nat.ne_of_lt (hsorted.1 p hp)).symm
  · rw [show (ex.finish n ok).finished m = ex.finished m from Function.update_of_ne hmn _ _] at hm
    exact .inl hm

theorem shutdown (hs : ex.Sound) (h : ex.shutdown = some ex') : ex'.Sound := by
  unfold Executor.shutdown at h
  split at h
  · obtain rfl := Option.some.inj h
    exact hs.less (List.Sublist.refl _) rfl fun _ h => .inl h
  · exact absurd h (by simp)

end Sound

end Executor

end Asyncio
