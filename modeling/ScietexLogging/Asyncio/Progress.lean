import Mathlib.Order.WellFounded
import ScietexLogging.Asyncio.Consumer
import ScietexLogging.Asyncio.Executor
import ScietexLogging.Asyncio.Machine

/-!
# Asyncio — what a machine can still reach

An invariant says what no run does; a *variant* says what a run can still do. Where
every state that is not `done` has steps to a state with a smaller variant, a `done`
state can be reached: the machine is never stuck before one.

* `Machine.reaches_of_variant` — the rule;
* `Machine.Reaches.map`        — the runs of a part are runs of the whole;
* `Executor.Expects`           — a job that is over, or that the thread will come to;
* `Consumer.CanEnd`            — a task that its own steps, and what it waits for, bring
  to its end.
-/

namespace Asyncio

namespace Machine

variable {σ α τ β : Type*} {M : Machine σ α} {N : Machine τ β} {ok : σ → α → Prop}

theorem Reaches.single {s t : σ} {a : α} (hok : ok s a) (hstep : M.step s a = some t) :
    M.Reaches ok s t :=
  .tail (.refl s) hok hstep

/-- **Variant rule.** -/
theorem reaches_of_variant {ι : Type*} [Preorder ι] [WellFoundedLT ι] (μ : σ → ι) {I done : σ → Prop}
    (hstep : ∀ s, I s → ¬ done s → ∃ t, M.Reaches ok s t ∧ I t ∧ μ t < μ s) {s : σ} (hs : I s) :
    ∃ t, M.Reaches ok s t ∧ I t ∧ done t := by
  induction hμ : μ s using WellFoundedLT.induction generalizing s with
  | ind m ih =>
    by_cases hdone : done s
    · exact ⟨s, .refl s, hs, hdone⟩
    · obtain ⟨t, hst, ht, hlt⟩ := hstep s hs hdone
      obtain ⟨u, htu, hu, hdone'⟩ := ih (μ t) (hμ ▸ hlt) ht rfl
      exact ⟨u, hst.trans htu, hu, hdone'⟩

/-- A machine whose steps are steps of another, seen through `f`. -/
theorem Reaches.map {ok' : τ → β → Prop} (f : σ → τ)
    (hf : ∀ s a t, ok s a → M.step s a = some t → ∃ b, ok' (f s) b ∧ N.step (f s) b = some (f t))
    {s t : σ} (h : M.Reaches ok s t) : N.Reaches ok' (f s) (f t) := by
  induction h with
  | refl => exact .refl _
  | tail _ hok hstep ih =>
    obtain ⟨b, hb, hstep'⟩ := hf _ _ _ hok hstep
    exact ih.tail hb hstep'

end Machine

-- ---------------------------------------------------------------------------
-- An executor
-- ---------------------------------------------------------------------------

namespace Executor

variable {J : Type} {ex ex' : Executor J} {n m : Nat}

/-- Job `n` is over, or the thread has it before it. -/
def Expects (ex : Executor J) (n : Nat) : Prop := ex.finished n ≠ none ∨ ∃ j, (n, j) ∈ ex.jobs

/-- How many steps the thread needs for what it has before it. -/
def load (ex : Executor J) : Nat := 2 * ex.pending.length + ex.running.toList.length

theorem Expects.submitted (ex : Executor J) (j : J) : (ex.submit j).Expects ex.submitted := by
  refine .inr ⟨j, ?_⟩
  rw [jobs_submit]
  exact List.mem_append_right _ (List.mem_singleton.mpr rfl)

theorem Expects.begin (h : ex.Expects n) (hbegin : ex.begin = some ex') : ex'.Expects n := by
  obtain ⟨hjobs, hfinished⟩ := jobs_begin hbegin
  rw [Expects, hjobs, hfinished]
  exact h

theorem Expects.finish (h : ex.Expects n) {j : J} (hrunning : ex.running = some (m, j)) (ok : Bool) :
    (ex.finish m ok).Expects n := by
  by_cases hn : n = m
  · refine .inl ?_
    rw [hn, show (ex.finish m ok).finished m = some ok from Function.update_self ..]
    exact Option.some_ne_none ok
  · rcases h with h | ⟨j', h⟩
    · refine .inl ?_
      rw [show (ex.finish m ok).finished n = ex.finished n from Function.update_of_ne hn ..]
      exact h
    · rw [jobs_finish hrunning ok, List.mem_cons] at h
      rcases h with h | h
      · exact absurd (Prod.mk.inj h).1 hn
      · exact .inr ⟨j', h⟩

theorem Expects.finished (h : ex.Expects n) (hidle : ex.Idle) : ∃ ok, ex.finished n = some ok := by
  rcases h with h | ⟨j, h⟩
  · exact Option.ne_none_iff_exists'.mp h
  · rw [jobs_eq_nil.mpr hidle] at h
    cases h

theorem load_submit (ex : Executor J) (j : J) : (ex.submit j).load = ex.load + 2 := by
  show 2 * (ex.pending ++ [(ex.submitted, j)]).length + ex.running.toList.length =
    2 * ex.pending.length + ex.running.toList.length + 2
  rw [List.length_append, List.length_singleton]
  omega

theorem load_begin (h : ex.begin = some ex') : ex'.load < ex.load := by
  obtain ⟨p, ps, hpending, hrunning, rfl⟩ := begin_eq_some h
  rw [load, load, hpending, hrunning, List.length_cons]
  show 2 * ps.length + 1 < 2 * (ps.length + 1) + 0
  omega

theorem load_finish {j : J} (h : ex.running = some (n, j)) (ok : Bool) :
    (ex.finish n ok).load < ex.load := by
  rw [load, load, h]
  show 2 * ex.pending.length + 0 < 2 * ex.pending.length + 1
  omega

theorem load_cancel (ex : Executor J) (n : Nat) : (ex.cancel n).load ≤ ex.load := by
  have := List.length_filter_le (fun p : Nat × J => p.1 != n) ex.pending
  show 2 * (ex.pending.filter fun p => p.1 != n).length + ex.running.toList.length ≤ ex.load
  rw [load]
  omega

/-- A thread with nothing on it takes up the next job, if there is one. -/
theorem begin_or_idle (h : ex.running = none) : ex.Idle ∨ ∃ ex', ex.begin = some ex' := by
  cases hpending : ex.pending with
  | nil => exact .inl ⟨hpending, h⟩
  | cons p ps => exact .inr ⟨_, by rw [begin, h, hpending]⟩

end Executor

-- ---------------------------------------------------------------------------
-- A task
-- ---------------------------------------------------------------------------

namespace Consumer

variable {α φ : Type} (C : Consumer α φ)

/-- The segments of one task, when it alone takes steps. -/
def machine (running : Bool) : Machine (C.Shared × Ledger α φ × C.Task) C.Act where
  init := fun x => x.2.2 = C.create
  step := fun x a => C.step running a x

/-- Wherever the program has stopped, the task can still come to its end. -/
def CanEnd (t : C.Task) : Prop :=
  ∀ shared ledger, ∃ y, (C.machine false).Reaches Machine.Always (shared, ledger, t) y ∧
    C.ended y.2.2 ≠ none

end Consumer

end Asyncio
