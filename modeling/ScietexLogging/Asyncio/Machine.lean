import Mathlib.Data.List.Basic
import Mathlib.Logic.Basic

/-!
# Asyncio — machines driven by a scheduler

A concurrent program is modelled as a *machine*: a type of states, a type of
actions among which a scheduler picks (which task runs its next segment, which
thread executes its next statement, which timer fires, how an outside call
ends), and an executable step function. Every schedule is a list of actions,
so a property of all interleavings is a property of all runs.

* `Machine.run`       — executes a schedule, checking a condition on every step;
* `Machine.Reaches`   — the same as a relation, for induction;
* `Machine.invariant` — the induction rule: what holds initially and is kept by
  each step that meets the condition holds of every reachable state;
* `Machine.trace`     — what is noted along a schedule, with the rule `Machine.run_rule`
  for what a state has to do with what was noted on the way to it.

The condition `ok` is how a *restricted* set of schedules is stated ("no task
is cancelled while ...").  `Machine.Always` is the unrestricted case.
-/

namespace Asyncio

/-- Initial states and an executable step. -/
structure Machine (σ : Type*) (α : Type*) where
  init : σ → Prop
  step : σ → α → Option σ

namespace Machine

variable {σ α : Type*} (M : Machine σ α)

/-- Execute a schedule, refusing a step that is not enabled or not `ok`. -/
def run (ok : σ → α → Prop) [∀ s a, Decidable (ok s a)] : σ → List α → Option σ
  | s, [] => some s
  | s, a :: as => if ok s a then (M.step s a).bind fun t => run ok t as else none

/-- `t` is reached from `s` by steps each of which meets `ok`. -/
inductive Reaches (ok : σ → α → Prop) : σ → σ → Prop
  | refl (s : σ) : Reaches ok s s
  | tail {s t u : σ} {a : α} (h : Reaches ok s t) (hok : ok t a)
      (hstep : M.step t a = some u) : Reaches ok s u

/-- Reachable from an initial state by steps that meet `ok`. -/
def Reachable (ok : σ → α → Prop) (s : σ) : Prop :=
  ∃ s₀, M.init s₀ ∧ M.Reaches ok s₀ s

/-- The condition every step meets. -/
def Always : σ → α → Prop := fun _ _ => True

instance (s : σ) (a : α) : Decidable (Always s a) := isTrue trivial

variable {M} {ok : σ → α → Prop}

theorem Reaches.trans {s t u : σ} (h : M.Reaches ok s t) (h' : M.Reaches ok t u) :
    M.Reaches ok s u := by
  induction h' with
  | refl => exact h
  | tail _ hok hstep ih => exact .tail ih hok hstep

theorem Reaches.head {s t u : σ} {a : α} (hok : ok s a) (hstep : M.step s a = some t)
    (h : M.Reaches ok t u) : M.Reaches ok s u :=
  (Reaches.tail (.refl s) hok hstep).trans h

/-- A schedule that executes is a run of the relation. -/
theorem Reaches.of_run [∀ s a, Decidable (ok s a)] {s t : σ} {as : List α}
    (h : M.run ok s as = some t) : M.Reaches ok s t := by
  induction as generalizing s with
  | nil =>
    rw [run, Option.some.injEq] at h
    exact h ▸ .refl s
  | cons a as ih =>
    rw [run] at h
    split at h
    · rename_i hok
      obtain ⟨u, hu, hrest⟩ := Option.bind_eq_some_iff.mp h
      exact .head hok hu (ih hrest)
    · exact absurd h (by simp)

/-- What the actions of a schedule have in common may be a condition on its steps. -/
theorem Reaches.of_run_forall [∀ s a, Decidable (ok s a)] {P : α → Prop} {s t : σ} {as : List α}
    (h : M.run ok s as = some t) (hP : ∀ a ∈ as, P a) :
    M.Reaches (fun s a => ok s a ∧ P a) s t := by
  induction as generalizing s with
  | nil =>
    rw [run, Option.some.injEq] at h
    exact h ▸ .refl s
  | cons a as ih =>
    rw [run] at h
    split at h
    · rename_i hok
      obtain ⟨u, hu, hrest⟩ := Option.bind_eq_some_iff.mp h
      exact .head ⟨hok, hP a List.mem_cons_self⟩ hu
        (ih hrest fun b hb => hP b (List.mem_cons_of_mem a hb))
    · exact absurd h (by simp)

theorem Reachable.init {s : σ} (h : M.init s) : M.Reachable ok s :=
  ⟨s, h, .refl s⟩

theorem Reachable.step {s t : σ} {a : α} (h : M.Reachable ok s) (hok : ok s a)
    (hstep : M.step s a = some t) : M.Reachable ok t := by
  obtain ⟨s₀, h₀, hr⟩ := h
  exact ⟨s₀, h₀, hr.tail hok hstep⟩

theorem Reachable.of_run [∀ s a, Decidable (ok s a)] {s t : σ} {as : List α}
    (h₀ : M.init s) (h : M.run ok s as = some t) : M.Reachable ok t :=
  ⟨s, h₀, .of_run h⟩

/-- A weaker condition has more runs. -/
theorem Reachable.mono {ok' : σ → α → Prop} (himp : ∀ s a, ok s a → ok' s a) {s : σ}
    (h : M.Reachable ok s) : M.Reachable ok' s := by
  obtain ⟨s₀, h₀, hr⟩ := h
  refine ⟨s₀, h₀, ?_⟩
  induction hr with
  | refl => exact .refl _
  | tail _ hok hstep ih => exact .tail ih (himp _ _ hok) hstep

/-- **Invariant rule.** -/
theorem invariant {I : σ → Prop} (h₀ : ∀ s, M.init s → I s)
    (hstep : ∀ s a t, I s → ok s a → M.step s a = some t → I t)
    {s : σ} (h : M.Reachable ok s) : I s := by
  obtain ⟨s₀, hi, hr⟩ := h
  induction hr with
  | refl => exact h₀ _ hi
  | tail _ hok hs ih => exact hstep _ _ _ ih hok hs

/-- **Invariant rule, strengthened.** An invariant already known of every
reachable state may be used in the step. -/
theorem invariant_with {I J : σ → Prop} (hJ : ∀ s, M.Reachable ok s → J s)
    (h₀ : ∀ s, M.init s → I s)
    (hstep : ∀ s a t, J s → I s → ok s a → M.step s a = some t → I t)
    {s : σ} (h : M.Reachable ok s) : I s := by
  have hboth : M.Reachable ok s ∧ I s := by
    refine invariant (I := fun s => M.Reachable ok s ∧ I s) ?_ ?_ h
    · exact fun s hs => ⟨.init hs, h₀ s hs⟩
    · rintro s a t ⟨hr, hi⟩ hok hs
      exact ⟨hr.step hok hs, hstep s a t (hJ s hr) hi hok hs⟩
  exact hboth.2

/-- A reachable state is the end of some schedule. -/
theorem Reaches.to_run [∀ s a, Decidable (ok s a)] {s t : σ} (h : M.Reaches ok s t) :
    ∃ as, M.run ok s as = some t := by
  have happend : ∀ as s t u a, M.run ok s as = some t → ok t a → M.step t a = some u →
      M.run ok s (as ++ [a]) = some u := by
    intro as
    induction as with
    | nil =>
      intro s t u a hrun hok hstep
      obtain rfl := Option.some.inj hrun
      rw [List.nil_append, run, if_pos hok, hstep]
      rfl
    | cons b as ih =>
      intro s t u a hrun hok hstep
      rw [run] at hrun
      split at hrun
      · rename_i hb
        obtain ⟨v, hv, hrest⟩ := Option.bind_eq_some_iff.mp hrun
        rw [List.cons_append, run, if_pos hb, hv]
        exact ih v t u a hrest hok hstep
      · cases hrun
  induction h with
  | refl => exact ⟨[], rfl⟩
  | tail _ hok hstep ih =>
    obtain ⟨as, has⟩ := ih
    exact ⟨as ++ [_], happend as _ _ _ _ has hok hstep⟩

section Trace

variable {β : Type*}

/-- What `see` notes of the steps of a schedule. -/
def trace (M : Machine σ α) (see : σ → α → List β) : σ → List α → List β
  | _, [] => []
  | s, a :: as =>
    see s a ++
      match M.step s a with
      | some t => M.trace see t as
      | none => []

/-- **Run rule.** An invariant of a state and what was noted on the way to it. -/
theorem run_rule [∀ s a, Decidable (ok s a)] {see : σ → α → List β} {I : σ → List β → Prop}
    (hstep : ∀ s a t bs, M.Reachable ok s → I s bs → ok s a → M.step s a = some t →
      I t (bs ++ see s a)) {s t : σ} (h₀ : M.init s) (hi : I s []) {as : List α}
    (h : M.run ok s as = some t) : I t (M.trace see s as) := by
  have hrest : ∀ as s bs, M.Reachable ok s → I s bs → M.run ok s as = some t →
      I t (bs ++ M.trace see s as) := by
    intro as
    induction as with
    | nil =>
      intro s bs _ hi h
      obtain rfl := Option.some.inj h
      rwa [trace, List.append_nil]
    | cons a as ih =>
      intro s bs hs hi h
      rw [run] at h
      split at h
      · rename_i hok
        obtain ⟨u, hu, hrun⟩ := Option.bind_eq_some_iff.mp h
        rw [trace, hu, ← List.append_assoc]
        exact ih u _ (hs.step hok hu) (hstep s a u bs hs hi hok hu) hrun
      · cases h
  exact hrest as s [] (.init h₀) hi h

end Trace

end Machine

end Asyncio
