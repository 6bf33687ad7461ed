import ScietexLogging.Asyncio.Machine

/-!
# Asyncio — one machine refines another

A machine that says how a program runs *refines* one that says what it is for, if
each step of the first can be followed by some steps of the second, along a
relation between their states. What holds of every state the second can reach
then holds, through the relation, of the first.

* `Simulation`          — the relation, and what each step of the first machine needs;
* `Simulation.reaches`  — every run of the first is a run of the second;
* `Simulation.abstract` — every reachable state of the first is related to a
  reachable state of the second.
-/

namespace Asyncio

namespace Machine

variable {σ α τ β : Type*}

/-- `R` relates the states of `M` to those of `N`, and `N` can follow every step `M`
takes under `ok` from a state it can reach. -/
structure Simulation (M : Machine σ α) (ok : σ → α → Prop) (N : Machine τ β)
    (R : σ → τ → Prop) : Prop where
  init : ∀ s, M.init s → ∃ c, N.init c ∧ R s c
  step : ∀ s a t, M.Reachable ok s → ok s a → M.step s a = some t →
    ∀ c, R s c → ∃ c', N.Reaches Always c c' ∧ R t c'

namespace Simulation

variable {M : Machine σ α} {ok : σ → α → Prop} {N : Machine τ β} {R : σ → τ → Prop} {s t : σ}

/-- **Every run is matched**, from wherever it is related to the second machine. -/
theorem reaches (hsim : Simulation M ok N R) (hs : M.Reachable ok s) (h : M.Reaches ok s t)
    {c : τ} (hc : R s c) : ∃ c', N.Reaches Always c c' ∧ R t c' := by
  obtain ⟨s₀, h₀, hrun⟩ := hs
  induction h with
  | refl => exact ⟨c, .refl c, hc⟩
  | @tail t u a hst hok hstep ih =>
    obtain ⟨d, hd, hrel⟩ := ih
    obtain ⟨d', hd', hrel'⟩ := hsim.step t a u ⟨s₀, h₀, hrun.trans hst⟩ hok hstep d hrel
    exact ⟨d', hd.trans hd', hrel'⟩

/-- **Every reachable state is related** to a reachable state of the second machine. -/
theorem abstract (hsim : Simulation M ok N R) (hs : M.Reachable ok s) :
    ∃ c, N.Reachable Always c ∧ R s c := by
  obtain ⟨s₀, h₀, hrun⟩ := hs
  obtain ⟨c₀, hc₀, hrel⟩ := hsim.init s₀ h₀
  obtain ⟨c, hc, hrel'⟩ := hsim.reaches (.init h₀) hrun hrel
  exact ⟨c, ⟨c₀, hc₀, hc⟩, hrel'⟩

end Simulation

end Machine

end Asyncio
