import Mathlib.Data.List.Basic

/-!
# Posix — programs that may raise

A `Prog` works on a state and returns a value or raises; what it did to the state
before it raised stays done. `exec` runs it.

* `bind_cases` — what a sequence did, read off its first part;
* `Moves R` — whether or not it raises, the program takes the state by `R`.
-/

namespace Posix

abbrev Prog (σ ε α : Type) := ExceptT ε (StateM σ) α

namespace Prog

variable {σ ε α β : Type}

def exec (m : Prog σ ε α) (s : σ) : Except ε α × σ := m.run.run s

@[simp] theorem exec_pure (a : α) (s : σ) : (pure a : Prog σ ε α).exec s = (.ok a, s) := rfl

@[simp] theorem exec_throw (e : ε) (s : σ) : (throw e : Prog σ ε α).exec s = (.error e, s) := rfl

@[simp] theorem exec_get (s : σ) : (get : Prog σ ε σ).exec s = (.ok s, s) := rfl

@[simp] theorem exec_modify (f : σ → σ) (s : σ) :
    (modify f : Prog σ ε Unit).exec s = (.ok (), f s) := rfl

theorem exec_bind (m : Prog σ ε α) (f : α → Prog σ ε β) (s : σ) :
    (m >>= f).exec s =
      match m.exec s with
      | (.ok a, t) => (f a).exec t
      | (.error e, t) => (.error e, t) := by
  have hrun : (m >>= f).exec s = (fun p : Except ε α × σ => match p with
      | (.ok a, t) => (f a).exec t
      | (.error e, t) => (.error e, t)) (m.exec s) := by
    unfold exec
    rw [ExceptT.run_bind, StateT.run_bind]
    show (match m.run.run s with | (a, t) => _) = _
    rcases m.run.run s with ⟨a | e, t⟩ <;> rfl
  exact hrun

theorem exec_bind_ok {m : Prog σ ε α} {f : α → Prog σ ε β} {s t : σ} {a : α}
    (h : m.exec s = (.ok a, t)) : (m >>= f).exec s = (f a).exec t := by
  rw [exec_bind, h]

/-- A sequence goes on where its first part ends, or raises what that raised. -/
theorem bind_cases {m : Prog σ ε α} {f : α → Prog σ ε β} {s t : σ} {r : Except ε β}
    (h : (m >>= f).exec s = (r, t)) :
    (∃ a u, m.exec s = (.ok a, u) ∧ (f a).exec u = (r, t)) ∨
      ∃ e, m.exec s = (.error e, t) ∧ r = .error e := by
  rw [exec_bind] at h
  rcases hm : m.exec s with ⟨a | e, u⟩
  · rw [hm] at h
    obtain ⟨rfl, rfl⟩ := Prod.mk.inj h
    exact .inr ⟨a, rfl, rfl⟩
  · rw [hm] at h
    exact .inl ⟨e, u, rfl, h⟩

-- ---------------------------------------------------------------------------
-- What a program does to the state, raising or not
-- ---------------------------------------------------------------------------

/-- Whether or not it raises, `m` takes every state to one related to it. -/
def Moves (R : σ → σ → Prop) (m : Prog σ ε α) : Prop := ∀ s, R s (m.exec s).2

theorem Moves.pure {R : σ → σ → Prop} (hrefl : ∀ s, R s s) (a : α) :
    Moves R (pure a : Prog σ ε α) := fun s => hrefl s

theorem Moves.bind {R : σ → σ → Prop} (htrans : ∀ s t u, R s t → R t u → R s u)
    {m : Prog σ ε α} {f : α → Prog σ ε β} (hm : Moves R m) (hf : ∀ a, Moves R (f a)) :
    Moves R (m >>= f) := by
  intro s
  have hs := hm s
  rw [exec_bind]
  revert hs
  rcases m.exec s with ⟨a | e, t⟩
  · exact id
  · exact fun hs => htrans _ _ _ hs (hf _ t)

theorem Moves.ite {R : σ → σ → Prop} {c : Prop} [Decidable c] {m m' : Prog σ ε α}
    (h : Moves R m) (h' : Moves R m') : Moves R (if c then m else m') := by
  split
  · exact h
  · exact h'

end Prog

end Posix
