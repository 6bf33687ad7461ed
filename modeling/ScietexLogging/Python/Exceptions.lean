import Mathlib.Data.List.Basic

/-!
# Python — what raises first

A computation that may raise is an `Except`. Where it makes one check after the other, it
raises what the first failing check raises.

* `bind_eq_ok` — a sequence that ends had both its parts end;
* `Raises`     — the computation raises the first failure of a list of checks, or ends;
                 `Raises.bind` takes a list apart along a sequence.
-/

namespace Python

variable {ε α β : Type}

theorem bind_eq_ok {m : Except ε α} {f : α → Except ε β} {b : β} :
    (m >>= f) = .ok b ↔ ∃ a, m = .ok a ∧ f a = .ok b := by
  cases m with
  | error e =>
    refine iff_of_false (fun h => by cases h) ?_
    rintro ⟨a, h, -⟩
    cases h
  | ok a =>
    constructor
    · exact fun h => ⟨a, rfl, h⟩
    · rintro ⟨a', ha, hb⟩
      rw [Except.ok.inj ha]
      exact hb

/-- The first of the failures. -/
def firstFailure (checks : List (Option ε)) : Option ε := checks.findSome? id

/-- `m` raises the first failure of the checks, and ends if there is none. -/
def Raises (m : Except ε α) (checks : List (Option ε)) : Prop :=
  (∀ e, firstFailure checks = some e → m = .error e) ∧
    (firstFailure checks = none → ∃ a, m = .ok a)

theorem firstFailure_append (checks checks' : List (Option ε)) :
    firstFailure (checks ++ checks') = (firstFailure checks).or (firstFailure checks') :=
  List.findSome?_append

theorem Raises.ok (a : α) : Raises (.ok a : Except ε α) [] :=
  ⟨fun _ h => (by cases h), fun _ => ⟨a, rfl⟩⟩

theorem Raises.fine {m : Except ε α} {a : α} (h : m = .ok a) : Raises m [none] :=
  ⟨fun _ h => (by cases h), fun _ => ⟨a, h⟩⟩

theorem Raises.error {m : Except ε α} {e : ε} (h : m = .error e) (checks : List (Option ε)) :
    Raises m (some e :: checks) := by
  refine ⟨fun e' he => ?_, fun h => by cases h⟩
  rw [h, ← Option.some.inj he]

/-- The checks of the first part, then those of the second. -/
theorem Raises.bind {m : Except ε α} {f : α → Except ε β} {checks checks' : List (Option ε)}
    (hm : Raises m checks) (hf : ∀ a, m = .ok a → Raises (f a) checks') :
    Raises (m >>= f) (checks ++ checks') := by
  unfold Raises
  rw [firstFailure_append]
  cases hfirst : firstFailure checks with
  | some e =>
    refine ⟨fun e' he => ?_, fun h => by cases h⟩
    rw [hm.1 e hfirst, ← Option.some.inj he]
    rfl
  | none =>
    obtain ⟨a, ha⟩ := hm.2 hfirst
    rw [ha]
    exact hf a ha

theorem Raises.error_iff {m : Except ε α} {checks : List (Option ε)} (h : Raises m checks) (e : ε) :
    m = .error e ↔ firstFailure checks = some e := by
  constructor
  · intro hm
    cases hfirst : firstFailure checks with
    | none =>
      obtain ⟨a, ha⟩ := h.2 hfirst
      rw [ha] at hm
      cases hm
    | some e' =>
      rw [h.1 e' hfirst] at hm
      rw [Except.error.inj hm]
  · exact h.1 e

end Python
