import Mathlib.Data.List.Basic

/-!
# Asyncio — histories

A history lists what a program did, the latest event first, so that what had
happened before an event is the rest of the list. `Each P` says that every event
was right (`P`) with what had happened before it; a program keeps it by making
only such events.
-/

namespace Asyncio

/-- Every event, with the events before it. -/
def Each {ε : Type*} (P : List ε → ε → Prop) : List ε → Prop
  | [] => True
  | e :: past => P past e ∧ Each P past

variable {ε : Type*} {P Q : List ε → ε → Prop}

@[simp] theorem each_nil : Each P [] := trivial

@[simp] theorem each_cons {e : ε} {past : List ε} : Each P (e :: past) ↔ P past e ∧ Each P past :=
  Iff.rfl

theorem Each.mono {h : List ε} (hp : Each P h) (himp : ∀ past e, P past e → Q past e) : Each Q h := by
  induction h with
  | nil => trivial
  | cons e past ih => exact ⟨himp past e hp.1, ih hp.2⟩

end Asyncio
