import Mathlib.Data.List.Basic

/-!
# Posix — path names

A path name is absolute, or relative to the working directory; it is looked up
component by component (there are no symbolic links). A relative name climbs out of
some of the last components of the working directory, and goes on from there: where
it leads depends on the rest of the working directory, its *trunk*, only.
-/

namespace Posix

/-- A file: the directories from the root, and its name. -/
structure AbsPath where
  dir : List String
  name : String
  deriving DecidableEq, Repr

/-- A component before the last: `.`, `..` or a directory. -/
inductive Part where
  | here
  | up
  | down (s : String)
  deriving DecidableEq, Repr

structure Filename where
  absolute : Bool
  dirs : List Part
  name : String
  deriving DecidableEq, Repr

/-- The root is above itself. -/
def Part.follow (dir : List String) : Part → List String
  | .here => dir
  | .up => dir.dropLast
  | .down s => dir ++ [s]

/-- Where a name leads from a working directory. -/
def Filename.resolve (cwd : List String) (f : Filename) : AbsPath :=
  ⟨f.dirs.foldl Part.follow (if f.absolute then [] else cwd), f.name⟩

/-- How far a path climbs, and where it goes from there. -/
def Part.reduce : Nat × List String → Part → Nat × List String
  | p, .here => p
  | (n, []), .up => (n + 1, [])
  | (n, s :: ss), .up => (n, (s :: ss).dropLast)
  | (n, ss), .down s => (n, ss ++ [s])

def Filename.climb (f : Filename) : Nat := (f.dirs.foldl Part.reduce (0, [])).1

/-- What a name does not climb out of. -/
def Filename.trunk (f : Filename) (cwd : List String) : List String :=
  cwd.take (cwd.length - f.climb)

theorem follow_reduce (cwd : List String) (p : Nat × List String) (part : Part) :
    part.follow (cwd.take (cwd.length - p.1) ++ p.2) =
      cwd.take (cwd.length - (Part.reduce p part).1) ++ (Part.reduce p part).2 := by
  obtain ⟨n, ss⟩ := p
  cases part with
  | here => rfl
  | down s => exact List.append_assoc _ _ _
  | up =>
    cases ss with
    | nil =>
      simp only [Part.follow, Part.reduce, List.append_nil]
      rw [List.dropLast_eq_take, List.take_take, List.length_take]
      congr 1
      omega
    | cons s ss =>
      simp only [Part.follow, Part.reduce]
      rw [List.dropLast_append_of_ne_nil (by simp)]

theorem foldl_follow (cwd : List String) (parts : List Part) (p : Nat × List String) :
    parts.foldl Part.follow (cwd.take (cwd.length - p.1) ++ p.2) =
      cwd.take (cwd.length - (parts.foldl Part.reduce p).1) ++ (parts.foldl Part.reduce p).2 := by
  induction parts generalizing p with
  | nil => rfl
  | cons part parts ih =>
    rw [List.foldl_cons, follow_reduce, ih]
    rfl

/-- Where a relative name leads is a matter of the trunk. -/
theorem Filename.resolve_eq_iff (f : Filename) (cwd cwd' : List String) :
    f.resolve cwd = f.resolve cwd' ↔ f.absolute = true ∨ f.trunk cwd = f.trunk cwd' := by
  cases habs : f.absolute with
  | true => simp [resolve, habs]
  | false =>
    have hwalk : ∀ d : List String, f.dirs.foldl Part.follow d =
        f.trunk d ++ (f.dirs.foldl Part.reduce (0, [])).2 := by
      intro d
      have := foldl_follow d f.dirs (0, [])
      simpa [trunk, climb] using this
    simp only [resolve, habs, Bool.false_eq_true, if_false, AbsPath.mk.injEq, and_true, false_or]
    rw [hwalk, hwalk, List.append_left_inj]

/-- The name with a dot and a suffix. -/
def AbsPath.suffixed (p : AbsPath) (s : String) : AbsPath := { p with name := p.name ++ ("." ++ s) }

theorem AbsPath.suffixed_inj {p : AbsPath} {s s' : String} (h : p.suffixed s = p.suffixed s') :
    s = s' := by
  have hname : p.name ++ ("." ++ s) = p.name ++ ("." ++ s') := congrArg AbsPath.name h
  exact (String.append_right_inj _).mp ((String.append_right_inj _).mp hname)

theorem AbsPath.suffixed_ne (p : AbsPath) (s : String) : p.suffixed s ≠ p := by
  intro h
  have hname : p.name ++ ("." ++ s) = p.name ++ "" := by
    rw [String.append_empty]
    exact congrArg AbsPath.name h
  have := congrArg String.length ((String.append_right_inj _).mp hname)
  rw [String.length_append] at this
  simp at this

end Posix
