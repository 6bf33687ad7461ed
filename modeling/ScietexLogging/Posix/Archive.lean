import Mathlib.Data.List.Basic

/-!
# Posix — archives

The purpose of a log with numbered backups: entries are appended in order, and a
rotation makes every entry one older. *Shelf* `k` has the entries of age `k`, in
order; who keeps the shelves up to `n` has kept the most recent entries.

* `reading_eq`     — the shelves from `n` down to 0, read one after the other;
* `older_append`   — they are all the entries but those older than `n`.
-/

namespace Posix

/-- Entries in the order they were appended, each with its age. -/
structure Archive (α : Type) where
  entries : List (α × Nat)
  ordered : entries.Pairwise fun a b => b.2 ≤ a.2

namespace Archive

variable {α : Type} (a : Archive α)

def empty : Archive α := ⟨[], .nil⟩

def append (x : α) : Archive α :=
  ⟨a.entries ++ [(x, 0)], by
    rw [List.pairwise_append]
    refine ⟨a.ordered, List.pairwise_singleton _ _, fun b _ c hc => ?_⟩
    obtain rfl := List.mem_singleton.mp hc
    exact Nat.zero_le _⟩

def rotate : Archive α :=
  ⟨a.entries.map fun e => (e.1, e.2 + 1), by
    rw [List.pairwise_map]
    exact a.ordered.imp fun h => Nat.succ_le_succ h⟩

def shelf (k : Nat) : List α := (a.entries.filter fun e => e.2 = k).map Prod.fst

/-- The entries at most `n` old. -/
def recent (n : Nat) : List α := (a.entries.filter fun e => e.2 ≤ n).map Prod.fst

def older (n : Nat) : List α := (a.entries.filter fun e => n < e.2).map Prod.fst

@[simp] theorem shelf_empty (k : Nat) : (empty : Archive α).shelf k = [] := rfl

@[simp] theorem shelf_append (x : α) (k : Nat) :
    (a.append x).shelf k = if k = 0 then a.shelf 0 ++ [x] else a.shelf k := by
  cases k with
  | zero => simp [shelf, append, List.filter_append]
  | succ k => simp [shelf, append, List.filter_append]

@[simp] theorem shelf_rotate_zero : a.rotate.shelf 0 = [] := by
  simp [shelf, rotate, List.filter_map]

@[simp] theorem shelf_rotate_succ (k : Nat) : a.rotate.shelf (k + 1) = a.shelf k := by
  simp [shelf, rotate, List.filter_map, Function.comp_def]

/-- The next shelf comes before the more recent ones. -/
theorem recent_succ (n : Nat) : a.recent (n + 1) = a.shelf (n + 1) ++ a.recent n := by
  obtain ⟨es, hs⟩ := a
  rw [recent, shelf, recent, ← List.map_append]
  congr 1
  induction es with
  | nil => rfl
  | cons e es ih =>
    obtain ⟨he, hs⟩ := List.pairwise_cons.mp hs
    specialize ih hs
    rcases Nat.lt_trichotomy e.2 (n + 1) with hlt | heq | hgt
    · -- then no later entry is older
      have hnone : es.filter (fun e => decide (e.2 = n + 1)) = [] := by
        rw [List.filter_eq_nil_iff]
        intro b hb
        have := he b hb
        simp
        omega
      rw [hnone, List.nil_append] at ih
      simp only [List.filter_cons, hnone]
      rw [if_pos (by simp; omega), if_neg (by simp; omega), if_pos (by simp; omega), ih,
        List.nil_append]
    · simp only [List.filter_cons]
      rw [if_pos (by simp; omega), if_pos (by simp; omega), if_neg (by simp; omega), ih,
        List.cons_append]
    · simp only [List.filter_cons]
      rw [if_neg (by simp; omega), if_neg (by simp; omega), if_neg (by simp; omega), ih]

/-- **The shelves, read from the oldest.** -/
theorem reading_eq (n : Nat) : ((List.range (n + 1)).reverse.flatMap a.shelf) = a.recent n := by
  induction n with
  | zero => simp [recent, shelf]
  | succ n ih =>
    rw [List.range_succ, List.reverse_append, List.reverse_singleton, List.singleton_append,
      List.flatMap_cons, ih, recent_succ]

/-- **What is on no shelf is the oldest part.** -/
theorem older_append (n : Nat) : a.older n ++ a.recent n = a.entries.map Prod.fst := by
  obtain ⟨es, hs⟩ := a
  rw [older, recent, ← List.map_append]
  congr 1
  induction es with
  | nil => rfl
  | cons e es ih =>
    obtain ⟨he, hs⟩ := List.pairwise_cons.mp hs
    specialize ih hs
    rcases Nat.lt_or_ge n e.2 with hlt | hge
    · simp only [List.filter_cons]
      rw [if_pos (by simpa using hlt), if_neg (by simp; omega), List.cons_append, ih]
    · have hnone : es.filter (fun e => decide (n < e.2)) = [] := by
        rw [List.filter_eq_nil_iff]
        intro b hb
        have := he b hb
        simp
        omega
      rw [hnone, List.nil_append] at ih
      simp only [List.filter_cons, hnone]
      rw [if_neg (by simp; omega), if_pos (by simpa using hge), ih, List.nil_append]

end Archive

end Posix
