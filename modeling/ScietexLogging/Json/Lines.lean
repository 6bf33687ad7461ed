import ScietexLogging.Json.Grammar

/-!
# Json — one value a line

Newline-delimited JSON: every line is one JSON value, and every line is ended. What a
reader gets of texts without a line break, written one after the other with a line break
behind each, is what it gets of each of them.
-/

namespace Json

/-- A text on a line of its own. -/
def lineOf (t : List Char) : List Char := t ++ ['\n']

/-- The values of the lines; none, if one of them is no JSON or the last is not ended. -/
def readLines (s : List Char) : Option (List Json) :=
  match (s.splitOn '\n').reverse with
  | [] :: ls => ls.reverse.mapM read
  | _ => none

theorem splitOn_lines {ts : List (List Char)} (h : ∀ t ∈ ts, '\n' ∉ t) :
    (ts.flatMap lineOf).splitOn '\n' = ts ++ [[]] := by
  induction ts with
  | nil => rfl
  | cons t ts ih =>
    rw [List.forall_mem_cons] at h
    rw [List.flatMap_cons, lineOf, List.append_assoc, List.singleton_append,
      List.splitOn_append_cons_self_of_not_mem h.1, ih h.2, List.cons_append]

/-- **What is written line by line is read line by line.** -/
theorem readLines_lines {ts : List (List Char)} (h : ∀ t ∈ ts, '\n' ∉ t) :
    readLines (ts.flatMap lineOf) = ts.mapM read := by
  rw [readLines, splitOn_lines h, List.reverse_append, List.reverse_singleton,
    List.singleton_append]
  show ts.reverse.reverse.mapM read = ts.mapM read
  rw [List.reverse_reverse]

end Json
