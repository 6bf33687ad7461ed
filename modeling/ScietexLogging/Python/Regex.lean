import ScietexLogging.Python.Numerals

/-!
# Python — regular expressions with groups

A pattern is run by backtracking: `run` gives the places where it can end, in the order
in which they are tried, and `re.match` takes the first. Repetitions are of single
characters, and greedy.

* `run_language` — what is consumed is a text of the pattern's language;
* `run_groups`   — a group that was set holds a text of its own pattern.
-/

namespace Python

inductive Pattern where
  | one (p : Char → Bool)
  | rep (p : Char → Bool) (least : Nat) (most : Option Nat)
  | seq (a b : Pattern)
  | alt (a b : Pattern)
  | group (i : Nat) (a : Pattern)
  | atStart
  | atEnd

/-- Where a match has come to: what is behind it, the last character first, what is
before it, and the groups so far. -/
structure Place where
  behind : Str
  ahead : Str
  groups : Nat → Option Str

namespace Place

def advance (x : Place) (k : Nat) : Place :=
  { x with behind := (x.ahead.take k).reverse ++ x.behind, ahead := x.ahead.drop k }

/-- What was consumed since `x`. -/
def since (x y : Place) : Str := (y.behind.take (y.behind.length - x.behind.length)).reverse

def capture (x : Place) (i : Nat) (y : Place) : Place :=
  { y with groups := Function.update y.groups i (some (x.since y)) }

end Place

namespace Pattern

/-- The numbers of characters a repetition may take, the most first. -/
def counts (p : Char → Bool) (least : Nat) (most : Option Nat) (s : Str) : List Nat :=
  let longest := (s.takeWhile p).length
  ((List.range (most.elim longest (min longest) + 1)).filter (least ≤ ·)).reverse

def run : Pattern → Place → List Place
  | one p, x =>
    match x.ahead with
    | c :: _ => if p c then [x.advance 1] else []
    | [] => []
  | rep p least most, x => (counts p least most x.ahead).map x.advance
  | seq a b, x => (run a x).flatMap (run b)
  | alt a b, x => run a x ++ run b x
  | group i a, x => (run a x).map (x.capture i)
  | atStart, x => if x.behind = [] then [x] else []
  -- before a final newline, too
  | atEnd, x => if x.ahead = [] ∨ x.ahead = ['\n'] then [x] else []

/-- `re.match` -/
def find (a : Pattern) (s : Str) : Option Place := (run a ⟨[], s, fun _ => none⟩).head?

/-- A text, character by character. -/
def literal : Str → Pattern
  | [] => rep (fun _ => false) 0 none
  | [c] => one (· = c)
  | c :: cs => seq (one (· = c)) (literal cs)

-- ---------------------------------------------------------------------------
-- The language of a pattern
-- ---------------------------------------------------------------------------

def Language : Pattern → Str → Prop
  | one p, w => ∃ c, w = [c] ∧ p c = true
  | rep p least most, w => (∀ c ∈ w, p c = true) ∧ least ≤ w.length ∧ ∀ m ∈ most, w.length ≤ m
  | seq a b, w => ∃ u v, w = u ++ v ∧ Language a u ∧ Language b v
  | alt a b, w => Language a w ∨ Language b w
  | group _ a, w => Language a w
  | atStart, w => w = []
  | atEnd, w => w = []

/-- The groups of a pattern, with their own patterns. -/
def members : Pattern → List (Nat × Pattern)
  | seq a b => members a ++ members b
  | alt a b => members a ++ members b
  | group i a => (i, a) :: members a
  | _ => []

/-- `w` was consumed between the two places. -/
def Consumes (x : Place) (w : Str) (y : Place) : Prop :=
  x.ahead = w ++ y.ahead ∧ y.behind = w.reverse ++ x.behind

theorem Consumes.nil (x : Place) : Consumes x [] x := ⟨rfl, rfl⟩

theorem Consumes.append {x y z : Place} {u v : Str} (h : Consumes x u y) (h' : Consumes y v z) :
    Consumes x (u ++ v) z := by
  refine ⟨?_, ?_⟩
  · rw [h.1, h'.1, List.append_assoc]
  · rw [h'.2, h.2, List.reverse_append, List.append_assoc]

theorem consumes_advance (x : Place) (k : Nat) : Consumes x (x.ahead.take k) (x.advance k) :=
  ⟨(List.take_append_drop k x.ahead).symm, rfl⟩

theorem Consumes.since {x y : Place} {w : Str} (h : Consumes x w y) : x.since y = w := by
  rw [Place.since, h.2, List.length_append, Nat.add_sub_cancel, List.take_left, List.reverse_reverse]

theorem mem_counts {p : Char → Bool} {least : Nat} {most : Option Nat} {s : Str} {k : Nat}
    (h : k ∈ counts p least most s) :
    least ≤ k ∧ k ≤ (s.takeWhile p).length ∧ ∀ m ∈ most, k ≤ m := by
  simp only [counts, List.mem_reverse, List.mem_filter, List.mem_range, decide_eq_true_eq] at h
  obtain ⟨hlt, hle⟩ := h
  cases most with
  | none => exact ⟨hle, Nat.lt_succ_iff.mp hlt, fun _ hm => absurd hm (by simp)⟩
  | some m =>
    have hmin : k ≤ min (s.takeWhile p).length m := Nat.lt_succ_iff.mp hlt
    refine ⟨hle, Nat.le_trans hmin (Nat.min_le_left ..), fun m' hm' => ?_⟩
    rw [← Option.some.inj hm']
    exact Nat.le_trans hmin (Nat.min_le_right ..)

theorem run_language {a : Pattern} {x y : Place} (h : y ∈ run a x) :
    ∃ w, Consumes x w y ∧ Language a w := by
  induction a generalizing x y with
  | one p =>
    unfold run at h
    cases hx : x.ahead with
    | nil => simp [hx] at h
    | cons c cs =>
      simp only [hx] at h
      split at h
      · rename_i hc
        obtain rfl := List.mem_singleton.mp h
        refine ⟨[c], ?_, c, rfl, hc⟩
        have := consumes_advance x 1
        rwa [hx] at this
      · exact absurd h (by simp)
  | rep p least most =>
    obtain ⟨k, hk, rfl⟩ := List.mem_map.mp h
    obtain ⟨hleast, hlongest, hmost⟩ := mem_counts hk
    have hlen : (x.ahead.take k).length = k := by
      rw [List.length_take]
      exact Nat.min_eq_left (Nat.le_trans hlongest (List.takeWhile_prefix p).length_le)
    refine ⟨_, consumes_advance x k, fun c hc => ?_, by rw [hlen]; exact hleast, fun m hm => ?_⟩
    · have hpre : x.ahead.take k <+: x.ahead.takeWhile p :=
        List.prefix_of_prefix_length_le (List.take_prefix ..) (List.takeWhile_prefix p)
          (by rw [hlen]; exact hlongest)
      exact List.mem_takeWhile_imp (hpre.subset hc)
    · rw [hlen]
      exact hmost m hm
  | seq a b iha ihb =>
    obtain ⟨z, hz, hy⟩ := List.mem_flatMap.mp h
    obtain ⟨u, hu, hua⟩ := iha hz
    obtain ⟨v, hv, hvb⟩ := ihb hy
    exact ⟨u ++ v, hu.append hv, u, v, rfl, hua, hvb⟩
  | alt a b iha ihb =>
    rcases List.mem_append.mp h with h | h
    · obtain ⟨w, hw, hwa⟩ := iha h
      exact ⟨w, hw, .inl hwa⟩
    · obtain ⟨w, hw, hwb⟩ := ihb h
      exact ⟨w, hw, .inr hwb⟩
  | group i a ih =>
    obtain ⟨z, hz, rfl⟩ := List.mem_map.mp h
    obtain ⟨w, hw, hwa⟩ := ih hz
    exact ⟨w, hw, hwa⟩
  | atStart =>
    unfold run at h
    split at h
    · obtain rfl := List.mem_singleton.mp h
      exact ⟨[], .nil y, rfl⟩
    · exact absurd h (by simp)
  | atEnd =>
    unfold run at h
    split at h
    · obtain rfl := List.mem_singleton.mp h
      exact ⟨[], .nil y, rfl⟩
    · exact absurd h (by simp)

theorem run_groups {a : Pattern} {x y : Place} (h : y ∈ run a x) (i : Nat) :
    y.groups i = x.groups i ∨ ∃ b w, (i, b) ∈ members a ∧ y.groups i = some w ∧ Language b w := by
  induction a generalizing x y with
  | one p =>
    unfold run at h
    cases hx : x.ahead with
    | nil => simp [hx] at h
    | cons c cs =>
      simp only [hx] at h
      split at h
      · obtain rfl := List.mem_singleton.mp h
        exact .inl rfl
      · exact absurd h (by simp)
  | rep p least most =>
    obtain ⟨k, -, rfl⟩ := List.mem_map.mp h
    exact .inl rfl
  | seq a b iha ihb =>
    obtain ⟨z, hz, hy⟩ := List.mem_flatMap.mp h
    rcases ihb hy with hsame | ⟨c, w, hc, hw⟩
    · rcases iha hz with hsame' | ⟨c, w, hc, hw, hl⟩
      · exact .inl (hsame.trans hsame')
      · exact .inr ⟨c, w, List.mem_append_left _ hc, hsame.trans hw, hl⟩
    · exact .inr ⟨c, w, List.mem_append_right _ hc, hw⟩
  | alt a b iha ihb =>
    rcases List.mem_append.mp h with h | h
    · rcases iha h with hsame | ⟨c, w, hc, hw⟩
      · exact .inl hsame
      · exact .inr ⟨c, w, List.mem_append_left _ hc, hw⟩
    · rcases ihb h with hsame | ⟨c, w, hc, hw⟩
      · exact .inl hsame
      · exact .inr ⟨c, w, List.mem_append_right _ hc, hw⟩
  | group j a ih =>
    obtain ⟨z, hz, rfl⟩ := List.mem_map.mp h
    by_cases hij : i = j
    · subst hij
      obtain ⟨w, hw, hl⟩ := run_language hz
      refine .inr ⟨a, w, List.mem_cons_self .., ?_, hl⟩
      show Function.update z.groups i (some (x.since z)) i = _
      rw [Function.update_self, hw.since]
    · have hsame : (x.capture j z).groups i = z.groups i := Function.update_of_ne hij ..
      rw [hsame]
      rcases ih hz with hold | ⟨c, w, hc, hw⟩
      · exact .inl hold
      · exact .inr ⟨c, w, List.mem_cons_of_mem _ hc, hw⟩
  | atStart =>
    unfold run at h
    split at h
    · obtain rfl := List.mem_singleton.mp h
      exact .inl rfl
    · exact absurd h (by simp)
  | atEnd =>
    unfold run at h
    split at h
    · obtain rfl := List.mem_singleton.mp h
      exact .inl rfl
    · exact absurd h (by simp)

/-- A group that `re.match` has set holds a text of its pattern. -/
theorem find_group {a : Pattern} {s w : Str} {y : Place} {i : Nat} (h : find a s = some y)
    (hw : y.groups i = some w) : ∃ b, (i, b) ∈ members a ∧ Language b w := by
  rcases run_groups (List.mem_of_mem_head? h) i with hsame | ⟨b, w', hb, hw', hl⟩
  · exact absurd (hw.symm.trans hsame) (by simp)
  · obtain rfl := Option.some.inj (hw.symm.trans hw')
    exact ⟨b, hb, hl⟩

end Pattern

end Python
