import ScietexLogging.Terminal.Sgr

/-!
# Terminal — what is shown

Every character of a text is shown in the style that the SGR sequences before it have left
on: a reset ends all of it, a bold or dim face is added, a colour replaces the one of its
layer. Parameters for anything else change nothing here.

* `display` — the characters with their styles;
* `Turns`   — sequences that show nothing, and the style they leave on;
* `Shows`   — a text that begins and ends without a style, and the characters it shows: how
              a display is put together from its parts.
-/

namespace Terminal

/-- Red, green and blue. -/
abbrev Rgb := Nat × Nat × Nat

structure Style where
  bold : Bool := false
  dim : Bool := false
  fore : Option Rgb := none
  back : Option Rgb := none
  deriving DecidableEq, Repr

/-- The parameters of a sequence; one that is left out is 0. -/
def numbers (parameters : List Char) : List Nat :=
  (parameters.splitOn ';').map fun digits => Nat.ofDigitChars 10 digits 0

def Style.apply : Style → List Nat → Style
  | s, [] => s
  | s, 38 :: 2 :: r :: g :: b :: ps => { s with fore := some (r, g, b) }.apply ps
  | s, 48 :: 2 :: r :: g :: b :: ps => { s with back := some (r, g, b) }.apply ps
  | _, 0 :: ps => Style.apply {} ps
  | s, 1 :: ps => { s with bold := true }.apply ps
  | s, 2 :: ps => { s with dim := true }.apply ps
  | s, _ :: ps => s.apply ps

/-- The style that a token leaves on. -/
def Token.after (s : Style) : Token → Style
  | .char _ => s
  | .sgr parameters => s.apply (numbers parameters)

/-- The characters, each in its style. -/
def cells : Style → List Token → List (Char × Style)
  | _, [] => []
  | s, .char c :: ts => (c, s) :: cells s ts
  | s, .sgr parameters :: ts => cells (s.apply (numbers parameters)) ts

def display (s : List Char) : List (Char × Style) := cells {} (tokens s)

def unstyled (text : List Char) : List (Char × Style) := text.map (·, {})

-- ---------------------------------------------------------------------------
-- Parts of a text
-- ---------------------------------------------------------------------------

theorem cells_append (s : Style) (ts us : List Token) :
    cells s (ts ++ us) = cells s ts ++ cells (ts.foldl Token.after s) us := by
  induction ts generalizing s with
  | nil => rfl
  | cons t ts ih =>
    cases t with
    | char c => exact congrArg (List.cons (c, s)) (ih s)
    | sgr p => exact ih (s.apply (numbers p))

theorem cells_chars (s : Style) (text : List Char) :
    cells s (text.map .char) = text.map (·, s) := by
  induction text with
  | nil => rfl
  | cons c cs ih => exact congrArg (List.cons (c, s)) ih

theorem after_chars (s : Style) (text : List Char) : (text.map Token.char).foldl Token.after s = s := by
  induction text with
  | nil => rfl
  | cons c cs ih => exact ih

/-- The characters of a text that is read by itself, with no style before it or behind it. -/
def Shows (s : List Char) (shown : List (Char × Style)) : Prop :=
  ∃ ts, Reads s ts ∧ cells {} ts = shown ∧ ts.foldl Token.after {} = {}

theorem Shows.nil : Shows [] [] := ⟨[], .nil, rfl, rfl⟩

theorem Shows.append {s t : List Char} {shown shown' : List (Char × Style)} (hs : Shows s shown)
    (ht : Shows t shown') : Shows (s ++ t) (shown ++ shown') := by
  obtain ⟨ts, hts, hshown, hafter⟩ := hs
  obtain ⟨us, hus, hshown', hafter'⟩ := ht
  refine ⟨ts ++ us, hts.append hus, ?_, ?_⟩
  · rw [cells_append, hafter, hshown, hshown']
  · rw [List.foldl_append, hafter, hafter']

theorem Shows.flatMap {α : Type} {ps : List α} {text : α → List Char} {shown : α → List (Char × Style)}
    (h : ∀ p ∈ ps, Shows (text p) (shown p)) : Shows (ps.flatMap text) (ps.flatMap shown) := by
  induction ps with
  | nil => exact .nil
  | cons p ps ih =>
    rw [List.flatMap_cons, List.flatMap_cons]
    exact (h p List.mem_cons_self).append (ih fun q hq => h q (List.mem_cons_of_mem p hq))

theorem Shows.display {s : List Char} {shown : List (Char × Style)} (h : Shows s shown) :
    display s = shown := by
  obtain ⟨ts, hreads, hshown, -⟩ := h
  rw [Terminal.display, hreads.tokens, hshown]

/-- Text without an escape is shown as it is. -/
theorem Shows.text {s : List Char} (h : esc ∉ s) : Shows s (unstyled s) :=
  ⟨_, .text h, cells_chars {} s, after_chars {} s⟩

-- ---------------------------------------------------------------------------
-- Sequences
-- ---------------------------------------------------------------------------

/-- Sequences that show nothing, and the style that they leave on. -/
def Turns (s : List Char) (before after : Style) : Prop :=
  ∃ ts, Reads s ts ∧ cells before ts = [] ∧ ts.foldl Token.after before = after

theorem Turns.nil (s : Style) : Turns [] s s := ⟨[], .nil, rfl, rfl⟩

theorem Turns.of_nil {before after : Style} (h : Turns [] before after) : after = before := by
  obtain ⟨ts, hreads, -, hafter⟩ := h
  have hts : ts = [] := hreads.tokens.symm
  rw [← hafter, hts]
  rfl

theorem Turns.append {s t : List Char} {a b c : Style} (hs : Turns s a b) (ht : Turns t b c) :
    Turns (s ++ t) a c := by
  obtain ⟨ts, hts, hnone, hafter⟩ := hs
  obtain ⟨us, hus, hnone', hafter'⟩ := ht
  refine ⟨ts ++ us, hts.append hus, ?_, ?_⟩
  · rw [cells_append, hafter, hnone, hnone']
    rfl
  · rw [List.foldl_append, hafter, hafter']

theorem Turns.sgr {p : List Char} (h : ∀ c ∈ p, isParameter c = true) (s : Style) :
    Turns (sgrSequence p) s (s.apply (numbers p)) := ⟨[.sgr p], .sgrSequence h, rfl, rfl⟩

/-- Text between sequences and a reset is shown in the style of the sequences. -/
theorem Turns.shows {before text : List Char} {s : Style} (h : Turns before {} s) (htext : esc ∉ text) :
    Shows (before ++ text ++ sgrSequence ['0']) (text.map (·, s)) := by
  obtain ⟨ts, hreads, hnone, hafter⟩ := h
  refine ⟨ts ++ text.map .char ++ [.sgr ['0']],
    (hreads.append (.text htext)).append (.sgrSequence (List.all_eq_true.mp rfl)), ?_, ?_⟩
  · rw [cells_append, cells_append, hnone, hafter, cells_chars]
    exact List.append_nil _
  · rw [List.foldl_append]
    rfl

-- ---------------------------------------------------------------------------
-- Parameters
-- ---------------------------------------------------------------------------

/-- Numbers with semicolons between them. -/
def joined (ns : List Nat) : List Char := List.intercalate [';'] (ns.map (Nat.toDigits 10))

theorem numbers_joined {ns : List Nat} (h : ns ≠ []) : numbers (joined ns) = ns := by
  have hsplit : (joined ns).splitOn ';' = ns.map (Nat.toDigits 10) := by
    refine List.splitOn_intercalate _ (fun digits hmem hc => ?_) (by simpa using h)
    obtain ⟨n, -, rfl⟩ := List.mem_map.mp hmem
    have hdigit := Nat.isDigit_of_mem_toDigits (by decide) (by decide) hc
    exact absurd hdigit (by decide)
  rw [numbers, hsplit, List.map_map]
  refine (List.map_congr_left fun n _ => ?_).trans (List.map_id ns)
  exact Nat.ofDigitChars_ten_toDigits

end Terminal
