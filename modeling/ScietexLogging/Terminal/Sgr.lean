import Mathlib.Data.List.Basic

/-!
# Terminal — SGR sequences

A text for a terminal is read into characters and SGR sequences, `ESC [ parameters m`;
an escape that begins no such sequence is a character like any other.

* `stripSgr` — the text without its SGR sequences;
* `isOpen`   — whether a style is left on;
* `Reads`    — a text that is read by itself, whatever comes after it: how the reading of
               a text is put together from its parts.
-/

namespace Terminal

def esc : Char := '\x1b'

inductive Token where
  | char (c : Char)
  | sgr (parameters : List Char)
  deriving DecidableEq, Repr

def isParameter (c : Char) : Bool := c.isDigit || c = ';'

/-- With what was read of a sequence since its escape. -/
def scan : Option (List Char) → List Char → List Token
  | none, [] => []
  | some p, [] => p.map .char
  | none, c :: cs => if c = esc then scan (some [c]) cs else .char c :: scan none cs
  | some p, c :: cs =>
    if (p = [esc] ∧ c = '[') ∨ (p ≠ [esc] ∧ isParameter c = true) then scan (some (p ++ [c])) cs
    else if p ≠ [esc] ∧ c = 'm' then .sgr (p.drop 2) :: scan none cs
    else p.map .char ++ if c = esc then scan (some [c]) cs else .char c :: scan none cs

def tokens (s : List Char) : List Token := scan none s

def Token.visible : Token → Option Char
  | .char c => some c
  | .sgr _ => none

def visible (ts : List Token) : List Char := ts.filterMap Token.visible

/-- Every SGR sequence deleted. -/
def stripSgr (s : List Char) : List Char := visible (tokens s)

/-- A reset ends every style, and any other sequence begins one. -/
def Token.style (on : Bool) : Token → Bool
  | .char _ => on
  | .sgr parameters => !(parameters = [] || parameters = ['0'])

/-- A style is on at the end. -/
def isOpen (s : List Char) : Bool := (tokens s).foldl Token.style false

-- ---------------------------------------------------------------------------
-- Texts that are read by themselves
-- ---------------------------------------------------------------------------

def Reads (s : List Char) (ts : List Token) : Prop :=
  ∀ rest, scan none (s ++ rest) = ts ++ scan none rest

theorem Reads.nil : Reads [] [] := fun _ => rfl

theorem Reads.append {s t : List Char} {ts us : List Token} (hs : Reads s ts) (ht : Reads t us) :
    Reads (s ++ t) (ts ++ us) := by
  intro rest
  rw [List.append_assoc, hs, ht, List.append_assoc]

theorem Reads.tokens {s : List Char} {ts : List Token} (h : Reads s ts) : tokens s = ts := by
  have := h []
  rwa [List.append_nil, show scan none [] = [] from rfl, List.append_nil] at this

/-- Text without an escape. -/
theorem Reads.text {s : List Char} (h : esc ∉ s) : Reads s (s.map .char) := by
  intro rest
  induction s with
  | nil => rfl
  | cons c cs ih =>
    rw [List.mem_cons, not_or] at h
    rw [List.cons_append, scan, if_neg fun heq => h.1 heq.symm, ih h.2]
    rfl

theorem scan_parameters {p q : List Char} (hq : ∀ c ∈ q, isParameter c = true) (rest : List Char) :
    scan (some (esc :: '[' :: p)) (q ++ 'm' :: rest) = .sgr (p ++ q) :: scan none rest := by
  induction q generalizing p with
  | nil =>
    have hne : esc :: '[' :: p ≠ [esc] := by simp
    rw [List.nil_append, scan, if_neg, if_pos ⟨hne, rfl⟩, List.append_nil]
    · rfl
    · rintro (⟨heq, -⟩ | ⟨-, hm⟩)
      · exact hne heq
      · exact absurd hm (by decide)
  | cons c cs ih =>
    have hne : esc :: '[' :: p ≠ [esc] := by simp
    rw [List.cons_append, scan, if_pos (.inr ⟨hne, hq c (List.mem_cons_self ..)⟩)]
    have := ih (p := p ++ [c]) fun d hd => hq d (List.mem_cons_of_mem _ hd)
    rw [List.append_assoc] at this
    exact this

/-- `ESC [ parameters m` -/
def sgrSequence (parameters : List Char) : List Char := esc :: '[' :: (parameters ++ ['m'])

theorem Reads.sgrSequence {p : List Char} (h : ∀ c ∈ p, isParameter c = true) :
    Reads (sgrSequence p) [.sgr p] := by
  intro rest
  have hparam := scan_parameters (p := []) h rest
  rw [List.nil_append] at hparam
  rw [Terminal.sgrSequence, List.cons_append, List.cons_append, List.append_assoc, scan, if_pos rfl,
    scan, if_pos (.inl ⟨rfl, rfl⟩)]
  exact hparam

theorem visible_append (ts us : List Token) : visible (ts ++ us) = visible ts ++ visible us :=
  List.filterMap_append

theorem visible_chars (s : List Char) : visible (s.map .char) = s := by
  induction s with
  | nil => rfl
  | cons c cs ih =>
    show c :: visible (cs.map .char) = _
    rw [ih]

theorem style_chars (s : List Char) (on : Bool) : (s.map Token.char).foldl Token.style on = on := by
  induction s with
  | nil => rfl
  | cons c cs ih => exact ih

end Terminal
