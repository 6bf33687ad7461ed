import Mathlib.Algebra.Order.Floor.Defs
import Mathlib.Data.Rat.Floor
import ScietexLogging.Python.Numerals

/-!
# Python — floats

A float is exact where it is finite, and its comparisons are those of IEEE 754: none
holds of a nan. `min` and `max` of two give the first unless the second is beyond it.

* `float`          — `float(text)`;
* `float_of_plain` — of a text of digits, dots and spaces it makes a number that is not
                     negative, or nothing.
-/

namespace Python

inductive Number where
  | finite (q : ℚ)
  | infinite (negative : Bool)
  | nan
  deriving DecidableEq

namespace Number

def neg : Number → Number
  | finite q => finite (-q)
  | infinite b => infinite (!b)
  | nan => nan

/-- Divided by a positive number. -/
def divBy (x : Number) (d : ℚ) : Number :=
  match x with
  | finite q => finite (q / d)
  | infinite b => infinite b
  | nan => nan

/-- `x < q` -/
def lt (x : Number) (q : ℚ) : Bool :=
  match x with
  | finite p => p < q
  | infinite negative => negative
  | nan => false

/-- `x > q` -/
def gt (x : Number) (q : ℚ) : Bool :=
  match x with
  | finite p => q < p
  | infinite negative => !negative
  | nan => false

/-- `x <= q` -/
def le (x : Number) (q : ℚ) : Bool :=
  match x with
  | finite p => p ≤ q
  | infinite negative => negative
  | nan => false

/-- `x >= q` -/
def ge (x : Number) (q : ℚ) : Bool :=
  match x with
  | finite p => q ≤ p
  | infinite negative => !negative
  | nan => false

/-- `max(lo, min(hi, x))` -/
def clamp (x : Number) (lo hi : ℚ) : Number :=
  let y := if x.lt hi then x else finite hi
  if y.gt lo then y else finite lo

end Number

/-- `int(q)`: towards zero. -/
def truncate (q : ℚ) : Int := if 0 ≤ q then ⌊q⌋ else ⌈q⌉

-- ---------------------------------------------------------------------------
-- float(text)
-- ---------------------------------------------------------------------------

/-- Without its underscores, each of which stands between two digits. -/
def joinedFrom (afterDigit : Bool) : Str → Option Str
  | [] => some []
  | c :: cs =>
    if c = '_' then
      if afterDigit && cs.head?.any Char.isDigit then joinedFrom false cs else none
    else (joinedFrom c.isDigit cs).map (c :: ·)

def digits (cs : Str) : Option Nat :=
  if cs ≠ [] ∧ cs.all Char.isDigit then some (Nat.ofDigitChars 10 cs 0) else none

def exponent : Str → Option Int
  | [] => some 0
  | e :: cs =>
    if e = 'e' ∨ e = 'E' then
      match cs with
      | '+' :: ds => (digits ds).map Int.ofNat
      | '-' :: ds => (digits ds).map fun n => -(n : Int)
      | ds => (digits ds).map Int.ofNat
    else none

/-- What follows the whole part: a fraction, if there is one, and the rest. -/
def fraction : Str → Str × Str
  | '.' :: cs => cs.span Char.isDigit
  | cs => ([], cs)

def decimal (cs : Str) : Option ℚ :=
  let (whole, cs) := cs.span Char.isDigit
  let (part, cs) := fraction cs
  if whole = [] ∧ part = [] then none
  else (exponent cs).map fun e : Int =>
    (Nat.ofDigitChars 10 (whole ++ part) 0 : ℚ) * (10 : ℚ) ^ (e - part.length)

def unsignedFloat (cs : Str) : Option Number :=
  let lower := cs.map Char.toLower
  if lower = "inf".toList ∨ lower = "infinity".toList then some (.infinite false)
  else if lower = "nan".toList then some .nan
  else (decimal cs).map .finite

def signedFloat : Str → Option Number
  | '+' :: cs => unsignedFloat cs
  | '-' :: cs => (unsignedFloat cs).map Number.neg
  | cs => unsignedFloat cs

/-- `float(text)`; none is its `ValueError`. -/
def float (text : Str) : Option Number := (joinedFrom false (numeral text)).bind signedFloat

-- ---------------------------------------------------------------------------
-- Texts of digits, dots and spaces
-- ---------------------------------------------------------------------------

/-- A digit of any script, a dot, a percent sign or a space. -/
def IsPlain (c : Char) : Prop :=
  (decimalValue c).isSome = true ∨ c = '.' ∨ c = '%' ∨ isSpace c = true

/-- What a plain character is read as. -/
def IsPlainAscii (c : Char) : Prop := c.isDigit = true ∨ c = '.' ∨ c = '%' ∨ c.toNat ≤ 0x20

theorem decimalValue_lt {c : Char} {d : Nat} (h : decimalValue c = some d) :
    d < 10 ∧ (c.toNat < 128 → c.isDigit = true) := by
  obtain ⟨z, hz, rfl⟩ := Option.map_eq_some_iff.mp h
  have hin := List.find?_some hz
  simp only [decide_eq_true_eq] at hin
  refine ⟨by omega, fun hlt => ?_⟩
  -- the only zero in ASCII is `0`
  have hmem := List.mem_of_find?_eq_some hz
  have hzero : z = 0x30 := by
    have hall : ∀ z ∈ zeros, z < 128 → z = 0x30 := by decide
    exact hall z hmem (by omega)
  subst hzero
  simp only [Char.isDigit, ge_iff_le, Bool.and_eq_true, decide_eq_true_eq]
  exact ⟨hin.1, by show c.toNat ≤ 57; omega⟩

theorem isDigit_digitChar {d : Nat} (h : d < 10) : (Nat.digitChar d).isDigit = true := by
  have hall : ∀ d < 10, (Nat.digitChar d).isDigit = true := by decide
  exact hall d h

theorem toAscii_plain {c : Char} (h : IsPlain c) : IsPlainAscii (toAscii c) := by
  unfold toAscii
  split
  · rename_i hlt
    rcases h with h | h | h | h
    · obtain ⟨d, hd⟩ := Option.isSome_iff_exists.mp h
      exact .inl ((decimalValue_lt hd).2 hlt)
    · exact .inr (.inl h)
    · exact .inr (.inr (.inl h))
    · simp only [isSpace, decide_eq_true_eq] at h
      exact .inr (.inr (.inr (by omega)))
  · rename_i hge
    split
    · exact .inr (.inr (.inr (by decide)))
    · rename_i hspace
      rcases h with h | rfl | rfl | h
      · obtain ⟨d, hd⟩ := Option.isSome_iff_exists.mp h
        rw [hd]
        exact .inl (isDigit_digitChar (decimalValue_lt hd).1)
      · exact absurd (by decide) hge
      · exact absurd (by decide) hge
      · exact absurd h hspace

/-- Stripping only drops. -/
theorem mem_numeral {text : Str} {c : Char} (h : c ∈ numeral text) : ∃ d ∈ text, toAscii d = c := by
  have hmem : c ∈ text.map toAscii :=
    (List.dropWhile_sublist _).subset ((List.rdropWhile_prefix _ _).subset h)
  exact List.mem_map.mp hmem

theorem numeral_plain {text : Str} (h : ∀ c ∈ text, IsPlain c) : ∀ c ∈ numeral text, IsPlainAscii c := by
  intro c hc
  obtain ⟨d, hd, rfl⟩ := mem_numeral hc
  exact toAscii_plain (h d hd)

instance (c : Char) : Decidable (IsPlainAscii c) := by
  unfold IsPlainAscii
  infer_instance

theorem joinedFrom_plain {cs : Str} (h : ∀ c ∈ cs, IsPlainAscii c) (b : Bool) :
    joinedFrom b cs = some cs := by
  induction cs generalizing b with
  | nil => rfl
  | cons c cs ih =>
    have hc : c ≠ '_' := fun heq => absurd (heq ▸ h c (List.mem_cons_self ..)) (by decide)
    rw [joinedFrom, if_neg hc, ih fun d hd => h d (List.mem_cons_of_mem _ hd)]
    rfl

theorem IsPlainAscii.toNat_le {c : Char} (h : IsPlainAscii c) : c.toNat ≤ 57 := by
  rcases h with h | rfl | rfl | h
  · simp only [Char.isDigit, Bool.and_eq_true, decide_eq_true_eq] at h
    exact h.2
  · decide
  · decide
  · omega

/-- No capital is plain, nor is a letter of `inf` or `nan`. -/
theorem toLower_plain {c : Char} (h : IsPlainAscii c) : c.toLower = c ∧ c ≠ 'i' ∧ c ≠ 'n' := by
  refine ⟨?_, fun heq => absurd (heq ▸ h) (by decide), fun heq => absurd (heq ▸ h) (by decide)⟩
  refine dif_neg ?_
  rintro ⟨hle, -⟩
  have hle' : 65 ≤ c.toNat := hle
  have := h.toNat_le
  omega

theorem unsignedFloat_plain {cs : Str} (h : ∀ c ∈ cs, IsPlainAscii c) :
    unsignedFloat cs = (decimal cs).map .finite := by
  have hlower : cs.map Char.toLower = cs :=
    (List.map_congr_left fun c hc => (toLower_plain (h c hc)).1).trans (List.map_id cs)
  have hhead : ∀ c ds, (c = 'i' ∨ c = 'n') → cs ≠ c :: ds := by
    rintro c ds hc rfl
    have := (toLower_plain (h c (List.mem_cons_self ..))).2
    exact hc.elim this.1 this.2
  rw [unsignedFloat, hlower, if_neg, if_neg]
  · exact hhead _ _ (.inr rfl)
  · exact fun h => h.elim (hhead _ _ (.inl rfl)) (hhead _ _ (.inl rfl))

theorem signedFloat_plain {cs : Str} (h : ∀ c ∈ cs, IsPlainAscii c) :
    signedFloat cs = (decimal cs).map .finite := by
  rw [← unsignedFloat_plain h]
  unfold signedFloat
  split
  · exact absurd (h _ (List.mem_cons_self ..)) (by decide)
  · exact absurd (h _ (List.mem_cons_self ..)) (by decide)
  · rfl

theorem decimal_nonneg {cs : Str} {q : ℚ} (h : decimal cs = some q) : 0 ≤ q := by
  unfold decimal at h
  simp only at h
  split at h
  · exact absurd h (by simp)
  · obtain ⟨e, -, rfl⟩ := Option.map_eq_some_iff.mp h
    exact mul_nonneg (Nat.cast_nonneg _) (zpow_nonneg (by decide) _)

/-- **A plain text** is no number, or a number that is not negative. -/
theorem float_of_plain {text : Str} (h : ∀ c ∈ text, IsPlain c) {x : Number}
    (hx : float text = some x) : ∃ q, x = .finite q ∧ 0 ≤ q := by
  have hplain := numeral_plain h
  rw [float, joinedFrom_plain hplain, Option.bind_some, signedFloat_plain hplain] at hx
  obtain ⟨q, hq, rfl⟩ := Option.map_eq_some_iff.mp hx
  exact ⟨q, rfl, decimal_nonneg hq⟩

end Python
