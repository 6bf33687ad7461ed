import Mathlib.Algebra.Order.Ring.Rat
import Mathlib.Data.List.DropRight

/-!
# Python — the numerals `int` and `float` read

A text is a list of characters. Both constructors first take every decimal digit of
Unicode to its ASCII digit and every other space to a blank, then drop the blanks at
both ends.

* `int16`      — `int(text, 16)`;
* `int16_pair` — the texts of two characters that `int16` reads: besides two digits,
                 one digit with a sign or a blank before it, or a blank after it.
-/

namespace Python

abbrev Str := List Char

/-- A text that is there and not empty. -/
def truthy (o : Option Str) : Option Str := o.filter (· ≠ [])

-- ---------------------------------------------------------------------------
-- Characters
-- ---------------------------------------------------------------------------

/-- The zeros among the decimal digits (category Nd, in Python 3.11); nine digits follow each. -/
def zeros : List Nat :=
  [0x30, 0x660, 0x6f0, 0x7c0, 0x966, 0x9e6, 0xa66, 0xae6, 0xb66, 0xbe6, 0xc66, 0xce6, 0xd66,
   0xde6, 0xe50, 0xed0, 0xf20, 0x1040, 0x1090, 0x17e0, 0x1810, 0x1946, 0x19d0, 0x1a80, 0x1a90,
   0x1b50, 0x1bb0, 0x1c40, 0x1c50, 0xa620, 0xa8d0, 0xa900, 0xa9d0, 0xa9f0, 0xaa50, 0xabf0,
   0xff10, 0x104a0, 0x10d30, 0x11066, 0x110f0, 0x11136, 0x111d0, 0x112f0, 0x11450, 0x114d0,
   0x11650, 0x116c0, 0x11730, 0x118e0, 0x11950, 0x11c50, 0x11d50, 0x11da0, 0x16a60, 0x16ac0,
   0x16b50, 0x1d7ce, 0x1d7d8, 0x1d7e2, 0x1d7ec, 0x1d7f6, 0x1e140, 0x1e2f0, 0x1e950, 0x1fbf0]

/-- The value of a decimal digit of any script. -/
def decimalValue (c : Char) : Option Nat :=
  (zeros.find? fun z => z ≤ c.toNat ∧ c.toNat < z + 10).map (c.toNat - ·)

/-- `str.isspace` -/
def isSpace (c : Char) : Bool :=
  (0x9 ≤ c.toNat ∧ c.toNat ≤ 0xd) ∨ (0x1c ≤ c.toNat ∧ c.toNat ≤ 0x20) ∨ c.toNat = 0x85 ∨
    c.toNat = 0xa0 ∨ c.toNat = 0x1680 ∨ (0x2000 ≤ c.toNat ∧ c.toNat ≤ 0x200a) ∨
    c.toNat = 0x2028 ∨ c.toNat = 0x2029 ∨ c.toNat = 0x202f ∨ c.toNat = 0x205f ∨ c.toNat = 0x3000

/-- What a numeral is read as; ASCII is left alone, its separators U+001C to U+001F too. -/
def toAscii (c : Char) : Char :=
  if c.toNat < 128 then c
  else if isSpace c then ' '
  else ((decimalValue c).map Nat.digitChar).getD '?'

/-- A blank of a numeral in ASCII. -/
def isBlank (c : Char) : Bool := c = ' ' ∨ (0x9 ≤ c.toNat ∧ c.toNat ≤ 0xd)

def strip (s : Str) : Str := (s.dropWhile isBlank).rdropWhile isBlank

def numeral (text : Str) : Str := strip (text.map toAscii)

/-- An ASCII hex digit. -/
def hexValue (c : Char) : Option Nat :=
  if '0' ≤ c ∧ c ≤ '9' then some (c.toNat - '0'.toNat)
  else if 'a' ≤ c ∧ c ≤ 'f' then some (c.toNat - 'a'.toNat + 10)
  else if 'A' ≤ c ∧ c ≤ 'F' then some (c.toNat - 'A'.toNat + 10)
  else none

-- ---------------------------------------------------------------------------
-- int(text, 16)
-- ---------------------------------------------------------------------------

/-- The digits after the first, with single underscores among them. -/
def hexDigitsFrom : Nat → Str → Option Nat
  | n, [] => some n
  | n, '_' :: c :: cs => (hexValue c).bind fun d => hexDigitsFrom (16 * n + d) cs
  | n, c :: cs => (hexValue c).bind fun d => hexDigitsFrom (16 * n + d) cs

def hexDigits : Str → Option Nat
  | [] => none
  | c :: cs => (hexValue c).bind fun d => hexDigitsFrom d cs

/-- `0x`, and an underscore after it. -/
def dropBase : Str → Str
  | '0' :: 'x' :: '_' :: cs => cs
  | '0' :: 'X' :: '_' :: cs => cs
  | '0' :: 'x' :: cs => cs
  | '0' :: 'X' :: cs => cs
  | cs => cs

def signedHex : Str → Option Int
  | '+' :: cs => (hexDigits (dropBase cs)).map Int.ofNat
  | '-' :: cs => (hexDigits (dropBase cs)).map fun n => -(n : Int)
  | cs => (hexDigits (dropBase cs)).map Int.ofNat

/-- `int(text, 16)`; none is its `ValueError`. -/
def int16 (text : Str) : Option Int := signedHex (numeral text)

theorem hexValue_of_blank {c : Char} (h : isBlank c = true) : hexValue c = none := by
  simp only [isBlank, decide_eq_true_eq] at h
  rcases h with rfl | ⟨h₁, h₂⟩
  · rfl
  · have hlt : ∀ d : Char, 0xd < d.toNat → ¬ d ≤ c := by
      intro d hd hle
      have : d.toNat ≤ c.toNat := hle
      omega
    rw [hexValue, if_neg (fun h => hlt _ (by decide) h.1), if_neg (fun h => hlt _ (by decide) h.1),
      if_neg (fun h => hlt _ (by decide) h.1)]

theorem hexDigits_dropBase_one (c : Char) : hexDigits (dropBase [c]) = hexValue c := by
  have hbase : dropBase [c] = [c] := by
    unfold dropBase
    split <;> simp_all
  rw [hbase, hexDigits]
  cases hexValue c <;> rfl

theorem hexDigits_dropBase_two (c d : Char) :
    hexDigits (dropBase [c, d]) =
      (hexValue c).bind fun m => (hexValue d).map fun n => 16 * m + n := by
  have hfrom : ∀ m, hexDigitsFrom m [d] = (hexValue d).map fun n => 16 * m + n := by
    intro m
    cases hd : hexValue d <;> simp [hexDigitsFrom, hd]
  by_cases hx : c = '0' ∧ (d = 'x' ∨ d = 'X')
  · obtain ⟨rfl, rfl | rfl⟩ := hx
    · rfl
    · rfl
  · have hbase : dropBase [c, d] = [c, d] := by
      unfold dropBase
      split <;> simp_all
    rw [hbase, hexDigits]
    exact congrArg _ (funext hfrom)

theorem signedHex_one (c : Char) : signedHex [c] = (hexValue c).map Int.ofNat := by
  by_cases hsign : c = '+' ∨ c = '-'
  · rcases hsign with rfl | rfl
    · rfl
    · rfl
  · have hdigits : signedHex [c] = (hexDigits (dropBase [c])).map Int.ofNat := by
      unfold signedHex
      split <;> simp_all
    rw [hdigits, hexDigits_dropBase_one]

theorem signedHex_two (c d : Char) :
    signedHex [c, d] =
      if c = '+' then (hexValue d).map Int.ofNat
      else if c = '-' then (hexValue d).map fun n => -(n : Int)
      else (hexValue c).bind fun m => (hexValue d).map fun n => ((16 * m + n : Nat) : Int) := by
  by_cases hplus : c = '+'
  · rw [if_pos hplus, hplus, ← hexDigits_dropBase_one]
    rfl
  · by_cases hminus : c = '-'
    · rw [if_neg hplus, if_pos hminus, hminus, ← hexDigits_dropBase_one]
      rfl
    · have hdigits : signedHex [c, d] = (hexDigits (dropBase [c, d])).map Int.ofNat := by
        unfold signedHex
        split <;> simp_all
      rw [if_neg hplus, if_neg hminus, hdigits, hexDigits_dropBase_two]
      cases hexValue c with
      | none => rfl
      | some m => cases hexValue d <;> rfl

theorem strip_pair (x y : Char) :
    strip [x, y] =
      if isBlank x = true then if isBlank y = true then [] else [y]
      else if isBlank y = true then [x] else [x, y] := by
  cases hx : isBlank x <;> cases hy : isBlank y <;> simp [strip, List.rdropWhile, hx, hy]

/-- A character that a numeral may have before its only digit. -/
def isLead (c : Char) : Bool := c = '+' ∨ c = '-' ∨ isBlank c = true

/-- **The numerals of two characters**: two digits, or one digit with a sign or a blank
before it, or one with a blank after it. -/
theorem int16_pair (a b : Char) :
    (int16 [a, b]).isSome = true ↔
      (hexValue (toAscii a)).isSome = true ∧ (hexValue (toAscii b)).isSome = true ∨
      isLead (toAscii a) = true ∧ (hexValue (toAscii b)).isSome = true ∨
      (hexValue (toAscii a)).isSome = true ∧ isBlank (toAscii b) = true := by
  rw [int16, numeral]
  show (signedHex (strip [toAscii a, toAscii b])).isSome = true ↔ _
  generalize toAscii a = x
  generalize toAscii b = y
  rw [strip_pair]
  have hlead : isBlank x = true → isLead x = true := fun h => by simp [isLead, h]
  cases hx : isBlank x with
  | true =>
    have hnone := hexValue_of_blank hx
    cases hy : isBlank y with
    | true => simp [hnone, hexValue_of_blank hy, signedHex, hexDigits, dropBase]
    | false => simp [hnone, hlead hx, signedHex_one]
  | false =>
    cases hy : isBlank y with
    | true => simp [hexValue_of_blank hy, signedHex_one]
    | false =>
      simp only [Bool.false_eq_true, if_false, and_false, or_false]
      rw [signedHex_two]
      by_cases hplus : x = '+'
      · subst hplus
        simp [isLead, show hexValue '+' = none from rfl]
      · by_cases hminus : x = '-'
        · subst hminus
          cases hexValue y <;> simp [isLead, show hexValue '-' = none from rfl]
        · have : isLead x = false := by simp [isLead, hplus, hminus, hx]
          rw [if_neg hplus, if_neg hminus, this]
          cases hexValue x <;> cases hexValue y <;> simp

theorem hexValue_lt {c : Char} {m : Nat} (h : hexValue c = some m) : c.toNat < 128 ∧ m < 16 := by
  have hle : ∀ {x y : Char}, x ≤ y → x.toNat ≤ y.toNat := fun h => h
  unfold hexValue at h
  split at h
  · rename_i hc
    have h₁ := hle hc.1
    have h₂ := hle hc.2
    obtain rfl := Option.some.inj h
    simp only [Char.reduceToNat] at *
    omega
  · split at h
    · rename_i hc
      have h₁ := hle hc.1
      have h₂ := hle hc.2
      obtain rfl := Option.some.inj h
      simp only [Char.reduceToNat] at *
      omega
    · split at h
      · rename_i hc
        have h₁ := hle hc.1
        have h₂ := hle hc.2
        obtain rfl := Option.some.inj h
        simp only [Char.reduceToNat] at *
        omega
      · exact absurd h (by simp)

theorem toAscii_of_hexValue {c : Char} {m : Nat} (h : hexValue c = some m) : toAscii c = c :=
  if_pos (hexValue_lt h).1

/-- Two ASCII digits give the number they are. -/
theorem int16_digits {a b : Char} {m n : Nat} (ha : hexValue a = some m) (hb : hexValue b = some n) :
    int16 [a, b] = some ((16 * m + n : Nat) : Int) := by
  have hblank : ∀ {c : Char} {k : Nat}, hexValue c = some k → ¬ isBlank c = true :=
    fun hc hblank => absurd (hc.symm.trans (hexValue_of_blank hblank)) (by simp)
  have hplus : a ≠ '+' := fun h => by rw [h, show hexValue '+' = none from rfl] at ha; cases ha
  have hminus : a ≠ '-' := fun h => by rw [h, show hexValue '-' = none from rfl] at ha; cases ha
  rw [int16, numeral, List.map_cons, List.map_cons, List.map_nil, toAscii_of_hexValue ha,
    toAscii_of_hexValue hb, strip_pair, if_neg (hblank ha), if_neg (hblank hb), signedHex_two,
    if_neg hplus, if_neg hminus, ha, hb]
  rfl

/-- `str(n)` -/
def intRepr (n : Int) : Str :=
  if n < 0 then '-' :: Nat.toDigits 10 n.natAbs else Nat.toDigits 10 n.natAbs

end Python
