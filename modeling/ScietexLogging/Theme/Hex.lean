import ScietexLogging.Python.Numerals

/-!
# Theme — hex colours

`ansi_fg` and `ansi_bg` turn `#RRGGBB` into the SGR sequence of that colour. Only the
length is checked before each pair of characters goes to `int(.., 16)`, which reads
more than two hex digits.

* `HexColor`  — the grammar: six ASCII hex digits, with one `#` before them or without;
* `LooseHex`  — six characters outside it each pair of which `int(.., 16)` reads;
* `hex_exact` — the sequences are exact for every text but those.
-/

namespace ScietexLogging

open Python

/-- The `ValueError` of `_parse_hex`, by the text it quotes. -/
structure InvalidHex where
  hexColor : Str
  deriving DecidableEq, Repr

/-- One `#` is dropped. -/
def rawHex : Str → Str
  | '#' :: s => s
  | s => s

/-- `_parse_hex` -/
def parseHex (hexColor : Str) : Except InvalidHex (Int × Int × Int) :=
  let raw := rawHex hexColor
  if raw.length ≠ 6 then .error ⟨hexColor⟩
  else
    match int16 (raw.take 2), int16 ((raw.drop 2).take 2), int16 ((raw.drop 4).take 2) with
    | some r, some g, some b => .ok (r, g, b)
    | _, _, _ => .error ⟨hexColor⟩

def sgrColor (layer : String) (rgb : Int × Int × Int) : Str :=
  "\x1b[".toList ++ layer.toList ++ ";2;".toList ++ intRepr rgb.1 ++ [';'] ++ intRepr rgb.2.1 ++
    [';'] ++ intRepr rgb.2.2 ++ ['m']

def ansiFg (hexColor : Str) : Except InvalidHex Str := (parseHex hexColor).map (sgrColor "38")

def ansiBg (hexColor : Str) : Except InvalidHex Str := (parseHex hexColor).map (sgrColor "48")

-- ---------------------------------------------------------------------------
-- The grammar
-- ---------------------------------------------------------------------------

/-- Two ASCII hex digits. -/
def hexPair (a b : Char) : Option Int :=
  (hexValue a).bind fun m => (hexValue b).map fun n => ((16 * m + n : Nat) : Int)

/-- What six hex digits, with one `#` before them or without, say. -/
def hexColor (s : Str) : Option (Int × Int × Int) :=
  match rawHex s with
  | [a, b, c, d, e, f] =>
    match hexPair a b, hexPair c d, hexPair e f with
    | some r, some g, some b => some (r, g, b)
    | _, _, _ => none
  | _ => none

/-- A pair that `int(.., 16)` reads: two digits of any script, a digit with a sign or a
blank before it, or with a blank after it. -/
def LoosePair (a b : Char) : Prop :=
  (hexValue (toAscii a)).isSome = true ∧ (hexValue (toAscii b)).isSome = true ∨
  isLead (toAscii a) = true ∧ (hexValue (toAscii b)).isSome = true ∨
  (hexValue (toAscii a)).isSome = true ∧ isBlank (toAscii b) = true

/-- Six characters that are no hex colour, though each pair is read. -/
def LooseHex (s : Str) : Prop :=
  ∃ a b c d e f, rawHex s = [a, b, c, d, e, f] ∧ LoosePair a b ∧ LoosePair c d ∧ LoosePair e f ∧
    hexColor s = none

/-- `s` is accepted if it is a hex colour, with the sequence of its three pairs, and
refused with a `ValueError` if it is not. -/
def ExactHex (s : Str) : Prop :=
  ansiFg s = ((hexColor s).map (sgrColor "38")).elim (.error ⟨s⟩) .ok ∧
  ansiBg s = ((hexColor s).map (sgrColor "48")).elim (.error ⟨s⟩) .ok

theorem hexPair_range {a b : Char} {n : Int} (h : hexPair a b = some n) : 0 ≤ n ∧ n ≤ 255 := by
  obtain ⟨m, hm, h⟩ := Option.bind_eq_some_iff.mp h
  obtain ⟨k, hk, rfl⟩ := Option.map_eq_some_iff.mp h
  have := (hexValue_lt hm).2
  have := (hexValue_lt hk).2
  omega

theorem int16_hexPair {a b : Char} {n : Int} (h : hexPair a b = some n) : int16 [a, b] = some n := by
  obtain ⟨m, hm, h⟩ := Option.bind_eq_some_iff.mp h
  obtain ⟨k, hk, rfl⟩ := Option.map_eq_some_iff.mp h
  exact int16_digits hm hk

theorem parseHex_six {s : Str} {a b c d e f : Char} (h : rawHex s = [a, b, c, d, e, f]) :
    parseHex s =
      match int16 [a, b], int16 [c, d], int16 [e, f] with
      | some r, some g, some b => .ok (r, g, b)
      | _, _, _ => .error ⟨s⟩ := by
  rw [parseHex, h]
  rfl

theorem parseHex_of_length {s : Str} (h : (rawHex s).length ≠ 6) : parseHex s = .error ⟨s⟩ := by
  rw [parseHex]
  exact if_pos h

theorem hexColor_six {s : Str} {a b c d e f : Char} (h : rawHex s = [a, b, c, d, e, f]) :
    hexColor s =
      match hexPair a b, hexPair c d, hexPair e f with
      | some r, some g, some b => some (r, g, b)
      | _, _, _ => none := by
  rw [hexColor, h]

/-- Six characters, or another number of them. -/
theorem rawHex_cases (s : Str) :
    (∃ a b c d e f, rawHex s = [a, b, c, d, e, f]) ∨ (rawHex s).length ≠ 6 ∧ hexColor s = none := by
  by_cases hlen : (rawHex s).length = 6
  · obtain ⟨a, b, c, d, e, f, h⟩ : ∃ a b c d e f, rawHex s = [a, b, c, d, e, f] := by
      rcases hraw : rawHex s with _ | ⟨a, _ | ⟨b, _ | ⟨c, _ | ⟨d, _ | ⟨e, _ | ⟨f, _ | ⟨g, t⟩⟩⟩⟩⟩⟩⟩
      all_goals first
        | exact ⟨a, b, c, d, e, f, rfl⟩
        | (rw [hraw] at hlen; simp at hlen)
    exact .inl ⟨a, b, c, d, e, f, h⟩
  · refine .inr ⟨hlen, ?_⟩
    unfold hexColor
    split
    · rename_i h
      rw [h] at hlen
      exact absurd rfl hlen
    · rfl

theorem parseHex_of_hexColor {s : Str} {rgb : Int × Int × Int} (h : hexColor s = some rgb) :
    parseHex s = .ok rgb := by
  rcases rawHex_cases s with ⟨a, b, c, d, e, f, hraw⟩ | ⟨-, hnone⟩
  · rw [hexColor_six hraw] at h
    rw [parseHex_six hraw]
    cases hr : hexPair a b with
    | none => simp [hr] at h
    | some r =>
      cases hg : hexPair c d with
      | none => simp [hr, hg] at h
      | some g =>
        cases hb : hexPair e f with
        | none => simp [hr, hg, hb] at h
        | some b =>
          simp only [hr, hg, hb] at h
          rw [int16_hexPair hr, int16_hexPair hg, int16_hexPair hb, ← Option.some.inj h]
  · exact absurd (hnone.symm.trans h) (by simp)

/-- What is no hex colour is read only where it is loose. -/
theorem parseHex_of_none {s : Str} (h : hexColor s = none) :
    parseHex s = .error ⟨s⟩ ↔ ¬ LooseHex s := by
  rcases rawHex_cases s with ⟨a, b, c, d, e, f, hraw⟩ | ⟨hlen, -⟩
  · have hloose : LooseHex s ↔ LoosePair a b ∧ LoosePair c d ∧ LoosePair e f := by
      constructor
      · rintro ⟨a', b', c', d', e', f', hraw', h₁, h₂, h₃, -⟩
        obtain ⟨rfl, rfl, rfl, rfl, rfl, rfl, -⟩ := by
          simpa using hraw.symm.trans hraw'
        exact ⟨h₁, h₂, h₃⟩
      · exact fun ⟨h₁, h₂, h₃⟩ => ⟨a, b, c, d, e, f, hraw, h₁, h₂, h₃, h⟩
    rw [hloose, parseHex_six hraw]
    simp only [LoosePair, ← int16_pair]
    cases int16 [a, b] <;> cases int16 [c, d] <;> cases int16 [e, f] <;> simp
  · refine iff_of_true (parseHex_of_length hlen) ?_
    rintro ⟨a, b, c, d, e, f, hraw, -⟩
    rw [hraw] at hlen
    exact hlen rfl

theorem hexColor_range {s : Str} {r g b : Int} (h : hexColor s = some (r, g, b)) :
    (0 ≤ r ∧ r ≤ 255) ∧ (0 ≤ g ∧ g ≤ 255) ∧ 0 ≤ b ∧ b ≤ 255 := by
  rcases rawHex_cases s with ⟨a, b, c, d, e, f, hraw⟩ | ⟨-, hnone⟩
  · rw [hexColor_six hraw] at h
    split at h
    · rename_i hr hg hb
      obtain ⟨rfl, rfl, rfl⟩ := by simpa using h
      exact ⟨hexPair_range hr, hexPair_range hg, hexPair_range hb⟩
    · exact absurd h (by simp)
  · exact absurd (hnone.symm.trans h) (by simp)

/-- **Hex colours are exact** for every text but those that are six characters outside
the grammar each pair of which is a sign, a blank or a foreign digit away from it. -/
theorem hex_exact (s : Str) :
    (ExactHex s ↔ ¬ LooseHex s) ∧
      ∀ r g b, hexColor s = some (r, g, b) →
        (0 ≤ r ∧ r ≤ 255) ∧ (0 ≤ g ∧ g ≤ 255) ∧ 0 ≤ b ∧ b ≤ 255 := by
  refine ⟨?_, fun r g b => hexColor_range⟩
  cases h : hexColor s with
  | some rgb =>
    refine iff_of_true ?_ ?_
    · rw [ExactHex, h, ansiFg, ansiBg, parseHex_of_hexColor h]
      exact ⟨rfl, rfl⟩
    · rintro ⟨a, b, c, d, e, f, -, -, -, -, hnone⟩
      exact absurd (h.symm.trans hnone) (by simp)
  | none =>
    rw [← parseHex_of_none h, ExactHex, h, ansiFg, ansiBg]
    cases parseHex s <;> simp [Except.map]

/-- Three signs and three digits pass for a colour. -/
theorem hex_signed : ¬ ∀ s, ExactHex s := by
  intro hall
  have hread : ansiFg "#-1+2 3".toList = .ok "\x1b[38;2;-1;2;3m".toList := by decide
  have hrefused := (hall "#-1+2 3".toList).1
  rw [hread] at hrefused
  exact absurd hrefused (by decide)

end ScietexLogging
