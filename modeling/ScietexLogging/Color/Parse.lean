import ScietexLogging.Color.Model
import ScietexLogging.Python.Regex

/-!
# Color — parsing

`Color.parse`: a regular expression with a group for each notation, and behind each group
the conversions that make a colour of its text.

* `parse_announced` — exactly which texts give a colour in range or a `ColorParseError`.
-/

namespace ScietexLogging

open Python

/-- The notations, in the order in which the groups are looked at. -/
inductive ColorForm where
  | hex3 | hex4 | hex6 | hex8 | rgb | rgba | hsl | hsla
  deriving DecidableEq, Repr

namespace Color

-- ---------------------------------------------------------------------------
-- _RE_COLOR
-- ---------------------------------------------------------------------------

/-- `[0-9a-fA-F]{n}` -/
def hexes (n : Nat) : Pattern := .rep (fun c => (hexValue c).isSome) n (some n)

def isDecimal (c : Char) : Bool := (decimalValue c).isSome

/-- `\s*` -/
def spaces : Pattern := .rep isSpace 0 none

/-- `\d{1,3}` -/
def upToThree : Pattern := .rep isDecimal 1 (some 3)

/-- `[\d.]+` -/
def dotted : Pattern := .rep (fun c => isDecimal c || c = '.') 1 none

/-- `[\d.]+%?` -/
def percent : Pattern := .seq dotted (.rep (· = '%') 0 (some 1))

/-- Separated by `\s*,\s*`. -/
def fields : List Pattern → Pattern
  | [] => .literal []
  | [a] => a
  | a :: as => .seq a (.seq spaces (.seq (.one (· = ',')) (.seq spaces (fields as))))

end Color

/-- What the group of a notation holds. -/
def ColorForm.pattern : ColorForm → Pattern
  | .hex3 => Color.hexes 3
  | .hex4 => Color.hexes 4
  | .hex6 => Color.hexes 6
  | .hex8 => Color.hexes 8
  | .rgb => Color.fields [Color.upToThree, Color.upToThree, Color.upToThree]
  | .rgba => Color.fields [Color.upToThree, Color.upToThree, Color.upToThree, Color.dotted]
  | .hsl => Color.fields [Color.dotted, Color.percent, Color.percent]
  | .hsla => Color.fields [Color.dotted, Color.percent, Color.percent, Color.dotted]

namespace Color

/-- `^#(...)$` -/
def hashed (i : Nat) (n : ColorForm) : Pattern :=
  .seq .atStart (.seq (.one (· = '#')) (.seq (.group i n.pattern) .atEnd))

/-- `^name\(\s*(...)\s*\)$` -/
def called (name : String) (i : Nat) (n : ColorForm) : Pattern :=
  .seq .atStart (.seq (.literal name.toList) (.seq (.one (· = '(')) (.seq spaces
    (.seq (.group i n.pattern) (.seq spaces (.seq (.one (· = ')')) .atEnd))))))

/-- `_RE_COLOR` -/
def reColor : Pattern :=
  .alt (hashed 1 .hex3) (.alt (hashed 2 .hex4) (.alt (hashed 3 .hex6) (.alt (hashed 4 .hex8)
    (.alt (called "rgb" 5 .rgb) (.alt (called "rgba" 6 .rgba)
      (.alt (called "hsl" 7 .hsl) (called "hsla" 8 .hsla)))))))

def groups : List (Nat × ColorForm) :=
  [(1, .hex3), (2, .hex4), (3, .hex6), (4, .hex8), (5, .rgb), (6, .rgba), (7, .hsl), (8, .hsla)]

/-- The first group that is set, and its text. -/
def recognized (text : Str) : Option (ColorForm × Str) :=
  (reColor.find text).bind fun m => groups.findSome? fun g => (m.groups g.1).map fun t => (g.2, t)

-- ---------------------------------------------------------------------------
-- The conversions
-- ---------------------------------------------------------------------------

def hexInt (text : Str) : Except ColorError Int := (int16 text).elim (.error (.notNumber text)) .ok

/-- `float(v)`. The groups spell no infinity and no nan, and numbers are exact: hundreds of digits
make no infinity either. -/
def floatField (v : Str) : Except ColorError ℚ :=
  match float v with
  | some (.finite q) => .ok q
  | _ => .error (.notNumber v)

/-- `_percentage_string_to_float` -/
def percentage (v : Str) : Except ColorError ℚ :=
  (floatField (v.rdropWhile (· = '%'))).map (· / 100)

/-- `x % d`, for a positive `d`. -/
def floatMod (x d : ℚ) : ℚ := x - d * ⌊x / d⌋

/-- The channel of a hue, in `_hls_to_rgb`. -/
def toRgb (m₁ m₂ hue : ℚ) : ℚ :=
  let hue := floatMod hue 1
  if hue < 1 / 6 then m₁ + (m₂ - m₁) * hue * 6
  else if hue < 1 / 2 then m₂
  else if hue < 2 / 3 then m₁ + (m₂ - m₁) * (2 / 3 - hue) * 6
  else m₁

/-- `_hls_to_rgb` -/
def hlsToRgb (h lightness s : ℚ) : ℚ × ℚ × ℚ :=
  if s = 0 then (lightness, lightness, lightness)
  else
    let m₂ := if lightness ≤ 1 / 2 then lightness * (1 + s) else lightness + s - lightness * s
    let m₁ := 2 * lightness - m₂
    (toRgb m₁ m₂ (h + 1 / 3), toRgb m₁ m₂ h, toRgb m₁ m₂ (h - 1 / 3))

/-- `int(x * 255 + 0.5)` -/
def toByte (x : ℚ) : Int := truncate (x * 255 + 1 / 2)

def fromHsl (h s lightness : ℚ) : Color :=
  let rgb := hlsToRgb h lightness s
  ⟨toByte rgb.1, toByte rgb.2.1, toByte rgb.2.2, .finite 1⟩

def hslColor (h s lightness : Str) : Except ColorError Color := do
  let h ← floatField h
  let s ← percentage s
  let lightness ← percentage lightness
  return fromHsl (floatMod h 360 / 360) s lightness

/-- `_clamp(a, 0.0, 1.0)` -/
def clampAlpha (a : ℚ) : ℚ := max 0 (min 1 a)

/-- What the branch of a notation makes of the text of its group. -/
def convert : ColorForm → Str → Except ColorError Color
  | .hex3, [r, g, b] => do
    return ⟨← hexInt [r, r], ← hexInt [g, g], ← hexInt [b, b], .finite 1⟩
  | .hex4, [r, g, b, a] => do
    return ⟨← hexInt [r, r], ← hexInt [g, g], ← hexInt [b, b], .finite ((← hexInt [a, a]) / 255)⟩
  | .hex6, [r, r', g, g', b, b'] => do
    return ⟨← hexInt [r, r'], ← hexInt [g, g'], ← hexInt [b, b'], .finite 1⟩
  | .hex8, [r, r', g, g', b, b', a, a'] => do
    return ⟨← hexInt [r, r'], ← hexInt [g, g'], ← hexInt [b, b'],
      .finite ((← hexInt [a, a']) / 255)⟩
  | .rgb, t => do
    match ← (t.splitOn ',').mapM floatField with
    | [r, g, b] =>
      return ⟨clampByte (truncate r), clampByte (truncate g), clampByte (truncate b), .finite 1⟩
    | _ => throw .unpack
  | .rgba, t => do
    match ← (t.splitOn ',').mapM floatField with
    | [r, g, b, a] =>
      return ⟨clampByte (truncate r), clampByte (truncate g), clampByte (truncate b),
        .finite (clampAlpha a)⟩
    | _ => throw .unpack
  | .hsl, t =>
    match t.splitOn ',' with
    | [h, s, l] => hslColor h s l
    | _ => .error .unpack
  | .hsla, t =>
    match t.splitOn ',' with
    | [h, s, l, a] => do
      let c ← hslColor h s l
      return c.withAlpha (.finite (clampAlpha (← floatField a)))
    | _ => .error .unpack
  | _, _ => .error .unpack

/-- `Color.parse`, of a text -/
def parse (text : Str) : Except ColorError Color :=
  match recognized text with
  | some (n, t) => convert n t
  | none => .error (.colorParse text)

end Color

end ScietexLogging
