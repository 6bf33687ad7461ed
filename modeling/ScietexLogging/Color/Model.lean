import ScietexLogging.Python.Floats

/-!
# Color — colours

`Color` of `_color.py` as far as the theme conversion uses it. Channels are integers,
the alpha is a float. The way through CIE-Lab is a parameter: `lab c d` are the channels
`lab_to_rgb` makes of `rgb_to_lab(c)` with `100 * d` taken off its luminance.
-/

namespace ScietexLogging

open Python

structure Color where
  r : Int
  g : Int
  b : Int
  a : Number := .finite 1
  deriving DecidableEq

/-- What the operations on colours raise. -/
inductive ColorError where
  | colorParse (text : Str)   -- ColorParseError
  | notNumber (text : Str)    -- ValueError of int() or float()
  | unpack                    -- ValueError: too many or not enough values
  | nanToInt                  -- ValueError of int(nan)
  deriving DecidableEq

namespace Color

def inverse (c : Color) : Color := ⟨255 - c.r, 255 - c.g, 255 - c.b, c.a⟩

/-- `_clamp(n, 0, 255)` -/
def clampByte (n : Int) : Int := max 0 (min 255 n)

def clamped (c : Color) : Color :=
  ⟨clampByte c.r, clampByte c.g, clampByte c.b, c.a.clamp 0 1⟩

/-- Of the normalized channels. -/
def brightness (c : Color) : ℚ := (299 * (c.r / 255) + 587 * (c.g / 255) + 114 * (c.b / 255)) / 1000

/-- `f"{n:02X}"`, of a byte -/
def hexByte (n : Int) : Str :=
  [(Nat.digitChar (n.toNat / 16)).toUpper, (Nat.digitChar (n.toNat % 16)).toUpper]

def hex6 (c : Color) : Str :=
  '#' :: (hexByte c.clamped.r ++ hexByte c.clamped.g ++ hexByte c.clamped.b)

def withAlpha (c : Color) (alpha : Number) : Color := { c with a := alpha }

/-- A channel on the way from `n₁` to `n₂`. -/
def mix (n₁ n₂ : Int) (factor : ℚ) : Int := truncate (n₁ + (n₂ - n₁) * factor)

/-- `blend`, where it is told the alpha of the result. -/
def blend (c destination : Color) (factor alpha : Number) : Except ColorError Color :=
  if factor.le 0 then .ok c
  else if factor.ge 1 then .ok destination
  else
    match factor with
    | .finite f =>
      .ok ⟨mix c.r destination.r f, mix c.g destination.g f, mix c.b destination.b f, alpha⟩
    | _ => .error .nanToInt

def white : Color := ⟨255, 255, 255, .finite 1⟩

def black : Color := ⟨0, 0, 0, .finite 1⟩

def getContrastText (c : Color) (alpha : Number) : Color :=
  (if c.brightness < 1 / 2 then white else black).withAlpha alpha

/-- `darken`, which keeps the alpha. -/
def darken (lab : Color → ℚ → Int × Int × Int) (c : Color) (amount : ℚ) : Color :=
  clamped ⟨(lab c amount).1, (lab c amount).2.1, (lab c amount).2.2, c.a⟩

def lighten (lab : Color → ℚ → Int × Int × Int) (c : Color) (amount : ℚ) : Color :=
  c.darken lab (-amount)

-- ---------------------------------------------------------------------------
-- Colours in range
-- ---------------------------------------------------------------------------

/-- The channels are bytes. -/
def InRange (c : Color) : Prop :=
  (0 ≤ c.r ∧ c.r ≤ 255) ∧ (0 ≤ c.g ∧ c.g ≤ 255) ∧ 0 ≤ c.b ∧ c.b ≤ 255

def Solid (c : Color) : Prop := c.a = .finite 1

theorem clampByte_range (n : Int) : 0 ≤ clampByte n ∧ clampByte n ≤ 255 := by
  unfold clampByte
  omega

theorem clampByte_of_range {n : Int} (h : 0 ≤ n ∧ n ≤ 255) : clampByte n = n := by
  unfold clampByte
  omega

theorem clamped_inRange (c : Color) : c.clamped.InRange :=
  ⟨clampByte_range _, clampByte_range _, clampByte_range _⟩

theorem darken_inRange (lab : Color → ℚ → Int × Int × Int) (c : Color) (amount : ℚ) :
    (c.darken lab amount).InRange := clamped_inRange _

theorem Solid.clamped {c : Color} (h : c.Solid) : c.clamped.Solid := by
  show c.a.clamp 0 1 = _
  rw [h]
  decide

theorem Solid.darken {lab : Color → ℚ → Int × Int × Int} {c : Color} (h : c.Solid) (amount : ℚ) :
    (c.darken lab amount).Solid := Solid.clamped (c := ⟨_, _, _, c.a⟩) h

theorem Solid.inverse {c : Color} (h : c.Solid) : c.inverse.Solid := h

theorem InRange.inverse {c : Color} (h : c.InRange) : c.inverse.InRange := by
  obtain ⟨hr, hg, hb⟩ := h
  show (0 ≤ 255 - c.r ∧ 255 - c.r ≤ 255) ∧ (0 ≤ 255 - c.g ∧ 255 - c.g ≤ 255) ∧
    0 ≤ 255 - c.b ∧ 255 - c.b ≤ 255
  omega

end Color

end ScietexLogging
