import ScietexLogging.Color.Parse
import ScietexLogging.Python.Exceptions
import ScietexLogging.Theme.Palette

/-!
# Theme — conversion of Textual themes

`from_textual_theme` takes the colours of a Textual theme to the slots of a palette. The
base colours are resolved one after the other, each through `variables`, the attribute of
the theme and a fallback made of the ones before it; then `text-muted` is composited over
the background.
-/

namespace ScietexLogging

open Python Color

/-- The base colours of a Textual theme. -/
inductive Slot where
  | primary | secondary | warning | error | success | accent | background | foreground
  deriving DecidableEq, Repr

def Slot.key : Slot → Str
  | .primary => "primary".toList
  | .secondary => "secondary".toList
  | .warning => "warning".toList
  | .error => "error".toList
  | .success => "success".toList
  | .accent => "accent".toList
  | .background => "background".toList
  | .foreground => "foreground".toList

/-- A theme, as it is read by `getattr`. -/
structure TextualTheme where
  name : Option Str
  color : Slot → Option Str
  /-- `variables` -/
  vars : Str → Option Str
  dark : Bool := true
  ansi : Bool := false

/-- The keyword arguments of `from_textual_theme`. -/
structure ThemeOptions where
  name : Option Str := none
  color : Bool := true
  ansiPalette : Option (Str → Option Str) := none
  criticalDarken : ℚ := 12 / 100

/-- What the conversion raises, every time a `ValueError`. -/
inductive ThemeError where
  | ansiTheme (theme : Str)             -- textual theme .. is an ANSI theme; pass ansi_palette ..
  | noColor (theme slot : Str)          -- textual theme .. has no .. color
  | unparseable (theme slot raw : Str)  -- textual theme .. has an unparseable .. color: ..
  | ansiToken (theme token : Str)       -- textual theme .. uses ANSI color .., which has no ..
  | noEntry (theme token : Str)         -- ansi_palette has no entry for .. (theme ..)
  | escaped (e : ColorError)            -- what the colours raised, as it is
  deriving DecidableEq

def defaultDarkBackground : Str := "#121212".toList

def defaultLightBackground : Str := "#efefef".toList

def defaultTextMuted : Str := "auto 60%".toList

def escaping {α : Type} : Except ColorError α → Except ThemeError α
  | .ok a => .ok a
  | .error e => .error (.escaped e)

def isAnsi (token : Str) : Bool := "ansi_".toList.isPrefixOf token

/-- `_resolve_ansi` -/
def resolveAnsi (token theme : Str) : Option (Str → Option Str) → Except ThemeError Str
  | none => .error (.ansiToken theme token)
  | some palette => (palette token).elim (.error (.noEntry theme token)) .ok

/-- `_parse_slot`, which catches a `ColorParseError` only -/
def parseSlot (raw theme slot : Str) : Except ThemeError Color :=
  match parse raw with
  | .error (.colorParse _) => .error (.unparseable theme slot raw)
  | r => escaping r

/-- The text that `variables` or the theme has for a slot. -/
def TextualTheme.given (t : TextualTheme) (slot : Slot) : Option Str :=
  (truthy (t.vars slot.key)).or (truthy (t.color slot))

/-- `_resolve` -/
def resolve (t : TextualTheme) (slot : Slot) (fallback : Option Str) (theme : Str)
    (ansiPalette : Option (Str → Option Str)) : Except ThemeError Color := do
  match (t.given slot).or fallback with
  | none => throw (.noColor theme slot.key)
  | some raw =>
    let raw ← if isAnsi raw then resolveAnsi raw theme ansiPalette else pure raw
    parseSlot raw theme slot.key

/-- `_canonical` -/
def canonical (lab : Color → ℚ → Int × Int × Int) (c : Color) : Color := c.lighten lab 0

/-- `_flatten` -/
def flatten (c background : Color) : Except ColorError Str :=
  if c.a.ge 1 then .ok c.hex6
  else (c.blend background c.a (.finite 1)).map Color.hex6

/-- `auto`, or `auto` with an alpha behind it -/
def isAuto (token : Str) : Bool := token = "auto".toList || "auto ".toList.isPrefixOf token

def mutedToken (vars : Str → Option Str) : Str := (vars "text-muted".toList).getD defaultTextMuted

/-- The alpha behind `auto`. -/
def autoAlpha (token theme : Str) : Except ThemeError Number :=
  if token = "auto".toList then .ok (.finite 1)
  else
    match float ((token.drop 5).rdropWhile (· = '%')) with
    | some n => .ok (n.divBy 100)
    | none => .error (.unparseable theme "text-muted".toList token)

/-- `_text_muted` -/
def textMuted (vars : Str → Option Str) (background : Color) (theme : Str)
    (ansiPalette : Option (Str → Option Str)) : Except ThemeError Str :=
  let token := mutedToken vars
  if isAnsi token then resolveAnsi token theme ansiPalette
  else if isAuto token then do
    let alpha ← autoAlpha token theme
    escaping (flatten (background.getContrastText alpha) background)
  else do
    let c ← parseSlot token theme "text-muted".toList
    escaping (flatten c background)

/-- The base colours, resolved. -/
structure BaseColors where
  primary : Color
  secondary : Color
  warning : Color
  error : Color
  success : Color
  accent : Color
  background : Color
  foreground : Color

def TextualTheme.nameOr (t : TextualTheme) (name : Option Str) : Str :=
  ((truthy name).or (truthy t.name)).getD "textual".toList

section

variable (lab : Color → ℚ → Int × Int × Int)

def baseColors (t : TextualTheme) (theme : Str) (ansiPalette : Option (Str → Option Str)) :
    Except ThemeError BaseColors := do
  let primary ← resolve t .primary none theme ansiPalette
  let primary := canonical lab primary
  let secondary ← resolve t .secondary (some primary.hex6) theme ansiPalette
  let secondary := canonical lab secondary
  let warning ← resolve t .warning (some primary.hex6) theme ansiPalette
  let warning := canonical lab warning
  let error ← resolve t .error (some secondary.hex6) theme ansiPalette
  let error := canonical lab error
  let success ← resolve t .success (some secondary.hex6) theme ansiPalette
  let success := canonical lab success
  let accent ← resolve t .accent (some primary.hex6) theme ansiPalette
  let accent := canonical lab accent
  let background ← resolve t .background
    (some (if t.dark then defaultDarkBackground else defaultLightBackground)) theme ansiPalette
  let background := canonical lab background
  let foreground ← resolve t .foreground (some background.inverse.hex6) theme ansiPalette
  let foreground := canonical lab foreground
  return { primary, secondary, warning, error, success, accent, background, foreground }

/-- The background of a critical record. -/
def BaseColors.criticalBgColor (c : BaseColors) (t : TextualTheme) (o : ThemeOptions) : Color :=
  if t.dark then c.error.darken lab o.criticalDarken else c.error

def BaseColors.palette (c : BaseColors) (t : TextualTheme) (o : ThemeOptions) (debug : Str) : Palette :=
  let criticalBgColor := c.criticalBgColor lab t o
  let critical := criticalBgColor.getContrastText (.finite 1)
  { background := c.background.hex6
    foreground := c.foreground.hex6
    debug := some debug
    info := some c.success.hex6
    warning := some c.warning.hex6
    error := some c.error.hex6
    critical := some critical.hex6
    criticalBg := some criticalBgColor.hex6
    loggerName := some c.accent.hex6 }

/-- `from_textual_theme` -/
def fromTextualTheme (t : TextualTheme) (o : ThemeOptions) : Except ThemeError LoggingTheme :=
  let theme := t.nameOr o.name
  if t.ansi && o.ansiPalette.isNone then .error (.ansiTheme theme)
  else do
    let c ← baseColors lab t theme o.ansiPalette
    let debug ← textMuted t.vars c.background theme o.ansiPalette
    return { name := theme, palette := c.palette lab t o debug, color := o.color }

/-- What a conversion that returns went through. -/
theorem fromTextualTheme_ok {t : TextualTheme} {o : ThemeOptions} {T : LoggingTheme}
    (h : fromTextualTheme lab t o = .ok T) :
    ∃ c debug, baseColors lab t (t.nameOr o.name) o.ansiPalette = .ok c ∧
      textMuted t.vars c.background (t.nameOr o.name) o.ansiPalette = .ok debug ∧
      T = { name := t.nameOr o.name, palette := c.palette lab t o debug, color := o.color } := by
  unfold fromTextualTheme at h
  simp only at h
  split at h
  · cases h
  · obtain ⟨c, hc, h⟩ := bind_eq_ok.mp h
    obtain ⟨debug, hdebug, h⟩ := bind_eq_ok.mp h
    exact ⟨c, debug, hc, hdebug, (Except.ok.inj h).symm⟩

end

-- ---------------------------------------------------------------------------
-- A small theme
-- ---------------------------------------------------------------------------

/-- The way through CIE-Lab, for the colours of the themes below: a red of `#ffa62b`
loses one each time. -/
def labTable (c : Color) (amount : ℚ) : Int × Int × Int :=
  if amount = 0 then if c.r > 250 then (c.r - 1, c.g, c.b) else (c.r, c.g, c.b)
  else if c.r = 1 then (-118, 90, 178)
  else (214, 134, -11)

/-- A primary colour and a `text-muted` token. -/
def smallTheme (primary : Str) (muted : Option Str) : TextualTheme where
  name := some "small".toList
  color slot := if slot = .primary then some primary else none
  vars key := if key = "text-muted".toList then muted else none

end ScietexLogging
