import ScietexLogging.Theme.Hex

/-!
# Theme — palettes

`Palette`, `LoggingTheme` and the built-in themes of `theme.py`. A slot that is `None`
leaves its element uncoloured.

* `builtin_valid` — the built-in palettes are hex colours.
-/

namespace ScietexLogging

open Python

structure Palette where
  background : Str
  foreground : Str
  brandYellow : Str := "#FFDB1C".toList
  brandDarkGray : Str := "#31313B".toList
  brandBlack : Str := "#1F202A".toList
  debug : Option Str := none
  info : Option Str := none
  warning : Option Str := none
  error : Option Str := none
  critical : Option Str := none
  criticalBg : Option Str := none
  loggerName : Option Str := none

/-- `level_color` -/
def Palette.levelColor (p : Palette) (levelno : Int) : Option Str :=
  if levelno = 10 then p.debug
  else if levelno = 20 then p.info
  else if levelno = 30 then p.warning
  else if levelno = 40 then p.error
  else if levelno = 50 then p.critical
  else some p.foreground

/-- The colours that a formatter may put on. -/
def Palette.painted (p : Palette) : List (Option Str) :=
  [some p.foreground, p.debug, p.info, p.warning, p.error, p.critical, p.criticalBg, p.loggerName]

structure LoggingTheme where
  name : Str
  palette : Palette
  color : Bool := true

def monochrome : LoggingTheme where
  name := "monochrome".toList
  palette := { background := "#1F202A".toList, foreground := "#FFFFFF".toList }
  color := false

def scietexLight : LoggingTheme where
  name := "scietex-light".toList
  palette :=
    { background := "#FFFFFF".toList
      foreground := "#1F202A".toList
      debug := some "#31313B".toList
      info := some "#0CADB3".toList
      warning := some "#E8A317".toList
      error := some "#FF0000".toList
      critical := some "#FFFFFF".toList
      criticalBg := some "#FF0000".toList
      loggerName := some "#FFDB1C".toList }

def scietexDark : LoggingTheme where
  name := "scietex-dark".toList
  palette :=
    { background := "#1F202A".toList
      foreground := "#FFFFFF".toList
      debug := some "#C9C9D4".toList
      info := some "#0CADB3".toList
      warning := some "#E8A317".toList
      error := some "#FF0000".toList
      critical := some "#FFFFFF".toList
      criticalBg := some "#FF0000".toList
      loggerName := some "#FFDB1C".toList }

/-- The colours that are set are hex colours. -/
def Palette.Valid (p : Palette) : Prop := ∀ c ∈ p.painted, ∀ s, c = some s → (hexColor s).isSome = true

theorem Palette.Valid.levelColor {p : Palette} (h : p.Valid) {levelno : Int} {s : Str}
    (hs : p.levelColor levelno = some s) : (hexColor s).isSome = true := by
  refine h _ ?_ s hs
  unfold Palette.levelColor Palette.painted
  repeat' split
  all_goals simp

/-- The built-in palettes. -/
theorem builtin_valid :
    monochrome.palette.Valid ∧ scietexLight.palette.Valid ∧ scietexDark.palette.Valid := by
  have hkey : ∀ p : Palette, (p.painted.all fun c => c.all fun s => (hexColor s).isSome) = true →
      p.Valid := by
    intro p hp c hc s hs
    have := List.all_eq_true.mp hp c hc
    rw [hs] at this
    exact this
  exact ⟨hkey _ (by decide), hkey _ (by decide), hkey _ (by decide)⟩

end ScietexLogging
