import ScietexLogging.Formatter.Shown
import ScietexLogging.Theme.Converted

/-!
# Theme — a converted theme on a terminal

From a Textual theme to the screen: what a record shows under a converted theme are the
colours that the conversion resolved, their channels clamped to a byte.

* `converted_shows` — the characters of a record, in the resolved colours.
-/

namespace ScietexLogging

open Posix Python Color Terminal

/-- The bytes that `hex6` writes. -/
def Color.rgb (c : Color) : Rgb := (c.clamped.r.toNat, c.clamped.g.toNat, c.clamped.b.toNat)

theorem rgbOf_hex6 (c : Color) : rgbOf c.hex6 = some c.rgb := by
  rw [rgbOf, hexColor_hex6]
  rfl

section

variable (lab : Color → ℚ → Int × Int × Int) {t : TextualTheme} {o : ThemeOptions} {debug : Str}

/-- The colour of a level: success, warning and error for theirs, text in contrast to its
background for a critical record, and the foreground for a level of no name. -/
def BaseColors.levelRgb (c : BaseColors) (t : TextualTheme) (o : ThemeOptions) (muted : Rgb)
    (levelno : Int) : Rgb :=
  if levelno = 10 then muted
  else if levelno = 20 then c.success.rgb
  else if levelno = 30 then c.warning.rgb
  else if levelno = 40 then c.error.rgb
  else if levelno = 50 then ((c.criticalBgColor lab t o).getContrastText (.finite 1)).rgb
  else c.foreground.rgb

/-- The style of a piece, in the resolved colours. -/
def BaseColors.style (c : BaseColors) (t : TextualTheme) (o : ThemeOptions) (muted : Rgb)
    (levelno : Int) : Piece → Style
  | .field .asctime => { dim := true }
  | .field .levelname =>
    { bold := true
      fore := some (c.levelRgb lab t o muted levelno)
      back := if levelno = 50 then some (c.criticalBgColor lab t o).rgb else none }
  | .field .name => { fore := some c.accent.rgb }
  | .field .message => { fore := some c.foreground.rgb }
  | _ => {}

theorem palette_levelRgb (c : BaseColors) {muted : Rgb} (hdebug : rgbOf debug = some muted)
    (levelno : Int) :
    ((c.palette lab t o debug).levelColor levelno).bind rgbOf = some (c.levelRgb lab t o muted levelno) := by
  unfold Palette.levelColor BaseColors.levelRgb
  split
  · exact hdebug
  · repeat' split
    all_goals exact rgbOf_hex6 _

theorem palette_style (c : BaseColors) {muted : Rgb} (hdebug : rgbOf debug = some muted) :
    (c.palette lab t o debug).style = c.style lab t o muted := by
  funext levelno p
  match p with
  | .literal _ => rfl
  | .field .asctime => rfl
  | .field .levelname =>
    unfold Palette.style BaseColors.style
    simp only
    rw [palette_levelRgb lab c hdebug levelno]
    split
    · rw [show (c.palette lab t o debug).criticalBg = some (c.criticalBgColor lab t o).hex6 from rfl,
        Option.bind_some, rgbOf_hex6]
    · rfl
  | .field .name => exact congrArg (fun rgb => ({ fore := rgb } : Style)) (rgbOf_hex6 c.accent)
  | .field .message => exact congrArg (fun rgb => ({ fore := rgb } : Style)) (rgbOf_hex6 c.foreground)
  | .field (.other _) => rfl

theorem palette_valid (c : BaseColors) (hdebug : HexForm debug) : (c.palette lab t o debug).Valid := by
  intro color hcolor s hs
  simp only [Palette.painted, BaseColors.palette, List.mem_cons, List.not_mem_nil, or_false] at hcolor
  have hset : HexForm s := by
    rcases hcolor with rfl | rfl | rfl | rfl | rfl | rfl | rfl | rfl
    all_goals rw [← Option.some.inj hs]
    all_goals first
      | exact hdebug
      | exact hexForm_hex6 _
  exact hset.hexColor

theorem textMuted_hexForm {background : Color} {theme : Str}
    (h : textMuted t.vars background theme o.ansiPalette = .ok debug) (hmuted : MutedHex t o) :
    HexForm debug := by
  have hdebug := textMuted_ok h
  split at hdebug
  · rename_i hansi
    obtain ⟨palette, hpalette, hv⟩ := hdebug
    exact hmuted hansi palette debug hpalette hv
  · exact hdebug

/-- **A record shows the colours of the Textual theme**, for every conversion that returns,
every format and record without an escape: the ones that the conversion resolved, their
channels clamped, and what it made of `text-muted` for a debug record, if the ANSI palette
has a hex colour for it. -/
theorem converted_shows (t : TextualTheme) (o : ThemeOptions) (T : LoggingTheme)
    (fmt : Option (List Piece)) (h : Records) (r : Nat) (s : Str)
    (hT : fromTextualTheme lab t o = .ok T) (hmuted : MutedHex t o)
    (hfmt : PlainFormat (fmt.getD ScietexFormatter.defaultFmt)) (hclean : (h.record r).Clean)
    (hok : (((themed fmt T true).format r).exec h).1 = .ok s) :
    ∃ c debug muted, baseColors lab t (t.nameOr o.name) o.ansiPalette = .ok c ∧
      textMuted t.vars c.background (t.nameOr o.name) o.ansiPalette = .ok debug ∧
      rgbOf debug = some muted ∧
      ShownIn (c.style lab t o muted) (themed fmt T true).pieces (h.record r) s := by
  obtain ⟨c, debug, hc, hdebug, rfl⟩ := fromTextualTheme_ok lab hT
  have hform := textMuted_hexForm hdebug hmuted
  obtain ⟨rgb, hrgb⟩ := Option.isSome_iff_exists.mp hform.hexColor
  have hmutedRgb : rgbOf debug = some (rgb.1.toNat, rgb.2.1.toNat, rgb.2.2.toNat) := by
    rw [rgbOf, hrgb]
    rfl
  refine ⟨c, debug, _, hc, hdebug, hmutedRgb, ?_⟩
  have hshown := shownIn_of_format (palette_valid lab c hform) hfmt hclean hok
  rwa [palette_style lab c hmutedRgb] at hshown

end

/-- A record of level 10 on a theme whose `text-muted` is a colour of the ANSI palette. -/
theorem converted_shows_muted :
    ∃ T, fromTextualTheme labTable (smallTheme "#0178D4".toList (some "ansi_black".toList))
        (blackOptions "#101010".toList) = .ok T ∧
      ∃ c debug muted,
        baseColors labTable (smallTheme "#0178D4".toList (some "ansi_black".toList))
          "small".toList (blackOptions "#101010".toList).ansiPalette = .ok c ∧
        textMuted (smallTheme "#0178D4".toList (some "ansi_black".toList)).vars c.background
          "small".toList (blackOptions "#101010".toList).ansiPalette = .ok debug ∧
        rgbOf debug = some muted ∧
        ShownIn (c.style labTable (smallTheme "#0178D4".toList (some "ansi_black".toList))
            (blackOptions "#101010".toList) muted)
          (themed (some [.field .levelname]) T true).pieces (textRecord 10 "up".toList none)
          "\x1b[1m\x1b[38;2;16;16;16mDBG\x1b[0m".toList := by
  refine ⟨_, rfl, converted_shows labTable (smallTheme "#0178D4".toList (some "ansi_black".toList))
    (blackOptions "#101010".toList) _ (some [.field .levelname])
    (.one (textRecord 10 "up".toList none)) 0 _ rfl ?_ (by decide)
    (textRecord_clean (by decide) nofun) (by decide +kernel)⟩
  intro _ palette v hpalette hv
  obtain rfl := Option.some.inj hpalette
  obtain rfl : "#101010".toList = v := Option.some.inj hv
  exact ⟨_, rfl, rfl, List.all_eq_true.mp (by decide)⟩

end ScietexLogging
