import ScietexLogging.Formatter.Removable
import ScietexLogging.Terminal.Screen

/-!
# Formatter — what a terminal shows

The coloured output on a terminal: each piece of the format shows its text, in the colours
that the palette has for it, and what is between the fields or behind the line is shown in
no style.

* `colored_shows` — the characters of a formatted record, with their styles.
-/

namespace ScietexLogging

open Posix Python Terminal

/-- The colour that a text like `#RRGGBB` says. -/
def rgbOf (s : Str) : Option Rgb := (hexColor s).map fun c => (c.1.toNat, c.2.1.toNat, c.2.2.toNat)

/-- The style of a piece, for records of a level. -/
def Palette.style (p : Palette) (levelno : Int) : Piece → Style
  | .field .asctime => { dim := true }
  | .field .levelname =>
    { bold := true
      fore := (p.levelColor levelno).bind rgbOf
      back := (if levelno = 50 then p.criticalBg else none).bind rgbOf }
  | .field .name => { fore := p.loggerName.bind rgbOf }
  | .field .message => { fore := rgbOf p.foreground }
  | _ => {}

/-- What stands behind a line for a text to be on a line of its own. -/
def Behind (line text rest : Str) : Prop :=
  if text = [] then rest = []
  else rest = '\n' :: text ∨ line.getLast? = some '\n' ∧ rest = text

/-- The pieces of a record, each in its style. -/
def Record.display (x : Record) (style : Int → Piece → Style) (message time : Str) (fmt : List Piece) :
    List (Char × Style) :=
  fmt.flatMap fun p => (x.plain message time p).map (·, style x.levelno p)

/-- `s` shows the pieces of the record in these styles, and behind them the traceback and
the stack in none. -/
def ShownIn (style : Int → Piece → Style) (fmt : List Piece) (x : Record) (s : Str) : Prop :=
  ∃ message time rest, x.Says fmt message time ∧
    Behind (fmt.flatMap (x.plain message time)) (tailText x) rest ∧
    display s = x.display style message time fmt ++ unstyled rest

-- ---------------------------------------------------------------------------
-- What is painted
-- ---------------------------------------------------------------------------

theorem intRepr_toNat {n : Int} (h : 0 ≤ n) : intRepr n = Nat.toDigits 10 n.toNat := by
  rw [intRepr, if_neg (by omega)]
  congr 1
  omega

theorem numbers_colorParameters {s : Str} {rgb : Int × Int × Int} (h : hexColor s = some rgb)
    {layer : String} {n : Nat} (hlayer : layer.toList = Nat.toDigits 10 n) :
    numbers (colorParameters layer rgb) = [n, 2, rgb.1.toNat, rgb.2.1.toNat, rgb.2.2.toNat] := by
  obtain ⟨⟨hr, -⟩, ⟨hg, -⟩, hb, -⟩ := hexColor_range h
  have hjoined : colorParameters layer rgb =
      joined [n, 2, rgb.1.toNat, rgb.2.1.toNat, rgb.2.2.toNat] := by
    have htwo : ";2;".toList = [';'] ++ Nat.toDigits 10 2 ++ [';'] := rfl
    rw [colorParameters, intRepr_toNat hr, intRepr_toNat hg, intRepr_toNat hb, hlayer, htwo]
    simp [joined, List.intercalate]
  rw [hjoined, numbers_joined (by simp)]

/-- The sequence of a colour that is set turns it on, and where none is set there is none. -/
theorem painting_turns {color : Option Str} (hcolor : ∀ s, color = some s → (hexColor s).isSome = true)
    (layer : String) (n : Nat) (hlayer : layer.toList = Nat.toDigits 10 n) (before after : Style)
    (hunset : color = none → after = before)
    (hset : ∀ rgb, color.bind rgbOf = some rgb →
      before.apply [n, 2, rgb.1, rgb.2.1, rgb.2.2] = after) :
    ∃ ps, painting (fun s => (parseHex s).map (sgrColor layer)) color = .ok ps ∧
      Turns ps.flatten before after := by
  cases color with
  | none => exact ⟨[], rfl, hunset rfl ▸ .nil before⟩
  | some s =>
    obtain ⟨rgb, hrgb⟩ := Option.isSome_iff_exists.mp (hcolor s rfl)
    refine ⟨[sgrColor layer rgb], ?_, ?_⟩
    · rw [painting, parseHex_of_hexColor hrgb]
      rfl
    · have hparam : ∀ c ∈ colorParameters layer rgb, isParameter c = true :=
        colorParameters_parameter hrgb fun c hc => digit_parameter (hlayer ▸ hc)
      have hturns := Turns.sgr hparam before
      rw [numbers_colorParameters hrgb hlayer] at hturns
      rw [List.flatten_cons, List.flatten_nil, List.append_nil, sgrColor_eq]
      have hafter := hset (rgb.1.toNat, rgb.2.1.toNat, rgb.2.2.toNat) (by
        rw [Option.bind_some, rgbOf, hrgb]
        rfl)
      exact hafter ▸ hturns

/-- A painted text is shown in its colours. -/
theorem paint_shows {t : Str} (ht : esc ∉ t) {color : Option Str}
    (hcolor : ∀ s, color = some s → (hexColor s).isSome = true) (isBold : Bool) {bg : Option Str}
    (hbg : ∀ s, bg = some s → (hexColor s).isSome = true) :
    ∃ c, paint t color isBold bg = .ok c ∧
      Shows c (t.map (·, { bold := isBold, fore := color.bind rgbOf, back := bg.bind rgbOf })) := by
  obtain ⟨fore, hfore, hforeTurns⟩ := painting_turns hcolor "38" 38 rfl
    { bold := isBold } { bold := isBold, fore := color.bind rgbOf }
    (fun h => by rw [h]; rfl) (fun rgb h => by rw [h]; rfl)
  obtain ⟨back, hback, hbackTurns⟩ := painting_turns hbg "48" 48 rfl
    { bold := isBold, fore := color.bind rgbOf }
    { bold := isBold, fore := color.bind rgbOf, back := bg.bind rgbOf }
    (fun h => by rw [h]; rfl) (fun rgb h => by rw [h]; rfl)
  have hbold : Turns (if isBold then [bold] else []).flatten {} { bold := isBold } := by
    cases isBold with
    | false => exact .nil {}
    | true => exact Turns.sgr (p := ['1']) (List.all_eq_true.mp rfl) {}
  have hturns : Turns ((if isBold then [bold] else []) ++ fore ++ back).flatten {}
      { bold := isBold, fore := color.bind rgbOf, back := bg.bind rgbOf } := by
    rw [List.flatten_append, List.flatten_append]
    exact (hbold.append hforeTurns).append hbackTurns
  refine ⟨_, by unfold paint; rw [show painting ansiFg color = .ok fore from hfore,
    show painting ansiBg bg = .ok back from hback]; rfl, ?_⟩
  by_cases hnone : (if isBold then [bold] else []) ++ fore ++ back = []
  · rw [if_pos hnone]
    rw [hnone] at hturns
    rw [Turns.of_nil hturns]
    exact .text ht
  · rw [if_neg hnone]
    exact hturns.shows ht

-- ---------------------------------------------------------------------------
-- The line of a record
-- ---------------------------------------------------------------------------

section Line

variable {fmt : Option (List Piece)} {theme : LoggingTheme} {x : Record} {message time : Str}

/-- The record that a palette paints shows each piece in its style. -/
theorem painted_shows {f : ScietexFormatter} (hvalid : f.usedTheme.palette.Valid) (hclean : x.Clean)
    (hmessage : x.getMessage = .ok message) (htime : esc ∉ time) :
    ∃ y colored, f.painted x = .ok y ∧ PaintedRecord f.usedTheme.palette x y message colored ∧
      ∀ p, p.isPlain = true → Shows (y.shown colored (dim ++ time ++ reset) p)
        ((x.plain message time p).map (·, f.usedTheme.palette.style x.levelno p)) := by
  obtain ⟨colored, hcolored, hmessageShows⟩ :=
    paint_shows (hclean.message message hmessage) hvalid.foreground false not_set
  obtain ⟨level, hlevel, hlevelShows⟩ := paint_shows (esc_not_levelAbbreviation x.levelno)
    (fun s hs => hvalid.levelColor hs) true (hvalid.background x.levelno)
  obtain ⟨name, hname, hnameShows⟩ := paint_shows hclean.name hvalid.loggerName false not_set
  have hy := painted_paints hmessage hcolored hlevel hname
  obtain ⟨y, colored', hy', hpainted⟩ := painted_valid hvalid hclean hmessage
  obtain rfl := Except.ok.inj (hy.symm.trans hy')
  obtain rfl : colored = colored' := Except.ok.inj hpainted.getMessage
  refine ⟨_, colored, hy, hpainted, fun p hp => ?_⟩
  match p with
  | .literal text => exact .text (of_decide_eq_true hp)
  | .field .asctime =>
    exact (Turns.sgr (p := ['2']) (List.all_eq_true.mp rfl) {}).shows htime
  | .field .levelname => exact hlevelShows
  | .field .name => exact hnameShows
  | .field .message => exact hmessageShows
  | .field (.other key) => exact absurd hp Bool.false_ne_true

/-- A painted line that ends in a newline shows it. -/
theorem Painted.getLast_newline {α : Type} {on : α → Bool} {t c : α → Str} {ps : List α}
    (h : ∀ p ∈ ps, Painted (on p) (t p) (c p)) (hlast : (ps.flatMap c).getLast? = some '\n') :
    (ps.flatMap t).getLast? = some '\n' := by
  by_contra hne
  obtain ⟨before, p, after, hps, hp, hafter, -⟩ :=
    (Painted.newline_lost h).mp fun hiff => hne (hiff.mp hlast)
  exact hne (getLast_flatMap.mpr ⟨before, p, after, hps, hp, hafter⟩)

/-- The coloured text of a record that has a message and a time. -/
theorem text_shows (hvalid : theme.palette.Valid)
    (hfmt : PlainFormat (fmt.getD ScietexFormatter.defaultFmt)) (hclean : x.Clean)
    (hsaid : x.Says (themed fmt theme true).pieces message time) (htime : esc ∉ time) :
    ∃ line, (themed fmt theme true).text x = .ok (withTailText x line) ∧
      Shows line (x.display theme.palette.style message time (themed fmt theme true).pieces) ∧
      (line.getLast? = some '\n' →
        ((themed fmt theme true).pieces.flatMap (x.plain message time)).getLast? = some '\n') := by
  obtain ⟨y, colored, hy, hpainted, hshows⟩ :=
    painted_shows (f := themed fmt theme true) hvalid hclean hsaid.1 htime
  have hpieces := hfmt.pieces theme true
  refine ⟨(themed fmt theme true).pieces.flatMap (y.shown colored (dim ++ time ++ reset)), ?_,
    .flatMap fun p hp => hshows p (hpieces p hp), Painted.getLast_newline (hpainted.piece htime hpieces)⟩
  have htext := superText_shown (dim ++ time ++ reset)
    (fun x => (themed fmt theme true).formatTime x none) hpieces hpainted.getMessage fun huse => by
      show (do let t ← (raising y.created).map _; _ : Except FormatError Str) = _
      rw [hpainted.created, show (raising x.created).map _ = _ from hsaid.2 huse]
      rfl
  rw [hpainted.tail] at htext
  rw [ScietexFormatter.text, show (themed fmt theme true).prepared x = .ok y from hy]
  exact htext

theorem Behind.imp {line line' text rest : Str} (h : Behind line text rest)
    (hlast : line.getLast? = some '\n' → line'.getLast? = some '\n') : Behind line' text rest := by
  unfold Behind at h ⊢
  by_cases hnil : text = []
  · rwa [if_pos hnil] at h ⊢
  · rw [if_neg hnil] at h ⊢
    exact h.imp id fun hline => ⟨hlast hline.1, hline.2⟩

/-- What is behind the line is shown in no style. -/
theorem shows_withTailText {line : Str} {shown : List (Char × Style)} (h : Shows line shown)
    (htail : esc ∉ tailText x) : ∃ rest, Behind line (tailText x) rest ∧
      Shows (withTailText x line) (shown ++ unstyled rest) := by
  unfold ScietexLogging.withTailText Behind onNewLine
  by_cases hnil : tailText x = []
  · refine ⟨[], by rw [if_pos hnil], ?_⟩
    rw [if_pos hnil, show unstyled [] = [] from rfl, List.append_nil]
    exact h
  · simp only [if_neg hnil]
    by_cases hlast : line.getLast? = some '\n'
    · rw [if_pos hlast]
      exact ⟨tailText x, .inr ⟨hlast, rfl⟩, h.append (.text htail)⟩
    · rw [if_neg hlast, List.append_assoc]
      refine ⟨'\n' :: tailText x, .inl rfl, h.append (.text ?_)⟩
      rw [List.singleton_append, List.mem_cons, not_or]
      exact ⟨by decide, htail⟩

theorem shownIn_of_format (hvalid : theme.palette.Valid)
    (hfmt : PlainFormat (fmt.getD ScietexFormatter.defaultFmt)) {h : Records} {r : Nat} {s : Str}
    (hclean : (h.record r).Clean) (hok : (((themed fmt theme true).format r).exec h).1 = .ok s) :
    ShownIn theme.palette.style (themed fmt theme true).pieces (h.record r) s := by
  obtain ⟨h', hexec, -⟩ := (themed fmt theme true).exec_format r h
  rw [hexec] at hok
  by_cases hsaid : ∃ message time, (h.record r).Says (themed fmt theme true).pieces message time
  · obtain ⟨message, time, hsaid⟩ := hsaid
    obtain ⟨time, hsaid, htime⟩ := hsaid.clean
    obtain ⟨line, htext, hshows, hlast⟩ := text_shows hvalid hfmt hclean hsaid htime
    obtain ⟨rest, hbehind, hall⟩ := shows_withTailText hshows hclean.tail
    obtain rfl := Except.ok.inj (htext.symm.trans hok)
    exact ⟨message, time, rest, hsaid, hbehind.imp hlast, hall.display⟩
  · have hnone : ∀ message time, ¬ (h.record r).Says (themed fmt theme true).pieces message time :=
      fun message time hm => hsaid ⟨message, time, hm⟩
    obtain ⟨e, hrefused, -⟩ := texts_refused hvalid hclean hnone
    exact absurd (hrefused.symm.trans hok) nofun

end Line

/-- **A terminal shows each piece in its colours**, for every theme of hex colours, format
and record without an escape: the time dim, the level bold in the colour of the level and
on a critical record's background, the name and the message in theirs. Nothing else is
styled: not what is between the fields, not the traceback or the stack behind the line. -/
theorem colored_shows (fmt : Option (List Piece)) (theme : LoggingTheme) (h : Records) (r : Nat)
    (s : Str) (hvalid : theme.palette.Valid) (hfmt : PlainFormat (fmt.getD ScietexFormatter.defaultFmt))
    (hclean : (h.record r).Clean) (hok : (((themed fmt theme true).format r).exec h).1 = .ok s) :
    ShownIn theme.palette.style (themed fmt theme true).pieces (h.record r) s :=
  shownIn_of_format hvalid hfmt hclean hok

/-- A critical record with a traceback, on the dark theme. -/
theorem colored_shows_critical :
    ShownIn scietexDark.palette.style (themed none scietexDark true).pieces
      (textRecord 50 "disk full".toList (some "Boom".toList))
      ("\x1b[2m2024-05-01T12:00:00+00:00\x1b[0m - \x1b[1m\x1b[38;2;255;255;255m\x1b[48;2;255;0;0mCRT" ++
        "\x1b[0m - [\x1b[38;2;255;219;28mapp\x1b[0m] - " ++
        "\x1b[38;2;255;255;255mdisk full\x1b[0m\nBoom").toList :=
  colored_shows none scietexDark (.one (textRecord 50 "disk full".toList (some "Boom".toList))) 0 _
    builtin_valid.2.2 (by decide) (textRecord_clean (by decide) (by decide)) (by decide +kernel)

end ScietexLogging
