import ScietexLogging.Color.Hex6
import ScietexLogging.Formatter.Removable
import ScietexLogging.Theme.Textual

/-!
# Theme — can a converted theme be painted?

Eight of the nine slots of a converted palette are written by `hex6`. The debug slot is,
too, unless `text-muted` is an ANSI token: then it is the text that the caller's
`ansi_palette` has for the token, whatever that is.

* `textMuted_hexForm` — the debug slot;
* `converted_paintable` — the palette of a conversion that returns can be painted, unless
  that text is something else than `#` and six hex digits.
-/

namespace ScietexLogging

open Posix Python Color

/-- The nine slots that the conversion sets. -/
def Palette.slots (p : Palette) : List (Option Str) :=
  [some p.background, some p.foreground, p.debug, p.info, p.warning, p.error, p.critical,
    p.criticalBg, p.loggerName]

def AllHex (p : Palette) : Prop := ∀ c ∈ p.slots, ∃ s, c = some s ∧ HexForm s

/-- With this theme and colour on, no record makes `format` raise because of a colour. -/
def Paintable (theme : LoggingTheme) : Prop :=
  ∀ (fmt : Option (List Piece)) (datefmt : Option Str) (h : Records) (r : Nat) (e : InvalidHex),
    ((ScietexFormatter.format { fmt, datefmt, theme := some theme, color := some true } r).exec h).1 ≠
      .error (.palette e)

/-- What the ANSI palette has for `text-muted` is `#` and six hex digits, if the token is
an ANSI token at all. -/
def MutedHex (t : TextualTheme) (o : ThemeOptions) : Prop :=
  isAnsi (mutedToken t.vars) = true → ∀ palette v, o.ansiPalette = some palette →
    palette (mutedToken t.vars) = some v → HexForm v

-- ---------------------------------------------------------------------------
-- The debug slot
-- ---------------------------------------------------------------------------

theorem flatten_hexForm {c background : Color} {s : Str} (h : flatten c background = .ok s) :
    HexForm s := by
  unfold flatten at h
  split at h
  · rw [← Except.ok.inj h]
    exact hexForm_hex6 c
  · cases hb : c.blend background c.a (.finite 1) with
    | error e => rw [hb] at h; cases h
    | ok b =>
      rw [hb] at h
      rw [← Except.ok.inj h]
      exact hexForm_hex6 b

theorem escaping_ok {α : Type} {m : Except ColorError α} {a : α} (h : escaping m = .ok a) :
    m = .ok a := by
  cases m with
  | error e => cases h
  | ok b => rw [Except.ok.inj h]

/-- The debug slot is composited, or what the ANSI palette has for the token. -/
theorem textMuted_ok {vars : Str → Option Str} {background : Color} {theme s : Str}
    {ansiPalette : Option (Str → Option Str)} (h : textMuted vars background theme ansiPalette = .ok s) :
    if isAnsi (mutedToken vars) then ∃ palette, ansiPalette = some palette ∧ palette (mutedToken vars) = some s
    else HexForm s := by
  unfold textMuted at h
  simp only at h
  split
  · rename_i hansi
    rw [if_pos hansi] at h
    cases ansiPalette with
    | none => cases h
    | some palette =>
      refine ⟨palette, rfl, ?_⟩
      rw [resolveAnsi] at h
      cases hv : palette (mutedToken vars) with
      | none => rw [hv] at h; cases h
      | some v => rw [hv] at h; rw [Except.ok.inj h]
  · rename_i hansi
    rw [if_neg hansi] at h
    split at h
    · obtain ⟨alpha, -, h⟩ := bind_eq_ok.mp h
      exact flatten_hexForm (escaping_ok h)
    · obtain ⟨c, -, h⟩ := bind_eq_ok.mp h
      exact flatten_hexForm (escaping_ok h)

-- ---------------------------------------------------------------------------
-- Painting
-- ---------------------------------------------------------------------------

theorem AllHex.valid {p : Palette} (h : AllHex p) : p.Valid := by
  intro c hc s hs
  have hslot : c ∈ p.slots := by
    simp only [Palette.painted, List.mem_cons, List.not_mem_nil, or_false] at hc
    simp only [Palette.slots, List.mem_cons, List.not_mem_nil, or_false]
    tauto
  obtain ⟨s', hs', hform⟩ := h c hslot
  rw [Option.some.inj (hs.symm.trans hs')]
  exact hform.hexColor

/-- It raises nothing because of a colour. -/
def Colorless {α : Type} (m : Except FormatError α) : Prop := ∀ i, m ≠ .error (.palette i)

theorem Colorless.ok {α : Type} (a : α) : Colorless (.ok a) := fun _ h => by cases h

theorem Colorless.bind {α β : Type} {m : Except FormatError α} {f : α → Except FormatError β}
    (hm : Colorless m) (hf : ∀ a, m = .ok a → Colorless (f a)) : Colorless (m >>= f) := by
  cases m with
  | ok a => exact hf a rfl
  | error e =>
    intro i h
    rw [show e = .palette i from Except.error.inj h] at hm
    exact hm i rfl

theorem Colorless.map {α β : Type} {m : Except FormatError α} (hm : Colorless m) (f : α → β) :
    Colorless (m.map f) := by
  cases m with
  | ok a => exact .ok _
  | error e =>
    intro i h
    rw [show e = .palette i from Except.error.inj h] at hm
    exact hm i rfl

theorem colorless_raising {α : Type} (m : Except String α) : Colorless (raising m) := by
  cases m with
  | ok a => exact .ok a
  | error s => exact fun _ h => by cases h

theorem colorless_getMessage (x : Record) : Colorless x.getMessage := by
  have hstr : Colorless x.msg.str := by
    unfold Msg.str
    split
    · exact .ok _
    · exact .ok _
    · exact fun _ h => by cases h
  refine hstr.bind fun msg _ => ?_
  split
  · exact colorless_raising _
  · exact .ok msg

theorem colorless_formatTime (f : ScietexFormatter) (x : Record) (datefmt : Option Str) :
    Colorless (f.formatTime x datefmt) := by
  cases datefmt with
  | none => exact ((colorless_raising x.created).map _).bind fun _ _ => .ok _
  | some datefmt => exact (colorless_raising _).bind fun _ _ => .ok _

theorem colorless_field (x : Record) (field : Field) : Colorless (x.field field) := by
  have hset : ∀ (o : Option Str) key, Colorless (o.elim (.error (.missing key)) .ok) := by
    intro o key
    cases o with
    | none => exact fun _ h => by cases h
    | some s => exact .ok s
  cases field with
  | asctime => exact hset _ _
  | levelname => exact .ok _
  | name => exact .ok _
  | message => exact hset _ _
  | other key => exact hset _ _

theorem colorless_formatMessage (fmt : List Piece) (x : Record) : Colorless (formatMessage fmt x) := by
  induction fmt with
  | nil => exact .ok []
  | cons p ps ih =>
    have hp : Colorless (x.piece p) := by
      cases p with
      | literal text => exact .ok text
      | field f => exact colorless_field x f
    exact hp.bind fun _ _ => ih.bind fun _ _ => .ok _

theorem colorless_superText (fmt : List Piece) {formatTime : Record → Except FormatError Str}
    (htime : ∀ x, Colorless (formatTime x)) (x : Record) : Colorless (superText fmt formatTime x) := by
  refine (colorless_getMessage x).bind fun message _ => Colorless.bind ?_ fun y _ =>
    (colorless_formatMessage fmt y).bind fun _ _ => .ok _
  unfold stamped
  split
  · exact (htime _).map _
  · exact .ok _

/-- With a valid palette the copy of a record is painted, or its message raises. -/
theorem colorless_painted {f : ScietexFormatter} (hvalid : f.usedTheme.palette.Valid) (x : Record) :
    Colorless (f.painted x) := by
  cases hmessage : x.getMessage with
  | error e =>
    have hpainted : f.painted x = .error e := by
      rw [ScietexFormatter.painted, hmessage]
      rfl
    rw [hpainted]
    intro i hi
    rw [Except.error.inj hi] at hmessage
    exact colorless_getMessage x i hmessage
  | ok message =>
    obtain ⟨ps, hpaint, -⟩ := paint_prefixes hvalid.foreground false not_set
    obtain ⟨ps', hpaint', -⟩ := paint_prefixes (fun s hs => hvalid.levelColor hs) true
      (hvalid.background x.levelno)
    obtain ⟨ps'', hpaint'', -⟩ := paint_prefixes hvalid.loggerName false not_set
    rw [painted_paints hmessage (hpaint message) (hpaint' _) (hpaint'' x.name)]
    exact .ok _

theorem Palette.Valid.paintable {theme : LoggingTheme} (h : theme.palette.Valid) :
    Paintable theme := by
  intro fmt datefmt records r e
  let f : ScietexFormatter := { fmt, datefmt, theme := some theme, color := some true }
  obtain ⟨h', hexec, -⟩ := f.exec_format r records
  have hpainted : Colorless (f.painted (records.record r)) := colorless_painted (f := f) h _
  show ((f.format r).exec records).1 ≠ _
  rw [hexec]
  exact hpainted.bind (fun y _ => colorless_superText _ (fun x => colorless_formatTime f x _) y) e

-- ---------------------------------------------------------------------------
-- The palette
-- ---------------------------------------------------------------------------

variable (lab : Color → ℚ → Int × Int × Int)

/-- **A converted theme can be painted**, for every theme and every set of options with
which the conversion returns, unless `text-muted` is an ANSI token for which the caller's
palette has something else than `#` and six hex digits. -/
theorem converted_paintable (t : TextualTheme) (o : ThemeOptions) (T : LoggingTheme)
    (h : fromTextualTheme lab t o = .ok T) :
    (AllHex T.palette ∧ Paintable T) ↔ MutedHex t o := by
  obtain ⟨c, debug, -, hdebug, rfl⟩ := fromTextualTheme_ok lab h
  have hmuted := textMuted_ok hdebug
  have hall : AllHex (c.palette lab t o debug) ↔ HexForm debug := by
    constructor
    · intro hall
      obtain ⟨s, hs, hform⟩ := hall (some debug) (by simp [Palette.slots, BaseColors.palette])
      rwa [Option.some.inj hs]
    · intro hform c hc
      simp only [Palette.slots, BaseColors.palette, List.mem_cons, List.not_mem_nil, or_false] at hc
      rcases hc with rfl | rfl | rfl | rfl | rfl | rfl | rfl | rfl | rfl
      · exact ⟨_, rfl, hexForm_hex6 _⟩
      · exact ⟨_, rfl, hexForm_hex6 _⟩
      · exact ⟨_, rfl, hform⟩
      · exact ⟨_, rfl, hexForm_hex6 _⟩
      · exact ⟨_, rfl, hexForm_hex6 _⟩
      · exact ⟨_, rfl, hexForm_hex6 _⟩
      · exact ⟨_, rfl, hexForm_hex6 _⟩
      · exact ⟨_, rfl, hexForm_hex6 _⟩
      · exact ⟨_, rfl, hexForm_hex6 _⟩
  have hcond : HexForm debug ↔ MutedHex t o := by
    unfold MutedHex
    split at hmuted
    · rename_i hansi
      obtain ⟨palette, hpalette, hv⟩ := hmuted
      constructor
      · intro hform _ palette' v hpalette' hv'
        obtain rfl := Option.some.inj (hpalette.symm.trans hpalette')
        rwa [← Option.some.inj (hv.symm.trans hv')]
      · exact fun hmuted => hmuted hansi palette debug hpalette hv
    · rename_i hansi
      exact iff_of_true hmuted fun h => absurd h hansi
  rw [hall, hcond, and_iff_left_iff_imp]
  exact fun hmuted => (hall.mpr (hcond.mpr hmuted)).valid.paintable

/-- An ANSI palette of one entry. -/
def blackOptions (black : Str) : ThemeOptions where
  ansiPalette := some fun token => if token = "ansi_black".toList then some black else none

/-- With a hex colour for `ansi_black`. -/
theorem converted_paintable_black :
    ∃ T, fromTextualTheme labTable (smallTheme "#0178D4".toList (some "ansi_black".toList))
        (blackOptions "#101010".toList) = .ok T ∧
      ((AllHex T.palette ∧ Paintable T) ↔
        MutedHex (smallTheme "#0178D4".toList (some "ansi_black".toList)) (blackOptions "#101010".toList)) :=
  ⟨_, rfl, converted_paintable labTable _ _ _ rfl⟩

/-- With a name for it. -/
theorem converted_black_name : ¬ ∀ (lab : Color → ℚ → Int × Int × Int) (t : TextualTheme)
    (o : ThemeOptions) (T : LoggingTheme), fromTextualTheme lab t o = .ok T →
      AllHex T.palette ∧ Paintable T := by
  intro hall
  obtain ⟨s, hs, ds, hds, -⟩ := (hall labTable (smallTheme "#0178D4".toList (some "ansi_black".toList))
    (blackOptions "black".toList) _ rfl).1 (some "black".toList)
    (List.mem_cons_of_mem _ (List.mem_cons_of_mem _ (List.mem_cons_self ..)))
  rw [hds] at hs
  exact absurd (List.cons.inj (Option.some.inj hs)).1 (by decide)

end ScietexLogging
