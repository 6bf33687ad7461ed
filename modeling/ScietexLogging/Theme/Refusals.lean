import ScietexLogging.Color.Announced
import ScietexLogging.Color.Hex6
import ScietexLogging.Theme.Textual

/-!
# Theme — what a conversion raises

The conversion goes through the texts of a theme in a fixed order and raises what the
first one of them raises that is no colour. A `ColorParseError` is wrapped with the theme
and the slot; what the conversions behind the pattern raise is not.

* `conversion_raises` — what `from_textual_theme` raises, read off the theme alone;
* `colors_announced`  — the texts and the themes for which it is what was announced.
-/

namespace ScietexLogging

open Python Color

/-- What becomes of a text as a colour. -/
inductive Verdict where
  | fine
  | unmatched               -- by the pattern: a ColorParseError
  | foreign (e : ColorError)  -- raised behind the pattern
  deriving DecidableEq

/-- What a theme lacks. -/
inductive Missing where
  | ansiPalette
  | color (slot : Str)
  | ansiToken (token : Str)
  | ansiEntry (token : Str)

/-- A step of the conversion: nothing to read, something that is not there, a text, or
a text that is taken as it is. -/
inductive Reading where
  | nothing
  | missing (what : Missing)
  | text (slot raw : Str) (v : Verdict)
  | unread (raw : Str)

def Missing.error (theme : Str) : Missing → ThemeError
  | .ansiPalette => .ansiTheme theme
  | .color slot => .noColor theme slot
  | .ansiToken token => .ansiToken theme token
  | .ansiEntry token => .noEntry theme token

def Reading.failure (theme : Str) : Reading → Option ThemeError
  | .nothing => none
  | .missing what => some (what.error theme)
  | .text _ _ .fine => none
  | .text slot raw .unmatched => some (.unparseable theme slot raw)
  | .text _ _ (.foreign e) => some (.escaped e)
  | .unread _ => none

/-- Of a colour. -/
def verdict (raw : Str) : Verdict :=
  match recognized raw with
  | none => .unmatched
  | some (n, t) =>
    match convert n t with
    | .ok _ => .fine
    | .error e => .foreign e

/-- Of a `text-muted` token that is no ANSI token: the alpha of `auto` has to be a number,
and no nan. -/
def mutedVerdict (token : Str) : Verdict :=
  if isAuto token then
    if token = "auto".toList then .fine
    else
      match float ((token.drop 5).rdropWhile (· = '%')) with
      | none => .unmatched
      | some .nan => .foreign .nanToInt
      | some _ => .fine
  else verdict token

section

variable (t : TextualTheme) (ansiPalette : Option (Str → Option Str))

def TextualTheme.reading (slot : Slot) : Reading :=
  match t.given slot with
  | none => if slot = .primary then .missing (.color slot.key) else .nothing
  | some raw =>
    if isAnsi raw then
      match ansiPalette with
      | none => .missing (.ansiToken raw)
      | some palette => (palette raw).elim (.missing (.ansiEntry raw)) fun v => .text slot.key v (verdict v)
    else .text slot.key raw (verdict raw)

def TextualTheme.mutedReading : Reading :=
  let token := mutedToken t.vars
  if isAnsi token then
    match ansiPalette with
    | none => .missing (.ansiToken token)
    | some palette => (palette token).elim (.missing (.ansiEntry token)) .unread
  else .text "text-muted".toList token (mutedVerdict token)

def TextualTheme.ansiReading : Reading :=
  if t.ansi && ansiPalette.isNone then .missing .ansiPalette else .nothing

/-- The order of the conversion. -/
def slotOrder : List Slot :=
  [.primary, .secondary, .warning, .error, .success, .accent, .background, .foreground]

def TextualTheme.readings : List Reading :=
  t.ansiReading ansiPalette :: (slotOrder.map (t.reading ansiPalette) ++ [t.mutedReading ansiPalette])

end

/-- Some slot has a text that is no colour. -/
def HasMalformed (t : TextualTheme) (o : ThemeOptions) : Prop :=
  ∃ s ∈ t.readings o.ansiPalette, (∃ slot raw v, s = .text slot raw v ∧ v ≠ .fine) ∨
    ∃ raw, s = .unread raw ∧ verdict raw ≠ .fine

/-- The conversion raises a `ValueError` with the name of the theme, and with the slot and the
text of its first malformed colour. -/
def NamesSlot (lab : Color → ℚ → Int × Int × Int) (t : TextualTheme) (o : ThemeOptions) : Prop :=
  ∃ before slot raw v after, t.readings o.ansiPalette = before ++ .text slot raw v :: after ∧
    v ≠ .fine ∧ (∀ s ∈ before, s.failure (t.nameOr o.name) = none) ∧
    fromTextualTheme lab t o = .error (.unparseable (t.nameOr o.name) slot raw)

/-- The first of the texts that is no colour is not matched by the pattern, and nothing
is missing before it. -/
def FirstUnmatched (t : TextualTheme) (o : ThemeOptions) : Prop :=
  ∃ before slot raw after, t.readings o.ansiPalette = before ++ .text slot raw .unmatched :: after ∧
    ∀ s ∈ before, s.failure (t.nameOr o.name) = none

-- ---------------------------------------------------------------------------
-- One step
-- ---------------------------------------------------------------------------

theorem parseSlot_raises (raw theme slot : Str) :
    Raises (parseSlot raw theme slot) [(Reading.text slot raw (verdict raw)).failure theme] := by
  unfold parseSlot parse verdict
  cases hr : recognized raw with
  | none => exact .error rfl _
  | some p =>
    obtain ⟨n, t⟩ := p
    cases hc : convert n t with
    | ok c =>
      simp only [hc]
      exact .fine rfl
    | error e =>
      have hforeign : ∀ s, e ≠ .colorParse s := fun s hs => convert_foreign n t s (by rw [hc, hs])
      simp only [hc]
      cases e with
      | colorParse s => exact absurd rfl (hforeign s)
      | notNumber v => exact .error rfl _
      | unpack => exact .error rfl _
      | nanToInt => exact .error rfl _

theorem resolve_raises {t : TextualTheme} {slot : Slot} {fallback : Option Str} {theme : Str}
    {ansiPalette : Option (Str → Option Str)}
    (hfallback : match fallback with
      | none => slot = .primary
      | some f => slot ≠ .primary ∧ isAnsi f = false ∧ ∃ c, parse f = .ok c) :
    Raises (resolve t slot fallback theme ansiPalette) [(t.reading ansiPalette slot).failure theme] := by
  unfold resolve TextualTheme.reading
  cases hgiven : t.given slot with
  | none =>
    cases fallback with
    | none =>
      simp only [Option.or_self, if_pos (show slot = .primary from hfallback)]
      exact .error rfl _
    | some f =>
      obtain ⟨hslot, hansi, c, hc⟩ := hfallback
      simp only [Option.none_or, hansi, Bool.false_eq_true, if_false, if_neg hslot]
      refine .fine (a := c) ?_
      show parseSlot f theme slot.key = _
      rw [parseSlot, hc]
      rfl
  | some raw =>
    simp only [Option.some_or]
    cases hansi : isAnsi raw with
    | false =>
      simp only [Bool.false_eq_true, if_false]
      exact parseSlot_raises raw theme slot.key
    | true =>
      simp only [if_true]
      cases ansiPalette with
      | none => exact .error rfl _
      | some palette =>
        cases hv : palette raw with
        | none =>
          simp only [resolveAnsi, hv]
          exact .error rfl _
        | some v =>
          simp only [resolveAnsi, hv]
          exact parseSlot_raises v theme slot.key

/-- The colour, if there is one, has a number for its alpha. -/
def FiniteAlpha (m : Except ColorError Color) : Prop := ∀ c, m = .ok c → ∃ q, c.a = .finite q

theorem FiniteAlpha.bind {α : Type} {m : Except ColorError α} {f : α → Except ColorError Color}
    (hf : ∀ a, FiniteAlpha (f a)) : FiniteAlpha (m >>= f) := by
  intro c hc
  obtain ⟨a, -, ha⟩ := bind_eq_ok.mp hc
  exact hf a c ha

theorem FiniteAlpha.ok {c : Color} {q : ℚ} (h : c.a = .finite q) : FiniteAlpha (.ok c) := by
  intro d hd
  rw [← Except.ok.inj hd]
  exact ⟨q, h⟩

theorem FiniteAlpha.unpack : FiniteAlpha (.error .unpack) := fun _ h => by cases h

theorem convert_alpha (n : ColorForm) (t : Str) : FiniteAlpha (convert n t) := by
  have hhsl : ∀ h s l, FiniteAlpha (hslColor h s l) := fun _ _ _ =>
    .bind fun _ => .bind fun _ => .bind fun _ => .ok rfl
  unfold convert
  split
  · exact .bind fun _ => .bind fun _ => .bind fun _ => .ok rfl
  · exact .bind fun _ => .bind fun _ => .bind fun _ => .bind fun _ => .ok rfl
  · exact .bind fun _ => .bind fun _ => .bind fun _ => .ok rfl
  · exact .bind fun _ => .bind fun _ => .bind fun _ => .bind fun _ => .ok rfl
  · refine .bind fun qs => ?_
    split
    · exact .ok rfl
    · exact .unpack
  · refine .bind fun qs => ?_
    split
    · exact .ok rfl
    · exact .unpack
  · split
    · exact hhsl _ _ _
    · exact .unpack
  · split
    · exact .bind fun _ => .bind fun _ => .ok rfl
    · exact .unpack
  · exact .unpack

theorem flatten_raises {c : Color} (background : Color) (hnan : c.a ≠ .nan) :
    Raises (escaping (flatten c background)) [] := by
  have hok : ∃ s, flatten c background = .ok s := by
    unfold flatten blend
    cases ha : c.a with
    | nan => exact absurd ha hnan
    | infinite negative => cases negative <;> exact ⟨_, rfl⟩
    | finite q =>
      by_cases hge : (Number.finite q).ge 1 = true
      · rw [if_pos hge]
        exact ⟨_, rfl⟩
      · rw [if_neg hge]
        by_cases hle : (Number.finite q).le 0 = true
        · rw [if_pos hle]
          exact ⟨_, rfl⟩
        · rw [if_neg hle, if_neg hge]
          exact ⟨_, rfl⟩
  obtain ⟨s, hs⟩ := hok
  rw [hs]
  exact .ok s

theorem parseSlot_alpha {raw theme slot : Str} {c : Color} (h : parseSlot raw theme slot = .ok c) :
    c.a ≠ .nan := by
  unfold parseSlot parse at h
  cases hr : recognized raw with
  | none => rw [hr] at h; cases h
  | some p =>
    obtain ⟨n, t⟩ := p
    cases hc : convert n t with
    | error e =>
      simp only [hr, hc] at h
      split at h <;> cases h
    | ok d =>
      simp only [hr, hc] at h
      obtain rfl := Except.ok.inj h
      obtain ⟨q, hq⟩ := convert_alpha n t d hc
      rw [hq]
      exact fun h => by cases h

/-- `auto`, over any background. -/
theorem auto_raises (token theme : Str) (background : Color) (h : isAuto token = true) :
    Raises (do
        let alpha ← autoAlpha token theme
        escaping (flatten (background.getContrastText alpha) background))
      [(Reading.text "text-muted".toList token (mutedVerdict token)).failure theme] := by
  have hflatten : ∀ alpha : Number, alpha ≠ .nan →
      Raises (escaping (flatten (background.getContrastText alpha) background)) [] :=
    fun alpha hnan => flatten_raises background hnan
  unfold mutedVerdict autoAlpha
  rw [if_pos h]
  by_cases hplain : token = "auto".toList
  · rw [if_pos hplain, if_pos hplain]
    exact (Raises.fine rfl).bind fun a ha => hflatten a (by rw [← Except.ok.inj ha]; decide)
  · rw [if_neg hplain, if_neg hplain]
    cases float ((token.drop 5).rdropWhile (· = '%')) with
    | none => exact .error rfl _
    | some x =>
      cases x with
      | finite q | infinite b =>
        refine (Raises.fine rfl).bind fun a ha => hflatten a ?_
        rw [← Except.ok.inj ha]
        exact fun h => by cases h
      | nan => exact .error rfl _

theorem textMuted_raises (t : TextualTheme) (background : Color) (theme : Str)
    (ansiPalette : Option (Str → Option Str)) :
    Raises (textMuted t.vars background theme ansiPalette) [(t.mutedReading ansiPalette).failure theme] := by
  unfold textMuted TextualTheme.mutedReading
  simp only
  generalize mutedToken t.vars = token
  cases hansi : isAnsi token with
  | true =>
    simp only [if_true]
    cases ansiPalette with
    | none => exact .error rfl _
    | some palette =>
      cases hv : palette token with
      | none =>
        simp only [resolveAnsi, hv]
        exact .error rfl _
      | some v =>
        simp only [resolveAnsi, hv]
        exact .fine rfl
  | false =>
    simp only [Bool.false_eq_true, if_false]
    cases hauto : isAuto token with
    | false =>
      simp only [Bool.false_eq_true, if_false, mutedVerdict, hauto]
      exact (parseSlot_raises token theme _).bind fun c hc => flatten_raises background (parseSlot_alpha hc)
    | true =>
      simp only [if_true]
      exact auto_raises token theme background hauto

-- ---------------------------------------------------------------------------
-- The conversion
-- ---------------------------------------------------------------------------

theorem isAnsi_hex6 (c : Color) : isAnsi c.hex6 = false := rfl

theorem baseColors_raises (lab : Color → ℚ → Int × Int × Int) (t : TextualTheme) (theme : Str)
    (ansiPalette : Option (Str → Option Str)) :
    Raises (baseColors lab t theme ansiPalette)
      ((slotOrder.map (t.reading ansiPalette)).map (Reading.failure theme)) := by
  have hwritten : ∀ (slot : Slot) (c : Color), slot ≠ .primary →
      Raises (resolve t slot (some c.hex6) theme ansiPalette) [(t.reading ansiPalette slot).failure theme] :=
    fun slot c hslot => resolve_raises ⟨hslot, isAnsi_hex6 c, _, parse_hex6 c⟩
  have hdefault : Raises (resolve t .background
      (some (if t.dark then defaultDarkBackground else defaultLightBackground)) theme ansiPalette)
      [(t.reading ansiPalette .background).failure theme] := by
    refine resolve_raises ?_
    cases t.dark with
    | true => exact ⟨by decide, rfl, ⟨0x12, 0x12, 0x12, .finite 1⟩, rfl⟩
    | false => exact ⟨by decide, rfl, ⟨0xef, 0xef, 0xef, .finite 1⟩, rfl⟩
  unfold baseColors
  exact (resolve_raises rfl).bind fun p _ => (hwritten .secondary _ (by decide)).bind fun s _ =>
    (hwritten .warning _ (by decide)).bind fun w _ => (hwritten .error _ (by decide)).bind fun e _ =>
    (hwritten .success _ (by decide)).bind fun u _ => (hwritten .accent _ (by decide)).bind fun a _ =>
    hdefault.bind fun b _ => (hwritten .foreground _ (by decide)).bind fun f _ => .ok _

/-- `from_textual_theme` raises what the first reading raises that fails, whatever
`lighten` and `darken` do. -/
theorem conversion_raises (lab : Color → ℚ → Int × Int × Int) (t : TextualTheme) (o : ThemeOptions) :
    Raises (fromTextualTheme lab t o)
      ((t.readings o.ansiPalette).map (Reading.failure (t.nameOr o.name))) := by
  unfold fromTextualTheme TextualTheme.readings TextualTheme.ansiReading
  rw [List.map_cons, List.map_append]
  simp only
  split
  · exact .error rfl _
  · have hrun := (baseColors_raises lab t (t.nameOr o.name) o.ansiPalette).bind fun c _ =>
      (textMuted_raises t c.background (t.nameOr o.name) o.ansiPalette).bind fun debug _ =>
        Raises.ok ({ name := t.nameOr o.name, palette := c.palette lab t o debug, color := o.color } :
          LoggingTheme)
    exact hrun

theorem namesSlot_iff (lab : Color → ℚ → Int × Int × Int) (t : TextualTheme) (o : ThemeOptions) :
    NamesSlot lab t o ↔ FirstUnmatched t o := by
  have hfirst : ∀ e, fromTextualTheme lab t o = .error e ↔
      ∃ before s after, t.readings o.ansiPalette = before ++ s :: after ∧
        s.failure (t.nameOr o.name) = some e ∧ ∀ s ∈ before, s.failure (t.nameOr o.name) = none := by
    intro e
    rw [(conversion_raises lab t o).error_iff, firstFailure, List.findSome?_map,
      List.findSome?_eq_some_iff]
    rfl
  constructor
  · rintro ⟨before, slot, raw, v, after, hreadings, hv, hbefore, hraised⟩
    have hthis : ∀ e, (Reading.text slot raw v).failure (t.nameOr o.name) = some e →
        ThemeError.unparseable (t.nameOr o.name) slot raw = e := fun e he =>
      Except.error.inj (hraised.symm.trans ((hfirst e).mpr ⟨before, _, after, hreadings, he, hbefore⟩))
    cases v with
    | fine => exact absurd rfl hv
    | foreign e => cases hthis _ rfl
    | unmatched => exact ⟨before, slot, raw, after, hreadings, hbefore⟩
  · rintro ⟨before, slot, raw, after, hreadings, hbefore⟩
    exact ⟨before, slot, raw, .unmatched, after, hreadings, by decide, hbefore,
      (hfirst _).mpr ⟨before, _, after, hreadings, rfl, hbefore⟩⟩

/-- **Colour parsing fails only in the announced way** for a text if and only if what the
pattern lets through converts; and a theme with a malformed colour is refused by the names
of theme and slot, those of its first malformed colour, if and only if the pattern refuses it. -/
theorem colors_announced (text : List Char) (lab : Color → ℚ → Int × Int × Int) (t : TextualTheme)
    (o : ThemeOptions) :
    (Announced text ↔ Converts text) ∧
      ((HasMalformed t o → NamesSlot lab t o) ↔ (HasMalformed t o → FirstUnmatched t o)) :=
  ⟨parse_announced text, by rw [namesSlot_iff]⟩

/-- A dot is no hue: what `float` raises of it leaves the conversion of a theme as it is. -/
theorem colors_escaping : (¬ ∀ text, Announced text) ∧
    ¬ ∀ (lab : Color → ℚ → Int × Int × Int) (t : TextualTheme) (o : ThemeOptions),
      HasMalformed t o → NamesSlot lab t o := by
  constructor
  · intro hall
    have hparse : parse "hsl(., 1, 1)".toList = .error (.notNumber ".".toList) := by rfl
    rcases hall "hsl(., 1, 1)".toList with ⟨c, hc, -⟩ | h
    · rw [hparse] at hc
      cases hc
    · rw [hparse] at h
      cases h
  · intro hall
    have hmalformed : HasMalformed (smallTheme "hsl(., 1, 1)".toList none) {} :=
      ⟨.text "primary".toList "hsl(., 1, 1)".toList (.foreign (.notNumber ".".toList)),
        List.mem_cons_of_mem _ (List.mem_cons_self ..), .inl ⟨_, _, _, rfl, fun h => by cases h⟩⟩
    have hraised : fromTextualTheme labTable (smallTheme "hsl(., 1, 1)".toList none) {} =
        .error (.escaped (.notNumber ".".toList)) := by rfl
    obtain ⟨-, slot, raw, -, -, -, -, -, h⟩ := hall labTable _ {} hmalformed
    rw [hraised] at h
    cases h

end ScietexLogging
