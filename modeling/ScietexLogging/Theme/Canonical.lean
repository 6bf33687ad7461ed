import ScietexLogging.Color.Hex6
import ScietexLogging.Theme.Textual

/-!
# Theme — canonical colours

Every base colour goes through `lighten(0)`, which is not the identity. A colour that the
theme omits is resolved from one that has been through it already, so it goes through it
again, once for each link of its fallback.

* `baseColors_hex` — the base colours, for a theme of opaque hex colours;
* `canonical_once` — each emitted slot is the raw colour through it once, if and only if
                     `lighten(0)` is steady along the fallbacks that the theme uses.
-/

namespace ScietexLogging

open Python Color

/-- The colour that a theme gives for a slot. -/
def TextualTheme.parsed (t : TextualTheme) (slot : Slot) : Option Color :=
  (t.given slot).bind fun raw => (parse raw).toOption

def TextualTheme.defaultBackground (t : TextualTheme) : Color :=
  if t.dark then ⟨0x12, 0x12, 0x12, .finite 1⟩ else ⟨0xef, 0xef, 0xef, .finite 1⟩

/-- The raw colour of a slot: the one that the theme gives or the raw colour of its
fallback. -/
def TextualTheme.raw (t : TextualTheme) : Slot → Option Color
  | .primary => t.parsed .primary
  | .secondary => (t.parsed .secondary).or (t.parsed .primary)
  | .warning => (t.parsed .warning).or (t.parsed .primary)
  | .error => (t.parsed .error).or ((t.parsed .secondary).or (t.parsed .primary))
  | .success => (t.parsed .success).or ((t.parsed .secondary).or (t.parsed .primary))
  | .accent => (t.parsed .accent).or (t.parsed .primary)
  | .background => some ((t.parsed .background).getD t.defaultBackground)
  | .foreground => (t.parsed .foreground).or
      (some ((t.parsed .background).getD t.defaultBackground).inverse)

/-- What the palette has of the base colours. -/
def Palette.emitted (p : Palette) : Slot → Option Str
  | .primary => none
  | .secondary => none
  | .warning => p.warning
  | .error => p.error
  | .success => p.info
  | .accent => p.loggerName
  | .background => some p.background
  | .foreground => some p.foreground

/-- An opaque hex colour. -/
def OpaqueHex (raw : Str) : Prop := ∃ c, raw.head? = some '#' ∧ parse raw = .ok c ∧ c.Solid

/-- The colours that the theme gives are opaque hex colours. -/
def HexTheme (t : TextualTheme) : Prop := ∀ slot raw, t.given slot = some raw → OpaqueHex raw

variable (lab : Color → ℚ → Int × Int × Int)

/-- The slots of the palette are the raw colours, made canonical once. -/
def CanonicalOnce (t : TextualTheme) (p : Palette) : Prop :=
  ∀ slot s, p.emitted slot = some s → ∃ c, t.raw slot = some c ∧ s = (canonical lab c).hex6

/-- Going through it again changes nothing, along the fallbacks of the slots that the
theme omits. -/
structure Steady (t : TextualTheme) (p : Color) : Prop where
  primary : t.given .warning = none ∨ t.given .accent = none →
    canonical lab (canonical lab p) = canonical lab p
  secondary : t.given .error = none ∨ t.given .success = none →
    ∀ s, t.parsed .secondary = some s → canonical lab (canonical lab s) = canonical lab s
  omitted : t.given .error = none ∨ t.given .success = none → t.given .secondary = none →
    canonical lab (canonical lab (canonical lab p)) = canonical lab p
  background : t.given .foreground = none → ∀ b, t.raw .background = some b →
    canonical lab (canonical lab b).inverse = canonical lab b.inverse

-- ---------------------------------------------------------------------------
-- Resolving
-- ---------------------------------------------------------------------------

theorem HexTheme.parsed {t : TextualTheme} (h : HexTheme t) (slot : Slot) :
    t.given slot = none ∧ t.parsed slot = none ∨
      ∃ raw c, t.given slot = some raw ∧ t.parsed slot = some c ∧ isAnsi raw = false ∧
        parse raw = .ok c ∧ c.Solid := by
  unfold TextualTheme.parsed
  cases hraw : t.given slot with
  | none => exact .inl ⟨rfl, rfl⟩
  | some raw =>
    obtain ⟨c, hhash, hparse, hsolid⟩ := h slot raw hraw
    refine .inr ⟨raw, c, rfl, ?_, ?_, hparse, hsolid⟩
    · show (parse raw).toOption = some c
      rw [hparse]
      rfl
    · cases raw with
      | nil => rfl
      | cons d ds =>
        rw [Option.some.inj hhash]
        rfl

theorem parseSlot_ok {raw theme slot : Str} {c : Color} (h : parse raw = .ok c) :
    parseSlot raw theme slot = .ok c := by
  rw [parseSlot, h]
  rfl

/-- A colour that is given, or the one that the fallback is written from. -/
theorem resolve_hex {t : TextualTheme} (h : HexTheme t) {slot : Slot} {fallback theme : Str}
    {ansiPalette : Option (Str → Option Str)} {x : Color} (hhash : fallback.head? = some '#')
    (hx : parse fallback = .ok x) :
    resolve t slot (some fallback) theme ansiPalette = .ok ((t.parsed slot).getD x) := by
  unfold resolve
  rcases h.parsed slot with ⟨hgiven, hparsed⟩ | ⟨raw, c, hgiven, hparsed, hansi, hparse, -⟩
  · have hansi : isAnsi fallback = false := by
      cases fallback with
      | nil => rfl
      | cons d ds =>
        rw [Option.some.inj hhash]
        rfl
    rw [hgiven, hparsed]
    simp only [Option.none_or, hansi, Bool.false_eq_true, if_false]
    exact parseSlot_ok hx
  · rw [hgiven, hparsed]
    simp only [Option.some_or, hansi, Bool.false_eq_true, if_false]
    exact parseSlot_ok hparse

theorem parse_hex6_of {c : Color} (h : c.InRange) (hsolid : c.Solid) : parse c.hex6 = .ok c := by
  rw [parse_hex6]
  simp only [clamped, clampByte_of_range h.1, clampByte_of_range h.2.1, clampByte_of_range h.2.2]
  rw [← show c.a = .finite 1 from hsolid]

theorem canonical_inRange (c : Color) : (canonical lab c).InRange := darken_inRange lab c _

theorem canonical_solid {c : Color} (h : c.Solid) : (canonical lab c).Solid := h.darken _

theorem HexTheme.solid {t : TextualTheme} (h : HexTheme t) (slot : Slot) {x : Color} (hx : x.Solid) :
    ((t.parsed slot).getD x).Solid := by
  rcases h.parsed slot with ⟨-, hparsed⟩ | ⟨raw, c, -, hparsed, -, -, hsolid⟩
  · rw [hparsed]
    exact hx
  · rw [hparsed]
    exact hsolid

theorem resolve_hex6 {t : TextualTheme} (h : HexTheme t) {slot : Slot} {theme : Str}
    {ansiPalette : Option (Str → Option Str)} {x : Color} (hin : x.InRange) (hx : x.Solid) :
    resolve t slot (some x.hex6) theme ansiPalette = .ok ((t.parsed slot).getD x) :=
  resolve_hex h rfl (parse_hex6_of hin hx)

theorem resolve_background {t : TextualTheme} (h : HexTheme t) {theme : Str}
    {ansiPalette : Option (Str → Option Str)} :
    resolve t .background (some (if t.dark then defaultDarkBackground else defaultLightBackground))
      theme ansiPalette = .ok ((t.parsed .background).getD t.defaultBackground) := by
  cases hdark : t.dark with
  | true =>
    refine resolve_hex h rfl ?_
    rw [TextualTheme.defaultBackground, hdark]
    rfl
  | false =>
    refine resolve_hex h rfl ?_
    rw [TextualTheme.defaultBackground, hdark]
    rfl

/-- The base colours of a theme with the primary colour `p`. -/
structure BaseHex (t : TextualTheme) (p : Color) (c : BaseColors) : Prop where
  parsed : t.parsed .primary = some p
  primary : c.primary = canonical lab p
  secondary : c.secondary = canonical lab ((t.parsed .secondary).getD c.primary)
  warning : c.warning = canonical lab ((t.parsed .warning).getD c.primary)
  error : c.error = canonical lab ((t.parsed .error).getD c.secondary)
  success : c.success = canonical lab ((t.parsed .success).getD c.secondary)
  accent : c.accent = canonical lab ((t.parsed .accent).getD c.primary)
  background : c.background = canonical lab ((t.parsed .background).getD t.defaultBackground)
  foreground : c.foreground = canonical lab ((t.parsed .foreground).getD c.background.inverse)

theorem defaultBackground_solid (t : TextualTheme) : t.defaultBackground.Solid := by
  unfold TextualTheme.defaultBackground
  split
  · rfl
  · rfl

/-- A theme with no primary colour is not converted. -/
theorem resolve_primary {t : TextualTheme} (ht : HexTheme t) {theme : Str}
    {ansiPalette : Option (Str → Option Str)} {p : Color}
    (h : resolve t .primary none theme ansiPalette = .ok p) :
    t.parsed .primary = some p ∧ p.Solid := by
  unfold resolve at h
  rcases ht.parsed .primary with ⟨hgiven, -⟩ | ⟨raw, c, hgiven, hparsed, hansi, hparse, hsolid⟩
  · rw [hgiven] at h
    cases h
  · rw [hgiven] at h
    simp only [Option.some_or, hansi, Bool.false_eq_true, if_false] at h
    have heq : c = p := Except.ok.inj ((parseSlot_ok hparse).symm.trans h)
    rw [← heq]
    exact ⟨hparsed, hsolid⟩

theorem baseColors_hex {t : TextualTheme} (ht : HexTheme t) {theme : Str}
    {ansiPalette : Option (Str → Option Str)} {c : BaseColors}
    (h : baseColors lab t theme ansiPalette = .ok c) : ∃ p, p.Solid ∧ BaseHex lab t p c := by
  unfold baseColors at h
  obtain ⟨p, hp, h⟩ := bind_eq_ok.mp h
  obtain ⟨s, hs, h⟩ := bind_eq_ok.mp h
  obtain ⟨w, hw, h⟩ := bind_eq_ok.mp h
  obtain ⟨e, he, h⟩ := bind_eq_ok.mp h
  obtain ⟨u, hu, h⟩ := bind_eq_ok.mp h
  obtain ⟨a, ha, h⟩ := bind_eq_ok.mp h
  obtain ⟨b, hb, h⟩ := bind_eq_ok.mp h
  obtain ⟨f, hf, h⟩ := bind_eq_ok.mp h
  obtain ⟨hparsed, hsolid⟩ := resolve_primary ht hp
  -- each was resolved from colours that are in range and opaque
  have hprimary := canonical_solid lab hsolid
  have hcp := canonical_inRange lab p
  obtain rfl := Except.ok.inj ((resolve_hex6 ht hcp hprimary).symm.trans hs)
  have hsecondary := canonical_solid lab (ht.solid .secondary hprimary)
  have hcs := canonical_inRange lab ((t.parsed .secondary).getD (canonical lab p))
  obtain rfl := Except.ok.inj ((resolve_background ht).symm.trans hb)
  have hbackground := canonical_solid lab (ht.solid .background (defaultBackground_solid t))
  have hcb := canonical_inRange lab ((t.parsed .background).getD t.defaultBackground)
  obtain rfl := Except.ok.inj ((resolve_hex6 ht hcp hprimary).symm.trans hw)
  obtain rfl := Except.ok.inj ((resolve_hex6 ht hcs hsecondary).symm.trans he)
  obtain rfl := Except.ok.inj ((resolve_hex6 ht hcs hsecondary).symm.trans hu)
  obtain rfl := Except.ok.inj ((resolve_hex6 ht hcp hprimary).symm.trans ha)
  obtain rfl := Except.ok.inj ((resolve_hex6 ht hcb.inverse hbackground).symm.trans hf)
  obtain rfl := Except.ok.inj h
  exact ⟨p, hsolid, hparsed, rfl, rfl, rfl, rfl, rfl, rfl, rfl, rfl⟩

-- ---------------------------------------------------------------------------
-- Once
-- ---------------------------------------------------------------------------

/-- Canonical colours that are written alike are the same. -/
theorem canonical_hex6_inj {c d : Color} (hc : c.Solid) (hd : d.Solid) :
    (canonical lab c).hex6 = (canonical lab d).hex6 ↔ canonical lab c = canonical lab d := by
  refine ⟨fun h => ?_, fun h => by rw [h]⟩
  have hread := congrArg parse h
  rw [parse_hex6_of (canonical_inRange lab c) (canonical_solid lab hc),
    parse_hex6_of (canonical_inRange lab d) (canonical_solid lab hd)] at hread
  exact Except.ok.inj hread

/-- A slot with its fallback `x` and its raw fallback `y`. -/
theorem slot_once_iff {t : TextualTheme} (ht : HexTheme t) (slot : Slot) {x y : Color} (hx : x.Solid)
    (hy : y.Solid) :
    (canonical lab ((t.parsed slot).getD x)).hex6 = (canonical lab ((t.parsed slot).getD y)).hex6 ↔
      (t.given slot = none → canonical lab x = canonical lab y) := by
  rw [canonical_hex6_inj lab (ht.solid slot hx) (ht.solid slot hy)]
  rcases ht.parsed slot with ⟨hgiven, hparsed⟩ | ⟨raw, c, hgiven, hparsed, -⟩
  · rw [hgiven, hparsed]
    exact ⟨fun h _ => h, fun h => h rfl⟩
  · rw [hgiven, hparsed]
    exact ⟨fun _ h => (by cases h), fun _ => rfl⟩

/-- The six slots of the palette. -/
theorem canonicalOnce_iff {t : TextualTheme} {p : Color} {c : BaseColors} (h : BaseHex lab t p c)
    (o : ThemeOptions) (debug : Str) :
    CanonicalOnce lab t (c.palette lab t o debug) ↔
      c.warning.hex6 = (canonical lab ((t.parsed .warning).getD p)).hex6 ∧
      c.accent.hex6 = (canonical lab ((t.parsed .accent).getD p)).hex6 ∧
      c.error.hex6 = (canonical lab ((t.parsed .error).getD ((t.parsed .secondary).getD p))).hex6 ∧
      c.success.hex6 = (canonical lab ((t.parsed .success).getD ((t.parsed .secondary).getD p))).hex6 ∧
      c.foreground.hex6 = (canonical lab ((t.parsed .foreground).getD
        ((t.parsed .background).getD t.defaultBackground).inverse)).hex6 := by
  have hslot : ∀ slot s c', (c.palette lab t o debug).emitted slot = some s → t.raw slot = some c' →
      ((∀ s', (c.palette lab t o debug).emitted slot = some s' →
        ∃ c, t.raw slot = some c ∧ s' = (canonical lab c).hex6) ↔ s = (canonical lab c').hex6) := by
    intro slot s c' hs hc'
    constructor
    · intro hall
      obtain ⟨d, hd, heq⟩ := hall s hs
      rw [heq, Option.some.inj (hc'.symm.trans hd)]
    · intro heq s' hs'
      exact ⟨c', hc', (Option.some.inj (hs'.symm.trans hs)).trans heq⟩
  have hraw : t.raw .warning = some ((t.parsed .warning).getD p) ∧
      t.raw .accent = some ((t.parsed .accent).getD p) ∧
      t.raw .error = some ((t.parsed .error).getD ((t.parsed .secondary).getD p)) ∧
      t.raw .success = some ((t.parsed .success).getD ((t.parsed .secondary).getD p)) ∧
      t.raw .foreground = some ((t.parsed .foreground).getD
        ((t.parsed .background).getD t.defaultBackground).inverse) := by
    simp only [TextualTheme.raw, h.parsed, Option.or_some, and_self]
  rw [← hslot .warning _ _ rfl hraw.1, ← hslot .accent _ _ rfl hraw.2.1,
    ← hslot .error _ _ rfl hraw.2.2.1, ← hslot .success _ _ rfl hraw.2.2.2.1,
    ← hslot .foreground c.foreground.hex6 _ rfl hraw.2.2.2.2]
  constructor
  · intro hall
    exact ⟨hall _, hall _, hall _, hall _, hall _⟩
  · rintro ⟨hwarning, haccent, herror, hsuccess, hforeground⟩ slot
    cases slot with
    | primary => exact fun s hs => by cases hs
    | secondary => exact fun s hs => by cases hs
    | warning => exact hwarning
    | error => exact herror
    | success => exact hsuccess
    | accent => exact haccent
    | background =>
      refine fun s hs => ⟨_, rfl, ?_⟩
      rw [← h.background]
      exact (Option.some.inj hs).symm
    | foreground => exact hforeground

/-- **Each base slot is canonicalised exactly once** if and only if `lighten(0)` is steady
along the fallbacks of the colours that the theme omits. -/
theorem canonical_once (t : TextualTheme) (o : ThemeOptions) (T : LoggingTheme) (ht : HexTheme t)
    (h : fromTextualTheme lab t o = .ok T) :
    CanonicalOnce lab t T.palette ↔ ∃ p, t.parsed .primary = some p ∧ Steady lab t p := by
  obtain ⟨c, debug, hbase, -, rfl⟩ := fromTextualTheme_ok lab h
  obtain ⟨p, hsolid, hc⟩ := baseColors_hex lab ht hbase
  have hcp := canonical_solid lab hsolid
  have hs' : ((t.parsed .secondary).getD p).Solid := ht.solid _ hsolid
  have hs : (canonical lab ((t.parsed .secondary).getD (canonical lab p))).Solid :=
    canonical_solid lab (ht.solid _ hcp)
  have hb' : ((t.parsed .background).getD t.defaultBackground).Solid :=
    ht.solid _ (defaultBackground_solid t)
  have hb : (canonical lab ((t.parsed .background).getD t.defaultBackground)).Solid :=
    canonical_solid lab hb'
  rw [canonicalOnce_iff lab hc, hc.warning, hc.accent, hc.error, hc.success, hc.foreground,
    hc.background, hc.secondary, hc.primary, slot_once_iff lab ht _ hcp hsolid,
    slot_once_iff lab ht _ hcp hsolid, slot_once_iff lab ht _ hs hs', slot_once_iff lab ht _ hs hs',
    slot_once_iff lab ht _ hb.inverse hb'.inverse]
  have hnone : t.given .secondary = none → t.parsed .secondary = none := by
    intro hgiven
    rcases ht.parsed .secondary with ⟨-, hparsed⟩ | ⟨raw, s, hraw, -⟩
    · exact hparsed
    · rw [hgiven] at hraw
      cases hraw
  constructor
  · rintro ⟨hwarning, haccent, herror, hsuccess, hforeground⟩
    refine ⟨p, hc.parsed, ⟨fun h => h.elim hwarning haccent, fun h s hparsed => ?_, fun h hgiven => ?_,
      fun h b hraw => ?_⟩⟩
    · have heq := h.elim herror hsuccess
      rwa [hparsed] at heq
    · have heq := h.elim herror hsuccess
      rwa [hnone hgiven] at heq
    · rw [← Option.some.inj hraw]
      exact hforeground h
  · rintro ⟨p', hp', hsteady⟩
    obtain rfl := Option.some.inj (hc.parsed.symm.trans hp')
    have hchain : t.given .error = none ∨ t.given .success = none →
        canonical lab (canonical lab ((t.parsed .secondary).getD (canonical lab p))) =
          canonical lab ((t.parsed .secondary).getD p) := by
      intro h
      rcases ht.parsed .secondary with ⟨hgiven, hparsed⟩ | ⟨raw, s, -, hparsed, -⟩
      · rw [hparsed]
        exact hsteady.omitted h hgiven
      · rw [hparsed]
        exact hsteady.secondary h s hparsed
    exact ⟨fun h => hsteady.primary (.inl h), fun h => hsteady.primary (.inr h),
      fun h => hchain (.inl h), fun h => hchain (.inr h), fun h => hsteady.background h _ rfl⟩

theorem smallTheme_hex {primary : Str} (h : OpaqueHex primary) (muted : Option Str) :
    HexTheme (smallTheme primary muted) := by
  intro slot raw hraw
  have hvars : (smallTheme primary muted).vars slot.key = none := by cases slot <;> rfl
  have hcolor : (smallTheme primary muted).color slot = some raw :=
    (Option.filter_eq_some_iff.mp ((congrArg (fun o => (truthy o).or _) hvars).symm.trans hraw)).1
  have hraw' : (if slot = .primary then some primary else none) = some raw := hcolor
  split at hraw'
  · rwa [← Option.some.inj hraw']
  · cases hraw'

/-- Blue loses nothing. -/
theorem canonical_once_blue :
    ∃ T, fromTextualTheme labTable (smallTheme "#0178D4".toList (some "auto".toList)) {} = .ok T ∧
      (CanonicalOnce labTable (smallTheme "#0178D4".toList (some "auto".toList)) T.palette ↔
        ∃ p, (smallTheme "#0178D4".toList (some "auto".toList)).parsed .primary = some p ∧
          Steady labTable (smallTheme "#0178D4".toList (some "auto".toList)) p) :=
  ⟨_, rfl, canonical_once labTable _ {} _
    (smallTheme_hex ⟨⟨1, 120, 212, .finite 1⟩, rfl, rfl, rfl⟩ _) rfl⟩

/-- The warning of an orange theme is not the orange that it emits for itself. -/
theorem canonical_orange : ¬ ∀ (lab : Color → ℚ → Int × Int × Int) (t : TextualTheme)
    (o : ThemeOptions) (T : LoggingTheme), HexTheme t → fromTextualTheme lab t o = .ok T →
      CanonicalOnce lab t T.palette := by
  intro hall
  obtain ⟨c, hc, hs⟩ := hall labTable (smallTheme "#ffa62b".toList (some "auto".toList)) {} _
    (smallTheme_hex ⟨⟨255, 166, 43, .finite 1⟩, rfl, rfl, rfl⟩ _) rfl .warning "#FDA62B".toList rfl
  have hraw : (smallTheme "#ffa62b".toList (some "auto".toList)).raw .warning =
      some ⟨255, 166, 43, .finite 1⟩ := rfl
  rw [← Option.some.inj (hraw.symm.trans hc)] at hs
  exact absurd hs (by decide +kernel)

end ScietexLogging
