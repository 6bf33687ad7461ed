import Mathlib.Data.Rat.Floor
import Mathlib.Tactic.Linarith
import Mathlib.Tactic.Ring
import Mathlib.Tactic.NormNum
import Mathlib.Tactic.Positivity
import ScietexLogging.Color.Hex6
import ScietexLogging.Theme.Textual

/-!
# Theme — compositing over the background

`_flatten` blends a translucent colour into the background by its alpha: `alpha` of the
background and the rest of the colour. Source-over compositing is the other way round.

* `flatten_channels` — what `_flatten` gives, channel by channel;
* `mix_near_iff`     — where that is less than one away from source-over;
* `flatten_composites` — the colours, alphas and backgrounds for which it is, for a colour
                         of a theme and for `auto N%`.
-/

namespace ScietexLogging

open Python Color

/-- The channels of the hex colour `s` are less than one away from `a * c + (1 - a) * b`. -/
def Near (s : Str) (c : Color) (a : ℚ) (b : Color) : Prop :=
  ∃ x y z, hexColor s = some (x, y, z) ∧ |x - (a * c.r + (1 - a) * b.r)| < 1 ∧
    |y - (a * c.g + (1 - a) * b.g)| < 1 ∧ |z - (a * c.b + (1 - a) * b.b)| < 1

/-- Source-over compositing of `c` with the alpha `a` over `b`. -/
def Composited (c : Color) (a : ℚ) (b : Color) : Prop :=
  ∃ s, flatten (c.withAlpha (.finite a)) b = .ok s ∧ Near s c a b

/-- Going from `m` to `n`. -/
def Toward (m n x y : Int) : Prop := (m ≤ n → x ≤ y) ∧ (n ≤ m → y ≤ x)

/-- From the background at alpha 0 to the colour at alpha 1, each channel in its one
direction. -/
def Fades (c b : Color) : Prop :=
  flatten (c.withAlpha (.finite 0)) b = .ok b.hex6 ∧ flatten (c.withAlpha (.finite 1)) b = .ok c.hex6 ∧
    ∀ a a', 0 ≤ a → a ≤ a' → a' ≤ 1 → ∃ s s' x y z x' y' z',
      flatten (c.withAlpha (.finite a)) b = .ok s ∧ hexColor s = some (x, y, z) ∧
      flatten (c.withAlpha (.finite a')) b = .ok s' ∧ hexColor s' = some (x', y', z') ∧
      Toward b.r c.r x x' ∧ Toward b.g c.g y y' ∧ Toward b.b c.b z z'

/-- The debug slot of a token is `n` percent of the contrast colour over the rest of the
background. -/
def MutedComposited (vars : Str → Option Str) (background : Color) (theme : Str)
    (ansiPalette : Option (Str → Option Str)) (n : ℚ) : Prop :=
  ∃ s, textMuted vars background theme ansiPalette = .ok s ∧
    Near s (background.getContrastText (.finite (n / 100))) (n / 100) background

/-- On this channel, blending and source-over are less than one apart after what is cut
off. -/
def Agrees (a : ℚ) (n m : Int) : Prop :=
  Int.fract (a * (m - n)) - 1 < (1 - 2 * a) * (n - m) ∧
    (1 - 2 * a) * (n - m) < Int.fract (a * (m - n)) + 1

def ChannelsAgree (a : ℚ) (c b : Color) : Prop := Agrees a c.r b.r ∧ Agrees a c.g b.g ∧ Agrees a c.b b.b

def SameChannels (c b : Color) : Prop := c.r = b.r ∧ c.g = b.g ∧ c.b = b.b

-- ---------------------------------------------------------------------------
-- One channel
-- ---------------------------------------------------------------------------

theorem mix_eq_floor {n m : Int} {a : ℚ} (hn : 0 ≤ n) (hm : 0 ≤ m) (h₀ : 0 ≤ a) (h₁ : a ≤ 1) :
    mix n m a = ⌊(n : ℚ) + (m - n) * a⌋ := by
  have hn' : (0 : ℚ) ≤ n := by exact_mod_cast hn
  have hm' : (0 : ℚ) ≤ m := by exact_mod_cast hm
  have hpos : 0 ≤ (n : ℚ) + (m - n) * a := by
    have h₂ : 0 ≤ (1 - a) * n := mul_nonneg (by linarith) hn'
    have h₃ : 0 ≤ a * m := mul_nonneg h₀ hm'
    linarith
  rw [mix, truncate, if_pos hpos]

theorem mix_range {n m : Int} {a : ℚ} (hn : 0 ≤ n ∧ n ≤ 255) (hm : 0 ≤ m ∧ m ≤ 255) (h₀ : 0 ≤ a)
    (h₁ : a ≤ 1) : 0 ≤ mix n m a ∧ mix n m a ≤ 255 := by
  rw [mix_eq_floor hn.1 hm.1 h₀ h₁]
  have hn₀ : (0 : ℚ) ≤ n := by exact_mod_cast hn.1
  have hn₁ : (n : ℚ) ≤ 255 := by exact_mod_cast hn.2
  have hm₀ : (0 : ℚ) ≤ m := by exact_mod_cast hm.1
  have hm₁ : (m : ℚ) ≤ 255 := by exact_mod_cast hm.2
  have h₂ : 0 ≤ (1 - a) * n := mul_nonneg (by linarith) hn₀
  have h₃ : 0 ≤ a * m := mul_nonneg h₀ hm₀
  have h₄ : 0 ≤ (1 - a) * (255 - n) := mul_nonneg (by linarith) (by linarith)
  have h₅ : 0 ≤ a * (255 - m) := mul_nonneg h₀ (by linarith)
  constructor
  · exact Int.floor_nonneg.mpr (by linarith)
  · have : ((⌊(n : ℚ) + (m - n) * a⌋ : Int) : ℚ) ≤ 255 := (Int.floor_le _).trans (by linarith)
    exact_mod_cast this

/-- Blending is `(1 - 2 * a) * (n - m)` away from source-over, and what is cut off. -/
theorem mix_near_iff {n m : Int} {a : ℚ} (hn : 0 ≤ n) (hm : 0 ≤ m) (h₀ : 0 ≤ a) (h₁ : a ≤ 1) :
    |(mix n m a : ℚ) - (a * n + (1 - a) * m)| < 1 ↔ Agrees a n m := by
  have hfract : Int.fract ((n : ℚ) + (m - n) * a) = Int.fract (a * (m - n)) := by
    rw [Int.fract_intCast_add, mul_comm]
  have hfloor := Int.floor_add_fract ((n : ℚ) + (m - n) * a)
  rw [hfract] at hfloor
  have hdiff : ((⌊(n : ℚ) + (m - n) * a⌋ : Int) : ℚ) - (a * n + (1 - a) * m) =
      (1 - 2 * a) * (n - m) - Int.fract (a * (m - n)) := by
    linarith
  rw [mix_eq_floor hn hm h₀ h₁, hdiff, abs_lt, Agrees]
  constructor
  · rintro ⟨h, h'⟩
    exact ⟨by linarith, by linarith⟩
  · rintro ⟨h, h'⟩
    exact ⟨by linarith, by linarith⟩

-- ---------------------------------------------------------------------------
-- The colour
-- ---------------------------------------------------------------------------

/-- The colour that `_flatten` writes. -/
def blended (c : Color) (a : ℚ) (b : Color) : Color :=
  if a = 1 then c else ⟨mix c.r b.r a, mix c.g b.g a, mix c.b b.b a, .finite 1⟩

theorem hexColor_inRange {c : Color} (h : c.InRange) : hexColor c.hex6 = some (c.r, c.g, c.b) := by
  rw [hexColor_hex6]
  simp only [clamped, clampByte_of_range h.1, clampByte_of_range h.2.1, clampByte_of_range h.2.2]

/-- At alpha 0 `blend` does not move. -/
theorem mix_zero (n m : Int) : mix n m 0 = n := by
  rw [mix, mul_zero, add_zero, truncate]
  split
  · exact Int.floor_intCast n
  · exact Int.ceil_intCast n

theorem flatten_channels {c b : Color} {a : ℚ} (hc : c.InRange) (hb : b.InRange) (h₀ : 0 ≤ a)
    (h₁ : a ≤ 1) : ∃ s, flatten (c.withAlpha (.finite a)) b = .ok s ∧
      hexColor s = some ((blended c a b).r, (blended c a b).g, (blended c a b).b) := by
  have hmixed : Color.InRange ⟨mix c.r b.r a, mix c.g b.g a, mix c.b b.b a, .finite 1⟩ :=
    ⟨mix_range hc.1 hb.1 h₀ h₁, mix_range hc.2.1 hb.2.1 h₀ h₁, mix_range hc.2.2 hb.2.2 h₀ h₁⟩
  have hself : hexColor (c.withAlpha (.finite a)).hex6 = some (c.r, c.g, c.b) :=
    hexColor_inRange (c := c.withAlpha (.finite a)) hc
  unfold blended flatten blend
  by_cases ha : a = 1
  · have hge : (c.withAlpha (.finite a)).a.ge 1 = true := decide_eq_true (le_of_eq ha.symm)
    rw [if_pos hge, if_pos ha]
    exact ⟨_, rfl, hself⟩
  · have hge : ¬ (c.withAlpha (.finite a)).a.ge 1 = true := by
      show ¬ decide (1 ≤ a) = true
      simp only [decide_eq_true_eq, not_le]
      exact lt_of_le_of_ne h₁ ha
    rw [if_neg hge, if_neg ha]
    by_cases hzero : a = 0
    · have hle : (c.withAlpha (.finite a)).a.le 0 = true := decide_eq_true (le_of_eq hzero)
      rw [if_pos hle]
      refine ⟨_, rfl, ?_⟩
      rw [hself, hzero, mix_zero, mix_zero, mix_zero]
    · have hle : ¬ (c.withAlpha (.finite a)).a.le 0 = true := by
        show ¬ decide (a ≤ 0) = true
        simp only [decide_eq_true_eq, not_le]
        exact lt_of_le_of_ne h₀ (Ne.symm hzero)
      rw [if_neg hle, if_neg hge]
      exact ⟨_, rfl, hexColor_inRange hmixed⟩

-- ---------------------------------------------------------------------------
-- Against source-over
-- ---------------------------------------------------------------------------

section

variable {c b : Color} {a : ℚ}

theorem near_iff {s : Str} (hc : c.InRange) (hb : b.InRange) (h₀ : 0 ≤ a) (h₁ : a ≤ 1)
    (hs : hexColor s = some ((blended c a b).r, (blended c a b).g, (blended c a b).b)) :
    Near s c a b ↔ a = 1 ∨ ChannelsAgree a c b := by
  have hnear : Near s c a b ↔ |((blended c a b).r : ℚ) - (a * c.r + (1 - a) * b.r)| < 1 ∧
      |((blended c a b).g : ℚ) - (a * c.g + (1 - a) * b.g)| < 1 ∧
      |((blended c a b).b : ℚ) - (a * c.b + (1 - a) * b.b)| < 1 := by
    constructor
    · rintro ⟨x, y, z, hxyz, hnear⟩
      obtain ⟨rfl, rfl, rfl⟩ := by simpa using hs.symm.trans hxyz
      exact hnear
    · exact fun hnear => ⟨_, _, _, hs, hnear⟩
  rw [hnear]
  by_cases ha : a = 1
  · subst ha
    refine iff_of_true ?_ (.inl rfl)
    simp [blended]
  · rw [blended, if_neg ha, mix_near_iff hc.1.1 hb.1.1 h₀ h₁, mix_near_iff hc.2.1.1 hb.2.1.1 h₀ h₁,
      mix_near_iff hc.2.2.1 hb.2.2.1 h₀ h₁]
    exact ⟨.inr, fun h => h.resolve_left ha⟩

theorem composited_iff (hc : c.InRange) (hb : b.InRange) (h₀ : 0 ≤ a) (h₁ : a ≤ 1) :
    Composited c a b ↔ a = 1 ∨ ChannelsAgree a c b := by
  obtain ⟨s, hflatten, hs⟩ := flatten_channels hc hb h₀ h₁
  rw [← near_iff hc hb h₀ h₁ hs]
  constructor
  · rintro ⟨s', hflatten', hnear⟩
    rwa [Except.ok.inj (hflatten.symm.trans hflatten')]
  · exact fun hnear => ⟨s, hflatten, hnear⟩

theorem blended_same (h : SameChannels c b) (a : ℚ) :
    (blended c a b).r = c.r ∧ (blended c a b).g = c.g ∧ (blended c a b).b = c.b := by
  have hmix : ∀ n : Int, mix n n a = n := by
    intro n
    have hzero := mix_zero n n
    rw [mix, mul_zero] at hzero
    rw [mix, sub_self, zero_mul]
    exact hzero
  unfold blended
  split
  · exact ⟨rfl, rfl, rfl⟩
  · rw [← h.1, ← h.2.1, ← h.2.2]
    exact ⟨hmix _, hmix _, hmix _⟩

theorem SameChannels.hex6 (h : SameChannels c b) : c.hex6 = b.hex6 := by
  rw [Color.hex6, Color.hex6, clamped, clamped, h.1, h.2.1, h.2.2]

theorem Toward.refl (m n x : Int) : Toward m n x x := ⟨fun _ => le_refl x, fun _ => le_refl x⟩

/-- At alpha 0 the colour itself is written. -/
theorem fades_iff (hc : c.InRange) (hb : b.InRange) : Fades c b ↔ SameChannels c b := by
  constructor
  · rintro ⟨hzero, -, -⟩
    obtain ⟨s, hflatten, hs⟩ := flatten_channels hc hb (le_refl 0) zero_le_one
    rw [Except.ok.inj (hflatten.symm.trans hzero), hexColor_inRange hb] at hs
    simp only [blended, zero_ne_one, if_false, mix_zero, Option.some.injEq, Prod.mk.injEq] at hs
    exact ⟨hs.1.symm, hs.2.1.symm, hs.2.2.symm⟩
  · intro hsame
    have hzero : flatten (c.withAlpha (.finite 0)) b = .ok c.hex6 := by rfl
    have hone : flatten (c.withAlpha (.finite 1)) b = .ok c.hex6 := by rfl
    refine ⟨by rw [hzero, hsame.hex6], hone, fun a a' h₀ hle h₁ => ?_⟩
    obtain ⟨s, hflatten, hs⟩ := flatten_channels hc hb h₀ (hle.trans h₁)
    obtain ⟨s', hflatten', hs'⟩ := flatten_channels hc hb (h₀.trans hle) h₁
    refine ⟨s, s', _, _, _, _, _, _, hflatten, hs, hflatten', hs', ?_, ?_, ?_⟩
    · rw [(blended_same hsame a).1, (blended_same hsame a').1]
      exact .refl _ _ _
    · rw [(blended_same hsame a).2.1, (blended_same hsame a').2.1]
      exact .refl _ _ _
    · rw [(blended_same hsame a).2.2, (blended_same hsame a').2.2]
      exact .refl _ _ _

/-- The colour behind `auto N%`. -/
theorem textMuted_auto {vars : Str → Option Str} {theme : Str}
    {ansiPalette : Option (Str → Option Str)} {n : ℚ} (hauto : "auto ".toList <+: mutedToken vars)
    (hn : float (((mutedToken vars).drop 5).rdropWhile (· = '%')) = some (.finite n)) :
    textMuted vars b theme ansiPalette =
      escaping (flatten (b.getContrastText (.finite (n / 100))) b) := by
  obtain ⟨rest, hrest⟩ := hauto
  have hansi : isAnsi (mutedToken vars) = false := by rw [← hrest]; rfl
  have hisAuto : isAuto (mutedToken vars) = true := by rw [← hrest]; rfl
  have hmore : mutedToken vars ≠ "auto".toList := by
    intro h
    have hlen := congrArg List.length (hrest.trans h)
    rw [List.length_append] at hlen
    have hfive : "auto ".toList.length = 5 := rfl
    have hfour : "auto".toList.length = 4 := rfl
    omega
  have halpha : autoAlpha (mutedToken vars) theme = .ok (.finite (n / 100)) := by
    rw [autoAlpha, if_neg hmore, hn]
    rfl
  unfold textMuted
  simp only [hansi, hisAuto, Bool.false_eq_true, if_false, if_true, halpha]
  rfl

end

theorem white_inRange : white.InRange := ⟨by decide, by decide, by decide⟩

theorem black_inRange : black.InRange := ⟨by decide, by decide, by decide⟩

/-- **`_flatten` composites** a colour over the background if and only if its alpha is 1 or
blending and source-over agree on every channel; it fades from the background to the
colour only if they are the same; and the debug slot of `auto N%` is `N` percent of the
contrast colour under the same condition. -/
theorem flatten_composites (c b : Color) (hc : c.InRange) (hb : b.InRange) :
    (∀ a, 0 ≤ a → a ≤ 1 → (Composited c a b ↔ a = 1 ∨ ChannelsAgree a c b)) ∧
      (Fades c b ↔ SameChannels c b) ∧
      ∀ vars theme ansiPalette n, "auto ".toList <+: mutedToken vars →
        float (((mutedToken vars).drop 5).rdropWhile (· = '%')) = some (.finite n) → 0 ≤ n → n ≤ 100 →
          (MutedComposited vars b theme ansiPalette n ↔
            n = 100 ∨ ChannelsAgree (n / 100) (b.getContrastText (.finite (n / 100))) b) := by
  refine ⟨fun a h₀ h₁ => composited_iff hc hb h₀ h₁, fades_iff hc hb, ?_⟩
  intro vars theme ansiPalette n hauto hn h₀ h₁
  have h₀' : 0 ≤ n / 100 := by positivity
  have h₁' : n / 100 ≤ 1 := by linarith
  have hcontrast : (b.getContrastText (.finite (n / 100))).InRange := by
    unfold getContrastText
    split
    · exact white_inRange
    · exact black_inRange
  have hself : (b.getContrastText (.finite (n / 100))).withAlpha (.finite (n / 100)) =
      b.getContrastText (.finite (n / 100)) := rfl
  obtain ⟨s, hflatten, hs⟩ := flatten_channels hcontrast hb h₀' h₁'
  rw [hself] at hflatten
  have hn100 : n = 100 ↔ n / 100 = 1 := by
    rw [div_eq_one_iff_eq (by norm_num)]
  have htext : textMuted vars b theme ansiPalette = .ok s := by
    rw [textMuted_auto hauto hn, hflatten]
    rfl
  rw [hn100, ← near_iff hcontrast hb h₀' h₁' hs]
  constructor
  · rintro ⟨s', htext', hnear⟩
    rwa [Except.ok.inj (htext.symm.trans htext')]
  · exact fun hnear => ⟨s, htext, hnear⟩

/-- Textual's dark background. -/
def darkGray : Color := ⟨18, 18, 18, .finite 1⟩

theorem darkGray_inRange : darkGray.InRange := ⟨by decide, by decide, by decide⟩

/-- White over the dark background. -/
theorem flatten_composites_white :
    (∀ a, 0 ≤ a → a ≤ 1 → (Composited white a darkGray ↔ a = 1 ∨ ChannelsAgree a white darkGray)) ∧
      (Fades white darkGray ↔ SameChannels white darkGray) ∧
      ∀ vars theme ansiPalette n, "auto ".toList <+: mutedToken vars →
        float (((mutedToken vars).drop 5).rdropWhile (· = '%')) = some (.finite n) → 0 ≤ n → n ≤ 100 →
          (MutedComposited vars darkGray theme ansiPalette n ↔
            n = 100 ∨ ChannelsAgree (n / 100) (darkGray.getContrastText (.finite (n / 100))) darkGray) :=
  flatten_composites white darkGray white_inRange darkGray_inRange

/-- White at 60% over it is written as white at 40%. -/
theorem flatten_reversed : ¬ ∀ (c b : Color) (a : ℚ), c.InRange → b.InRange → 0 ≤ a → a ≤ 1 →
    Composited c a b := by
  intro hall
  obtain ⟨s, hflatten, x, y, z, hs, hnear, -⟩ :=
    hall white darkGray (3 / 5) white_inRange darkGray_inRange (by norm_num) (by norm_num)
  have hwritten : flatten (white.withAlpha (.finite (3 / 5))) darkGray = .ok "#707070".toList := by
    decide +kernel
  have hread : hexColor "#707070".toList = some (112, 112, 112) := by rfl
  rw [← Except.ok.inj (hwritten.symm.trans hflatten), hread] at hs
  obtain ⟨rfl, -⟩ := Prod.mk.inj (Option.some.inj hs)
  have hred : white.r = 255 ∧ darkGray.r = 18 := ⟨rfl, rfl⟩
  rw [hred.1, hred.2] at hnear
  norm_num at hnear

end ScietexLogging
