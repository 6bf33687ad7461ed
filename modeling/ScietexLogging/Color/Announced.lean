import Mathlib.Tactic.Linarith
import Mathlib.Tactic.Ring
import Mathlib.Tactic.NormNum
import ScietexLogging.Color.Parse

/-!
# Color — how parsing fails

What the pattern lets through is converted by `float`, which refuses some of it with a
plain `ValueError`, and by `_hls_to_rgb`, whose channels leave the bytes for percentages
beyond 100.

* `fromHsl_inRange_iff` — which saturations and lightnesses give bytes, for every hue;
* `parse_announced`     — the texts that give a colour in range or a `ColorParseError`.
-/

namespace ScietexLogging

open Python

namespace Color

-- ---------------------------------------------------------------------------
-- The text of a group
-- ---------------------------------------------------------------------------

theorem members_reColor : Pattern.members reColor =
    [(1, ColorForm.hex3.pattern), (2, ColorForm.hex4.pattern), (3, ColorForm.hex6.pattern),
     (4, ColorForm.hex8.pattern), (5, ColorForm.rgb.pattern), (6, ColorForm.rgba.pattern),
     (7, ColorForm.hsl.pattern), (8, ColorForm.hsla.pattern)] := rfl

theorem recognized_language {text t : Str} {n : ColorForm} (h : recognized text = some (n, t)) :
    n.pattern.Language t := by
  obtain ⟨m, hm, hfind⟩ := Option.bind_eq_some_iff.mp h
  obtain ⟨g, hg, hmap⟩ := List.exists_of_findSome?_eq_some hfind
  obtain ⟨t', ht', heq⟩ := Option.map_eq_some_iff.mp hmap
  obtain ⟨rfl, rfl⟩ := Prod.mk.inj heq
  obtain ⟨a, ha, hl⟩ := Pattern.find_group hm ht'
  rw [members_reColor] at ha
  have hpattern : a = g.2.pattern := by
    simp only [groups, List.mem_cons, List.not_mem_nil, or_false] at hg
    simp only [List.mem_cons, Prod.mk.injEq, List.not_mem_nil, or_false] at ha
    rcases hg with rfl | rfl | rfl | rfl | rfl | rfl | rfl | rfl
    all_goals simpa using ha
  rw [← hpattern]
  exact hl

/-- A text of digits, dots, percent signs and spaces. -/
def PlainText (v : Str) : Prop := ∀ c ∈ v, IsPlain c ∧ c ≠ ','

/-- The pattern takes plain texts only. -/
def Plainly (a : Pattern) : Prop := ∀ w, a.Language w → PlainText w

theorem PlainText.append {u v : Str} (hu : PlainText u) (hv : PlainText v) : PlainText (u ++ v) := by
  intro c hc
  rcases List.mem_append.mp hc with hc | hc
  · exact hu c hc
  · exact hv c hc

theorem isDecimal_plain {c : Char} (h : isDecimal c = true) : IsPlain c ∧ c ≠ ',' := by
  refine ⟨.inl h, ?_⟩
  rintro rfl
  exact absurd h (by decide)

theorem isSpace_plain {c : Char} (h : isSpace c = true) : IsPlain c ∧ c ≠ ',' := by
  refine ⟨.inr (.inr (.inr h)), ?_⟩
  rintro rfl
  exact absurd h (by decide)

theorem plainly_spaces : Plainly spaces := fun _ hw c hc => isSpace_plain (hw.1 c hc)

theorem plainly_upToThree : Plainly upToThree := fun _ hw c hc => isDecimal_plain (hw.1 c hc)

theorem plainly_dotted : Plainly dotted := by
  intro w hw c hc
  have := hw.1 c hc
  simp only [Bool.or_eq_true, decide_eq_true_eq] at this
  rcases this with h | rfl
  · exact isDecimal_plain h
  · exact ⟨.inr (.inl rfl), by decide⟩

theorem plainly_percent : Plainly percent := by
  rintro w ⟨u, v, rfl, hu, hv⟩
  refine (plainly_dotted u hu).append fun c hc => ?_
  have : c = '%' := by simpa using hv.1 c hc
  subst this
  exact ⟨.inr (.inr (.inl rfl)), by decide⟩

/-- Fields are what stands between the commas. -/
theorem splitOn_fields {as : List Pattern} (hne : as ≠ []) (has : ∀ a ∈ as, Plainly a) {t : Str}
    (ht : (fields as).Language t) {front : Str} (hfront : PlainText front) :
    ((front ++ t).splitOn ',').length = as.length ∧
      ∀ v ∈ (front ++ t).splitOn ',', PlainText v := by
  induction as generalizing t front with
  | nil => exact absurd rfl hne
  | cons a as ih =>
    cases as with
    | nil =>
      have hplain := hfront.append (has a (List.mem_cons_self ..) t ht)
      rw [List.splitOn_eq_singleton fun hc => (hplain _ hc).2 rfl]
      refine ⟨rfl, fun v hv => ?_⟩
      rw [List.mem_singleton.mp hv]
      exact hplain
    | cons b bs =>
      obtain ⟨u, r, rfl, hu, s₁, r, rfl, hs₁, c, r, rfl, ⟨d, rfl, hd⟩, s₂, r, rfl, hs₂, hr⟩ := ht
      have hd : d = ',' := by simpa using hd
      subst hd
      have hhead := (hfront.append (has a (List.mem_cons_self ..) u hu)).append
        (plainly_spaces s₁ hs₁)
      obtain ⟨hlen, hall⟩ := ih (by simp) (fun x hx => has x (List.mem_cons_of_mem _ hx)) hr
        (plainly_spaces s₂ hs₂)
      have hsplit : (front ++ (u ++ (s₁ ++ ([','] ++ (s₂ ++ r))))).splitOn ',' =
          (front ++ u ++ s₁) :: (s₂ ++ r).splitOn ',' := by
        have := List.splitOn_append_cons_self_of_not_mem (a := ',') (fun hc => (hhead _ hc).2 rfl)
          (s₂ ++ r)
        simpa [List.append_assoc] using this
      rw [hsplit]
      refine ⟨by rw [List.length_cons, hlen]; rfl, fun v hv => ?_⟩
      rcases List.mem_cons.mp hv with rfl | hv
      · exact hhead
      · exact hall v hv

-- ---------------------------------------------------------------------------
-- float(v)
-- ---------------------------------------------------------------------------

/-- The text is a decimal number, spaces around it aside. -/
def IsFloat (v : Str) : Prop := (float v).isSome = true

theorem floatField_plain {v : Str} (hv : PlainText v) :
    IsFloat v ∧ (∃ q, floatField v = .ok q ∧ 0 ≤ q) ∨
      ¬ IsFloat v ∧ floatField v = .error (.notNumber v) := by
  cases hf : float v with
  | none =>
    refine .inr ⟨by simp [IsFloat, hf], ?_⟩
    rw [floatField, hf]
  | some x =>
    obtain ⟨q, rfl, hq⟩ := float_of_plain (fun c hc => (hv c hc).1) hf
    refine .inl ⟨by simp [IsFloat, hf], q, ?_, hq⟩
    rw [floatField, hf]

theorem mapM_floatField {vs : List Str} (hvs : ∀ v ∈ vs, PlainText v) :
    (∀ v ∈ vs, IsFloat v) ∧ (∃ qs, vs.mapM floatField = .ok qs ∧ qs.length = vs.length) ∨
      (¬ ∀ v ∈ vs, IsFloat v) ∧ ∃ v ∈ vs, vs.mapM floatField = .error (.notNumber v) := by
  induction vs with
  | nil => exact .inl ⟨fun _ h => absurd h (by simp), [], rfl, rfl⟩
  | cons v vs ih =>
    rw [List.mapM_cons]
    rcases floatField_plain (hvs v (List.mem_cons_self ..)) with ⟨hf, q, hq, -⟩ | ⟨hf, hq⟩
    · rcases ih fun x hx => hvs x (List.mem_cons_of_mem _ hx) with
        ⟨hall, qs, hqs, hlen⟩ | ⟨hnot, x, hx, hqs⟩
      · refine .inl ⟨fun x hx => ?_, q :: qs, by rw [hq, hqs]; rfl, by simp [hlen]⟩
        rcases List.mem_cons.mp hx with rfl | hx
        · exact hf
        · exact hall x hx
      · exact .inr ⟨fun hall => hnot fun y hy => hall y (List.mem_cons_of_mem _ hy), x,
          List.mem_cons_of_mem _ hx, by rw [hq, hqs]; rfl⟩
    · exact .inr ⟨fun hall => hf (hall v (List.mem_cons_self ..)), v, List.mem_cons_self ..,
        by rw [hq]; rfl⟩

-- ---------------------------------------------------------------------------
-- _hls_to_rgb
-- ---------------------------------------------------------------------------

/-- `toByte` makes a byte of it. -/
def Fits (x : ℚ) : Prop := -1 < x * 255 + 1 / 2 ∧ x * 255 + 1 / 2 < 256

theorem toByte_range_iff (x : ℚ) : (0 ≤ toByte x ∧ toByte x ≤ 255) ↔ Fits x := by
  unfold toByte truncate Fits
  generalize x * 255 + 1 / 2 = y
  split
  · rename_i hy
    have hlt : (⌊y⌋ ≤ 255 ↔ y < 256) := by
      rw [← Int.lt_add_one_iff, Int.floor_lt]
      norm_num
    rw [hlt]
    exact ⟨fun h => ⟨by linarith, h.2⟩, fun h => ⟨Int.floor_nonneg.mpr hy, h.2⟩⟩
  · rename_i hy
    have hlt : (0 ≤ ⌈y⌉ ↔ -1 < y) := by
      rw [← Int.sub_one_lt_iff, Int.lt_ceil]
      norm_num
    rw [hlt]
    refine ⟨fun h => ⟨h.1, by linarith⟩, fun h => ⟨h.1, ?_⟩⟩
    have : ⌈y⌉ ≤ 0 := Int.ceil_le.mpr (by push_cast; linarith)
    omega

/-- Between two that fit, everything fits. -/
theorem Fits.between {x y t : ℚ} (hx : Fits x) (hy : Fits y) (h₀ : 0 ≤ t) (h₁ : t ≤ 1) :
    Fits (x + (y - x) * t) := by
  obtain ⟨hx₁, hx₂⟩ := hx
  obtain ⟨hy₁, hy₂⟩ := hy
  rcases le_total x y with hxy | hxy
  · have hlo : 0 ≤ (y - x) * t := mul_nonneg (by linarith) h₀
    have hhi : (y - x) * t ≤ y - x := mul_le_of_le_one_right (by linarith) h₁
    constructor <;> linarith
  · have hlo : 0 ≤ (x - y) * t := mul_nonneg (by linarith) h₀
    have hhi : (x - y) * t ≤ x - y := mul_le_of_le_one_right (by linarith) h₁
    constructor <;> linarith

theorem floatMod_one (x : ℚ) : floatMod x 1 = Int.fract x := by
  rw [floatMod, div_one, one_mul, Int.self_sub_floor]

/-- Every channel is between the two, and for a hue in the right third it is either. -/
theorem toRgb_cases (m₁ m₂ hue : ℚ) :
    (∃ t, 0 ≤ t ∧ t ≤ 1 ∧ toRgb m₁ m₂ hue = m₁ + (m₂ - m₁) * t) ∧
      (1 / 6 ≤ Int.fract hue → Int.fract hue < 1 / 2 → toRgb m₁ m₂ hue = m₂) ∧
      (2 / 3 ≤ Int.fract hue → toRgb m₁ m₂ hue = m₁) := by
  have h₀ := Int.fract_nonneg hue
  have h₁ := Int.fract_lt_one hue
  unfold toRgb
  simp only [floatMod_one]
  generalize Int.fract hue = x at h₀ h₁
  refine ⟨?_, fun h h' => ?_, fun h => ?_⟩
  · split
    · exact ⟨x * 6, by linarith, by linarith, by ring⟩
    · split
      · exact ⟨1, by norm_num, le_refl _, by ring⟩
      · split
        · exact ⟨(2 / 3 - x) * 6, by linarith, by linarith, by ring⟩
        · exact ⟨0, le_refl _, by norm_num, by ring⟩
  · rw [if_neg (by linarith), if_pos h']
  · rw [if_neg (by linarith), if_neg (by linarith), if_neg (by linarith)]

/-- The fractional parts of three hues a third apart. -/
theorem fract_thirds (h : ℚ) :
    (Int.fract h < 1 / 3 ∧ Int.fract (h + 1 / 3) = Int.fract h + 1 / 3 ∧
      Int.fract (h - 1 / 3) = Int.fract h + 2 / 3) ∨
    (1 / 3 ≤ Int.fract h ∧ Int.fract h < 2 / 3 ∧ Int.fract (h + 1 / 3) = Int.fract h + 1 / 3 ∧
      Int.fract (h - 1 / 3) = Int.fract h - 1 / 3) ∨
    (2 / 3 ≤ Int.fract h ∧ Int.fract (h + 1 / 3) = Int.fract h - 2 / 3 ∧
      Int.fract (h - 1 / 3) = Int.fract h - 1 / 3) := by
  have h₀ := Int.fract_nonneg h
  have h₁ := Int.fract_lt_one h
  have hself := Int.floor_add_fract h
  have hfract : ∀ y x : ℚ, ∀ n : Int, y = n + x → 0 ≤ x → x < 1 → Int.fract y = x := by
    intro y x n hy hx hx'
    rw [Int.fract_eq_iff]
    exact ⟨hx, hx', n, by linarith⟩
  rcases lt_or_ge (Int.fract h) (1 / 3) with hlt | hge
  · refine .inl ⟨hlt, hfract _ _ ⌊h⌋ (by linarith) (by linarith) (by linarith),
      hfract _ _ (⌊h⌋ - 1) (by push_cast; linarith) (by linarith) (by linarith)⟩
  · rcases lt_or_ge (Int.fract h) (2 / 3) with hlt | hge'
    · exact .inr (.inl ⟨hge, hlt, hfract _ _ ⌊h⌋ (by linarith) (by linarith) (by linarith),
        hfract _ _ ⌊h⌋ (by linarith) (by linarith) (by linarith)⟩)
    · exact .inr (.inr ⟨hge', hfract _ _ (⌊h⌋ + 1) (by push_cast; linarith) (by linarith) (by linarith),
        hfract _ _ ⌊h⌋ (by linarith) (by linarith) (by linarith)⟩)

/-- One of the three channels is the one end, and one the other. -/
theorem toRgb_ends (m₁ m₂ h : ℚ) :
    (toRgb m₁ m₂ (h + 1 / 3) = m₁ ∨ toRgb m₁ m₂ h = m₁ ∨ toRgb m₁ m₂ (h - 1 / 3) = m₁) ∧
      (toRgb m₁ m₂ (h + 1 / 3) = m₂ ∨ toRgb m₁ m₂ h = m₂ ∨ toRgb m₁ m₂ (h - 1 / 3) = m₂) := by
  have h₀ := Int.fract_nonneg h
  have h₁ := Int.fract_lt_one h
  obtain ⟨-, hmid, hlast⟩ := toRgb_cases m₁ m₂ h
  obtain ⟨-, hmid', hlast'⟩ := toRgb_cases m₁ m₂ (h + 1 / 3)
  obtain ⟨-, hmid'', hlast''⟩ := toRgb_cases m₁ m₂ (h - 1 / 3)
  rcases fract_thirds h with ⟨hlt, hup, hdown⟩ | ⟨hge, hlt, hup, hdown⟩ | ⟨hge, hup, hdown⟩
  · refine ⟨.inr (.inr (hlast'' (by linarith))), ?_⟩
    rcases lt_or_ge (Int.fract h) (1 / 6) with hx | hx
    · exact .inl (hmid' (by linarith) (by linarith))
    · exact .inr (.inl (hmid hx (by linarith)))
  · refine ⟨.inl (hlast' (by linarith)), ?_⟩
    rcases lt_or_ge (Int.fract h) (1 / 2) with hx | hx
    · exact .inr (.inl (hmid (by linarith) hx))
    · exact .inr (.inr (hmid'' (by linarith) (by linarith)))
  · refine ⟨.inr (.inl (hlast hge)), ?_⟩
    rcases lt_or_ge (Int.fract h) (5 / 6) with hx | hx
    · exact .inr (.inr (hmid'' (by linarith) (by linarith)))
    · exact .inl (hmid' (by linarith) (by linarith))

/-- A saturation and a lightness whose channels are bytes: the lightness with the reach
of the saturation taken off, and put on. -/
def InGamut (s lightness : ℚ) : Prop :=
  Fits (lightness - s * min lightness (1 - lightness)) ∧
    Fits (lightness + s * min lightness (1 - lightness))

theorem fromHsl_inRange_iff (h s lightness : ℚ) :
    (fromHsl h s lightness).InRange ↔ InGamut s lightness := by
  have hrange : (fromHsl h s lightness).InRange ↔ Fits (hlsToRgb h lightness s).1 ∧
      Fits (hlsToRgb h lightness s).2.1 ∧ Fits (hlsToRgb h lightness s).2.2 := by
    unfold fromHsl InRange
    rw [← toByte_range_iff, ← toByte_range_iff, ← toByte_range_iff]
  rw [hrange, hlsToRgb, InGamut]
  split
  · rename_i hs
    simp [hs]
  · -- the two ends of the channels
    have hm₂ : (if lightness ≤ 1 / 2 then lightness * (1 + s) else lightness + s - lightness * s) =
        lightness + s * min lightness (1 - lightness) := by
      split
      · rw [min_eq_left (by linarith)]
        ring
      · rw [min_eq_right (by linarith)]
        ring
    have hm₁ : 2 * lightness - (lightness + s * min lightness (1 - lightness)) =
        lightness - s * min lightness (1 - lightness) := by ring
    simp only [hm₂, hm₁]
    generalize lightness - s * min lightness (1 - lightness) = m₁
    generalize lightness + s * min lightness (1 - lightness) = m₂
    obtain ⟨h₁, h₂⟩ := toRgb_ends m₁ m₂ h
    constructor
    · rintro ⟨hr, hg, hb⟩
      constructor
      · rcases h₁ with heq | heq | heq
        · exact heq ▸ hr
        · exact heq ▸ hg
        · exact heq ▸ hb
      · rcases h₂ with heq | heq | heq
        · exact heq ▸ hr
        · exact heq ▸ hg
        · exact heq ▸ hb
    · rintro ⟨hf₁, hf₂⟩
      have hall : ∀ hue, Fits (toRgb m₁ m₂ hue) := by
        intro hue
        obtain ⟨⟨t, ht₀, ht₁, heq⟩, -⟩ := toRgb_cases m₁ m₂ hue
        rw [heq]
        exact hf₁.between hf₂ ht₀ ht₁
      exact ⟨hall _, hall _, hall _⟩

-- ---------------------------------------------------------------------------
-- The branches of parse
-- ---------------------------------------------------------------------------

/-- The alpha is a number from 0 to 1. -/
def UnitAlpha (c : Color) : Prop := ∃ q, c.a = .finite q ∧ 0 ≤ q ∧ q ≤ 1

/-- The branch gives a colour in range. -/
def Gives (r : Except ColorError Color) : Prop := ∃ c, r = .ok c ∧ c.InRange ∧ UnitAlpha c

theorem Gives.not_error {e : ColorError} : ¬ Gives (.error e) := by
  rintro ⟨c, h, -⟩
  cases h

theorem unitAlpha_one {r g b : Int} : UnitAlpha ⟨r, g, b, .finite 1⟩ := ⟨1, rfl, by norm_num, le_refl _⟩

theorem unitAlpha_clamp (a : ℚ) : 0 ≤ clampAlpha a ∧ clampAlpha a ≤ 1 :=
  ⟨le_max_left _ _, max_le (by norm_num) (min_le_left _ _)⟩

theorem hexInt_ok {a b : Char} (ha : (hexValue a).isSome = true) (hb : (hexValue b).isSome = true) :
    ∃ n, hexInt [a, b] = .ok n ∧ 0 ≤ n ∧ n ≤ 255 := by
  obtain ⟨m, hm⟩ := Option.isSome_iff_exists.mp ha
  obtain ⟨k, hk⟩ := Option.isSome_iff_exists.mp hb
  refine ⟨((16 * m + k : Nat) : Int), ?_, ?_⟩
  · rw [hexInt, int16_digits hm hk]
    rfl
  · have := (hexValue_lt hm).2
    have := (hexValue_lt hk).2
    omega

theorem hexAlpha {n : Int} (h : 0 ≤ n ∧ n ≤ 255) : (0 : ℚ) ≤ n / 255 ∧ (n : ℚ) / 255 ≤ 1 := by
  have h₀ : (0 : ℚ) ≤ n := by exact_mod_cast h.1
  have h₁ : (n : ℚ) ≤ 255 := by exact_mod_cast h.2
  constructor <;> linarith

/-- A text of so many hex digits. -/
theorem hexes_text {n : Nat} {t : Str} (h : (hexes n).Language t) :
    t.length = n ∧ ∀ c ∈ t, (hexValue c).isSome = true :=
  ⟨Nat.le_antisymm (h.2.2 n rfl) h.2.1, h.1⟩

theorem convert_hex3 {t : Str} (h : (hexes 3).Language t) : Gives (convert .hex3 t) := by
  obtain ⟨hlen, hall⟩ := hexes_text h
  obtain ⟨r, g, b, rfl⟩ := List.length_eq_three.mp hlen
  obtain ⟨x, hx, hx'⟩ := hexInt_ok (hall r (by simp)) (hall r (by simp))
  obtain ⟨y, hy, hy'⟩ := hexInt_ok (hall g (by simp)) (hall g (by simp))
  obtain ⟨z, hz, hz'⟩ := hexInt_ok (hall b (by simp)) (hall b (by simp))
  refine ⟨⟨x, y, z, .finite 1⟩, ?_, ⟨hx', hy', hz'⟩, unitAlpha_one⟩
  rw [convert, hx, hy, hz]
  rfl

theorem convert_hex4 {t : Str} (h : (hexes 4).Language t) : Gives (convert .hex4 t) := by
  obtain ⟨hlen, hall⟩ := hexes_text h
  obtain ⟨r, g, b, a, rfl⟩ : ∃ r g b a, t = [r, g, b, a] := by
    rcases t with _ | ⟨r, _ | ⟨g, _ | ⟨b, _ | ⟨a, _ | ⟨z, t⟩⟩⟩⟩⟩
    all_goals first
      | exact ⟨r, g, b, a, rfl⟩
      | simp at hlen
  obtain ⟨x, hx, hx'⟩ := hexInt_ok (hall r (by simp)) (hall r (by simp))
  obtain ⟨y, hy, hy'⟩ := hexInt_ok (hall g (by simp)) (hall g (by simp))
  obtain ⟨z, hz, hz'⟩ := hexInt_ok (hall b (by simp)) (hall b (by simp))
  obtain ⟨w, hw, hw'⟩ := hexInt_ok (hall a (by simp)) (hall a (by simp))
  refine ⟨⟨x, y, z, .finite (w / 255)⟩, ?_, ⟨hx', hy', hz'⟩, w / 255, rfl, hexAlpha hw'⟩
  rw [convert, hx, hy, hz, hw]
  rfl

theorem convert_hex6 {t : Str} (h : (hexes 6).Language t) : Gives (convert .hex6 t) := by
  obtain ⟨hlen, hall⟩ := hexes_text h
  obtain ⟨r, r', g, g', b, b', rfl⟩ : ∃ r r' g g' b b', t = [r, r', g, g', b, b'] := by
    rcases t with _ | ⟨r, _ | ⟨r', _ | ⟨g, _ | ⟨g', _ | ⟨b, _ | ⟨b', _ | ⟨z, t⟩⟩⟩⟩⟩⟩⟩
    all_goals first
      | exact ⟨r, r', g, g', b, b', rfl⟩
      | simp at hlen
  obtain ⟨x, hx, hx'⟩ := hexInt_ok (hall r (by simp)) (hall r' (by simp))
  obtain ⟨y, hy, hy'⟩ := hexInt_ok (hall g (by simp)) (hall g' (by simp))
  obtain ⟨z, hz, hz'⟩ := hexInt_ok (hall b (by simp)) (hall b' (by simp))
  refine ⟨⟨x, y, z, .finite 1⟩, ?_, ⟨hx', hy', hz'⟩, unitAlpha_one⟩
  rw [convert, hx, hy, hz]
  rfl

theorem convert_hex8 {t : Str} (h : (hexes 8).Language t) : Gives (convert .hex8 t) := by
  obtain ⟨hlen, hall⟩ := hexes_text h
  obtain ⟨r, r', g, g', b, b', a, a', rfl⟩ :
      ∃ r r' g g' b b' a a', t = [r, r', g, g', b, b', a, a'] := by
    rcases t with
      _ | ⟨r, _ | ⟨r', _ | ⟨g, _ | ⟨g', _ | ⟨b, _ | ⟨b', _ | ⟨a, _ | ⟨a', _ | ⟨z, t⟩⟩⟩⟩⟩⟩⟩⟩⟩
    all_goals first
      | exact ⟨r, r', g, g', b, b', a, a', rfl⟩
      | simp at hlen
  obtain ⟨x, hx, hx'⟩ := hexInt_ok (hall r (by simp)) (hall r' (by simp))
  obtain ⟨y, hy, hy'⟩ := hexInt_ok (hall g (by simp)) (hall g' (by simp))
  obtain ⟨z, hz, hz'⟩ := hexInt_ok (hall b (by simp)) (hall b' (by simp))
  obtain ⟨w, hw, hw'⟩ := hexInt_ok (hall a (by simp)) (hall a' (by simp))
  refine ⟨⟨x, y, z, .finite (w / 255)⟩, ?_, ⟨hx', hy', hz'⟩, w / 255, rfl, hexAlpha hw'⟩
  rw [convert, hx, hy, hz, hw]
  rfl

/-- The fields of a group. -/
theorem splitOn_group {as : List Pattern} (hne : as ≠ []) (has : ∀ a ∈ as, Plainly a) {t : Str}
    (ht : (fields as).Language t) :
    (t.splitOn ',').length = as.length ∧ ∀ v ∈ t.splitOn ',', PlainText v := by
  have hnil : PlainText [] := fun _ h => absurd h (by simp)
  exact splitOn_fields hne has ht hnil

theorem convert_rgb {t : Str} (h : ColorForm.rgb.pattern.Language t) :
    Gives (convert .rgb t) ↔ ∀ v ∈ t.splitOn ',', IsFloat v := by
  obtain ⟨hlen, hplain⟩ := splitOn_group (by simp)
    (by simp only [List.mem_cons, List.not_mem_nil, or_false, forall_eq_or_imp, forall_eq]
        exact ⟨plainly_upToThree, plainly_upToThree, plainly_upToThree⟩) h
  rcases mapM_floatField hplain with ⟨hall, qs, hqs, hqlen⟩ | ⟨hnot, v, -, hqs⟩
  · refine iff_of_true ?_ hall
    obtain ⟨r, g, b, rfl⟩ := List.length_eq_three.mp (hqlen.trans hlen)
    refine ⟨⟨clampByte (truncate r), clampByte (truncate g), clampByte (truncate b), .finite 1⟩,
      ?_, ⟨clampByte_range _, clampByte_range _, clampByte_range _⟩, unitAlpha_one⟩
    rw [convert, hqs]
    rfl
  · refine iff_of_false ?_ hnot
    rw [convert, hqs]
    exact Gives.not_error

theorem convert_rgba {t : Str} (h : ColorForm.rgba.pattern.Language t) :
    Gives (convert .rgba t) ↔ ∀ v ∈ t.splitOn ',', IsFloat v := by
  obtain ⟨hlen, hplain⟩ := splitOn_group (by simp)
    (by simp only [List.mem_cons, List.not_mem_nil, or_false, forall_eq_or_imp, forall_eq]
        exact ⟨plainly_upToThree, plainly_upToThree, plainly_upToThree, plainly_dotted⟩) h
  rcases mapM_floatField hplain with ⟨hall, qs, hqs, hqlen⟩ | ⟨hnot, v, -, hqs⟩
  · refine iff_of_true ?_ hall
    obtain ⟨r, g, b, a, rfl⟩ : ∃ r g b a, qs = [r, g, b, a] := by
      have hlen' := hqlen.trans hlen
      rcases qs with _ | ⟨r, _ | ⟨g, _ | ⟨b, _ | ⟨a, _ | ⟨z, t⟩⟩⟩⟩⟩
      all_goals first
        | exact ⟨r, g, b, a, rfl⟩
        | simp at hlen'
    refine ⟨⟨clampByte (truncate r), clampByte (truncate g), clampByte (truncate b),
      .finite (clampAlpha a)⟩, ?_, ⟨clampByte_range _, clampByte_range _, clampByte_range _⟩,
      clampAlpha a, rfl, unitAlpha_clamp a⟩
    rw [convert, hqs]
    rfl
  · refine iff_of_false ?_ hnot
    rw [convert, hqs]
    exact Gives.not_error

/-- The fields of an `hsl` group are numbers, the percentages once a sign at their end is
off, and stay within the bytes. -/
def HslConverts : List Str → Prop
  | h :: s :: lightness :: rest =>
    IsFloat h ∧ (∃ x y, percentage s = .ok x ∧ percentage lightness = .ok y ∧ InGamut x y) ∧
      ∀ v ∈ rest, IsFloat v
  | _ => False

theorem percentage_plain {v : Str} (hv : PlainText v) :
    (∃ x, percentage v = .ok x) ∨ ∃ e, percentage v = .error (.notNumber e) := by
  have hstrip : PlainText (v.rdropWhile (· = '%')) :=
    fun c hc => hv c ((List.rdropWhile_prefix _ _).subset hc)
  rcases floatField_plain hstrip with ⟨-, q, hq, -⟩ | ⟨-, hq⟩
  · exact .inl ⟨q / 100, by rw [percentage, hq]; rfl⟩
  · exact .inr ⟨_, by rw [percentage, hq]; rfl⟩

theorem hslColor_cases {h s l : Str} (hh : PlainText h) (hs : PlainText s) (hl : PlainText l) :
    (∃ c, hslColor h s l = .ok c ∧ c.a = .finite 1 ∧
      (c.InRange ↔ HslConverts [h, s, l]) ∧ IsFloat h) ∨
    ((∃ e, hslColor h s l = .error (.notNumber e)) ∧ ∀ rest, ¬ HslConverts (h :: s :: l :: rest)) := by
  rcases floatField_plain hh with ⟨hf, q, hq, -⟩ | ⟨hf, hq⟩
  · rcases percentage_plain hs with ⟨x, hx⟩ | ⟨e, hx⟩
    · rcases percentage_plain hl with ⟨y, hy⟩ | ⟨e, hy⟩
      · refine .inl ⟨fromHsl (floatMod q 360 / 360) x y, ?_, rfl, ?_, hf⟩
        · rw [hslColor, hq, hx, hy]
          rfl
        · rw [fromHsl_inRange_iff, HslConverts]
          constructor
          · exact fun hin => ⟨hf, ⟨x, y, hx, hy, hin⟩, fun _ h => absurd h (by simp)⟩
          · rintro ⟨-, ⟨x', y', hx', hy', hin⟩, -⟩
            obtain rfl := Except.ok.inj (hx.symm.trans hx')
            obtain rfl := Except.ok.inj (hy.symm.trans hy')
            exact hin
      · refine .inr ⟨⟨e, by rw [hslColor, hq, hx, hy]; rfl⟩, ?_⟩
        rintro rest ⟨-, ⟨x', y', -, hy', -⟩, -⟩
        rw [hy] at hy'
        cases hy'
    · refine .inr ⟨⟨e, by rw [hslColor, hq, hx]; rfl⟩, ?_⟩
      rintro rest ⟨-, ⟨x', y', hx', -⟩, -⟩
      rw [hx] at hx'
      cases hx'
  · exact .inr ⟨⟨h, by rw [hslColor, hq]; rfl⟩, fun rest hc => hf hc.1⟩

theorem convert_hsl {t : Str} (ht : ColorForm.hsl.pattern.Language t) :
    Gives (convert .hsl t) ↔ HslConverts (t.splitOn ',') := by
  obtain ⟨hlen, hplain⟩ := splitOn_group (by simp)
    (by simp only [List.mem_cons, List.not_mem_nil, or_false, forall_eq_or_imp, forall_eq]
        exact ⟨plainly_dotted, plainly_percent, plainly_percent⟩) ht
  obtain ⟨h, s, l, hsplit⟩ := List.length_eq_three.mp hlen
  rw [hsplit] at hplain
  rw [convert, hsplit]
  rcases hslColor_cases (hplain h (by simp)) (hplain s (by simp)) (hplain l (by simp)) with
    ⟨c, hc, hca, hin, -⟩ | ⟨⟨e, hc⟩, hnot⟩
  · rw [← hin]
    constructor
    · rintro ⟨c', hc', hin', -⟩
      obtain rfl := Except.ok.inj (hc.symm.trans hc')
      exact hin'
    · exact fun hin' => ⟨c, hc, hin', 1, hca, by norm_num, le_refl _⟩
  · refine iff_of_false ?_ (hnot [])
    show ¬ Gives (hslColor h s l)
    rw [hc]
    exact Gives.not_error

theorem convert_hsla {t : Str} (ht : ColorForm.hsla.pattern.Language t) :
    Gives (convert .hsla t) ↔ HslConverts (t.splitOn ',') := by
  obtain ⟨hlen, hplain⟩ := splitOn_group (by simp)
    (by simp only [List.mem_cons, List.not_mem_nil, or_false, forall_eq_or_imp, forall_eq]
        exact ⟨plainly_dotted, plainly_percent, plainly_percent, plainly_dotted⟩) ht
  obtain ⟨h, s, l, a, hsplit⟩ : ∃ h s l a, t.splitOn ',' = [h, s, l, a] := by
    rcases hs : t.splitOn ',' with _ | ⟨r, _ | ⟨g, _ | ⟨b, _ | ⟨a, _ | ⟨z, t⟩⟩⟩⟩⟩
    all_goals first
      | exact ⟨r, g, b, a, rfl⟩
      | (rw [hs] at hlen; simp at hlen)
  rw [hsplit] at hplain
  rw [convert, hsplit]
  rcases hslColor_cases (hplain h (by simp)) (hplain s (by simp)) (hplain l (by simp)) with
    ⟨c, hc, hca, hin, hfloat⟩ | ⟨⟨e, hc⟩, hnot⟩
  · have hconv : HslConverts [h, s, l, a] ↔ HslConverts [h, s, l] ∧ IsFloat a := by
      simp [HslConverts, and_assoc]
    rw [hconv, ← hin]
    rcases floatField_plain (hplain a (by simp)) with ⟨hf, q, hq, -⟩ | ⟨hf, hq⟩
    · have hok : (do
          let c ← hslColor h s l
          return c.withAlpha (.finite (clampAlpha (← floatField a)))) =
          Except.ok (c.withAlpha (.finite (clampAlpha q))) := by
        rw [hc, hq]
        rfl
      show Gives (do
        let c ← hslColor h s l
        return c.withAlpha (.finite (clampAlpha (← floatField a)))) ↔ _
      rw [hok]
      constructor
      · rintro ⟨c', hc', hin', -⟩
        obtain rfl := Except.ok.inj hc'
        exact ⟨hin', hf⟩
      · rintro ⟨hin', -⟩
        exact ⟨_, rfl, hin', _, rfl, unitAlpha_clamp q⟩
    · refine iff_of_false ?_ fun h => hf h.2
      show ¬ Gives (do
        let c ← hslColor h s l
        return c.withAlpha (.finite (clampAlpha (← floatField a))))
      rw [hc, hq]
      exact Gives.not_error
  · refine iff_of_false ?_ (hnot [a])
    show ¬ Gives (do
      let c ← hslColor h s l
      return c.withAlpha (.finite (clampAlpha (← floatField a))))
    rw [hc]
    exact Gives.not_error

-- ---------------------------------------------------------------------------
-- The whole
-- ---------------------------------------------------------------------------

/-- Behind the pattern everything converts. -/
def Converts (text : Str) : Prop :=
  ∀ n t, recognized text = some (n, t) →
    (n = .rgb ∨ n = .rgba → ∀ v ∈ t.splitOn ',', IsFloat v) ∧
    (n = .hsl ∨ n = .hsla → HslConverts (t.splitOn ','))

/-- A colour in range, or a `ColorParseError`. -/
def Announced (text : Str) : Prop := Gives (parse text) ∨ parse text = .error (.colorParse text)

theorem convert_gives {n : ColorForm} {t : Str} (h : n.pattern.Language t) :
    Gives (convert n t) ↔ (n = .rgb ∨ n = .rgba → ∀ v ∈ t.splitOn ',', IsFloat v) ∧
      (n = .hsl ∨ n = .hsla → HslConverts (t.splitOn ',')) := by
  cases n with
  | hex3 => simpa using convert_hex3 h
  | hex4 => simpa using convert_hex4 h
  | hex6 => simpa using convert_hex6 h
  | hex8 => simpa using convert_hex8 h
  | rgb => simpa using convert_rgb h
  | rgba => simpa using convert_rgba h
  | hsl => simpa using convert_hsl h
  | hsla => simpa using convert_hsla h

/-- It raises no `ColorParseError`. -/
def Foreign {α : Type} (r : Except ColorError α) : Prop := ∀ s, r ≠ .error (.colorParse s)

theorem Foreign.ok {α : Type} (a : α) : Foreign (.ok a) := fun _ h => by cases h

theorem Foreign.bind {α β : Type} {r : Except ColorError α} {f : α → Except ColorError β}
    (h : Foreign r) (hf : ∀ a, Foreign (f a)) : Foreign (r >>= f) := by
  intro s hs
  cases r with
  | ok a => exact hf a s hs
  | error e =>
    refine h s ?_
    rw [show e = .colorParse s from Except.error.inj hs]

theorem Foreign.mapM {α β : Type} {f : α → Except ColorError β} (hf : ∀ a, Foreign (f a))
    (l : List α) : Foreign (l.mapM f) := by
  induction l with
  | nil => exact .ok []
  | cons a l ih =>
    rw [List.mapM_cons]
    exact (hf a).bind fun _ => ih.bind fun _ => .ok _

theorem foreign_hexInt (t : Str) : Foreign (hexInt t) := by
  unfold hexInt
  cases int16 t with
  | none => exact fun _ h => by cases h
  | some n => exact .ok n

theorem foreign_floatField (v : Str) : Foreign (floatField v) := by
  unfold floatField
  split
  · exact .ok _
  · exact fun _ h => by cases h

theorem foreign_percentage (v : Str) : Foreign (percentage v) := by
  intro s hs
  unfold percentage at hs
  cases hq : floatField (v.rdropWhile (· = '%')) with
  | ok q => rw [hq] at hs; cases hs
  | error e =>
    rw [hq] at hs
    exact foreign_floatField _ s (by rw [hq, show e = .colorParse s from Except.error.inj hs])

theorem foreign_hslColor (h s l : Str) : Foreign (hslColor h s l) :=
  (foreign_floatField h).bind fun _ => (foreign_percentage s).bind fun _ =>
    (foreign_percentage l).bind fun _ => .ok _

theorem foreign_unpack {α : Type} : Foreign (.error .unpack : Except ColorError α) :=
  fun _ h => by cases h

/-- No branch raises a `ColorParseError`. -/
theorem convert_foreign (n : ColorForm) (t : Str) : Foreign (convert n t) := by
  unfold convert
  split
  · exact (foreign_hexInt _).bind fun _ => (foreign_hexInt _).bind fun _ =>
      (foreign_hexInt _).bind fun _ => .ok _
  · exact (foreign_hexInt _).bind fun _ => (foreign_hexInt _).bind fun _ =>
      (foreign_hexInt _).bind fun _ => (foreign_hexInt _).bind fun _ => .ok _
  · exact (foreign_hexInt _).bind fun _ => (foreign_hexInt _).bind fun _ =>
      (foreign_hexInt _).bind fun _ => .ok _
  · exact (foreign_hexInt _).bind fun _ => (foreign_hexInt _).bind fun _ =>
      (foreign_hexInt _).bind fun _ => (foreign_hexInt _).bind fun _ => .ok _
  · refine (Foreign.mapM foreign_floatField _).bind fun qs => ?_
    split
    · exact .ok _
    · exact foreign_unpack
  · refine (Foreign.mapM foreign_floatField _).bind fun qs => ?_
    split
    · exact .ok _
    · exact foreign_unpack
  · split
    · exact foreign_hslColor _ _ _
    · exact foreign_unpack
  · split
    · exact (foreign_hslColor _ _ _).bind fun _ => (foreign_floatField _).bind fun _ => .ok _
    · exact foreign_unpack
  · exact foreign_unpack

theorem parse_announced (text : Str) : Announced text ↔ Converts text := by
  unfold Announced parse Converts
  cases hr : recognized text with
  | none => simp
  | some p =>
    obtain ⟨n, t⟩ := p
    simp only [show ∀ s, convert n t ≠ .error (.colorParse s) from convert_foreign n t, or_false]
    rw [convert_gives (recognized_language hr)]
    constructor
    · intro h n' t' heq
      obtain ⟨rfl, rfl⟩ := Prod.mk.inj (Option.some.inj heq)
      exact h
    · exact fun h => h n t rfl

end Color

end ScietexLogging
