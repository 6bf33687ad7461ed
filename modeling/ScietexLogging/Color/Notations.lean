import ScietexLogging.Color.Hex6

/-!
# Color — hex notations

`Color.parse` reads three, four, six or eight hex digits; `hex` writes six, and two more for
an alpha below 1. What it writes is canonical: of all the ways to write a colour it is the
long one, in upper case, without the alpha of an opaque colour.

* `parse_hex`     — what `hex` wrote is read as the colour, its alpha rounded down;
* `hex_canonical` — the hex notations and the colours that one text stands for.
-/

namespace ScietexLogging

open Python

namespace Color

/-- `hex`. A clamped alpha is finite. -/
def hex (c : Color) : Str :=
  match c.clamped.a with
  | .finite a => if a = 1 then c.hex6 else c.hex6 ++ hexByte (truncate (a * 255))
  | _ => c.hex6

-- ---------------------------------------------------------------------------
-- Bytes and their digits
-- ---------------------------------------------------------------------------

def IsByte (n : Int) : Prop := 0 ≤ n ∧ n ≤ 255

/-- The bytes that digits say, two by two. -/
def pairs : Str → Option (List Int)
  | [] => some []
  | [_] => none
  | a :: b :: cs => (hexPair a b).bind fun n => (pairs cs).map (n :: ·)

theorem pairs_hexByte {bs : List Int} (h : ∀ n ∈ bs, IsByte n) :
    pairs (bs.flatMap hexByte) = some bs := by
  induction bs with
  | nil => rfl
  | cons n bs ih =>
    have hn := h n List.mem_cons_self
    obtain ⟨a, b, hdigits, ha, hb⟩ := hexByte_digits hn
    have hbs := ih fun m hm => h m (List.mem_cons_of_mem n hm)
    rw [List.flatMap_cons, hdigits]
    show (hexPair a b).bind (fun n => (pairs (bs.flatMap hexByte)).map (n :: ·)) = _
    rw [hexPair_digits hn.1 ha hb, hbs]
    rfl

theorem digitChar_hexValue {a : Char} {m : Nat} (h : hexValue a = some m) :
    (Nat.digitChar m).toUpper = a.toUpper := by
  have hall : ∀ n < 128, ∀ m < 16, hexValue (Char.ofNat n) = some m →
      (Nat.digitChar m).toUpper = (Char.ofNat n).toUpper := by decide
  obtain ⟨hlt, hm⟩ := hexValue_lt h
  have := hall a.toNat hlt m hm
  rw [Char.ofNat_toNat] at this
  exact this h

theorem hexByte_hexPair {a b : Char} {n : Int} (h : hexPair a b = some n) :
    hexByte n = [a.toUpper, b.toUpper] := by
  obtain ⟨m, hm, h⟩ := Option.bind_eq_some_iff.mp h
  obtain ⟨k, hk, rfl⟩ := Option.map_eq_some_iff.mp h
  have hlt := (hexValue_lt hk).2
  have hdiv : (((16 * m + k : Nat) : Int).toNat) / 16 = m := by omega
  have hmod : (((16 * m + k : Nat) : Int).toNat) % 16 = k := by omega
  rw [hexByte, hdiv, hmod, digitChar_hexValue hm, digitChar_hexValue hk]

/-- Digits in upper case are the ones that their bytes are written with. -/
theorem hexByte_pairs {ds : Str} {bs : List Int} (h : pairs ds = some bs) :
    bs.flatMap hexByte = ds.map Char.toUpper ∧ ∀ n ∈ bs, IsByte n := by
  induction ds using pairs.induct generalizing bs with
  | case1 =>
    obtain rfl := Option.some.inj h
    exact ⟨rfl, by simp⟩
  | case2 => cases h
  | case3 a b cs ih =>
    obtain ⟨n, hn, h⟩ := Option.bind_eq_some_iff.mp h
    obtain ⟨bs, hbs, rfl⟩ := Option.map_eq_some_iff.mp h
    obtain ⟨hdigits, hbytes⟩ := ih hbs
    refine ⟨?_, List.forall_mem_cons.mpr ⟨hexPair_range hn, hbytes⟩⟩
    rw [List.flatMap_cons, hexByte_hexPair hn, hdigits]
    rfl

/-- The byte of full opacity. -/
theorem hexByte_full {n : Int} (h : IsByte n) : hexByte n = ['F', 'F'] ↔ n = 255 := by
  constructor
  · intro hfull
    have hn : pairs ([n].flatMap hexByte) = some [n] :=
      pairs_hexByte (List.forall_mem_singleton.mpr h)
    rw [List.flatMap_singleton, hfull] at hn
    have hread : pairs ['F', 'F'] = some [255] := by decide
    exact (List.cons.inj (Option.some.inj (hn.symm.trans hread))).1
  · rintro rfl
    decide

-- ---------------------------------------------------------------------------
-- Notations
-- ---------------------------------------------------------------------------

/-- Three, four, six or eight hex digits. -/
structure HexNotation (ds : Str) : Prop where
  form : ∃ n : ColorForm, n.digits = some ds.length
  digits : ∀ c ∈ ds, (hexValue c).isSome = true

/-- The digits of a short notation are written twice. -/
def spelledOut (ds : Str) : Str := if ds.length ≤ 4 then ds.flatMap fun c => [c, c] else ds

/-- In upper case and in full, without the alpha of an opaque colour. -/
def canonicalDigits (ds : Str) : Str :=
  let long := (spelledOut ds).map Char.toUpper
  if long.drop 6 = ['F', 'F'] then long.take 6 else long

/-- Three channels, and an alpha in 255ths. -/
inductive HasBytes : Color → List Int → Prop where
  | solid (r g b : Int) : HasBytes ⟨r, g, b, .finite 1⟩ [r, g, b]
  | clear (r g b a : Int) : HasBytes ⟨r, g, b, .finite (a / 255)⟩ [r, g, b, a]

theorem hexInt_pair {a b : Char} {n : Int} (h : hexPair a b = some n) : hexInt [a, b] = .ok n := by
  rw [hexInt, int16_hexPair h]
  rfl

/-- Two hex digits make a byte. -/
theorem hexPair_of_digits {ds : Str} (h : ∀ c ∈ ds, (hexValue c).isSome = true) {a b : Char}
    (ha : a ∈ ds) (hb : b ∈ ds) : ∃ n, hexPair a b = some n := by
  obtain ⟨m, hm⟩ := Option.isSome_iff_exists.mp (h a ha)
  obtain ⟨k, hk⟩ := Option.isSome_iff_exists.mp (h b hb)
  exact ⟨_, by rw [hexPair, hm, hk]; rfl⟩

theorem first_two {n : Nat} {ds : Str} (h : ds.length = n + 2) :
    ∃ a b cs, ds = a :: b :: cs ∧ cs.length = n := by
  obtain ⟨a, ds, rfl⟩ := List.exists_cons_of_length_eq_add_one h
  obtain ⟨b, cs, rfl⟩ := List.exists_cons_of_length_eq_add_one (Nat.succ.inj h)
  exact ⟨a, b, cs, rfl, Nat.succ.inj (Nat.succ.inj h)⟩

/-- A notation is read as the bytes of its digits. -/
theorem parse_pairs {ds : Str} (h : HexNotation ds) :
    ∃ c bs, parse ('#' :: ds) = .ok c ∧ pairs (spelledOut ds) = some bs ∧ HasBytes c bs := by
  obtain ⟨n, hn⟩ := h.form
  have hpair := @hexPair_of_digits ds h.digits
  rw [parse, recognized_digits hn h.digits]
  cases n with
  | hex3 =>
    obtain ⟨r, g, b, rfl⟩ := List.length_eq_three.mp (Option.some.inj hn).symm
    obtain ⟨x, hx⟩ := hpair (a := r) (b := r) (by simp) (by simp)
    obtain ⟨y, hy⟩ := hpair (a := g) (b := g) (by simp) (by simp)
    obtain ⟨z, hz⟩ := hpair (a := b) (b := b) (by simp) (by simp)
    refine ⟨_, [x, y, z], ?_, ?_, .solid x y z⟩
    · show (do return ⟨← hexInt [r, r], ← hexInt [g, g], ← hexInt [b, b], .finite 1⟩ : Except _ Color) = _
      rw [hexInt_pair hx, hexInt_pair hy, hexInt_pair hz]
      rfl
    · simp [spelledOut, pairs, hx, hy, hz]
  | hex4 =>
    obtain ⟨r, g, _, rfl, h₁⟩ := first_two (Option.some.inj hn).symm
    obtain ⟨b, a, _, rfl, h₂⟩ := first_two h₁
    obtain rfl := List.length_eq_zero_iff.mp h₂
    obtain ⟨x, hx⟩ := hpair (a := r) (b := r) (by simp) (by simp)
    obtain ⟨y, hy⟩ := hpair (a := g) (b := g) (by simp) (by simp)
    obtain ⟨z, hz⟩ := hpair (a := b) (b := b) (by simp) (by simp)
    obtain ⟨w, hw⟩ := hpair (a := a) (b := a) (by simp) (by simp)
    refine ⟨_, [x, y, z, w], ?_, ?_, .clear x y z w⟩
    · show (do return ⟨← hexInt [r, r], ← hexInt [g, g], ← hexInt [b, b],
        .finite ((← hexInt [a, a]) / 255)⟩ : Except _ Color) = _
      rw [hexInt_pair hx, hexInt_pair hy, hexInt_pair hz, hexInt_pair hw]
      rfl
    · simp [spelledOut, pairs, hx, hy, hz, hw]
  | hex6 =>
    obtain ⟨r, r', _, rfl, h₁⟩ := first_two (Option.some.inj hn).symm
    obtain ⟨g, g', _, rfl, h₂⟩ := first_two h₁
    obtain ⟨b, b', _, rfl, h₃⟩ := first_two h₂
    obtain rfl := List.length_eq_zero_iff.mp h₃
    obtain ⟨x, hx⟩ := hpair (a := r) (b := r') (by simp) (by simp)
    obtain ⟨y, hy⟩ := hpair (a := g) (b := g') (by simp) (by simp)
    obtain ⟨z, hz⟩ := hpair (a := b) (b := b') (by simp) (by simp)
    refine ⟨_, [x, y, z], ?_, ?_, .solid x y z⟩
    · show (do return ⟨← hexInt [r, r'], ← hexInt [g, g'], ← hexInt [b, b'], .finite 1⟩ :
        Except _ Color) = _
      rw [hexInt_pair hx, hexInt_pair hy, hexInt_pair hz]
      rfl
    · simp [spelledOut, pairs, hx, hy, hz]
  | hex8 =>
    obtain ⟨r, r', _, rfl, h₁⟩ := first_two (Option.some.inj hn).symm
    obtain ⟨g, g', _, rfl, h₂⟩ := first_two h₁
    obtain ⟨b, b', _, rfl, h₃⟩ := first_two h₂
    obtain ⟨a, a', _, rfl, h₄⟩ := first_two h₃
    obtain rfl := List.length_eq_zero_iff.mp h₄
    obtain ⟨x, hx⟩ := hpair (a := r) (b := r') (by simp) (by simp)
    obtain ⟨y, hy⟩ := hpair (a := g) (b := g') (by simp) (by simp)
    obtain ⟨z, hz⟩ := hpair (a := b) (b := b') (by simp) (by simp)
    obtain ⟨w, hw⟩ := hpair (a := a) (b := a') (by simp) (by simp)
    refine ⟨_, [x, y, z, w], ?_, ?_, .clear x y z w⟩
    · show (do return ⟨← hexInt [r, r'], ← hexInt [g, g'], ← hexInt [b, b'],
        .finite ((← hexInt [a, a']) / 255)⟩ : Except _ Color) = _
      rw [hexInt_pair hx, hexInt_pair hy, hexInt_pair hz, hexInt_pair hw]
      rfl
    · simp [spelledOut, pairs, hx, hy, hz, hw]
  | rgb => cases hn
  | rgba => cases hn
  | hsl => cases hn
  | hsla => cases hn

-- ---------------------------------------------------------------------------
-- What `hex` writes
-- ---------------------------------------------------------------------------

/-- The alpha in 255ths, rounded down. -/
def alphaByte (c : Color) : Int :=
  match c.clamped.a with
  | .finite a => truncate (a * 255)
  | _ => 255

/-- The colour as far as `hex` tells it. -/
def rounded (c : Color) : Color := { c.clamped with a := .finite (c.alphaByte / 255) }

def bytes (c : Color) : List Int :=
  [c.clamped.r, c.clamped.g, c.clamped.b] ++ if c.alphaByte = 255 then [] else [c.alphaByte]

theorem clamp_finite (x : Number) : ∃ a : ℚ, x.clamp 0 1 = .finite a ∧ 0 ≤ a ∧ a ≤ 1 := by
  unfold Number.clamp
  cases x with
  | finite q =>
    by_cases hq : q < 1
    · by_cases h0 : 0 < q
      · exact ⟨q, by simp [Number.lt, Number.gt, hq, h0], by linarith, by linarith⟩
      · exact ⟨0, by simp [Number.lt, Number.gt, hq, h0], le_refl 0, zero_le_one⟩
    · exact ⟨1, by simp [Number.lt, Number.gt, hq], zero_le_one, le_refl 1⟩
  | infinite negative =>
    cases negative with
    | false => exact ⟨1, by simp [Number.lt, Number.gt], zero_le_one, le_refl 1⟩
    | true => exact ⟨0, by simp [Number.lt, Number.gt], le_refl 0, zero_le_one⟩
  | nan => exact ⟨1, by simp [Number.lt, Number.gt], zero_le_one, le_refl 1⟩

theorem alphaByte_eq {c : Color} {a : ℚ} (h : c.clamped.a = .finite a) :
    c.alphaByte = truncate (a * 255) := by
  rw [alphaByte, h]

theorem truncate_alpha {a : ℚ} (h₀ : 0 ≤ a) (h₁ : a ≤ 1) :
    IsByte (truncate (a * 255)) ∧ (truncate (a * 255) = 255 ↔ a = 1) := by
  have hnonneg : 0 ≤ a * 255 := by positivity
  rw [truncate, if_pos hnonneg]
  refine ⟨⟨Int.floor_nonneg.mpr hnonneg, Int.floor_le_iff.mpr ?_⟩, ?_⟩
  · push_cast
    linarith
  · rw [Int.floor_eq_iff]
    push_cast
    constructor
    · rintro ⟨hle, -⟩
      linarith
    · rintro rfl
      norm_num

theorem alphaByte_isByte (c : Color) : IsByte c.alphaByte := by
  obtain ⟨a, ha, h₀, h₁⟩ := clamp_finite c.a
  rw [alphaByte_eq (show c.clamped.a = .finite a from ha)]
  exact (truncate_alpha h₀ h₁).1

theorem bytes_isByte (c : Color) : ∀ n ∈ c.bytes, IsByte n := by
  obtain ⟨hr, hg, hb⟩ := clamped_inRange c
  have ha := alphaByte_isByte c
  intro n hn
  unfold bytes at hn
  split at hn
  · simp only [List.append_nil, List.mem_cons, List.not_mem_nil, or_false] at hn
    rcases hn with rfl | rfl | rfl
    · exact hr
    · exact hg
    · exact hb
  · simp only [List.cons_append, List.nil_append, List.mem_cons, List.not_mem_nil, or_false] at hn
    rcases hn with rfl | rfl | rfl | rfl
    · exact hr
    · exact hg
    · exact hb
    · exact ha

theorem hex_bytes (c : Color) : c.hex = '#' :: c.bytes.flatMap hexByte := by
  obtain ⟨a, ha, h₀, h₁⟩ := clamp_finite c.a
  have ha : c.clamped.a = .finite a := ha
  rw [hex, bytes, ha, alphaByte_eq ha]
  by_cases hone : a = 1
  · rw [if_pos ((truncate_alpha h₀ h₁).2.mpr hone)]
    simp [hone, hex6]
  · rw [if_neg fun h => hone ((truncate_alpha h₀ h₁).2.mp h)]
    simp [hone, hex6]

theorem clamp_of_range {q : ℚ} (h₀ : 0 ≤ q) (h₁ : q ≤ 1) : (Number.finite q).clamp 0 1 = .finite q := by
  unfold Number.clamp
  rcases h₁.lt_or_eq with hlt | rfl
  · rcases h₀.lt_or_eq with hpos | rfl
    · simp [Number.lt, Number.gt, hlt, hpos]
    · simp [Number.lt, Number.gt]
  · simp [Number.lt, Number.gt]

/-- A colour of bytes is as `hex` tells it. -/
theorem rounded_of_bytes {r g b n : Int} (hr : IsByte r) (hg : IsByte g) (hb : IsByte b) (hn : IsByte n) :
    alphaByte ⟨r, g, b, .finite (n / 255)⟩ = n ∧
      rounded ⟨r, g, b, .finite (n / 255)⟩ = ⟨r, g, b, .finite (n / 255)⟩ := by
  have h₀ : (0 : ℚ) ≤ n / 255 := by
    have : (0 : ℚ) ≤ n := by exact_mod_cast hn.1
    positivity
  have h₁ : (n / 255 : ℚ) ≤ 1 := by
    have : (n : ℚ) ≤ 255 := by exact_mod_cast hn.2
    linarith
  have ha : (clamped ⟨r, g, b, .finite (n / 255)⟩).a = .finite (n / 255) := clamp_of_range h₀ h₁
  have hbyte : alphaByte ⟨r, g, b, .finite (n / 255)⟩ = n := by
    rw [alphaByte_eq ha, div_mul_cancel₀ _ (by norm_num : (255 : ℚ) ≠ 0), truncate,
      if_pos (by exact_mod_cast hn.1), Int.floor_intCast]
  refine ⟨hbyte, ?_⟩
  rw [rounded, hbyte, clamped, clampByte_of_range hr, clampByte_of_range hg, clampByte_of_range hb]

theorem HasBytes.rounded {c : Color} {bs : List Int} (h : HasBytes c bs) (hbs : ∀ n ∈ bs, IsByte n) :
    c.rounded = c ∧ (bs = c.bytes ∨ c.alphaByte = 255 ∧ bs = c.bytes ++ [255]) := by
  have hfull : (1 : ℚ) = ((255 : Int) : ℚ) / 255 := by norm_num
  cases h with
  | solid r g b =>
    have hr := hbs r (by simp)
    have hg := hbs g (by simp)
    have hb := hbs b (by simp)
    rw [hfull]
    obtain ⟨hbyte, hrounded⟩ := rounded_of_bytes hr hg hb (n := 255) ⟨by omega, by omega⟩
    refine ⟨hrounded, .inl ?_⟩
    rw [bytes, hbyte, if_pos rfl]
    simp only [clamped, clampByte_of_range hr, clampByte_of_range hg, clampByte_of_range hb,
      List.append_nil]
  | clear r g b n =>
    have hr := hbs r (by simp)
    have hg := hbs g (by simp)
    have hb := hbs b (by simp)
    obtain ⟨hbyte, hrounded⟩ := rounded_of_bytes hr hg hb (hbs n (by simp))
    refine ⟨hrounded, ?_⟩
    rw [bytes, hbyte]
    simp only [clamped, clampByte_of_range hr, clampByte_of_range hg, clampByte_of_range hb]
    by_cases hn : n = 255
    · rw [if_pos hn, hn]
      exact .inr ⟨rfl, rfl⟩
    · rw [if_neg hn]
      exact .inl rfl

-- ---------------------------------------------------------------------------
-- Read back
-- ---------------------------------------------------------------------------

/-- What bytes are written with is a notation. -/
theorem bytes_notation (c : Color) : HexNotation (c.bytes.flatMap hexByte) ∧
    spelledOut (c.bytes.flatMap hexByte) = c.bytes.flatMap hexByte := by
  have hlen : (c.bytes.flatMap hexByte).length = 6 ∨ (c.bytes.flatMap hexByte).length = 8 := by
    unfold bytes
    split
    · exact .inl rfl
    · exact .inr rfl
  refine ⟨⟨?_, fun d hd => ?_⟩, ?_⟩
  · rcases hlen with h | h
    · exact ⟨.hex6, congrArg some h.symm⟩
    · exact ⟨.hex8, congrArg some h.symm⟩
  · obtain ⟨n, hn, hd⟩ := List.mem_flatMap.mp hd
    obtain ⟨a, b, hab, ha, hb⟩ := hexByte_digits (c.bytes_isByte n hn)
    rw [hab, List.mem_cons, List.mem_singleton] at hd
    rcases hd with rfl | rfl
    · rw [ha]
      rfl
    · rw [hb]
      rfl
  · rw [spelledOut, if_neg (by omega)]

/-- What `hex` writes is read as the colour, its channels clamped and its alpha rounded
down to 255ths. -/
theorem parse_hex (c : Color) : parse c.hex = .ok c.rounded := by
  obtain ⟨hdigits, hspelled⟩ := c.bytes_notation
  obtain ⟨d, bs, hparse, hpairs, hbytes⟩ := parse_pairs hdigits
  rw [hspelled, pairs_hexByte c.bytes_isByte] at hpairs
  obtain rfl := Option.some.inj hpairs
  rw [hex_bytes, hparse]
  refine congrArg Except.ok ?_
  unfold bytes at hbytes
  split at hbytes
  · rename_i hfull
    cases hbytes
    rw [Color.rounded, hfull]
    norm_num
  · cases hbytes
    rfl

theorem rounded_hex (c : Color) : c.rounded.hex = c.hex := by
  obtain ⟨hr, hg, hb⟩ := clamped_inRange c
  obtain ⟨hbyte, -⟩ := rounded_of_bytes hr hg hb c.alphaByte_isByte
  have hbyte : c.rounded.alphaByte = c.alphaByte := hbyte
  have hchannels : c.rounded.clamped.r = c.clamped.r ∧ c.rounded.clamped.g = c.clamped.g ∧
      c.rounded.clamped.b = c.clamped.b :=
    ⟨clampByte_of_range hr, clampByte_of_range hg, clampByte_of_range hb⟩
  rw [hex_bytes, hex_bytes, bytes, bytes, hbyte, hchannels.1, hchannels.2.1, hchannels.2.2]

/-- The canonical text of a notation is what `hex` writes of its colour. -/
theorem HasBytes.canonicalDigits {c : Color} {bs : List Int} {ds : Str} (h : HasBytes c bs)
    (hpairs : pairs (spelledOut ds) = some bs) : c.hex = '#' :: canonicalDigits ds := by
  obtain ⟨hdigits, hbs⟩ := hexByte_pairs hpairs
  rw [hex_bytes, Color.canonicalDigits, ← hdigits]
  refine congrArg (List.cons '#') ?_
  rcases (h.rounded hbs).2 with rfl | ⟨hfull, rfl⟩
  · refine (if_neg fun hlast => ?_).symm
    unfold bytes at hlast
    split at hlast
    · cases hlast
    · rename_i hnot
      exact hnot ((hexByte_full c.alphaByte_isByte).mp hlast)
  · rw [bytes, if_pos hfull]
    rfl

/-- **Hex notations are canonical**: each stands for a colour whose `hex` is the canonical
text of that notation; the colours with that `hex` are those that round to it, and the
notations with that canonical text are those that are read as it. -/
theorem hex_canonical (ds : Str) (h : HexNotation ds) :
    ∃ c, parse ('#' :: ds) = .ok c ∧ c.hex = '#' :: canonicalDigits ds ∧
      (∀ d : Color, d.hex = c.hex ↔ d.rounded = c) ∧
      ∀ es, HexNotation es → (parse ('#' :: es) = .ok c ↔ canonicalDigits es = canonicalDigits ds) := by
  obtain ⟨c, bs, hparse, hpairs, hbytes⟩ := parse_pairs h
  have hhex := hbytes.canonicalDigits hpairs
  have hcolors : ∀ d : Color, d.hex = c.hex ↔ d.rounded = c := by
    intro d
    constructor
    · intro hd
      have hback : d.rounded = c.rounded := by
        have := d.parse_hex
        rw [hd, parse_hex] at this
        exact (Except.ok.inj this).symm
      rw [hback, (hbytes.rounded (hexByte_pairs hpairs).2).1]
    · intro hd
      rw [← hd, rounded_hex]
  refine ⟨c, hparse, hhex, hcolors, fun es hes => ?_⟩
  obtain ⟨d, bs', hparse', hpairs', hbytes'⟩ := parse_pairs hes
  have hhex' := hbytes'.canonicalDigits hpairs'
  rw [hparse']
  constructor
  · intro heq
    rw [Except.ok.inj heq, hhex] at hhex'
    exact (List.cons.inj hhex').2.symm
  · intro heq
    rw [heq, ← hhex] at hhex'
    have hd := (hcolors d).mp hhex'
    rw [(hbytes'.rounded (hexByte_pairs hpairs').2).1] at hd
    rw [hd]

/-- A short notation with an alpha of full opacity. -/
theorem hex_canonical_short :
    ∃ c, parse "#1bCf".toList = .ok c ∧ c.hex = '#' :: canonicalDigits "1bCf".toList ∧
      (∀ d : Color, d.hex = c.hex ↔ d.rounded = c) ∧
      ∀ es, HexNotation es →
        (parse ('#' :: es) = .ok c ↔ canonicalDigits es = canonicalDigits "1bCf".toList) :=
  hex_canonical "1bCf".toList ⟨⟨.hex4, rfl⟩, List.all_eq_true.mp (by decide)⟩

example : canonicalDigits "1bCf".toList = "11BBCC".toList := by decide

end Color

end ScietexLogging
