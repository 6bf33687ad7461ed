import ScietexLogging.Color.Parse
import ScietexLogging.Theme.Hex

/-!
# Color — `hex6`, read back

`hex6` writes `#` and six hex digits, from which both readers, `_parse_hex` and
`Color.parse`, get the clamped channels again.

* `HexForm` — `#` and six hex digits;
* `hexColor_hex6`, `parse_hex6` — the channels, read back.
-/

namespace ScietexLogging

open Python

/-- `#` followed by six hex digits. -/
def HexForm (s : Str) : Prop :=
  ∃ ds, s = '#' :: ds ∧ ds.length = 6 ∧ ∀ c ∈ ds, (hexValue c).isSome = true

theorem HexForm.hexColor {s : Str} (h : HexForm s) : (hexColor s).isSome = true := by
  obtain ⟨ds, rfl, hlen, hds⟩ := h
  obtain ⟨a, b, c, d, e, f, rfl⟩ : ∃ a b c d e f, ds = [a, b, c, d, e, f] := by
    rcases ds with _ | ⟨a, _ | ⟨b, _ | ⟨c, _ | ⟨d, _ | ⟨e, _ | ⟨f, _ | ⟨g, t⟩⟩⟩⟩⟩⟩⟩
    all_goals first
      | exact ⟨a, b, c, d, e, f, rfl⟩
      | simp at hlen
  have hpair : ∀ x ∈ [a, b, c, d, e, f], ∀ y ∈ [a, b, c, d, e, f], (hexPair x y).isSome = true := by
    intro x hx y hy
    obtain ⟨m, hm⟩ := Option.isSome_iff_exists.mp (hds x hx)
    obtain ⟨n, hn⟩ := Option.isSome_iff_exists.mp (hds y hy)
    rw [hexPair, hm, hn]
    rfl
  obtain ⟨r, hr⟩ := Option.isSome_iff_exists.mp (hpair a (by simp) b (by simp))
  obtain ⟨g, hg⟩ := Option.isSome_iff_exists.mp (hpair c (by simp) d (by simp))
  obtain ⟨b', hb⟩ := Option.isSome_iff_exists.mp (hpair e (by simp) f (by simp))
  rw [hexColor_six rfl, hr, hg, hb]
  rfl

/-- How many hex digits a notation has. -/
def ColorForm.digits : ColorForm → Option Nat
  | .hex3 => some 3
  | .hex4 => some 4
  | .hex6 => some 6
  | .hex8 => some 8
  | _ => none

namespace Color

theorem hexValue_digitChar {k : Nat} (h : k < 16) : hexValue (Nat.digitChar k).toUpper = some k := by
  have hall : ∀ k < 16, hexValue (Nat.digitChar k).toUpper = some k := by decide
  exact hall k h

/-- The digits of a byte. -/
theorem hexByte_digits {n : Int} (h : 0 ≤ n ∧ n ≤ 255) :
    ∃ a b, hexByte n = [a, b] ∧ hexValue a = some (n.toNat / 16) ∧ hexValue b = some (n.toNat % 16) :=
  ⟨_, _, rfl, hexValue_digitChar (by omega), hexValue_digitChar (by omega)⟩

theorem hexPair_digits {a b : Char} {n : Int} (h : 0 ≤ n)
    (ha : hexValue a = some (n.toNat / 16)) (hb : hexValue b = some (n.toNat % 16)) :
    hexPair a b = some n := by
  rw [hexPair, ha, hb]
  show some ((16 * (n.toNat / 16) + n.toNat % 16 : Nat) : Int) = _
  rw [Nat.div_add_mod, Int.toNat_of_nonneg h]

/-- The six digits of a colour. -/
theorem hex6_digits (c : Color) :
    ∃ r r' g g' b b', c.hex6 = ['#', r, r', g, g', b, b'] ∧
      (∀ d ∈ [r, r', g, g', b, b'], (hexValue d).isSome = true) ∧
      hexPair r r' = some c.clamped.r ∧ hexPair g g' = some c.clamped.g ∧
      hexPair b b' = some c.clamped.b := by
  obtain ⟨hr, hg, hb⟩ := clamped_inRange c
  obtain ⟨r, r', hrs, hr₁, hr₂⟩ := hexByte_digits hr
  obtain ⟨g, g', hgs, hg₁, hg₂⟩ := hexByte_digits hg
  obtain ⟨b, b', hbs, hb₁, hb₂⟩ := hexByte_digits hb
  refine ⟨r, r', g, g', b, b', ?_, ?_, hexPair_digits hr.1 hr₁ hr₂, hexPair_digits hg.1 hg₁ hg₂,
    hexPair_digits hb.1 hb₁ hb₂⟩
  · rw [hex6, hrs, hgs, hbs]
    rfl
  · simp [hr₁, hr₂, hg₁, hg₂, hb₁, hb₂]

theorem hexForm_hex6 (c : Color) : HexForm c.hex6 := by
  obtain ⟨r, r', g, g', b, b', hc, hds, -⟩ := hex6_digits c
  exact ⟨_, hc, rfl, hds⟩

theorem hexColor_hex6 (c : Color) : hexColor c.hex6 = some (c.clamped.r, c.clamped.g, c.clamped.b) := by
  obtain ⟨r, r', g, g', b, b', hc, -, hr, hg, hb⟩ := hex6_digits c
  rw [hc, hexColor_six rfl, hr, hg, hb]

/-- A repetition that has one count to take. -/
theorem counts_exact {p : Char → Bool} {k : Nat} {s : Str} (h : k ≤ (s.takeWhile p).length) :
    Pattern.counts p k (some k) s = [k] := by
  have hrange : (List.range (k + 1)).filter (k ≤ ·) = [k] := by
    rw [List.range_succ, List.filter_append, List.filter_eq_nil_iff.mpr]
    · simp
    · intro m hm
      have := List.mem_range.mp hm
      simp only [decide_eq_true_eq]
      omega
  show ((List.range (min _ k + 1)).filter (k ≤ ·)).reverse = [k]
  rw [Nat.min_eq_right h, hrange]
  rfl

/-- `#` and digits, against a notation of no more digits. -/
theorem run_hashed {ds : Str} (h : ∀ x ∈ ds, (hexValue x).isSome = true)
    {i k : Nat} (hk : k ≤ ds.length) {n : ColorForm} (hn : n.pattern = hexes k) :
    (Pattern.run (hashed i n) ⟨[], '#' :: ds, fun _ => none⟩) =
      if k = ds.length then [⟨ds.reverse ++ ['#'], [], Function.update (fun _ => none) i (some ds)⟩]
      else [] := by
  have htake : k ≤ (ds.takeWhile fun c => (hexValue c).isSome).length := by
    rwa [List.takeWhile_eq_self_iff.mpr h]
  have hrun : Pattern.run (hexes k) ⟨['#'], ds, fun _ => none⟩ =
      [Place.advance ⟨['#'], ds, fun _ => none⟩ k] := by
    rw [hexes, Pattern.run, counts_exact htake]
    rfl
  have hhash : Pattern.run (.one (· = '#')) ⟨[], '#' :: ds, fun _ => none⟩ =
      [⟨['#'], ds, fun _ => none⟩] := rfl
  have hgroup : Pattern.run (hashed i n) ⟨[], '#' :: ds, fun _ => none⟩ =
      Pattern.run .atEnd (Place.capture ⟨['#'], ds, fun _ => none⟩ i
        (Place.advance ⟨['#'], ds, fun _ => none⟩ k)) := by
    rw [hashed, hn, Pattern.run, Pattern.run, if_pos rfl, List.flatMap_singleton, Pattern.run, hhash,
      List.flatMap_singleton, Pattern.run, Pattern.run, hrun, List.map_singleton,
      List.flatMap_singleton]
  have hsince : Place.since ⟨['#'], ds, fun _ => none⟩ (Place.advance ⟨['#'], ds, fun _ => none⟩ k) =
      ds.take k := (Pattern.consumes_advance _ k).since
  rw [hgroup, Pattern.run, Place.capture, hsince]
  show (if ds.drop k = [] ∨ ds.drop k = ['\n'] then _ else _) = _
  by_cases hlen : k = ds.length
  · have htake : ds.take k = ds := List.take_of_length_le (by omega)
    have hdrop : ds.drop k = [] := List.drop_of_length_le (by omega)
    rw [if_pos hlen, if_pos (.inl hdrop)]
    simp only [Place.advance, htake, hdrop]
  · rw [if_neg hlen, if_neg]
    rintro (hnil | hnl)
    · have := List.drop_eq_nil_iff.mp hnil
      omega
    · have hmem : '\n' ∈ ds := List.mem_of_mem_drop (hnl ▸ List.mem_singleton_self '\n')
      exact absurd (h _ hmem) (by decide)

/-- `#` and as many digits as a notation has are of that notation. -/
theorem recognized_digits {n : ColorForm} {ds : Str} (hlen : n.digits = some ds.length)
    (h : ∀ x ∈ ds, (hexValue x).isSome = true) : recognized ('#' :: ds) = some (n, ds) := by
  have hfind : ∀ {i : Nat}, Pattern.find reColor ('#' :: ds) =
        some ⟨ds.reverse ++ ['#'], [], Function.update (fun _ => none) i (some ds)⟩ →
      recognized ('#' :: ds) = groups.findSome? fun g =>
        (Function.update (fun _ => none) i (some ds) g.1).map fun t => (g.2, t) := by
    intro i hi
    rw [recognized, hi]
    rfl
  have hdigits : ∀ {k : Nat}, some k = some ds.length → ds.length = k := fun hk => (Option.some.inj hk).symm
  cases n with
  | hex3 =>
    have hlen := hdigits hlen
    refine hfind (i := 1) ?_
    rw [Pattern.find, reColor, Pattern.run, run_hashed h (k := 3) (by omega) rfl, hlen]
    rfl
  | hex4 =>
    have hlen := hdigits hlen
    refine hfind (i := 2) ?_
    rw [Pattern.find, reColor, Pattern.run, Pattern.run, run_hashed h (k := 3) (by omega) rfl,
      run_hashed h (k := 4) (by omega) rfl, hlen]
    rfl
  | hex6 =>
    have hlen := hdigits hlen
    refine hfind (i := 3) ?_
    rw [Pattern.find, reColor, Pattern.run, Pattern.run, Pattern.run,
      run_hashed h (k := 3) (by omega) rfl, run_hashed h (k := 4) (by omega) rfl,
      run_hashed h (k := 6) (by omega) rfl, hlen]
    rfl
  | hex8 =>
    have hlen := hdigits hlen
    refine hfind (i := 4) ?_
    rw [Pattern.find, reColor, Pattern.run, Pattern.run, Pattern.run, Pattern.run,
      run_hashed h (k := 3) (by omega) rfl, run_hashed h (k := 4) (by omega) rfl,
      run_hashed h (k := 6) (by omega) rfl, run_hashed h (k := 8) (by omega) rfl, hlen]
    rfl
  | rgb => cases hlen
  | rgba => cases hlen
  | hsl => cases hlen
  | hsla => cases hlen

theorem parse_hex6 (c : Color) :
    parse c.hex6 = .ok ⟨c.clamped.r, c.clamped.g, c.clamped.b, .finite 1⟩ := by
  obtain ⟨r, r', g, g', b, b', hc, hds, hr, hg, hb⟩ := hex6_digits c
  rw [hc, parse, recognized_digits (n := .hex6) rfl hds]
  show (do
    let x ← hexInt [r, r']
    let y ← hexInt [g, g']
    let z ← hexInt [b, b']
    return ⟨x, y, z, .finite 1⟩ : Except ColorError Color) = _
  rw [hexInt, hexInt, hexInt, int16_hexPair hr, int16_hexPair hg, int16_hexPair hb]
  rfl

end Color

end ScietexLogging
