import ScietexLogging.Json.Grammar
import ScietexLogging.Python.Values

/-!
# Python — `json.dumps`

`dumps` is `json.dumps(value, default=repr)`: an object becomes the text of its `repr`, but
a key of a dictionary that is no key of JSON raises, and the floats that are not finite are
written as JSON has no numbers.

* `Value.json`  — the JSON value that a value is, if it is one;
* `json_isSome` — it is one if nothing in it is such a key or such a float;
* `dumps_reads` — what `dumps` writes is read as `Value.json` says, and has printable ASCII
                  characters only.
-/

namespace Python

-- ---------------------------------------------------------------------------
-- Texts
-- ---------------------------------------------------------------------------

/-- `\u` and four digits -/
def unicodeEscape (n : Nat) : Str :=
  ['\\', 'u', Nat.digitChar (n / 0x1000 % 16), Nat.digitChar (n / 0x100 % 16),
    Nat.digitChar (n / 0x10 % 16), Nat.digitChar (n % 16)]

/-- A character between quotes, in ASCII. -/
def escaped (c : Char) : Str :=
  if c = '"' then ['\\', '"']
  else if c = '\\' then ['\\', '\\']
  else if c = '\n' then ['\\', 'n']
  else if c = '\r' then ['\\', 'r']
  else if c = '\t' then ['\\', 't']
  else if c.toNat = 0x0c then ['\\', 'f']
  else if c.toNat = 0x08 then ['\\', 'b']
  else if 0x20 ≤ c.toNat ∧ c.toNat < 0x7f then [c]
  else (Json.utf16 c.toNat).flatMap unicodeEscape

def quoted (s : Str) : Str := '"' :: (s.flatMap escaped ++ ['"'])

def boolText (b : Bool) : Str := if b then "true".toList else "false".toList

def floatText : PyFloat → Str
  | .finite d => d.repr
  | .infinite negative => if negative then "-Infinity".toList else "Infinity".toList
  | .nan => "NaN".toList

/-- The name of a member; none is the `TypeError`. -/
def keyText : Key → Option Str
  | .none => some "null".toList
  | .bool b => some (boolText b)
  | .int n => some (intRepr n)
  | .float x => some (floatText x)
  | .str s => some s
  | .other _ => none

-- ---------------------------------------------------------------------------
-- dumps
-- ---------------------------------------------------------------------------

def memberText (name text : Str) : Str := quoted name ++ ':' :: ' ' :: text

def arrayText (ts : List Str) : Str := '[' :: (Json.joined ts ++ [']'])

def objectText (ts : List Str) : Str := '{' :: (Json.joined ts ++ ['}'])

mutual

/-- `json.dumps(value, default=repr)`; it raises on a key. -/
def dumps : Value → Except Key Str
  | .none => .ok "null".toList
  | .bool b => .ok (boolText b)
  | .int n => .ok (intRepr n)
  | .float x => .ok (floatText x)
  | .str s => .ok (quoted s)
  | .list xs => (dumpsList xs).map arrayText
  | .tuple xs => (dumpsList xs).map arrayText
  | .dict items => (dumpsItems items).map objectText
  | .object repr => .ok (quoted repr)
termination_by structural v => v

def dumpsList : List Value → Except Key (List Str)
  | [] => .ok []
  | v :: vs => do
    let t ← dumps v
    let ts ← dumpsList vs
    return t :: ts
termination_by structural vs => vs

def dumpsItems : List (Key × Value) → Except Key (List Str)
  | [] => .ok []
  | (k, v) :: items => do
    let name ← (keyText k).elim (.error k) .ok
    let t ← dumps v
    let ts ← dumpsItems items
    return memberText name t :: ts
termination_by structural items => items

end

-- ---------------------------------------------------------------------------
-- What a value is in JSON
-- ---------------------------------------------------------------------------

/-- The code points of a text. -/
def codes (s : Str) : List Nat := s.map Char.toNat

mutual

/-- The JSON value it is, if it is one. -/
def Value.json : Value → Option Json
  | .none => some .null
  | .bool b => some (.bool b)
  | .int n => some (.number (intRepr n))
  | .float (.finite d) => some (.number d.repr)
  | .float _ => none
  | .str s => some (.string (codes s))
  | .list xs => (jsonList xs).map .array
  | .tuple xs => (jsonList xs).map .array
  | .dict items => (jsonItems items).map .object
  | .object repr => some (.string (codes repr))
termination_by structural v => v

def jsonList : List Value → Option (List Json)
  | [] => some []
  | v :: vs => v.json.bind fun j => (jsonList vs).map (j :: ·)
termination_by structural vs => vs

def jsonItems : List (Key × Value) → Option (List (List Nat × Json))
  | [] => some []
  | (k, v) :: items =>
    (keyText k).bind fun name => v.json.bind fun j =>
      (jsonItems items).map ((codes name, j) :: ·)
termination_by structural items => items

end

/-- Nothing in it, however deep, is a float that is not finite or a key that is no key of
JSON. -/
inductive Value.Clean : Value → Prop where
  | none : Clean .none
  | bool (b : Bool) : Clean (.bool b)
  | int (n : Int) : Clean (.int n)
  | float (d : Shortest) : Clean (.float (.finite d))
  | str (s : Str) : Clean (.str s)
  | list {xs : List Value} (h : ∀ v ∈ xs, Clean v) : Clean (.list xs)
  | tuple {xs : List Value} (h : ∀ v ∈ xs, Clean v) : Clean (.tuple xs)
  | dict {items : List (Key × Value)} (hkey : ∀ p ∈ items, ∀ repr, p.1 ≠ .other repr)
    (h : ∀ p ∈ items, Clean p.2) : Clean (.dict items)
  | object (repr : Str) : Clean (.object repr)

-- ---------------------------------------------------------------------------
-- Numbers
-- ---------------------------------------------------------------------------

open Json

theorem isDigits_toDigits (n : Nat) : IsDigits (Nat.toDigits 10 n) :=
  ⟨Nat.toDigits_ne_nil, fun _ hc => Nat.isDigit_of_mem_toDigits (by decide) (by decide) hc⟩

/-- No digits but those of zero begin with a zero. -/
theorem without_zero_toDigits {n : Nat} (h : 0 < n) : Without (· = '0') (Nat.toDigits 10 n) := by
  induction n using Nat.strongRecOn with
  | ind n ih =>
    by_cases hlt : n < 10
    · rw [Nat.toDigits_of_lt_base hlt]
      refine .cons ?_ []
      have hall : ∀ d < 10, 0 < d → decide (Nat.digitChar d = '0') = false := by decide
      exact hall n hlt h
    · have hrec := ih (n / 10) (by omega) (by omega)
      rw [Nat.toDigits_of_base_le (by decide) (by omega)]
      obtain ⟨c, s, heq, -⟩ := (isDigits_toDigits (n / 10)).head
      rw [heq] at hrec ⊢
      exact .cons (hrec c s rfl) _

theorem isWhole_toDigits (n : Nat) : IsWhole (Nat.toDigits 10 n) := by
  rcases Nat.eq_zero_or_pos n with rfl | h
  · exact .inl rfl
  · exact .inr ⟨isDigits_toDigits n, without_zero_toDigits h⟩

theorem isNumber_intRepr (n : Int) : IsNumber (intRepr n) := by
  have hwhole := isWhole_toDigits n.natAbs
  have hplain := IsNumber.positive hwhole (.inl rfl) (.inl rfl)
  have hminus := IsNumber.negative hwhole (.inl rfl) (.inl rfl)
  rw [List.append_nil, List.append_nil] at hplain hminus
  unfold intRepr
  split
  · exact hminus
  · exact hplain

theorem isDigit_digit (d : Fin 10) : (digit d).isDigit = true := by
  rw [digit, Nat.isDigit_digitChar]
  exact decide_eq_true d.isLt

theorem digit_ne_zero {d : Fin 10} (h : d ≠ 0) : digit d ≠ '0' := by
  have hall : ∀ d : Fin 10, d ≠ 0 → digit d ≠ '0' := by decide
  exact hall d h

/-- Digits, and some zeros among them. -/
theorem isDigits_of_all {ds : List Char} (hne : ds ≠ [])
    (h : ∀ c ∈ ds, c = '0' ∨ ∃ d : Fin 10, c = digit d) : IsDigits ds := by
  refine ⟨hne, fun c hc => ?_⟩
  rcases h c hc with rfl | ⟨d, rfl⟩
  · rfl
  · exact isDigit_digit d

theorem isDigits_map {ds : List (Fin 10)} (h : ds ≠ []) : IsDigits (ds.map digit) := by
  refine isDigits_of_all (by simpa using h) fun c hc => .inr ?_
  obtain ⟨d, -, rfl⟩ := List.mem_map.mp hc
  exact ⟨d, rfl⟩

theorem isWhole_digit (d : Fin 10) : IsWhole [digit d] := by
  by_cases h : d = 0
  · rw [h]
    exact .inl rfl
  · exact .inr ⟨isDigits_map (List.cons_ne_nil d []), .cons (by simp [digit_ne_zero h]) []⟩

theorem isExponent_exponentRepr (e : Int) : IsExponent ('e' :: exponentRepr e) := by
  refine .inr ⟨'e', [if e < 0 then '-' else '+'], _, rfl, .inl rfl, ?_, ?_, ?_⟩
  · split
    · exact .inr (.inr rfl)
    · exact .inr (.inl rfl)
  · exact fun h => Nat.toDigits_ne_nil (List.append_eq_nil_iff.mp h).2
  · intro c hc
    rcases List.mem_append.mp hc with hc | hc
    · rw [List.eq_of_mem_replicate hc]
      rfl
    · exact (isDigits_toDigits _).2 c hc

/-- The digits before the point, which is not before the first of them. -/
theorem isWhole_take (d : Shortest) (h : 0 < d.point) :
    IsWhole (((d.first :: d.rest).map digit).take d.point.toNat ++
      List.replicate (d.point.toNat - ((d.first :: d.rest).map digit).length) '0') := by
  by_cases hzero : d.first = 0
  · obtain ⟨hrest, hpoint⟩ := d.normal hzero
    rw [hzero, hrest, hpoint]
    exact .inl rfl
  · obtain ⟨k, hk⟩ : ∃ k, d.point.toNat = k + 1 := ⟨d.point.toNat - 1, by omega⟩
    rw [hk, List.map_cons, List.take_succ_cons, List.cons_append]
    refine .inr ⟨isDigits_of_all (List.cons_ne_nil _ _) fun c hc => ?_, .cons ?_ _⟩
    · rcases List.mem_cons.mp hc with rfl | hc
      · exact .inr ⟨d.first, rfl⟩
      · rcases List.mem_append.mp hc with hc | hc
        · obtain ⟨e, -, rfl⟩ := List.mem_map.mp (List.mem_of_mem_take hc)
          exact .inr ⟨e, rfl⟩
        · exact .inl (List.eq_of_mem_replicate hc)
    · simp [digit_ne_zero hzero]

theorem unsigned_parts (d : Shortest) : ∃ w f e, d.unsigned = w ++ (f ++ e) ∧ IsWhole w ∧
    IsFraction f ∧ IsExponent e := by
  unfold Shortest.unsigned
  simp only
  split
  · refine ⟨[digit d.first], _, _, rfl, isWhole_digit d.first, ?_, isExponent_exponentRepr _⟩
    split
    · exact .inl rfl
    · rename_i hrest
      exact .inr ⟨_, rfl, isDigits_map hrest⟩
  · split
    · have hdigits : IsDigits (List.replicate d.point.natAbs '0' ++ (d.first :: d.rest).map digit) := by
        refine isDigits_of_all (by simp) fun c hc => ?_
        rcases List.mem_append.mp hc with hc | hc
        · exact .inl (List.eq_of_mem_replicate hc)
        · obtain ⟨e, -, rfl⟩ := List.mem_map.mp hc
          exact .inr ⟨e, rfl⟩
      exact ⟨['0'], _, [], by rw [List.append_nil]; rfl, .inl rfl, .inr ⟨_, rfl, hdigits⟩, .inl rfl⟩
    · refine ⟨_, _, [], by rw [List.append_nil], isWhole_take d (by omega), .inr ⟨_, rfl, ?_⟩, .inl rfl⟩
      split
      · exact isDigits_of_all (List.cons_ne_nil _ _) fun c hc => .inl (List.mem_singleton.mp hc)
      · rename_i hpart
        refine isDigits_of_all hpart fun c hc => .inr ?_
        obtain ⟨e, -, rfl⟩ := List.mem_map.mp (List.mem_of_mem_drop hc)
        exact ⟨e, rfl⟩

theorem isNumber_repr (d : Shortest) : IsNumber d.repr := by
  obtain ⟨w, f, e, heq, hw, hf, he⟩ := unsigned_parts d
  unfold Shortest.repr
  rw [heq]
  split
  · exact .negative hw hf he
  · exact .positive hw hf he

-- ---------------------------------------------------------------------------
-- Strings
-- ---------------------------------------------------------------------------

theorem hexValue_digitChar {d : Nat} (h : d < 16) : hexValue (Nat.digitChar d) = some d := by
  have hall : ∀ d < 16, hexValue (Nat.digitChar d) = some d := by decide
  exact hall d h

theorem units_unicodeEscape {n : Nat} (h : n < 0x10000) (s : List Char) :
    units .plain (unicodeEscape n ++ s) = push n (units .plain s) := by
  have hcode := units_code (hexValue_digitChar (Nat.mod_lt (n / 0x1000) (by decide)))
    (hexValue_digitChar (Nat.mod_lt (n / 0x100) (by decide)))
    (hexValue_digitChar (Nat.mod_lt (n / 0x10) (by decide)))
    (hexValue_digitChar (Nat.mod_lt n (by decide))) s
  have hvalue : 16 * (16 * (16 * (n / 0x1000 % 16) + n / 0x100 % 16) + n / 0x10 % 16) + n % 16 = n := by
    omega
  rw [hvalue] at hcode
  exact hcode

theorem utf16_lt {n m : Nat} (h : IsScalar n) (hm : m ∈ utf16 n) : m < 0x10000 := by
  unfold IsScalar at h
  unfold utf16 at hm
  split at hm
  · rw [List.mem_singleton.mp hm]
    assumption
  · simp only [List.mem_cons, List.not_mem_nil, or_false] at hm
    omega

theorem units_unicodeEscapes {ns : List Nat} (h : ∀ n ∈ ns, n < 0x10000) (s : List Char) :
    units .plain (ns.flatMap unicodeEscape ++ s) =
      (units .plain s).map fun p => (ns ++ p.1, p.2) := by
  induction ns with
  | nil => simp
  | cons n ns ih =>
    rw [List.flatMap_cons, List.append_assoc, units_unicodeEscape (h n (List.mem_cons_self ..)),
      ih fun m hm => h m (List.mem_cons_of_mem _ hm)]
    cases units .plain s <;> rfl

theorem utf16_of_lt {n : Nat} (h : n < 0x10000) : utf16 n = [n] := if_pos h

/-- A backslash and a letter. -/
theorem units_escaped_short {c d : Char} (h : shortEscape d = some c.toNat) (hc : c.toNat < 0x80)
    (s : List Char) :
    units .plain (['\\', d] ++ s) = (units .plain s).map fun p => (utf16 c.toNat ++ p.1, p.2) := by
  rw [utf16_of_lt (by omega)]
  exact units_short h s

theorem units_escaped (c : Char) (s : List Char) :
    units .plain (escaped c ++ s) = (units .plain s).map fun p => (utf16 c.toNat ++ p.1, p.2) := by
  unfold escaped
  split
  · subst c
    exact units_escaped_short rfl (by decide) s
  split
  · subst c
    exact units_escaped_short rfl (by decide) s
  split
  · subst c
    exact units_escaped_short rfl (by decide) s
  split
  · subst c
    exact units_escaped_short rfl (by decide) s
  split
  · subst c
    exact units_escaped_short rfl (by decide) s
  split
  · rename_i hc
    exact units_escaped_short (hc ▸ rfl) (by omega) s
  split
  · rename_i hc
    exact units_escaped_short (hc ▸ rfl) (by omega) s
  split
  · rename_i hquote hback _ _ _ _ _ hc
    rw [utf16_of_lt (by omega)]
    exact units_plain hquote hback hc.1 s
  · exact units_unicodeEscapes (fun m hm => utf16_lt (isScalar_toNat c) hm) s

theorem units_flatMap_escaped (s : Str) (rest : List Char) :
    units .plain (s.flatMap escaped ++ '"' :: rest) = some ((codes s).flatMap utf16, rest) := by
  induction s with
  | nil => exact if_pos rfl
  | cons c s ih =>
    rw [List.flatMap_cons, List.append_assoc, units_escaped, ih]
    rfl

/-- **A quoted text** is read as its code points. -/
theorem spells_escaped (s : Str) : Spells (s.flatMap escaped) (codes s) := by
  intro rest
  have hscalar : ∀ n ∈ codes s, IsScalar n := by
    intro n hn
    obtain ⟨c, -, rfl⟩ := List.mem_map.mp hn
    exact isScalar_toNat c
  rw [readString, units_flatMap_escaped, Option.map_some, combine_utf16 hscalar]

-- ---------------------------------------------------------------------------
-- Printable ASCII
-- ---------------------------------------------------------------------------

def isPrintable (c : Char) : Bool := 0x20 ≤ c.toNat && c.toNat < 0x7f

def Printable (t : Str) : Prop := ∀ c ∈ t, isPrintable c = true

theorem Printable.append {s t : Str} (hs : Printable s) (ht : Printable t) : Printable (s ++ t) := by
  intro c hc
  rcases List.mem_append.mp hc with hc | hc
  · exact hs c hc
  · exact ht c hc

theorem Printable.cons {c : Char} {s : Str} (hc : isPrintable c = true) (hs : Printable s) :
    Printable (c :: s) := by
  intro d hd
  rcases List.mem_cons.mp hd with rfl | hd
  · exact hc
  · exact hs d hd

theorem Printable.nil : Printable [] := by
  intro c hc
  cases hc

theorem Printable.flatMap {α : Type} {l : List α} {f : α → Str} (h : ∀ a ∈ l, Printable (f a)) :
    Printable (l.flatMap f) := by
  intro c hc
  obtain ⟨a, ha, hc⟩ := List.mem_flatMap.mp hc
  exact h a ha c hc

theorem isPrintable_of_isDigit {c : Char} (h : c.isDigit = true) : isPrintable c = true := by
  have hc := Char.isDigit_iff_toNat.mp h
  simp only [Char.reduceToNat] at hc
  simp only [isPrintable, Bool.and_eq_true, decide_eq_true_eq]
  omega

theorem printable_digits {ds : List Char} (h : IsDigits ds) : Printable ds :=
  fun c hc => isPrintable_of_isDigit (h.2 c hc)

theorem printable_number {t : List Char} (h : IsNumber t) : Printable t := by
  have hwhole : ∀ {w}, IsWhole w → Printable w := by
    rintro w (rfl | ⟨h, -⟩)
    · exact .cons rfl .nil
    · exact printable_digits h
  have hfraction : ∀ {f}, IsFraction f → Printable f := by
    rintro f (rfl | ⟨ds, rfl, h⟩)
    · exact .nil
    · exact .cons rfl (printable_digits h)
  have hexponent : ∀ {e}, IsExponent e → Printable e := by
    rintro e (rfl | ⟨c, s, ds, rfl, hc, hs, h⟩)
    · exact .nil
    · refine .cons ?_ (.append ?_ (printable_digits h))
      · rcases hc with rfl | rfl <;> rfl
      · rcases hs with rfl | rfl | rfl
        · exact .nil
        · exact .cons rfl .nil
        · exact .cons rfl .nil
  cases h with
  | positive hw hf he => exact (hwhole hw).append ((hfraction hf).append (hexponent he))
  | negative hw hf he =>
    exact .cons rfl ((hwhole hw).append ((hfraction hf).append (hexponent he)))

theorem isPrintable_digitChar {d : Nat} (h : d < 16) : isPrintable (Nat.digitChar d) = true := by
  have hall : ∀ d < 16, isPrintable (Nat.digitChar d) = true := by decide
  exact hall d h

theorem printable_unicodeEscape (n : Nat) : Printable (unicodeEscape n) := by
  have hdigit : ∀ m, isPrintable (Nat.digitChar (m % 16)) = true := fun m =>
    isPrintable_digitChar (Nat.mod_lt m (by decide))
  exact .cons rfl (.cons rfl (.cons (hdigit _) (.cons (hdigit _) (.cons (hdigit _)
    (.cons (hdigit _) .nil)))))

theorem printable_escaped (c : Char) : Printable (escaped c) := by
  have hshort : ∀ d, isPrintable d = true → Printable ['\\', d] := fun d hd =>
    .cons rfl (.cons hd .nil)
  unfold escaped
  split
  · exact hshort _ rfl
  split
  · exact hshort _ rfl
  split
  · exact hshort _ rfl
  split
  · exact hshort _ rfl
  split
  · exact hshort _ rfl
  split
  · exact hshort _ rfl
  split
  · exact hshort _ rfl
  split
  · rename_i hc
    exact .cons (by simpa [isPrintable] using hc) .nil
  · exact .flatMap fun n _ => printable_unicodeEscape n

theorem printable_quoted (s : Str) : Printable (quoted s) :=
  .cons rfl (.append (.flatMap fun c _ => printable_escaped c) (.cons rfl .nil))

theorem printable_joined {ts : List Str} (h : ∀ t ∈ ts, Printable t) : Printable (joined ts) := by
  intro c hc
  rcases mem_joined hc with rfl | rfl | ⟨t, ht, hc⟩
  · rfl
  · rfl
  · exact h t ht c hc

-- ---------------------------------------------------------------------------
-- Values
-- ---------------------------------------------------------------------------

section

variable {α : Type} {item : Nat → Reader α}

/-- A text that stands for `m`, to a reader of so many levels. -/
structure Written (item : Nat → Reader α) (t : Str) (m : Option α) : Prop where
  begins : Begins t
  printable : Printable t
  reads : ∀ n, t.length ≤ n → Reads (item n) t m

/-- A text is written that stands for `m`, or none where there is no `m`. -/
inductive Dumped (item : Nat → Reader α) : Except Key Str → Option α → Prop where
  | ok {t : Str} {m : Option α} (h : Written item t m) : Dumped item (.ok t) m
  | error (key : Key) : Dumped item (.error key) none

inductive DumpedAll (item : Nat → Reader α) : Except Key (List Str) → List (Option α) → Prop where
  | ok {ts : List Str} {ms : List (Option α)} (h : List.Forall₂ (Written item) ts ms) :
    DumpedAll item (.ok ts) ms
  | error {ms : List (Option α)} (key : Key) (h : ms.mapM id = none) :
    DumpedAll item (.error key) ms

theorem DumpedAll.cons {e : Except Key Str} {m : Option α} {es : Except Key (List Str)}
    {ms : List (Option α)} (h : Dumped item e m) (hs : DumpedAll item es ms) :
    DumpedAll item (do let t ← e; let ts ← es; return t :: ts) (m :: ms) := by
  cases h with
  | error key => exact .error key (by rw [List.mapM_cons]; rfl)
  | ok h =>
    cases hs with
    | error key hs =>
      refine .error key ?_
      rw [List.mapM_cons, hs]
      cases m <;> rfl
    | ok hs => exact .ok (.cons h hs)

theorem forall₂_reads {ts : List Str} {ms : List (Option α)} (h : List.Forall₂ (Written item) ts ms)
    {n : Nat} (hn : ∀ t ∈ ts, t.length ≤ n) : List.Forall₂ (Reads (item n)) ts ms := by
  induction h with
  | nil => exact .nil
  | cons h _ ih =>
    exact .cons (h.reads n (hn _ (List.mem_cons_self ..)))
      (ih fun t ht => hn t (List.mem_cons_of_mem _ ht))

theorem forall₂_texts {ts : List Str} {ms : List (Option α)} (h : List.Forall₂ (Written item) ts ms) :
    ∀ t ∈ ts, Begins t ∧ Printable t := by
  induction h with
  | nil => exact fun t ht => absurd ht List.not_mem_nil
  | cons h _ ih =>
    intro t ht
    rcases List.mem_cons.mp ht with rfl | ht
    · exact ⟨h.begins, h.printable⟩
    · exact ih t ht

end

/-- A text with something in it needs a level. -/
theorem written_of_succ {t : Str} {m : Option Json} (hbegins : Begins t) (hprintable : Printable t)
    (hreads : ∀ n, t.length ≤ n + 1 → Reads (readValue (n + 1)) t m) : Written readValue t m := by
  refine ⟨hbegins, hprintable, fun n hn => ?_⟩
  cases n with
  | zero => exact absurd (List.eq_nil_of_length_eq_zero (Nat.le_zero.mp hn)) hbegins.ne_nil
  | succ n => exact hreads n hn

theorem written_quoted (s : Str) : Written readValue (quoted s) (some (.string (codes s))) :=
  written_of_succ ⟨'"', _, rfl, rfl, rfl⟩ (printable_quoted s)
    fun n _ => (spells_escaped s).reads n

theorem written_number {t : Str} (h : IsNumber t) : Written readValue t (some (.number t)) :=
  written_of_succ h.begins (printable_number h) fun n _ => h.reads_value n

theorem written_null : Written readValue "null".toList (some .null) := by
  refine written_of_succ ⟨'n', _, rfl, rfl, rfl⟩ (List.all_eq_true.mp rfl) fun n _ rest _ => ?_
  exact readValue_scalar rfl (by decide) (by decide) (by decide) n _

theorem written_bool (b : Bool) : Written readValue (boolText b) (some (.bool b)) := by
  cases b with
  | true =>
    refine written_of_succ ⟨'t', _, rfl, rfl, rfl⟩ (List.all_eq_true.mp rfl) fun n _ rest _ => ?_
    exact readValue_scalar rfl (by decide) (by decide) (by decide) n _
  | false =>
    refine written_of_succ ⟨'f', _, rfl, rfl, rfl⟩ (List.all_eq_true.mp rfl) fun n _ rest _ => ?_
    exact readValue_scalar rfl (by decide) (by decide) (by decide) n _

/-- JSON has no such numbers. -/
theorem written_infinite (negative : Bool) :
    Written readValue (floatText (.infinite negative)) none := by
  cases negative with
  | true =>
    refine written_of_succ ⟨'-', _, rfl, rfl, rfl⟩ (List.all_eq_true.mp rfl) fun n _ rest _ => ?_
    exact readValue_scalar rfl (by decide) (by decide) (by decide) n _
  | false =>
    refine written_of_succ ⟨'I', _, rfl, rfl, rfl⟩ (List.all_eq_true.mp rfl) fun n _ rest _ => ?_
    exact readValue_scalar rfl (by decide) (by decide) (by decide) n _

theorem written_nan : Written readValue (floatText .nan) none := by
  refine written_of_succ ⟨'N', _, rfl, rfl, rfl⟩ (List.all_eq_true.mp rfl) fun n _ rest _ => ?_
  exact readValue_scalar rfl (by decide) (by decide) (by decide) n _

theorem written_array {ts : List Str} {ms : List (Option Json)}
    (h : List.Forall₂ (Written readValue) ts ms) :
    Written readValue (arrayText ts) ((ms.mapM id).map .array) := by
  have htexts := forall₂_texts h
  refine written_of_succ ⟨'[', _, rfl, rfl, rfl⟩
    (.cons rfl (.append (printable_joined fun t ht => (htexts t ht).2) (.cons rfl .nil)))
    fun n hn => ?_
  refine reads_array (forall₂_reads h fun t ht => ?_) fun t ht => (htexts t ht).1
  have := length_le_of_mem ht
  simp only [arrayText, List.length_cons, List.length_append] at hn
  omega

theorem written_object {ts : List Str} {ms : List (Option (List Nat × Json))}
    (h : List.Forall₂ (Written fun n => readMember (readValue n)) ts ms) :
    Written readValue (objectText ts) ((ms.mapM id).map .object) := by
  have htexts := forall₂_texts h
  refine written_of_succ ⟨'{', _, rfl, rfl, rfl⟩
    (.cons rfl (.append (printable_joined fun t ht => (htexts t ht).2) (.cons rfl .nil)))
    fun n hn => ?_
  refine reads_object (forall₂_reads h fun t ht => ?_) fun t ht => (htexts t ht).1
  have := length_le_of_mem ht
  simp only [objectText, List.length_cons, List.length_append] at hn
  omega

theorem written_member (name : Str) {t : Str} {m : Option Json} (h : Written readValue t m) :
    Written (fun n => readMember (readValue n)) (memberText name t)
      (m.map fun j => (codes name, j)) := by
  have htext : memberText name t = '"' :: (name.flatMap escaped ++ '"' :: ':' :: ' ' :: t) := by
    simp [memberText, quoted]
  refine ⟨⟨'"', _, rfl, rfl, rfl⟩, (printable_quoted name).append (.cons rfl (.cons rfl h.printable)),
    fun n hn => ?_⟩
  rw [htext]
  refine (spells_escaped name).reads_member (h.reads n ?_)
  rw [htext] at hn
  simp only [List.length_cons, List.length_append] at hn
  omega

-- ---------------------------------------------------------------------------
-- dumps
-- ---------------------------------------------------------------------------

theorem Dumped.array {es : Except Key (List Str)} {ms : List (Option Json)}
    (h : DumpedAll readValue es ms) :
    Dumped readValue (es.map arrayText) ((ms.mapM id).map .array) := by
  cases h with
  | ok h => exact .ok (written_array h)
  | error key h =>
    rw [h]
    exact .error key

theorem Dumped.object {es : Except Key (List Str)} {ms : List (Option (List Nat × Json))}
    (h : DumpedAll (fun n => readMember (readValue n)) es ms) :
    Dumped readValue (es.map objectText) ((ms.mapM id).map .object) := by
  cases h with
  | ok h => exact .ok (written_object h)
  | error key h =>
    rw [h]
    exact .error key

/-- The member a key and a value make. -/
def memberJson (p : Key × Value) : Option (List Nat × Json) :=
  (keyText p.1).bind fun name => p.2.json.map fun j => (codes name, j)

theorem jsonList_eq (vs : List Value) : jsonList vs = (vs.map Value.json).mapM id := by
  induction vs with
  | nil => rfl
  | cons v vs ih =>
    rw [jsonList, ih, List.map_cons, List.mapM_cons]
    cases v.json with
    | none => rfl
    | some j => cases (vs.map Value.json).mapM id <;> rfl

theorem jsonItems_eq (items : List (Key × Value)) :
    jsonItems items = (items.map memberJson).mapM id := by
  induction items with
  | nil => rfl
  | cons p items ih =>
    rw [jsonItems, ih, List.map_cons, List.mapM_cons, memberJson]
    cases keyText p.1 with
    | none => rfl
    | some name =>
      cases p.2.json with
      | none => rfl
      | some j => cases (items.map memberJson).mapM id <;> rfl

theorem DumpedAll.member {e : Except Key Str} {m : Option Json} {es : Except Key (List Str)}
    {ms : List (Option (List Nat × Json))} (k : Key) (h : Dumped readValue e m)
    (hs : DumpedAll (fun n => readMember (readValue n)) es ms) :
    DumpedAll (fun n => readMember (readValue n))
      (do
        let name ← (keyText k).elim (.error k) .ok
        let t ← e
        let ts ← es
        return memberText name t :: ts)
      (((keyText k).bind fun name => m.map fun j => (codes name, j)) :: ms) := by
  cases keyText k with
  | none => exact .error k (by rw [List.mapM_cons]; rfl)
  | some name =>
    cases h with
    | error key => exact .error key (by rw [List.mapM_cons]; rfl)
    | ok h => exact .cons (.ok (written_member name h)) hs

mutual

/-- **`dumps`** writes what is read as the JSON value, and raises where there is none. -/
theorem dumps_reads : ∀ v, Dumped readValue (dumps v) v.json
  | .none => .ok written_null
  | .bool b => .ok (written_bool b)
  | .int n => .ok (written_number (isNumber_intRepr n))
  | .float (.finite d) => .ok (written_number (isNumber_repr d))
  | .float (.infinite negative) => .ok (written_infinite negative)
  | .float .nan => .ok written_nan
  | .str s => .ok (written_quoted s)
  | .list xs => by
    rw [dumps, Value.json, jsonList_eq]
    exact .array (dumpsList_reads xs)
  | .tuple xs => by
    rw [dumps, Value.json, jsonList_eq]
    exact .array (dumpsList_reads xs)
  | .dict items => by
    rw [dumps, Value.json, jsonItems_eq]
    exact .object (dumpsItems_reads items)
  | .object repr => .ok (written_quoted repr)
termination_by structural v => v

theorem dumpsList_reads : ∀ vs, DumpedAll readValue (dumpsList vs) (vs.map Value.json)
  | [] => .ok .nil
  | v :: vs => .cons (dumps_reads v) (dumpsList_reads vs)
termination_by structural vs => vs

theorem dumpsItems_reads : ∀ items,
    DumpedAll (fun n => readMember (readValue n)) (dumpsItems items) (items.map memberJson)
  | [] => .ok .nil
  | (k, v) :: items => .member k (dumps_reads v) (dumpsItems_reads items)
termination_by structural items => items

end

/-- What it writes is a JSON text for the JSON value alone. -/
theorem read_dumps {v : Value} {t : Str} (h : dumps v = .ok t) :
    Json.read t = v.json ∧ Printable t := by
  have hdumped := dumps_reads v
  rw [h] at hdumped
  cases hdumped with
  | ok hw => exact ⟨read_of_reads (hw.reads _ (Nat.le_succ _)), hw.printable⟩

theorem json_of_error {v : Value} {key : Key} (h : dumps v = .error key) : v.json = none := by
  have hdumped := dumps_reads v
  rw [h] at hdumped
  generalize v.json = m at hdumped
  cases hdumped
  rfl

-- ---------------------------------------------------------------------------
-- The values of JSON
-- ---------------------------------------------------------------------------

theorem keyText_isSome (k : Key) : (keyText k).isSome = true ↔ ∀ repr, k ≠ .other repr := by
  cases k with
  | other repr => simp [keyText]
  | _ => simp [keyText]

theorem Value.clean_list {xs : List Value} : Clean (.list xs) ↔ ∀ v ∈ xs, Clean v := by
  constructor
  · rintro ⟨⟩
    assumption
  · exact .list

theorem Value.clean_tuple {xs : List Value} : Clean (.tuple xs) ↔ ∀ v ∈ xs, Clean v := by
  constructor
  · rintro ⟨⟩
    assumption
  · exact .tuple

theorem Value.clean_dict {items : List (Key × Value)} :
    Clean (.dict items) ↔ ∀ p ∈ items, (∀ repr, p.1 ≠ .other repr) ∧ Clean p.2 := by
  constructor
  · rintro ⟨⟩
    rename_i hkey h
    exact fun p hp => ⟨hkey p hp, h p hp⟩
  · exact fun h => .dict (fun p hp => (h p hp).1) fun p hp => (h p hp).2

mutual

/-- **A value is a JSON value** if it is clean. -/
theorem json_isSome : ∀ v : Value, v.json.isSome = true ↔ v.Clean
  | .none => iff_of_true rfl .none
  | .bool b => iff_of_true rfl (.bool b)
  | .int n => iff_of_true rfl (.int n)
  | .float (.finite d) => iff_of_true rfl (.float d)
  | .float (.infinite negative) => iff_of_false Bool.false_ne_true (by rintro ⟨⟩)
  | .float .nan => iff_of_false Bool.false_ne_true (by rintro ⟨⟩)
  | .str s => iff_of_true rfl (.str s)
  | .list xs => by
    rw [Value.json, Option.isSome_map, jsonList_isSome xs, Value.clean_list]
  | .tuple xs => by
    rw [Value.json, Option.isSome_map, jsonList_isSome xs, Value.clean_tuple]
  | .dict items => by
    rw [Value.json, Option.isSome_map, jsonItems_isSome items, Value.clean_dict]
  | .object repr => iff_of_true rfl (.object repr)
termination_by structural v => v

theorem jsonList_isSome : ∀ vs, (jsonList vs).isSome = true ↔ ∀ v ∈ vs, v.Clean
  | [] => iff_of_true rfl fun v hv => absurd hv List.not_mem_nil
  | v :: vs => by
    rw [List.forall_mem_cons, ← json_isSome v, ← jsonList_isSome vs, jsonList]
    cases v.json <;> simp
termination_by structural vs => vs

theorem jsonItems_isSome : ∀ items,
    (jsonItems items).isSome = true ↔ ∀ p ∈ items, (∀ repr, p.1 ≠ .other repr) ∧ p.2.Clean
  | [] => iff_of_true rfl fun v hv => absurd hv List.not_mem_nil
  | (k, v) :: items => by
    rw [List.forall_mem_cons, ← keyText_isSome, ← json_isSome v, ← jsonItems_isSome items, jsonItems]
    cases keyText k <;> cases v.json <;> simp
termination_by structural items => items

end

instance (v : Value) : Decidable v.Clean := decidable_of_iff _ (json_isSome v)

end Python
