import ScietexLogging.Python.Numerals

/-!
# Json — reading RFC 8259

A reader of JSON texts, and how what it reads is put together from parts. A string is a
list of code points, since an escape may name half of a surrogate pair; two halves that
belong together are one code point. A number keeps its text.

`Reads` says what a text is read as wherever it stands, and is proved of a text from
the texts it is made of.

* `read`            — the value of a JSON text, if it is one;
* `IsNumber.reads`  — a text of the number grammar is read as itself;
* `reads_separated` — items with commas between them are read as the items are;
* `combine_utf16`   — the units of code points are put together to these code points.
-/

inductive Json where
  | null
  | bool (b : Bool)
  | number (text : List Char)
  | string (s : List Nat)
  | array (xs : List Json)
  | object (members : List (List Nat × Json))

namespace Json

open Python

/-- What is read, and what is left. -/
abbrev Reader (α : Type) := List Char → Option (α × List Char)

def isBlank (c : Char) : Bool := c = ' ' || c = '\t' || c = '\n' || c = '\r'

def skip (s : List Char) : List Char := s.dropWhile isBlank

-- ---------------------------------------------------------------------------
-- Numbers
-- ---------------------------------------------------------------------------

/-- One digit or more. -/
def digits : Reader (List Char) := fun s =>
  if (s.takeWhile Char.isDigit) = [] then none
  else some (s.takeWhile Char.isDigit, s.dropWhile Char.isDigit)

def whole : Reader (List Char)
  | '0' :: s => some (['0'], s)
  | s => digits s

def fraction : Reader (List Char)
  | '.' :: s => (digits s).map fun p => ('.' :: p.1, p.2)
  | s => some ([], s)

def sign : List Char → List Char × List Char
  | '+' :: s => (['+'], s)
  | '-' :: s => (['-'], s)
  | s => ([], s)

def exponent : Reader (List Char)
  | [] => some ([], [])
  | c :: s =>
    if c = 'e' ∨ c = 'E' then (digits (sign s).2).map fun p => (c :: ((sign s).1 ++ p.1), p.2)
    else some ([], c :: s)

def minus : List Char → List Char × List Char
  | '-' :: s => (['-'], s)
  | s => ([], s)

def readNumber : Reader (List Char) := fun s =>
  (whole (minus s).2).bind fun w => (fraction w.2).bind fun f => (exponent f.2).map fun e =>
    ((minus s).1 ++ w.1 ++ f.1 ++ e.1, e.2)

-- ---------------------------------------------------------------------------
-- Strings
-- ---------------------------------------------------------------------------

def shortEscape (c : Char) : Option Nat :=
  if c = '"' ∨ c = '\\' ∨ c = '/' then some c.toNat
  else if c = 'b' then some 8
  else if c = 'f' then some 12
  else if c = 'n' then some 10
  else if c = 'r' then some 13
  else if c = 't' then some 9
  else none

/-- Where a string is: among its characters, behind a backslash, or among the four digits
of a code, of which so many are still to come. -/
inductive Escape where
  | plain
  | escaped
  | code (left value : Nat)

def push (n : Nat) (r : Option (List Nat × List Char)) : Option (List Nat × List Char) :=
  r.map fun p => (n :: p.1, p.2)

/-- The units of a string up to its closing quote. -/
def units : Escape → List Char → Option (List Nat × List Char)
  | _, [] => none
  | .plain, c :: s =>
    if c = '"' then some ([], s)
    else if c = '\\' then units .escaped s
    else if c.toNat < 0x20 then none
    else push c.toNat (units .plain s)
  | .escaped, c :: s =>
    if c = 'u' then units (.code 3 0) s
    else (shortEscape c).bind fun n => push n (units .plain s)
  | .code left value, c :: s =>
    (hexValue c).bind fun d =>
      match left with
      | 0 => push (16 * value + d) (units .plain s)
      | left + 1 => units (.code left (16 * value + d)) s

def isHigh (n : Nat) : Bool := 0xd800 ≤ n && n < 0xdc00

def isLow (n : Nat) : Bool := 0xdc00 ≤ n && n < 0xe000

/-- The halves of a surrogate pair together are one code point. -/
def combine : List Nat → List Nat
  | h :: l :: s =>
    if isHigh h && isLow l then (0x10000 + (h - 0xd800) * 0x400 + (l - 0xdc00)) :: combine s
    else h :: combine (l :: s)
  | s => s

/-- A string, behind its opening quote. -/
def readString : Reader (List Nat) := fun s => (units .plain s).map fun p => (combine p.1, p.2)

-- ---------------------------------------------------------------------------
-- Values
-- ---------------------------------------------------------------------------

def readScalar : Reader Json := fun s =>
  if "true".toList <+: s then some (.bool true, s.drop 4)
  else if "false".toList <+: s then some (.bool false, s.drop 5)
  else if "null".toList <+: s then some (.null, s.drop 4)
  else (readNumber s).map fun p => (.number p.1, p.2)

/-- One item or more with commas between them, and the bracket that closes them. -/
def separated {α : Type} (item : Reader α) (close : Char) : Nat → Reader (List α)
  | 0, _ => none
  | k + 1, s =>
    (item s).bind fun p =>
      match skip p.2 with
      | [] => none
      | c :: t =>
        if c = ',' then (separated item close k t).map fun q => (p.1 :: q.1, q.2)
        else if c = close then some ([p.1], t)
        else none

def listOf {α : Type} (item : Reader α) (close : Char) : Reader (List α) := fun s =>
  match skip s with
  | [] => none
  | c :: t => if c = close then some ([], t) else separated item close s.length s

/-- A name, a colon and a value. -/
def readMember (item : Reader Json) : Reader (List Nat × Json) := fun s =>
  match skip s with
  | '"' :: t =>
    (readString t).bind fun k =>
      match skip k.2 with
      | ':' :: u => (item u).map fun v => ((k.1, v.1), v.2)
      | _ => none
  | _ => none

/-- A value nested less than so many times. -/
def readValue : Nat → Reader Json
  | 0, _ => none
  | n + 1, s =>
    match skip s with
    | '"' :: t => (readString t).map fun p => (.string p.1, p.2)
    | '[' :: t => (listOf (readValue n) ']' t).map fun p => (.array p.1, p.2)
    | '{' :: t => (listOf (readMember (readValue n)) '}' t).map fun p => (.object p.1, p.2)
    | t => readScalar t

/-- A JSON text. -/
def read (s : List Char) : Option Json :=
  (readValue (s.length + 1) s).bind fun p => if skip p.2 = [] then some p.1 else none

-- ---------------------------------------------------------------------------
-- What a text is read as
-- ---------------------------------------------------------------------------

/-- It does not begin with such a character. -/
def Without (p : Char → Bool) (s : List Char) : Prop := ∀ c t, s = c :: t → p c = false

/-- What stands behind a value of an array or an object. -/
def isFollow (c : Char) : Bool := c = ',' || c = ']' || c = '}'

def Follow (rest : List Char) : Prop := Without (fun c => !isFollow c) rest

/-- Whatever follows, the text is read as `m`; it is not read, if `m` is none. -/
def Reads {α : Type} (item : Reader α) (text : List Char) (m : Option α) : Prop :=
  ∀ rest, Follow rest → item (text ++ rest) = m.map fun a => (a, rest)

theorem Without.cons {p : Char → Bool} {c : Char} (h : p c = false) (s : List Char) :
    Without p (c :: s) := by
  intro d t heq
  rw [← (List.cons.inj heq).1]
  exact h

theorem Without.nil (p : Char → Bool) : Without p [] := by
  intro c t heq
  cases heq

theorem Follow.without {rest : List Char} (h : Follow rest) {p : Char → Bool}
    (hp : ∀ c, isFollow c = true → p c = false) : Without p rest := by
  intro c t heq
  refine hp c ?_
  have := h c t heq
  simpa using this

theorem takeWhile_without {p : Char → Bool} {s : List Char} (h : Without p s) :
    s.takeWhile p = [] ∧ s.dropWhile p = s := by
  cases s with
  | nil => exact ⟨rfl, rfl⟩
  | cons c s =>
    have hc := h c s rfl
    exact ⟨by simp [hc], by simp [hc]⟩

-- ---------------------------------------------------------------------------
-- Numbers
-- ---------------------------------------------------------------------------

def IsDigits (ds : List Char) : Prop := ds ≠ [] ∧ ∀ c ∈ ds, c.isDigit = true

def IsWhole (w : List Char) : Prop := w = ['0'] ∨ IsDigits w ∧ Without (· = '0') w

def IsFraction (f : List Char) : Prop := f = [] ∨ ∃ ds, f = '.' :: ds ∧ IsDigits ds

def IsSign (s : List Char) : Prop := s = [] ∨ s = ['+'] ∨ s = ['-']

def IsExponent (e : List Char) : Prop :=
  e = [] ∨ ∃ c s ds, e = c :: (s ++ ds) ∧ (c = 'e' ∨ c = 'E') ∧ IsSign s ∧ IsDigits ds

/-- The grammar of numbers. -/
inductive IsNumber : List Char → Prop where
  | positive {w f e : List Char} (hw : IsWhole w) (hf : IsFraction f) (he : IsExponent e) :
    IsNumber (w ++ (f ++ e))
  | negative {w f e : List Char} (hw : IsWhole w) (hf : IsFraction f) (he : IsExponent e) :
    IsNumber ('-' :: (w ++ (f ++ e)))

theorem IsDigits.read {ds rest : List Char} (h : IsDigits ds) (hrest : Without Char.isDigit rest) :
    digits (ds ++ rest) = some (ds, rest) := by
  have htake : (ds ++ rest).takeWhile Char.isDigit = ds := by
    rw [List.takeWhile_append_of_pos h.2, (takeWhile_without hrest).1, List.append_nil]
  have hdrop : (ds ++ rest).dropWhile Char.isDigit = rest := by
    rw [List.dropWhile_append_of_pos h.2, (takeWhile_without hrest).2]
  rw [digits, htake, hdrop, if_neg h.1]

theorem IsDigits.head {ds : List Char} (h : IsDigits ds) :
    ∃ c s, ds = c :: s ∧ c.isDigit = true := by
  obtain ⟨hne, hall⟩ := h
  cases ds with
  | nil => exact absurd rfl hne
  | cons c s => exact ⟨c, s, rfl, hall c (List.mem_cons_self ..)⟩

theorem IsWhole.head {w : List Char} (h : IsWhole w) :
    ∃ c s, w = c :: s ∧ c.isDigit = true := by
  rcases h with rfl | ⟨h, -⟩
  · exact ⟨'0', [], rfl, rfl⟩
  · exact h.head

theorem IsWhole.read {w rest : List Char} (h : IsWhole w) (hrest : Without Char.isDigit rest) :
    whole (w ++ rest) = some (w, rest) := by
  rcases h with rfl | ⟨h, hzero⟩
  · rfl
  · obtain ⟨c, s, rfl, -⟩ := h.head
    have hc : c ≠ '0' := by simpa using hzero c s rfl
    rw [← h.read hrest]
    unfold whole
    split
    · rename_i heq
      exact absurd (List.cons.inj heq).1 hc
    · rfl

theorem IsFraction.read {f rest : List Char} (h : IsFraction f)
    (hrest : Without (fun c => c.isDigit || c = '.') rest) : fraction (f ++ rest) = some (f, rest) := by
  rcases h with rfl | ⟨ds, rfl, h⟩
  · rw [List.nil_append]
    unfold fraction
    split
    · exact absurd (hrest _ _ rfl) (by decide)
    · rfl
  · rw [List.cons_append, fraction, h.read fun c t heq => ?_]
    · rfl
    · have := hrest c t heq
      simp only [Bool.or_eq_false_iff] at this
      exact this.1

theorem IsSign.read {s ds : List Char} (h : IsSign s) (hds : IsDigits ds) (rest : List Char) :
    sign (s ++ ds ++ rest) = (s, ds ++ rest) := by
  rcases h with rfl | rfl | rfl
  · obtain ⟨c, t, rfl, hc⟩ := hds.head
    rw [List.nil_append, List.cons_append]
    unfold sign
    split
    · rename_i heq
      rw [(List.cons.inj heq).1] at hc
      exact absurd hc (by decide)
    · rename_i heq
      rw [(List.cons.inj heq).1] at hc
      exact absurd hc (by decide)
    · rfl
  · rfl
  · rfl

theorem IsExponent.read {e rest : List Char} (h : IsExponent e) (hrest : Follow rest) :
    exponent (e ++ rest) = some (e, rest) := by
  rcases h with rfl | ⟨c, s, ds, rfl, hc, hs, hds⟩
  · rw [List.nil_append]
    cases rest with
    | nil => rfl
    | cons c t =>
      refine if_neg ?_
      have := hrest c t rfl
      rintro (rfl | rfl)
      · exact absurd this (by decide)
      · exact absurd this (by decide)
  · have hdigit : Without Char.isDigit rest := by
      refine hrest.without fun c hc => ?_
      simp only [isFollow, Bool.or_eq_true, decide_eq_true_eq] at hc
      rcases hc with (rfl | rfl) | rfl <;> rfl
    rw [List.cons_append, exponent, if_pos hc, hs.read hds, hds.read hdigit]
    rfl

/-- Behind the whole part, and behind the fraction, no digit follows. -/
theorem IsExponent.without {e rest : List Char} (h : IsExponent e) (hrest : Follow rest) :
    Without (fun c => c.isDigit || c = '.') (e ++ rest) := by
  rcases h with rfl | ⟨c, s, ds, rfl, hc, -, -⟩
  · refine hrest.without fun c hc => ?_
    simp only [isFollow, Bool.or_eq_true, decide_eq_true_eq] at hc
    rcases hc with (rfl | rfl) | rfl <;> rfl
  · refine .cons ?_ _
    rcases hc with rfl | rfl <;> rfl

theorem IsFraction.without {f rest : List Char} (h : IsFraction f)
    (hrest : Without (fun c => c.isDigit || c = '.') rest) : Without Char.isDigit (f ++ rest) := by
  rcases h with rfl | ⟨ds, rfl, -⟩
  · intro c t heq
    have := hrest c t heq
    simp only [Bool.or_eq_false_iff] at this
    exact this.1
  · exact .cons rfl _

/-- **A text of the number grammar** is read as itself. -/
theorem IsNumber.reads {t : List Char} (h : IsNumber t) : Reads readNumber t (some t) := by
  intro rest hrest
  cases h with
  | @positive w f e hw hf he =>
    have hminus : minus (w ++ (f ++ e) ++ rest) = ([], w ++ (f ++ (e ++ rest))) := by
      obtain ⟨c, s, rfl, hc⟩ := hw.head
      rw [List.append_assoc, List.append_assoc, List.cons_append]
      unfold minus
      split
      · rename_i heq
        rw [(List.cons.inj heq).1] at hc
        exact absurd hc (by decide)
      · rfl
    rw [readNumber, hminus, hw.read (hf.without (he.without hrest)), Option.bind_some,
      hf.read (he.without hrest), Option.bind_some, he.read hrest]
    simp
  | @negative w f e hw hf he =>
    have hminus : minus ('-' :: (w ++ (f ++ e)) ++ rest) = (['-'], w ++ (f ++ (e ++ rest))) := by
      rw [List.cons_append, List.append_assoc, List.append_assoc]
      rfl
    rw [readNumber, hminus, hw.read (hf.without (he.without hrest)), Option.bind_some,
      hf.read (he.without hrest), Option.bind_some, he.read hrest]
    simp

-- ---------------------------------------------------------------------------
-- Strings
-- ---------------------------------------------------------------------------

/-- The units of a code point: above U+FFFF a surrogate pair. -/
def utf16 (n : Nat) : List Nat :=
  if n < 0x10000 then [n]
  else [0xd800 + (n - 0x10000) / 0x400, 0xdc00 + (n - 0x10000) % 0x400]

/-- A code point that is no half of a surrogate pair. -/
def IsScalar (n : Nat) : Prop := (n < 0xd800 ∨ 0xdfff < n) ∧ n < 0x110000

theorem isScalar_toNat (c : Char) : IsScalar c.toNat := by
  have hvalid : c.toNat.isValidChar := c.valid
  unfold Nat.isValidChar at hvalid
  unfold IsScalar
  omega

theorem combine_cons {n : Nat} (h : isHigh n = false) (s : List Nat) :
    combine (n :: s) = n :: combine s := by
  cases s with
  | nil => rfl
  | cons m s => simp [combine, h]

theorem combine_pair {h l : Nat} (hh : isHigh h = true) (hl : isLow l = true) (s : List Nat) :
    combine (h :: l :: s) = (0x10000 + (h - 0xd800) * 0x400 + (l - 0xdc00)) :: combine s := by
  simp [combine, hh, hl]

theorem combine_units {n : Nat} (h : IsScalar n) (s : List Nat) :
    combine (utf16 n ++ s) = n :: combine s := by
  unfold utf16
  unfold IsScalar at h
  split
  · refine combine_cons ?_ s
    simp only [isHigh, Bool.and_eq_false_iff, decide_eq_false_iff_not]
    omega
  · have hcode : 0x10000 + (0xd800 + (n - 0x10000) / 0x400 - 0xd800) * 0x400 +
        (0xdc00 + (n - 0x10000) % 0x400 - 0xdc00) = n := by omega
    rw [List.cons_append, List.cons_append, List.nil_append, combine_pair, hcode]
    · simp only [isHigh, Bool.and_eq_true, decide_eq_true_eq]
      omega
    · simp only [isLow, Bool.and_eq_true, decide_eq_true_eq]
      omega

/-- **The units of code points** are put together to these code points. -/
theorem combine_utf16 {s : List Nat} (h : ∀ n ∈ s, IsScalar n) : combine (s.flatMap utf16) = s := by
  induction s with
  | nil => rfl
  | cons n s ih =>
    rw [List.flatMap_cons, combine_units (h n (List.mem_cons_self ..)),
      ih fun m hm => h m (List.mem_cons_of_mem _ hm)]

theorem units_plain {c : Char} (hquote : c ≠ '"') (hback : c ≠ '\\') (hctrl : 0x20 ≤ c.toNat)
    (s : List Char) : units .plain (c :: s) = push c.toNat (units .plain s) := by
  rw [units, if_neg hquote, if_neg hback, if_neg (by omega)]

theorem units_short {c : Char} {n : Nat} (h : shortEscape c = some n) (s : List Char) :
    units .plain ('\\' :: c :: s) = push n (units .plain s) := by
  have hu : c ≠ 'u' := by
    rintro rfl
    cases h
  rw [units, if_neg (by decide), if_pos rfl, units, if_neg hu, h]
  rfl

theorem units_digit {c : Char} {d : Nat} (h : hexValue c = some d) (left value : Nat)
    (s : List Char) :
    units (.code (left + 1) value) (c :: s) = units (.code left (16 * value + d)) s := by
  rw [units, h]
  rfl

theorem units_last {c : Char} {d : Nat} (h : hexValue c = some d) (value : Nat) (s : List Char) :
    units (.code 0 value) (c :: s) = push (16 * value + d) (units .plain s) := by
  rw [units, h]
  rfl

theorem units_code {a b c d : Char} {i j k l : Nat} (ha : hexValue a = some i)
    (hb : hexValue b = some j) (hc : hexValue c = some k) (hd : hexValue d = some l)
    (s : List Char) :
    units .plain ('\\' :: 'u' :: a :: b :: c :: d :: s) =
      push (16 * (16 * (16 * i + j) + k) + l) (units .plain s) := by
  rw [units, if_neg (by decide), if_pos rfl, units, if_pos rfl, units_digit ha, units_digit hb,
    units_digit hc, units_last hd, Nat.mul_zero, Nat.zero_add]

-- ---------------------------------------------------------------------------
-- Values
-- ---------------------------------------------------------------------------

/-- A text that begins like a value: with no blank, no comma and no closing bracket. -/
def Begins (t : List Char) : Prop :=
  ∃ c s, t = c :: s ∧ isBlank c = false ∧ isFollow c = false

theorem Begins.ne_nil {t : List Char} (h : Begins t) : t ≠ [] := by
  obtain ⟨c, s, rfl, -⟩ := h
  exact List.cons_ne_nil c s

theorem Begins.skip {t : List Char} (h : Begins t) (rest : List Char) :
    skip (t ++ rest) = t ++ rest := by
  obtain ⟨c, s, rfl, hc, -⟩ := h
  rw [List.cons_append]
  exact List.dropWhile_cons_of_neg (by simp [hc])

theorem skip_blank (s : List Char) : skip (' ' :: s) = skip s := rfl

theorem skip_cons {c : Char} (h : isBlank c = false) (s : List Char) : skip (c :: s) = c :: s :=
  List.dropWhile_cons_of_neg (by simp [h])

@[simp] theorem readValue_blank (n : Nat) (s : List Char) :
    readValue n (' ' :: s) = readValue n s := by
  cases n with
  | zero => rfl
  | succ n => rw [readValue, readValue, skip_blank]

@[simp] theorem readMember_blank (item : Reader Json) (s : List Char) :
    readMember item (' ' :: s) = readMember item s := by
  rw [readMember, readMember, skip_blank]

/-- The texts with commas between them. -/
def joined (ts : List (List Char)) : List Char := List.intercalate [',', ' '] ts

theorem joined_cons {t : List Char} (ts : List (List Char)) :
    joined (t :: ts) = t ++ ts.flatMap fun u => ',' :: ' ' :: u := by
  induction ts generalizing t with
  | nil => simp [joined]
  | cons u ts ih =>
    have hu := @ih u
    unfold joined at hu ⊢
    rw [List.intercalate_cons_cons, hu]
    simp

theorem Begins.append {t : List Char} (h : Begins t) (s : List Char) : Begins (t ++ s) := by
  obtain ⟨c, u, rfl, hc⟩ := h
  exact ⟨c, u ++ s, rfl, hc⟩

theorem length_le_joined {ts : List (List Char)} (h : ∀ t ∈ ts, Begins t) :
    ts.length ≤ (joined ts).length := by
  cases ts with
  | nil => exact Nat.zero_le _
  | cons t ts =>
    have hpos := List.length_pos_iff.mpr (h t (List.mem_cons_self ..)).ne_nil
    have hlen : ∀ us : List (List Char),
        us.length ≤ (us.flatMap fun u => ',' :: ' ' :: u).length := by
      intro us
      induction us with
      | nil => exact Nat.le_refl _
      | cons u us ih =>
        simp only [List.flatMap_cons, List.length_append, List.length_cons]
        omega
    have := hlen ts
    rw [joined_cons]
    simp only [List.length_append, List.length_cons]
    omega

theorem mem_joined {ts : List (List Char)} {c : Char} (h : c ∈ joined ts) :
    c = ',' ∨ c = ' ' ∨ ∃ t ∈ ts, c ∈ t := by
  cases ts with
  | nil => exact absurd h (by simp [joined])
  | cons t ts =>
    rw [joined_cons, List.mem_append, List.mem_flatMap] at h
    rcases h with h | ⟨u, hu, h⟩
    · exact .inr (.inr ⟨t, List.mem_cons_self .., h⟩)
    · rcases List.mem_cons.mp h with rfl | h
      · exact .inl rfl
      · rcases List.mem_cons.mp h with rfl | h
        · exact .inr (.inl rfl)
        · exact .inr (.inr ⟨u, List.mem_cons_of_mem _ hu, h⟩)

theorem length_le_of_mem {ts : List (List Char)} {t : List Char} (h : t ∈ ts) :
    t.length ≤ (joined ts).length := by
  cases ts with
  | nil => cases h
  | cons u us =>
    rw [joined_cons, List.length_append]
    rcases List.mem_cons.mp h with rfl | h
    · exact Nat.le_add_right ..
    · have hmem := (List.sublist_flatten_of_mem
        (List.mem_map_of_mem (f := fun u => ',' :: ' ' :: u) h)).length_le
      rw [← List.flatMap_def] at hmem
      simp only [List.length_cons] at hmem
      omega

theorem follow_close {close : Char} (h : isFollow close = true) (s : List Char) :
    Follow (close :: s) := .cons (by simp [h]) s

theorem skip_follow {c : Char} (h : isFollow c = true) (s : List Char) :
    skip (c :: s) = c :: s := by
  refine skip_cons ?_ s
  simp only [isFollow, Bool.or_eq_true, decide_eq_true_eq] at h
  rcases h with (rfl | rfl) | rfl <;> rfl

section

variable {α : Type} {item : Reader α} {close : Char}

theorem separated_blank (hblank : ∀ s, item (' ' :: s) = item s) (k : Nat) (s : List Char) :
    separated item close k (' ' :: s) = separated item close k s := by
  cases k with
  | zero => rfl
  | succ k => rw [separated, separated, hblank]

/-- **Items with commas between them** are read as the items are. -/
theorem reads_separated (hclose : isFollow close = true) (hcomma : close ≠ ',')
    (hblank : ∀ s, item (' ' :: s) = item s) {ts : List (List Char)} {ms : List (Option α)}
    (h : List.Forall₂ (Reads item) ts ms) :
    ts ≠ [] → ∀ k, ts.length ≤ k → ∀ rest,
      separated item close k (joined ts ++ close :: rest) =
        (ms.mapM id).map fun as => (as, rest) := by
  induction h with
  | nil => exact fun hne => absurd rfl hne
  | @cons t m ts ms ht h ih =>
    intro _ k hk rest
    obtain ⟨k, rfl⟩ : ∃ j, k = j + 1 := ⟨k - 1, by simp at hk; omega⟩
    rw [separated, List.mapM_cons]
    cases h with
    | nil =>
      rw [joined, List.intercalate_singleton, ht _ (follow_close hclose rest)]
      cases m with
      | none => rfl
      | some a =>
        show (match skip (close :: rest) with
          | [] => none
          | c :: t => _) = _
        rw [skip_follow hclose]
        simp [hcomma]
    | @cons t' m' ts ms ht' h =>
      have htext : joined (t :: t' :: ts) ++ close :: rest =
          t ++ ',' :: ' ' :: (joined (t' :: ts) ++ close :: rest) := by
        simp [joined, List.intercalate_cons_cons]
      rw [htext, ht _ (follow_close rfl _)]
      cases m with
      | none => rfl
      | some a =>
        have hrest := ih (List.cons_ne_nil _ _) k (by simpa using hk) rest
        show (match skip (',' :: ' ' :: (joined (t' :: ts) ++ close :: rest)) with
          | [] => none
          | c :: t => _) = _
        rw [skip_follow rfl]
        show ((separated item close k (' ' :: (joined (t' :: ts) ++ close :: rest))).map
          fun q => (a :: q.1, q.2)) = _
        rw [separated_blank hblank, hrest]
        cases (m' :: ms).mapM id <;> rfl

/-- The items of an array or an object, behind its bracket. -/
theorem reads_listOf (hclose : isFollow close = true) (hcomma : close ≠ ',')
    (hblank : ∀ s, item (' ' :: s) = item s) {ts : List (List Char)} {ms : List (Option α)}
    (h : List.Forall₂ (Reads item) ts ms) (hbegins : ∀ t ∈ ts, Begins t) :
    Reads (listOf item close) (joined ts ++ [close]) (ms.mapM id) := by
  intro rest _
  rw [List.append_assoc]
  show listOf item close (joined ts ++ close :: rest) = _
  cases h with
  | nil =>
    show (match skip (close :: rest) with
      | [] => none
      | c :: t => _) = _
    rw [skip_follow hclose]
    exact if_pos rfl
  | @cons t m ts ms ht h =>
    have hjoined : Begins (joined (t :: ts)) := by
      rw [joined_cons]
      exact (hbegins t (List.mem_cons_self ..)).append _
    have hlen := length_le_joined hbegins
    have hread := reads_separated hclose hcomma hblank (.cons ht h) (List.cons_ne_nil _ _)
      (joined (t :: ts) ++ close :: rest).length (by rw [List.length_append]; omega) rest
    rw [listOf, hjoined.skip, hread]
    obtain ⟨c, s, heq, -, hc⟩ := hjoined
    rw [heq]
    refine if_neg ?_
    rintro rfl
    exact absurd hclose (by simp [hc])

end

theorem reads_array {n : Nat} {ts : List (List Char)} {ms : List (Option Json)}
    (h : List.Forall₂ (Reads (readValue n)) ts ms) (hbegins : ∀ t ∈ ts, Begins t) :
    Reads (readValue (n + 1)) ('[' :: (joined ts ++ [']'])) ((ms.mapM id).map .array) := by
  intro rest hrest
  have hlist : Reads (listOf (readValue n) ']') (joined ts ++ [']']) (ms.mapM id) :=
    reads_listOf rfl (by decide) (readValue_blank n) h hbegins
  rw [List.cons_append, readValue, skip_cons rfl]
  show (listOf (readValue n) ']' (joined ts ++ [']'] ++ rest)).map _ = _
  rw [hlist rest hrest]
  cases ms.mapM id <;> rfl

theorem reads_object {n : Nat} {ts : List (List Char)} {ms : List (Option (List Nat × Json))}
    (h : List.Forall₂ (Reads (readMember (readValue n))) ts ms) (hbegins : ∀ t ∈ ts, Begins t) :
    Reads (readValue (n + 1)) ('{' :: (joined ts ++ ['}'])) ((ms.mapM id).map .object) := by
  intro rest hrest
  have hlist : Reads (listOf (readMember (readValue n)) '}') (joined ts ++ ['}']) (ms.mapM id) :=
    reads_listOf rfl (by decide) (readMember_blank _) h hbegins
  rw [List.cons_append, readValue, skip_cons rfl]
  show (listOf (readMember (readValue n)) '}' (joined ts ++ ['}'] ++ rest)).map _ = _
  rw [hlist rest hrest]
  cases ms.mapM id <;> rfl

/-- What stands between the quotes of the string. -/
def Spells (body : List Char) (s : List Nat) : Prop :=
  ∀ rest, readString (body ++ '"' :: rest) = some (s, rest)

theorem Spells.reads {body : List Char} {s : List Nat} (h : Spells body s) (n : Nat) :
    Reads (readValue (n + 1)) ('"' :: (body ++ ['"'])) (some (.string s)) := by
  intro rest _
  have hbody := h rest
  rw [List.cons_append, readValue, skip_cons rfl]
  show (readString (body ++ ['"'] ++ rest)).map _ = _
  rw [List.append_assoc]
  show (readString (body ++ '"' :: rest)).map _ = _
  rw [hbody]
  rfl

theorem Spells.reads_member {body : List Char} {s : List Nat} (h : Spells body s) {n : Nat}
    {t : List Char} {m : Option Json} (ht : Reads (readValue n) t m) :
    Reads (readMember (readValue n)) ('"' :: (body ++ '"' :: ':' :: ' ' :: t))
      (m.map fun v => (s, v)) := by
  intro rest hrest
  have hbody := h (':' :: ' ' :: (t ++ rest))
  have hvalue := ht rest hrest
  rw [List.cons_append, readMember, skip_cons rfl, List.append_assoc]
  show ((readString (body ++ '"' :: (':' :: ' ' :: (t ++ rest)))).bind _) = _
  rw [hbody, Option.bind_some]
  show ((readValue n (' ' :: (t ++ rest))).map _) = _
  rw [readValue_blank, hvalue]
  cases m <;> rfl

/-- Neither a string nor an array nor an object begins so. -/
theorem readValue_scalar {c : Char} (hblank : isBlank c = false) (hquote : c ≠ '"')
    (harray : c ≠ '[') (hobject : c ≠ '{') (n : Nat) (s : List Char) :
    readValue (n + 1) (c :: s) = readScalar (c :: s) := by
  rw [readValue, skip_cons hblank]
  split
  · rename_i heq
    exact absurd (List.cons.inj heq).1 hquote
  · rename_i heq
    exact absurd (List.cons.inj heq).1 harray
  · rename_i heq
    exact absurd (List.cons.inj heq).1 hobject
  · rfl

/-- A number begins with its sign or a digit, -/
theorem IsNumber.head {t : List Char} (h : IsNumber t) :
    ∃ c s, t = c :: s ∧ (c = '-' ∨ c.isDigit = true) := by
  cases h with
  | positive hw hf he =>
    obtain ⟨c, s, rfl, hc⟩ := hw.head
    exact ⟨c, _, List.cons_append, .inr hc⟩
  | negative hw hf he => exact ⟨'-', _, rfl, .inl rfl⟩

/-- and with no other character. -/
theorem IsNumber.head_ne {c : Char} {s : List Char} (h : IsNumber (c :: s)) {d : Char}
    (hminus : d ≠ '-') (hdigit : d.isDigit = false) : c ≠ d := by
  rintro rfl
  obtain ⟨c, s, heq, hc⟩ := h.head
  rw [(List.cons.inj heq).1] at hminus hdigit
  rcases hc with hc | hc
  · exact hminus hc
  · rw [hc] at hdigit
    cases hdigit

theorem IsNumber.begins {t : List Char} (h : IsNumber t) : Begins t := by
  obtain ⟨c, s, rfl, -⟩ := h.head
  refine ⟨c, s, rfl, ?_, ?_⟩
  · simp only [isBlank, Bool.or_eq_false_iff, decide_eq_false_iff_not]
    exact ⟨⟨⟨h.head_ne (by decide) rfl, h.head_ne (by decide) rfl⟩, h.head_ne (by decide) rfl⟩,
      h.head_ne (by decide) rfl⟩
  · simp only [isFollow, Bool.or_eq_false_iff, decide_eq_false_iff_not]
    exact ⟨⟨h.head_ne (by decide) rfl, h.head_ne (by decide) rfl⟩, h.head_ne (by decide) rfl⟩

theorem IsNumber.reads_value {t : List Char} (h : IsNumber t) (n : Nat) :
    Reads (readValue (n + 1)) t (some (.number t)) := by
  intro rest hrest
  have hread := h.reads rest hrest
  obtain ⟨c, s, rfl, hblank, -⟩ := h.begins
  rw [List.cons_append] at hread ⊢
  rw [readValue_scalar hblank (h.head_ne (by decide) rfl) (h.head_ne (by decide) rfl)
    (h.head_ne (by decide) rfl), readScalar, if_neg, if_neg, if_neg, hread]
  · rfl
  · exact fun hp => h.head_ne (d := 'n') (by decide) rfl (List.cons_prefix_cons.mp hp).1.symm
  · exact fun hp => h.head_ne (d := 'f') (by decide) rfl (List.cons_prefix_cons.mp hp).1.symm
  · exact fun hp => h.head_ne (d := 't') (by decide) rfl (List.cons_prefix_cons.mp hp).1.symm

/-- A text that stands for `m` wherever it stands stands for it alone. -/
theorem read_of_reads {t : List Char} {m : Option Json} (h : Reads (readValue (t.length + 1)) t m) :
    read t = m := by
  have hread := h [] (.nil _)
  rw [List.append_nil] at hread
  rw [read, hread]
  cases m <;> rfl

end Json
