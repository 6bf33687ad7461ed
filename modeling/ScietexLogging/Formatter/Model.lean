import Mathlib.Data.List.Infix
import ScietexLogging.Posix.Program
import ScietexLogging.Python.Values
import ScietexLogging.Theme.Hex

/-!
# Formatter — records and `logging.Formatter`

A record is an object that its logger's handlers share, so a formatter works on numbered
records: it may copy one, and set attributes of the one it is given. `superFormat` is
`logging.Formatter.format`, for a format made of literal text and plain fields.

* `exec_superFormat` — the text it gives, and that it sets attributes of one record only.
-/

namespace ScietexLogging

open Posix Python

-- ---------------------------------------------------------------------------
-- Records
-- ---------------------------------------------------------------------------

/-- A moment in UTC, as `datetime` has it. -/
structure UtcTime where
  year : Nat
  month : Nat
  day : Nat
  hour : Nat
  minute : Nat
  second : Nat
  microsecond : Nat

/-- `f"{n:0{width}d}"` -/
def padded (width n : Nat) : Str :=
  List.replicate (width - (Nat.toDigits 10 n).length) '0' ++ Nat.toDigits 10 n

/-- `isoformat()`, of a time in UTC -/
def UtcTime.isoformat (t : UtcTime) : Str :=
  padded 4 t.year ++ ['-'] ++ padded 2 t.month ++ ['-'] ++ padded 2 t.day ++ ['T'] ++
    padded 2 t.hour ++ [':'] ++ padded 2 t.minute ++ [':'] ++ padded 2 t.second ++
    (if t.microsecond = 0 then [] else '.' :: padded 6 t.microsecond) ++ "+00:00".toList

/-- `record.msg`: a text, or an object that `str()` is applied to. -/
inductive Msg where
  | text (s : Str)
  | object (str : Except String Str)

/-- A `LogRecord`, as the formatters read it. -/
structure Record where
  name : Str
  levelno : Int
  levelname : Str
  msg : Msg
  /-- `msg % args`; none where the arguments are falsy -/
  args : Option (Str → Except String Str)
  /-- `datetime.fromtimestamp(created, utc)`: raises out of range -/
  created : Except String UtcTime
  /-- `logging.Formatter.formatTime` by a date format -/
  strftime : Str → Except String Str
  /-- what `formatException` makes of `exc_info`; none where it is falsy -/
  excInfo : Option Str
  excText : Option Str
  stackInfo : Option Str
  /-- set by `logging.Formatter.format` -/
  message : Option Str
  asctime : Option Str
  /-- what `%(key)s` makes of an attribute that is none of these -/
  others : Str → Option Str
  /-- the attributes that `extra` added, in their order -/
  extras : List (Key × Value)

/-- What `format` raises. -/
inductive FormatError where
  | raised (exc : String)     -- by an object of the record
  | missing (field : Str)     -- ValueError: a formatting field is not there
  | palette (e : InvalidHex)  -- ValueError of a colour
  | startswith (name : Key)   -- AttributeError: the name of an attribute is no text
  | jsonKey (key : Key)       -- TypeError: a key of a dictionary is no key of JSON
  deriving DecidableEq

def Msg.str : Msg → Except FormatError Str
  | .text s => .ok s
  | .object (.ok s) => .ok s
  | .object (.error exc) => .error (.raised exc)

def raising {α : Type} : Except String α → Except FormatError α
  | .ok a => .ok a
  | .error exc => .error (.raised exc)

/-- `getMessage()` -/
def Record.getMessage (x : Record) : Except FormatError Str := do
  let msg ← x.msg.str
  match x.args with
  | some percent => raising (percent msg)
  | none => return msg

/-- `iso_timestamp(created)` -/
def Record.isoTimestamp (x : Record) : Except FormatError Str :=
  (raising x.created).map UtcTime.isoformat

/-- The records there are. -/
structure Records where
  record : Nat → Record
  count : Nat

abbrev FormatM := Prog Records FormatError

def load (r : Nat) : FormatM Record := do
  let h ← get
  pure (h.record r)

def store (r : Nat) (f : Record → Record) : FormatM Unit :=
  modify fun h => { h with record := Function.update h.record r (f (h.record r)) }

/-- `copy.copy(record)` -/
def copyRecord (r : Nat) : FormatM Nat := do
  let h ← get
  modify fun h => { record := Function.update h.record h.count (h.record r), count := h.count + 1 }
  pure h.count

def lifted {α : Type} : Except FormatError α → FormatM α
  | .ok a => pure a
  | .error e => throw e

-- ---------------------------------------------------------------------------
-- The format
-- ---------------------------------------------------------------------------

inductive Field where
  | asctime | levelname | name | message
  | other (key : Str)
  deriving DecidableEq, Repr

def Field.key : Field → Str
  | .asctime => "asctime".toList
  | .levelname => "levelname".toList
  | .name => "name".toList
  | .message => "message".toList
  | .other key => key

/-- A piece of a format: literal text, or `%(field)s`. -/
inductive Piece where
  | literal (text : Str)
  | field (f : Field)
  deriving DecidableEq, Repr

/-- How it is written: a percent sign of literal text is doubled. -/
def Piece.source : Piece → Str
  | .literal text => text.flatMap fun c => if c = '%' then ['%', '%'] else [c]
  | .field f => "%(".toList ++ f.key ++ ")s".toList

def sourceOf (fmt : List Piece) : Str := fmt.flatMap Piece.source

/-- `PercentStyle`: an empty format is the default one. -/
def stylePieces (fmt : List Piece) : List Piece :=
  if sourceOf fmt = [] then [.field .message] else fmt

def usesTime (fmt : List Piece) : Bool := "%(asctime)".toList <:+: sourceOf fmt

def Record.field (x : Record) : Field → Except FormatError Str
  | .asctime => x.asctime.elim (.error (.missing "asctime".toList)) .ok
  | .levelname => .ok x.levelname
  | .name => .ok x.name
  | .message => x.message.elim (.error (.missing "message".toList)) .ok
  | .other key => (x.others key).elim (.error (.missing key)) .ok

def Record.piece (x : Record) : Piece → Except FormatError Str
  | .literal text => .ok text
  | .field f => x.field f

/-- `self._fmt % record.__dict__` -/
def formatMessage : List Piece → Record → Except FormatError Str
  | [], _ => .ok []
  | p :: ps, x => do
    let s ← x.piece p
    return s ++ (← formatMessage ps x)

-- ---------------------------------------------------------------------------
-- logging.Formatter.format
-- ---------------------------------------------------------------------------

/-- A text on a line of its own. -/
def onNewLine (s text : Str) : Str := (if s.getLast? = some '\n' then s else s ++ ['\n']) ++ text

/-- The traceback is kept in `exc_text`, unless there is a text already. -/
def cacheTraceback (x : Record) : Record :=
  match x.excInfo with
  | some traceback => { x with excText := (truthy x.excText).or (some traceback) }
  | none => x

/-- The traceback and the stack behind the line. -/
def withTail (x : Record) (s : Str) : Str :=
  let s := (truthy x.excText).elim s (onNewLine s)
  (truthy x.stackInfo).elim s (onNewLine s)

def stampTime (fmt : List Piece) (formatTime : Record → Except FormatError Str) (r : Nat) :
    FormatM Unit :=
  if usesTime fmt then do
    let x ← load r
    let asctime ← lifted (formatTime x)
    store r fun x => { x with asctime := some asctime }
  else pure ()

/-- `logging.Formatter.format` -/
def superFormat (fmt : List Piece) (formatTime : Record → Except FormatError Str) (r : Nat) :
    FormatM Str := do
  let x ← load r
  let message ← lifted x.getMessage
  store r fun x => { x with message := some message }
  stampTime fmt formatTime r
  let x ← load r
  let s ← lifted (formatMessage fmt x)
  store r cacheTraceback
  let x ← load r
  pure (withTail x s)

-- ---------------------------------------------------------------------------
-- What it gives
-- ---------------------------------------------------------------------------

/-- The time of a record once the format has asked for it. -/
def stamped (fmt : List Piece) (formatTime : Record → Except FormatError Str) (x : Record) :
    Except FormatError Record :=
  if usesTime fmt then (formatTime x).map fun t => { x with asctime := some t } else .ok x

/-- The text of a record. -/
def superText (fmt : List Piece) (formatTime : Record → Except FormatError Str) (x : Record) :
    Except FormatError Str := do
  let message ← x.getMessage
  let y ← stamped fmt formatTime { x with message := some message }
  let s ← formatMessage fmt y
  return withTail (cacheTraceback y) s

/-- Only the record `r` may differ. -/
def OnlyAt (r : Nat) (h h' : Records) : Prop :=
  h'.count = h.count ∧ ∀ i, i ≠ r → h'.record i = h.record i

theorem OnlyAt.refl (r : Nat) (h : Records) : OnlyAt r h h := ⟨rfl, fun _ _ => rfl⟩

theorem OnlyAt.trans {r : Nat} {h h' h'' : Records} (a : OnlyAt r h h') (b : OnlyAt r h' h'') :
    OnlyAt r h h'' := ⟨b.1.trans a.1, fun i hi => (b.2 i hi).trans (a.2 i hi)⟩

@[simp] theorem exec_load (r : Nat) (h : Records) : (load r).exec h = (.ok (h.record r), h) := rfl

@[simp] theorem exec_lifted {α : Type} (e : Except FormatError α) (h : Records) :
    (lifted e).exec h = (e, h) := by
  cases e <;> rfl

/-- The records after `store`. -/
def Records.set (h : Records) (r : Nat) (x : Record) : Records :=
  { h with record := Function.update h.record r x }

theorem exec_store (r : Nat) (f : Record → Record) (h : Records) :
    (store r f).exec h = (.ok (), h.set r (f (h.record r))) := rfl

@[simp] theorem Records.set_record (h : Records) (r : Nat) (x : Record) :
    (h.set r x).record r = x := Function.update_self ..

theorem onlyAt_set (h : Records) (r : Nat) (x : Record) : OnlyAt r h (h.set r x) :=
  ⟨rfl, fun _ hi => Function.update_of_ne hi ..⟩

theorem exec_stampTime (fmt : List Piece) (formatTime : Record → Except FormatError Str) (r : Nat)
    (h : Records) :
    ∃ h', (stampTime fmt formatTime r).exec h =
        ((stamped fmt formatTime (h.record r)).map fun _ => (), h') ∧ OnlyAt r h h' ∧
      ∀ y, stamped fmt formatTime (h.record r) = .ok y → h'.record r = y := by
  unfold stampTime stamped
  split
  · rw [Prog.exec_bind_ok (exec_load r h)]
    cases hf : formatTime (h.record r) with
    | error e =>
      refine ⟨h, ?_, .refl r h, fun y hy => by cases hy⟩
      rw [Prog.exec_bind, exec_lifted]
      rfl
    | ok t =>
      refine ⟨h.set r { h.record r with asctime := some t }, ?_, onlyAt_set h r _, fun y hy => ?_⟩
      · rw [Prog.exec_bind_ok (exec_lifted (.ok t) h), exec_store]
        rfl
      · rw [Records.set_record]
        exact Except.ok.inj hy
  · exact ⟨h, rfl, .refl r h, fun y hy => Except.ok.inj hy⟩

/-- **`logging.Formatter.format`** gives the text of the record, or raises what that
raises, and sets attributes of that record only. -/
theorem exec_superFormat (fmt : List Piece) (formatTime : Record → Except FormatError Str) (r : Nat)
    (h : Records) :
    ∃ h', (superFormat fmt formatTime r).exec h = (superText fmt formatTime (h.record r), h') ∧
      OnlyAt r h h' := by
  unfold superFormat superText
  rw [Prog.exec_bind_ok (exec_load r h)]
  cases hm : (h.record r).getMessage with
  | error e =>
    refine ⟨h, ?_, .refl r h⟩
    rw [Prog.exec_bind, exec_lifted]
    rfl
  | ok message =>
    rw [Prog.exec_bind_ok (exec_lifted (.ok message) h), Prog.exec_bind_ok (exec_store _ _ _)]
    have h₁ := onlyAt_set h r { h.record r with message := some message }
    obtain ⟨h', hexec, hat, hrec⟩ := exec_stampTime fmt formatTime r
      (h.set r { h.record r with message := some message })
    rw [Records.set_record] at hexec hrec
    cases hs : stamped fmt formatTime { h.record r with message := some message } with
    | error e =>
      rw [hs] at hexec
      refine ⟨h', ?_, h₁.trans hat⟩
      rw [Prog.exec_bind, hexec]
      show _ = ((do let y ← stamped fmt formatTime _; _ : Except FormatError Str), h')
      rw [hs]
      rfl
    | ok y =>
      rw [hs] at hexec
      rw [Prog.exec_bind_ok hexec, Prog.exec_bind_ok (exec_load r h'), hrec y hs]
      show ∃ h'', _ = ((do let y ← stamped fmt formatTime _; _ : Except FormatError Str), h'') ∧ _
      rw [hs]
      cases hf : formatMessage fmt y with
      | error e =>
        refine ⟨h', ?_, h₁.trans hat⟩
        rw [Prog.exec_bind, exec_lifted]
        show _ = ((do let s ← formatMessage fmt y; _ : Except FormatError Str), h')
        rw [hf]
        rfl
      | ok s =>
        refine ⟨h'.set r (cacheTraceback (h'.record r)), ?_, h₁.trans (hat.trans (onlyAt_set _ _ _))⟩
        rw [Prog.exec_bind_ok (exec_lifted (.ok s) h'), Prog.exec_bind_ok (exec_store _ _ _),
          Prog.exec_bind_ok (exec_load _ _), Records.set_record, hrec y hs]
        show _ = ((do let s ← formatMessage fmt y; _ : Except FormatError Str), _)
        rw [hf]
        rfl

end ScietexLogging
