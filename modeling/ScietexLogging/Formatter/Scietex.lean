import ScietexLogging.Broker.Model
import ScietexLogging.Formatter.Model
import ScietexLogging.Theme.Palette

/-!
# Formatter — `ScietexFormatter`

`ScietexFormatter.format` works on a copy of the record. With colour it paints the level,
the name and the message of the copy, without it abbreviates the level only, and leaves
the rest to `logging.Formatter`.

* `exec_format` — the text it gives, and that it leaves the records alone.
-/

namespace ScietexLogging

open Posix Python

-- ---------------------------------------------------------------------------
-- The formatter
-- ---------------------------------------------------------------------------

def reset : Str := "\x1b[0m".toList

def bold : Str := "\x1b[1m".toList

def dim : Str := "\x1b[2m".toList

/-- The sequence of a colour that is set. -/
def painting (ansi : Str → Except InvalidHex Str) : Option Str → Except FormatError (List Str)
  | some color => ((ansi color).mapError .palette).map fun s => [s]
  | none => .ok []

/-- `_paint` -/
def paint (text : Str) (color : Option Str) (isBold : Bool) (bg : Option Str) :
    Except FormatError Str := do
  let fore ← painting ansiFg color
  let back ← painting ansiBg bg
  let prefixes := (if isBold then [bold] else []) ++ fore ++ back
  return if prefixes = [] then text else prefixes.flatten ++ text ++ reset

/-- The options of a formatter. `logging.Formatter.__init__` refuses a format without any field;
here there are such formatters too. -/
structure ScietexFormatter where
  fmt : Option (List Piece) := none
  datefmt : Option Str := none
  theme : Option LoggingTheme := none
  color : Option Bool := none

namespace ScietexFormatter

/-- `"%(asctime)s - %(levelname)s - [%(name)s] - %(message)s"` -/
def defaultFmt : List Piece :=
  [.field .asctime, .literal " - ".toList, .field .levelname, .literal " - [".toList,
    .field .name, .literal "] - ".toList, .field .message]

def pieces (f : ScietexFormatter) : List Piece := stylePieces (f.fmt.getD defaultFmt)

/-- `_theme` -/
def usedTheme (f : ScietexFormatter) : LoggingTheme := f.theme.getD monochrome

/-- `_color` -/
def inColor (f : ScietexFormatter) : Bool := f.color.getD f.usedTheme.color

def formatTime (f : ScietexFormatter) (x : Record) (datefmt : Option Str) :
    Except FormatError Str := do
  let timestamp ← match datefmt with
    | none => x.isoTimestamp
    | some datefmt => raising (x.strftime datefmt)
  return if f.inColor then dim ++ timestamp ++ reset else timestamp

/-- The copy of a record, with the palette of the theme on it. -/
def painted (f : ScietexFormatter) (x : Record) : Except FormatError Record := do
  let palette := f.usedTheme.palette
  let message ← x.getMessage
  let message ← paint message (some palette.foreground) false none
  let level ← paint (levelAbbreviation x.levelno).toList (palette.levelColor x.levelno) true
    (if x.levelno = 50 then palette.criticalBg else none)
  let name ← paint x.name palette.loggerName false none
  return { x with levelname := level, name := name, msg := .text message, args := none }

/-- The copy of a record, with its level abbreviated. -/
def abbreviated (x : Record) : Record :=
  { x with levelname := (levelAbbreviation x.levelno).toList }

/-- What `format` makes of its copy of a record. -/
def prepared (f : ScietexFormatter) (x : Record) : Except FormatError Record :=
  if f.inColor then f.painted x else .ok (abbreviated x)

def format (f : ScietexFormatter) (record : Nat) : FormatM Str := do
  let copy ← copyRecord record
  let x ← load copy
  let y ← lifted (f.prepared x)
  store copy fun _ => y
  superFormat f.pieces (fun x => f.formatTime x f.datefmt) copy

/-- The text of a record. -/
def text (f : ScietexFormatter) (x : Record) : Except FormatError Str := do
  let y ← f.prepared x
  superText f.pieces (fun x => f.formatTime x f.datefmt) y

/-- `format` gives the text of the record, or raises what that raises, and leaves the
records alone that were there. -/
theorem exec_format (f : ScietexFormatter) (r : Nat) (h : Records) :
    ∃ h', (f.format r).exec h = (f.text (h.record r), h') ∧
      ∀ i < h.count, h'.record i = h.record i := by
  unfold format text
  have hcopy : (copyRecord r).exec h =
      (.ok h.count, Records.set { h with count := h.count + 1 } h.count (h.record r)) := rfl
  have hkept : ∀ g : Records, OnlyAt h.count { h with count := h.count + 1 } g →
      ∀ i < h.count, g.record i = h.record i := fun g hg i hi => hg.2 i (by omega)
  rw [Prog.exec_bind_ok hcopy, Prog.exec_bind_ok (exec_load _ _), Records.set_record]
  cases hy : f.prepared (h.record r) with
  | error e =>
    refine ⟨_, ?_, hkept _ (onlyAt_set _ _ (h.record r))⟩
    rw [Prog.exec_bind, exec_lifted]
    rfl
  | ok y =>
    rw [Prog.exec_bind_ok (exec_lifted (.ok y) _), Prog.exec_bind_ok (exec_store _ _ _)]
    obtain ⟨h', hexec, hat⟩ := exec_superFormat f.pieces (fun x => f.formatTime x f.datefmt) h.count
      (Records.set (Records.set { h with count := h.count + 1 } h.count (h.record r)) h.count y)
    rw [Records.set_record] at hexec
    exact ⟨h', hexec, hkept h' ((onlyAt_set _ _ _).trans ((onlyAt_set _ _ _).trans hat))⟩

end ScietexFormatter

end ScietexLogging
