import ScietexLogging.Asyncio.Machine
import ScietexLogging.Posix.FileSystem
import ScietexLogging.Posix.Paths
import ScietexLogging.Posix.Program

/-!
# File — the file backends

`FileBackend` and its rotation subclasses, for a backend that owns its file: what
`_write_record` and `_close_stream` do on the executor's thread, statement by
statement, down to the operations of the file system. Whether the system lets an
operation go through is chosen from outside, for each operation of each call.

The standard library's part — `shouldRollover`, `doRollover`, `reopenIfNeeded` — is
written out as Python 3.11 has it: the stream is closed and forgotten before any rename
or open that may fail.
-/

namespace ScietexLogging

open Posix

/-- What `_write_record` raises. -/
inductive IoError where
  | osError
  | valueError                  -- the stream is closed
  | formatError (exc : String)  -- from the rotator's own formatter
  deriving DecidableEq, Repr

-- ---------------------------------------------------------------------------
-- The record and its formatter
-- ---------------------------------------------------------------------------

/-- A `LogRecord`, as the rotator's own formatter reads it. -/
structure FileRecord where
  /-- `getMessage()` -/
  message : Except String String
  excText : Option String
  stackInfo : Option String

/-- A text on a line of its own; an empty one counts as none. -/
def appendLine (s : String) : Option String → String
  | none => s
  | some text => if text.isEmpty then s else (if s.endsWith "\n" then s else s ++ "\n") ++ text

/-- `Formatter()`: the format of a handler no formatter was set on. -/
def defaultFormat (record : FileRecord) : Except String String := do
  let s ← record.message
  return appendLine (appendLine s record.excText) record.stackInfo

-- ---------------------------------------------------------------------------
-- The backends
-- ---------------------------------------------------------------------------

/-- What `TimedRotatingFileHandler` makes of its options. -/
structure TimedOptions where
  interval : Int
  /-- `strftime` of the time a file was begun -/
  suffix : Int → String
  computeRollover : Int → Int
  /-- `getFilesToDelete`, where `backupCount` is positive -/
  filesToDelete : FileSystem AbsPath → List AbsPath
  /-- It lists a directory. -/
  listed : ∀ fs, (filesToDelete fs).Nodup ∧ ∀ p ∈ filesToDelete fs, (fs.names p).isSome

inductive FileKind where
  | plain
  | rotating (maxBytes backupCount : Int)
  | timed (o : TimedOptions)
  | watched

/-- The options of a backend, and the working directory it was constructed in. -/
structure FileConfig where
  kind : FileKind
  filename : Filename
  mode : OpenMode
  builtIn : List String

namespace FileConfig

/-- The rotator's and the watcher's, made absolute at construction. -/
def baseFilename (cfg : FileConfig) : AbsPath := cfg.filename.resolve cfg.builtIn

/-- `rotation_filename(f"{baseFilename}.{i}")` -/
def backup (cfg : FileConfig) (i : Nat) : AbsPath := cfg.baseFilename.suffixed (toString i)

/-- `self.mode`; the timed backend takes none. -/
def openMode (cfg : FileConfig) : OpenMode :=
  match cfg.kind with
  | .timed _ => .append
  | _ => cfg.mode

end FileConfig

/-- The operations of one `_write_record`, each by its place in the code. -/
inductive FsOp where
  | «open»                 -- the first `_open_stream`
  | reopen                 -- the second
  | write
  | flush
  | seek                   -- shouldRollover
  | find (i : Nat)         -- doRollover, from here on
  | findNext (i : Nat)
  | removeNext (i : Nat)
  | rename (i : Nat)
  | findTarget
  | removeTarget
  | findActive
  | renameActive
  | removeExpired (k : Nat)
  | stat                   -- reopenIfNeeded, from here on
  | flushOld
  | openNew
  | fstat
  deriving DecidableEq, Repr

/-- The arguments of `_write_record`, the time, and which operations succeed. -/
structure WriteCall where
  text : String
  record : FileRecord
  now : Int
  goes : FsOp → Bool

/-- The file system, the working directory and the backend's side. -/
structure FileWorld where
  fs : FileSystem AbsPath
  cwd : List String
  /-- `_stream` -/
  stream : Option Nat
  /-- the `.stream` of the rotator or watcher -/
  managed : Option Nat
  /-- the inode the watcher remembers; none is its `-1` -/
  ino : Option Nat
  rolloverAt : Int
  /-- The rollovers so far. -/
  rollovers : Nat

abbrev FileM := Prog FileWorld IoError

namespace FileBackend

variable {α : Type}

/-- An operation of the file system; `e` is raised where it is refused for the state
of its stream. -/
def onSystem (goes : Bool) (e : IoError)
    (op : FileSystem AbsPath → Option (α × FileSystem AbsPath)) : FileM α := do
  let w ← get
  if goes then
    match op w.fs with
    | some (a, fs) => do
      modify fun w => { w with fs := fs }
      pure a
    | none => throw e
  else throw .osError

/-- `os.path.exists`: a failing `stat` counts as no. -/
def found (goes : Bool) (p : AbsPath) : FileM Bool := do
  let w ← get
  pure (goes && (w.fs.names p).isSome)

def openPath (goes : Bool) (mode : OpenMode) (p : AbsPath) : FileM Nat :=
  onSystem goes .osError fun fs => some (fs.opened, fs.openFile mode p)

def removePath (goes : Bool) (p : AbsPath) : FileM Unit :=
  onSystem goes .osError fun fs => (fs.remove p).map ((), ·)

def renamePath (goes : Bool) (src dst : AbsPath) : FileM Unit :=
  onSystem goes .osError fun fs => (fs.rename src dst).map ((), ·)

variable (cfg : FileConfig) (c : WriteCall)

def setStream (h : Option Nat) : FileM Unit := modify fun w => { w with stream := h }

def setManaged (h : Option Nat) : FileM Unit := modify fun w => { w with managed := h }

/-- `_open_stream` -/
def openStream (goes : Bool) : FileM Nat := do
  let w ← get
  match w.stream with
  | some h => pure h
  | none => do
    let h ← openPath goes cfg.openMode (cfg.filename.resolve w.cwd)
    setStream (some h)
    pure h

/-- `stream.write(text)` and `stream.flush()` -/
def writeText (h : Nat) : FileM Unit := do
  onSystem (c.goes .write) .valueError fun fs => (fs.write h c.text).map ((), ·)
  onSystem (c.goes .flush) .valueError fun fs => (fs.flush h).map ((), ·)

/-- `self.stream.close()` and `self.stream = None`, in the standard library -/
def closeManaged : FileM Unit :=
  modify fun w =>
    match w.managed with
    | some h => { w with fs := w.fs.close h, managed := none }
    | none => w

def removeIfFound (goes goes' : Bool) (p : AbsPath) : FileM Unit := do
  let b ← found goes p
  if b then removePath goes' p else pure ()

/-- `rotate(baseFilename, dfn)` -/
def rotate (dfn : AbsPath) : FileM Unit := do
  let b ← found (c.goes .findActive) cfg.baseFilename
  if b then renamePath (c.goes .renameActive) cfg.baseFilename dfn else pure ()

-- ---------------------------------------------------------------------------
-- RotatingFileHandler
-- ---------------------------------------------------------------------------

/-- `shouldRollover`: the rotator renders the record by its own format. -/
def sizeReached (maxBytes : Int) : FileM Bool :=
  if 0 < maxBytes then
    match defaultFormat c.record with
    | .error exc => throw (.formatError exc)
    | .ok msg => do
      let w ← get
      match w.managed with
      | none => pure false
      | some h => do
        let position ← onSystem (c.goes .seek) .valueError fun fs => fs.seekEnd h
        pure (decide (maxBytes ≤ position + (msg.length + 1)))
  else pure false

def moveBackup (i : Nat) : FileM Unit := do
  let b ← found (c.goes (.find i)) (cfg.backup i)
  if b then do
    removeIfFound (c.goes (.findNext i)) (c.goes (.removeNext i)) (cfg.backup (i + 1))
    renamePath (c.goes (.rename i)) (cfg.backup i) (cfg.backup (i + 1))
  else pure ()

/-- The `for` of `doRollover`: from backup `n` down to backup 1. -/
def moveBackups : Nat → FileM Unit
  | 0 => pure ()
  | n + 1 => do
    moveBackup cfg c (n + 1)
    moveBackups n

def makeBackups (backupCount : Int) : FileM Unit :=
  if 0 < backupCount then do
    moveBackups cfg c (backupCount - 1).toNat
    removeIfFound (c.goes .findTarget) (c.goes .removeTarget) (cfg.backup 1)
    rotate cfg c (cfg.backup 1)
  else pure ()

/-- `doRollover`, where `delay` is set. -/
def rollSize (backupCount : Int) : FileM Unit := do
  closeManaged
  makeBackups cfg c backupCount
  modify fun w => { w with rollovers := w.rollovers + 1 }

-- ---------------------------------------------------------------------------
-- TimedRotatingFileHandler
-- ---------------------------------------------------------------------------

/-- `shouldRollover` -/
def timeReached : FileM Bool := do
  let w ← get
  pure (decide (w.rolloverAt ≤ c.now))

def removeExpired : Nat → List AbsPath → FileM Unit
  | _, [] => pure ()
  | k, p :: ps => do
    removePath (c.goes (.removeExpired k)) p
    removeExpired (k + 1) ps

/-- `doRollover`, where `delay` is set. -/
def rollTime (o : TimedOptions) : FileM Unit := do
  closeManaged
  let w ← get
  let dfn := cfg.baseFilename.suffixed (o.suffix (w.rolloverAt - o.interval))
  removeIfFound (c.goes .findTarget) (c.goes .removeTarget) dfn
  rotate cfg c dfn
  let w ← get
  removeExpired c 0 (o.filesToDelete w.fs)
  modify fun w =>
    { w with rolloverAt := o.computeRollover c.now, rollovers := w.rollovers + 1 }

-- ---------------------------------------------------------------------------
-- WatchedFileHandler
-- ---------------------------------------------------------------------------

def reopenIfNeeded : FileM Unit := do
  let w ← get
  match w.managed with
  | none => pure ()
  | some h => do
    let sres ← onSystem (c.goes .stat) .osError fun fs => some (fs.names cfg.baseFilename, fs)
    if sres = none ∨ sres ≠ w.ino then do
      onSystem (c.goes .flushOld) .valueError fun fs => (fs.flush h).map ((), ·)
      closeManaged
      let h ← openPath (c.goes .openNew) cfg.openMode cfg.baseFilename
      setManaged (some h)
      let i ← onSystem (c.goes .fstat) .valueError fun fs => (fs.inodeOf h).map (·, fs)
      modify fun w => { w with ino := some i }
    else pure ()

-- ---------------------------------------------------------------------------
-- _write_record
-- ---------------------------------------------------------------------------

/-- `FileBackend._write_record` -/
def writePlain : FileM Unit := do
  let stream ← openStream cfg (c.goes .open)
  writeText c stream

/-- Where the text goes: to a new stream after a rollover. -/
def rollStream (doRollover : FileM Unit) (stream : Nat) (due : Bool) : FileM Nat :=
  if due then do
    doRollover
    setStream none
    openStream cfg (c.goes .reopen)
  else pure stream

/-- The two rotation backends; they differ in their rotator. -/
def writeRolling (shouldRollover : FileM Bool) (doRollover : FileM Unit) : FileM Unit := do
  let stream ← openStream cfg (c.goes .open)
  setManaged (some stream)
  let due ← shouldRollover
  let stream ← rollStream cfg c doRollover stream due
  writeText c stream

/-- `RotatingFileBackend._write_record` -/
def writeRotating (maxBytes backupCount : Int) : FileM Unit :=
  writeRolling cfg c (sizeReached c maxBytes) (rollSize cfg c backupCount)

/-- `TimedRotatingFileBackend._write_record` -/
def writeTimed (o : TimedOptions) : FileM Unit :=
  writeRolling cfg c (timeReached c) (rollTime cfg c o)

/-- `WatchedFileBackend._write_record` -/
def writeWatched : FileM Unit := do
  let stream ← openStream cfg (c.goes .open)
  setManaged (some stream)
  reopenIfNeeded cfg c
  let w ← get
  setStream w.managed
  let stream ← openStream cfg (c.goes .reopen)
  writeText c stream

def writeRecord : FileM Unit :=
  match cfg.kind with
  | .plain => writePlain cfg c
  | .rotating maxBytes backupCount => writeRotating cfg c maxBytes backupCount
  | .timed o => writeTimed cfg c o
  | .watched => writeWatched cfg c

/-- `_close_stream`: the reference is reset also where `close()` raises. -/
def closeStream (w : FileWorld) : FileWorld :=
  match w.stream with
  | some h => { w with fs := w.fs.close h, stream := none }
  | none => w

end FileBackend

-- ---------------------------------------------------------------------------
-- Runs
-- ---------------------------------------------------------------------------

/-- What others do to the files between two calls. -/
inductive External where
  | rename (src dst : AbsPath)
  | remove (p : AbsPath)
  | create (p : AbsPath)

def External.apply (fs : FileSystem AbsPath) : External → Option (FileSystem AbsPath)
  | .rename src dst => fs.rename src dst
  | .remove p => fs.remove p
  | .create p => some (fs.create p)

/-- A text whose `_write_record` returned, with the rollovers so far and the file it
went to. -/
structure Written where
  text : String
  rollovers : Nat
  inode : Option Nat
  deriving DecidableEq, Repr

structure FileRun where
  world : FileWorld
  written : List Written

namespace FileRun

inductive Act where
  | write (c : WriteCall)
  | close                       -- the worker ends; a later write is another cycle's
  | chdir (dir : List String)
  | external (e : External)

variable (cfg : FileConfig)

/-- The file of `_stream`. -/
def streamInode (w : FileWorld) : Option Nat := (w.stream.bind w.fs.file).map OpenFile.inode

def afterWrite (s : FileRun) (c : WriteCall) : Except IoError Unit × FileWorld → FileRun
  | (.ok _, w) => ⟨w, s.written ++ [⟨c.text, w.rollovers, streamInode w⟩]⟩
  | (.error _, w) => ⟨w, s.written⟩

def step (s : FileRun) : Act → Option FileRun
  | .write c => some (s.afterWrite c ((FileBackend.writeRecord cfg c).exec s.world))
  | .close => some { s with world := FileBackend.closeStream s.world }
  | .chdir dir => some { s with world := { s.world with cwd := dir } }
  | .external e => (e.apply s.world.fs).map fun fs => { s with world := { s.world with fs := fs } }

/-- The backend has just been constructed. -/
def Init (s : FileRun) : Prop :=
  ∃ fs at₀, fs.Sound ∧ (∀ h, fs.file h = none) ∧
    s = ⟨⟨fs, cfg.builtIn, none, none, none, at₀, 0⟩, []⟩

def machine : Asyncio.Machine FileRun Act where
  init := Init cfg
  step := step cfg

end FileRun

end ScietexLogging
