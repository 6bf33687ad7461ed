import ScietexLogging.File.Healing

/-!
# File — what a clean call does to the log and its backups

In a world where nothing has failed (`Tidy`), a call of the plain or the size-rotating
backend whose operations all go through does one of four things (`Turn`): it raises
because the rotator cannot format the record, it appends its text, it moves the log
to backup 1 and begins a new one, or it starts over in the same file.
-/

namespace ScietexLogging

open Posix

namespace FileConfig

variable (cfg : FileConfig)

/-- The log file is slot 0, backup `k` is slot `k`. -/
def slot : Nat → AbsPath
  | 0 => cfg.baseFilename
  | k + 1 => cfg.backup (k + 1)

@[simp] theorem slot_zero : cfg.slot 0 = cfg.baseFilename := rfl

theorem slot_ne_base {k : Nat} (hk : 0 < k) : cfg.slot k ≠ cfg.baseFilename := by
  cases k with
  | zero => omega
  | succ k => exact cfg.backup_ne_base (k + 1)

/-- How many backups are kept. -/
def kept : Nat :=
  match cfg.kind with
  | .rotating _ backupCount => backupCount.toNat
  | _ => 0

/-- The backends of a single log, with backups by number if any. -/
def Numbered : Prop := cfg.kind = .plain ∨ ∃ m b, cfg.kind = .rotating m b

end FileConfig

/-- Nothing has failed: the stream held, if any, is live, and all is flushed. -/
structure Tidy (cfg : FileConfig) (w : FileWorld) : Prop where
  held : Held cfg w
  live : ∀ h, w.stream = some h → ∃ f, w.fs.live h = some f ∧ f.buffer = []

/-- Only calls whose operations go through, and the path leads where it led. -/
def FileRun.Act.Untroubled (cfg : FileConfig) (a : FileRun.Act) : Prop :=
  a.Undisturbed cfg ∧ ∀ c, a = .write c → c.Clean

namespace FileBackend

variable {cfg : FileConfig} {c : WriteCall} {w w' v : FileWorld} {h : Nat}

/-- The length of the log file, in bytes. -/
def logSize (cfg : FileConfig) (w : FileWorld) : Nat :=
  (String.join (w.fs.texts cfg.baseFilename)).utf8ByteSize

/-- `shouldRollover` is true. -/
def Full (cfg : FileConfig) (w : FileWorld) (c : WriteCall) : Prop :=
  ∃ maxBytes backupCount msg, cfg.kind = .rotating maxBytes backupCount ∧ 0 < maxBytes ∧
    defaultFormat c.record = .ok msg ∧ maxBytes ≤ (logSize cfg w : Int) + (msg.length + 1)

/-- The world once the log file is open. -/
def readied (cfg : FileConfig) (w : FileWorld) : FileWorld :=
  match w.stream with
  | some _ => w
  | none => opened cfg w

/-- Every backup takes the next number, the last one is dropped. -/
structure Slid (cfg : FileConfig) (n : Nat) (names names' : AbsPath → Option Nat) : Prop where
  next : ∀ k, k + 1 < n → names' (cfg.slot (k + 1)) = names (cfg.slot k)
  last : ∀ k, k + 1 = n →
    names' (cfg.slot (k + 1)) = (names (cfg.slot k)).or (names (cfg.slot (k + 1)))
  other : ∀ k, n < k → names' (cfg.slot k) = names (cfg.slot k)

/-- What a clean call does, once the log file is open. -/
inductive Turn (cfg : FileConfig) (c : WriteCall) (v : FileWorld) :
    Except IoError Unit → FileWorld → Prop
  | refused {e : IoError} {w' : FileWorld} (unformatted : ¬ Renders cfg c) (fs : w'.fs = v.fs)
      (rollovers : w'.rollovers = v.rollovers) : Turn cfg c v (.error e) w'
  | stays {w' : FileWorld} (fits : ¬ Full cfg v c) (names : w'.fs.names = v.fs.names)
      (texts : ∀ q, w'.fs.texts q =
        if q = cfg.baseFilename then v.fs.texts cfg.baseFilename ++ [c.text] else v.fs.texts q)
      (rollovers : w'.rollovers = v.rollovers) : Turn cfg c v (.ok ()) w'
  | rolls {w' : FileWorld} (full : Full cfg v c) (keeps : 0 < cfg.kept)
      (slid : Slid cfg cfg.kept v.fs.names w'.fs.names)
      (active : w'.fs.texts cfg.baseFilename = [c.text])
      (rest : ∀ q, q ≠ cfg.baseFilename →
        w'.fs.texts q = FileSystem.texts { v.fs with names := w'.fs.names } q)
      (rollovers : w'.rollovers = v.rollovers + 1) : Turn cfg c v (.ok ()) w'
  | restarts {w' : FileWorld} (full : Full cfg v c) (keeps : cfg.kept = 0)
      (names : w'.fs.names = v.fs.names)
      (texts : ∀ q, w'.fs.texts q =
        if q = cfg.baseFilename then
          (if cfg.openMode = .truncate then [] else v.fs.texts cfg.baseFilename) ++ [c.text]
        else v.fs.texts q)
      (rollovers : w'.rollovers = v.rollovers + 1) : Turn cfg c v (.ok ()) w'

-- ---------------------------------------------------------------------------
-- The steps of a clean call
-- ---------------------------------------------------------------------------

theorem opened_texts (hw : Held cfg w) (q : AbsPath) :
    (opened cfg w).fs.texts q =
      if q = cfg.baseFilename ∧ cfg.openMode = .truncate then [] else w.fs.texts q := by
  show (w.fs.openFile cfg.openMode (cfg.filename.resolve w.cwd)).texts q = _
  rw [hw.here]
  by_cases hq : q = cfg.baseFilename
  · cases hmode : cfg.openMode with
    | append => simp [FileSystem.texts_openFile_append hw.sound]
    | truncate =>
      rw [hq, if_pos ⟨rfl, rfl⟩]
      exact FileSystem.texts_openFile_truncate _ _
  · rw [if_neg fun h => hq h.1]
    exact FileSystem.texts_openFile_of_ne hw.sound _ hq

theorem opened_names (hw : Held cfg w) :
    (opened cfg w).fs.names =
      Function.update w.fs.names cfg.baseFilename (some (w.fs.openInode cfg.baseFilename)) := by
  show (w.fs.openFile cfg.openMode (cfg.filename.resolve w.cwd)).names = _
  rw [hw.here]
  rfl

theorem readied_texts (hw : Held cfg w) (q : AbsPath) :
    (readied cfg w).fs.texts q =
      if q = cfg.baseFilename ∧ w.stream = none ∧ cfg.openMode = .truncate then []
      else w.fs.texts q := by
  unfold readied
  cases hs : w.stream with
  | some h => simp
  | none =>
    rw [opened_texts hw]
    simp

theorem readied_names (hw : Held cfg w) {q : AbsPath} (hq : q ≠ cfg.baseFilename) :
    (readied cfg w).fs.names q = w.fs.names q := by
  unfold readied
  split
  · rfl
  · rw [opened_names hw, Function.update_of_ne hq]

theorem readied_names_base (hw : Held cfg w) {i : Nat}
    (hi : w.fs.names cfg.baseFilename = some i) :
    (readied cfg w).fs.names cfg.baseFilename = some i := by
  unfold readied
  split
  · exact hi
  · rw [opened_names hw, FileSystem.openInode, hi, Function.update_self]
    rfl

@[simp] theorem readied_rollovers (cfg : FileConfig) (w : FileWorld) :
    (readied cfg w).rollovers = w.rollovers := by
  unfold readied
  split
  · rfl
  · rfl

end FileBackend

namespace Tidy

open FileBackend

variable {cfg : FileConfig} {c : WriteCall} {w w' v : FileWorld} {h : Nat}

theorem opened (hw : Held cfg w) : Tidy cfg (FileBackend.opened cfg w) := by
  refine ⟨hw.opened.1, fun k hk => ?_⟩
  obtain rfl := Option.some.inj hk
  exact ⟨_, FileSystem.live_openFile .., rfl⟩

theorem readied (hw : Tidy cfg w) : Tidy cfg (readied cfg w) := by
  unfold FileBackend.readied
  split
  · exact hw
  · exact opened hw.held

theorem managed (hw : Tidy cfg w) (x : Option Nat) : Tidy cfg { w with managed := x } :=
  ⟨hw.held.managed x, hw.live⟩

theorem close (hw : Tidy cfg w) : Tidy cfg (closeStream w) := by
  refine ⟨hw.held.close.1, fun h hs => ?_⟩
  unfold closeStream at hs
  split at hs
  · exact absurd hs (by simp)
  · rename_i hnone
    rw [hnone] at hs
    exact absurd hs (by simp)

theorem not_stale (hw : Tidy cfg w) : ¬ Stale w := by
  rintro ⟨h, hs, hdead⟩
  obtain ⟨f, hlive, -⟩ := hw.live h hs
  rw [hdead] at hlive
  exact absurd hlive (by simp)

theorem readied_stream (cfg : FileConfig) (w : FileWorld) :
    ∃ h, (FileBackend.readied cfg w).stream = some h := by
  unfold FileBackend.readied
  split
  · exact ⟨_, ‹_›⟩
  · exact ⟨_, rfl⟩

/-- The file of the stream. -/
theorem inode (hw : Tidy cfg w) (hs : w.stream = some h) :
    ∃ f, w.fs.live h = some f ∧ f.buffer = [] ∧ w.fs.names cfg.baseFilename = some f.inode := by
  obtain ⟨f, hlive, hbuffer⟩ := hw.live h hs
  exact ⟨f, hlive, hbuffer, hw.held.meant h f hs hlive⟩

/-- Then the log file is there. -/
theorem readied_named (hw : Tidy cfg w) :
    ∃ i, (FileBackend.readied cfg w).fs.names cfg.baseFilename = some i := by
  obtain ⟨h, hs⟩ := readied_stream cfg w
  obtain ⟨f, -, -, hname⟩ := hw.readied.inode hs
  exact ⟨_, hname⟩

theorem puts (hw : Tidy cfg w) (hs : w.stream = some h) (hp : Puts c h w (.ok ()) w') :
    Tidy cfg w' ∧ w'.stream = some h ∧ w'.fs.names = w.fs.names ∧ w'.rollovers = w.rollovers ∧
      ∀ q, w'.fs.texts q =
        if q = cfg.baseFilename then w.fs.texts cfg.baseFilename ++ [c.text] else w.fs.texts q := by
  obtain ⟨hheld, -, -⟩ := hw.held.puts hs hp
  cases hp with
  | @done f live _ _ =>
    obtain ⟨g, hg, hbuffer, hname⟩ := hw.inode hs
    obtain rfl := Option.some.inj (live.symm.trans hg)
    refine ⟨⟨hheld, fun k hk => ?_⟩, hs, rfl, rfl, fun q => ?_⟩
    · obtain rfl := Option.some.inj (hs.symm.trans hk)
      exact ⟨_, FileSystem.live_sync _, rfl⟩
    · have htexts := FileSystem.texts_sync (f := { f with buffer := f.buffer ++ [c.text] })
        hw.held.sound hname h false q
      rw [htexts, hbuffer, List.nil_append]

/-- The first `_open_stream`. -/
theorem opens {goes : Bool} (ho : Opens cfg goes w (.ok h) w') :
    w' = FileBackend.readied cfg w ∧ w'.stream = some h := by
  cases ho with
  | has stream => exact ⟨by rw [FileBackend.readied, stream], stream⟩
  | opens stream _ => exact ⟨by rw [FileBackend.readied, stream], rfl⟩

/-- `shouldRollover`, which has nothing to flush. -/
theorem decides {m b : Int} {r : Except IoError Bool} (hw : Tidy cfg w)
    (hk : cfg.kind = .rotating m b) (hc : c.Clean) (hs : w.stream = some h)
    (hd : (sizeReached c m).exec { w with managed := some h } = (r, w')) :
    w' = { w with managed := some h } ∧
      ((∃ e, r = .error e) ∧ ¬ Renders cfg c ∨ r = .ok false ∧ ¬ Full cfg w c ∨
        r = .ok true ∧ Full cfg w c) := by
  obtain ⟨f, hlive, hbuffer, hname⟩ := hw.inode hs
  cases sizeReached_sizes rfl hd with
  | unlimited limit =>
    refine ⟨rfl, .inr (.inl ⟨rfl, ?_⟩)⟩
    rintro ⟨m', b', msg, hk', hpos, -⟩
    obtain ⟨rfl, -⟩ := FileKind.rotating.inj (hk.symm.trans hk')
    omega
  | unformatted limit format =>
    refine ⟨rfl, .inl ⟨⟨_, rfl⟩, fun hr => ?_⟩⟩
    obtain ⟨msg, hmsg⟩ := hr m b hk limit
    rw [hmsg] at format
    exact absurd format (by simp)
  | unsought limit why =>
    rcases why with hstay | hdead
    · rw [hc .seek] at hstay
      exact absurd hstay (by simp)
    · exact absurd (hdead.symm.trans hlive) (by simp)
  | @sought msg g limit format go live =>
    obtain rfl := Option.some.inj (hlive.symm.trans live)
    have hself : w.fs.sync h f false = w.fs := FileSystem.sync_eq_self hlive hbuffer
    refine ⟨by show ({ w with fs := w.fs.sync h f false, managed := some h } : FileWorld) = _
               rw [hself], .inr ?_⟩
    have hsize : logSize cfg w = (w.fs.sync h f false).size f.inode := by
      rw [hself, logSize, FileSystem.texts_eq hname]
      rfl
    have hiff : Full cfg w c ↔
        m ≤ ((w.fs.sync h f false).size f.inode : Int) + (msg.length + 1) := by
      rw [← hsize]
      constructor
      · rintro ⟨m', b', msg', hk', -, hmsg, hle⟩
        obtain ⟨rfl, -⟩ := FileKind.rotating.inj (hk.symm.trans hk')
        obtain rfl := Except.ok.inj (format.symm.trans hmsg)
        exact hle
      · exact fun hle => ⟨m, b, msg, hk, limit, format, hle⟩
    by_cases hfull : Full cfg w c
    · exact .inr ⟨congrArg Except.ok (decide_eq_true (hiff.mp hfull)), hfull⟩
    · exact .inl ⟨congrArg Except.ok (decide_eq_false fun hle => hfull (hiff.mpr hle)), hfull⟩

/-- The world between `doRollover` and the second `_open_stream`. -/
structure Rolled (cfg : FileConfig) (w w' : FileWorld) : Prop where
  held : Held cfg w'
  content : w'.fs.content = w.fs.content
  rollovers : w'.rollovers = w.rollovers + 1
  slid : 0 < cfg.kept → Slid cfg cfg.kept w.fs.names w'.fs.names ∧
    w'.fs.names cfg.baseFilename = none
  same : cfg.kept = 0 → w'.fs.names = w.fs.names

theorem close_content {fs : FileSystem AbsPath} {f : OpenFile AbsPath} (hl : fs.live h = some f)
    (hf : f.buffer = []) : (fs.close h).content = fs.content := by
  rw [FileSystem.close, hl]
  exact FileSystem.content_sync_of_empty hf h true

theorem slid_of_shifted {n : Nat} {names names' : AbsPath → Option Nat} {i : Nat}
    (hi : names cfg.baseFilename = some i) (hs : Shifted cfg n names names') :
    Slid cfg (n + 1) names names' := by
  refine ⟨fun k hk => ?_, fun k hk => ?_, fun k hk => ?_⟩
  · cases k with
    | zero => exact hs.first
    | succ k => exact hs.next (k + 1) (by omega) (by omega)
  · obtain rfl : k = n := by omega
    cases k with
    | zero =>
      show names' (cfg.backup 1) = (names cfg.baseFilename).or _
      rw [hs.first, hi, Option.some_or]
    | succ k => exact hs.last (by omega)
  · cases k with
    | zero => omega
    | succ k => exact hs.other (k + 1) (by omega)

theorem rolls {m b : Int} {r : Except IoError Unit} (hw : Tidy cfg w)
    (hk : cfg.kind = .rotating m b) (hc : c.Clean) (hs : w.stream = some h)
    (hr : (rollSize cfg c b).exec { w with managed := some h } = (r, w')) :
    r = .ok () ∧ Rolled cfg w { w' with stream := none } := by
  obtain ⟨f, hlive, hbuffer, hname⟩ := hw.inode hs
  have hheld := ((hw.held.managed (some h)).rollsOver hs (rollSize_rollsOver rfl hr)).1.dropped
  have hkept : cfg.kept = b.toNat := by rw [FileConfig.kept, hk]
  rw [rollSize, Prog.exec_bind, exec_closeManaged rfl] at hr
  dsimp only at hr
  have hcontent : (closedManaged h { w with managed := some h }).fs.content = w.fs.content :=
    close_content hlive hbuffer
  have hnames : (closedManaged h { w with managed := some h }).fs.names = w.fs.names :=
    FileSystem.close_names _ _
  by_cases hb : 0 < b
  · obtain ⟨u, hu, hshift⟩ := makeBackups_shifts cfg hc hb
      (w := closedManaged h { w with managed := some h }) (i := f.inode) (by rw [hnames, hname])
    have hmoves := makeBackups_renamed cfg c b (closedManaged h { w with managed := some h })
    rw [Prog.exec_bind, hu] at hr
    rw [hu] at hmoves
    obtain ⟨rfl, rfl⟩ := Prod.mk.inj hr
    rw [hnames] at hshift
    have hrest : u = _ := hmoves.rest
    refine ⟨rfl, ⟨hheld, ?_, ?_, fun _ => ⟨?_, hshift.active⟩, fun h0 => by omega⟩⟩
    · show u.fs.content = _
      rw [hrest]
      exact hcontent
    · show u.rollovers + 1 = _
      rw [hrest]
      rfl
    · have := slid_of_shifted hname hshift
      rwa [show (b - 1).toNat + 1 = cfg.kept by omega] at this
  · rw [makeBackups, if_neg hb, Prog.exec_bind, Prog.exec_pure] at hr
    obtain ⟨rfl, rfl⟩ := Prod.mk.inj hr
    exact ⟨rfl, ⟨hheld, hcontent, rfl, fun h0 => by omega, fun _ => hnames⟩⟩

/-- After a rollover the text goes to a file opened anew. -/
theorem Rolled.turn {u : FileWorld} (hw : Tidy cfg w) (hs : w.stream = some h)
    (hr : Rolled cfg w u) (hfull : Full cfg w c)
    (hp : Puts c u.fs.opened (FileBackend.opened cfg u) (.ok ()) w') :
    Tidy cfg w' ∧ w'.stream ≠ none ∧ Turn cfg c w (.ok ()) w' := by
  obtain ⟨f, -, -, hname⟩ := hw.inode hs
  obtain ⟨hw', hs', hnames, hrolled, htexts⟩ := (opened hr.held).puts rfl hp
  rw [opened_names hr.held] at hnames
  have hrollovers : w'.rollovers = w.rollovers + 1 := hrolled.trans hr.rollovers
  -- nothing of another name is touched
  have hother : ∀ q, q ≠ cfg.baseFilename → w'.fs.names q = u.fs.names q := fun q hq => by
    rw [hnames, Function.update_of_ne hq]
  have hrest : ∀ q, q ≠ cfg.baseFilename → w'.fs.texts q = u.fs.texts q := fun q hq => by
    rw [htexts q, if_neg hq, opened_texts hr.held, if_neg fun h => hq h.1]
  refine ⟨hw', by rw [hs']; simp, ?_⟩
  by_cases hkept : 0 < cfg.kept
  · obtain ⟨hslid, hgone⟩ := hr.slid hkept
    have hempty : u.fs.texts cfg.baseFilename = [] := by rw [FileSystem.texts, hgone]
    refine .rolls hfull hkept ⟨fun k hk => ?_, fun k hk => ?_, fun k hk => ?_⟩ ?_ (fun q hq => ?_)
      hrollovers
    · rw [hother _ (cfg.slot_ne_base (by omega)), hslid.next k hk]
    · rw [hother _ (cfg.slot_ne_base (by omega)), hslid.last k hk]
    · rw [hother _ (cfg.slot_ne_base (by omega)), hslid.other k hk]
    · rw [htexts, if_pos rfl, opened_texts hr.held, hempty, ite_self, List.nil_append]
    · rw [hrest q hq]
      exact FileSystem.texts_congr (hother q hq).symm hr.content
  · have h0 : cfg.kept = 0 := by omega
    have hsame := hr.same h0
    have htexts₀ : ∀ q, u.fs.texts q = w.fs.texts q := fun q =>
      FileSystem.texts_congr (by rw [hsame]) hr.content
    refine .restarts hfull h0 ?_ (fun q => ?_) hrollovers
    · rw [hnames, FileSystem.openInode, hsame, hname]
      exact Function.update_eq_self_iff.mpr hname.symm
    · rw [htexts q]
      split
      · rw [opened_texts hr.held, htexts₀]
        simp
      · rename_i hq
        rw [opened_texts hr.held, if_neg fun h => hq h.1, htexts₀]

end Tidy

namespace FileBackend

variable {cfg : FileConfig} {c : WriteCall} {w w' v : FileWorld} {h : Nat}

/-- **What a clean call does.** -/
theorem writeRecord_turn (hw : Tidy cfg w) (hk : cfg.Numbered) (hc : c.Clean)
    {r : Except IoError Unit} (hr : (writeRecord cfg c).exec w = (r, w')) :
    Tidy cfg w' ∧ (r = .ok () → w'.stream ≠ none) ∧ Turn cfg c (readied cfg w) r w' := by
  have hready := hw.readied
  rcases hk with hk | ⟨m, b, hk⟩
  · rw [show writeRecord cfg c = writePlain cfg c by rw [writeRecord, hk]] at hr
    rcases Prog.bind_cases hr with ⟨h, w₁, h₁, h₂⟩ | ⟨e, h₁, rfl⟩
    · obtain ⟨rfl, hs⟩ := Tidy.opens (openStream_opens h₁)
      cases r with
      | error e => exact absurd ((writeText_puts h₂).stale hc hs) hready.not_stale
      | ok =>
        obtain ⟨hw', hs', hnames, hrolled, htexts⟩ := hready.puts hs (writeText_puts h₂)
        refine ⟨hw', fun _ => by rw [hs']; simp, .stays ?_ hnames htexts hrolled⟩
        rintro ⟨m, b, -, hk', -⟩
        rw [hk] at hk'
        exact absurd hk' (by simp)
    · exact ((openStream_opens h₁).not_error (hc _)).elim
  · rw [show writeRecord cfg c = writeRotating cfg c m b by rw [writeRecord, hk]] at hr
    cases writeRolling_rolling hr with
    | unopened opens => exact (opens.not_error (hc _)).elim
    | undecided opens decide =>
      obtain ⟨rfl, hs⟩ := Tidy.opens opens
      obtain ⟨rfl, ⟨-, hr⟩ | ⟨he, -⟩ | ⟨he, -⟩⟩ := hready.decides hk hc hs decide
      · exact ⟨hready.managed _, by simp, .refused hr rfl rfl⟩
      · exact absurd he (by simp)
      · exact absurd he (by simp)
    | stays opens decide puts =>
      obtain ⟨rfl, hs⟩ := Tidy.opens opens
      obtain ⟨rfl, ⟨⟨e, he⟩, -⟩ | ⟨-, hfits⟩ | ⟨he, -⟩⟩ := hready.decides hk hc hs decide
      · exact absurd he (by simp)
      · cases r with
        | error e => exact absurd (puts.stale hc hs) (hready.managed _).not_stale
        | ok =>
          obtain ⟨hw', hs', hnames, hrolled, htexts⟩ := (hready.managed (some _)).puts hs puts
          exact ⟨hw', fun _ => by rw [hs']; simp, .stays hfits hnames htexts hrolled⟩
      · exact absurd he (by simp)
    | unrolled opens decide rolled =>
      obtain ⟨rfl, hs⟩ := Tidy.opens opens
      obtain ⟨rfl, -⟩ := hready.decides hk hc hs decide
      exact absurd (hready.rolls hk hc hs rolled).1 (by simp)
    | unreopened _ _ _ reopens => exact (reopens.not_error (hc _)).elim
    | rolls opens decide rolled reopens puts =>
      obtain ⟨rfl, hs⟩ := Tidy.opens opens
      obtain ⟨rfl, ⟨⟨e, he⟩, -⟩ | ⟨he, -⟩ | ⟨-, hfull⟩⟩ := hready.decides hk hc hs decide
      · exact absurd he (by simp)
      · exact absurd he (by simp)
      · obtain ⟨-, hrolls⟩ := hready.rolls hk hc hs rolled
        cases reopens with
        | has stream => exact absurd stream (by simp)
        | opens stream _ =>
          cases r with
          | error e => exact absurd (puts.stale hc rfl) (Tidy.opened hrolls.held).not_stale
          | ok =>
            obtain ⟨hw', hs', hturn⟩ := hrolls.turn hready hs hfull puts
            exact ⟨hw', fun _ => hs', hturn⟩

end FileBackend

-- ---------------------------------------------------------------------------
-- Runs
-- ---------------------------------------------------------------------------

namespace FileRun

open FileBackend

variable {cfg : FileConfig} {s t : FileRun}

/-- Nothing has happened to the files. -/
structure Idles (cfg : FileConfig) (s t : FileRun) : Prop where
  written : t.written = s.written
  rollovers : t.world.rollovers = s.world.rollovers
  names : t.world.fs.names = s.world.fs.names
  texts : t.world.fs.texts = s.world.fs.texts

theorem tidy_init (h : Init cfg s) : Tidy cfg s.world := by
  refine ⟨(held_init h).1, fun h hs => ?_⟩
  obtain ⟨fs, at₀, -, -, rfl⟩ := ‹Init cfg s›
  exact absurd hs (by simp)

/-- What a step of a run without trouble does. -/
theorem step_turns {a : Act} (hw : Tidy cfg s.world) (hk : cfg.Numbered) (ha : a.Untroubled cfg)
    (h : FileRun.step cfg s a = some t) :
    Tidy cfg t.world ∧ (Idles cfg s t ∨ ∃ c r w', a = .write c ∧
      (writeRecord cfg c).exec s.world = (r, w') ∧ Turn cfg c (readied cfg s.world) r w' ∧
      (r = .ok () → w'.stream ≠ none) ∧ t = s.afterWrite c (r, w')) := by
  obtain ⟨hund, hclean⟩ := ha
  cases a with
  | write c =>
    obtain rfl := Option.some.inj h
    obtain ⟨hw', hs', hturn⟩ := writeRecord_turn hw hk (hclean c rfl) rfl
    rw [afterWrite_world]
    exact ⟨hw', .inr ⟨c, _, _, rfl, rfl, hturn, hs', rfl⟩⟩
  | close =>
    obtain rfl := Option.some.inj h
    refine ⟨hw.close, .inl ?_⟩
    unfold closeStream
    split
    · rename_i k hs
      obtain ⟨f, hlive, hbuffer⟩ := hw.live k hs
      have hcontent := Tidy.close_content hlive hbuffer
      exact ⟨rfl, rfl, FileSystem.close_names _ _, funext fun q =>
        FileSystem.texts_congr (by rw [FileSystem.close_names]) hcontent⟩
    · exact ⟨rfl, rfl, rfl, rfl⟩
  | chdir dir =>
    obtain rfl := Option.some.inj h
    obtain ⟨⟨hsound, hheld, hmeant, hhere⟩, hlive⟩ := hw
    exact ⟨⟨⟨hsound, hheld, hmeant, (resolve_absolute hund _ _).trans hhere⟩, hlive⟩,
      .inl ⟨rfl, rfl, rfl, rfl⟩⟩
  | external e => exact hund.elim

/-- The file of the stream, for a world with nothing gone wrong. -/
theorem streamInode_eq {w : FileWorld} (hw : Tidy cfg w) (hs : w.stream ≠ none) :
    streamInode w = w.fs.names cfg.baseFilename := by
  obtain ⟨h, hh⟩ := Option.ne_none_iff_exists'.mp hs
  obtain ⟨f, hlive, -, hname⟩ := hw.inode hh
  rw [streamInode, hh, Option.bind_some, (FileSystem.live_eq_some.mp hlive).1, hname]
  rfl

end FileRun

end ScietexLogging
