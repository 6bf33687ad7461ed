import ScietexLogging.File.Healing

/-!
# File — the watched backend and the numbers of files

`reopenIfNeeded` knows a file by its device and inode number, and the number of a
file that is gone may be given to another one. `writeWatchedBy number` is
`_write_record` with that comparison; by the identity it is `writeWatched`.

* `InStep`           — between two calls: a stream is live, with nothing in its
                       buffer, and its number is the one remembered;
* `follows_the_path` — every text goes to the file the path names when its call
                       starts, once, and to no other.

What carries it: `_open_stream` opens the path in the very call that asks the watcher,
so a number left from an earlier stream is compared with the file just opened only,
and the number of a live stream belongs to no other file.
-/

namespace ScietexLogging

open Asyncio Posix

namespace FileBackend

variable (number : Nat → Nat) (cfg : FileConfig) (c : WriteCall)

/-- `reopenIfNeeded` -/
def reopenIfNeededBy : FileM Unit := do
  let w ← get
  match w.managed with
  | none => pure ()
  | some h => do
    let sres ← onSystem (c.goes .stat) .osError fun fs =>
      some ((fs.names cfg.baseFilename).map number, fs)
    if sres = none ∨ sres ≠ w.ino then do
      onSystem (c.goes .flushOld) .valueError fun fs => (fs.flush h).map ((), ·)
      closeManaged
      let h ← openPath (c.goes .openNew) cfg.openMode cfg.baseFilename
      setManaged (some h)
      let i ← onSystem (c.goes .fstat) .valueError fun fs => (fs.inodeOf h).map (number ·, fs)
      modify fun w => { w with ino := some i }
    else pure ()

/-- `WatchedFileBackend._write_record` -/
def writeWatchedBy : FileM Unit := do
  let stream ← openStream cfg (c.goes .open)
  setManaged (some stream)
  reopenIfNeededBy number cfg c
  let w ← get
  setStream w.managed
  let stream ← openStream cfg (c.goes .reopen)
  writeText c stream

end FileBackend

-- ---------------------------------------------------------------------------
-- Runs
-- ---------------------------------------------------------------------------

namespace WatchedRun

open FileBackend FileRun

variable (number : Nat → Nat) (cfg : FileConfig)

/-- The steps of `FileRun`, with the watcher's numbers. -/
def step (s : FileRun) : Act → Option FileRun
  | .write c => some (s.afterWrite c ((writeWatchedBy number cfg c).exec s.world))
  | .close => FileRun.step cfg s .close
  | .chdir dir => FileRun.step cfg s (.chdir dir)
  | .external e => FileRun.step cfg s (.external e)

def machine : Machine FileRun Act where
  init := Init cfg
  step := step number cfg

/-- While a stream of a file is open, no other file has its number. -/
def Distinct (fs : FileSystem AbsPath) : Prop :=
  ∀ h f p j, fs.live h = some f → fs.names p = some j → number j = number f.inode → j = f.inode

/-- The system lets every operation of a write go through. -/
def Goes : Act → Prop
  | .write c => ∀ op, c.goes op = true
  | _ => True

/-- What the runs are taken over: no failures, and no number given twice. -/
def Sane (s : FileRun) (a : Act) : Prop := Goes a ∧ Distinct number s.world.fs

/-- The texts of the returned calls that went to the file `i`, in their order. -/
def textsTo (i : Nat) (written : List Written) : List String :=
  (written.filter fun x => x.inode = some i).map Written.text

/-- Between two calls. -/
structure InStep (w : FileWorld) : Prop where
  sound : w.fs.Sound
  live : ∀ h, w.stream = some h → ∃ f, w.fs.live h = some f ∧ f.buffer = [] ∧
    w.ino = some (number f.inode)

variable {number : Nat → Nat} {cfg : FileConfig} {c : WriteCall} {w : FileWorld} {s : FileRun}

-- ---------------------------------------------------------------------------
-- One call
-- ---------------------------------------------------------------------------

/-- The call has a live stream with nothing in its buffer, and has written nothing;
`i` is the file the path named when it started. -/
structure Ready (cfg : FileConfig) (w₀ : FileWorld) (i h : Nat) (f : OpenFile AbsPath)
    (w : FileWorld) : Prop where
  sound : w.fs.Sound
  stream : w.stream = some h
  live : w.fs.live h = some f
  empty : f.buffer = []
  content : w.fs.content = w₀.fs.content
  target : w.fs.openInode cfg.baseFilename = i
  names : Function.update w.fs.names cfg.baseFilename (some i) =
    Function.update w₀.fs.names cfg.baseFilename (some i)

/-- The first `_open_stream`. The number the watcher remembers can only be that of the
path if the stream is that of the path. -/
theorem openStream_ready (hs : InStep number w) (hd : Distinct number w.fs)
    (hgo : c.goes .open = true) (ha : cfg.openMode = .append)
    (hp : cfg.filename.resolve w.cwd = cfg.baseFilename) :
    ∃ h f w', (openStream cfg (c.goes .open)).exec w = (.ok h, w') ∧
      Ready cfg w (w.fs.openInode cfg.baseFilename) h f w' ∧
      ((w'.fs.names cfg.baseFilename).map number ≠ none →
        (w'.fs.names cfg.baseFilename).map number = w'.ino →
        w'.fs.names cfg.baseFilename = some f.inode ∧ w'.ino = some (number f.inode)) := by
  rcases hw : (openStream cfg (c.goes .open)).exec w with ⟨r, w'⟩
  cases openStream_opens hw with
  | has hstream =>
    rename_i h
    obtain ⟨f, hlive, hempty, hino⟩ := hs.live h hstream
    refine ⟨h, f, w, rfl, ⟨hs.sound, hstream, hlive, hempty, rfl, rfl, rfl⟩, fun hnone hsame => ?_⟩
    refine ⟨?_, hino⟩
    cases hj : w.fs.names cfg.baseFilename with
    | none => exact absurd (by rw [hj]; rfl) hnone
    | some j =>
      rw [hj, hino] at hsame
      rw [hd h f _ j hlive hj (Option.some.inj hsame)]
  | opens _ _ =>
    have hnames : (opened cfg w).fs.names cfg.baseFilename =
        some (w.fs.openInode cfg.baseFilename) := by
      show (w.fs.openFile cfg.openMode (cfg.filename.resolve w.cwd)).names _ = _
      rw [hp]
      exact FileSystem.openFile_names ..
    refine ⟨w.fs.opened, _, opened cfg w, rfl,
      ⟨hs.sound.openFile _ _, rfl, FileSystem.live_openFile .., rfl, ?_, ?_, ?_⟩, fun _ hsame => ?_⟩
    · show (w.fs.openFile cfg.openMode _).content = _
      rw [ha]
      rfl
    · rw [FileSystem.openInode, hnames]
      rfl
    · show Function.update (w.fs.openFile cfg.openMode (cfg.filename.resolve w.cwd)).names _ _ = _
      rw [hp]
      exact Function.update_idem ..
    · rw [hp]
      exact ⟨hnames, by rw [← hsame, hnames]; rfl⟩
  | fails _ hfail => exact absurd (hgo.symm.trans hfail) (by simp)

/-- The watcher holds a stream of `i`, and remembers its number. -/
structure Aimed (number : Nat → Nat) (cfg : FileConfig) (w₀ : FileWorld) (i h : Nat)
    (f : OpenFile AbsPath) (w : FileWorld) : Prop where
  sound : w.fs.Sound
  managed : w.managed = some h
  live : w.fs.live h = some f
  empty : f.buffer = []
  inode : f.inode = i
  content : w.fs.content = w₀.fs.content
  names : w.fs.names = Function.update w₀.fs.names cfg.baseFilename (some i)
  ino : w.ino = some (number i)

theorem exec_onSystem_ok {α : Type} {goes : Bool} {e : IoError}
    {op : FileSystem AbsPath → Option (α × FileSystem AbsPath)} {a : α} {fs : FileSystem AbsPath}
    (hgo : goes = true) (ho : op w.fs = some (a, fs)) :
    (onSystem goes e op).exec w = (.ok a, { w with fs := fs }) := by
  rw [exec_onSystem, hgo, if_pos rfl, ho]

/-- A stream with an empty buffer is closed and the path is opened anew. -/
theorem reopened_aimed {w₀ : FileWorld} {i h : Nat} {f : OpenFile AbsPath}
    (hr : Ready cfg w₀ i h f w) (ha : cfg.openMode = .append) :
    Aimed number cfg w₀ i (w.fs.close h).opened
      ⟨cfg.baseFilename, i, [], false⟩
      { adopted cfg (closedManaged h w) with ino := some (number i) } := by
  have htarget : (w.fs.close h).openInode cfg.baseFilename = i := by
    rw [FileSystem.openInode, FileSystem.close_names]
    have : (w.fs.close h).inodes = w.fs.inodes := by
      rw [FileSystem.close, hr.live]
      rfl
    rw [this]
    exact hr.target
  refine ⟨(hr.sound.close h).openFile _ _, rfl, ?_, rfl, rfl, ?_, ?_, rfl⟩
  · show ((w.fs.close h).openFile cfg.openMode cfg.baseFilename).live (w.fs.close h).opened = _
    rw [FileSystem.live_openFile, htarget]
  · show ((w.fs.close h).openFile cfg.openMode cfg.baseFilename).content = _
    rw [ha]
    show (w.fs.close h).content = _
    rw [FileSystem.close, hr.live]
    exact (FileSystem.content_sync_of_empty hr.empty h true).trans hr.content
  · show Function.update (w.fs.close h).names cfg.baseFilename
      (some ((w.fs.close h).openInode cfg.baseFilename)) = _
    rw [htarget, FileSystem.close_names]
    exact hr.names

theorem reopenIfNeededBy_aimed {w₀ : FileWorld} {i h : Nat} {f : OpenFile AbsPath}
    (hr : Ready cfg w₀ i h f w) (hm : w.managed = some h) (hgo : ∀ op, c.goes op = true)
    (ha : cfg.openMode = .append)
    (hsame : (w.fs.names cfg.baseFilename).map number ≠ none →
      (w.fs.names cfg.baseFilename).map number = w.ino →
      w.fs.names cfg.baseFilename = some f.inode ∧ w.ino = some (number f.inode)) :
    ∃ h' f' w', (reopenIfNeededBy number cfg c).exec w = (.ok (), w') ∧
      Aimed number cfg w₀ i h' f' w' := by
  have hstat : (onSystem (c.goes .stat) .osError fun fs : FileSystem AbsPath =>
      some ((fs.names cfg.baseFilename).map number, fs)).exec w =
      (.ok ((w.fs.names cfg.baseFilename).map number), w) := exec_onSystem_ok (hgo _) rfl
  rw [reopenIfNeededBy, Prog.exec_bind, Prog.exec_get]
  simp only [hm]
  rw [Prog.exec_bind_ok hstat]
  by_cases hmoved : (w.fs.names cfg.baseFilename).map number = none ∨
      (w.fs.names cfg.baseFilename).map number ≠ w.ino
  · -- the stream is flushed, which does nothing, and replaced
    have hflush : (onSystem (c.goes .flushOld) .valueError fun fs : FileSystem AbsPath =>
        (fs.flush h).map ((), ·)).exec w = (.ok (), w) := by
      refine exec_onSystem_ok (hgo _) ?_
      rw [FileSystem.flush, hr.live]
      show some ((), w.fs.sync h f false) = _
      rw [FileSystem.sync_eq_self hr.live hr.empty]
    have hopen : (openPath (c.goes .openNew) cfg.openMode cfg.baseFilename).exec
        (closedManaged h w) = (.ok (w.fs.close h).opened, { closedManaged h w with
          fs := (w.fs.close h).openFile cfg.openMode cfg.baseFilename }) :=
      exec_onSystem_ok (hgo _) rfl
    have haimed : Aimed number cfg w₀ i (w.fs.close h).opened _
        { adopted cfg (closedManaged h w) with ino := some (number i) } := reopened_aimed hr ha
    have hfstat : (onSystem (c.goes .fstat) .valueError fun fs : FileSystem AbsPath =>
        (fs.inodeOf (w.fs.close h).opened).map (number ·, fs)).exec
          (adopted cfg (closedManaged h w)) = (.ok (number i), adopted cfg (closedManaged h w)) := by
      refine exec_onSystem_ok (hgo _) ?_
      rw [FileSystem.inodeOf, show (adopted cfg (closedManaged h w)).fs.live _ = _ from haimed.live]
      rfl
    refine ⟨_, _, _, ?_, haimed⟩
    rw [if_pos hmoved, Prog.exec_bind_ok hflush, Prog.exec_bind_ok (exec_closeManaged hm),
      Prog.exec_bind_ok hopen, Prog.exec_bind_ok (exec_setManaged _ _)]
    exact (Prog.exec_bind_ok hfstat).trans (Prog.exec_modify _ _)
  · rw [if_neg hmoved]
    rw [not_or, not_not] at hmoved
    obtain ⟨hnames, hino⟩ := hsame hmoved.1 hmoved.2
    have hi : f.inode = i := by
      rw [← hr.target, FileSystem.openInode, hnames]
      rfl
    refine ⟨h, f, w, rfl, hr.sound, hm, hr.live, hr.empty, hi, hr.content, ?_, by rw [hino, hi]⟩
    rw [← hr.names, ← hi, ← hnames, Function.update_eq_self]

/-- What a call that returned did: its text is in the file `i`, nothing else is in any
file, and nothing else has the path's name. -/
structure Appended (number : Nat → Nat) (cfg : FileConfig) (c : WriteCall) (i : Nat)
    (w w' : FileWorld) : Prop where
  content : w'.fs.content = Function.update w.fs.content i (w.fs.content i ++ [c.text])
  names : w'.fs.names = Function.update w.fs.names cfg.baseFilename (some i)
  inode : streamInode w' = some i
  ino : w'.ino = some (number i)

/-- **One call.** -/
theorem writeWatchedBy_appended (hs : InStep number w) (hd : Distinct number w.fs)
    (hgo : ∀ op, c.goes op = true) (ha : cfg.openMode = .append)
    (hp : cfg.filename.resolve w.cwd = cfg.baseFilename) :
    ∃ w', (writeWatchedBy number cfg c).exec w = (.ok (), w') ∧ InStep number w' ∧
      Appended number cfg c (w.fs.openInode cfg.baseFilename) w w' := by
  obtain ⟨h₁, f₁, w₁, hopen, hready, hsame⟩ := openStream_ready hs hd (hgo _) ha hp
  have hready' : Ready cfg w (w.fs.openInode cfg.baseFilename) h₁ f₁
      { w₁ with managed := some h₁ } :=
    ⟨hready.sound, hready.stream, hready.live, hready.empty, hready.content, hready.target,
      hready.names⟩
  obtain ⟨h₂, f₂, w₂, hreopen, haimed⟩ := reopenIfNeededBy_aimed hready' rfl hgo ha hsame
  have hagain : (openStream cfg (c.goes .reopen)).exec { w₂ with stream := w₂.managed } =
      (.ok h₂, { w₂ with stream := w₂.managed }) := by
    rcases hw : (openStream cfg (c.goes .reopen)).exec { w₂ with stream := w₂.managed } with ⟨r, w₃⟩
    cases openStream_opens hw with
    | has hstream => rw [Option.some.inj (hstream.symm.trans haimed.managed)]
    | opens hnone _ => exact absurd (hnone.symm.trans haimed.managed) (by simp)
    | fails hnone _ => exact absurd (hnone.symm.trans haimed.managed) (by simp)
  rcases hw : (writeText c h₂).exec { w₂ with stream := w₂.managed } with ⟨r, w₃⟩
  have hall : (writeWatchedBy number cfg c).exec w = (r, w₃) := by
    rw [writeWatchedBy, Prog.exec_bind_ok hopen, Prog.exec_bind_ok (exec_setManaged _ _),
      Prog.exec_bind_ok hreopen, Prog.exec_bind_ok (Prog.exec_get _),
      Prog.exec_bind_ok (exec_setStream _ _), Prog.exec_bind_ok hagain]
    exact hw
  rw [hall]
  cases writeText_puts hw with
  | refused why =>
    rcases why with hno | hdead
    · exact absurd ((hgo _).symm.trans hno) (by simp)
    · exact absurd (hdead.symm.trans haimed.live) (by simp)
  | unflushed _ _ hno => exact absurd ((hgo _).symm.trans hno) (by simp)
  | done hlive _ _ =>
    obtain rfl := Option.some.inj (haimed.live.symm.trans hlive)
    have hsound := haimed.sound.sync (FileSystem.live_eq_some.mp haimed.live).1
      (g := { f₂ with buffer := f₂.buffer ++ [c.text] }) rfl false
    refine ⟨_, rfl, ⟨hsound, fun k hk => ?_⟩, ?_, haimed.names, ?_, haimed.ino⟩
    · obtain rfl := Option.some.inj (hk.symm.trans haimed.managed)
      exact ⟨_, FileSystem.live_sync _, rfl, by rw [haimed.ino, haimed.inode]⟩
    · show Function.update w₂.fs.content f₂.inode (w₂.fs.content f₂.inode ++ (f₂.buffer ++ [c.text]))
        = _
      rw [haimed.content, haimed.inode, haimed.empty]
      rfl
    · show ((w₂.managed).bind (Function.update w₂.fs.file h₂ _)).map OpenFile.inode = _
      rw [haimed.managed]
      show (Function.update w₂.fs.file h₂ _ h₂).map OpenFile.inode = _
      rw [Function.update_self]
      exact congrArg some haimed.inode

-- ---------------------------------------------------------------------------
-- The whole run
-- ---------------------------------------------------------------------------

theorem openMode_watched (hk : cfg.kind = .watched) (hm : cfg.mode = .append) :
    cfg.openMode = .append := by
  rw [FileConfig.openMode, hk]
  exact hm

/-- An absolute name leads to the same file from everywhere. -/
theorem resolve_absolute (ha : cfg.filename.absolute = true) (cwd : List String) :
    cfg.filename.resolve cwd = cfg.baseFilename := by
  rw [FileConfig.baseFilename, Filename.resolve, Filename.resolve, ha]
  rfl

theorem textsTo_append (i : Nat) (ws : List Written) (x : Written) :
    textsTo i (ws ++ [x]) = textsTo i ws ++ if x.inode = some i then [x.text] else [] := by
  unfold textsTo
  by_cases hx : x.inode = some i
  · simp [hx]
  · simp [hx]

/-- The worker ends: there is nothing to flush. -/
theorem InStep.close (hs : InStep number w) :
    InStep number (closeStream w) ∧ (closeStream w).fs.content = w.fs.content := by
  unfold closeStream
  cases hw : w.stream with
  | none => exact ⟨hs, rfl⟩
  | some h =>
    obtain ⟨f, hlive, hempty, -⟩ := hs.live h hw
    refine ⟨⟨hs.sound.close h, fun k hk => absurd hk (by simp)⟩, ?_⟩
    show (w.fs.close h).content = _
    rw [FileSystem.close, hlive]
    exact FileSystem.content_sync_of_empty hempty h true

/-- Others change names only. -/
theorem external_keeps {fs fs' : FileSystem AbsPath} {e : External} (hs : fs.Sound)
    (he : e.apply fs = some fs') : fs'.Sound ∧ fs'.file = fs.file ∧ fs'.content = fs.content := by
  cases e with
  | rename src dst =>
    refine ⟨hs.rename he, ?_⟩
    obtain ⟨i, -, rfl⟩ := Option.map_eq_some_iff.mp he
    exact ⟨rfl, rfl⟩
  | remove p =>
    refine ⟨hs.remove he, ?_⟩
    obtain ⟨i, -, rfl⟩ := Option.map_eq_some_iff.mp he
    exact ⟨rfl, rfl⟩
  | create p =>
    obtain rfl := Option.some.inj he
    exact ⟨(hs.create p).1, rfl, rfl⟩

theorem InStep.external {fs : FileSystem AbsPath} {e : External} (hs : InStep number w)
    (he : e.apply w.fs = some fs) : InStep number { w with fs := fs } := by
  obtain ⟨hsound, hfile, -⟩ := external_keeps hs.sound he
  refine ⟨hsound, fun h hh => ?_⟩
  obtain ⟨f, hlive, hrest⟩ := hs.live h hh
  exact ⟨f, (FileSystem.live_congr (congrFun hfile h)).trans hlive, hrest⟩

/-- The step of a call that the system lets through. -/
theorem step_write (hs : InStep number s.world) (hsane : Sane number s (.write c))
    (ha : cfg.openMode = .append) (hp : ∀ cwd, cfg.filename.resolve cwd = cfg.baseFilename) :
    ∃ t rollovers, step number cfg s (.write c) = some t ∧ InStep number t.world ∧
      t.written = s.written ++
        [⟨c.text, rollovers, some (s.world.fs.openInode cfg.baseFilename)⟩] ∧
      Appended number cfg c (s.world.fs.openInode cfg.baseFilename) s.world t.world := by
  obtain ⟨w', hexec, hs', happ⟩ := writeWatchedBy_appended hs hsane.2 hsane.1 ha (hp _)
  refine ⟨_, w'.rollovers, congrArg some (congrArg (s.afterWrite c) hexec), hs', ?_, happ⟩
  show s.written ++ [_] = _
  rw [happ.inode]

theorem kept_by_step {t : FileRun} {a : Act} {old : Nat → List String}
    (ha : cfg.openMode = .append) (hp : ∀ cwd, cfg.filename.resolve cwd = cfg.baseFilename)
    (hs : InStep number s.world ∧ ∀ i, s.world.fs.content i = old i ++ textsTo i s.written)
    (hsane : Sane number s a) (hstep : step number cfg s a = some t) :
    InStep number t.world ∧ ∀ i, t.world.fs.content i = old i ++ textsTo i t.written := by
  obtain ⟨hin, hcontent⟩ := hs
  cases a with
  | write c =>
    obtain ⟨u, rollovers, hu, hin', hwritten, happ⟩ := step_write hin hsane ha hp
    obtain rfl := Option.some.inj (hu.symm.trans hstep)
    refine ⟨hin', fun i => ?_⟩
    rw [happ.content, hwritten, textsTo_append]
    by_cases hi : i = s.world.fs.openInode cfg.baseFilename
    · rw [hi, Function.update_self, if_pos rfl, hcontent, List.append_assoc]
    · rw [Function.update_of_ne hi, if_neg (fun h => hi (Option.some.inj h).symm), List.append_nil,
        hcontent]
  | close =>
    obtain rfl := Option.some.inj hstep
    exact ⟨hin.close.1, fun i => by rw [← hcontent i, ← hin.close.2]⟩
  | chdir dir =>
    obtain rfl := Option.some.inj hstep
    exact ⟨⟨hin.sound, hin.live⟩, hcontent⟩
  | external e =>
    obtain ⟨fs, he, rfl⟩ := Option.map_eq_some_iff.mp hstep
    exact ⟨hin.external he, fun i => by rw [← hcontent i, ← (external_keeps hin.sound he).2.2]⟩

/-- **The watched backend follows its path.** In every run without failures each file
holds what it held at first and the texts of the calls that found the path to be its,
once each; and the next call appends to the file the path names when it starts, or to
a new one of that name, and leaves the watcher with the number of its stream. -/
theorem follows_the_path (hk : cfg.kind = .watched) (hm : cfg.mode = .append)
    (habs : cfg.filename.absolute = true) {s₀ : FileRun} (h₀ : Init cfg s₀)
    (h : (machine number cfg).Reaches (Sane number) s₀ s) :
    (∀ i, s.world.fs.content i = s₀.world.fs.content i ++ textsTo i s.written) ∧
    ∀ c, Sane number s (.write c) → ∃ t rollovers, step number cfg s (.write c) = some t ∧
      t.written = s.written ++
        [⟨c.text, rollovers, some (s.world.fs.openInode cfg.baseFilename)⟩] ∧
      Appended number cfg c (s.world.fs.openInode cfg.baseFilename) s.world t.world := by
  have ha := openMode_watched hk hm
  have hp : ∀ cwd, cfg.filename.resolve cwd = cfg.baseFilename := resolve_absolute habs
  have hinv : InStep number s.world ∧
      ∀ i, s.world.fs.content i = s₀.world.fs.content i ++ textsTo i s.written := by
    induction h with
    | refl =>
      obtain ⟨fs, at₀, hsound, -, rfl⟩ := h₀
      exact ⟨⟨hsound, fun h hh => absurd hh (by simp)⟩, fun i => (List.append_nil _).symm⟩
    | tail _ hsane hstep ih => exact kept_by_step ha hp ih hsane hstep
  refine ⟨hinv.2, fun c hsane => ?_⟩
  obtain ⟨t, rollovers, hstep, -, hwritten, happ⟩ := step_write hinv.1 hsane ha hp
  exact ⟨t, rollovers, hstep, hwritten, happ⟩

/-- An absolute path under a watcher. -/
def watchedLog : FileConfig := ⟨.watched, ⟨true, [.down "var"], "app.log"⟩, .append, []⟩

def watchedLine (text : String) : WriteCall := ⟨text, plainRecord text, 0, fun _ => true⟩

/-- A first record, on a system that gives every file the number 7. -/
def firstWritten : FileRun :=
  (step (fun _ => 7) watchedLog empty (.write (watchedLine "up\n"))).getD empty

/-- The worker has ended and the file is deleted. -/
def firstDeleted : FileRun :=
  ((step (fun _ => 7) watchedLog firstWritten .close).bind fun s =>
    step (fun _ => 7) watchedLog s (.external (.remove watchedLog.baseFilename))).getD empty

theorem firstDeleted_reached :
    (machine (fun _ => 7) watchedLog).Reaches (Sane fun _ => 7) empty firstDeleted := by
  have hnone : ∀ fs : FileSystem AbsPath, (∀ h, fs.live h = none) → Distinct (fun _ => 7) fs :=
    fun fs hdead h f p j hf => absurd hf (by rw [hdead h]; simp)
  have h₁ : (machine (fun _ => 7) watchedLog).Reaches (Sane fun _ => 7) empty firstWritten :=
    .tail (a := Act.write (watchedLine "up\n")) (.refl _) ⟨fun _ => rfl, hnone _ fun _ => rfl⟩ rfl
  have h₂ : (machine (fun _ => 7) watchedLog).Reaches (Sane fun _ => 7) empty
      { firstWritten with world := closeStream firstWritten.world } := by
    refine .tail (a := Act.close) h₁ ⟨trivial, fun h f p j hf hj _ => ?_⟩ rfl
    have hj₀ : j = 0 := by
      by_cases hp : p = watchedLog.baseFilename
      · subst hp
        exact (Option.some.inj hj).symm
      · have hother : firstWritten.world.fs.names p = none :=
          (Function.update_of_ne hp _ _).trans (Function.update_of_ne hp _ _)
        exact absurd (hother.symm.trans hj) (by simp)
    rcases h with _ | _ | h
    · cases hf
    · cases hf
      exact hj₀
    · cases hf
  refine .tail (a := Act.external (.remove watchedLog.baseFilename)) h₂
    ⟨trivial, hnone _ fun h => ?_⟩ rfl
  rcases h with _ | _ | h
  · rfl
  · rfl
  · rfl

/-- The file of the next cycle has the number the watcher remembers. -/
theorem follows_the_path_reused :
    ∃ t, step (fun _ => 7) watchedLog firstDeleted (.write (watchedLine "again\n")) = some t ∧
      firstDeleted.world.ino = some 7 ∧ t.world.fs.content 1 = ["again\n"] ∧
      t.world.ino = some 7 := by
  have hdead : ∀ h, firstDeleted.world.fs.live h = none := by
    intro h
    rcases h with _ | _ | h
    · rfl
    · rfl
    · rfl
  obtain ⟨t, _, hstep, -, happ⟩ := (follows_the_path rfl rfl rfl (empty_init watchedLog rfl)
    firstDeleted_reached).2 (watchedLine "again\n")
      ⟨fun _ => rfl, fun h f p j hf => absurd hf (by rw [hdead h]; simp)⟩
  exact ⟨t, hstep, rfl, congrFun happ.content 1, happ.ino⟩

end WatchedRun

end ScietexLogging
