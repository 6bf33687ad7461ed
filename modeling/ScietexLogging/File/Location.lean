import ScietexLogging.File.Archive

/-!
# File — where the log file is

The rotator and the watcher made the path absolute when they were constructed;
`_open_stream` looks a relative path up from the working directory of the moment.

* `same_file` — they mean the same file in the runs that open while the name leads
  where it led; a call that opens elsewhere opens another file;
* `files_split` — one `chdir` and one rollover.
-/

namespace ScietexLogging

open Asyncio Posix

namespace FileBackend

variable {cfg : FileConfig} {c : WriteCall} {u v w w' : FileWorld} {h : Nat} {goes : Bool}
  {P : AbsPath → Prop}

/-- The call rolls over. -/
def Due (cfg : FileConfig) (w : FileWorld) (c : WriteCall) : Prop :=
  match cfg.kind with
  | .rotating maxBytes _ => SizeDue maxBytes w c
  | .timed _ => w.rolloverAt ≤ c.now
  | .plain | .watched => False

/-- The call opens the log file by `_open_stream`. -/
def OpensAgain (cfg : FileConfig) (w : FileWorld) (c : WriteCall) : Prop :=
  w.stream = none ∨ Due cfg w c

/-- The file name leads where it led when the backend was constructed. -/
def Leads (cfg : FileConfig) (w : FileWorld) : Prop :=
  cfg.filename.absolute = true ∨ cfg.filename.trunk w.cwd = cfg.filename.trunk cfg.builtIn

theorem leads_iff : Leads cfg w ↔ cfg.filename.resolve w.cwd = cfg.baseFilename :=
  (cfg.filename.resolve_eq_iff w.cwd cfg.builtIn).symm

/-- A part of a call, which opens files under names in `P` only. -/
structure Works (P : AbsPath → Prop) (w w' : FileWorld) : Prop where
  sound : w.fs.Sound → w'.fs.Sound
  opens : w.fs.Sound → w.fs.Extends P w'.fs
  cwd : w'.cwd = w.cwd

theorem Works.refl (w : FileWorld) : Works P w w := ⟨id, fun _ => .of_file rfl, rfl⟩

theorem Works.trans (h : Works P u v) (h' : Works P v w) : Works P u w :=
  ⟨fun hs => h'.sound (h.sound hs), fun hs => (h.opens hs).trans (h'.opens (h.sound hs)),
    h'.cwd.trans h.cwd⟩

theorem Works.openFile (mode : OpenMode) {p : AbsPath} (hp : P p) (stream managed : Option Nat) :
    Works P w { w with fs := w.fs.openFile mode p, stream := stream, managed := managed } :=
  ⟨fun hs => hs.openFile mode p, fun hs => .openFile hs mode hp, rfl⟩

theorem Works.sync {f : OpenFile AbsPath} (hl : w.fs.live h = some f) (text : List String) :
    Works P w { w with fs := w.fs.sync h { f with buffer := text } false } := by
  have hf := (FileSystem.live_eq_some.mp hl).1
  exact ⟨fun hs => hs.sync hf (g := { f with buffer := text }) rfl false, fun _ => .sync hf text false, rfl⟩

theorem Works.renamed (hr : Renamed w w') : Works P w w' := by
  refine ⟨hr.sound, fun _ => .of_file ?_, ?_⟩
  · rw [hr.rest]
  · rw [hr.rest]

theorem Works.closed (h : Nat) (w : FileWorld) : Works P w (closedManaged h w) :=
  ⟨fun hs => hs.close h, fun _ => .close w.fs h, rfl⟩

theorem Opens.works {r : Except IoError Nat} (ho : Opens cfg goes w r w')
    (hP : w.stream = none → P (cfg.filename.resolve w.cwd)) : Works P w w' := by
  cases ho with
  | has _ => exact .refl w
  | opens stream _ => exact .openFile cfg.openMode (hP stream) (some w.fs.opened) w.managed
  | fails _ _ => exact .refl w

theorem Puts.works {r : Except IoError Unit} (hp : Puts c h w r w') : Works P w w' := by
  cases hp with
  | refused _ => exact .refl w
  | @unflushed f live _ _ =>
    have hwrite : w.fs.write h c.text = some { w.fs with
        file := Function.update w.fs.file h (some { f with buffer := f.buffer ++ [c.text] }) } := by
      rw [FileSystem.write, live]
      rfl
    exact ⟨fun hs => hs.write hwrite,
      fun _ => .of_update (FileSystem.live_eq_some.mp live).1 rfl rfl rfl, rfl⟩
  | done live _ _ => exact .sync live _

theorem Decides.works {r : Except IoError Bool} (hd : Decides h w r w') : Works P w w' := by
  cases hd with
  | keeps _ => exact .refl w
  | raises _ => exact .refl w
  | @seeks f live _ => exact .sync live f.buffer

theorem Decides.stream {r : Except IoError Bool} (hd : Decides h w r w') :
    w'.stream = w.stream := by
  cases hd with
  | keeps _ => rfl
  | raises _ => rfl
  | seeks _ _ => rfl

theorem RollsOver.works {r : Except IoError Unit} (hr : RollsOver h w r w') : Works P w w' := by
  cases hr with
  | done renamed _ =>
    obtain ⟨hsound, hopens, hcwd⟩ := (Works.closed (P := P) h w).trans (.renamed renamed)
    exact ⟨hsound, hopens, hcwd⟩
  | fails renamed => exact (Works.closed h w).trans (.renamed renamed)

theorem Reopens.works {r : Except IoError Unit} (hr : Reopens cfg c h w r w')
    (hP : P cfg.baseFilename) : Works P w w' := by
  have hreleased : ∀ {f}, w.fs.live h = some f → Works P w (released h f w) :=
    fun live => (Works.sync live _).trans (Works.closed h _)
  have hadopted : ∀ {f}, w.fs.live h = some f → Works P w (adopted cfg (released h f w)) :=
    fun live => (hreleased live).trans (.openFile cfg.openMode hP _ _)
  cases hr with
  | unseen _ => exact .refl w
  | same _ _ => exact .refl w
  | unflushed _ _ => exact .refl w
  | unopened _ live _ => exact hreleased live
  | unknown _ live _ _ => exact hadopted live
  | reopens _ live _ _ =>
    obtain ⟨hsound, hopens, hcwd⟩ := hadopted live
    exact ⟨hsound, hopens, hcwd⟩

-- ---------------------------------------------------------------------------
-- Calls
-- ---------------------------------------------------------------------------

/-- Some file has been opened where the name leads now. -/
def OpenedAt (p : AbsPath) (w : FileWorld) : Prop := ∃ h f, w.fs.file h = some f ∧ f.path = p

theorem OpenedAt.works {p : AbsPath} (ho : OpenedAt p w) (hs : w.fs.Sound) (hw : Works P w w') :
    OpenedAt p w' := by
  obtain ⟨k, f, hf, hp⟩ := ho
  obtain ⟨f', hf', hpath, -⟩ := (hw.opens hs).kept k f hf
  exact ⟨k, f', hf', hpath.trans hp⟩

theorem Opens.openedAt (ho : Opens cfg goes w (.ok h) w') (hs : w.stream = none) :
    OpenedAt (cfg.filename.resolve w.cwd) w' := by
  cases ho with
  | has stream => exact absurd (hs.symm.trans stream) (by simp)
  | opens _ _ => exact ⟨_, _, (FileSystem.live_eq_some.mp (FileSystem.live_openFile ..)).1, rfl⟩

/-- The text went to a file that is open. -/
theorem Puts.filed (hp : Puts c h w (.ok ()) w') (hs : w.stream = some h) :
    ∃ f, w'.fs.file h = some f ∧ FileRun.streamInode w' = some f.inode := by
  cases hp with
  | @done f live _ _ =>
    refine ⟨_, Function.update_self .., ?_⟩
    show ((w.stream.bind (Function.update w.fs.file h _)).map OpenFile.inode) = _
    rw [hs, Option.bind_some, Function.update_self]
    rfl

/-- The names a call may open: the managed one, and where the file name leads. -/
def Opening (cfg : FileConfig) (w : FileWorld) (c : WriteCall) (p : AbsPath) : Prop :=
  p = cfg.baseFilename ∨ OpensAgain cfg w c ∧ p = cfg.filename.resolve w.cwd

/-- What the calls of all backends have in common. -/
structure Located (cfg : FileConfig) (c : WriteCall) (w : FileWorld) (r : Except IoError Unit)
    (w' : FileWorld) : Prop where
  works : Works (Opening cfg w c) w w'
  opened : r = .ok () → OpensAgain cfg w c → OpenedAt (cfg.filename.resolve w.cwd) w'
  filed : r = .ok () → ∃ h f, w'.fs.file h = some f ∧ FileRun.streamInode w' = some f.inode

theorem Located.of_error {e : IoError} (hw : Works (Opening cfg w c) w w') :
    Located cfg c w (.error e) w' := ⟨hw, fun h => absurd h (by simp), fun h => absurd h (by simp)⟩

/-- The rotator's answer is `Due`. -/
def Judges (cfg : FileConfig) (c : WriteCall) (should : FileM Bool) : Prop :=
  ∀ h w b w', w.stream = some h →
    should.exec { w with managed := some h } = (.ok b, w') → (b = true ↔ Due cfg w c)

theorem judges_size {m b : Int} (hk : cfg.kind = .rotating m b) :
    Judges cfg c (sizeReached c m) := by
  intro h w q w' hs hd
  rw [Due, hk]
  exact Sizes.due_iff hs (sizeReached_sizes rfl hd)

theorem judges_time {o : TimedOptions} (hk : cfg.kind = .timed o) :
    Judges cfg c (timeReached c) := by
  intro h w q w' hs hd
  rw [timeReached_eq] at hd
  rw [Due, hk, ← Except.ok.inj (Prod.mk.inj hd).1, decide_eq_true_eq]

theorem Rolling.located {should : FileM Bool} {roll : FileM Unit} {r : Except IoError Unit}
    (hrot : Rotator cfg c should roll) (hjudge : Judges cfg c should) (hs : w.fs.Sound)
    (hcall : Rolling cfg c should roll w r w') : Located cfg c w r w' := by
  have hopens : ∀ {q w₁}, Opens cfg (c.goes .open) w q w₁ → Works (Opening cfg w c) w w₁ :=
    fun opens => opens.works fun hnone => .inr ⟨.inl hnone, rfl⟩
  have hdecided : ∀ {h q w₁ w₂}, Opens cfg (c.goes .open) w (.ok h) w₁ →
      should.exec { w₁ with managed := some h } = (q, w₂) →
      Works (Opening cfg w c) w₁ w₂ ∧ w₂.stream = some h ∧ w₂.managed = some h := by
    intro h q w₁ w₂ opens decide
    have hdec := hrot.decides h { w₁ with managed := some h } _ _ rfl decide
    have hset : Works (Opening cfg w c) w₁ { w₁ with managed := some h } :=
      ⟨id, fun _ => .of_file rfl, rfl⟩
    exact ⟨hset.trans hdec.works, hdec.stream.trans (Tidy.opens opens).2,
      hrot.managed h { w₁ with managed := some h } _ _ rfl decide⟩
  -- the stream that was there decides as `Due`
  have hdue : ∀ {h b w₁ w₂}, Opens cfg (c.goes .open) w (.ok h) w₁ →
      should.exec { w₁ with managed := some h } = (.ok b, w₂) → w.stream ≠ none →
      (b = true ↔ Due cfg w c) := by
    intro h b w₁ w₂ opens decide hne
    cases opens with
    | has stream => exact hjudge h w b w₂ stream decide
    | opens stream _ => exact absurd stream hne
  cases hcall with
  | unopened opens => exact .of_error (hopens opens)
  | undecided opens decide => exact .of_error ((hopens opens).trans (hdecided opens decide).1)
  | stays opens decide puts =>
    obtain ⟨hw₂, hs₂, -⟩ := hdecided opens decide
    refine ⟨((hopens opens).trans hw₂).trans puts.works, fun _ hagain => ?_, ?_⟩
    · have hnone : w.stream = none := by
        by_contra hne
        exact absurd ((hdue opens decide hne).mpr (hagain.resolve_left hne)) (by simp)
      exact (opens.openedAt hnone).works ((hopens opens).sound hs) (hw₂.trans puts.works)
    · rintro rfl
      exact ⟨_, puts.filed hs₂⟩
  | unrolled opens decide rolled =>
    obtain ⟨hw₂, -, hm₂⟩ := hdecided opens decide
    exact .of_error (((hopens opens).trans hw₂).trans (hrot.rolled _ _ _ _ hm₂ rolled).works)
  | unreopened opens decide rolled reopens =>
    obtain ⟨hw₂, -, hm₂⟩ := hdecided opens decide
    have hw₃ := ((hopens opens).trans hw₂).trans (hrot.rolled _ _ _ _ hm₂ rolled).works
    cases reopens with
    | fails _ _ => exact .of_error ⟨hw₃.sound, hw₃.opens, hw₃.cwd⟩
  | @rolls h h' _ w₁ w₂ w₃ w₄ _ opens decide rolled reopens puts =>
    obtain ⟨hw₂, -, hm₂⟩ := hdecided opens decide
    have hw₃ := ((hopens opens).trans hw₂).trans (hrot.rolled _ _ _ _ hm₂ rolled).works
    have hdropped : Works (Opening cfg w c) w { w₃ with stream := none } :=
      ⟨hw₃.sound, hw₃.opens, hw₃.cwd⟩
    have hagain : OpensAgain cfg w c := by
      by_cases hnone : w.stream = none
      · exact .inl hnone
      · exact .inr ((hdue opens decide hnone).mp rfl)
    have hw₄ : Works (Opening cfg w c) { w₃ with stream := none } w₄ :=
      reopens.works fun _ => .inr ⟨hagain, congrArg cfg.filename.resolve hw₃.cwd⟩
    refine ⟨(hdropped.trans hw₄).trans puts.works, fun _ _ => ?_, ?_⟩
    · have hopened := reopens.openedAt (w := { w₃ with stream := none }) rfl
      rw [show cfg.filename.resolve w.cwd = cfg.filename.resolve w₃.cwd by rw [hw₃.cwd]]
      exact hopened.works ((hdropped.trans hw₄).sound hs) (puts.works (P := Opening cfg w c))
    · rintro rfl
      exact ⟨_, puts.filed (Tidy.opens reopens).2⟩

theorem Watching.located {r : Except IoError Unit} (hk : cfg.kind = .watched) (hs : w.fs.Sound)
    (hcall : Watching cfg c w r w') : Located cfg c w r w' := by
  have hopens : ∀ {q w₁}, Opens cfg (c.goes .open) w q w₁ → Works (Opening cfg w c) w w₁ :=
    fun opens => opens.works fun hnone => .inr ⟨.inl hnone, rfl⟩
  have hchecked : ∀ {h q w₁ w₂}, Reopens cfg c h { w₁ with managed := some h } q w₂ →
      Works (Opening cfg w c) w₁ w₂ := by
    intro h q w₁ w₂ check
    have hset : Works (Opening cfg w c) w₁ { w₁ with managed := some h } :=
      ⟨id, fun _ => .of_file rfl, rfl⟩
    exact hset.trans (check.works (.inl rfl))
  cases hcall with
  | unopened opens => exact .of_error (hopens opens)
  | unchecked opens check => exact .of_error ((hopens opens).trans (hchecked check))
  | @checked h k r w₁ w₂ _ opens check managed puts =>
    have hadopt : Works (Opening cfg w c) w₂ { w₂ with stream := some k } :=
      ⟨id, fun _ => .of_file rfl, rfl⟩
    have hrest := ((hchecked check).trans hadopt).trans puts.works
    refine ⟨(hopens opens).trans hrest, fun _ hagain => ?_, ?_⟩
    · have hnone : w.stream = none := hagain.resolve_right fun hdue => by
        rw [Due, hk] at hdue
        exact hdue
      exact (opens.openedAt hnone).works ((hopens opens).sound hs) hrest
    · rintro rfl
      exact ⟨_, puts.filed rfl⟩

/-- **Where a call opens files.** -/
theorem writeRecord_located {r : Except IoError Unit} (hs : w.fs.Sound)
    (h : (writeRecord cfg c).exec w = (r, w')) : Located cfg c w r w' := by
  unfold writeRecord at h
  split at h
  · rename_i hk
    rw [writePlain] at h
    rcases Prog.bind_cases h with ⟨k, w₁, h₁, h₂⟩ | ⟨e, h₁, rfl⟩
    · have opens := openStream_opens h₁
      have puts := writeText_puts h₂
      have hw₁ : Works (Opening cfg w c) w w₁ := opens.works fun hnone => .inr ⟨.inl hnone, rfl⟩
      refine ⟨hw₁.trans puts.works, fun _ hagain => ?_, ?_⟩
      · have hnone : w.stream = none := hagain.resolve_right fun hdue => by
          rw [Due, hk] at hdue
          exact hdue
        exact (opens.openedAt hnone).works (hw₁.sound hs) (puts.works (P := Opening cfg w c))
      · rintro rfl
        exact ⟨_, puts.filed (Tidy.opens opens).2⟩
    · exact .of_error ((openStream_opens h₁).works fun hnone => .inr ⟨.inl hnone, rfl⟩)
  · rename_i hk
    exact (writeRolling_rolling h).located (rotator_size hk) (judges_size hk) hs
  · rename_i hk
    exact (writeRolling_rolling h).located (rotator_time hk) (judges_time hk) hs
  · rename_i hk
    exact (writeWatched_watching h).located hk hs

end FileBackend

-- ---------------------------------------------------------------------------
-- Runs
-- ---------------------------------------------------------------------------

namespace FileRun

open FileBackend

variable {cfg : FileConfig} {s t : FileRun} {c : WriteCall}

/-- Every file was opened under the path that the rotator or watcher manages. -/
def Same (cfg : FileConfig) (s : FileRun) : Prop :=
  ∀ h f, s.world.fs.file h = some f → f.path = cfg.baseFilename

/-- Every text went to one of the files opened. -/
def Traced (s : FileRun) : Prop :=
  ∀ e ∈ s.written, ∃ h f, s.world.fs.file h = some f ∧ e.inode = some f.inode

theorem external_extends {P : AbsPath → Prop} {fs fs' : FileSystem AbsPath} {e : External}
    (hs : fs.Sound) (h : e.apply fs = some fs') : fs'.Sound ∧ fs.Extends P fs' := by
  cases e with
  | rename src dst =>
    refine ⟨hs.rename h, .of_file ?_⟩
    obtain ⟨i, -, rfl⟩ := Option.map_eq_some_iff.mp h
    rfl
  | remove p =>
    refine ⟨hs.remove h, .of_file ?_⟩
    obtain ⟨i, -, rfl⟩ := Option.map_eq_some_iff.mp h
    rfl
  | create p =>
    obtain rfl := Option.some.inj h
    exact ⟨(hs.create p).1, .of_file rfl⟩

/-- What a step opens. -/
theorem step_extends {a : Act} (hs : s.world.fs.Sound) (h : FileRun.step cfg s a = some t) :
    t.world.fs.Sound ∧ s.world.fs.Extends
      (fun p => p = cfg.baseFilename ∨ ∃ c, a = .write c ∧ Opening cfg s.world c p) t.world.fs := by
  cases a with
  | write c =>
    obtain rfl := Option.some.inj h
    rw [afterWrite_world]
    have hw := (@writeRecord_located cfg c s.world _ _ hs rfl).works
    exact ⟨hw.sound hs, (hw.opens hs).mono fun p hp => .inr ⟨c, rfl, hp⟩⟩
  | close =>
    obtain rfl := Option.some.inj h
    show (closeStream s.world).fs.Sound ∧ s.world.fs.Extends _ (closeStream s.world).fs
    unfold closeStream
    split
    · exact ⟨hs.close _, .close _ _⟩
    · exact ⟨hs, .of_file rfl⟩
  | chdir dir =>
    obtain rfl := Option.some.inj h
    exact ⟨hs, .of_file rfl⟩
  | external e =>
    obtain ⟨fs, hfs, rfl⟩ := Option.map_eq_some_iff.mp h
    exact external_extends hs hfs

theorem traced_step {a : Act} (hs : s.world.fs.Sound) (ht : Traced s)
    (h : FileRun.step cfg s a = some t) : Traced t := by
  have hkept := (step_extends hs h).2.kept
  have hold : ∀ e ∈ s.written, ∃ k f, t.world.fs.file k = some f ∧ e.inode = some f.inode := by
    intro e he
    obtain ⟨k, f, hf, hi⟩ := ht e he
    obtain ⟨f', hf', -, hinode⟩ := hkept k f hf
    exact ⟨k, f', hf', hi.trans (congrArg some hinode.symm)⟩
  cases a with
  | write c =>
    obtain rfl := Option.some.inj h
    rcases hcall : (writeRecord cfg c).exec s.world with ⟨r, w'⟩
    rw [hcall] at hold
    cases r with
    | error e => exact hold
    | ok =>
      intro e he
      rcases List.mem_append.mp he with he | he
      · exact hold e he
      · obtain rfl := List.mem_singleton.mp he
        exact (writeRecord_located hs hcall).filed rfl
  | close =>
    obtain rfl := Option.some.inj h
    exact hold
  | chdir dir =>
    obtain rfl := Option.some.inj h
    exact hold
  | external e =>
    obtain ⟨fs, -, rfl⟩ := Option.map_eq_some_iff.mp h
    exact hold

/-- **Backend and rotator mean the same file** in the runs whose calls open the log file
only while its name leads where it led: all texts are in files opened under the managed
path. A call that opens it while the name leads elsewhere, and returns, has opened
another file. -/
theorem same_file (cfg : FileConfig) :
    (∀ s, (machine cfg).Reachable (fun s a => ∀ c, a = .write c → OpensAgain cfg s.world c →
      Leads cfg s.world) s →
      Same cfg s ∧ ∀ e ∈ s.written, ∃ h f, s.world.fs.file h = some f ∧
        e.inode = some f.inode ∧ f.path = cfg.baseFilename) ∧
    ∀ s, (machine cfg).Reachable Machine.Always s → Same cfg s → ∀ c w',
      (writeRecord cfg c).exec s.world = (.ok (), w') →
        (Same cfg (s.afterWrite c (.ok (), w')) ↔
          (OpensAgain cfg s.world c → Leads cfg s.world)) := by
  have hinit : ∀ s, Init cfg s → s.world.fs.Sound ∧ Same cfg s ∧ Traced s := by
    rintro s ⟨fs, at₀, hs, hnone, rfl⟩
    refine ⟨hs, fun h f hf => ?_, fun _ he => absurd he (by simp)⟩
    exact absurd ((hnone h).symm.trans hf) (by simp)
  -- a call that opens where the name led opens the managed path
  have hsame : ∀ s t a, s.world.fs.Sound → Same cfg s → FileRun.step cfg s a = some t →
      (∀ c, a = .write c → OpensAgain cfg s.world c → Leads cfg s.world) → Same cfg t := by
    intro s t a hs hsame hstep hleads h f hf
    rcases (step_extends hs hstep).2.made h f hf with ⟨g, hg, hp⟩ | hp | ⟨c, ha, hp | ⟨hagain, hp⟩⟩
    · exact hp.symm.trans (hsame h g hg)
    · exact hp
    · exact hp
    · exact hp.trans (leads_iff.mp (hleads c ha hagain))
  refine ⟨fun s h => ?_, fun s h hs c w' hcall => ⟨fun ht hagain => ?_, fun hleads => ?_⟩⟩
  · obtain ⟨hsound, hs, ht⟩ : s.world.fs.Sound ∧ Same cfg s ∧ Traced s := by
      refine Machine.invariant (I := fun s => s.world.fs.Sound ∧ Same cfg s ∧ Traced s) hinit ?_ h
      rintro s a t ⟨hsound, hs, ht⟩ hok hstep
      exact ⟨(step_extends hsound hstep).1, hsame s t a hsound hs hstep hok,
        traced_step hsound ht hstep⟩
    refine ⟨hs, fun e he => ?_⟩
    obtain ⟨k, f, hf, hi⟩ := ht e he
    exact ⟨k, f, hf, hi, hs k f hf⟩
  all_goals
    have hsound : s.world.fs.Sound := by
      refine Machine.invariant (I := fun s => s.world.fs.Sound) (fun s hs => (hinit s hs).1) ?_ h
      exact fun s a t hsound _ hstep => (step_extends hsound hstep).1
  · obtain ⟨k, f, hf, hp⟩ := (writeRecord_located hsound hcall).opened rfl hagain
    rw [leads_iff, ← hp]
    exact ht k f hf
  · refine hsame s _ (.write c) hsound hs ?_ fun d hd => by rwa [← Act.write.inj hd]
    exact congrArg (fun p => some (s.afterWrite c p)) hcall

/-- The small log under a relative name. -/
def relativeLog : FileConfig := ⟨.rotating 10 1, ⟨false, [], "app.log"⟩, .append, []⟩

/-- The rollover comes after a change of directory: the first text is in the backup of
the managed path, the second one elsewhere. -/
theorem files_split :
    ¬ ∀ cfg s, (machine cfg).Reachable Machine.Always s → Same cfg s := by
  intro hall
  have hrun : ∃ s, (machine relativeLog).Reaches Machine.Always empty s ∧
      s.world.fs.texts (relativeLog.backup 1) = ["alpha\n"] ∧
      s.world.fs.texts ⟨["srv"], "app.log"⟩ = ["bravo\n"] ∧
      (s.world.fs.file 1).map OpenFile.path = some ⟨["srv"], "app.log"⟩ :=
    ⟨_, (((Machine.Reaches.refl empty).tail (a := .write (line "alpha")) trivial rfl).tail
      (a := .chdir ["srv"]) trivial rfl).tail (a := .write (line "bravo")) trivial rfl, rfl, rfl, rfl⟩
  obtain ⟨s, hrun, -, -, hpath⟩ := hrun
  obtain ⟨f, hf, hp⟩ := Option.map_eq_some_iff.mp hpath
  have := hall relativeLog s ⟨_, empty_init _ rfl, hrun⟩ 1 f hf
  rw [hp] at this
  exact absurd this (by decide)

end FileRun

end ScietexLogging
