import ScietexLogging.File.Archive

/-!
# File — what the backend does to its own output

`_open_stream` opens with the backend's mode each time. In mode `"w"` that cuts the
log file short after every restart, and after a rollover that renamed nothing.

* `own_output_survives` — what was written to a file stays there, in the runs that
  open with mode `"w"` only where the backend has written nothing yet; and no other
  call leaves it there;
* `own_output_lost` — one restart.
-/

namespace ScietexLogging

open Asyncio Posix

/-- The rollover of this call renames nothing, and opens the same file again. -/
def InPlace (cfg : FileConfig) (w : FileWorld) (c : WriteCall) : Prop :=
  ∃ maxBytes backupCount, cfg.kind = .rotating maxBytes backupCount ∧
    FileBackend.SizeDue maxBytes w c ∧ ¬ (0 < backupCount ∧ c.goes .findActive = true)

/-- `_open_stream` opens the log file in mode `"w"`. -/
def Truncates (cfg : FileConfig) (w : FileWorld) (c : WriteCall) : Prop :=
  cfg.openMode = .truncate ∧ (w.stream = none ∨ InPlace cfg w c)

namespace FileBackend

variable {cfg : FileConfig} {c : WriteCall} {w w' : FileWorld} {h : Nat} {goes : Bool}
  {A : Nat → List String}

-- ---------------------------------------------------------------------------
-- What a rollover does to the name of the log file
-- ---------------------------------------------------------------------------

/-- The name is not given to another file. -/
def Unclaimed (cfg : FileConfig) (w w' : FileWorld) : Prop :=
  ∀ i, w'.fs.names cfg.baseFilename = some i → w.fs.names cfg.baseFilename = some i

theorem Unclaimed.refl (w : FileWorld) : Unclaimed cfg w w := fun _ => id

theorem Unclaimed.trans (u v w : FileWorld) (h : Unclaimed cfg u v) (h' : Unclaimed cfg v w) :
    Unclaimed cfg u w := fun i hi => h i (h' i hi)

theorem removePath_unclaimed (goes : Bool) (p : AbsPath) :
    Prog.Moves (Unclaimed cfg) (removePath goes p) := by
  intro w
  rw [removePath, exec_onSystem]
  split
  · cases hr : w.fs.remove p with
    | none => exact .refl w
    | some fs =>
      obtain ⟨j, -, rfl⟩ := Option.map_eq_some_iff.mp hr
      intro i hi
      replace hi : Function.update w.fs.names p none cfg.baseFilename = some i := hi
      by_cases hp : cfg.baseFilename = p
      · rw [hp, Function.update_self] at hi
        exact absurd hi (by simp)
      · rwa [Function.update_of_ne hp] at hi
  · exact .refl w

theorem renamePath_unclaimed (goes : Bool) (src : AbsPath) {dst : AbsPath}
    (hd : dst ≠ cfg.baseFilename) : Prog.Moves (Unclaimed cfg) (renamePath goes src dst) := by
  intro w
  rw [renamePath, exec_onSystem]
  split
  · cases hr : w.fs.rename src dst with
    | none => exact .refl w
    | some fs =>
      obtain ⟨j, -, rfl⟩ := Option.map_eq_some_iff.mp hr
      intro i hi
      replace hi : Function.update (Function.update w.fs.names src none) dst (some j)
        cfg.baseFilename = some i := hi
      rw [Function.update_of_ne hd.symm] at hi
      by_cases hp : cfg.baseFilename = src
      · rw [hp, Function.update_self] at hi
        exact absurd hi (by simp)
      · rwa [Function.update_of_ne hp] at hi
  · exact .refl w

theorem removeIfFound_unclaimed (goes goes' : Bool) (p : AbsPath) :
    Prog.Moves (Unclaimed cfg) (removeIfFound goes goes' p) :=
  .bind Unclaimed.trans (fun w => .refl w) fun _ =>
    .ite (removePath_unclaimed goes' p) (.pure Unclaimed.refl ())

theorem makeBackups_unclaimed (cfg : FileConfig) (c : WriteCall) (b : Int) :
    Prog.Moves (Unclaimed cfg) (makeBackups cfg c b) := by
  have hmove : ∀ n, Prog.Moves (Unclaimed cfg) (moveBackups cfg c n) := by
    intro n
    induction n with
    | zero => exact .pure Unclaimed.refl ()
    | succ n ih =>
      refine .bind Unclaimed.trans ?_ fun _ => ih
      refine .bind Unclaimed.trans (fun w => .refl w) fun _ => .ite ?_ (.pure Unclaimed.refl ())
      exact .bind Unclaimed.trans (removeIfFound_unclaimed _ _ _) fun _ =>
        renamePath_unclaimed _ _ (cfg.backup_ne_base _)
  refine .ite ?_ (.pure Unclaimed.refl ())
  refine .bind Unclaimed.trans (hmove _) fun _ => ?_
  refine .bind Unclaimed.trans (removeIfFound_unclaimed _ _ _) fun _ => ?_
  exact .bind Unclaimed.trans (fun w => .refl w) fun _ =>
    .ite (renamePath_unclaimed _ _ (cfg.backup_ne_base 1)) (.pure Unclaimed.refl ())

/-- The log file was renamed, where it was seen. -/
theorem rotate_gone {dfn : AbsPath} (hd : dfn ≠ cfg.baseFilename) (hg : c.goes .findActive = true)
    (h : (rotate cfg c dfn).exec w = (.ok (), w')) : w'.fs.names cfg.baseFilename = none := by
  rw [rotate, Prog.exec_bind, exec_found, hg, Bool.true_and] at h
  dsimp only at h
  cases hi : w.fs.names cfg.baseFilename with
  | none =>
    rw [hi] at h
    rw [← (Prod.mk.inj h).2, hi]
  | some i =>
    rw [hi, Option.isSome_some, if_pos rfl] at h
    cases hgo : c.goes .renameActive with
    | true =>
      rw [hgo, exec_renamePath hi] at h
      rw [← (Prod.mk.inj h).2]
      exact renamedTo_src w hd.symm i
    | false =>
      rw [hgo, renamePath, exec_onSystem] at h
      exact absurd (Prod.mk.inj h).1 (by simp)

theorem rollSize_unclaimed {b : Int} {r : Except IoError Unit} (hm : w.managed = some h)
    (hr : (rollSize cfg c b).exec w = (r, w')) :
    Unclaimed cfg w w' ∧
      (r = .ok () → 0 < b → c.goes .findActive = true → w'.fs.names cfg.baseFilename = none) := by
  rw [rollSize, Prog.exec_bind, exec_closeManaged hm] at hr
  dsimp only at hr
  have hmoves := makeBackups_unclaimed cfg c b (closedManaged h w)
  have hclose : Unclaimed cfg w (closedManaged h w) := fun i hi => by
    rwa [show (closedManaged h w).fs.names = w.fs.names from FileSystem.close_names _ _] at hi
  rcases Prog.bind_cases hr with ⟨_, u, hu, hend⟩ | ⟨e, he, rfl⟩
  · rw [hu] at hmoves
    obtain ⟨rfl, rfl⟩ := Prod.mk.inj hend
    refine ⟨hclose.trans _ _ _ hmoves, fun _ hb hg => ?_⟩
    rw [makeBackups, if_pos hb] at hu
    show u.fs.names cfg.baseFilename = none
    rcases Prog.bind_cases hu with ⟨_, u₁, -, hu⟩ | ⟨e, -, he⟩
    · rcases Prog.bind_cases hu with ⟨_, u₂, -, hu⟩ | ⟨e, -, he⟩
      · exact rotate_gone (cfg.backup_ne_base 1) hg hu
      · exact absurd he (by simp)
    · exact absurd he (by simp)
  · rw [he] at hmoves
    exact ⟨hclose.trans _ _ _ hmoves, fun h => absurd h (by simp)⟩

-- ---------------------------------------------------------------------------
-- What a call leaves in the files
-- ---------------------------------------------------------------------------

/-- `A i` is in file `i`, and nothing in a file that is not there yet. -/
structure Holds (A : Nat → List String) (fs : FileSystem AbsPath) : Prop where
  inside : ∀ i, (A i).Sublist (fs.content i)
  known : ∀ i, fs.inodes ≤ i → A i = []

theorem Holds.grows {fs fs' : FileSystem AbsPath} (hA : Holds A fs) (hg : fs.Grows fs')
    (hle : fs.inodes ≤ fs'.inodes) : Holds A fs' :=
  ⟨fun i => (hA.inside i).trans (hg i).sublist, fun i hi => hA.known i (Nat.le_trans hle hi)⟩

theorem Holds.renamed {u v : FileWorld} (hA : Holds A u.fs) (hr : Renamed u v) : Holds A v.fs := by
  refine ⟨fun i => ?_, fun i hi => ?_⟩
  · rw [hr.rest]
    exact hA.inside i
  · rw [hr.rest] at hi
    exact hA.known i hi

/-- Nothing of `A` is in the log file. -/
def Blank (cfg : FileConfig) (A : Nat → List String) (w : FileWorld) : Prop :=
  ∀ i, w.fs.names cfg.baseFilename = some i → A i = []

theorem Holds.opened (hA : Holds A w.fs) (hw : Held cfg w)
    (hcut : cfg.openMode = .truncate → Blank cfg A w) : Holds A (opened cfg w).fs := by
  obtain ⟨-, hle, -⟩ := hw.sound.create cfg.baseFilename
  show Holds A (w.fs.openFile cfg.openMode (cfg.filename.resolve w.cwd))
  rw [hw.here]
  cases hmode : cfg.openMode with
  | append => exact hA.grows (fun i => List.prefix_refl _) hle
  | truncate =>
    -- the file cut short has nothing of `A`
    have hblank : A (w.fs.openInode cfg.baseFilename) = [] := by
      cases hi : w.fs.names cfg.baseFilename with
      | some i =>
        rw [FileSystem.openInode, hi]
        exact hcut hmode i hi
      | none =>
        rw [FileSystem.openInode, hi]
        exact hA.known _ (Nat.le_refl _)
    refine ⟨fun i => ?_, fun i hi => hA.known i (Nat.le_trans hle hi)⟩
    show (A i).Sublist (Function.update w.fs.content (w.fs.openInode cfg.baseFilename) [] i)
    by_cases hi : i = w.fs.openInode cfg.baseFilename
    · rw [hi, hblank]
      exact List.nil_sublist _
    · rw [Function.update_of_ne hi]
      exact hA.inside i

/-- `_open_stream` finds nothing to cut short, and the file it opens is as blank. -/
theorem Holds.opens {r : Except IoError Nat} (hA : Holds A w.fs) (hw : Held cfg w)
    (ho : Opens cfg goes w r w')
    (hcut : cfg.openMode = .truncate → w.stream = none → Blank cfg A w) :
    Holds A w'.fs ∧ (Blank cfg A w → Blank cfg A w') := by
  cases ho with
  | has _ => exact ⟨hA, id⟩
  | opens stream _ =>
    refine ⟨hA.opened hw fun hmode => hcut hmode stream, fun hblank i hi => ?_⟩
    rw [opened_names hw, Function.update_self] at hi
    obtain rfl := Option.some.inj hi
    cases hj : w.fs.names cfg.baseFilename with
    | some j =>
      rw [FileSystem.openInode, hj]
      exact hblank j hj
    | none =>
      rw [FileSystem.openInode, hj]
      exact hA.known _ (Nat.le_refl _)
  | fails _ _ => exact ⟨hA, id⟩

theorem Holds.decides {r : Except IoError Bool} (hA : Holds A w.fs) (hd : Decides h w r w') :
    Holds A w'.fs ∧ w'.fs.names = w.fs.names := by
  cases hd with
  | keeps _ => exact ⟨hA, rfl⟩
  | raises _ => exact ⟨hA, rfl⟩
  | seeks _ _ => exact ⟨hA.grows (FileSystem.grows_sync _ _ _ _) (Nat.le_refl _), rfl⟩

theorem Holds.rollsOver {r : Except IoError Unit} (hA : Holds A w.fs) (hr : RollsOver h w r w') :
    Holds A w'.fs := by
  have hclose : Holds A (closedManaged h w).fs := by
    show Holds A (w.fs.close h)
    unfold FileSystem.close
    split
    · exact hA.grows (FileSystem.grows_sync _ _ _ _) (Nat.le_refl _)
    · exact hA
  cases hr with
  | done renamed _ => exact (hclose.renamed renamed :)
  | fails renamed => exact hclose.renamed renamed

/-- A text that was written comes after what is held. -/
theorem Holds.puts {r : Except IoError Unit} (hA : Holds A w.fs) (hs : w.stream = some h)
    (hp : Puts c h w r w') :
    Holds A w'.fs ∧ (r = .ok () → ∃ i before, FileRun.streamInode w' = some i ∧
      w'.fs.content i = before ++ [c.text] ∧ (A i).Sublist before) := by
  cases hp with
  | refused _ => exact ⟨hA, fun h => absurd h (by simp)⟩
  | unflushed _ _ _ => exact ⟨⟨hA.inside, hA.known⟩, fun h => absurd h (by simp)⟩
  | @done f live _ _ =>
    refine ⟨hA.grows (FileSystem.grows_sync _ _ _ _) (Nat.le_refl _), fun _ =>
      ⟨f.inode, w.fs.content f.inode ++ f.buffer, ?_, ?_, ?_⟩⟩
    · show ((w.stream.bind (Function.update w.fs.file h _)).map OpenFile.inode) = _
      rw [hs, Option.bind_some, Function.update_self]
      rfl
    · show Function.update w.fs.content f.inode _ f.inode = _
      rw [Function.update_self, List.append_assoc]
    · exact (hA.inside _).trans (List.sublist_append_left _ _)

/-- The size rotator opens the log file again only as `Truncates` says. -/
theorem Holds.rolling {m b : Int} {r : Except IoError Unit} (hk : cfg.kind = .rotating m b)
    (hw : Held cfg w) (hA : Holds A w.fs) (hcut : Truncates cfg w c → Blank cfg A w)
    (hr : Rolling cfg c (sizeReached c m) (rollSize cfg c b) w r w') :
    Holds A w'.fs ∧ (r = .ok () → ∃ i before, FileRun.streamInode w' = some i ∧
      w'.fs.content i = before ++ [c.text] ∧ (A i).Sublist before) := by
  have hfirst : cfg.openMode = .truncate → w.stream = none → Blank cfg A w :=
    fun hmode hs => hcut ⟨hmode, .inl hs⟩
  have hrot : Rotator cfg c (sizeReached c m) (rollSize cfg c b) := rotator_size hk
  -- up to the rollover
  have hdecided : ∀ {h : Nat} {q : Except IoError Bool} {w₁ w₂ : FileWorld},
      Opens cfg (c.goes .open) w (.ok h) w₁ →
      (sizeReached c m).exec { w₁ with managed := some h } = (q, w₂) →
      Holds A w₂.fs ∧ w₂.fs.names = w₁.fs.names := by
    intro h q w₁ w₂ opens decide
    have := hrot.decides h { w₁ with managed := some h } _ _ rfl decide
    exact Holds.decides (w := { w₁ with managed := some h }) (hA.opens hw opens hfirst).1 this
  have hno : ∀ e, (Except.error e : Except IoError Unit) = .ok () → False := fun e h => by
    exact absurd h (by simp)
  cases hr with
  | unopened opens => exact ⟨(hA.opens hw opens hfirst).1, fun h => (hno _ h).elim⟩
  | undecided opens decide => exact ⟨(hdecided opens decide).1, fun h => (hno _ h).elim⟩
  | stays opens decide puts =>
    obtain ⟨-, -, hs₂, -⟩ := hrot.decided hw opens decide
    exact (hdecided opens decide).1.puts hs₂ puts
  | unrolled opens decide rolled =>
    obtain ⟨-, -, -, hm₂⟩ := hrot.decided hw opens decide
    exact ⟨(hdecided opens decide).1.rollsOver (hrot.rolled _ _ _ _ hm₂ rolled),
      fun h => (hno _ h).elim⟩
  | unreopened opens decide rolled reopens =>
    obtain ⟨-, -, -, hm₂⟩ := hrot.decided hw opens decide
    have hA₃ := (hdecided opens decide).1.rollsOver (hrot.rolled _ _ _ _ hm₂ rolled)
    cases reopens with
    | fails _ _ => exact ⟨hA₃, fun h => (hno _ h).elim⟩
  | @rolls h h' _ w₁ w₂ w₃ w₄ _ opens decide rolled reopens puts =>
    obtain ⟨hw₂, -, hs₂, hm₂⟩ := hrot.decided hw opens decide
    obtain ⟨hA₂, hnames⟩ := hdecided opens decide
    have hrolls := hrot.rolled _ _ _ _ hm₂ rolled
    have hA₃ := hA₂.rollsOver hrolls
    have hw₃ := (hw₂.rollsOver hs₂ hrolls).1.dropped
    obtain ⟨hunclaimed, hgone⟩ := rollSize_unclaimed hm₂ rolled
    have hblank : cfg.openMode = .truncate → Blank cfg A { w₃ with stream := none } := by
      intro hmode
      by_cases haway : 0 < b ∧ c.goes .findActive = true
      · intro i hi
        exact absurd ((hgone rfl haway.1 haway.2).symm.trans hi) (by simp)
      · -- the same file again
        have hblank₁ : Blank cfg A w₁ := by
          cases opens with
          | has stream =>
            have hdue := (Sizes.due_iff stream (sizeReached_sizes rfl decide)).mp rfl
            exact hcut ⟨hmode, .inr ⟨m, b, hk, hdue, haway⟩⟩
          | opens stream go =>
            exact (hA.opens hw (.opens stream go) hfirst).2 (hfirst hmode stream)
        exact fun i hi => hblank₁ i (by rw [← hnames]; exact hunclaimed i hi)
    obtain ⟨hA₄, -⟩ := Holds.opens (w := { w₃ with stream := none }) hA₃ hw₃ reopens
      fun hmode _ => hblank hmode
    obtain ⟨-, -, hs₄⟩ := hw₃.opens reopens
    exact hA₄.puts (hs₄ _ rfl) puts

theorem writeRecord_holds {r : Except IoError Unit} (hk : cfg.Numbered) (hw : Held cfg w)
    (hA : Holds A w.fs) (hcut : Truncates cfg w c → Blank cfg A w)
    (hr : (writeRecord cfg c).exec w = (r, w')) :
    Holds A w'.fs ∧ (r = .ok () → ∃ i before, FileRun.streamInode w' = some i ∧
      w'.fs.content i = before ++ [c.text] ∧ (A i).Sublist before) := by
  rcases hk with hk | ⟨m, b, hk⟩
  · rw [show writeRecord cfg c = writePlain cfg c by rw [writeRecord, hk]] at hr
    have hfirst : cfg.openMode = .truncate → w.stream = none → Blank cfg A w :=
      fun hmode hs => hcut ⟨hmode, .inl hs⟩
    rcases Prog.bind_cases hr with ⟨h, w₁, h₁, h₂⟩ | ⟨e, h₁, rfl⟩
    · obtain ⟨-, -, hs⟩ := hw.opens (openStream_opens h₁)
      exact (hA.opens hw (openStream_opens h₁) hfirst).1.puts (hs _ rfl) (writeText_puts h₂)
    · exact ⟨(hA.opens hw (openStream_opens h₁) hfirst).1, fun h => absurd h (by simp)⟩
  · rw [show writeRecord cfg c = writeRotating cfg c m b by rw [writeRecord, hk]] at hr
    exact Holds.rolling hk hw hA hcut (writeRolling_rolling hr)

end FileBackend

-- ---------------------------------------------------------------------------
-- Runs
-- ---------------------------------------------------------------------------

namespace FileRun

open FileBackend

variable {cfg : FileConfig} {s t : FileRun} {c : WriteCall} {a : Archive String}

/-- What the backend wrote to file `i`. -/
def ours (s : FileRun) (i : Nat) : List String :=
  (s.written.filter fun e => e.inode = some i).map Written.text

/-- Everything the backend wrote to a file is in it, in order. -/
def Intact (s : FileRun) : Prop := ∀ i, (ours s i).Sublist (s.world.fs.content i)

/-- A call that opens in mode `"w"` opens a file the backend has not written to. -/
def Spares (cfg : FileConfig) (s : FileRun) (act : Act) : Prop :=
  ∀ c, act = .write c → Truncates cfg s.world c → Blank cfg (ours s) s.world

theorem ours_afterWrite (s : FileRun) (c : WriteCall) (w : FileWorld) (i : Nat) :
    ours (s.afterWrite c (.ok (), w)) i =
      if streamInode w = some i then ours s i ++ [c.text] else ours s i := by
  show ((s.written ++ [_]).filter _).map _ = _
  rw [List.filter_append, List.map_append]
  by_cases hi : streamInode w = some i
  · rw [if_pos hi, List.filter_cons_of_pos (by simpa using hi)]
    rfl
  · rw [if_neg hi, List.filter_cons_of_neg (by simpa using hi), List.filter_nil, List.map_nil,
      List.append_nil]
    rfl

/-- The step of a run: what was written stays, where the call spares it. -/
theorem intact_step {act : Act} (hk : cfg.Numbered) (hw : Held cfg s.world)
    (hs : Holds (ours s) s.world.fs) (ha : act.Undisturbed cfg) (hspares : Spares cfg s act)
    (h : FileRun.step cfg s act = some t) :
    Held cfg t.world ∧ Holds (ours t) t.world.fs := by
  refine ⟨(held_step hw ha h).1, ?_⟩
  cases act with
  | write c =>
    obtain rfl := Option.some.inj h
    rcases hcall : (writeRecord cfg c).exec s.world with ⟨r, w'⟩
    obtain ⟨hs', hput⟩ := writeRecord_holds hk hw hs (hspares c rfl) hcall
    cases r with
    | error e => exact ⟨hs'.inside, hs'.known⟩
    | ok =>
      obtain ⟨i, before, hstream, hcontent, hbefore⟩ := hput rfl
      have hheld := (writeRecord_held hw hcall).1
      refine ⟨fun j => ?_, fun j hj => ?_⟩
      · rw [ours_afterWrite, hstream]
        split
        · rename_i hij
          obtain rfl := Option.some.inj hij
          show (ours s i ++ [c.text]).Sublist (w'.fs.content i)
          rw [hcontent]
          exact hbefore.append_right _
        · exact hs'.inside j
      · rw [ours_afterWrite, if_neg, hs'.known j hj]
        intro hij
        -- a file that is open is there
        obtain ⟨f, hf, rfl⟩ := Option.map_eq_some_iff.mp hij
        obtain ⟨k, -, hf⟩ := Option.bind_eq_some_iff.mp hf
        have := (hheld.sound.filed k f hf).2
        have hj' : w'.fs.inodes ≤ f.inode := hj
        omega
  | close =>
    obtain rfl := Option.some.inj h
    show Holds (ours s) (closeStream s.world).fs
    unfold closeStream FileSystem.close
    split
    · dsimp only
      split
      · exact hs.grows (FileSystem.grows_sync _ _ _ _) (Nat.le_refl _)
      · exact hs
    · exact hs
  | chdir dir =>
    obtain rfl := Option.some.inj h
    exact hs
  | external e => exact ha.elim

theorem holds_init (h : Init cfg s) : Holds (ours s) s.world.fs := by
  obtain ⟨fs, at₀, -, -, rfl⟩ := h
  exact ⟨fun _ => List.nil_sublist _, fun _ _ => rfl⟩

-- ---------------------------------------------------------------------------
-- Where the texts are
-- ---------------------------------------------------------------------------

/-- The shelves of the archive are at the end of the slots, and what was written since
the last rollover is in the log file. -/
structure Placed (cfg : FileConfig) (s : FileRun) (a : Archive String) : Prop where
  dated : Dated cfg s a
  texts : ∀ k, k ≤ cfg.kept → a.shelf k <:+ s.world.fs.texts (cfg.slot k)
  here : ∀ e ∈ s.written, age cfg s e = 0 →
    ∃ i, e.inode = some i ∧ s.world.fs.names cfg.baseFilename = some i

namespace Placed

theorem idles (hs : Placed cfg s a) (hi : Idles cfg s t) : Placed cfg t a := by
  refine ⟨hs.dated.congr hi.written hi.rollovers, ?_, fun e he hage => ?_⟩
  · rw [hi.texts]
    exact hs.texts
  · rw [hi.names]
    refine hs.here e (by rwa [← hi.written]) ?_
    rwa [age, ← hi.rollovers]

/-- The newest shelf is empty where the log file has nothing of the backend. -/
theorem shelf_zero (hs : Placed cfg s a) (hblank : Blank cfg (ours s) s.world) :
    a.shelf 0 = [] := by
  rw [Archive.shelf, hs.dated.entries, List.map_eq_nil_iff, List.filter_eq_nil_iff]
  intro p hp
  obtain ⟨e, he, rfl⟩ := List.mem_map.mp hp
  intro hage
  obtain ⟨i, hi, hname⟩ := hs.here e he (of_decide_eq_true hage)
  have hours : e.text ∈ ours s i :=
    List.mem_map_of_mem (List.mem_filter.mpr ⟨he, by simpa using hi⟩)
  rw [hblank i hname] at hours
  exact absurd hours (by simp)

theorem readied (hs : Placed cfg s a) (hw : Tidy cfg s.world)
    (hcut : cfg.openMode = .truncate → s.world.stream = none → Blank cfg (ours s) s.world) :
    Placed cfg { s with world := readied cfg s.world } a := by
  refine ⟨hs.dated.congr rfl (readied_rollovers _ _), fun k hk => ?_, fun e he hage => ?_⟩
  · show _ <:+ (FileBackend.readied cfg s.world).fs.texts _
    rw [readied_texts hw.held]
    split
    · rename_i hbase
      have hk0 : k = 0 := by
        by_contra hne
        exact cfg.slot_ne_base (Nat.pos_of_ne_zero hne) hbase.1
      rw [hk0]
      exact List.suffix_nil.mpr (hs.shelf_zero (hcut hbase.2.2 hbase.2.1))
    · exact hs.texts k hk
  · have hage' : age cfg s e = 0 := by
      rw [← hage]
      show (if _ then 0 else _) = if _ then 0 else _
      rw [readied_rollovers]
    obtain ⟨i, hi, hname⟩ := hs.here e he hage'
    exact ⟨i, hi, readied_names_base hw.held hname⟩

/-- Each text takes its shelf along. -/
theorem turn (hs : Placed cfg s a) {r : Except IoError Unit} {w' : FileWorld}
    (ht : Turn cfg c s.world r w')
    (hcut : cfg.openMode = .truncate → cfg.kept = 0 → Full cfg s.world c → a.shelf 0 = [])
    (hnew : r = .ok () → ∃ i, streamInode w' = some i ∧ w'.fs.names cfg.baseFilename = some i) :
    ∃ a', Placed cfg (s.afterWrite c (r, w')) a' := by
  have hsame : ∀ {l : List String} {x : String} {l' : List String}, l <:+ l' →
      l ++ [x] <:+ l' ++ [x] := by
    rintro l x _ ⟨p, rfl⟩
    exact ⟨p, List.append_assoc _ _ _ |>.symm⟩
  -- the log file keeps its name, and its new content ends in the newest shelf
  have happend : ∀ w' : FileWorld, a.shelf 0 ++ [c.text] <:+ w'.fs.texts cfg.baseFilename →
      (∀ q, q ≠ cfg.baseFilename → w'.fs.texts q = s.world.fs.texts q) →
      w'.fs.names = s.world.fs.names → s.world.rollovers ≤ w'.rollovers →
      (cfg.kept = 0 ∨ w'.rollovers = s.world.rollovers) →
      (∃ i, streamInode w' = some i ∧ w'.fs.names cfg.baseFilename = some i) →
      Placed cfg (s.afterWrite c (.ok (), w')) (a.append c.text) := by
    intro w' hbase hrest hnames hle hr hnew
    refine ⟨hs.dated.appended hle hr, fun k hk => ?_, fun e he hage => ?_⟩
    · rw [Archive.shelf_append]
      cases k with
      | zero => exact hbase
      | succ k =>
        show a.shelf (k + 1) <:+ w'.fs.texts _
        rw [hrest _ (cfg.slot_ne_base (by omega))]
        exact hs.texts _ hk
    · rcases List.mem_append.mp he with he | he
      · show ∃ i, e.inode = some i ∧ w'.fs.names _ = some i
        rw [hnames]
        refine hs.here e he ?_
        rw [← hage]
        show (if _ then 0 else _) = if _ then 0 else w'.rollovers - e.rollovers
        rcases hr with h0 | hr
        · rw [if_pos h0, if_pos h0]
        · rw [hr]
      · obtain rfl := List.mem_singleton.mp he
        exact hnew
  cases ht with
  | @refused e w' _ fs rollovers =>
    refine ⟨a, hs.dated.congr rfl rollovers, ?_, fun e he hage => ?_⟩
    · dsimp only [afterWrite]
      rw [fs]
      exact hs.texts
    · dsimp only [afterWrite]
      rw [fs]
      refine hs.here e he ?_
      rw [← hage]
      show (if _ then 0 else _) = if _ then 0 else w'.rollovers - e.rollovers
      rw [rollovers]
  | stays _ names texts rollovers =>
    refine ⟨_, happend _ ?_ (fun q hq => by rw [texts, if_neg hq]) names (by omega)
      (.inr rollovers) (hnew rfl)⟩
    rw [texts, if_pos rfl]
    exact hsame (hs.texts 0 (Nat.zero_le _))
  | restarts full keeps names texts rollovers =>
    refine ⟨_, happend _ ?_ (fun q hq => by rw [texts, if_neg hq]) names (by omega)
      (.inl keeps) (hnew rfl)⟩
    rw [texts, if_pos rfl]
    split
    · rename_i hmode
      exact hsame (List.suffix_nil.mpr (hcut hmode keeps full))
    · exact hsame (hs.texts 0 (Nat.zero_le _))
  | @rolls w' _ keeps slid active rest rollovers =>
    refine ⟨_, hs.dated.rotated keeps rollovers, fun k hk => ?_, fun e he hage => ?_⟩
    · show _ <:+ w'.fs.texts _
      rw [Archive.shelf_append]
      cases k with
      | zero =>
        refine ⟨[], ?_⟩
        rw [if_pos rfl, Archive.shelf_rotate_zero, List.nil_append, List.nil_append, cfg.slot_zero,
          active]
      | succ k =>
        rw [if_neg (by omega), Archive.shelf_rotate_succ, rest _ (cfg.slot_ne_base (by omega))]
        have hold := hs.texts k (by omega)
        cases hi : s.world.fs.names (cfg.slot k) with
        | none =>
          -- nothing to take along
          rw [FileSystem.texts, hi] at hold
          rw [List.suffix_nil.mp hold]
          exact List.nil_suffix
        | some i =>
          rw [show s.world.fs.texts (cfg.slot k) = s.world.fs.content i from
            FileSystem.texts_eq hi] at hold
          have hname : w'.fs.names (cfg.slot (k + 1)) = some i := by
            rcases Nat.lt_or_eq_of_le hk with hlt | heq
            · rw [slid.next k hlt, hi]
            · rw [slid.last k heq, hi, Option.some_or]
          rwa [@FileSystem.texts_eq _ { s.world.fs with names := w'.fs.names } _ _ hname]
    · rcases List.mem_append.mp he with he | he
      · have hpast := hs.dated.past e he
        replace hage : (if cfg.kept = 0 then 0 else w'.rollovers - e.rollovers) = 0 := hage
        rw [if_neg (by omega)] at hage
        omega
      · obtain rfl := List.mem_singleton.mp he
        exact hnew rfl

end Placed

/-- In a world without trouble, a log that starts over in the same file is cut short as
`Truncates` says. -/
theorem truncates_of_full (hw : Tidy cfg s.world) (hmode : cfg.openMode = .truncate)
    (hkept : cfg.kept = 0) (hfull : Full cfg (readied cfg s.world) c) :
    Truncates cfg s.world c := by
  refine ⟨hmode, ?_⟩
  cases hs : s.world.stream with
  | none => exact .inl rfl
  | some h =>
    obtain ⟨f, hlive, hbuffer, hname⟩ := hw.inode hs
    obtain ⟨m, b, msg, hk, hm, hmsg, hle⟩ := hfull
    rw [readied, hs, logSize, FileSystem.texts_eq hname] at hle
    have hb : cfg.kept = b.toNat := by rw [FileConfig.kept, hk]
    refine .inr ⟨m, b, hk, ⟨msg, h, f, hm, hmsg, hs, hlive, ?_⟩, fun hpos => by omega⟩
    rw [FileSystem.sync_eq_self hlive hbuffer]
    exact hle

theorem placed_step {act : Act} (hk : cfg.Numbered) (hw : Tidy cfg s.world) (hs : Placed cfg s a)
    (ha : act.Untroubled cfg) (hspares : Spares cfg s act) (h : FileRun.step cfg s act = some t) :
    Tidy cfg t.world ∧ ∃ a', Placed cfg t a' := by
  obtain ⟨hw', hidles | ⟨c, r, w', rfl, -, hturn, hstream, rfl⟩⟩ := step_turns hw hk ha h
  · exact ⟨hw', a, hs.idles hidles⟩
  · have hready := hs.readied hw fun hmode hnone => hspares c rfl ⟨hmode, .inl hnone⟩
    refine ⟨hw', hready.turn hturn (fun hmode hkept hfull => ?_) fun hr => ?_⟩
    · exact hs.shelf_zero (hspares c rfl (truncates_of_full hw hmode hkept hfull))
    · rw [afterWrite_world] at hw'
      obtain ⟨k, hk'⟩ := Option.ne_none_iff_exists'.mp (hstream hr)
      obtain ⟨f, -, -, hname⟩ := hw'.inode hk'
      exact ⟨f.inode, by rw [streamInode_eq hw' (hstream hr), hname], hname⟩

/-- A clean call that opens the log file in mode `"w"`, with texts of the backend in it,
loses them. -/
theorem not_intact (hk : cfg.Numbered) (hw : Tidy cfg s.world) (hc : c.Clean)
    (hcut : Truncates cfg s.world c) (hours : ¬ Blank cfg (ours s) s.world)
    (h : FileRun.step cfg s (.write c) = some t) : ¬ Intact t := by
  obtain ⟨i, hname, hne⟩ : ∃ i, s.world.fs.names cfg.baseFilename = some i ∧ ours s i ≠ [] := by
    simpa [Blank] using hours
  obtain rfl := Option.some.inj h
  rcases hcall : (writeRecord cfg c).exec s.world with ⟨r, w'⟩
  obtain ⟨hw', hstream, hturn⟩ := writeRecord_turn hw hk hc hcall
  have hbase := readied_names_base hw.held hname
  -- a new text alone in the file is not all that was written there
  have halone : r = .ok () → w'.fs.names = (readied cfg s.world).fs.names →
      w'.fs.texts cfg.baseFilename = [c.text] → ¬ Intact (s.afterWrite c (r, w')) := by
    rintro rfl hnames htexts hintact
    have hi := hintact i
    have hname' : w'.fs.names cfg.baseFilename = some i := by rw [hnames, hbase]
    rw [ours_afterWrite, streamInode_eq hw' (hstream rfl), hname', if_pos rfl] at hi
    have hlen := hi.length_le
    rw [show (s.afterWrite c (.ok (), w')).world.fs.content i = [c.text] by
      rw [← htexts, FileSystem.texts_eq hname']; rfl, List.length_append] at hlen
    exact hne (List.length_eq_zero_iff.mp (by simpa using hlen))
  obtain ⟨hmode, hs | ⟨m, b, hkind, ⟨msg, k, f, hm, hmsg, hs, hlive, hdue⟩, hback⟩⟩ := hcut
  · have hempty : (readied cfg s.world).fs.texts cfg.baseFilename = [] := by
      rw [readied_texts hw.held, if_pos ⟨rfl, hs, hmode⟩]
    -- its content is gone, and there is nothing new in it
    have hgone : w'.fs.content i = [] → (r = .ok () → streamInode w' ≠ some i) →
        ¬ Intact (s.afterWrite c (r, w')) := by
      intro hcontent hnot hintact
      have hi := hintact i
      rw [afterWrite_world, hcontent, List.sublist_nil] at hi
      cases r with
      | error e => exact hne hi
      | ok =>
        rw [ours_afterWrite, if_neg (hnot rfl)] at hi
        exact hne hi
    cases hturn with
    | refused _ fs _ =>
      refine hgone ?_ (fun h => absurd h (by simp))
      rw [fs, ← FileSystem.texts_eq hbase, hempty]
    | stays _ names texts _ =>
      refine halone rfl names ?_
      rw [texts, if_pos rfl, hempty, List.nil_append]
    | restarts _ _ names texts _ =>
      refine halone rfl names ?_
      rw [texts, if_pos rfl, if_pos hmode, List.nil_append]
    | @rolls w' _ keeps slid active rest _ =>
      have hname' : w'.fs.names (cfg.slot 1) = some i := by
        rcases Nat.lt_or_eq_of_le (show 1 ≤ cfg.kept by omega) with hlt | heq
        · rw [slid.next 0 hlt, cfg.slot_zero, hbase]
        · rw [slid.last 0 (by omega), cfg.slot_zero, hbase, Option.some_or]
      have hcontent : w'.fs.content i = [] := by
        rw [← FileSystem.texts_eq hname', rest _ (cfg.slot_ne_base (by omega)),
          @FileSystem.texts_eq _ { (readied cfg s.world).fs with names := w'.fs.names } _ _ hname',
          ← FileSystem.texts_eq hbase, hempty]
      refine hgone hcontent fun _ hi => ?_
      rw [streamInode_eq hw' (hstream rfl)] at hi
      rw [FileSystem.texts_eq hi, hcontent] at active
      exact absurd active (by simp)
  · have hready : readied cfg s.world = s.world := by rw [readied, hs]
    obtain ⟨g, hg, hbuffer, hname'⟩ := hw.inode hs
    obtain rfl := Option.some.inj (hlive.symm.trans hg)
    have hfull : Full cfg (readied cfg s.world) c := by
      refine ⟨m, b, msg, hkind, hm, hmsg, ?_⟩
      rw [FileSystem.sync_eq_self hlive hbuffer] at hdue
      rw [hready, logSize, FileSystem.texts_eq hname']
      exact hdue
    have hkept : cfg.kept = 0 := by
      have hb : ¬ 0 < b := fun hb => hback ⟨hb, hc _⟩
      have hkept : cfg.kept = b.toNat := by rw [FileConfig.kept, hkind]
      omega
    cases hturn with
    | refused unformatted _ _ =>
      refine absurd (fun m' b' hk' _ => ?_) unformatted
      exact ⟨msg, hmsg⟩
    | stays fits _ _ _ => exact absurd hfull fits
    | rolls _ keeps _ _ _ _ => omega
    | restarts _ _ names texts _ =>
      refine halone rfl names ?_
      rw [texts, if_pos rfl, if_pos hmode, List.nil_append]

/-- **What the backend wrote stays**, in the runs whose calls open in mode `"w"` only a
file that it has not written to: every text stays in its file, whatever else fails; and
without trouble the texts followed by `k` rollovers are at the end of slot `k`. A clean
call that does not spare them leaves some text in no place. -/
theorem own_output_survives (hk : cfg.Numbered) :
    (∀ s, (machine cfg).Reachable (fun s act => act.Undisturbed cfg ∧ Spares cfg s act) s →
      Intact s) ∧
    (∀ s, (machine cfg).Reachable (fun s act => act.Untroubled cfg ∧ Spares cfg s act) s →
      ∀ k, k ≤ cfg.kept → (s.written.filter fun e => age cfg s e = k).map Written.text <:+
        s.world.fs.texts (cfg.slot k)) ∧
    ∀ s, (machine cfg).Reachable (fun s act => act.Untroubled cfg ∧ Spares cfg s act) s →
      ∀ c, c.Clean → ∀ t, FileRun.step cfg s (.write c) = some t →
        (Intact t ↔ Spares cfg s (.write c)) := by
  have hintact : ∀ s, (machine cfg).Reachable
      (fun s act => act.Undisturbed cfg ∧ Spares cfg s act) s →
      Held cfg s.world ∧ Holds (ours s) s.world.fs := fun s h => by
    refine Machine.invariant (I := fun s => Held cfg s.world ∧ Holds (ours s) s.world.fs)
      (fun s hs => ⟨(held_init hs).1, holds_init hs⟩) ?_ h
    rintro s act t ⟨hw, hs⟩ ⟨ha, hspares⟩ hstep
    exact intact_step hk hw hs ha hspares hstep
  have hplaced : ∀ s, (machine cfg).Reachable
      (fun s act => act.Untroubled cfg ∧ Spares cfg s act) s →
      Tidy cfg s.world ∧ ∃ a, Placed cfg s a := fun s h => by
    refine Machine.invariant (I := fun s => Tidy cfg s.world ∧ ∃ a, Placed cfg s a)
      (fun s hs => ⟨tidy_init hs, .empty, ?_⟩) ?_ h
    · obtain ⟨fs, at₀, -, -, rfl⟩ := hs
      exact ⟨⟨rfl, fun _ he => absurd he (by simp)⟩, fun _ _ => List.nil_suffix,
        fun _ he => absurd he (by simp)⟩
    · rintro s act t ⟨hw, a, hs⟩ ⟨ha, hspares⟩ hstep
      exact placed_step hk hw hs ha hspares hstep
  refine ⟨fun s h => (hintact s h).2.inside, fun s h k hkept => ?_, fun s h c hc t hstep => ?_⟩
  · obtain ⟨-, a, hs⟩ := hplaced s h
    have := hs.texts k hkept
    rw [Archive.shelf, hs.dated.entries, List.filter_map, List.map_map] at this
    exact this
  · obtain ⟨hw, -⟩ := hplaced s h
    constructor
    · intro ht d hd hcut
      obtain rfl := Act.write.inj hd
      by_contra hours
      exact not_intact hk hw hc hcut hours hstep ht
    · intro hspares
      obtain ⟨hheld, hs⟩ := hintact s (h.mono fun _ _ hok => ⟨hok.1.1, hok.2⟩)
      have hund : Act.Undisturbed cfg (.write c) := trivial
      exact (intact_step hk hheld hs hund hspares hstep).2.inside

/-- A log that is written anew. -/
def newLog : FileConfig := ⟨.plain, ⟨true, [.down "var"], "app.log"⟩, .truncate, []⟩

/-- The first record finds nothing of the backend's. -/
theorem own_output_survives_first :
    ∃ t, FileRun.step newLog empty (.write (line "alpha")) = some t ∧ Intact t ∧
      t.written.length = 1 := by
  refine ⟨_, rfl, (@own_output_survives newLog (.inl rfl)).1 _ ?_, rfl⟩
  refine (Machine.Reachable.init (empty_init newLog rfl)).step (a := .write (line "alpha"))
    ⟨trivial, fun _ _ _ i _ => rfl⟩ rfl

/-- A restart cuts the log file short. -/
theorem own_output_lost :
    ¬ ∀ cfg : FileConfig, cfg.Numbered → ∀ s,
      (machine cfg).Reachable (fun _ act => act.Untroubled cfg) s → Intact s := by
  intro hall
  have hrun : ∃ s, (machine newLog).Reaches (fun _ act => act.Untroubled newLog) empty s ∧
      ours s 0 = ["alpha\n", "bravo\n"] ∧ s.world.fs.content 0 = ["bravo\n"] :=
    ⟨_, (((Machine.Reaches.refl empty).tail (untroubled_line _ "alpha") rfl).tail
      (untroubled_close _) rfl).tail (untroubled_line _ "bravo") rfl, rfl, rfl⟩
  obtain ⟨s, hrun, hours, hcontent⟩ := hrun
  have hintact := hall newLog (.inl rfl) s ⟨_, empty_init newLog rfl, hrun⟩ 0
  rw [hours, hcontent] at hintact
  exact absurd hintact.length_le (by decide)

end FileRun

end ScietexLogging
