import ScietexLogging.File.Model

/-!
# File — what a call can do

For each function of the file backends, the ways it can end, with the state it
leaves. Later modules read these lemmas and do not look into the functions again.
-/

namespace ScietexLogging

open Posix

namespace FileBackend

variable {α : Type} {cfg : FileConfig} {c : WriteCall} {w w' : FileWorld} {goes : Bool}

-- ---------------------------------------------------------------------------
-- Operations of the file system
-- ---------------------------------------------------------------------------

theorem exec_onSystem (goes : Bool) (e : IoError)
    (op : FileSystem AbsPath → Option (α × FileSystem AbsPath)) (w : FileWorld) :
    (onSystem goes e op).exec w =
      if goes then
        match op w.fs with
        | some (a, fs) => (.ok a, { w with fs := fs })
        | none => (.error e, w)
      else (.error .osError, w) := by
  rw [onSystem, Prog.exec_bind, Prog.exec_get]
  cases goes with
  | false => rfl
  | true =>
    show Prog.exec (match op w.fs with | some (a, fs) => _ | none => _) w = _
    cases op w.fs with
    | none => rfl
    | some p => rfl

@[simp] theorem exec_found (goes : Bool) (p : AbsPath) (w : FileWorld) :
    (found goes p).exec w = (.ok (goes && (w.fs.names p).isSome), w) := rfl

theorem exec_openPath (goes : Bool) (mode : OpenMode) (p : AbsPath) (w : FileWorld) :
    (openPath goes mode p).exec w =
      if goes then (.ok w.fs.opened, { w with fs := w.fs.openFile mode p })
      else (.error .osError, w) := by
  rw [openPath, exec_onSystem]

@[simp] theorem exec_setStream (h : Option Nat) (w : FileWorld) :
    (setStream h).exec w = (.ok (), { w with stream := h }) := rfl

@[simp] theorem exec_setManaged (h : Option Nat) (w : FileWorld) :
    (setManaged h).exec w = (.ok (), { w with managed := h }) := rfl

-- ---------------------------------------------------------------------------
-- Opening and writing
-- ---------------------------------------------------------------------------

/-- The world after `_open_stream` has opened the file. -/
def opened (cfg : FileConfig) (w : FileWorld) : FileWorld :=
  { w with
    fs := w.fs.openFile cfg.openMode (cfg.filename.resolve w.cwd)
    stream := some w.fs.opened }

/-- The ways `_open_stream` ends. -/
inductive Opens (cfg : FileConfig) (goes : Bool) (w : FileWorld) :
    Except IoError Nat → FileWorld → Prop
  | has {h : Nat} (stream : w.stream = some h) : Opens cfg goes w (.ok h) w
  | opens (stream : w.stream = none) (go : goes = true) :
      Opens cfg goes w (.ok w.fs.opened) (opened cfg w)
  | fails (stream : w.stream = none) (stay : goes = false) : Opens cfg goes w (.error .osError) w

theorem openStream_opens {r : Except IoError Nat} (h : (openStream cfg goes).exec w = (r, w')) :
    Opens cfg goes w r w' := by
  rw [openStream, Prog.exec_bind, Prog.exec_get] at h
  cases hw : w.stream with
  | some k =>
    simp only [hw] at h
    obtain ⟨rfl, rfl⟩ := Prod.mk.inj h
    exact .has hw
  | none =>
    simp only [hw] at h
    rw [Prog.exec_bind, exec_openPath] at h
    cases goes with
    | true =>
      obtain ⟨rfl, rfl⟩ := Prod.mk.inj h
      exact .opens hw rfl
    | false =>
      obtain ⟨rfl, rfl⟩ := Prod.mk.inj h
      exact .fails hw rfl

/-- The ways the write of the text and its flush end. -/
inductive Puts (c : WriteCall) (h : Nat) (w : FileWorld) : Except IoError Unit → FileWorld → Prop
  | refused {e : IoError} (why : c.goes .write = false ∨ w.fs.live h = none) :
      Puts c h w (.error e) w
  | unflushed {f : OpenFile AbsPath} (live : w.fs.live h = some f) (go : c.goes .write = true)
      (stay : c.goes .flush = false) :
      Puts c h w (.error .osError)
        { w with fs := { w.fs with
            file := Function.update w.fs.file h (some { f with buffer := f.buffer ++ [c.text] }) } }
  | done {f : OpenFile AbsPath} (live : w.fs.live h = some f) (go : c.goes .write = true)
      (go' : c.goes .flush = true) :
      Puts c h w (.ok ())
        { w with fs := w.fs.sync h { f with buffer := f.buffer ++ [c.text] } false }

theorem writeText_puts {h : Nat} {r : Except IoError Unit} (hw : (writeText c h).exec w = (r, w')) :
    Puts c h w r w' := by
  rw [writeText, Prog.exec_bind, exec_onSystem] at hw
  cases hgo : c.goes .write with
  | false =>
    simp only [hgo, Bool.false_eq_true, if_false] at hw
    obtain ⟨rfl, rfl⟩ := Prod.mk.inj hw
    exact .refused (.inl hgo)
  | true =>
    simp only [hgo, if_true, FileSystem.write] at hw
    cases hlive : w.fs.live h with
    | none =>
      simp only [hlive, Option.map_none] at hw
      obtain ⟨rfl, rfl⟩ := Prod.mk.inj hw
      exact .refused (.inr hlive)
    | some f =>
      simp only [hlive, Option.map_some] at hw
      rw [exec_onSystem] at hw
      cases hgo' : c.goes .flush with
      | false =>
        simp only [hgo', Bool.false_eq_true, if_false] at hw
        obtain ⟨rfl, rfl⟩ := Prod.mk.inj hw
        exact .unflushed hlive hgo hgo'
      | true =>
        have hopen := (FileSystem.live_eq_some.mp hlive).2
        simp only [hgo', if_true, FileSystem.flush, FileSystem.live, Function.update_self,
          Option.filter_some, hopen, Bool.not_false, Option.map_some, FileSystem.sync,
          Function.update_idem] at hw
        obtain ⟨rfl, rfl⟩ := Prod.mk.inj hw
        exact .done hlive hgo hgo'

-- ---------------------------------------------------------------------------
-- Rollovers
-- ---------------------------------------------------------------------------

/-- Only names have changed. -/
structure Renamed (w w' : FileWorld) : Prop where
  rest : w' = { w with fs := { w.fs with names := w'.fs.names } }
  sound : w.fs.Sound → w'.fs.Sound

theorem Renamed.refl (w : FileWorld) : Renamed w w := ⟨rfl, id⟩

theorem Renamed.trans (u v w : FileWorld) (h : Renamed u v) (h' : Renamed v w) : Renamed u w := by
  refine ⟨?_, fun hs => h'.sound (h.sound hs)⟩
  rw [h'.rest, h.rest]

theorem removePath_renamed (goes : Bool) (p : AbsPath) :
    Prog.Moves Renamed (removePath goes p) := by
  intro w
  rw [removePath, exec_onSystem]
  split
  · cases hr : w.fs.remove p with
    | none => exact .refl w
    | some fs =>
      refine ⟨?_, fun hs => hs.remove hr⟩
      obtain ⟨i, -, rfl⟩ := Option.map_eq_some_iff.mp hr
      rfl
  · exact .refl w

theorem renamePath_renamed (goes : Bool) (src dst : AbsPath) :
    Prog.Moves Renamed (renamePath goes src dst) := by
  intro w
  rw [renamePath, exec_onSystem]
  split
  · cases hr : w.fs.rename src dst with
    | none => exact .refl w
    | some fs =>
      refine ⟨?_, fun hs => hs.rename hr⟩
      obtain ⟨i, -, rfl⟩ := Option.map_eq_some_iff.mp hr
      rfl
  · exact .refl w

theorem found_renamed (goes : Bool) (p : AbsPath) : Prog.Moves Renamed (found goes p) := .refl

theorem removeIfFound_renamed (goes goes' : Bool) (p : AbsPath) :
    Prog.Moves Renamed (removeIfFound goes goes' p) :=
  .bind Renamed.trans (found_renamed goes p) fun _ =>
    .ite (removePath_renamed goes' p) (.pure Renamed.refl ())

theorem rotate_renamed (cfg : FileConfig) (c : WriteCall) (dfn : AbsPath) :
    Prog.Moves Renamed (rotate cfg c dfn) :=
  .bind Renamed.trans (found_renamed _ _) fun _ =>
    .ite (renamePath_renamed _ _ dfn) (.pure Renamed.refl ())

theorem moveBackups_renamed (cfg : FileConfig) (c : WriteCall) (n : Nat) :
    Prog.Moves Renamed (moveBackups cfg c n) := by
  induction n with
  | zero => exact .pure Renamed.refl ()
  | succ n ih =>
    refine .bind Renamed.trans ?_ fun _ => ih
    refine .bind Renamed.trans (found_renamed _ _) fun _ => .ite ?_ (.pure Renamed.refl ())
    exact .bind Renamed.trans (removeIfFound_renamed _ _ _) fun _ => renamePath_renamed _ _ _

theorem makeBackups_renamed (cfg : FileConfig) (c : WriteCall) (backupCount : Int) :
    Prog.Moves Renamed (makeBackups cfg c backupCount) := by
  refine .ite ?_ (.pure Renamed.refl ())
  refine .bind Renamed.trans (moveBackups_renamed cfg c _) fun _ => ?_
  exact .bind Renamed.trans (removeIfFound_renamed _ _ _) fun _ => rotate_renamed cfg c _

theorem removeExpired_renamed (c : WriteCall) (k : Nat) (ps : List AbsPath) :
    Prog.Moves Renamed (removeExpired c k ps) := by
  induction ps generalizing k with
  | nil => exact .pure Renamed.refl ()
  | cons p ps ih => exact .bind Renamed.trans (removePath_renamed _ p) fun _ => ih (k + 1)

/-- The standard library has closed the stream and forgotten it. -/
def closedManaged (h : Nat) (w : FileWorld) : FileWorld :=
  { w with fs := w.fs.close h, managed := none }

/-- The ways `doRollover` ends: the stream is closed in each. -/
inductive RollsOver (h : Nat) (w : FileWorld) : Except IoError Unit → FileWorld → Prop
  | done {v : FileWorld} (renamed : Renamed (closedManaged h w) v) (at₁ : Int) :
      RollsOver h w (.ok ()) { v with rolloverAt := at₁, rollovers := v.rollovers + 1 }
  | fails {e : IoError} {v : FileWorld} (renamed : Renamed (closedManaged h w) v) :
      RollsOver h w (.error e) v

theorem exec_closeManaged {h : Nat} (hm : w.managed = some h) :
    closeManaged.exec w = (.ok (), closedManaged h w) := by
  rw [closeManaged, Prog.exec_modify, hm]
  rfl

theorem rollSize_rollsOver {h : Nat} {backupCount : Int} {r : Except IoError Unit}
    (hm : w.managed = some h) (hw : (rollSize cfg c backupCount).exec w = (r, w')) :
    RollsOver h w r w' := by
  rw [rollSize, Prog.exec_bind, exec_closeManaged hm] at hw
  have hmoves := makeBackups_renamed cfg c backupCount (closedManaged h w)
  rcases Prog.bind_cases hw with ⟨a, u, hu, hend⟩ | ⟨e, he, rfl⟩
  · rw [hu] at hmoves
    obtain ⟨rfl, rfl⟩ := Prod.mk.inj hend
    exact .done hmoves u.rolloverAt
  · rw [he] at hmoves
    exact .fails hmoves

theorem rollTime_rollsOver {h : Nat} {o : TimedOptions} {r : Except IoError Unit}
    (hm : w.managed = some h) (hw : (rollTime cfg c o).exec w = (r, w')) :
    RollsOver h w r w' := by
  rw [rollTime, Prog.exec_bind, exec_closeManaged hm] at hw
  dsimp only at hw
  rw [Prog.exec_bind, Prog.exec_get] at hw
  dsimp only at hw
  generalize cfg.baseFilename.suffixed (o.suffix ((closedManaged h w).rolloverAt - o.interval)) = dfn
    at hw
  have hremove := removeIfFound_renamed (c.goes .findTarget) (c.goes .removeTarget) dfn
    (closedManaged h w)
  rcases Prog.bind_cases hw with ⟨a, u, hu, hw⟩ | ⟨e, he, rfl⟩
  · rw [hu] at hremove
    have hrotate := rotate_renamed cfg c dfn u
    rcases Prog.bind_cases hw with ⟨b, v, hv, hw⟩ | ⟨e, he, rfl⟩
    · rw [hv] at hrotate
      rw [Prog.exec_bind, Prog.exec_get] at hw
      have hexpire := removeExpired_renamed c 0 (o.filesToDelete v.fs) v
      rcases Prog.bind_cases hw with ⟨d, x, hx, hend⟩ | ⟨e, he, rfl⟩
      · rw [hx] at hexpire
        obtain ⟨rfl, rfl⟩ := Prod.mk.inj hend
        exact .done ((hremove.trans _ _ _ hrotate).trans _ _ _ hexpire) _
      · rw [he] at hexpire
        exact .fails ((hremove.trans _ _ _ hrotate).trans _ _ _ hexpire)
    · rw [he] at hrotate
      exact .fails (hremove.trans _ _ _ hrotate)
  · rw [he] at hremove
    exact .fails hremove

/-- The ways `shouldRollover` ends, for a stream that it knows. -/
inductive Decides (h : Nat) (w : FileWorld) : Except IoError Bool → FileWorld → Prop
  | keeps (b : Bool) : Decides h w (.ok b) w
  | raises (e : IoError) : Decides h w (.error e) w
  | seeks {f : OpenFile AbsPath} (live : w.fs.live h = some f) (b : Bool) :
      Decides h w (.ok b) { w with fs := w.fs.sync h f false }

theorem timeReached_eq (c : WriteCall) (w : FileWorld) :
    (timeReached c).exec w = (.ok (decide (w.rolloverAt ≤ c.now)), w) := rfl

/-- `shouldRollover` of the rotator, by its own format. -/
inductive Sizes (c : WriteCall) (maxBytes : Int) (h : Nat) (w : FileWorld) :
    Except IoError Bool → FileWorld → Prop
  | unlimited (limit : maxBytes ≤ 0) : Sizes c maxBytes h w (.ok false) w
  | unformatted {exc : String} (limit : 0 < maxBytes) (format : defaultFormat c.record = .error exc) :
      Sizes c maxBytes h w (.error (.formatError exc)) w
  | unsought {e : IoError} (limit : 0 < maxBytes)
      (why : c.goes .seek = false ∨ w.fs.live h = none) : Sizes c maxBytes h w (.error e) w
  | sought {msg : String} {f : OpenFile AbsPath} (limit : 0 < maxBytes)
      (format : defaultFormat c.record = .ok msg) (go : c.goes .seek = true)
      (live : w.fs.live h = some f) :
      Sizes c maxBytes h w
        (.ok (decide (maxBytes ≤ ((w.fs.sync h f false).size f.inode : Int) + (msg.length + 1))))
        { w with fs := w.fs.sync h f false }

theorem sizeReached_sizes {h : Nat} {maxBytes : Int} {r : Except IoError Bool}
    (hm : w.managed = some h) (hw : (sizeReached c maxBytes).exec w = (r, w')) :
    Sizes c maxBytes h w r w' := by
  unfold sizeReached at hw
  split at hw
  · rename_i hlimit
    split at hw
    · rename_i exc hformat
      obtain ⟨rfl, rfl⟩ := Prod.mk.inj hw
      exact .unformatted hlimit hformat
    · rename_i msg hformat
      rw [Prog.exec_bind, Prog.exec_get] at hw
      simp only [hm] at hw
      rw [Prog.exec_bind, exec_onSystem] at hw
      cases hgo : c.goes .seek with
      | false =>
        simp only [hgo, Bool.false_eq_true, if_false] at hw
        obtain ⟨rfl, rfl⟩ := Prod.mk.inj hw
        exact .unsought hlimit (.inl hgo)
      | true =>
        cases hlive : w.fs.live h with
        | none =>
          simp only [hgo, if_true, FileSystem.seekEnd, hlive, Option.map_none] at hw
          obtain ⟨rfl, rfl⟩ := Prod.mk.inj hw
          exact .unsought hlimit (.inr hlive)
        | some f =>
          simp only [hgo, if_true, FileSystem.seekEnd, hlive, Option.map_some] at hw
          obtain ⟨rfl, rfl⟩ := Prod.mk.inj hw
          exact .sought hlimit hformat hgo hlive
  · rename_i hlimit
    obtain ⟨rfl, rfl⟩ := Prod.mk.inj hw
    exact .unlimited (by omega)

/-- The rotator's decision to roll over, for a stream that is there and live. -/
def SizeDue (maxBytes : Int) (w : FileWorld) (c : WriteCall) : Prop :=
  ∃ msg h f, 0 < maxBytes ∧ defaultFormat c.record = .ok msg ∧ w.stream = some h ∧
    w.fs.live h = some f ∧
    maxBytes ≤ ((w.fs.sync h f false).size f.inode : Int) + (msg.length + 1)

theorem Sizes.due_iff {maxBytes : Int} {h : Nat} {b : Bool} (hs : w.stream = some h)
    (hd : Sizes c maxBytes h { w with managed := some h } (.ok b) w') :
    b = true ↔ SizeDue maxBytes w c := by
  generalize hq : (Except.ok b : Except IoError Bool) = q at hd
  cases hd with
  | unlimited limit =>
    obtain rfl := Except.ok.inj hq
    refine ⟨fun h => absurd h (by simp), ?_⟩
    rintro ⟨msg, k, f, hpos, -⟩
    omega
  | unformatted _ _ => exact absurd hq (by simp)
  | unsought _ _ => exact absurd hq (by simp)
  | @sought msg f limit format _ live =>
    rw [Except.ok.inj hq, decide_eq_true_eq]
    constructor
    · exact fun hle => ⟨msg, h, f, limit, format, hs, live, hle⟩
    · rintro ⟨msg', k, f', -, format', hs', live', hle⟩
      obtain rfl := Except.ok.inj (format.symm.trans format')
      obtain rfl := Option.some.inj (hs.symm.trans hs')
      obtain rfl := Option.some.inj (show some f' = some f from live'.symm.trans live)
      exact hle

theorem Sizes.decides {h : Nat} {maxBytes : Int} {r : Except IoError Bool}
    (hs : Sizes c maxBytes h w r w') : Decides h w r w' := by
  cases hs with
  | unlimited _ => exact .keeps false
  | unformatted _ _ => exact .raises _
  | unsought _ _ => exact .raises _
  | sought _ _ _ live => exact .seeks live _

-- ---------------------------------------------------------------------------
-- reopenIfNeeded
-- ---------------------------------------------------------------------------

/-- The old stream flushed, closed and forgotten. -/
def released (h : Nat) (f : OpenFile AbsPath) (w : FileWorld) : FileWorld :=
  closedManaged h { w with fs := w.fs.sync h f false }

/-- The watcher has opened the file anew. -/
def adopted (cfg : FileConfig) (w : FileWorld) : FileWorld :=
  { w with
    fs := w.fs.openFile cfg.openMode cfg.baseFilename
    managed := some w.fs.opened }

/-- The path is not there, or not for the file remembered. -/
def Moved (cfg : FileConfig) (w : FileWorld) : Prop :=
  w.fs.names cfg.baseFilename = none ∨ w.fs.names cfg.baseFilename ≠ w.ino

/-- The ways `reopenIfNeeded` ends. -/
inductive Reopens (cfg : FileConfig) (c : WriteCall) (h : Nat) (w : FileWorld) :
    Except IoError Unit → FileWorld → Prop
  | unseen (stay : c.goes .stat = false) : Reopens cfg c h w (.error .osError) w
  | same (unmoved : ¬ Moved cfg w) (go : c.goes .stat = true) : Reopens cfg c h w (.ok ()) w
  | unflushed {e : IoError} (moved : Moved cfg w)
      (why : c.goes .flushOld = false ∨ w.fs.live h = none) : Reopens cfg c h w (.error e) w
  | unopened {f : OpenFile AbsPath} (moved : Moved cfg w) (live : w.fs.live h = some f)
      (stay : c.goes .openNew = false) : Reopens cfg c h w (.error .osError) (released h f w)
  | unknown {e : IoError} {f : OpenFile AbsPath} (moved : Moved cfg w) (live : w.fs.live h = some f)
      (go : c.goes .openNew = true) (stay : c.goes .fstat = false) :
      Reopens cfg c h w (.error e) (adopted cfg (released h f w))
  | reopens {f : OpenFile AbsPath} (moved : Moved cfg w) (live : w.fs.live h = some f)
      (go : c.goes .openNew = true) (go' : c.goes .fstat = true) :
      Reopens cfg c h w (.ok ())
        { adopted cfg (released h f w) with
          ino := some ((released h f w).fs.openInode cfg.baseFilename) }

theorem reopenIfNeeded_reopens {h : Nat} {r : Except IoError Unit} (hm : w.managed = some h)
    (hw : (reopenIfNeeded cfg c).exec w = (r, w')) : Reopens cfg c h w r w' := by
  rw [reopenIfNeeded, Prog.exec_bind, Prog.exec_get] at hw
  simp only [hm] at hw
  rw [Prog.exec_bind, exec_onSystem] at hw
  cases hstat : c.goes .stat with
  | false =>
    simp only [hstat, Bool.false_eq_true, if_false] at hw
    obtain ⟨rfl, rfl⟩ := Prod.mk.inj hw
    exact .unseen hstat
  | true =>
    simp only [hstat, if_true] at hw
    by_cases hmoved : w.fs.names cfg.baseFilename = none ∨ w.fs.names cfg.baseFilename ≠ w.ino
    · rw [if_pos hmoved, Prog.exec_bind, exec_onSystem] at hw
      cases hflush : c.goes .flushOld with
      | false =>
        simp only [hflush, Bool.false_eq_true, if_false] at hw
        obtain ⟨rfl, rfl⟩ := Prod.mk.inj hw
        exact .unflushed hmoved (.inl hflush)
      | true =>
        cases hlive : w.fs.live h with
        | none =>
          simp only [hflush, if_true, FileSystem.flush, hlive, Option.map_none] at hw
          obtain ⟨rfl, rfl⟩ := Prod.mk.inj hw
          exact .unflushed hmoved (.inr hlive)
        | some f =>
          simp only [hflush, if_true, FileSystem.flush, hlive, Option.map_some] at hw
          rw [Prog.exec_bind, exec_closeManaged (w := { w with fs := w.fs.sync h f false }) hm] at hw
          change (do
            let k ← openPath (c.goes .openNew) cfg.openMode cfg.baseFilename
            _ : FileM Unit).exec (released h f w) = _ at hw
          rw [Prog.exec_bind, exec_openPath] at hw
          cases hopen : c.goes .openNew with
          | false =>
            simp only [hopen, Bool.false_eq_true, if_false] at hw
            obtain ⟨rfl, rfl⟩ := Prod.mk.inj hw
            exact .unopened hmoved hlive hopen
          | true =>
            simp only [hopen, if_true] at hw
            rw [Prog.exec_bind, exec_setManaged] at hw
            change (do
              let k ← onSystem (c.goes .fstat) .valueError _
              _ : FileM Unit).exec (adopted cfg (released h f w)) = _ at hw
            rw [Prog.exec_bind, exec_onSystem] at hw
            cases hfstat : c.goes .fstat with
            | false =>
              simp only [hfstat, Bool.false_eq_true, if_false] at hw
              obtain ⟨rfl, rfl⟩ := Prod.mk.inj hw
              exact .unknown hmoved hlive hopen hfstat
            | true =>
              simp only [hfstat, if_true, FileSystem.inodeOf, adopted, FileSystem.live_openFile,
                Option.map_some] at hw
              obtain ⟨rfl, rfl⟩ := Prod.mk.inj hw
              exact .reopens hmoved hlive hopen hfstat
    · rw [if_neg hmoved] at hw
      obtain ⟨rfl, rfl⟩ := Prod.mk.inj hw
      exact .same hmoved hstat

-- ---------------------------------------------------------------------------
-- _write_record
-- ---------------------------------------------------------------------------

/-- The ways the `_write_record` of a rotation backend ends. -/
inductive Rolling (cfg : FileConfig) (c : WriteCall) (should : FileM Bool) (roll : FileM Unit)
    (w : FileWorld) : Except IoError Unit → FileWorld → Prop
  | unopened {e : IoError} {w₁ : FileWorld} (opens : Opens cfg (c.goes .open) w (.error e) w₁) :
      Rolling cfg c should roll w (.error e) w₁
  | undecided {h : Nat} {e : IoError} {w₁ w₂ : FileWorld}
      (opens : Opens cfg (c.goes .open) w (.ok h) w₁)
      (decide : should.exec { w₁ with managed := some h } = (.error e, w₂)) :
      Rolling cfg c should roll w (.error e) w₂
  | stays {h : Nat} {r : Except IoError Unit} {w₁ w₂ w₃ : FileWorld}
      (opens : Opens cfg (c.goes .open) w (.ok h) w₁)
      (decide : should.exec { w₁ with managed := some h } = (.ok false, w₂))
      (puts : Puts c h w₂ r w₃) : Rolling cfg c should roll w r w₃
  | unrolled {h : Nat} {e : IoError} {w₁ w₂ w₃ : FileWorld}
      (opens : Opens cfg (c.goes .open) w (.ok h) w₁)
      (decide : should.exec { w₁ with managed := some h } = (.ok true, w₂))
      (rolled : roll.exec w₂ = (.error e, w₃)) : Rolling cfg c should roll w (.error e) w₃
  | unreopened {h : Nat} {e : IoError} {w₁ w₂ w₃ w₄ : FileWorld}
      (opens : Opens cfg (c.goes .open) w (.ok h) w₁)
      (decide : should.exec { w₁ with managed := some h } = (.ok true, w₂))
      (rolled : roll.exec w₂ = (.ok (), w₃))
      (reopens : Opens cfg (c.goes .reopen) { w₃ with stream := none } (.error e) w₄) :
      Rolling cfg c should roll w (.error e) w₄
  | rolls {h h' : Nat} {r : Except IoError Unit} {w₁ w₂ w₃ w₄ w₅ : FileWorld}
      (opens : Opens cfg (c.goes .open) w (.ok h) w₁)
      (decide : should.exec { w₁ with managed := some h } = (.ok true, w₂))
      (rolled : roll.exec w₂ = (.ok (), w₃))
      (reopens : Opens cfg (c.goes .reopen) { w₃ with stream := none } (.ok h') w₄)
      (puts : Puts c h' w₄ r w₅) : Rolling cfg c should roll w r w₅

theorem writeRolling_rolling {should : FileM Bool} {roll : FileM Unit} {r : Except IoError Unit}
    (hw : (writeRolling cfg c should roll).exec w = (r, w')) : Rolling cfg c should roll w r w' := by
  rw [writeRolling] at hw
  rcases Prog.bind_cases hw with ⟨h, w₁, h₁, hw⟩ | ⟨e, h₁, rfl⟩
  · have hopens := openStream_opens h₁
    rw [Prog.exec_bind, exec_setManaged] at hw
    rcases Prog.bind_cases hw with ⟨b, w₂, h₂, hw⟩ | ⟨e, h₂, rfl⟩
    · cases b with
      | false => exact .stays hopens h₂ (writeText_puts hw)
      | true =>
        rcases Prog.bind_cases hw with ⟨h', w₄, h₄, hw⟩ | ⟨e, h₄, rfl⟩
        · rw [rollStream, if_pos rfl] at h₄
          rcases Prog.bind_cases h₄ with ⟨_, w₃, h₃, h₄⟩ | ⟨e, -, he⟩
          · exact .rolls hopens h₂ h₃ (openStream_opens h₄) (writeText_puts hw)
          · exact absurd he (by simp)
        · rw [rollStream, if_pos rfl] at h₄
          rcases Prog.bind_cases h₄ with ⟨_, w₃, h₃, h₄⟩ | ⟨e', h₃, he⟩
          · exact .unreopened hopens h₂ h₃ (openStream_opens h₄)
          · obtain rfl := Except.error.inj he
            exact .unrolled hopens h₂ h₃
    · exact .undecided hopens h₂
  · exact .unopened (openStream_opens h₁)

/-- The ways the `_write_record` of a watched backend ends. -/
inductive Watching (cfg : FileConfig) (c : WriteCall) (w : FileWorld) :
    Except IoError Unit → FileWorld → Prop
  | unopened {e : IoError} {w₁ : FileWorld} (opens : Opens cfg (c.goes .open) w (.error e) w₁) :
      Watching cfg c w (.error e) w₁
  | unchecked {h : Nat} {e : IoError} {w₁ w₂ : FileWorld}
      (opens : Opens cfg (c.goes .open) w (.ok h) w₁)
      (check : Reopens cfg c h { w₁ with managed := some h } (.error e) w₂) :
      Watching cfg c w (.error e) w₂
  | checked {h k : Nat} {r : Except IoError Unit} {w₁ w₂ w₃ : FileWorld}
      (opens : Opens cfg (c.goes .open) w (.ok h) w₁)
      (check : Reopens cfg c h { w₁ with managed := some h } (.ok ()) w₂)
      (managed : w₂.managed = some k) (puts : Puts c k { w₂ with stream := some k } r w₃) :
      Watching cfg c w r w₃

theorem writeWatched_watching {r : Except IoError Unit}
    (hw : (writeWatched cfg c).exec w = (r, w')) : Watching cfg c w r w' := by
  rw [writeWatched] at hw
  rcases Prog.bind_cases hw with ⟨h, w₁, h₁, hw⟩ | ⟨e, h₁, rfl⟩
  · have hopens := openStream_opens h₁
    rw [Prog.exec_bind, exec_setManaged] at hw
    rcases Prog.bind_cases hw with ⟨_, w₂, h₂, hw⟩ | ⟨e, h₂, rfl⟩
    · have hcheck := reopenIfNeeded_reopens (h := h) rfl h₂
      obtain ⟨k, hk⟩ : ∃ k, w₂.managed = some k := by
        cases hcheck with
        | same _ _ => exact ⟨h, rfl⟩
        | reopens _ _ _ _ => exact ⟨_, rfl⟩
      rw [Prog.exec_bind, Prog.exec_get] at hw
      dsimp only at hw
      have hadopt : ({ w₂ with stream := w₂.managed } : FileWorld) = { w₂ with stream := some k } :=
        congrArg (fun x => ({ w₂ with stream := x } : FileWorld)) hk
      rw [Prog.exec_bind, exec_setStream, hadopt] at hw
      -- the stream is there, so that the second `_open_stream` opens nothing
      rcases Prog.bind_cases hw with ⟨k', w₃, h₃, hw⟩ | ⟨e, h₃, rfl⟩
      · cases openStream_opens h₃ with
        | has stream =>
          obtain rfl := Option.some.inj stream
          exact .checked hopens hcheck hk (writeText_puts hw)
        | opens stream _ => exact absurd stream (by simp)
      · cases openStream_opens h₃ with
        | fails stream _ => exact absurd stream (by simp)
    · exact .unchecked hopens (reopenIfNeeded_reopens rfl h₂)
  · exact .unopened (openStream_opens h₁)

end FileBackend

end ScietexLogging
