import ScietexLogging.File.Backups

/-!
# File — the stream a backend holds

While nobody else touches the files, a live `_stream` is that of the file the path
names (`Held`); a call can only leave the backend with a stream that is closed
(`Stale`), by a rollover or a reopening that failed half way.
-/

namespace ScietexLogging

open Posix

/-- `_stream` refers to a stream that was closed. -/
def Stale (w : FileWorld) : Prop := ∃ h, w.stream = some h ∧ w.fs.live h = none

/-- What the backend holds, if anything, is a stream; a live one is that of the log
file. -/
structure Held (cfg : FileConfig) (w : FileWorld) : Prop where
  sound : w.fs.Sound
  held : ∀ h, w.stream = some h → ∃ f, w.fs.file h = some f
  meant : ∀ h f, w.stream = some h → w.fs.live h = some f →
    w.fs.names cfg.baseFilename = some f.inode
  here : cfg.filename.resolve w.cwd = cfg.baseFilename

namespace FileBackend

variable {cfg : FileConfig} {c : WriteCall} {w w' : FileWorld} {h : Nat} {goes : Bool}

end FileBackend

namespace Held

open FileBackend

variable {cfg : FileConfig} {c : WriteCall} {w w' : FileWorld} {h : Nat} {goes : Bool}

theorem managed (hw : Held cfg w) (x : Option Nat) : Held cfg { w with managed := x } :=
  ⟨hw.sound, hw.held, hw.meant, hw.here⟩

theorem opened (hw : Held cfg w) : Held cfg (opened cfg w) ∧ ¬ Stale (FileBackend.opened cfg w) := by
  have hlive : (FileBackend.opened cfg w).fs.live w.fs.opened = some _ :=
    FileSystem.live_openFile w.fs cfg.openMode (cfg.filename.resolve w.cwd)
  refine ⟨⟨hw.sound.openFile _ _, fun k hk => ?_, fun k f hk hf => ?_, hw.here⟩, ?_⟩
  · obtain rfl := Option.some.inj hk
    exact ⟨_, (FileSystem.live_eq_some.mp hlive).1⟩
  · obtain rfl := Option.some.inj hk
    obtain rfl := Option.some.inj (hf.symm.trans hlive)
    rw [← hw.here]
    exact FileSystem.openFile_names ..
  · rintro ⟨k, hk, hdead⟩
    obtain rfl := Option.some.inj hk
    rw [hdead] at hlive
    exact absurd hlive (by simp)

theorem opens {r : Except IoError Nat} (hw : Held cfg w) (ho : Opens cfg goes w r w') :
    Held cfg w' ∧ (Stale w' → Stale w) ∧ ∀ k, r = .ok k → w'.stream = some k := by
  cases ho with
  | has stream => exact ⟨hw, id, fun k hk => by rw [← Except.ok.inj hk, stream]⟩
  | opens _ _ => exact ⟨hw.opened.1, fun hs => absurd hs hw.opened.2, fun k hk => by
      rw [← Except.ok.inj hk]
      rfl⟩
  | fails _ _ => exact ⟨hw, id, fun k hk => absurd hk (by simp)⟩

/-- Its content has reached the file. -/
theorem sync (hw : Held cfg w) (hs : w.stream = some h) {f g : OpenFile AbsPath}
    (hl : w.fs.live h = some f) (hg : g.inode = f.inode) :
    Held cfg { w with fs := w.fs.sync h g false } ∧
      ¬ Stale { w with fs := w.fs.sync h g false } := by
  obtain ⟨hf, -⟩ := FileSystem.live_eq_some.mp hl
  refine ⟨⟨hw.sound.sync hf hg false, fun k hk => ?_, fun k x hk hx => ?_, hw.here⟩, ?_⟩
  · obtain rfl := Option.some.inj (hs.symm.trans hk)
    exact ⟨_, Function.update_self ..⟩
  · obtain rfl := Option.some.inj (hs.symm.trans hk)
    rw [FileSystem.live_sync] at hx
    rw [← Option.some.inj hx]
    show w.fs.names cfg.baseFilename = some g.inode
    rw [hg]
    exact hw.meant _ f hs hl
  · rintro ⟨k, hk, hdead⟩
    obtain rfl := Option.some.inj (hs.symm.trans hk)
    rw [FileSystem.live_sync] at hdead
    exact absurd hdead (by simp)

theorem decides {r : Except IoError Bool} (hw : Held cfg w) (hs : w.stream = some h)
    (hd : Decides h w r w') : Held cfg w' ∧ (Stale w' → Stale w) ∧ w'.stream = some h := by
  cases hd with
  | keeps _ => exact ⟨hw, id, hs⟩
  | raises _ => exact ⟨hw, id, hs⟩
  | seeks live _ =>
    obtain ⟨hw', hn⟩ := hw.sync hs live rfl
    exact ⟨hw', fun hst => absurd hst hn, hs⟩

theorem puts {r : Except IoError Unit} (hw : Held cfg w) (hs : w.stream = some h)
    (hp : Puts c h w r w') : Held cfg w' ∧ (Stale w' → Stale w) ∧
      (r = .ok () → (w'.fs.texts cfg.baseFilename).getLast? = some c.text) := by
  cases hp with
  | refused _ => exact ⟨hw, id, fun h => absurd h (by simp)⟩
  | @unflushed f live _ _ =>
    obtain ⟨hf, hopen⟩ := FileSystem.live_eq_some.mp live
    have hwrite : w.fs.write h c.text = some { w.fs with
        file := Function.update w.fs.file h (some { f with buffer := f.buffer ++ [c.text] }) } := by
      rw [FileSystem.write, live]
      rfl
    have hlive : FileSystem.live { w.fs with
        file := Function.update w.fs.file h (some { f with buffer := f.buffer ++ [c.text] }) } h =
          some { f with buffer := f.buffer ++ [c.text] } :=
      FileSystem.live_eq_some.mpr ⟨Function.update_self .., hopen⟩
    refine ⟨⟨hw.sound.write hwrite, fun k hk => ?_, fun k x hk hx => ?_, hw.here⟩, ?_, by simp⟩
    · obtain rfl := Option.some.inj (hs.symm.trans hk)
      exact ⟨_, Function.update_self ..⟩
    · obtain rfl := Option.some.inj (hs.symm.trans hk)
      obtain rfl := Option.some.inj (hx.symm.trans hlive)
      exact hw.meant _ f hs live
    · rintro ⟨k, hk, hdead⟩
      obtain rfl := Option.some.inj (hs.symm.trans hk)
      rw [hlive] at hdead
      exact absurd hdead (by simp)
  | @done f live _ _ =>
    obtain ⟨hw', hn⟩ := hw.sync hs live (g := { f with buffer := f.buffer ++ [c.text] }) rfl
    refine ⟨hw', fun hst => absurd hst hn, fun _ => ?_⟩
    have hname : (w.fs.sync h { f with buffer := f.buffer ++ [c.text] } false).names
        cfg.baseFilename = some f.inode := hw.meant h f hs live
    rw [FileSystem.texts, hname]
    exact FileSystem.getLast?_sync

/-- After `doRollover` the stream is closed, whether it raised or not. -/
theorem rollsOver {r : Except IoError Unit} (hw : Held cfg w) (hs : w.stream = some h)
    (hr : RollsOver h w r w') :
    Held cfg w' ∧ w'.stream = some h ∧ w'.fs.live h = none := by
  have hkey : ∀ v, Renamed (closedManaged h w) v → v.fs.Sound ∧ v.stream = some h ∧
      v.fs.live h = none ∧ v.fs.file = (w.fs.close h).file ∧ v.cwd = w.cwd := by
    intro v hv
    refine ⟨hv.sound (hw.sound.close h), ?_, ?_, ?_, ?_⟩
    · rw [hv.rest]
      exact hs
    · rw [hv.rest]
      exact FileSystem.live_close w.fs h
    · rw [hv.rest]
      rfl
    · rw [hv.rest]
      rfl
  have hfile : ∃ f, (w.fs.close h).file h = some f := by
    obtain ⟨f, hf⟩ := hw.held h hs
    unfold FileSystem.close
    split
    · exact ⟨_, Function.update_self ..⟩
    · exact ⟨f, hf⟩
  have hheld : ∀ v : FileWorld, v.fs.Sound → v.stream = some h → v.fs.live h = none →
      v.fs.file = (w.fs.close h).file → v.cwd = w.cwd → Held cfg v := by
    intro v hsound hstream hdead hsame hcwd
    refine ⟨hsound, fun k hk => ?_, fun k f hk hf => ?_, by rw [hcwd]; exact hw.here⟩
    · obtain rfl := Option.some.inj (hstream.symm.trans hk)
      rw [hsame]
      exact hfile
    · obtain rfl := Option.some.inj (hstream.symm.trans hk)
      rw [hdead] at hf
      exact absurd hf (by simp)
  cases hr with
  | @done v renamed at₁ =>
    obtain ⟨h₁, h₂, h₃, h₄, h₅⟩ := hkey v renamed
    exact ⟨hheld _ h₁ h₂ h₃ h₄ h₅, h₂, h₃⟩
  | fails renamed =>
    obtain ⟨h₁, h₂, h₃, h₄, h₅⟩ := hkey w' renamed
    exact ⟨hheld _ h₁ h₂ h₃ h₄ h₅, h₂, h₃⟩

/-- The old stream is closed, and `_stream` still refers to it. -/
theorem released (hw : Held cfg w) (hs : w.stream = some h) {f : OpenFile AbsPath}
    (hl : w.fs.live h = some f) :
    Held cfg (released h f w) ∧ (FileBackend.released h f w).fs.live h = none := by
  obtain ⟨hw', -⟩ := hw.sync hs hl (g := f) rfl
  have := hw'.rollsOver (h := h) hs (.fails (e := .osError) (Renamed.refl _))
  exact ⟨this.1, this.2.2⟩

/-- The watcher has a new stream of the log file, the backend has not. -/
theorem adopted (hw : Held cfg w) (hs : w.stream = some h) (hd : w.fs.live h = none) :
    Held cfg (adopted cfg w) ∧ (FileBackend.adopted cfg w).fs.live h = none ∧
      Held cfg { FileBackend.adopted cfg w with stream := some w.fs.opened } ∧
      ¬ Stale { FileBackend.adopted cfg w with stream := some w.fs.opened } := by
  obtain ⟨f, hf⟩ := hw.held h hs
  have hne : h ≠ w.fs.opened := fun heq => by
    have := (hw.sound.filed h f hf).1
    omega
  have hfile : (w.fs.openFile cfg.openMode cfg.baseFilename).file h = some f := by
    rw [show (w.fs.openFile cfg.openMode cfg.baseFilename).file h = _ from
      Function.update_of_ne hne .., hf]
  have hdead : (w.fs.openFile cfg.openMode cfg.baseFilename).live h = none := by
    rw [FileSystem.live_congr (hfile.trans hf.symm), hd]
  have hlive := FileSystem.live_openFile w.fs cfg.openMode cfg.baseFilename
  refine ⟨⟨hw.sound.openFile _ _, fun k hk => ?_, fun k x hk hx => ?_, hw.here⟩, hdead,
    ⟨hw.sound.openFile _ _, fun k hk => ?_, fun k x hk hx => ?_, hw.here⟩, ?_⟩
  · obtain rfl := Option.some.inj (hs.symm.trans hk)
    exact ⟨f, hfile⟩
  · obtain rfl := Option.some.inj (hs.symm.trans hk)
    exact absurd (hdead.symm.trans hx) (by simp)
  · obtain rfl := Option.some.inj hk
    exact ⟨_, (FileSystem.live_eq_some.mp hlive).1⟩
  · obtain rfl := Option.some.inj hk
    obtain rfl := Option.some.inj (hx.symm.trans hlive)
    exact FileSystem.openFile_names ..
  · rintro ⟨k, hk, hkd⟩
    obtain rfl := Option.some.inj hk
    exact absurd (hkd.symm.trans hlive) (by simp)

/-- A reopening that raises may leave the backend stale, by its open or its `fstat`;
one that returns leaves it with the watcher's stream. -/
theorem reopens {r : Except IoError Unit} (hw : Held cfg w) (hs : w.stream = some h)
    (hm : w.managed = some h) (hr : Reopens cfg c h w r w') :
    (∀ e, r = .error e → Held cfg w' ∧
      (Stale w' → Stale w ∨ c.goes .openNew = false ∨ c.goes .fstat = false)) ∧
    ∀ k, r = .ok () → w'.managed = some k → Held cfg { w' with stream := some k } ∧
      (Stale { w' with stream := some k } → Stale w) := by
  cases hr with
  | unseen _ => exact ⟨fun _ _ => ⟨hw, .inl⟩, fun _ h => absurd h (by simp)⟩
  | same _ _ =>
    refine ⟨fun _ h => absurd h (by simp), fun k _ hk => ?_⟩
    obtain rfl := Option.some.inj (hm.symm.trans hk)
    rw [← hs]
    exact ⟨hw, id⟩
  | unflushed _ _ => exact ⟨fun _ _ => ⟨hw, .inl⟩, fun _ h => absurd h (by simp)⟩
  | unopened _ live stay =>
    refine ⟨fun _ _ => ⟨(hw.released hs live).1, fun _ => .inr (.inl stay)⟩,
      fun _ h => absurd h (by simp)⟩
  | unknown _ live _ stay =>
    obtain ⟨hw', hd⟩ := hw.released hs live
    exact ⟨fun _ _ => ⟨(hw'.adopted hs hd).1, fun _ => .inr (.inr stay)⟩,
      fun _ h => absurd h (by simp)⟩
  | @reopens f _ live _ _ =>
    obtain ⟨hw', hd⟩ := hw.released hs live
    obtain ⟨-, -, hadopt, hfresh⟩ := hw'.adopted hs hd
    refine ⟨fun _ h => absurd h (by simp), fun k _ hk => ?_⟩
    obtain rfl := Option.some.inj hk
    exact ⟨⟨hadopt.sound, hadopt.held, hadopt.meant, hadopt.here⟩, fun hst => absurd hst hfresh⟩

/-- Without a stream there is nothing to hold. -/
theorem dropped (hw : Held cfg w) : Held cfg { w with stream := none } :=
  ⟨hw.sound, fun _ hk => absurd hk (by simp), fun _ _ hk => absurd hk (by simp), hw.here⟩

theorem close (hw : Held cfg w) : Held cfg (closeStream w) ∧ ¬ Stale (closeStream w) := by
  unfold closeStream
  split
  · refine ⟨⟨hw.sound.close _, fun _ hk => absurd hk (by simp), fun _ _ hk => absurd hk (by simp),
      hw.here⟩, ?_⟩
    rintro ⟨k, hk, -⟩
    exact absurd hk (by simp)
  · rename_i hnone
    refine ⟨hw, ?_⟩
    rintro ⟨k, hk, -⟩
    rw [hnone] at hk
    exact absurd hk (by simp)

end Held

end ScietexLogging
