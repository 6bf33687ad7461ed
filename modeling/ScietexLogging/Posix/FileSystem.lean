import Mathlib.Data.List.Basic
import Mathlib.Logic.Function.Basic

/-!
# Posix — files, names and open files

A directory gives names to inodes; an inode has a content, here the list of the
texts written to it. `open` makes a new open file, which goes on to mean its inode
whatever becomes of the name. What is written to an open file stays in its buffer
until a flush or the close.

Each operation is given as it goes when the system lets it go through; `none` says
that it cannot. An open file only ever writes at the end of its inode: it is the
only one that writes there.

* `FileSystem.Sound` — one name for each inode, and every number in use was given
  out;
* `FileSystem.Grows` — no content is ever cut short, except by an `open` that
  truncates.
-/

namespace Posix

/-- The modes `"a"` and `"w"`. -/
inductive OpenMode where
  | append
  | truncate
  deriving DecidableEq, Repr

structure OpenFile (π : Type) where
  path : π
  inode : Nat
  buffer : List String
  closed : Bool

structure FileSystem (π : Type) where
  names : π → Option Nat
  content : Nat → List String
  inodes : Nat
  file : Nat → Option (OpenFile π)
  opened : Nat

namespace FileSystem

variable {π : Type}

/-- The length of a file, in bytes. -/
def size (fs : FileSystem π) (i : Nat) : Nat := (String.join (fs.content i)).utf8ByteSize

/-- What is written to an open file reaches its inode. -/
def sync (fs : FileSystem π) (h : Nat) (f : OpenFile π) (closed : Bool) : FileSystem π :=
  { fs with
    content := Function.update fs.content f.inode (fs.content f.inode ++ f.buffer)
    file := Function.update fs.file h (some { f with buffer := [], closed := closed }) }

/-- The open file `h`, if it was not closed. -/
def live (fs : FileSystem π) (h : Nat) : Option (OpenFile π) :=
  (fs.file h).filter fun f => !f.closed

def write (fs : FileSystem π) (h : Nat) (text : String) : Option (FileSystem π) :=
  (fs.live h).map fun f =>
    { fs with file := Function.update fs.file h (some { f with buffer := f.buffer ++ [text] }) }

def flush (fs : FileSystem π) (h : Nat) : Option (FileSystem π) :=
  (fs.live h).map fun f => fs.sync h f false

/-- Closing again does nothing. -/
def close (fs : FileSystem π) (h : Nat) : FileSystem π :=
  match fs.live h with
  | some f => fs.sync h f true
  | none => fs

/-- `seek(0, 2)` and `tell()` -/
def seekEnd (fs : FileSystem π) (h : Nat) : Option (Nat × FileSystem π) :=
  (fs.live h).map fun f => ((fs.sync h f false).size f.inode, fs.sync h f false)

/-- The inode of an open file, `fstat`. -/
def inodeOf (fs : FileSystem π) (h : Nat) : Option Nat := (fs.live h).map OpenFile.inode

/-- The inode a name has after an `open`. -/
def openInode [DecidableEq π] (fs : FileSystem π) (p : π) : Nat := (fs.names p).getD fs.inodes

/-- The name is there afterwards, for a new inode if it was not. -/
def create [DecidableEq π] (fs : FileSystem π) (p : π) : FileSystem π :=
  { fs with
    names := Function.update fs.names p (some (fs.openInode p))
    inodes := if (fs.names p).isSome then fs.inodes else fs.inodes + 1 }

/-- `open`: the new open file is number `fs.opened`. -/
def openFile [DecidableEq π] (fs : FileSystem π) (mode : OpenMode) (p : π) : FileSystem π :=
  { fs.create p with
    content :=
      match mode with
      | .append => fs.content
      | .truncate => Function.update fs.content (fs.openInode p) []
    file := Function.update fs.file fs.opened (some ⟨p, fs.openInode p, [], false⟩)
    opened := fs.opened + 1 }

def rename [DecidableEq π] (fs : FileSystem π) (src dst : π) : Option (FileSystem π) :=
  (fs.names src).map fun i =>
    { fs with names := Function.update (Function.update fs.names src none) dst (some i) }

def remove [DecidableEq π] (fs : FileSystem π) (p : π) : Option (FileSystem π) :=
  (fs.names p).map fun _ => { fs with names := Function.update fs.names p none }

/-- The texts in the file of that name. -/
def texts (fs : FileSystem π) (p : π) : List String :=
  match fs.names p with
  | some i => fs.content i
  | none => []

-- ---------------------------------------------------------------------------
-- One name, one inode
-- ---------------------------------------------------------------------------

structure Sound (fs : FileSystem π) : Prop where
  named : ∀ p i, fs.names p = some i → i < fs.inodes
  single : ∀ p q i, fs.names p = some i → fs.names q = some i → p = q
  blank : ∀ i, fs.inodes ≤ i → fs.content i = []
  filed : ∀ h f, fs.file h = some f → h < fs.opened ∧ f.inode < fs.inodes

theorem live_eq_some {fs : FileSystem π} {h : Nat} {f : OpenFile π} :
    fs.live h = some f ↔ fs.file h = some f ∧ f.closed = false := by
  rw [live, Option.filter_eq_some_iff]
  simp

theorem live_eq_none {fs : FileSystem π} {h : Nat} :
    fs.live h = none ↔ ∀ f, fs.file h = some f → f.closed = true := by
  cases hf : fs.file h with
  | none => simp [live, hf]
  | some f => simp [live, hf]

/-- Only `file` matters. -/
theorem live_congr {fs fs' : FileSystem π} {h : Nat} (heq : fs.file h = fs'.file h) :
    fs.live h = fs'.live h := by
  rw [live, live, heq]

theorem live_sync {fs : FileSystem π} {h : Nat} (f : OpenFile π) :
    (fs.sync h f false).live h = some { f with buffer := [], closed := false } :=
  live_eq_some.mpr ⟨Function.update_self .., rfl⟩

theorem live_sync_closed {fs : FileSystem π} {h : Nat} (f : OpenFile π) :
    (fs.sync h f true).live h = none :=
  live_eq_none.mpr fun g hg => by
    rw [show (fs.sync h f true).file h = _ from Function.update_self ..] at hg
    rw [← Option.some.inj hg]

theorem live_close (fs : FileSystem π) (h : Nat) : (fs.close h).live h = none := by
  unfold close
  split
  · exact live_sync_closed _
  · assumption

@[simp] theorem close_names (fs : FileSystem π) (h : Nat) : (fs.close h).names = fs.names := by
  unfold close
  split
  · rfl
  · rfl

/-- A stream just opened is live. -/
theorem live_openFile [DecidableEq π] (fs : FileSystem π) (mode : OpenMode) (p : π) :
    (fs.openFile mode p).live fs.opened = some ⟨p, fs.openInode p, [], false⟩ :=
  live_eq_some.mpr ⟨Function.update_self .., rfl⟩

theorem openFile_names [DecidableEq π] (fs : FileSystem π) (mode : OpenMode) (p : π) :
    (fs.openFile mode p).names p = some (fs.openInode p) := Function.update_self ..

/-- A text written and flushed ends its file. -/
theorem getLast?_sync {fs : FileSystem π} {h : Nat} {f : OpenFile π} {text : String} {b : Bool} :
    ((fs.sync h { f with buffer := f.buffer ++ [text] } b).content f.inode).getLast? = some text := by
  simp [FileSystem.sync]

/-- No content is cut short. -/
def Grows (fs fs' : FileSystem π) : Prop := ∀ i, fs.content i <+: fs'.content i

theorem grows_sync (fs : FileSystem π) (h : Nat) (f : OpenFile π) (b : Bool) :
    fs.Grows (fs.sync h f b) := by
  intro i
  by_cases hi : i = f.inode
  · rw [hi, sync]
    simp only [Function.update_self]
    exact List.prefix_append _ _
  · simp only [sync, Function.update_of_ne hi]
    exact List.prefix_refl _

namespace Sound

variable {fs fs' : FileSystem π} {h : Nat} {f : OpenFile π}

theorem sync (hs : fs.Sound) (hf : fs.file h = some f) {g : OpenFile π} (hg : g.inode = f.inode)
    (b : Bool) : (fs.sync h g b).Sound := by
  obtain ⟨hlt, hin⟩ := hs.filed h f hf
  refine ⟨hs.named, hs.single, fun i hi => ?_, fun k x hk => ?_⟩
  · have hi' : fs.inodes ≤ i := hi
    simp only [FileSystem.sync]
    rw [Function.update_of_ne (by omega)]
    exact hs.blank i hi
  · simp only [FileSystem.sync] at hk ⊢
    by_cases hkh : k = h
    · subst hkh
      rw [Function.update_self] at hk
      obtain rfl := Option.some.inj hk
      exact ⟨hlt, hg ▸ hin⟩
    · rw [Function.update_of_ne hkh] at hk
      exact hs.filed k x hk

theorem write {text : String} (hs : fs.Sound) (hw : fs.write h text = some fs') : fs'.Sound := by
  obtain ⟨f, hf, rfl⟩ := Option.map_eq_some_iff.mp hw
  obtain ⟨hf, -⟩ := live_eq_some.mp hf
  refine ⟨hs.named, hs.single, hs.blank, fun k g hk => ?_⟩
  simp only at hk
  by_cases hkh : k = h
  · subst hkh
    rw [Function.update_self] at hk
    obtain rfl := Option.some.inj hk
    exact hs.filed k f hf
  · rw [Function.update_of_ne hkh] at hk
    exact hs.filed k g hk

theorem close (hs : fs.Sound) (h : Nat) : (fs.close h).Sound := by
  unfold FileSystem.close
  split
  · rename_i f hf
    exact hs.sync (live_eq_some.mp hf).1 rfl true
  · exact hs

variable [DecidableEq π]

theorem create (hs : fs.Sound) (p : π) :
    (fs.create p).Sound ∧ fs.inodes ≤ (fs.create p).inodes ∧
      fs.openInode p < (fs.create p).inodes := by
  have hle : fs.inodes ≤ (fs.create p).inodes := by
    simp only [FileSystem.create]
    split
    · exact Nat.le_refl _
    · exact Nat.le_succ _
  have hlt : fs.openInode p < (fs.create p).inodes := by
    cases hp : fs.names p with
    | some i =>
      have := hs.named p i hp
      simpa [FileSystem.create, openInode, hp] using this
    | none => simp [FileSystem.create, openInode, hp]
  -- the inode belongs to no other name
  have hother : ∀ q, q ≠ p → fs.names q ≠ some (fs.openInode p) := by
    intro q hq heq
    cases hp : fs.names p with
    | some i =>
      rw [openInode, hp] at heq
      exact hq (hs.single q p i heq hp)
    | none =>
      rw [openInode, hp] at heq
      exact Nat.lt_irrefl _ (hs.named q _ heq)
  have hself : (fs.create p).names p = some (fs.openInode p) := Function.update_self ..
  have hrest : ∀ q, q ≠ p → (fs.create p).names q = fs.names q :=
    fun q hq => Function.update_of_ne hq ..
  refine ⟨⟨fun q i hq => ?_, fun q r i hq hr => ?_, fun i hi => ?_, fun k g hk => ?_⟩, hle, hlt⟩
  · by_cases hqp : q = p
    · rw [hqp, hself] at hq
      rw [← Option.some.inj hq]
      exact hlt
    · rw [hrest q hqp] at hq
      exact Nat.lt_of_lt_of_le (hs.named q i hq) hle
  · by_cases hqp : q = p
    · by_cases hrp : r = p
      · rw [hqp, hrp]
      · rw [hqp, hself] at hq
        rw [hrest r hrp, ← Option.some.inj hq] at hr
        exact absurd hr (hother r hrp)
    · rw [hrest q hqp] at hq
      by_cases hrp : r = p
      · rw [hrp, hself] at hr
        rw [← Option.some.inj hr] at hq
        exact absurd hq (hother q hqp)
      · rw [hrest r hrp] at hr
        exact hs.single q r i hq hr
  · exact hs.blank i (Nat.le_trans hle hi)
  · obtain ⟨h₁, h₂⟩ := hs.filed k g hk
    exact ⟨h₁, Nat.lt_of_lt_of_le h₂ hle⟩

theorem openFile (hs : fs.Sound) (mode : OpenMode) (p : π) : (fs.openFile mode p).Sound := by
  obtain ⟨hc, hle, hlt⟩ := hs.create p
  refine ⟨hc.named, hc.single, fun i hi => ?_, fun k g hk => ?_⟩
  · have hblank := hc.blank i hi
    have hi' : (fs.create p).inodes ≤ i := hi
    cases mode with
    | append => exact hblank
    | truncate =>
      rw [show (fs.openFile .truncate p).content i = _ from Function.update_of_ne (by omega) ..]
      exact hblank
  · by_cases hkn : k = fs.opened
    · subst hkn
      rw [show (fs.openFile mode p).file fs.opened = _ from Function.update_self ..] at hk
      obtain rfl := Option.some.inj hk
      exact ⟨Nat.lt_succ_self _, hlt⟩
    · rw [show (fs.openFile mode p).file k = _ from Function.update_of_ne hkn ..] at hk
      obtain ⟨h₁, h₂⟩ := hc.filed k g hk
      exact ⟨Nat.lt_succ_of_lt h₁, h₂⟩

theorem rename {src dst : π} (hs : fs.Sound) (hr : fs.rename src dst = some fs') : fs'.Sound := by
  obtain ⟨i, hi, rfl⟩ := Option.map_eq_some_iff.mp hr
  -- what has a name afterwards had one before
  have hback : ∀ p j, Function.update (Function.update fs.names src none) dst (some i) p = some j →
      p = dst ∧ j = i ∨ p ≠ src ∧ p ≠ dst ∧ fs.names p = some j := by
    intro p j hp
    by_cases hpd : p = dst
    · subst hpd
      rw [Function.update_self] at hp
      exact .inl ⟨rfl, (Option.some.inj hp).symm⟩
    · rw [Function.update_of_ne hpd] at hp
      by_cases hps : p = src
      · rw [hps, Function.update_self] at hp
        exact absurd hp (by simp)
      · rw [Function.update_of_ne hps] at hp
        exact .inr ⟨hps, hpd, hp⟩
  refine ⟨fun p j hp => ?_, fun p q j hp hq => ?_, hs.blank, hs.filed⟩
  · rcases hback p j hp with ⟨-, rfl⟩ | ⟨-, -, hold⟩
    · exact hs.named _ _ hi
    · exact hs.named p j hold
  · rcases hback p j hp with ⟨hpd, hji⟩ | ⟨hps, -, hold⟩
    · rcases hback q j hq with ⟨hqd, -⟩ | ⟨hqs, -, hold'⟩
      · rw [hpd, hqd]
      · exact absurd (hs.single q src j hold' (by rw [hi, hji])) hqs
    · rcases hback q j hq with ⟨-, hji⟩ | ⟨-, -, hold'⟩
      · exact absurd (hs.single p src j hold (by rw [hi, hji])) hps
      · exact hs.single p q j hold hold'

theorem remove {p : π} (hs : fs.Sound) (hr : fs.remove p = some fs') : fs'.Sound := by
  obtain ⟨i, hi, rfl⟩ := Option.map_eq_some_iff.mp hr
  have hback : ∀ q j, Function.update fs.names p none q = some j → fs.names q = some j := by
    intro q j hq
    by_cases hqp : q = p
    · rw [hqp, Function.update_self] at hq
      exact absurd hq (by simp)
    · rwa [Function.update_of_ne hqp] at hq
  exact ⟨fun q j hq => hs.named q j (hback q j hq),
    fun q r j hq hr => hs.single q r j (hback q j hq) (hback r j hr), hs.blank, hs.filed⟩

end Sound

-- ---------------------------------------------------------------------------
-- The texts under a name
-- ---------------------------------------------------------------------------

theorem texts_eq {fs : FileSystem π} {p : π} {i : Nat} (h : fs.names p = some i) :
    fs.texts p = fs.content i := by
  rw [texts, h]

theorem texts_congr {fs fs' : FileSystem π} {p q : π} (hn : fs'.names q = fs.names p)
    (hc : fs'.content = fs.content) : fs'.texts q = fs.texts p := by
  rw [texts, texts, hn, hc]

theorem texts_sync [DecidableEq π] {fs : FileSystem π} (hs : fs.Sound) {p : π} {f : OpenFile π}
    (hp : fs.names p = some f.inode) (h : Nat) (b : Bool) (q : π) :
    (fs.sync h f b).texts q = if q = p then fs.texts p ++ f.buffer else fs.texts q := by
  split
  · rename_i hq
    rw [hq, @texts_eq _ (fs.sync h f b) _ _ hp, texts_eq hp]
    exact Function.update_self ..
  · rename_i hq
    cases hj : fs.names q with
    | none =>
      rw [texts, texts, show (fs.sync h f b).names q = _ from hj, hj]
    | some j =>
      rw [@texts_eq _ (fs.sync h f b) _ _ hj, texts_eq hj]
      refine Function.update_of_ne (fun heq => hq ?_) ..
      exact hs.single q p j hj (by rw [heq]; exact hp)

theorem texts_openFile_of_ne [DecidableEq π] {fs : FileSystem π} (hs : fs.Sound) (mode : OpenMode)
    {p q : π} (hq : q ≠ p) : (fs.openFile mode p).texts q = fs.texts q := by
  have hname : (fs.openFile mode p).names q = fs.names q := Function.update_of_ne hq ..
  cases mode with
  | append => exact texts_congr hname rfl
  | truncate =>
    cases hj : fs.names q with
    | none => rw [texts, texts, hname, hj]
    | some j =>
      rw [texts_eq (hname.trans hj), texts_eq hj]
      refine Function.update_of_ne (fun heq => ?_) ..
      cases hp : fs.names p with
      | some i =>
        rw [openInode, hp] at heq
        exact hq (hs.single q p j hj (by rw [heq]; exact hp))
      | none =>
        rw [openInode, hp] at heq
        have := hs.named q j hj
        rw [heq] at this
        exact Nat.lt_irrefl _ this

theorem texts_openFile_append [DecidableEq π] {fs : FileSystem π} (hs : fs.Sound) (p q : π) :
    (fs.openFile .append p).texts q = fs.texts q := by
  by_cases hq : q = p
  · rw [hq, texts_eq (openFile_names fs .append p)]
    cases hp : fs.names p with
    | some i =>
      rw [texts_eq hp, openInode, hp]
      rfl
    | none =>
      rw [texts, hp, openInode, hp]
      exact hs.blank _ (Nat.le_refl _)
  · exact texts_openFile_of_ne hs .append hq

theorem texts_openFile_truncate [DecidableEq π] (fs : FileSystem π) (p : π) :
    (fs.openFile .truncate p).texts p = [] := by
  rw [texts_eq (openFile_names fs .truncate p)]
  exact Function.update_self ..

/-- Nothing in the buffer, nothing changed. -/
theorem content_sync_of_empty {fs : FileSystem π} {f : OpenFile π} (hf : f.buffer = []) (h : Nat)
    (b : Bool) : (fs.sync h f b).content = fs.content := by
  show Function.update fs.content f.inode (fs.content f.inode ++ f.buffer) = fs.content
  rw [hf, List.append_nil, Function.update_eq_self]

/-- A live stream with nothing in its buffer has nothing to flush. -/
theorem sync_eq_self {fs : FileSystem π} {h : Nat} {f : OpenFile π} (hl : fs.live h = some f)
    (hf : f.buffer = []) : fs.sync h f false = fs := by
  obtain ⟨hfile, hopen⟩ := live_eq_some.mp hl
  have hsame : ({ f with buffer := [], closed := false } : OpenFile π) = f := by
    rw [← hf, ← hopen]
  show ({ fs with content := (fs.sync h f false).content, file := _ } : FileSystem π) = fs
  rw [content_sync_of_empty hf, hsame, ← hfile, Function.update_eq_self]

-- ---------------------------------------------------------------------------
-- Which files are open
-- ---------------------------------------------------------------------------

/-- An open file stays what it is, and new ones are opened under names in `P`. -/
structure Extends (P : π → Prop) (fs fs' : FileSystem π) : Prop where
  kept : ∀ h f, fs.file h = some f →
    ∃ f', fs'.file h = some f' ∧ f'.path = f.path ∧ f'.inode = f.inode
  made : ∀ h f', fs'.file h = some f' → (∃ f, fs.file h = some f ∧ f.path = f'.path) ∨ P f'.path

namespace Extends

variable {P : π → Prop} {fs fs' fs'' : FileSystem π} {h : Nat} {f : OpenFile π}

theorem of_file (heq : fs'.file = fs.file) : Extends P fs fs' :=
  ⟨fun h f hf => ⟨f, by rw [heq, hf], rfl, rfl⟩, fun h f' hf => .inl ⟨f', by rw [← heq, hf], rfl⟩⟩

theorem trans (h : Extends P fs fs') (h' : Extends P fs' fs'') : Extends P fs fs'' := by
  refine ⟨fun k f hf => ?_, fun k f'' hf => ?_⟩
  · obtain ⟨f', hf', hpath, hinode⟩ := h.kept k f hf
    obtain ⟨f'', hf'', hpath', hinode'⟩ := h'.kept k f' hf'
    exact ⟨f'', hf'', hpath'.trans hpath, hinode'.trans hinode⟩
  · rcases h'.made k f'' hf with ⟨f', hf', hpath⟩ | hP
    · rcases h.made k f' hf' with ⟨f, hf, hpath'⟩ | hP
      · exact .inl ⟨f, hf, hpath'.trans hpath⟩
      · exact .inr (hpath ▸ hP)
    · exact .inr hP

theorem mono {Q : π → Prop} (hPQ : ∀ p, P p → Q p) (h : Extends P fs fs') : Extends Q fs fs' :=
  ⟨h.kept, fun k f hf => (h.made k f hf).imp_right (hPQ _)⟩

/-- One open file is changed, in its buffer or in being closed. -/
theorem of_update {g : OpenFile π} (hf : fs.file h = some f)
    (heq : fs'.file = Function.update fs.file h (some g)) (hp : g.path = f.path)
    (hi : g.inode = f.inode) : Extends P fs fs' := by
  refine ⟨fun k x hx => ?_, fun k x hx => ?_⟩
  · by_cases hk : k = h
    · subst hk
      obtain rfl := Option.some.inj (hf.symm.trans hx)
      exact ⟨g, by rw [heq, Function.update_self], hp, hi⟩
    · exact ⟨x, by rw [heq, Function.update_of_ne hk, hx], rfl, rfl⟩
  · rw [heq] at hx
    by_cases hk : k = h
    · subst hk
      rw [Function.update_self] at hx
      exact .inl ⟨f, hf, by rw [← Option.some.inj hx, hp]⟩
    · rw [Function.update_of_ne hk] at hx
      exact .inl ⟨x, hx, rfl⟩

theorem sync (hf : fs.file h = some f) (text : List String) (b : Bool) :
    Extends P fs (fs.sync h { f with buffer := text } b) := of_update hf rfl rfl rfl

theorem close (fs : FileSystem π) (h : Nat) : Extends P fs (fs.close h) := by
  unfold FileSystem.close
  split
  · rename_i f hl
    exact of_update (live_eq_some.mp hl).1 rfl rfl rfl
  · exact of_file rfl

theorem openFile [DecidableEq π] (hs : fs.Sound) (mode : OpenMode) {p : π} (hp : P p) :
    Extends P fs (fs.openFile mode p) := by
  have hrest : ∀ k, k ≠ fs.opened → (fs.openFile mode p).file k = fs.file k :=
    fun k hk => Function.update_of_ne hk ..
  refine ⟨fun k x hx => ⟨x, ?_, rfl, rfl⟩, fun k x hx => ?_⟩
  · rw [hrest k, hx]
    have := (hs.filed k x hx).1
    omega
  · by_cases hk : k = fs.opened
    · rw [hk, show (fs.openFile mode p).file fs.opened = _ from Function.update_self ..] at hx
      rw [← Option.some.inj hx]
      exact .inr hp
    · rw [hrest k hk] at hx
      exact .inl ⟨x, hx, rfl⟩

end Extends

end FileSystem

end Posix
