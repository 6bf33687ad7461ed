import ScietexLogging.File.Turns
import ScietexLogging.Posix.Archive

/-!
# File — the log and its backups are an archive

In a run without trouble of a backend in mode `"a"`, slot `k` of the log holds what
shelf `k` of an archive does: a rollover is a rotation of the archive, and every text
is appended to its newest shelf.

* `rotation_preserves_order` — the slots read from the oldest are what was written,
  but for the texts followed by more rollovers than there are backups.
-/

namespace ScietexLogging

open Asyncio Posix

namespace FileRun

open FileBackend

variable {cfg : FileConfig} {s t : FileRun} {c : WriteCall} {a : Archive String}

/-- The rollovers since the text was written; without backups they move nothing. -/
def age (cfg : FileConfig) (s : FileRun) (e : Written) : Nat :=
  if cfg.kept = 0 then 0 else s.world.rollovers - e.rollovers

/-- Slots `n` to 0, one after the other. -/
def reading (cfg : FileConfig) (s : FileRun) (n : Nat) : List String :=
  (List.range (n + 1)).reverse.flatMap fun k => s.world.fs.texts (cfg.slot k)

/-- The archive of what was written. -/
structure Dated (cfg : FileConfig) (s : FileRun) (a : Archive String) : Prop where
  entries : a.entries = s.written.map fun e => (e.text, age cfg s e)
  past : ∀ e ∈ s.written, e.rollovers ≤ s.world.rollovers

namespace Dated

theorem congr (ha : Dated cfg s a) (hw : t.written = s.written)
    (hr : t.world.rollovers = s.world.rollovers) : Dated cfg t a := by
  refine ⟨?_, fun e he => ?_⟩
  · rw [ha.entries, hw]
    unfold age
    rw [hr]
  · rw [hw] at he
    rw [hr]
    exact ha.past e he

theorem past_afterWrite (ha : Dated cfg s a) {w : FileWorld}
    (hle : s.world.rollovers ≤ w.rollovers) :
    ∀ e ∈ (s.afterWrite c (.ok (), w)).written, e.rollovers ≤ w.rollovers := by
  intro e he
  rcases List.mem_append.mp he with he | he
  · exact Nat.le_trans (ha.past e he) hle
  · obtain rfl := List.mem_singleton.mp he
    exact Nat.le_refl _

/-- No rollover, or one that moves nothing. -/
theorem appended (ha : Dated cfg s a) {w : FileWorld} (hle : s.world.rollovers ≤ w.rollovers)
    (hr : cfg.kept = 0 ∨ w.rollovers = s.world.rollovers) :
    Dated cfg (s.afterWrite c (.ok (), w)) (a.append c.text) := by
  refine ⟨?_, ha.past_afterWrite hle⟩
  have hage : ∀ e, age cfg (s.afterWrite c (.ok (), w)) e = age cfg s e := by
    intro e
    show (if _ then 0 else w.rollovers - e.rollovers) = if _ then 0 else _
    rcases hr with h0 | hr
    · rw [if_pos h0, if_pos h0]
    · rw [hr]
  show a.entries ++ [(c.text, 0)] = (s.written ++ [_]).map _
  rw [List.map_append, ha.entries]
  congr 1
  · exact List.map_congr_left fun e _ => by rw [hage]
  · show [(c.text, 0)] = [(c.text, if cfg.kept = 0 then 0 else w.rollovers - w.rollovers)]
    rw [Nat.sub_self, ite_self]

/-- A rollover. -/
theorem rotated (ha : Dated cfg s a) {w : FileWorld} (hkept : 0 < cfg.kept)
    (hr : w.rollovers = s.world.rollovers + 1) :
    Dated cfg (s.afterWrite c (.ok (), w)) (a.rotate.append c.text) := by
  refine ⟨?_, ha.past_afterWrite (by omega)⟩
  have hne : cfg.kept ≠ 0 := by omega
  show a.entries.map _ ++ [(c.text, 0)] = (s.written ++ [_]).map _
  rw [List.map_append, ha.entries, List.map_map]
  congr 1
  · refine List.map_congr_left fun e he => ?_
    have hpast := ha.past e he
    show (e.text, (if cfg.kept = 0 then 0 else s.world.rollovers - e.rollovers) + 1) =
      (e.text, if cfg.kept = 0 then 0 else w.rollovers - e.rollovers)
    rw [if_neg hne, if_neg hne, hr, Nat.succ_sub hpast]
  · show [(c.text, 0)] = [(c.text, if cfg.kept = 0 then 0 else w.rollovers - w.rollovers)]
    rw [Nat.sub_self, ite_self]

end Dated

/-- The slots are the shelves of the archive. -/
structure Shelved (cfg : FileConfig) (s : FileRun) (a : Archive String) : Prop where
  dated : Dated cfg s a
  texts : ∀ k, k ≤ cfg.kept → s.world.fs.texts (cfg.slot k) = a.shelf k
  joined : ∀ k, s.world.fs.names (cfg.slot k) = none → s.world.fs.names (cfg.slot (k + 1)) = none
  bounded : ∀ k, cfg.kept < k → s.world.fs.names (cfg.slot k) = none
  newest : (s.world.fs.texts cfg.baseFilename).getLast? = s.written.getLast?.map Written.text

namespace Shelved

theorem idles (hs : Shelved cfg s a) (hi : Idles cfg s t) : Shelved cfg t a := by
  obtain ⟨hdated, htexts, hjoined, hbounded, hnewest⟩ := hs
  refine ⟨hdated.congr hi.written hi.rollovers, ?_, ?_, ?_, ?_⟩
  · rwa [hi.texts]
  · rwa [hi.names]
  · rwa [hi.names]
  · rwa [hi.texts, hi.written]

theorem readied (hs : Shelved cfg s a) (hw : Tidy cfg s.world) (hmode : cfg.openMode = .append) :
    Shelved cfg { s with world := readied cfg s.world } a := by
  obtain ⟨hdated, htexts, hjoined, hbounded, hnewest⟩ := hs
  have hsame : (FileBackend.readied cfg s.world).fs.texts = s.world.fs.texts := funext fun q => by
    rw [readied_texts hw.held, hmode, if_neg (by simp)]
  have hnames : ∀ k, 0 < k → (FileBackend.readied cfg s.world).fs.names (cfg.slot k) =
      s.world.fs.names (cfg.slot k) := fun k hk => readied_names hw.held (cfg.slot_ne_base hk)
  obtain ⟨i, hi⟩ := hw.readied_named
  refine ⟨hdated.congr rfl (readied_rollovers _ _), ?_, fun k hk => ?_, fun k hk => ?_, ?_⟩
  · rwa [hsame]
  · cases k with
    | zero => exact absurd (hk.symm.trans hi) (by simp)
    | succ k => exact (hnames _ (by omega)).trans (hjoined _ ((hnames _ (by omega)).symm.trans hk))
  · exact (hnames _ (by omega)).trans (hbounded k hk)
  · rwa [hsame]

/-- What a call does to the slots it does to the shelves. -/
theorem turn (hs : Shelved cfg s a) (hmode : cfg.openMode = .append)
    {r : Except IoError Unit} {w' : FileWorld} (ht : Turn cfg c s.world r w')
    (hnamed : r = .ok () → w'.fs.names cfg.baseFilename ≠ none) :
    ∃ a', Shelved cfg (s.afterWrite c (r, w')) a' := by
  obtain ⟨hdated, htexts, hjoined, hbounded, hnewest⟩ := hs
  -- a text appended to the log file
  have happend : ∀ w' : FileWorld, (∀ q, w'.fs.texts q =
        if q = cfg.baseFilename then s.world.fs.texts cfg.baseFilename ++ [c.text]
        else s.world.fs.texts q) → w'.fs.names = s.world.fs.names →
      s.world.rollovers ≤ w'.rollovers → (cfg.kept = 0 ∨ w'.rollovers = s.world.rollovers) →
      Shelved cfg (s.afterWrite c (.ok (), w')) (a.append c.text) := by
    intro w' htexts' hnames hle hr
    refine ⟨hdated.appended hle hr, fun k hk => ?_, ?_, ?_, ?_⟩
    · show w'.fs.texts _ = _
      rw [htexts', Archive.shelf_append]
      cases k with
      | zero => rw [if_pos rfl, if_pos cfg.slot_zero, ← htexts 0 (Nat.zero_le _), cfg.slot_zero]
      | succ k => rw [if_neg (cfg.slot_ne_base (by omega)), if_neg (by omega), htexts _ hk]
    · show ∀ k, w'.fs.names _ = none → w'.fs.names _ = none
      rwa [hnames]
    · show ∀ k, _ → w'.fs.names _ = none
      rwa [hnames]
    · show (w'.fs.texts _).getLast? = (s.written ++ [_]).getLast?.map _
      rw [htexts', if_pos rfl, List.getLast?_concat, List.getLast?_concat]
      rfl
  cases ht with
  | @refused e w' _ fs rollovers =>
    refine ⟨a, hdated.congr rfl rollovers, ?_, ?_, ?_, ?_⟩
    all_goals
      dsimp only [afterWrite]
      rw [fs]
      assumption
  | stays _ names texts rollovers => exact ⟨_, happend _ texts names (by omega) (.inr rollovers)⟩
  | restarts _ keeps names texts rollovers =>
    rw [hmode] at texts
    exact ⟨_, happend _ texts names (by omega) (.inl keeps)⟩
  | @rolls w' _ keeps slid active rest rollovers =>
    refine ⟨_, hdated.rotated keeps rollovers, fun k hk => ?_, fun k hk => ?_, fun k hk => ?_, ?_⟩
    · show w'.fs.texts _ = _
      rw [Archive.shelf_append]
      cases k with
      | zero => rw [if_pos rfl, Archive.shelf_rotate_zero, List.nil_append, cfg.slot_zero, active]
      | succ k =>
        rw [if_neg (by omega), Archive.shelf_rotate_succ, ← htexts k (by omega),
          rest _ (cfg.slot_ne_base (by omega))]
        refine FileSystem.texts_congr ?_ rfl
        show w'.fs.names _ = _
        rcases Nat.lt_or_eq_of_le hk with hlt | heq
        · exact slid.next k hlt
        · rw [slid.last k heq]
          cases hk : s.world.fs.names (cfg.slot k) with
          | some i => exact Option.some_or
          | none => rw [hjoined k hk, Option.or_none]
    · show w'.fs.names _ = none
      replace hk : w'.fs.names (cfg.slot k) = none := hk
      cases k with
      | zero => exact absurd hk (hnamed rfl)
      | succ k =>
        rcases Nat.lt_trichotomy (k + 2) cfg.kept with hlt | heq | hgt
        · rw [slid.next _ hlt]
          exact hjoined _ ((slid.next _ (by omega)).symm.trans hk)
        · have hnone : s.world.fs.names (cfg.slot k) = none :=
            (slid.next _ (by omega)).symm.trans hk
          have hnone' := hjoined _ hnone
          rw [slid.last _ heq, hnone', hjoined _ hnone', Option.or_none]
        · rw [slid.other _ hgt]
          exact hbounded _ hgt
    · show w'.fs.names _ = none
      rw [slid.other _ hk]
      exact hbounded _ hk
    · show (w'.fs.texts _).getLast? = (s.written ++ [_]).getLast?.map _
      rw [active, List.getLast?_concat]
      rfl

end Shelved

/-- The backend has just been constructed, and there is no log and no backup. -/
def Fresh (cfg : FileConfig) (s : FileRun) : Prop :=
  Init cfg s ∧ ∀ k, s.world.fs.names (cfg.slot k) = none

theorem Fresh.shelved (h : Fresh cfg s) : Shelved cfg s .empty := by
  obtain ⟨⟨fs, at₀, -, -, rfl⟩, hnone⟩ := h
  have hempty : ∀ k, FileSystem.texts fs (cfg.slot k) = [] := fun k => by
    rw [FileSystem.texts, show fs.names (cfg.slot k) = none from hnone k]
  refine ⟨⟨rfl, fun _ he => absurd he (by simp)⟩, fun k _ => hempty k, fun k _ => hnone _,
    fun k _ => hnone k, ?_⟩
  show (fs.texts (cfg.slot 0)).getLast? = none
  rw [hempty]
  rfl

theorem shelved_step {act : Act} (hk : cfg.Numbered) (hmode : cfg.openMode = .append)
    (hw : Tidy cfg s.world) (hs : Shelved cfg s a) (ha : act.Untroubled cfg)
    (h : FileRun.step cfg s act = some t) : Tidy cfg t.world ∧ ∃ a', Shelved cfg t a' := by
  obtain ⟨hw', hidles | ⟨c, r, w', rfl, -, hturn, hstream, rfl⟩⟩ := step_turns hw hk ha h
  · exact ⟨hw', a, hs.idles hidles⟩
  · refine ⟨hw', (hs.readied hw hmode).turn hmode hturn fun hr => ?_⟩
    rw [afterWrite_world] at hw'
    obtain ⟨k, hstream⟩ := Option.ne_none_iff_exists'.mp (hstream hr)
    obtain ⟨f, -, -, hname⟩ := hw'.inode hstream
    show w'.fs.names _ ≠ none
    rw [hname]
    simp

/-- **Rotation preserves order.** However often the backend was stopped and started,
the slots, read from the highest to the log file, hold all texts written, in order and
each of them once, but for the first ones: those followed by more rollovers than there
are backups. The last text is at the end of the log file. -/
theorem rotation_preserves_order {m b : Int} (hk : cfg.kind = .rotating m b)
    (hmode : cfg.mode = .append) {s₀ : FileRun} (h₀ : Fresh cfg s₀)
    (h : (machine cfg).Reaches (fun _ act => act.Untroubled cfg) s₀ s) :
    (∀ n, cfg.kept ≤ n → s.written.map Written.text =
      (s.written.filter fun e => cfg.kept < age cfg s e).map Written.text ++ reading cfg s n) ∧
    (s.world.fs.texts cfg.baseFilename).getLast? = s.written.getLast?.map Written.text := by
  have hopen : cfg.openMode = .append := by rw [FileConfig.openMode, hk, hmode]
  have hinv : Tidy cfg s.world ∧ ∃ a, Shelved cfg s a := by
    induction h with
    | refl => exact ⟨tidy_init h₀.1, _, h₀.shelved⟩
    | tail _ hok hstep ih =>
      obtain ⟨hw, a, hs⟩ := ih
      exact shelved_step (.inr ⟨m, b, hk⟩) hopen hw hs hok hstep
  obtain ⟨-, a, hs⟩ := hinv
  refine ⟨fun n hn => ?_, hs.newest⟩
  have htop : reading cfg s n = reading cfg s cfg.kept := by
    induction hn with
    | refl => rfl
    | @step n hle ih =>
      have hle' : cfg.kept ≤ n := hle
      have hnone : s.world.fs.texts (cfg.slot (n + 1)) = [] := by
        rw [FileSystem.texts, hs.bounded (n + 1) (by omega)]
      rw [← ih, reading, List.range_succ, List.reverse_append, List.reverse_singleton,
        List.singleton_append, List.flatMap_cons, hnone, List.nil_append]
      rfl
  have hread : reading cfg s cfg.kept = a.recent cfg.kept := by
    rw [← Archive.reading_eq, reading]
    exact List.flatMap_congr fun k hk =>
      hs.texts k (by rw [List.mem_reverse, List.mem_range] at hk; omega)
  have holder : (s.written.filter fun e => cfg.kept < age cfg s e).map Written.text =
      a.older cfg.kept := by
    rw [Archive.older, hs.dated.entries, List.filter_map, List.map_map]
    rfl
  rw [htop, hread, holder, Archive.older_append, hs.dated.entries, List.map_map]
  rfl

/-- A call of the default format that goes through. -/
def line (message : String) : WriteCall :=
  ⟨message ++ "\n", plainRecord message, 0, fun _ => true⟩

theorem untroubled_line (cfg : FileConfig) (message : String) :
    Act.Untroubled cfg (.write (line message)) :=
  ⟨trivial, fun c hc op => by rw [← Act.write.inj hc]; rfl⟩

theorem untroubled_close (cfg : FileConfig) : Act.Untroubled cfg .close :=
  ⟨trivial, fun _ hc => absurd hc (by simp)⟩

theorem fresh_empty (cfg : FileConfig) (h : cfg.builtIn = []) : Fresh cfg empty :=
  ⟨empty_init cfg h, fun _ => rfl⟩

/-- Two rollovers with one backup, and a restart. -/
theorem rotation_preserves_order_thrice :
    ∃ s : FileRun, s.written.map Written.text =
        (s.written.filter fun e => smallLog.kept < age smallLog s e).map Written.text ++
          reading smallLog s 1 ∧
      s.written.map Written.text = ["alpha\n", "bravo\n", "gamma\n"] ∧
      reading smallLog s 1 = ["bravo\n", "gamma\n"] := by
  have hrun : ∃ s, (machine smallLog).Reaches (fun _ act => act.Untroubled smallLog) empty s ∧
      s.written.map Written.text = ["alpha\n", "bravo\n", "gamma\n"] ∧
      reading smallLog s 1 = ["bravo\n", "gamma\n"] :=
    ⟨_, ((((Machine.Reaches.refl empty).tail (untroubled_line _ "alpha") rfl).tail
      (untroubled_line _ "bravo") rfl).tail (untroubled_close _) rfl).tail
      (untroubled_line _ "gamma") rfl, rfl, rfl⟩
  obtain ⟨s, hrun, hwritten, hreading⟩ := hrun
  exact ⟨s, (rotation_preserves_order rfl rfl (fresh_empty _ rfl) hrun).1 1 (Nat.le_refl 1),
    hwritten, hreading⟩

end FileRun

end ScietexLogging
