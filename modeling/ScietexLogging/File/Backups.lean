import ScietexLogging.File.Calls

/-!
# File — what a rollover makes of the names

`rollover_returns` — a rollover whose renames and removals all go through returns.
`makeBackups_shifts` — where every operation goes through, each backup takes the
next number, the last one is dropped, and the active file becomes backup 1.
-/

namespace ScietexLogging

open Posix

namespace FileConfig

variable (cfg : FileConfig)

theorem backup_inj {i j : Nat} (h : cfg.backup i = cfg.backup j) : i = j := by
  have hrepr : (toString i).toList = (toString j).toList := by rw [AbsPath.suffixed_inj h]
  rw [Nat.toString_eq_repr, Nat.toString_eq_repr, Nat.toList_repr, Nat.toList_repr] at hrepr
  have := congrArg (fun ds => Nat.ofDigitChars 10 ds 0) hrepr
  simpa using this

theorem backup_ne_base (i : Nat) : cfg.backup i ≠ cfg.baseFilename := AbsPath.suffixed_ne _ _

end FileConfig

/-- Every operation of the call that may make a rollover or a reopening fail half
way goes through. -/
structure WriteCall.Smooth (c : WriteCall) : Prop where
  removeNext : ∀ i, c.goes (.removeNext i) = true
  rename : ∀ i, c.goes (.rename i) = true
  removeTarget : c.goes .removeTarget = true
  renameActive : c.goes .renameActive = true
  removeExpired : ∀ k, c.goes (.removeExpired k) = true
  openNew : c.goes .openNew = true
  fstat : c.goes .fstat = true

/-- Every operation of the call goes through. -/
def WriteCall.Clean (c : WriteCall) : Prop := ∀ op, c.goes op = true

theorem WriteCall.Clean.smooth {c : WriteCall} (h : c.Clean) : c.Smooth :=
  ⟨fun _ => h _, fun _ => h _, h _, h _, fun _ => h _, h _, h _⟩

namespace FileBackend

variable {cfg : FileConfig} {c : WriteCall}

-- ---------------------------------------------------------------------------
-- Rollovers that return
-- ---------------------------------------------------------------------------

/-- The program returns, and names a file only where one was named or `p` is. -/
theorem removeIfFound_returns (goes : Bool) (p : AbsPath) (w : FileWorld) :
    ∃ w', (removeIfFound goes true p).exec w = (.ok (), w') ∧
      (∀ q, q ≠ p → w'.fs.names q = w.fs.names q) ∧
      (goes = true → w'.fs.names p = none) := by
  rw [removeIfFound, Prog.exec_bind, exec_found]
  dsimp only
  cases hp : w.fs.names p with
  | none =>
    refine ⟨w, by simp, fun _ _ => rfl, fun _ => hp⟩
  | some i =>
    cases goes with
    | false => exact ⟨w, rfl, fun _ _ => rfl, by simp⟩
    | true =>
      refine ⟨{ w with fs := { w.fs with names := Function.update w.fs.names p none } }, ?_,
        fun q hq => Function.update_of_ne hq .., fun _ => Function.update_self ..⟩
      rw [if_pos (by rfl), removePath, exec_onSystem, if_pos rfl, FileSystem.remove, hp]
      rfl

/-- The inode has its new name. -/
def renamedTo (w : FileWorld) (src dst : AbsPath) (i : Nat) : FileWorld :=
  { w with fs := { w.fs with
      names := Function.update (Function.update w.fs.names src none) dst (some i) } }

theorem renamedTo_dst (w : FileWorld) (src dst : AbsPath) (i : Nat) :
    (renamedTo w src dst i).fs.names dst = some i := Function.update_self ..

theorem renamedTo_src (w : FileWorld) {src dst : AbsPath} (h : src ≠ dst) (i : Nat) :
    (renamedTo w src dst i).fs.names src = none := by
  show Function.update (Function.update w.fs.names src none) dst _ src = none
  rw [Function.update_of_ne h, Function.update_self]

theorem renamedTo_of_ne (w : FileWorld) {src dst p : AbsPath} (h : p ≠ src) (h' : p ≠ dst) (i : Nat) :
    (renamedTo w src dst i).fs.names p = w.fs.names p := by
  show Function.update (Function.update w.fs.names src none) dst _ p = _
  rw [Function.update_of_ne h', Function.update_of_ne h]

theorem exec_renamePath {w : FileWorld} {src dst : AbsPath} {i : Nat}
    (h : w.fs.names src = some i) :
    (renamePath true src dst).exec w = (.ok (), renamedTo w src dst i) := by
  rw [renamePath, exec_onSystem, if_pos rfl, FileSystem.rename, h]
  rfl

theorem rotate_returns (cfg : FileConfig) (hg : c.goes .renameActive = true) (dfn : AbsPath) (w : FileWorld) :
    ∃ w', (rotate cfg c dfn).exec w = (.ok (), w') := by
  rw [rotate, Prog.exec_bind, exec_found]
  dsimp only
  cases hb : (c.goes .findActive && (w.fs.names cfg.baseFilename).isSome) with
  | false => exact ⟨w, rfl⟩
  | true =>
    rw [Bool.and_eq_true, Option.isSome_iff_exists] at hb
    obtain ⟨-, i, hi⟩ := hb
    rw [if_pos rfl, hg, exec_renamePath hi]
    exact ⟨_, rfl⟩

theorem moveBackup_returns (cfg : FileConfig) (hc : c.Smooth) (i : Nat) (w : FileWorld) :
    ∃ w', (moveBackup cfg c i).exec w = (.ok (), w') := by
  rw [moveBackup, Prog.exec_bind, exec_found]
  dsimp only
  cases hb : (c.goes (.find i) && (w.fs.names (cfg.backup i)).isSome) with
  | false => exact ⟨w, rfl⟩
  | true =>
    rw [Bool.and_eq_true, Option.isSome_iff_exists] at hb
    obtain ⟨-, k, hk⟩ := hb
    obtain ⟨w₁, h₁, hother, -⟩ :=
      removeIfFound_returns (c.goes (.findNext i)) (cfg.backup (i + 1)) w
    -- the source of the rename is still there
    have hsrc : w₁.fs.names (cfg.backup i) = some k := by
      rw [hother _ fun heq => absurd (cfg.backup_inj heq) (by omega), hk]
    rw [if_pos rfl, Prog.exec_bind, hc.removeNext, h₁, hc.rename]
    dsimp only
    rw [exec_renamePath hsrc]
    exact ⟨_, rfl⟩

theorem moveBackups_returns (cfg : FileConfig) (hc : c.Smooth) (n : Nat) (w : FileWorld) :
    ∃ w', (moveBackups cfg c n).exec w = (.ok (), w') := by
  induction n generalizing w with
  | zero => exact ⟨w, rfl⟩
  | succ n ih =>
    obtain ⟨w₁, h₁⟩ := moveBackup_returns cfg hc (n + 1) w
    obtain ⟨w₂, h₂⟩ := ih w₁
    exact ⟨w₂, by rw [moveBackups, Prog.exec_bind, h₁]; exact h₂⟩

theorem makeBackups_returns (cfg : FileConfig) (hc : c.Smooth) (backupCount : Int) (w : FileWorld) :
    ∃ w', (makeBackups cfg c backupCount).exec w = (.ok (), w') := by
  unfold makeBackups
  split
  · obtain ⟨w₁, h₁⟩ := moveBackups_returns cfg hc (backupCount - 1).toNat w
    obtain ⟨w₂, h₂, -⟩ := removeIfFound_returns (c.goes .findTarget) (cfg.backup 1) w₁
    obtain ⟨w₃, h₃⟩ := rotate_returns cfg hc.renameActive (cfg.backup 1) w₂
    refine ⟨w₃, ?_⟩
    rw [Prog.exec_bind, h₁]
    dsimp only
    rw [Prog.exec_bind, hc.removeTarget, h₂]
    exact h₃
  · exact ⟨w, rfl⟩

theorem removeExpired_returns (hg : ∀ k, c.goes (.removeExpired k) = true) {ps : List AbsPath}
    (hnodup : ps.Nodup) {w : FileWorld} (hps : ∀ p ∈ ps, (w.fs.names p).isSome) (k : Nat) :
    ∃ w', (removeExpired c k ps).exec w = (.ok (), w') := by
  induction ps generalizing k w with
  | nil => exact ⟨w, rfl⟩
  | cons p ps ih =>
    obtain ⟨hp, hnodup⟩ := List.nodup_cons.mp hnodup
    obtain ⟨i, hi⟩ := Option.isSome_iff_exists.mp (hps p List.mem_cons_self)
    obtain ⟨w', hw'⟩ := ih hnodup
      (w := { w with fs := { w.fs with names := Function.update w.fs.names p none } })
      (fun q hq => by
        have hne : q ≠ p := by
          rintro rfl
          exact hp hq
        show (Function.update w.fs.names p none q).isSome
        rw [Function.update_of_ne hne]
        exact hps q (List.mem_cons_of_mem _ hq)) (k + 1)
    refine ⟨w', ?_⟩
    rw [removeExpired, Prog.exec_bind, removePath, hg, exec_onSystem, if_pos rfl,
      FileSystem.remove, hi]
    exact hw'

/-- **A smooth rollover returns.** -/
theorem rollover_returns (hc : c.Smooth) {h : Nat} {w : FileWorld} (hm : w.managed = some h) :
    (∀ backupCount, ∃ w', (rollSize cfg c backupCount).exec w = (.ok (), w')) ∧
      ∀ o, ∃ w', (rollTime cfg c o).exec w = (.ok (), w') := by
  refine ⟨fun backupCount => ?_, fun o => ?_⟩
  · obtain ⟨w₁, h₁⟩ := makeBackups_returns cfg hc backupCount (closedManaged h w)
    refine ⟨{ w₁ with rollovers := w₁.rollovers + 1 }, ?_⟩
    rw [rollSize, Prog.exec_bind, exec_closeManaged hm]
    dsimp only
    rw [Prog.exec_bind, h₁]
    rfl
  · obtain ⟨w₁, h₁, -⟩ := removeIfFound_returns (c.goes .findTarget)
      (cfg.baseFilename.suffixed (o.suffix ((closedManaged h w).rolloverAt - o.interval)))
      (closedManaged h w)
    obtain ⟨w₂, h₂⟩ := rotate_returns cfg hc.renameActive
      (cfg.baseFilename.suffixed (o.suffix ((closedManaged h w).rolloverAt - o.interval))) w₁
    obtain ⟨hnodup, hlisted⟩ := o.listed w₂.fs
    obtain ⟨w₃, h₃⟩ := removeExpired_returns hc.removeExpired hnodup hlisted 0
    refine ⟨{ w₃ with rolloverAt := o.computeRollover c.now, rollovers := w₃.rollovers + 1 }, ?_⟩
    rw [rollTime, Prog.exec_bind, exec_closeManaged hm]
    dsimp only
    rw [Prog.exec_bind, Prog.exec_get]
    dsimp only
    rw [Prog.exec_bind, hc.removeTarget, h₁]
    dsimp only
    rw [Prog.exec_bind, h₂]
    dsimp only
    rw [Prog.exec_bind, Prog.exec_get]
    dsimp only
    rw [Prog.exec_bind, h₃]
    rfl

-- ---------------------------------------------------------------------------
-- Where the names go
-- ---------------------------------------------------------------------------

/-- The loop over backups `n` to 1: each takes the next number; backup `n` takes its
own only if it is there. -/
structure MovedBackups (cfg : FileConfig) (n : Nat) (names names' : AbsPath → Option Nat) : Prop where
  last : 0 < n → names' (cfg.backup (n + 1)) =
    (names (cfg.backup n)).or (names (cfg.backup (n + 1)))
  next : ∀ k, 0 < k → k < n → names' (cfg.backup (k + 1)) = names (cfg.backup k)
  first : 0 < n → names' (cfg.backup 1) = none
  other : ∀ p, (∀ k, 0 < k → k ≤ n + 1 → p ≠ cfg.backup k) → names' p = names p
  none : n = 0 → names' = names

theorem moveBackup_moves (cfg : FileConfig) (hc : c.Clean) (i : Nat) (w : FileWorld) :
    ∃ w', (moveBackup cfg c i).exec w = (.ok (), w') ∧
      w'.fs.names (cfg.backup (i + 1)) =
        (w.fs.names (cfg.backup i)).or (w.fs.names (cfg.backup (i + 1))) ∧
      w'.fs.names (cfg.backup i) = none ∧
      ∀ p, p ≠ cfg.backup i → p ≠ cfg.backup (i + 1) → w'.fs.names p = w.fs.names p := by
  rw [moveBackup, Prog.exec_bind, exec_found, hc, Bool.true_and]
  dsimp only
  cases hi : w.fs.names (cfg.backup i) with
  | none => exact ⟨w, rfl, rfl, hi, fun _ _ _ => rfl⟩
  | some k =>
    have hne : cfg.backup i ≠ cfg.backup (i + 1) := fun heq =>
      absurd (cfg.backup_inj heq) (by omega)
    obtain ⟨w₁, h₁, hother, -⟩ := removeIfFound_returns true (cfg.backup (i + 1)) w
    have hsrc : w₁.fs.names (cfg.backup i) = some k := by rw [hother _ hne, hi]
    refine ⟨renamedTo w₁ (cfg.backup i) (cfg.backup (i + 1)) k, ?_, renamedTo_dst .., renamedTo_src w₁ hne k,
      fun p hp hp' => ?_⟩
    · rw [Option.isSome_some, if_pos rfl, Prog.exec_bind, hc, hc, h₁, hc]
      exact exec_renamePath hsrc
    · rw [renamedTo_of_ne w₁ hp hp', hother p hp']

theorem moveBackups_moved (cfg : FileConfig) (hc : c.Clean) (n : Nat) (w : FileWorld) :
    ∃ w', (moveBackups cfg c n).exec w = (.ok (), w') ∧
      MovedBackups cfg n w.fs.names w'.fs.names := by
  induction n generalizing w with
  | zero =>
    exact ⟨w, rfl, ⟨fun h => absurd h (by omega), fun _ h h' => absurd h' (by omega),
      fun h => absurd h (by omega), fun _ _ => rfl, fun _ => rfl⟩⟩
  | succ n ih =>
    obtain ⟨w₁, h₁, htop, hgone, hrest⟩ := moveBackup_moves cfg hc (n + 1) w
    obtain ⟨w₂, h₂, hm⟩ := ih w₁
    have hne : ∀ {i j : Nat}, i ≠ j → cfg.backup i ≠ cfg.backup j :=
      fun hij heq => hij (cfg.backup_inj heq)
    have hold : ∀ k, 0 < k → k ≤ n → w₁.fs.names (cfg.backup k) = w.fs.names (cfg.backup k) :=
      fun k _ hk => hrest _ (hne (by omega)) (hne (by omega))
    refine ⟨w₂, by rw [moveBackups, Prog.exec_bind, h₁]; exact h₂, ⟨fun _ => ?_, fun k hk hkn => ?_,
      fun _ => ?_, fun p hp => ?_, fun h => absurd h (by omega)⟩⟩
    · rw [hm.other _ fun k _ hk => hne (by omega), htop]
    · by_cases hkl : k = n
      · subst hkl
        rw [hm.last hk, hgone, Option.or_none, hold k hk (Nat.le_refl _)]
      · rw [hm.next k hk (by omega), hold k hk (by omega)]
    · cases Nat.eq_zero_or_pos n with
      | inl h0 =>
        subst h0
        rw [hm.none rfl, hgone]
      | inr hpos => exact hm.first hpos
    · rw [hm.other p fun k hk hkn => hp k hk (by omega), hrest p (hp _ (by omega) (by omega))
        (hp _ (by omega) (by omega))]

/-- The names after a rollover that keeps `n + 1` backups. -/
structure Shifted (cfg : FileConfig) (n : Nat) (names names' : AbsPath → Option Nat) : Prop where
  active : names' cfg.baseFilename = none
  first : names' (cfg.backup 1) = names cfg.baseFilename
  next : ∀ k, 0 < k → k < n → names' (cfg.backup (k + 1)) = names (cfg.backup k)
  last : 0 < n → names' (cfg.backup (n + 1)) =
    (names (cfg.backup n)).or (names (cfg.backup (n + 1)))
  other : ∀ k, n + 1 < k → names' (cfg.backup k) = names (cfg.backup k)

/-- **Backups shift.** -/
theorem makeBackups_shifts (cfg : FileConfig) (hc : c.Clean) {backupCount : Int} (hb : 0 < backupCount)
    {w : FileWorld} {i : Nat} (hi : w.fs.names cfg.baseFilename = some i) :
    ∃ w', (makeBackups cfg c backupCount).exec w = (.ok (), w') ∧
      Shifted cfg (backupCount - 1).toNat w.fs.names w'.fs.names := by
  obtain ⟨w₁, h₁, hm⟩ := moveBackups_moved cfg hc (backupCount - 1).toNat w
  obtain ⟨w₂, h₂, hother, hgone⟩ := removeIfFound_returns true (cfg.backup 1) w₁
  have hne : ∀ {i j : Nat}, i ≠ j → cfg.backup i ≠ cfg.backup j :=
    fun hij heq => hij (cfg.backup_inj heq)
  have hbase : w₂.fs.names cfg.baseFilename = some i := by
    rw [hother _ (cfg.backup_ne_base 1).symm, hm.other _ fun k _ _ => (cfg.backup_ne_base k).symm, hi]
  have hrotate : (rotate cfg c (cfg.backup 1)).exec w₂ =
      (.ok (), renamedTo w₂ cfg.baseFilename (cfg.backup 1) i) := by
    rw [rotate, Prog.exec_bind, exec_found, hc, hbase]
    dsimp only
    rw [hc, Option.isSome_some, Bool.and_true, if_pos rfl]
    exact exec_renamePath hbase
  have hnames : ∀ k, 1 < k →
      (renamedTo w₂ cfg.baseFilename (cfg.backup 1) i).fs.names (cfg.backup k) =
        w₁.fs.names (cfg.backup k) := by
    intro k hk
    rw [renamedTo_of_ne w₂ (cfg.backup_ne_base k) (hne (by omega)), hother _ (hne (by omega))]
  refine ⟨renamedTo w₂ cfg.baseFilename (cfg.backup 1) i, ?_,
    ⟨renamedTo_src w₂ (cfg.backup_ne_base 1).symm i, ?_, fun k hk hkn => ?_, fun hn => ?_,
      fun k hk => ?_⟩⟩
  · rw [makeBackups, if_pos hb, Prog.exec_bind, h₁]
    dsimp only
    rw [Prog.exec_bind, hc, hc, h₂]
    exact hrotate
  · rw [renamedTo_dst, hi]
  · rw [hnames _ (by omega), hm.next k hk hkn]
  · rw [hnames _ (by omega), hm.last hn]
  · rw [hnames _ (by omega), hm.other _ fun j _ hj => hne (by omega)]

end FileBackend

end ScietexLogging
