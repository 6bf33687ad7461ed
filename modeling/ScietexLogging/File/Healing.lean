import ScietexLogging.File.Streams

/-!
# File — healing after a failed operation

After a `_write_record` that raised, the next one whose operations all go through
writes its text, unless the backend was left with a stream that is closed: then
`RotatingFileBackend` and `WatchedFileBackend` raise in every call until their
worker ends. `TimedRotatingFileBackend` rolls over again, and heals, as long as the
clock has not gone back.

* `sink_heals` — exactly when such a call writes its text, and that no run gets a
  closed stream whose renames, removals and reopenings go through;
* `rotating_sink_falls_silent` — one failed rename, and nothing is written any more.
-/

namespace ScietexLogging

open Asyncio Posix

/-- Only the backend works on its file; it stays where the path leads. -/
def FileRun.Act.Undisturbed (cfg : FileConfig) : FileRun.Act → Prop
  | .external _ => False
  | .chdir _ => cfg.filename.absolute = true
  | _ => True

instance (cfg : FileConfig) (a : FileRun.Act) : Decidable (a.Undisturbed cfg) :=
  match a with
  | .external _ => isFalse id
  | .chdir _ => inferInstanceAs (Decidable (_ = _))
  | .write _ => isTrue trivial
  | .close => isTrue trivial

/-- A rollover or a reopening fails half way only in calls that are not smooth. -/
def FileRun.Act.Smooth : FileRun.Act → Prop
  | .write c => c.Smooth
  | _ => True

/-- The call returns, and its text is at the end of the log file. -/
def Writes (cfg : FileConfig) (w : FileWorld) (c : WriteCall) : Prop :=
  ∃ w', (FileBackend.writeRecord cfg c).exec w = (.ok (), w') ∧
    (w'.fs.texts cfg.baseFilename).getLast? = some c.text

/-- The rotator's own format does not raise, where it is asked for one. -/
def Renders (cfg : FileConfig) (c : WriteCall) : Prop :=
  ∀ maxBytes backupCount, cfg.kind = .rotating maxBytes backupCount → 0 < maxBytes →
    ∃ msg, defaultFormat c.record = .ok msg

/-- The stream is not a closed one, or it is time to roll over. -/
def Usable (cfg : FileConfig) (w : FileWorld) (c : WriteCall) : Prop :=
  Stale w → ∃ o, cfg.kind = .timed o ∧ w.rolloverAt ≤ c.now

/-- The backends that close their stream between two writes. -/
def FileKind.Rolls : FileKind → Prop
  | .plain => False
  | .rotating maxBytes _ => 0 < maxBytes
  | .timed _ | .watched => True

namespace FileBackend

variable {cfg : FileConfig} {c : WriteCall} {w w' : FileWorld}

/-- What the rotators have in common. -/
structure Rotator (cfg : FileConfig) (c : WriteCall) (should : FileM Bool) (roll : FileM Unit) :
    Prop where
  decides : ∀ h w r w', w.managed = some h → should.exec w = (r, w') → Decides h w r w'
  managed : ∀ h w r w', w.managed = some h → should.exec w = (r, w') → w'.managed = some h
  rolls : ∀ w w', should.exec w = (.ok true, w') → cfg.kind.Rolls
  rolled : ∀ h w r w', w.managed = some h → roll.exec w = (r, w') → RollsOver h w r w'
  smooth : c.Smooth → ∀ h w, w.managed = some h → ∃ w', roll.exec w = (.ok (), w')

theorem rotator_size {maxBytes backupCount : Int} (hk : cfg.kind = .rotating maxBytes backupCount) :
    Rotator cfg c (sizeReached c maxBytes) (rollSize cfg c backupCount) where
  decides _ _ _ _ hm hw := (sizeReached_sizes hm hw).decides
  managed _ _ _ _ hm hw := by
    cases sizeReached_sizes hm hw with
    | unlimited _ | unformatted _ _ | unsought _ _ | sought _ _ _ _ => exact hm
  rolls w w' hw := by
    rw [hk]
    show 0 < maxBytes
    by_contra hle
    rw [sizeReached, if_neg hle] at hw
    exact absurd (Prod.mk.inj hw).1 (by simp)
  rolled _ _ _ _ := rollSize_rollsOver
  smooth hc _ _ hm := (rollover_returns hc hm).1 backupCount

theorem rotator_time {o : TimedOptions} (hk : cfg.kind = .timed o) :
    Rotator cfg c (timeReached c) (rollTime cfg c o) where
  decides h w r w' _ hw := by
    rw [timeReached_eq] at hw
    obtain ⟨rfl, rfl⟩ := Prod.mk.inj hw
    exact .keeps _
  managed h w r w' hm hw := by
    rw [timeReached_eq] at hw
    rw [← (Prod.mk.inj hw).2, hm]
  rolls _ _ _ := by rw [hk]; trivial
  rolled _ _ _ _ := rollTime_rollsOver
  smooth hc _ _ hm := (rollover_returns hc hm).2 o

-- ---------------------------------------------------------------------------
-- What a call leaves
-- ---------------------------------------------------------------------------

/-- Up to the decision, and up to the end of the rollover. -/
theorem Rotator.decided {should : FileM Bool} {roll : FileM Unit} {h : Nat} {r : Except IoError Bool}
    {w₁ w₂ : FileWorld} (hrot : Rotator cfg c should roll) (hw : Held cfg w)
    (opens : Opens cfg (c.goes .open) w (.ok h) w₁)
    (decide : should.exec { w₁ with managed := some h } = (r, w₂)) :
    Held cfg w₂ ∧ (Stale w₂ → Stale w) ∧ w₂.stream = some h ∧ w₂.managed = some h := by
  obtain ⟨hw₁, hst, hstream⟩ := hw.opens opens
  obtain ⟨hw₂, hst₂, hs₂⟩ := (hw₁.managed (some h)).decides (hstream _ rfl)
    (hrot.decides h { w₁ with managed := some h } _ _ rfl decide)
  exact ⟨hw₂, fun h => hst (hst₂ h), hs₂,
    hrot.managed h { w₁ with managed := some h } _ _ rfl decide⟩

theorem Rolling.held {should : FileM Bool} {roll : FileM Unit} {r : Except IoError Unit}
    (hrot : Rotator cfg c should roll) (hw : Held cfg w)
    (hcall : Rolling cfg c should roll w r w') :
    Held cfg w' ∧ (Stale w' → Stale w ∨ ¬ c.Smooth ∧ cfg.kind.Rolls) ∧
      (r = .ok () → (w'.fs.texts cfg.baseFilename).getLast? = some c.text) := by
  cases hcall with
  | unopened opens =>
    obtain ⟨hw₁, hst, -⟩ := hw.opens opens
    exact ⟨hw₁, fun h => .inl (hst h), by simp⟩
  | undecided opens decide =>
    obtain ⟨hw₂, hst, -⟩ := hrot.decided hw opens decide
    exact ⟨hw₂, fun h => .inl (hst h), by simp⟩
  | stays opens decide puts =>
    obtain ⟨hw₂, hst, hs₂, -⟩ := hrot.decided hw opens decide
    obtain ⟨hw₃, hst₃, htext⟩ := hw₂.puts hs₂ puts
    exact ⟨hw₃, fun h => .inl (hst (hst₃ h)), htext⟩
  | @unrolled h e w₁ w₂ _ opens decide rolled =>
    obtain ⟨hw₂, -, hs₂, hm₂⟩ := hrot.decided hw opens decide
    obtain ⟨hw₃, -, -⟩ := hw₂.rollsOver hs₂ (hrot.rolled _ _ _ _ hm₂ rolled)
    refine ⟨hw₃, fun _ => .inr ⟨fun hc => ?_, hrot.rolls _ _ decide⟩, by simp⟩
    obtain ⟨x, hx⟩ := hrot.smooth hc h w₂ hm₂
    exact absurd (Prod.mk.inj (hx.symm.trans rolled)).1 (by simp)
  | unreopened opens decide rolled reopens =>
    obtain ⟨hw₂, -, hs₂, hm₂⟩ := hrot.decided hw opens decide
    obtain ⟨hw₃, -, -⟩ := hw₂.rollsOver hs₂ (hrot.rolled _ _ _ _ hm₂ rolled)
    obtain ⟨hw₄, hst₄, -⟩ := hw₃.dropped.opens reopens
    refine ⟨hw₄, fun h => ?_, by simp⟩
    obtain ⟨k, hk, -⟩ := hst₄ h
    exact absurd hk (by simp)
  | rolls opens decide rolled reopens puts =>
    obtain ⟨hw₂, -, hs₂, hm₂⟩ := hrot.decided hw opens decide
    obtain ⟨hw₃, -, -⟩ := hw₂.rollsOver hs₂ (hrot.rolled _ _ _ _ hm₂ rolled)
    obtain ⟨hw₄, hst₄, hs₄⟩ := hw₃.dropped.opens reopens
    obtain ⟨hw₅, hst₅, htext⟩ := hw₄.puts (hs₄ _ rfl) puts
    refine ⟨hw₅, fun h => ?_, htext⟩
    obtain ⟨k, hk, -⟩ := hst₄ (hst₅ h)
    exact absurd hk (by simp)

theorem Watching.held {r : Except IoError Unit} (hk : cfg.kind = .watched) (hw : Held cfg w)
    (hcall : Watching cfg c w r w') :
    Held cfg w' ∧ (Stale w' → Stale w ∨ ¬ c.Smooth ∧ cfg.kind.Rolls) ∧
      (r = .ok () → (w'.fs.texts cfg.baseFilename).getLast? = some c.text) := by
  have hrolls : cfg.kind.Rolls := by rw [hk]; trivial
  cases hcall with
  | unopened opens =>
    obtain ⟨hw₁, hst, -⟩ := hw.opens opens
    exact ⟨hw₁, fun h => .inl (hst h), by simp⟩
  | unchecked opens check =>
    obtain ⟨hw₁, hst, hstream⟩ := hw.opens opens
    obtain ⟨hraised, -⟩ := (hw₁.managed (some _)).reopens (hstream _ rfl) rfl check
    obtain ⟨hw₂, hst₂⟩ := hraised _ rfl
    refine ⟨hw₂, fun h => ?_, by simp⟩
    rcases hst₂ h with h | h | h
    · exact .inl (hst h)
    · refine .inr ⟨fun hc => ?_, hrolls⟩
      rw [hc.openNew] at h
      exact absurd h (by simp)
    · refine .inr ⟨fun hc => ?_, hrolls⟩
      rw [hc.fstat] at h
      exact absurd h (by simp)
  | checked opens check managed puts =>
    obtain ⟨hw₁, hst, hstream⟩ := hw.opens opens
    obtain ⟨-, hdone⟩ := (hw₁.managed (some _)).reopens (hstream _ rfl) rfl check
    obtain ⟨hw₂, hst₂⟩ := hdone _ rfl managed
    obtain ⟨hw₃, hst₃, htext⟩ := hw₂.puts rfl puts
    exact ⟨hw₃, fun h => .inl (hst (hst₂ (hst₃ h))), htext⟩

/-- **What any call leaves.** -/
theorem writeRecord_held {r : Except IoError Unit} (hw : Held cfg w)
    (h : (writeRecord cfg c).exec w = (r, w')) :
    Held cfg w' ∧ (Stale w' → Stale w ∨ ¬ c.Smooth ∧ cfg.kind.Rolls) ∧
      (r = .ok () → (w'.fs.texts cfg.baseFilename).getLast? = some c.text) := by
  unfold writeRecord at h
  split at h
  · rw [writePlain] at h
    rcases Prog.bind_cases h with ⟨k, w₁, h₁, h₂⟩ | ⟨e, h₁, rfl⟩
    · obtain ⟨hw₁, hst, hstream⟩ := hw.opens (openStream_opens h₁)
      obtain ⟨hw₂, hst₂, htext⟩ := hw₁.puts (hstream _ rfl) (writeText_puts h₂)
      exact ⟨hw₂, fun h => .inl (hst (hst₂ h)), htext⟩
    · obtain ⟨hw₁, hst, -⟩ := hw.opens (openStream_opens h₁)
      exact ⟨hw₁, fun h => .inl (hst h), by simp⟩
  · rename_i hk
    exact (writeRolling_rolling h).held (rotator_size hk) hw
  · rename_i hk
    exact (writeRolling_rolling h).held (rotator_time hk) hw
  · rename_i hk
    exact (writeWatched_watching h).held hk hw

-- ---------------------------------------------------------------------------
-- When a call returns
-- ---------------------------------------------------------------------------

theorem Opens.not_error {goes : Bool} {e : IoError} (ho : Opens cfg goes w (.error e) w')
    (hg : goes = true) : False := by
  cases ho with
  | fails _ stay =>
    rw [hg] at stay
    exact absurd stay (by simp)

/-- Nothing but a closed stream stops the write. -/
theorem Puts.stale {h : Nat} {e : IoError} (hp : Puts c h w (.error e) w') (hc : c.Clean)
    (hs : w.stream = some h) : Stale w := by
  cases hp with
  | refused why =>
    refine ⟨h, hs, why.resolve_left ?_⟩
    rw [hc .write]
    simp
  | unflushed _ _ stay =>
    rw [hc .flush] at stay
    exact absurd stay (by simp)

/-- A stream that was stale is still what `_open_stream` returns. -/
theorem Opens.dead {goes : Bool} {h : Nat} (ho : Opens cfg goes w (.ok h) w') (hst : Stale w) :
    w' = w ∧ w.fs.live h = none := by
  obtain ⟨k, hk, hdead⟩ := hst
  cases ho with
  | has stream =>
    obtain rfl := Option.some.inj (hk.symm.trans stream)
    exact ⟨rfl, hdead⟩
  | opens stream _ =>
    rw [hk] at stream
    exact absurd stream (by simp)

/-- The text has been written: the stream was live. -/
theorem Puts.live {h : Nat} (hp : Puts c h w (.ok ()) w') : w.fs.live h ≠ none := by
  cases hp with
  | done live _ _ =>
    rw [live]
    simp

/-- A rotation backend that has written its text has decided, and stayed with a live
stream only. -/
theorem Rolling.returned {should : FileM Bool} {roll : FileM Unit}
    (hcall : Rolling cfg c should roll w (.ok ()) w') :
    ∃ h b w₁ w₂, Opens cfg (c.goes .open) w (.ok h) w₁ ∧
      should.exec { w₁ with managed := some h } = (.ok b, w₂) ∧ (b = false → w₂.fs.live h ≠ none) := by
  cases hcall with
  | stays opens decide puts => exact ⟨_, _, _, _, opens, decide, fun _ => puts.live⟩
  | rolls opens decide _ _ _ => exact ⟨_, _, _, _, opens, decide, by simp⟩

/-- A rotation backend all of whose operations go through raises where it decides, or
where it stays with a closed stream. -/
theorem Rolling.raised {should : FileM Bool} {roll : FileM Unit} {e : IoError}
    (hrot : Rotator cfg c should roll) (hw : Held cfg w) (hc : c.Clean)
    (hcall : Rolling cfg c should roll w (.error e) w') :
    ∃ h w₁ r w₂, Opens cfg (c.goes .open) w (.ok h) w₁ ∧
      should.exec { w₁ with managed := some h } = (r, w₂) ∧
      ((∃ e', r = .error e') ∨ Stale w ∧ r = .ok false) := by
  cases hcall with
  | unopened opens => exact (opens.not_error (hc _)).elim
  | undecided opens decide => exact ⟨_, _, _, _, opens, decide, .inl ⟨_, rfl⟩⟩
  | stays opens decide puts =>
    obtain ⟨-, hst, hs₂, -⟩ := hrot.decided hw opens decide
    exact ⟨_, _, _, _, opens, decide, .inr ⟨hst (puts.stale hc hs₂), rfl⟩⟩
  | unrolled opens decide rolled =>
    obtain ⟨-, -, -, hm₂⟩ := hrot.decided hw opens decide
    obtain ⟨x, hx⟩ := hrot.smooth hc.smooth _ _ hm₂
    exact absurd (Prod.mk.inj (hx.symm.trans rolled)).1 (by simp)
  | unreopened _ _ _ reopens => exact (reopens.not_error (hc _)).elim
  | rolls opens decide rolled reopens puts =>
    obtain ⟨hw₂, -, hs₂, hm₂⟩ := hrot.decided hw opens decide
    obtain ⟨hw₃, -, -⟩ := hw₂.rollsOver hs₂ (hrot.rolled _ _ _ _ hm₂ rolled)
    obtain ⟨-, hst₄, hs₄⟩ := hw₃.dropped.opens reopens
    obtain ⟨k, hnone, -⟩ := hst₄ (puts.stale hc (hs₄ _ rfl))
    exact absurd hnone (by simp)

theorem writeRotating_ok_iff {maxBytes backupCount : Int}
    (hk : cfg.kind = .rotating maxBytes backupCount) (hw : Held cfg w)
    (halive : Stale w → 0 < maxBytes) (hc : c.Clean) {r : Except IoError Unit}
    (h : (writeRotating cfg c maxBytes backupCount).exec w = (r, w')) :
    r = .ok () ↔ Usable cfg w c ∧ Renders cfg c := by
  constructor
  · rintro rfl
    obtain ⟨h', b, w₁, w₂, opens, decide, -⟩ := (writeRolling_rolling h).returned
    have sizes := sizeReached_sizes rfl decide
    refine ⟨fun hst => ?_, fun m b' hk' hm => ?_⟩
    · have hpos := halive hst
      obtain ⟨rfl, hdead⟩ := opens.dead hst
      cases sizes with
      | unlimited limit => omega
      | sought _ _ _ live =>
        have hlive : w₁.fs.live h' = some _ := live
        rw [hdead] at hlive
        exact absurd hlive (by simp)
    · obtain ⟨rfl, -⟩ := FileKind.rotating.inj (hk.symm.trans hk')
      cases sizes with
      | unlimited limit => omega
      | sought _ format _ _ => exact ⟨_, format⟩
  · rintro ⟨hu, hr⟩
    have hfresh : ¬ Stale w := by
      intro hst
      obtain ⟨o, ho, -⟩ := hu hst
      rw [hk] at ho
      exact absurd ho (by simp)
    cases r with
    | ok => rfl
    | error e =>
      obtain ⟨h', w₁, r, w₂, opens, decide, ⟨e', rfl⟩ | ⟨hst, -⟩⟩ :=
        (writeRolling_rolling h).raised (rotator_size hk) hw hc
      · obtain ⟨-, hst, hstream⟩ := hw.opens opens
        cases sizeReached_sizes rfl decide with
        | unformatted limit format =>
          obtain ⟨msg, hmsg⟩ := hr _ _ hk limit
          rw [hmsg] at format
          exact absurd format (by simp)
        | unsought _ why =>
          refine absurd (hst ⟨_, hstream _ rfl, why.resolve_left ?_⟩) hfresh
          rw [hc .seek]
          simp
      · exact absurd hst hfresh

theorem writeTimed_ok_iff {o : TimedOptions} (hk : cfg.kind = .timed o) (hw : Held cfg w)
    (hc : c.Clean) {r : Except IoError Unit} (h : (writeTimed cfg c o).exec w = (r, w')) :
    r = .ok () ↔ Usable cfg w c ∧ Renders cfg c := by
  have hrenders : Renders cfg c := fun m b hk' => by
    rw [hk] at hk'
    exact absurd hk' (by simp)
  constructor
  · rintro rfl
    refine ⟨fun hst => ⟨o, hk, ?_⟩, hrenders⟩
    obtain ⟨h', b, w₁, w₂, opens, decide, hlive⟩ := (writeRolling_rolling h).returned
    obtain ⟨rfl, hdead⟩ := opens.dead hst
    rw [timeReached_eq] at decide
    obtain ⟨hb, rfl⟩ := Prod.mk.inj decide
    by_contra hnot
    exact hlive (by rw [← Except.ok.inj hb]; simpa using hnot) hdead
  · rintro ⟨hu, -⟩
    cases r with
    | ok => rfl
    | error e =>
      obtain ⟨h', w₁, r, w₂, opens, hdecide, hr⟩ :=
        (writeRolling_rolling h).raised (rotator_time hk) hw hc
      rw [timeReached_eq] at hdecide
      obtain ⟨rfl, rfl⟩ := Prod.mk.inj hdecide
      rcases hr with ⟨e', he⟩ | ⟨hst, hfalse⟩
      · exact absurd he (by simp)
      · obtain ⟨rfl, -⟩ := opens.dead hst
        obtain ⟨-, -, hdue⟩ := hu hst
        have hnot : decide (w₁.rolloverAt ≤ c.now) = false := Except.ok.inj hfalse
        exact absurd hdue (by simpa using hnot)

theorem writeWatched_ok_iff (hk : cfg.kind = .watched) (hw : Held cfg w) (hc : c.Clean)
    {r : Except IoError Unit} (h : (writeWatched cfg c).exec w = (r, w')) :
    r = .ok () ↔ Usable cfg w c ∧ Renders cfg c := by
  have hrenders : Renders cfg c := fun m b hk' => by
    rw [hk] at hk'
    exact absurd hk' (by simp)
  have hgo : ∀ op, c.goes op = false → False := fun op h => by
    rw [hc op] at h
    exact absurd h (by simp)
  constructor
  · rintro rfl
    refine ⟨fun hst => ?_, hrenders⟩
    cases writeWatched_watching h with
    | checked opens check managed puts =>
      obtain ⟨rfl, hdead⟩ := opens.dead hst
      cases check with
      | same _ _ =>
        obtain rfl := Option.some.inj managed
        exact absurd hdead puts.live
      | reopens _ live _ _ =>
        rw [show FileSystem.live _ _ = none from hdead] at live
        exact absurd live (by simp)
  · rintro ⟨hu, -⟩
    have hfresh : ¬ Stale w := by
      intro hst
      obtain ⟨o, ho, -⟩ := hu hst
      rw [hk] at ho
      exact absurd ho (by simp)
    cases r with
    | ok => rfl
    | error e =>
      exfalso
      cases writeWatched_watching h with
      | unopened opens => exact opens.not_error (hc _)
      | unchecked opens check =>
        obtain ⟨-, hst, hstream⟩ := hw.opens opens
        cases check with
        | unseen stay => exact hgo _ stay
        | unflushed _ why =>
          exact hfresh (hst ⟨_, hstream _ rfl, why.resolve_left fun h => hgo _ h⟩)
        | unopened _ _ stay => exact hgo _ stay
        | unknown _ _ _ stay => exact hgo _ stay
      | checked opens check managed puts =>
        obtain ⟨hw₁, hst, hstream⟩ := hw.opens opens
        obtain ⟨-, hdone⟩ := (hw₁.managed (some _)).reopens (hstream _ rfl) rfl check
        obtain ⟨-, hst₂⟩ := hdone _ rfl managed
        exact hfresh (hst (hst₂ (puts.stale hc rfl)))

/-- **When a call all of whose operations go through writes its text.** -/
theorem writes_iff (hw : Held cfg w) (halive : Stale w → cfg.kind.Rolls) (hc : c.Clean) :
    Writes cfg w c ↔ Usable cfg w c ∧ Renders cfg c := by
  rcases h : (writeRecord cfg c).exec w with ⟨r, w'⟩
  obtain ⟨-, -, htext⟩ := writeRecord_held hw h
  have hok : Writes cfg w c ↔ r = .ok () := by
    constructor
    · rintro ⟨v, hv, -⟩
      exact (Prod.mk.inj (h.symm.trans hv)).1
    · rintro rfl
      exact ⟨w', h, htext rfl⟩
  rw [hok]
  unfold writeRecord at h
  split at h
  · rename_i hk
    have hfresh : ¬ Stale w := fun hst => by
      have := halive hst
      rw [hk] at this
      exact this
    have hrenders : Renders cfg c := fun m b hk' => by
      rw [hk] at hk'
      exact absurd hk' (by simp)
    refine ⟨fun _ => ⟨fun hst => absurd hst hfresh, hrenders⟩, fun _ => ?_⟩
    rw [writePlain] at h
    rcases Prog.bind_cases h with ⟨k, w₁, h₁, h₂⟩ | ⟨e, h₁, -⟩
    · obtain ⟨-, hst, hstream⟩ := hw.opens (openStream_opens h₁)
      cases r with
      | ok => rfl
      | error e => exact absurd (hst ((writeText_puts h₂).stale hc (hstream _ rfl))) hfresh
    · exact ((openStream_opens h₁).not_error (hc _)).elim
  · rename_i hk
    exact writeRotating_ok_iff hk hw (fun hst => by have := halive hst; rwa [hk] at this) hc h
  · rename_i hk
    exact writeTimed_ok_iff hk hw hc h
  · rename_i hk
    exact writeWatched_ok_iff hk hw hc h

end FileBackend

-- ---------------------------------------------------------------------------
-- Runs
-- ---------------------------------------------------------------------------

namespace FileRun

variable {cfg : FileConfig} {s t : FileRun}

theorem held_init (h : Init cfg s) : Held cfg s.world ∧ ¬ Stale s.world := by
  obtain ⟨fs, at₀, hs, -, rfl⟩ := h
  refine ⟨⟨hs, fun _ hk => absurd hk (by simp), fun _ _ hk => absurd hk (by simp), rfl⟩, ?_⟩
  rintro ⟨k, hk, -⟩
  exact absurd hk (by simp)

theorem resolve_absolute {f : Filename} (h : f.absolute = true) (cwd cwd' : List String) :
    f.resolve cwd = f.resolve cwd' := (f.resolve_eq_iff cwd cwd').mpr (.inl h)

@[simp] theorem afterWrite_world (c : WriteCall) (p : Except IoError Unit × FileWorld) :
    (s.afterWrite c p).world = p.2 := by
  rcases p with ⟨_ | _, w⟩
  · rfl
  · rfl

/-- What a step leaves. -/
theorem held_step {a : Act} (hw : Held cfg s.world) (ha : a.Undisturbed cfg)
    (h : FileRun.step cfg s a = some t) :
    Held cfg t.world ∧ (Stale t.world → Stale s.world ∨ ¬ a.Smooth ∧ cfg.kind.Rolls) := by
  cases a with
  | write c =>
    obtain rfl := Option.some.inj h
    rw [afterWrite_world]
    obtain ⟨hw', hst, -⟩ := FileBackend.writeRecord_held hw rfl
    exact ⟨hw', hst⟩
  | close =>
    obtain rfl := Option.some.inj h
    exact ⟨hw.close.1, fun hst => absurd hst hw.close.2⟩
  | chdir dir =>
    obtain rfl := Option.some.inj h
    refine ⟨⟨hw.sound, hw.held, hw.meant, ?_⟩, fun hst => .inl hst⟩
    exact (resolve_absolute ha _ _).trans hw.here
  | external e => exact ha.elim

theorem held_of_reachable (h : (machine cfg).Reachable (fun _ a => a.Undisturbed cfg) s) :
    Held cfg s.world ∧ (Stale s.world → cfg.kind.Rolls) := by
  refine Machine.invariant (I := fun s => Held cfg s.world ∧ (Stale s.world → cfg.kind.Rolls))
    (fun s hs => ⟨(held_init hs).1, fun hst => absurd hst (held_init hs).2⟩) ?_ h
  rintro s a t ⟨hw, halive⟩ ha hstep
  obtain ⟨hw', hst⟩ := held_step hw ha hstep
  exact ⟨hw', fun h => (hst h).elim halive fun h => h.2⟩

/-- **File sinks heal.** In every run, a call whose operations all go through writes
its text if and only if the backend was not left with a closed stream, or is timed
and due, and the rotator's format does not raise; and no run whose renames, removals
and reopenings go through leaves a backend so. -/
theorem sink_heals (cfg : FileConfig) :
    (∀ s, (machine cfg).Reachable (fun _ a => a.Undisturbed cfg) s → ∀ c, c.Clean →
      (Writes cfg s.world c ↔ Usable cfg s.world c ∧ Renders cfg c)) ∧
    ∀ s, (machine cfg).Reachable (fun _ a => a.Undisturbed cfg ∧ a.Smooth) s →
      ¬ Stale s.world ∧ ∀ c, c.Clean → Renders cfg c → Writes cfg s.world c := by
  refine ⟨fun s h c hc => ?_, fun s h => ?_⟩
  · obtain ⟨hw, halive⟩ := held_of_reachable h
    exact FileBackend.writes_iff hw halive hc
  · have hfresh : Held cfg s.world ∧ ¬ Stale s.world := by
      refine Machine.invariant (I := fun s => Held cfg s.world ∧ ¬ Stale s.world)
        (fun s hs => held_init hs) ?_ h
      rintro s a t ⟨hw, hn⟩ ⟨ha, hsmooth⟩ hstep
      obtain ⟨hw', hst⟩ := held_step hw ha hstep
      exact ⟨hw', fun h => (hst h).elim hn fun h => h.1 hsmooth⟩
    refine ⟨hfresh.2, fun c hc hr => ?_⟩
    exact (FileBackend.writes_iff hfresh.1 (fun hst => absurd hst hfresh.2) hc).mpr
      ⟨fun hst => absurd hst hfresh.2, hr⟩

/-- A log file of ten bytes with one backup. -/
def smallLog : FileConfig := ⟨.rotating 10 1, ⟨true, [.down "var"], "app.log"⟩, .append, []⟩

/-- Nothing is there, and the backend has just been constructed. -/
def empty : FileRun := ⟨⟨⟨fun _ => none, fun _ => [], 0, fun _ => none, 0⟩, [], none, none, none, 0, 0⟩, []⟩

theorem empty_init (cfg : FileConfig) (h : cfg.builtIn = []) : Init cfg empty := by
  refine ⟨⟨fun _ => none, fun _ => [], 0, fun _ => none, 0⟩, 0, ⟨?_, ?_, ?_, ?_⟩, fun _ => rfl, ?_⟩
  · exact fun _ _ h => absurd h (by simp)
  · exact fun _ _ _ h => absurd h (by simp)
  · exact fun _ _ => rfl
  · exact fun _ _ h => absurd h (by simp)
  · rw [h]
    rfl

def plainRecord (text : String) : FileRecord := ⟨.ok text, none, none⟩

/-- A call whose flush fails. -/
def unflushedCall : WriteCall :=
  ⟨"started\n", plainRecord "started", 0, fun op => op ≠ .flush⟩

/-- It does no lasting harm. -/
theorem sink_heals_flush :
    ∃ t, step smallLog empty (.write unflushedCall) = some t ∧
      Writes smallLog t.world ⟨"ready\n", plainRecord "ready", 0, fun _ => true⟩ := by
  have hsmooth : unflushedCall.Smooth :=
    ⟨fun _ => rfl, fun _ => rfl, rfl, rfl, fun _ => rfl, rfl, rfl⟩
  refine ⟨_, rfl, ((sink_heals smallLog).2 _ ?_).2 _ (fun _ => rfl) fun _ _ _ _ => ⟨_, rfl⟩⟩
  exact (Machine.Reachable.init (empty_init smallLog rfl)).step (a := .write unflushedCall)
    ⟨trivial, hsmooth⟩ rfl

/-- The rename of one rollover fails; the next call finds the file closed. -/
theorem rotating_sink_falls_silent :
    ¬ ∀ cfg s, (machine cfg).Reachable (fun _ a => a.Undisturbed cfg) s → ∀ c, c.Clean →
      Writes cfg s.world c := by
  intro hall
  have hrun : ∃ t, (machine smallLog).run (fun _ a => a.Undisturbed smallLog) empty
      [.write ⟨"started\n", plainRecord "started", 0, fun _ => true⟩,
       .write ⟨"ready\n", plainRecord "ready", 0, fun op => op ≠ .renameActive⟩] = some t ∧
      ((FileBackend.writeRecord smallLog ⟨"lost\n", plainRecord "lost", 0, fun _ => true⟩).exec
        t.world).1 = .error .valueError := ⟨_, rfl, rfl⟩
  obtain ⟨t, ht, hraised⟩ := hrun
  obtain ⟨w, hw, -⟩ := hall smallLog t (.of_run (empty_init _ rfl) ht)
    ⟨"lost\n", plainRecord "lost", 0, fun _ => true⟩ (fun _ => rfl)
  rw [hw] at hraised
  cases hraised

end FileRun

end ScietexLogging
