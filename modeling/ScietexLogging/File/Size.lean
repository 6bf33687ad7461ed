import ScietexLogging.File.Archive

/-!
# File — the size of a rotating log

`RotatingFileBackend` asks its rotator whether a record still fits, and the rotator
renders the record by its own format, not by the handler's: what it measures is not
what is written.

* `size_within` — the log stays within its limit in the runs where the difference
  does not matter, and a call takes it over the limit exactly where it does;
* `size_exceeded` — two records under a format with the time in it.
-/

namespace ScietexLogging

open Asyncio Posix

namespace FileBackend

variable {cfg : FileConfig} {c : WriteCall} {w w' : FileWorld}

/-- The length of the log file that the first `_open_stream` finds, or leaves. -/
def startSize (cfg : FileConfig) (w : FileWorld) : Nat :=
  if w.stream = none ∧ cfg.openMode = .truncate then 0 else logSize cfg w

/-- The rotator's estimate rolls the log over, or the text fits, or the log is empty. -/
def Agrees (cfg : FileConfig) (w : FileWorld) (c : WriteCall) : Prop :=
  ∀ maxBytes backupCount msg, cfg.kind = .rotating maxBytes backupCount →
    defaultFormat c.record = .ok msg →
    maxBytes ≤ (startSize cfg w : Int) + (msg.length + 1) ∨
      (startSize cfg w : Int) + c.text.utf8ByteSize < maxBytes ∨ startSize cfg w = 0

theorem logSize_readied (hw : Held cfg w) : logSize cfg (readied cfg w) = startSize cfg w := by
  rw [logSize, readied_texts hw, startSize]
  by_cases hcut : w.stream = none ∧ cfg.openMode = .truncate
  · rw [if_pos ⟨rfl, hcut⟩, if_pos hcut]
    rfl
  · rw [if_neg fun h => hcut h.2, if_neg hcut]
    rfl

/-- Nothing but the last text. -/
theorem join_append_eq_iff (texts : List String) (text : String) :
    String.join (texts ++ [text]) = text ↔ (String.join texts).utf8ByteSize = 0 := by
  rw [String.utf8ByteSize_eq_zero_iff, String.join_append, String.join_cons, String.join_nil,
    String.append_empty]
  constructor
  · intro h
    refine (String.append_left_inj text).mp ?_
    rw [h, String.empty_append]
  · intro h
    rw [h, String.empty_append]

end FileBackend

namespace FileRun

open FileBackend

variable {cfg : FileConfig} {s t : FileRun} {c : WriteCall}

/-- The log file is shorter than `maxBytes`, or it holds the last text only. -/
def Within (cfg : FileConfig) (s : FileRun) : Prop :=
  ∀ maxBytes backupCount e, cfg.kind = .rotating maxBytes backupCount →
    s.written.getLast? = some e →
    (logSize cfg s.world : Int) < maxBytes ∨
      String.join (s.world.fs.texts cfg.baseFilename) = e.text

/-- The texts are ASCII. -/
def Act.Ascii (a : Act) : Prop := ∀ c, a = .write c → ∀ ch ∈ c.text.toList, ch.toNat < 128

theorem Within.idles (hs : Within cfg s) (hi : Idles cfg s t) : Within cfg t := by
  intro m b e hk he
  rw [hi.written] at he
  rw [logSize, hi.texts]
  exact hs m b e hk he

/-- **A call stays within the limit if the estimate does no harm.** -/
theorem within_iff {m b : Int} (hk : cfg.kind = .rotating m b) (hb : 1 ≤ b)
    (hw : Tidy cfg s.world) {w' : FileWorld}
    (ht : Turn cfg c (readied cfg s.world) (.ok ()) w') (hr : Renders cfg c) (hm : 0 < m) :
    Within cfg (s.afterWrite c (.ok (), w')) ↔ Agrees cfg s.world c := by
  obtain ⟨msg, hmsg⟩ := hr m b hk hm
  have hkept : cfg.kept = b.toNat := by rw [FileConfig.kept, hk]
  have hfull : Full cfg (readied cfg s.world) c ↔
      m ≤ (startSize cfg s.world : Int) + (msg.length + 1) := by
    rw [← logSize_readied hw.held]
    constructor
    · rintro ⟨m', b', msg', hk', -, hmsg', hle⟩
      obtain ⟨rfl, -⟩ := FileKind.rotating.inj (hk.symm.trans hk')
      obtain rfl := Except.ok.inj (hmsg.symm.trans hmsg')
      exact hle
    · exact fun hle => ⟨m, b, msg, hk, hm, hmsg, hle⟩
  have hagrees : Agrees cfg s.world c ↔ m ≤ (startSize cfg s.world : Int) + (msg.length + 1) ∨
      (startSize cfg s.world : Int) + c.text.utf8ByteSize < m ∨ startSize cfg s.world = 0 := by
    constructor
    · exact fun h => h m b msg hk hmsg
    · intro h m' b' msg' hk' hmsg'
      obtain ⟨rfl, -⟩ := FileKind.rotating.inj (hk.symm.trans hk')
      obtain rfl := Except.ok.inj (hmsg.symm.trans hmsg')
      exact h
  have hwithin : Within cfg (s.afterWrite c (.ok (), w')) ↔
      (logSize cfg w' : Int) < m ∨ String.join (w'.fs.texts cfg.baseFilename) = c.text := by
    constructor
    · exact fun h => h m b _ hk List.getLast?_concat
    · intro h m' b' e hk' he
      obtain ⟨rfl, -⟩ := FileKind.rotating.inj (hk.symm.trans hk')
      obtain rfl := Option.some.inj (he.symm.trans List.getLast?_concat)
      exact h
  rw [hwithin, hagrees]
  cases ht with
  | @stays w' fits names texts rollovers =>
    have htexts := texts cfg.baseFilename
    rw [if_pos rfl] at htexts
    have hold : (String.join (FileSystem.texts (readied cfg s.world).fs
        cfg.baseFilename)).utf8ByteSize = startSize cfg s.world := logSize_readied hw.held
    rw [logSize, htexts, join_append_eq_iff, String.join_append, String.utf8ByteSize_append, hold]
    rw [hfull] at fits
    rw [String.join_cons, String.join_nil, String.append_empty, Int.natCast_add]
    constructor
    · exact .inr
    · exact fun h => h.resolve_left fits
  | @rolls w' full keeps slid active rest rollovers =>
    have htext : String.join (w'.fs.texts cfg.baseFilename) = c.text := by
      rw [active, String.join_cons, String.join_nil, String.append_empty]
    exact iff_of_true (.inr htext) (.inl (hfull.mp full))
  | restarts _ keeps _ _ _ => omega

/-- A text that was written could be rendered by the rotator. -/
theorem renders_of_ok (hw : Tidy cfg s.world) (hc : c.Clean) {w' : FileWorld}
    (h : (writeRecord cfg c).exec s.world = (.ok (), w')) : Renders cfg c := by
  obtain ⟨-, -, htext⟩ := writeRecord_held hw.held h
  have hwrites : Writes cfg s.world c := ⟨w', h, htext rfl⟩
  exact ((writes_iff hw.held (fun hst => absurd hst hw.not_stale) hc).mp hwrites).2

/-- A call that raises has at most opened the file. -/
theorem Within.refused {m b : Int} (hs : Within cfg s) (hk : cfg.kind = .rotating m b) (hm : 0 < m)
    (hw : Tidy cfg s.world) {w' : FileWorld} (hfs : w'.fs = (readied cfg s.world).fs) {e : IoError} :
    Within cfg (s.afterWrite c (.error e, w')) := by
  intro m' b' last hk' hlast
  obtain ⟨rfl, -⟩ := FileKind.rotating.inj (hk.symm.trans hk')
  show (logSize cfg w' : Int) < m ∨ String.join (w'.fs.texts _) = last.text
  rw [logSize, hfs, readied_texts hw.held]
  split
  · exact .inl hm
  · exact hs m b last hk hlast

/-- **The log stays within its limit** in the runs each of whose calls rolls over by
the rotator's estimate, or writes a text that fits, or finds the log empty; a call that
does none of these takes it over the limit. -/
theorem size_within {m b : Int} (hk : cfg.kind = .rotating m b) (hm : 0 < m) (hb : 1 ≤ b) :
    (∀ s, (machine cfg).Reachable (fun s a => a.Untroubled cfg ∧
      ∀ c, a = .write c → Agrees cfg s.world c) s → Within cfg s) ∧
    ∀ s, (machine cfg).Reachable (fun _ a => a.Untroubled cfg) s → ∀ c, c.Clean →
      ∀ w', (writeRecord cfg c).exec s.world = (.ok (), w') →
      (Within cfg (s.afterWrite c (.ok (), w')) ↔ Agrees cfg s.world c) := by
  have hnum : cfg.Numbered := .inr ⟨m, b, hk⟩
  refine ⟨fun s h => ?_, fun s h c hc w' hw' => ?_⟩
  · have hinv : Tidy cfg s.world ∧ Within cfg s := by
      refine Machine.invariant (I := fun s => Tidy cfg s.world ∧ Within cfg s)
        (fun s hs => ⟨tidy_init hs, ?_⟩) ?_ h
      · obtain ⟨fs, at₀, -, -, rfl⟩ := hs
        exact fun _ _ _ _ he => absurd he (by simp)
      · rintro s a t ⟨hw, hs⟩ ⟨ha, hagrees⟩ hstep
        obtain ⟨hw', hidles | ⟨c, r, w', rfl, hcall, hturn, -, rfl⟩⟩ := step_turns hw hnum ha hstep
        · exact ⟨hw', hs.idles hidles⟩
        · refine ⟨hw', ?_⟩
          cases r with
          | error e =>
            cases hturn with
            | refused _ fs _ => exact hs.refused hk hm hw fs
          | ok =>
            have hr := renders_of_ok hw (ha.2 c rfl) hcall
            exact (within_iff hk hb hw hturn hr hm).mpr (hagrees c rfl)
    exact hinv.2
  · have hw : Tidy cfg s.world :=
      Machine.invariant (I := fun s => Tidy cfg s.world) (fun _ => tidy_init)
        (fun _ _ _ hw ha hstep => (step_turns hw hnum ha hstep).1) h
    obtain ⟨-, -, hturn⟩ := writeRecord_turn hw hnum hc hw'
    exact within_iff hk hb hw hturn (renders_of_ok hw hc hw') hm

/-- A log of forty bytes with one backup. -/
def datedLog : FileConfig := ⟨.rotating 40 1, ⟨true, [.down "var"], "app.log"⟩, .append, []⟩

/-- A call of a format with the time in it. -/
def datedLine (message : String) : WriteCall :=
  ⟨"2026-01-01 00:00:00 " ++ message ++ "\n", plainRecord message, 0, fun _ => true⟩

theorem untroubled_datedLine (cfg : FileConfig) (message : String) :
    Act.Untroubled cfg (.write (datedLine message)) :=
  ⟨trivial, fun c hc op => by rw [← Act.write.inj hc]; rfl⟩

/-- One record fits. -/
theorem size_within_first :
    ∃ t, FileRun.step datedLog empty (.write (datedLine "up")) = some t ∧ Within datedLog t ∧
      logSize datedLog t.world = 23 := by
  refine ⟨_, rfl, (@size_within datedLog 40 1 rfl (by decide) (by decide)).1 _ ?_, by decide⟩
  refine (Machine.Reachable.init (empty_init datedLog rfl)).step
    (a := .write (datedLine "up")) ⟨untroubled_datedLine _ _, fun c hc => ?_⟩ rfl
  rw [← Act.write.inj hc]
  exact fun _ _ _ _ _ => .inr (.inr rfl)

/-- The rotator takes the second record for three bytes. -/
theorem size_exceeded :
    ¬ ∀ cfg m b, cfg.kind = .rotating m b → 0 < m → 1 ≤ b → ∀ s₀, Fresh cfg s₀ → ∀ s,
      (machine cfg).Reaches (fun _ a => a.Untroubled cfg ∧ a.Ascii) s₀ s → Within cfg s := by
  intro hall
  have hascii : ∀ message, (datedLine message).text.toList.all (fun ch => ch.toNat < 128) = true →
      (Act.write (datedLine message)).Ascii := fun message h c hc ch hch => by
    rw [← Act.write.inj hc] at hch
    exact of_decide_eq_true (List.all_eq_true.mp h ch hch)
  have hrun : ∃ s, (machine datedLog).Reaches (fun _ a => a.Untroubled datedLog ∧ a.Ascii) empty s ∧
      s.written.map Written.text = ["2026-01-01 00:00:00 up\n", "2026-01-01 00:00:00 on\n"] ∧
      s.world.fs.texts datedLog.baseFilename =
        ["2026-01-01 00:00:00 up\n", "2026-01-01 00:00:00 on\n"] :=
    ⟨_, ((Machine.Reaches.refl empty).tail
      ⟨untroubled_datedLine _ "up", hascii _ rfl⟩ rfl).tail
      ⟨untroubled_datedLine _ "on", hascii _ rfl⟩ rfl, rfl, rfl⟩
  obtain ⟨s, hrun, hwritten, htexts⟩ := hrun
  have hlast : ∃ e, s.written.getLast? = some e ∧ e.text = "2026-01-01 00:00:00 on\n" := by
    have := congrArg List.getLast? hwritten
    rw [List.getLast?_map] at this
    exact Option.map_eq_some_iff.mp this
  obtain ⟨e, he, htext⟩ := hlast
  rcases hall datedLog 40 1 rfl (by decide) (by decide) empty (fresh_empty _ rfl) s hrun 40 1 e rfl he
    with hlt | hjoin
  · rw [logSize, htexts] at hlt
    exact absurd hlt (by decide)
  · rw [htexts, htext] at hjoin
    exact absurd hjoin (by decide)

end FileRun

end ScietexLogging
