import ScietexLogging.File.JsonLines
import ScietexLogging.Pipeline.Shutdown
import ScietexLogging.Sink.Journal

/-!
# Pipeline — the handler and its log file

The whole handler, and the file that one of its backends writes to: a write that ends on the
executor's thread of its worker is a call of `_write_record` on that file, and how it ends is
what the call says.

* `recording`    — the two of them as one machine;
* `keeps_the_log` — the log file has the lines of the queue, in its order, whatever threads,
                    workers, cancellations and restarts there were.
-/

namespace ScietexLogging

open Asyncio

variable {k : Nat}

/-- The formatter, of the record of an item. -/
def ofItem (format : LogRecord → Except String String) (x : Item) : Except String String :=
  format x.record

-- ---------------------------------------------------------------------------
-- The journal of a file backend
-- ---------------------------------------------------------------------------

namespace FileDesk

/-- What a segment of the worker of start `c` has to do with the file. -/
def fileStep (d : FileDesk) (c : Nat) (a : SinkAct) : FileStep :=
  ((d.tasks c).map fun t : SinkTask Item =>
    SinkSide.fileStep (α := Item) a (d.shared, d.ledger, t)).getD .aside

/-- What the workers of the backend have written. -/
def output (d : FileDesk) : List (Nat × String) := Sink.output (α := Item) d.shared

/-- The workers of the backend write what the queue says, and none of them but the last. -/
structure Journaled (format : LogRecord → Except String String) (d : FileDesk) : Prop where
  journal : ∃ jobs, Journal (ofItem format) d.ledger jobs d.output ∧
    ∀ c, ∀ t : SinkTask Item, d.tasks c = some t → (Job.lines t.executor.jobs).Sublist jobs
  verdict : ∀ c, ∀ t : SinkTask Item, d.tasks c = some t → ∀ n record job ok,
    t.pc = .writing n record job → t.executor.finished job = some ok →
      (ok = true ↔ ∃ text, (n, text) ∈ d.output)

variable {format : LogRecord → Except String String} {d d' : FileDesk}

theorem Journaled.new (maxsize : Nat) :
    Journaled format (.new (sinkConsumer (.file true) Item) maxsize) where
  journal := ⟨[], .new maxsize, fun c t ht => by cases ht⟩
  verdict := fun c t ht => by cases ht

/-- Items are put in, and workers are asked to end. -/
theorem Journaled.grow (hj : Journaled format d) (h : d.Grows d') : Journaled format d' := by
  have hback : ∀ c, ∀ t' : SinkTask Item, d'.tasks c = some t' →
      ∃ t : SinkTask Item, d.tasks c = some t ∧ t'.pc = t.pc ∧ t'.executor = t.executor := by
    intro c t' ht'
    rcases h.tasks c with heq | heq
    · exact ⟨t', by rw [← heq, ht'], rfl, rfl⟩
    · rw [heq] at ht'
      obtain ⟨t, ht, rfl⟩ := Option.map_eq_some_iff.mp ht'
      refine ⟨t, ht, ?_⟩
      unfold Desk.cancelTask
      split
      · exact ⟨rfl, rfl⟩
      · exact ⟨rfl, rfl⟩
  have houtput : d'.output = d.output := congrArg (Sink.output (α := Item)) h.shared
  obtain ⟨jobs, hjournal, hjobs⟩ := hj.journal
  refine ⟨⟨jobs, ?_, fun c t' ht' => ?_⟩, fun c t' ht' n record job ok hpc hdone => ?_⟩
  · rw [houtput]
    exact hjournal.mono (fun n x hx => h.getElem? hx) (Nat.le_of_eq h.taken.symm) h.acks
  · obtain ⟨t, ht, -, hex⟩ := hback c t' ht'
    rw [hex]
    exact hjobs c t ht
  · obtain ⟨t, ht, hpc', hex⟩ := hback c t' ht'
    rw [houtput]
    exact hj.verdict c t ht n record job ok (hpc' ▸ hpc) (hex ▸ hdone)

theorem Journaled.hire (hj : Journaled format d) (c : Nat) : Journaled format (d.hire c) := by
  have hback : ∀ c', ∀ t : SinkTask Item, (d.hire c).tasks c' = some t →
      t = ⟨.created, .new, false⟩ ∨ d.tasks c' = some t := by
    intro c' t ht
    by_cases hc : c' = c
    · have hself : (d.hire c).tasks c = some (⟨.created, .new, false⟩ : SinkTask Item) :=
        Function.update_self ..
      rw [hc, hself] at ht
      exact .inl (Option.some.inj ht).symm
    · have hother : (d.hire c).tasks c' = d.tasks c' := Function.update_of_ne hc ..
      rw [hother] at ht
      exact .inr ht
  obtain ⟨jobs, hjournal, hjobs⟩ := hj.journal
  refine ⟨⟨jobs, hjournal, fun c' t ht => ?_⟩, fun c' t ht n record job ok hpc hdone => ?_⟩
  · rcases hback c' t ht with rfl | ht
    · exact List.nil_sublist _
    · exact hjobs c' t ht
  · rcases hback c' t ht with rfl | ht
    · cases hpc
    · exact hj.verdict c' t ht n record job ok hpc hdone

/-- The teardown takes out what nobody has rendered. -/
theorem Journaled.clear (hj : Journaled format d) (h : d.Cleared d') : Journaled format d' := by
  obtain ⟨jobs, hjournal, hjobs⟩ := hj.journal
  have htasks : ∀ c, ∀ t : SinkTask Item, d'.tasks c = some t → d.tasks c = some t := fun c t ht => by
    rw [← h.tasks]
    exact ht
  have houtput : d'.output = d.output := congrArg (Sink.output (α := Item)) h.shared
  have hold : ∀ p ∈ d.output ++ jobs, d'.ledger.acks p.1 = d.ledger.acks p.1 := fun p hp =>
    h.old p.1 (hjournal.taken p hp)
  refine ⟨⟨jobs, ?_, fun c t ht => hjobs c t (htasks c t ht)⟩, ?_⟩
  · rw [houtput]
    refine ⟨hjournal.order, fun p hp => ?_, by rw [h.log]; exact hjournal.rendered, fun p hp => ?_,
      fun p hp => ?_, fun n hn => ?_⟩
    · obtain ⟨x, -, hx, -, -⟩ := hjournal.rendered p hp
      exact Nat.lt_of_lt_of_le (List.getElem?_eq_some_iff.mp hx).1 h.length_le
    · rw [hold p (List.mem_append_right _ hp)]
      exact hjournal.pending p hp
    · rw [hold p (List.mem_append_left _ hp)]
      exact hjournal.written p hp
    · refine hjournal.done n ?_
      rcases Nat.lt_or_ge n d.ledger.taken with hlt | hge
      · rw [← h.old n hlt, hn]
      · -- what was dropped was not written
        have hwritten : Outcome.written ∈ d'.ledger.acks n := hn ▸ List.mem_singleton_self _
        exact absurd (h.acks hge hwritten) nofun
  · rw [houtput]
    exact fun c t ht => hj.verdict c t (htasks c t ht)

/-- **One segment** of the only worker that has not ended. -/
theorem Journaled.work (hj : Journaled format d) (hd : Tidy d) (hs : d.Sound)
    (hone : ∀ c c', d.Alive c → d.Alive c' → c = c') {running : Bool} {c : Nat} {a : SinkAct}
    (hr : SinkSide.Renders (ofItem format) a d.ledger) (h : d.work running c a = some d') :
    Journaled format d' := by
  obtain ⟨t, ht, hmap⟩ := Option.bind_eq_some_iff.mp h
  obtain ⟨y, hy, rfl⟩ := Option.map_eq_some_iff.mp hmap
  obtain ⟨x, l, t'⟩ := y
  have hhand : d.hand c = SinkPc.hand (α := Item) (SinkTask.pc t) := by
    rw [Desk.hand, ht]
    rfl
  have hholds := hs.holds c
  rw [hhand] at hholds
  have hsegment := SinkSide.step_segment hs.ledger hholds hy
  cases he : SinkPc.ended? (α := Item) (SinkTask.pc t) with
  | some e =>
    have hpc := ended_of_ended? he
    exact absurd hsegment (SinkSide.not_segment_of_down hpc (hd.ended c t ht e hpc))
  | none =>
    have halive : d.Alive c := (alive_iff ht).mpr he
    obtain ⟨jobs, hjournal, hjobs⟩ := hj.journal
    have hside : SinkSide.Journaled (α := Item) (ofItem format) (x, l, t') :=
      SinkSide.Journaled.step (x := (d.shared, d.ledger, t))
        ⟨hjournal.drop (hjobs c t ht), hj.verdict c t ht⟩
        ⟨hd.streams, hd.jobs c t ht, hd.working c t ht he⟩ hs.ledger hholds hr hsegment
    have hself : Function.update d.tasks c (some t') c = some t' := Function.update_self ..
    have hback : ∀ c', ∀ u : SinkTask Item, Function.update d.tasks c (some t') c' = some u →
        u = t' ∨ ∃ e, u.pc = .ended e ∧ u.executor.Down := by
      intro c' u hu
      by_cases hc : c' = c
      · rw [hc, hself] at hu
        exact .inl (Option.some.inj hu).symm
      · have hu' : d.tasks c' = some u := (Function.update_of_ne hc _ _).symm.trans hu
        -- the others have ended
        cases hend : SinkPc.ended? (α := Item) (SinkTask.pc u) with
        | none => exact absurd (hone c' c ((alive_iff hu').mpr hend) halive) hc
        | some e =>
          have hpc := ended_of_ended? hend
          exact .inr ⟨e, hpc, hd.ended c' u hu' e hpc⟩
    refine ⟨⟨Job.lines t'.executor.jobs, hside.journal, fun c' u hu => ?_⟩,
      fun c' u hu n record job ok hpc hdone => ?_⟩
    · rcases hback c' u hu with rfl | ⟨e, -, hdown⟩
      · exact List.Sublist.refl _
      · rw [SinkSide.lines_eq_nil (Executor.jobs_eq_nil.mpr hdown.1)]
        exact List.nil_sublist _
    · rcases hback c' u hu with rfl | ⟨e, hended, -⟩
      · exact hside.verdict n record job ok hpc hdone
      · rw [hended] at hpc
        cases hpc

/-- What a segment writes is what it has to do with the file. -/
theorem output_work {running : Bool} {c : Nat} {a : SinkAct} (hs : d.Sound)
    (h : d.work running c a = some d') :
    d'.output = d.output ++ match fileStep d c a with
      | .writes n text true => [(n, text)]
      | _ => [] := by
  obtain ⟨t, ht, hmap⟩ := Option.bind_eq_some_iff.mp h
  obtain ⟨y, hy, rfl⟩ := Option.map_eq_some_iff.mp hmap
  have hhand : d.hand c = SinkPc.hand (α := Item) (SinkTask.pc t) := by
    rw [Desk.hand, ht]
    rfl
  have hholds := hs.holds c
  rw [hhand] at hholds
  have hstep : fileStep d c a = SinkSide.fileStep (α := Item) a (d.shared, d.ledger, t) := by
    rw [fileStep, ht]
    rfl
  rw [hstep]
  exact SinkSide.output_segment (x := (d.shared, d.ledger, t)) (SinkSide.step_segment hs.ledger hholds hy)

end FileDesk

namespace BackendKind

/-- What a segment has to do with a file of the backend's own. -/
def fileStep : (b : BackendKind) → Desk b.program → Nat → b.program.Act → FileStep
  | .sink (.file true), d, c, a => FileDesk.fileStep d c a
  | .sink .console, _, _, _ | .sink (.file false), _, _, _ | .broker _, _, _, _ => .aside

/-- The texts of a file backend are what `format` makes of the records. -/
def Renders (format : LogRecord → Except String String) :
    (b : BackendKind) → Desk b.program → b.program.Act → Prop
  | .sink (.file true), d, a => SinkSide.Renders (ofItem format) a d.ledger
  | .sink .console, _, _ | .sink (.file false), _, _ | .broker _, _, _ => True

instance decidableRendersText (format : LogRecord → Except String String) (a : SinkAct)
    (l : Ledger Item Outcome) : Decidable (SinkSide.Renders (ofItem format) a l) :=
  match a with
  | .get (.text text) =>
    match hitems : l.queue.items.head? with
    | none => isTrue fun _ _ _ h => by cases hitems.symm.trans h
    | some x =>
      decidable_of_iff (format x.record = .ok text) ⟨fun h _ _ ha hx => by
        obtain rfl := Option.some.inj (hitems.symm.trans hx)
        obtain rfl := Rendering.text.inj (SinkAct.get.inj ha)
        exact h, fun h => h text x rfl hitems⟩
  | .get .unset | .get (.raises _) | .start | .timeout | .jobDone _ | .deliver | .release
  | .jobBegins | .writeEnds _ | .closeEnds _ => isTrue nofun

instance decidableRenders (format : LogRecord → Except String String) :
    (b : BackendKind) → (d : Desk b.program) → (a : b.program.Act) → Decidable (b.Renders format d a)
  | .sink (.file true), d, a => decidableRendersText format a d.ledger
  | .sink .console, _, _ | .sink (.file false), _, _ | .broker _, _, _ => isTrue trivial

/-- What a backend with a file of its own has written. -/
def output : (b : BackendKind) → b.program.Shared → List (Nat × String)
  | .sink (.file true), (s : Sink Item) => s.output
  | .sink .console, _ | .sink (.file false), _ | .broker _, _ => []

variable {b : BackendKind} {d d' : Desk b.program} {format : LogRecord → Except String String}

theorem journaled_new (b : BackendKind) (maxsize : Nat) :
    b.OfFile (FileDesk.Journaled format) (.new b.program maxsize) := by
  rcases b with (_ | ⟨_ | _⟩) | _
  · trivial
  · trivial
  · exact .new maxsize
  · trivial

theorem journaled_grow (hj : b.OfFile (FileDesk.Journaled format) d) (h : d.Grows d') :
    b.OfFile (FileDesk.Journaled format) d' := by
  rcases b with (_ | ⟨_ | _⟩) | _
  · trivial
  · trivial
  · exact hj.grow h
  · trivial

theorem journaled_hire (hj : b.OfFile (FileDesk.Journaled format) d) (c : Nat) :
    b.OfFile (FileDesk.Journaled format) (d.hire c) := by
  rcases b with (_ | ⟨_ | _⟩) | _
  · trivial
  · trivial
  · exact hj.hire c
  · trivial

theorem journaled_clear (hj : b.OfFile (FileDesk.Journaled format) d) (h : d.Cleared d') :
    b.OfFile (FileDesk.Journaled format) d' := by
  rcases b with (_ | ⟨_ | _⟩) | _
  · trivial
  · trivial
  · exact hj.clear h
  · trivial

theorem journaled_work (hj : b.OfFile (FileDesk.Journaled format) d) (hd : b.OfFile FileDesk.Tidy d)
    (hs : d.Sound) (hone : ∀ c c', d.Alive c → d.Alive c' → c = c') {running : Bool} {c : Nat}
    {a : b.program.Act} (hr : b.Renders format d a) (h : d.work running c a = some d') :
    b.OfFile (FileDesk.Journaled format) d' := by
  rcases b with (_ | ⟨_ | _⟩) | _
  · trivial
  · trivial
  · exact hj.work hd hs hone hr h
  · trivial

/-- What a segment of the worker of a backend writes to its file. -/
theorem output_work {running : Bool} {c : Nat} {a : b.program.Act} (hs : d.Sound)
    (h : d.work running c a = some d') :
    b.output d'.shared = b.output d.shared ++ match b.fileStep d c a with
      | .writes n text true => [(n, text)]
      | _ => [] := by
  rcases b with (_ | ⟨_ | _⟩) | _
  · rfl
  · rfl
  · exact FileDesk.output_work hs h
  · rfl

/-- The journal of a backend that has a file. -/
theorem OfFile.journal (hb : b = .sink (.file true)) (hj : b.OfFile (FileDesk.Journaled format) d) :
    ∃ jobs, Journal (ofItem format) d.ledger jobs (b.output d.shared) := by
  subst hb
  obtain ⟨jobs, hjournal, -⟩ := FileDesk.Journaled.journal hj
  exact ⟨jobs, hjournal⟩

end BackendKind

-- ---------------------------------------------------------------------------
-- The handler and the file
-- ---------------------------------------------------------------------------

/-- The handler, and the file of one of its backends. -/
structure Recording (cfg : Config k) where
  handler : Pipeline cfg
  file : FileRun

/-- A step of the handler. Where a write ends with it, these are the arguments of its
`_write_record` besides the text, the time, and which operations succeed. -/
structure RecordingAct (cfg : Config k) where
  act : PipelineAct cfg
  record : FileRecord
  now : Int
  goes : FsOp → Bool

namespace RecordingAct

variable {cfg : Config k}

def call (a : RecordingAct cfg) (text : String) : WriteCall := ⟨text, a.record, a.now, a.goes⟩

end RecordingAct

namespace Recording

variable {cfg : Config k}

def fileStep (f : Fin k) (s : Pipeline cfg) : PipelineAct cfg → FileStep
  | .worker i c a => if i = f then (cfg.kind i).fileStep (s.desks i) c a else .aside
  | _ => .aside

/-- What happens to the file; a write ends as its call does. -/
def onFile (fcfg : FileConfig) (s : Recording cfg) (a : RecordingAct cfg) : FileStep → Option FileRun
  | .aside => some s.file
  | .closes => FileRun.step fcfg s.file .close
  | .writes _ text returned =>
    if ((FileBackend.writeRecord fcfg (a.call text)).exec s.file.world).1.toBool = returned then
      FileRun.step fcfg s.file (.write (a.call text))
    else none

def step (f : Fin k) (fcfg : FileConfig) (s : Recording cfg) (a : RecordingAct cfg) :
    Option (Recording cfg) :=
  (s.handler.step a.act).bind fun t =>
    (s.onFile fcfg a (fileStep f s.handler a.act)).map fun file => ⟨t, file⟩

end Recording

/-- Backend `f` of the handler writes to a file of its own. -/
def recording (cfg : Config k) (f : Fin k) (fcfg : FileConfig) :
    Machine (Recording cfg) (RecordingAct cfg) where
  init := fun s => s.handler = .init cfg ∧ FileRun.Fresh fcfg s.file
  step := Recording.step f fcfg

namespace Recording

variable {cfg : Config k} {f : Fin k} {fcfg : FileConfig} {format : LogRecord → Except String String}
  {s t : Recording cfg} {a : RecordingAct cfg}

/-- What backend `f` has written, each text with the number of its entry in the queue. -/
def output (f : Fin k) (s : Recording cfg) : List (Nat × String) :=
  (cfg.kind f).output (s.handler.desks f).shared

/-- The formatter of the backend is `format`. -/
def Renders (f : Fin k) (format : LogRecord → Except String String) (s : Recording cfg) :
    PipelineAct cfg → Prop
  | .worker i _ a => i = f → (cfg.kind i).Renders format (s.handler.desks i) a
  | _ => True

/-- No `stop_logging` raises and no file worker is disturbed in its cleanup; the handler's
formatter is `format`; and the operations on the file succeed. -/
structure Proper (f : Fin k) (format : LogRecord → Except String String) (s : Recording cfg)
    (a : RecordingAct cfg) : Prop where
  handler : s.handler.ClosesUndisturbed a.act
  renders : s.Renders f format a.act
  clean : ∀ op, a.goes op = true

theorem step_eq_some (h : s.step f fcfg a = some t) :
    s.handler.step a.act = some t.handler ∧ s.onFile fcfg a (fileStep f s.handler a.act) = some t.file := by
  obtain ⟨u, hu, hmap⟩ := Option.bind_eq_some_iff.mp h
  obtain ⟨file, hfile, rfl⟩ := Option.map_eq_some_iff.mp hmap
  exact ⟨hu, hfile⟩

/-- The handler runs as without the file. -/
theorem handler_reachable (h : (recording cfg f fcfg).Reachable (Proper f format) s) :
    (pipeline cfg).Reachable Pipeline.ClosesUndisturbed s.handler := by
  refine Machine.invariant (I := fun s => (pipeline cfg).Reachable Pipeline.ClosesUndisturbed s.handler)
    ?_ ?_ h
  · rintro s ⟨hinit, -⟩
    exact .init hinit
  · exact fun s a t hr hok hstep => hr.step hok.handler (step_eq_some hstep).1

/-- The journal of the backend, along the run. -/
theorem journaled (h : (recording cfg f fcfg).Reachable (Proper f format) s) :
    (cfg.kind f).OfFile (FileDesk.Journaled format) (s.handler.desks f) := by
  refine Machine.invariant_with
    (J := fun s => (pipeline cfg).Reachable Pipeline.ClosesUndisturbed s.handler)
    (I := fun s => (cfg.kind f).OfFile (FileDesk.Journaled format) (s.handler.desks f))
    (fun _ => handler_reachable) ?_ ?_ h
  · rintro s ⟨hinit, -⟩
    rw [hinit]
    exact BackendKind.journaled_new (cfg.kind f) (cfg.queueMaxsize f)
  · rintro s a t hreach hj hok hstep
    have hi := Pipeline.staffed (fun _ _ => Pipeline.ClosesUndisturbed.returning) hreach
    have hsound := Pipeline.desks_sound hreach f
    refine (Pipeline.step_changed (step_eq_some hstep).1).desk hsound (fun c act d hact hwork => ?_)
      (fun _ hgrows => BackendKind.journaled_grow hj hgrows) (BackendKind.journaled_hire hj _)
      (fun _ hclear => BackendKind.journaled_clear hj hclear)
    have hrenders := hok.renders
    rw [hact] at hrenders
    exact BackendKind.journaled_work hj (Pipeline.tidy hreach f) hsound
      (hi.one (Pipeline.control hreach)) (hrenders rfl) hwork

/-- What a step writes is what it has to do with the file. -/
theorem output_step (hs : ∀ i, (s.handler.desks i).Sound) (h : s.step f fcfg a = some t) :
    t.output f = s.output f ++ match fileStep f s.handler a.act with
      | .writes n text true => [(n, text)]
      | _ => [] := by
  have hhandler := (step_eq_some h).1
  by_cases hwork : ∃ c act, a.act = .worker f c act
  · obtain ⟨c, act, hact⟩ := hwork
    rw [hact] at hhandler
    have hthis : fileStep f s.handler a.act = (cfg.kind f).fileStep (s.handler.desks f) c act := by
      rw [hact, fileStep, if_pos rfl]
    obtain ⟨d, hd, ht⟩ := Option.map_eq_some_iff.mp hhandler
    have hdesk : t.handler.desks f = d := by
      rw [← ht]
      exact Function.update_self ..
    rw [hthis, output, hdesk]
    exact BackendKind.output_work (hs f) hd
  · have haside : fileStep f s.handler a.act = .aside := by
      cases hact : a.act with
      | worker i c act =>
        have hne : i ≠ f := by
          rintro rfl
          exact hwork ⟨c, act, hact⟩
        rw [fileStep, if_neg hne]
      | _ => rfl
    rw [haside]
    refine Eq.trans ?_ (List.append_nil _).symm
    refine (Pipeline.step_changed hhandler).desk (hs f)
      (I := fun d => (cfg.kind f).output d.shared = s.output f)
      (fun c act _ hact _ => (hwork ⟨c, act, hact⟩).elim) (fun d hgrows => ?_) rfl fun d hclear => ?_
    · rw [hgrows.shared]
      rfl
    · rw [hclear.shared]
      rfl

theorem texts_afterWrite (s : FileRun) (c : WriteCall) (r : Except IoError Unit × FileWorld) :
    (s.afterWrite c r).written.map Written.text =
      s.written.map Written.text ++ if r.1.toBool then [c.text] else [] := by
  obtain ⟨r | r, w⟩ := r
  · exact (List.append_nil _).symm
  · exact List.map_append

/-- What was written to the file is what the backend has written. -/
theorem texts_written (h : (recording cfg f fcfg).Reachable (Proper f format) s) :
    s.file.written.map Written.text = (s.output f).map Prod.snd := by
  refine Machine.invariant_with
    (J := fun s => (pipeline cfg).Reachable Pipeline.ClosesUndisturbed s.handler)
    (I := fun s => s.file.written.map Written.text = (s.output f).map Prod.snd)
    (fun _ => handler_reachable) ?_ ?_ h
  · rintro s ⟨hinit, ⟨fs, at₀, -, -, hfile⟩, -⟩
    have hnone : s.output f = [] := by
      rw [output, hinit]
      show (cfg.kind f).output (cfg.kind f).program.initial = []
      rcases cfg.kind f with (_ | ⟨_ | _⟩) | _
      · rfl
      · rfl
      · rfl
      · rfl
    rw [hfile, hnone]
    rfl
  · rintro s a t hreach htexts - hstep
    have hfile := (step_eq_some hstep).2
    rw [output_step (fun i => Pipeline.desks_sound hreach i) hstep, List.map_append, ← htexts]
    cases hact : fileStep f s.handler a.act with
    | aside =>
      rw [hact] at hfile
      rw [← Option.some.inj hfile]
      exact (List.append_nil _).symm
    | closes =>
      rw [hact] at hfile
      rw [← Option.some.inj hfile]
      exact (List.append_nil _).symm
    | writes n text returned =>
      rw [hact] at hfile
      obtain ⟨hreturned, hfile⟩ := Option.ite_none_right_eq_some.mp hfile
      rw [← Option.some.inj hfile, texts_afterWrite, hreturned]
      cases returned with
      | false => rfl
      | true => rfl

/-- The file is used as a file backend uses it. -/
theorem file_run (h : (recording cfg f fcfg).Reachable (Proper f format) s) :
    ∃ s₀, FileRun.Fresh fcfg s₀ ∧
      (FileRun.machine fcfg).Reaches (fun _ act => act.Untroubled fcfg) s₀ s.file := by
  refine Machine.invariant (I := fun s => ∃ s₀, FileRun.Fresh fcfg s₀ ∧
    (FileRun.machine fcfg).Reaches (fun _ act => act.Untroubled fcfg) s₀ s.file) ?_ ?_ h
  · rintro s ⟨-, hfresh⟩
    exact ⟨s.file, hfresh, .refl _⟩
  · rintro s a t ⟨s₀, hfresh, hrun⟩ hok hstep
    have hfile := (step_eq_some hstep).2
    refine ⟨s₀, hfresh, ?_⟩
    cases hact : fileStep f s.handler a.act with
    | aside =>
      rw [hact] at hfile
      rw [← Option.some.inj hfile]
      exact hrun
    | closes =>
      rw [hact] at hfile
      exact hrun.tail (FileRun.untroubled_close fcfg) hfile
    | writes n text returned =>
      rw [hact] at hfile
      obtain ⟨-, hfile⟩ := Option.ite_none_right_eq_some.mp hfile
      refine hrun.tail (a := .write (a.call text)) ⟨trivial, fun c hc op => ?_⟩ hfile
      rw [← FileRun.Act.write.inj hc]
      exact hok.clean op

instance (f : Fin k) (format : LogRecord → Except String String) (s : Recording cfg) :
    (a : PipelineAct cfg) → Decidable (s.Renders f format a)
  | .worker i _ a =>
    have := BackendKind.decidableRenders format (cfg.kind i) (s.handler.desks i) a
    inferInstanceAs (Decidable (i = f → _))
  | .emitCall _ | .emit _ | .runSet _ | .bridge _ | .cancelWorker _ _ | .close | .start _ | .stop
  | .advance | .bridgeAwaited | .joined _ | .drainReturns _ | .drainTimesOut _ | .drainFails _ _
  | .report _ | .gathered | .deadline | .gatherEnds | .gatherRaises | .gatherEndsRaising | .reaped =>
    isTrue trivial

/-- Line `line` is that of entry `p` of the queue. -/
def LineOf (format : LogRecord → Except String String) (l : Ledger Item Outcome) (p : Nat)
    (line : String) : Prop :=
  ∃ x text, l.log[p]? = some x ∧ format x.record = .ok text ∧ line = text ++ "\n"

theorem lines_of_journal {jobs output : List (Nat × String)} {l : Ledger Item Outcome}
    (hj : Journal (ofItem format) l jobs output) :
    List.Forall₂ (LineOf format l) (output.map Prod.fst) (output.map Prod.snd) := by
  rw [List.forall₂_map_left_iff, List.forall₂_map_right_iff, List.forall₂_same]
  intro p hp
  exact hj.rendered p (List.mem_append_left _ hp)

/-- **The handler keeps its log.** In every run in which no `stop_logging` raises, the file
worker is not disturbed in its cleanup and the operations on the file succeed, whatever threads
call `emit`, whenever workers are cancelled and however often logging is stopped and started:
the slots of the file, read from the highest to the log file, are the lines of entries of the
backend's queue, in its order and each of them once, but for the first ones, which are followed
by more rollovers than there are backups. Every entry acknowledged as written is among them,
and the others are not acknowledged yet, or were interrupted with their write under way. -/
theorem keeps_the_log (hf : cfg.kind f = .sink (.file true)) (hk : fcfg.Numbered)
    (hmode : fcfg.mode = .append) (h : (recording cfg f fcfg).Reachable (Proper f format) s) {n : Nat}
    (hn : fcfg.kept ≤ n) :
    ∃ ps lines, ps.Pairwise (· < ·) ∧
      (∀ p, (s.handler.desks f).ledger.acks p = [.written] → p ∈ ps) ∧
      (∀ p ∈ ps, (s.handler.desks f).ledger.acks p = [] ∨
        (s.handler.desks f).ledger.acks p = [.written] ∨
        (s.handler.desks f).ledger.acks p = [.interrupted]) ∧
      List.Forall₂ (LineOf format (s.handler.desks f).ledger) ps lines ∧
      FileRun.reading fcfg s.file n = lines.drop (FileRun.gone fcfg s.file) := by
  obtain ⟨jobs, hjournal⟩ := BackendKind.OfFile.journal hf (journaled h)
  obtain ⟨s₀, hfresh, hrun⟩ := file_run h
  obtain ⟨a, hshelved⟩ := FileRun.shelved_of_reaches hk hmode (fun _ _ hok => hok) hfresh hrun
  refine ⟨(s.output f).map Prod.fst, (s.output f).map Prod.snd, ?_, fun p hp => ?_, fun p hp => ?_,
    lines_of_journal hjournal, ?_⟩
  · rw [List.pairwise_map]
    exact (List.pairwise_append.mp hjournal.order).1
  · obtain ⟨text, htext⟩ := hjournal.done p hp
    exact List.mem_map.mpr ⟨_, htext, rfl⟩
  · obtain ⟨q, hq, rfl⟩ := List.mem_map.mp hp
    exact hjournal.written q hq
  · rw [hshelved.reading_eq hn, texts_written h]

open Pipeline (fileAndConsole theFile theConsole fileWorker consoleWorker)

/-- A step during which all operations on the file succeed. -/
def smooth (message : String) (a : PipelineAct fileAndConsole) :
    RecordingAct fileAndConsole :=
  ⟨a, FileRun.plainRecord message, 0, fun _ => true⟩

/-- The first of two records is written. -/
def firstWritten : List (PipelineAct fileAndConsole) :=
  let record (message : String) : LogRecord := ⟨20, "app", .ok message, .ok "1970-01-01T00:00:00+00:00"⟩
  [.start 8, .advance, .advance, .advance, .advance, fileWorker .start,
    consoleWorker .start,
    .emitCall (record "alpha"), .emit 0, .emit 0, .emit 0, .emit 0, .emit 0, .emit 0,
    .emitCall (record "bravo"), .emit 1, .emit 1, .emit 1, .emit 1, .emit 1, .emit 1,
    .runSet 1, .bridge 1, .bridge 1, .bridge 1, .bridge 1,
    fileWorker (.get (.text "alpha")), fileWorker .jobBegins,
    fileWorker (.writeEnds ⟨true, .keep, true⟩), fileWorker (.jobDone "")]

/-- The worker is cancelled during the write of the second, and closes its file. -/
def secondInterrupted : List (PipelineAct fileAndConsole) :=
  [fileWorker (.get (.text "bravo")), fileWorker .jobBegins, .bridge 1, .bridge 1,
    .stop, .bridge 1, .bridgeAwaited, .advance, .drainTimesOut theFile,
    .drainTimesOut theConsole, .report fun _ _ => "1970-01-01T00:00:05+00:00", .deadline,
    fileWorker .deliver, fileWorker (.writeEnds ⟨true, .keep, true⟩),
    fileWorker .jobBegins, fileWorker (.closeEnds true),
    fileWorker (.jobDone ""), fileWorker .release]

/-- The record whose write was interrupted is in the log file, and the other in its backup. -/
theorem keeps_the_log_interrupted : ∃ s : Recording fileAndConsole,
    (s.handler.desks theFile).ledger.acks 0 = [.written] ∧
    (s.handler.desks theFile).ledger.acks 1 = [.interrupted] ∧
    FileRun.reading FileRun.smallLog s.file 0 = ["bravo\n"] ∧
    ∃ ps lines, ps.Pairwise (· < ·) ∧
      (∀ p, (s.handler.desks theFile).ledger.acks p = [.written] → p ∈ ps) ∧
      (∀ p ∈ ps, (s.handler.desks theFile).ledger.acks p = [] ∨
        (s.handler.desks theFile).ledger.acks p = [.written] ∨
        (s.handler.desks theFile).ledger.acks p = [.interrupted]) ∧
      List.Forall₂ (LineOf LogRecord.message (s.handler.desks theFile).ledger) ps lines ∧
      FileRun.reading FileRun.smallLog s.file 1 = lines.drop (FileRun.gone FileRun.smallLog s.file) := by
  have hrun : ((recording fileAndConsole theFile FileRun.smallLog).run
      (fun s a => s.handler.ClosesUndisturbed a.act ∧ s.Renders theFile LogRecord.message a.act)
      ⟨Pipeline.init fileAndConsole, FileRun.empty⟩
      (firstWritten.map (smooth "alpha") ++ secondInterrupted.map (smooth "bravo"))).any (fun s =>
        decide ((s.handler.desks theFile).ledger.acks 0 = [.written] ∧
          (s.handler.desks theFile).ledger.acks 1 = [.interrupted] ∧
          FileRun.reading FileRun.smallLog s.file 0 = ["bravo\n"])) = true := by
    decide +kernel
  obtain ⟨s, hs, hends⟩ := (Option.any_eq_true _ _).mp hrun
  obtain ⟨hwritten, hinterrupted, hfile⟩ := of_decide_eq_true hends
  have hclean : ∀ a ∈ firstWritten.map (smooth "alpha") ++ secondInterrupted.map (smooth "bravo"),
      ∀ op, a.goes op = true := by
    intro a ha op
    rcases List.mem_append.mp ha with ha | ha
    · obtain ⟨act, -, rfl⟩ := List.mem_map.mp ha
      rfl
    · obtain ⟨act, -, rfl⟩ := List.mem_map.mp ha
      rfl
  refine ⟨s, hwritten, hinterrupted, hfile, keeps_the_log rfl (.inr ⟨_, _, rfl⟩) rfl ?_ (Nat.le_refl 1)⟩
  exact Machine.Reachable.mono (fun _ _ hok => ⟨hok.1.1, hok.1.2, hok.2⟩)
    ⟨_, ⟨rfl, FileRun.fresh_empty _ rfl⟩, .of_run_forall hs hclean⟩

end Recording

end ScietexLogging
