import ScietexLogging.Pipeline.Restart
import ScietexLogging.Sink.Cleanup

/-!
# Pipeline — what `stop_logging` leaves of a file

`stop_logging` cancels the workers that miss its deadline, and again those that are still
there when the first of them has ended: `gather` ends with the first cancelled child. The
second cancellation meets a file worker in its own cleanup, if a write on its executor takes
longer than another worker takes to end. The close is taken back, the executor is left up,
and `stop_logging` returns while the write goes on.

* `Tidy`        — the streams of a file backend, and its workers with their executors;
* `stop_closes` — a `stop_logging` that returns leaves every file closed and every executor
                  shut down, if no cancellation meets the cleanup of a worker.
-/

namespace ScietexLogging

open Asyncio

variable {k : Nat}

-- ---------------------------------------------------------------------------
-- A file backend
-- ---------------------------------------------------------------------------

/-- The desk of a backend that owns its file. -/
abbrev FileDesk := Desk (sinkConsumer (.file true) Item)

namespace FileDesk

/-- The workers of the backend, and its stream. -/
structure Tidy (d : FileDesk) : Prop where
  streams : Sink.Disciplined (α := Item) d.shared
  jobs : ∀ c, ∀ t : SinkTask Item, d.tasks c = some t → t.executor.Sound
  working : ∀ c, ∀ t : SinkTask Item, d.tasks c = some t → t.pc.ended? = none →
    SinkSide.Cleanup (α := Item) d.shared t.executor t.pc
  ended : ∀ c, ∀ t : SinkTask Item, d.tasks c = some t → ∀ e, t.pc = .ended e → t.executor.Down
  free : (∀ c, ¬ d.Alive c) → Sink.stream (α := Item) d.shared = none

/-- Every file that was opened is closed, nothing was written to a closed one, and no worker
has left anything to do. -/
structure Shut (d : FileDesk) : Prop where
  stream : Sink.stream (α := Item) d.shared = none
  closed : ∀ s, .opened s ∈ Sink.events (α := Item) d.shared →
    .closed s ∈ Sink.events (α := Item) d.shared
  last : (Sink.events (α := Item) d.shared).Pairwise fun e e' => ∀ s, e = .closed s → e' ≠ .wrote s
  workers : ∀ c, ∀ t : SinkTask Item, d.tasks c = some t → (∃ e, t.pc = .ended e) ∧ t.executor.Down

theorem ended_of_ended? {α : Type} {pc : SinkPc α} {e : TaskEnd} (h : pc.ended? = some e) :
    pc = .ended e := by
  cases pc with
  | ended e' => rw [Option.some.inj h]
  | _ => cases h

theorem alive_iff {d : FileDesk} {c : Nat} {t : SinkTask Item} (ht : d.tasks c = some t) :
    d.Alive c ↔ t.pc.ended? = none := by
  rw [Desk.Alive, Desk.taskEnd, ht]
  exact and_iff_right rfl

theorem Tidy.shut {d : FileDesk} (hd : Tidy d) (hnone : ∀ c, ¬ d.Alive c) : Shut d := by
  have hstream := hd.free hnone
  refine ⟨hstream, fun s hs => (hd.streams.closed s hs).resolve_left ?_, hd.streams.last, ?_⟩
  · rw [hstream]
    exact fun h => by cases h
  · intro c t ht
    cases he : t.pc.ended? with
    | none => exact absurd ((alive_iff ht).mpr he) (hnone c)
    | some e =>
      have hpc := ended_of_ended? he
      exact ⟨⟨e, hpc⟩, hd.ended c t ht e hpc⟩

theorem Tidy.new (maxsize : Nat) : Tidy (.new (sinkConsumer (.file true) Item) maxsize) where
  streams := ⟨fun s hs => absurd hs List.not_mem_nil, .nil⟩
  jobs := fun c t ht => by cases ht
  working := fun c t ht => by cases ht
  ended := fun c t ht => by cases ht
  free := fun _ => rfl

/-- A step that leaves the stream alone and does no more to a worker than ask it to end. -/
theorem Tidy.congr {d d' : FileDesk} (hd : Tidy d) (hshared : d'.shared = d.shared)
    (htasks : ∀ c, d'.tasks c = d.tasks c ∨ d'.tasks c = (d.tasks c).map Desk.cancelTask) :
    Tidy d' := by
  have hback : ∀ c, ∀ t' : SinkTask Item, d'.tasks c = some t' →
      ∃ t : SinkTask Item, d.tasks c = some t ∧ t'.pc = t.pc ∧ t'.executor = t.executor := by
    intro c t' ht'
    rcases htasks c with heq | heq
    · exact ⟨t', by rw [← heq, ht'], rfl, rfl⟩
    · rw [heq] at ht'
      obtain ⟨t, ht, rfl⟩ := Option.map_eq_some_iff.mp ht'
      refine ⟨t, ht, ?_⟩
      unfold Desk.cancelTask
      split
      · exact ⟨rfl, rfl⟩
      · exact ⟨rfl, rfl⟩
  have halive : ∀ c, d.Alive c → d'.Alive c := by
    rintro c ⟨hsome, hend⟩
    rcases htasks c with heq | heq
    · rw [Desk.Alive, Desk.taskEnd, heq]
      exact ⟨hsome, hend⟩
    · obtain ⟨t, ht⟩ := Option.isSome_iff_exists.mp hsome
      rw [Desk.taskEnd, ht] at hend
      rw [Desk.Alive, Desk.taskEnd, heq, ht]
      exact ⟨rfl, (Desk.cancelTask_ended t).trans hend⟩
  refine ⟨by rw [hshared]; exact hd.streams, fun c t' ht' => ?_, fun c t' ht' he => ?_,
    fun c t' ht' e he => ?_, fun hnone => ?_⟩
  · obtain ⟨t, ht, -, hex⟩ := hback c t' ht'
    rw [hex]
    exact hd.jobs c t ht
  · obtain ⟨t, ht, hpc, hex⟩ := hback c t' ht'
    rw [hpc] at he
    rw [hshared, hex, hpc]
    exact hd.working c t ht he
  · obtain ⟨t, ht, hpc, hex⟩ := hback c t' ht'
    rw [hex]
    exact hd.ended c t ht e (hpc ▸ he)
  · rw [hshared]
    exact hd.free fun c hc => hnone c (halive c hc)

theorem Tidy.hire {d : FileDesk} (hd : Tidy d) (hnone : ∀ c, ¬ d.Alive c) (c : Nat) :
    Tidy (d.hire c) := by
  have hstream := hd.free hnone
  have hback : ∀ c', ∀ t : SinkTask Item, (d.hire c).tasks c' = some t →
      t = ⟨.created, .new, false⟩ ∨ d.tasks c' = some t := by
    intro c' t ht
    by_cases hc : c' = c
    · have hself : (d.hire c).tasks c = some (⟨.created, .new, false⟩ : SinkTask Item) :=
        Function.update_self ..
      rw [hc, hself] at ht
      exact .inl (Option.some.inj ht).symm
    · have hother : (d.hire c).tasks c' = d.tasks c' := Function.update_of_ne hc ..
      rw [hother] at ht
      exact .inr ht
  refine ⟨hd.streams, fun c' t ht => ?_, fun c' t ht he => ?_, fun c' t ht e he => ?_, fun _ => hstream⟩
  · rcases hback c' t ht with rfl | ht
    · exact .new
    · exact hd.jobs c' t ht
  · rcases hback c' t ht with rfl | ht
    · exact ⟨rfl, hstream⟩
    · exact hd.working c' t ht he
  · rcases hback c' t ht with rfl | ht
    · cases he
    · exact hd.ended c' t ht e he

/-- The worker of start `c` is not disturbed in its cleanup by this step. -/
def undisturbed (d : FileDesk) (c : Nat) (a : SinkAct) : Bool :=
  (d.tasks c).all fun t : SinkTask Item => SinkSide.undisturbed a t.pc

/-- **One segment** of the only worker that has not ended. -/
theorem Tidy.work {d d' : FileDesk} (hd : Tidy d) (hs : d.Sound)
    (hone : ∀ c c', d.Alive c → d.Alive c' → c = c') {running : Bool} {c : Nat} {a : SinkAct}
    (hok : undisturbed d c a = true) (h : d.work running c a = some d') : Tidy d' := by
  obtain ⟨t, ht, hmap⟩ := Option.bind_eq_some_iff.mp h
  obtain ⟨y, hy, rfl⟩ := Option.map_eq_some_iff.mp hmap
  obtain ⟨x, l, t'⟩ := y
  have hhand : d.hand c = SinkPc.hand (α := Item) (SinkTask.pc t) := by
    rw [Desk.hand, ht]
    rfl
  have hholds := hs.holds c
  rw [hhand] at hholds
  have hsegment := SinkSide.step_segment hs.ledger hholds hy
  have hcalm : SinkSide.undisturbed a (SinkTask.pc (α := Item) t) = true := by
    rw [undisturbed, ht] at hok
    exact hok
  cases he : SinkPc.ended? (α := Item) (SinkTask.pc t) with
  | some e =>
    have hpc := ended_of_ended? he
    exact absurd hsegment (SinkSide.not_segment_of_down hpc (hd.ended c t ht e hpc))
  | none =>
    have htidy : SinkSide.Tidy (α := Item) (x, l, t') :=
      SinkSide.Tidy.step ⟨hd.streams, hd.jobs c t ht, hd.working c t ht he⟩ hcalm hsegment
    have halive : d.Alive c := (alive_iff ht).mpr he
    have hself : Function.update d.tasks c (some t') c = some t' := Function.update_self ..
    have hback : ∀ c', ∀ u : SinkTask Item, Function.update d.tasks c (some t') c' = some u →
        u = t' ∨ c' ≠ c ∧ d.tasks c' = some u := by
      intro c' u hu
      by_cases hc : c' = c
      · rw [hc, hself] at hu
        exact .inl (Option.some.inj hu).symm
      · exact .inr ⟨hc, (Function.update_of_ne hc _ _).symm.trans hu⟩
    refine ⟨htidy.streams, fun c' u hu => ?_, fun c' u hu hend => ?_, fun c' u hu e hend => ?_,
      fun hnone => ?_⟩
    · rcases hback c' u hu with rfl | ⟨-, hu⟩
      · exact htidy.jobs
      · exact hd.jobs c' u hu
    · rcases hback c' u hu with rfl | ⟨hc, hu⟩
      · exact htidy.cleanup
      · -- the others have ended
        exact absurd (hone c' c ((alive_iff hu).mpr hend) halive) hc
    · rcases hback c' u hu with rfl | ⟨-, hu⟩
      · have hcleanup := htidy.cleanup
        rw [show SinkTask.pc (α := Item) (x, l, u).2.2 = .ended e from hend] at hcleanup
        exact hcleanup.1
      · exact hd.ended c' u hu e hend
    · have hcleanup := htidy.cleanup
      have hend : SinkPc.ended? (α := Item) (SinkTask.pc t') ≠ none := fun hne =>
        hnone c ((alive_iff hself).mpr hne)
      obtain ⟨e, he'⟩ := Option.ne_none_iff_exists'.mp hend
      rw [show SinkTask.pc (α := Item) (x, l, t').2.2 = .ended e from ended_of_ended? he'] at hcleanup
      exact hcleanup.2

end FileDesk

-- ---------------------------------------------------------------------------
-- The file backends among the others
-- ---------------------------------------------------------------------------

namespace BackendKind

/-- `P`, for a backend that owns a file. -/
def OfFile (P : FileDesk → Prop) : (b : BackendKind) → Desk b.program → Prop
  | .sink (.file true), d => P d
  | .sink .console, _ | .sink (.file false), _ | .broker _, _ => True

/-- No cancellation meets the cleanup of a file worker, and its file can be closed. -/
def undisturbed : (b : BackendKind) → Desk b.program → Nat → b.program.Act → Bool
  | .sink (.file true), d, c, a => FileDesk.undisturbed d c a
  | .sink .console, _, _, _ | .sink (.file false), _, _, _ | .broker _, _, _, _ => true

variable {b : BackendKind} {d d' : Desk b.program}

theorem tidy_new (b : BackendKind) (maxsize : Nat) :
    b.OfFile FileDesk.Tidy (.new b.program maxsize) := by
  rcases b with (_ | ⟨_ | _⟩) | _
  · trivial
  · trivial
  · exact .new maxsize
  · trivial

theorem tidy_congr (hd : b.OfFile FileDesk.Tidy d) (hshared : d'.shared = d.shared)
    (htasks : ∀ c, d'.tasks c = d.tasks c ∨ d'.tasks c = (d.tasks c).map Desk.cancelTask) :
    b.OfFile FileDesk.Tidy d' := by
  rcases b with (_ | ⟨_ | _⟩) | _
  · trivial
  · trivial
  · exact hd.congr hshared htasks
  · trivial

theorem tidy_hire (hd : b.OfFile FileDesk.Tidy d) (hnone : ∀ c, ¬ d.Alive c) (c : Nat) :
    b.OfFile FileDesk.Tidy (d.hire c) := by
  rcases b with (_ | ⟨_ | _⟩) | _
  · trivial
  · trivial
  · exact hd.hire hnone c
  · trivial

theorem tidy_work (hd : b.OfFile FileDesk.Tidy d) (hs : d.Sound)
    (hone : ∀ c c', d.Alive c → d.Alive c' → c = c') {running : Bool} {c : Nat} {a : b.program.Act}
    (hok : b.undisturbed d c a = true) (h : d.work running c a = some d') :
    b.OfFile FileDesk.Tidy d' := by
  rcases b with (_ | ⟨_ | _⟩) | _
  · trivial
  · trivial
  · exact hd.work hs hone hok h
  · trivial

theorem tidy_shut (hd : b.OfFile FileDesk.Tidy d) (hnone : ∀ c, ¬ d.Alive c) :
    b.OfFile FileDesk.Shut d := by
  rcases b with (_ | ⟨_ | _⟩) | _
  · trivial
  · trivial
  · exact hd.shut hnone
  · trivial

end BackendKind

namespace Pipeline

variable {cfg : Config k} {s t : Pipeline cfg} {a : PipelineAct cfg}

/-- No `stop_logging` raises, and no file worker is disturbed in its cleanup. -/
def ClosesUndisturbed (s : Pipeline cfg) : PipelineAct cfg → Prop
  | .gatherRaises | .gatherEndsRaising => False
  | .worker i c act => (cfg.kind i).undisturbed (s.desks i) c act = true
  | _ => True

instance (s : Pipeline cfg) : (a : PipelineAct cfg) → Decidable (s.ClosesUndisturbed a)
  | .gatherRaises | .gatherEndsRaising => isFalse id
  | .worker _ _ _ => inferInstanceAs (Decidable (_ = _))
  | .emitCall _ | .emit _ | .runSet _ | .bridge _ | .cancelWorker _ _ | .close | .start _ | .stop
  | .advance | .bridgeAwaited | .joined _ | .drainReturns _ | .drainTimesOut _ | .drainFails _ _
  | .report _ | .gathered | .deadline | .gatherEnds | .reaped => isTrue trivial

theorem ClosesUndisturbed.returning (h : s.ClosesUndisturbed a) : Returning a := by
  cases a with
  | gatherRaises => exact h
  | gatherEndsRaising => exact h
  | _ => trivial

/-- A backend has one worker that has not ended, at most. -/
theorem Staffed.one (hi : Staffed s) (hc : Control s) {i : Fin k} (c c' : Nat)
    (h : (s.desks i).Alive c) (h' : (s.desks i).Alive c') : c = c' :=
  (hi.current hc h).trans (hi.current hc h').symm

/-- The file backends are tidy in every run whose workers are not disturbed. -/
theorem tidy (h : (pipeline cfg).Reachable ClosesUndisturbed s) (i : Fin k) :
    (cfg.kind i).OfFile FileDesk.Tidy (s.desks i) := by
  refine Machine.invariant_with
    (J := fun s => Control s ∧ Staffed s ∧ ∀ i, (s.desks i).Sound)
    (I := fun s => (cfg.kind i).OfFile FileDesk.Tidy (s.desks i))
    (fun s hs => ⟨control hs, staffed (fun _ _ => ClosesUndisturbed.returning) hs, fun i => desks_sound hs i⟩)
    ?_ ?_ h
  · rintro s rfl
    exact BackendKind.tidy_new (cfg.kind i) (cfg.queueMaxsize i)
  · rintro s a t ⟨hc, hi, hsound⟩ hd hok hstep
    cases step_changed hstep with
    | @moved g e q _ _ _ _ _ _ desks =>
      have hspec := Desk.offer_spec (s.desks i) (.emitted e)
      rw [desks]
      exact BackendKind.tidy_congr hd hspec.shared fun c => .inl (congrFun hspec.tasks c)
    | other _ hdesk =>
      cases hdesk i with
      | keep desk => rw [desk]; exact hd
      | work is desk =>
        subst is
        exact BackendKind.tidy_work hd (hsound i) (hi.one hc) hok desk
      | cancel _ desk =>
        rw [desk]
        exact BackendKind.tidy_congr hd rfl (Desk.cancelIf_tasks _ _)
      | rebase _ _ desk =>
        rw [desk]
        exact BackendKind.tidy_congr hd rfl fun _ => .inl rfl
      | @status xs _ _ _ desk =>
        have hspec := Desk.offerAll_spec (s.desks i) xs
        rw [desk]
        exact BackendKind.tidy_congr hd hspec.shared fun c => .inl (congrFun hspec.tasks c)
      | clear _ _ desk =>
        rw [desk]
        exact BackendKind.tidy_congr hd rfl fun _ => .inl rfl
      | hire _ life desk =>
        rw [desk]
        refine BackendKind.tidy_hire hd (fun c ha => ?_) _
        -- the start in progress has no worker yet
        have hmem := hi.known i c ha
        rw [hi.starting (by rw [life]; trivial)] at hmem
        cases hmem

/-- **No write outlives `stop_logging`**, and every file is closed behind its last write,
whenever it has returned, in every run in which no `stop_logging` raises and no file worker
is disturbed in its cleanup. -/
theorem stop_closes (hs : (pipeline cfg).Reachable ClosesUndisturbed s) (hlife : s.life = .idle)
    (hrun : s.handler.loggingRunningEvent = false) (i : Fin k) :
    (cfg.kind i).OfFile FileDesk.Shut (s.desks i) := by
  have hi := staffed (fun _ _ => ClosesUndisturbed.returning) hs
  refine BackendKind.tidy_shut (tidy hs i) fun c ha => ?_
  have hmem := hi.known i c ha
  rw [(hi.stopped hlife hrun).tasks] at hmem
  cases hmem

/-- A file and a console. -/
def fileAndConsole : Config 2 where
  kind := fun
    | 0 => .sink (.file true)
    | 1 => .sink .console
  queueMaxsize := fun _ => 8
  reporter := fun _ => false
  label := fun
    | 0 => "File"
    | 1 => "Console"

def theFile : Fin 2 := ⟨0, Nat.two_pos⟩

def theConsole : Fin 2 := ⟨1, Nat.one_lt_two⟩

/-- A segment of the file worker, or a step of its thread. -/
def fileWorker (a : SinkAct) : PipelineAct fileAndConsole := .worker theFile 1 a

def consoleWorker (a : SinkAct) : PipelineAct fileAndConsole := .worker theConsole 1 a

/-- A record is emitted and moved to both queues, the console has written it, and the
write of the file worker is on its thread when the deadline of `stop_logging` passes. -/
def slowWrite : List (PipelineAct fileAndConsole) :=
  let record : LogRecord := ⟨20, "app", .ok "m", .ok "1970-01-01T00:00:00+00:00"⟩
  [.start 8, .advance, .advance, .advance, .advance, fileWorker .start, consoleWorker .start,
    .emitCall record, .emit 0, .emit 0, .emit 0, .emit 0, .emit 0, .emit 0,
    .runSet 1, .bridge 1, .bridge 1, .bridge 1,
    fileWorker (.get (.text "m")), fileWorker .jobBegins,
    consoleWorker (.get (.text "m")), consoleWorker .jobBegins,
    consoleWorker (.writeEnds ⟨true, .keep, true⟩), consoleWorker (.jobDone ""),
    .bridge 1, .bridge 1, .stop, .bridge 1, .bridgeAwaited, .advance, .drainTimesOut theFile,
    .drainTimesOut theConsole, .report fun _ _ => "1970-01-01T00:00:05+00:00", .deadline]

/-- The file worker has closed its file when the console worker ends. -/
def closedInTime : List (PipelineAct fileAndConsole) :=
  [fileWorker .deliver, fileWorker (.writeEnds ⟨true, .keep, true⟩), fileWorker .jobBegins,
    fileWorker (.closeEnds true), fileWorker (.jobDone ""), fileWorker .release,
    consoleWorker .deliver, consoleWorker .release]

/-- The console worker ends first; the file worker, cancelled again, gives its close up. -/
def overtaken : List (PipelineAct fileAndConsole) :=
  [fileWorker .deliver, consoleWorker .deliver, consoleWorker .release, .gatherEnds,
    fileWorker .deliver, .reaped]

def teardown : List (PipelineAct fileAndConsole) :=
  [.advance, .advance, .advance, .advance, .advance, .advance, .advance]

theorem stop_closes_slow : ∃ s, (pipeline fileAndConsole).run ClosesUndisturbed (init fileAndConsole)
      (slowWrite ++ closedInTime ++ [.gatherEnds, .reaped] ++ teardown) = some s ∧
    FileDesk.Shut (s.desks theFile) ∧ ∃ t : SinkTask Item, (s.desks theFile).tasks 1 = some t := by
  have hrun : ∃ s, (pipeline fileAndConsole).run ClosesUndisturbed (init fileAndConsole)
      (slowWrite ++ closedInTime ++ [.gatherEnds, .reaped] ++ teardown) = some s ∧
      s.life = .idle ∧ s.handler.loggingRunningEvent = false ∧
      ∃ t : SinkTask Item, (s.desks theFile).tasks 1 = some t :=
    ⟨_, rfl, rfl, rfl, _, rfl⟩
  obtain ⟨s, hs, hlife, hrest, htask⟩ := hrun
  exact ⟨s, hs, stop_closes (.of_run rfl hs) hlife hrest theFile, htask⟩

/-- **A write outlives `stop_logging`** where the second cancellation meets the file worker
while it awaits the close of its stream. -/
theorem not_stop_closes : ∃ s, (pipeline fileAndConsole).run (fun _ => Returning)
      (init fileAndConsole) (slowWrite ++ overtaken ++ teardown) = some s ∧
    s.life = .idle ∧ s.handler.loggingRunningEvent = false ∧
    ∃ t : SinkTask Item, (s.desks theFile).tasks 1 = some t ∧
      t.executor.running = some (0, .write 0 "m\n") ∧ ¬ FileDesk.Shut (s.desks theFile) := by
  have hrun : ∃ s, (pipeline fileAndConsole).run (fun _ => Returning) (init fileAndConsole)
      (slowWrite ++ overtaken ++ teardown) = some s ∧
      s.life = .idle ∧ s.handler.loggingRunningEvent = false ∧
      ∃ t : SinkTask Item, (s.desks theFile).tasks 1 = some t ∧
        t.executor.running = some (0, .write 0 "m\n") :=
    ⟨_, rfl, rfl, rfl, _, rfl, rfl⟩
  obtain ⟨s, hs, hlife, hrest, t, ht, hrunning⟩ := hrun
  refine ⟨s, hs, hlife, hrest, t, ht, hrunning, fun hshut => ?_⟩
  obtain ⟨-, ⟨-, hidle⟩, -⟩ := hshut.workers 1 t ht
  rw [hrunning] at hidle
  cases hidle

end Pipeline

end ScietexLogging
