import Mathlib.Algebra.BigOperators.Group.Finset.Basic
import Mathlib.Algebra.Order.BigOperators.Group.Finset
import Mathlib.Data.Prod.Lex
import Mathlib.Order.WellFounded
import ScietexLogging.Broker.Progress
import ScietexLogging.Pipeline.Shutdown
import ScietexLogging.Pipeline.Wakeup
import ScietexLogging.Sink.Progress

/-!
# Pipeline — no call of the host is ever stuck

`start_logging` and `stop_logging` wait for the bridge, for the drains and for the workers,
and the workers wait for their executors. In no state that can be reached do they wait for
each other: the handler can always come to the end of the call by itself, whatever the
threads and the host did before.

* `Lively`      — the tasks the handler waits for are there, and none of them is stuck;
* `goes_on`     — one statement of the host's call, or one task on the way, is done;
* `never_stuck` — the call comes to its end, in the state it is meant to leave.
-/

namespace ScietexLogging

open Asyncio

variable {k : Nat}

-- ---------------------------------------------------------------------------
-- The workers
-- ---------------------------------------------------------------------------

namespace BackendKind

/-- What the worker waits for will be there. -/
def Lively : (b : BackendKind) → b.program.Task → Prop
  | .sink _, t => SinkPc.Awaits (α := Item) (SinkTask.executor t) (SinkTask.pc t)
  | .broker _, _ => True

variable {b : BackendKind}

theorem lively_create (b : BackendKind) : b.Lively b.program.create := by
  cases b with
  | sink kind => trivial
  | broker ownsClient => trivial

theorem lively_cancelTask {t : b.program.Task} (ht : b.Lively t) : b.Lively (Desk.cancelTask t) := by
  unfold Desk.cancelTask
  split
  · exact ht
  · cases b with
    | sink kind => exact ht
    | broker ownsClient => trivial

theorem lively_step {running : Bool} {a : b.program.Act}
    {x y : b.program.Shared × Ledger Item Outcome × b.program.Task} (hx : b.Lively x.2.2)
    (h : b.program.step running a x = some y) : b.Lively y.2.2 := by
  cases b with
  | sink kind => exact SinkSide.step_awaits hx h
  | broker ownsClient => trivial

theorem lively_canEnd {t : b.program.Task} (ht : b.Lively t) : b.program.CanEnd t := by
  cases b with
  | sink kind => exact sink_canEnd kind ht
  | broker ownsClient => exact broker_canEnd ownsClient _ t

end BackendKind

namespace Desk

variable {b : BackendKind} {d d' : Desk b.program}

/-- No worker of the backend is stuck. -/
def Lively (d : Desk b.program) : Prop := ∀ c t, d.tasks c = some t → b.Lively t

theorem Lively.congr (hd : d.Lively) (h : d'.tasks = d.tasks) : d'.Lively := by
  rw [Lively, h]
  exact hd

theorem Lively.cancelIf (hd : d.Lively) (p : Nat → Bool) : (d.cancelIf p).Lively := by
  intro c t ht
  replace ht : (if p c then (d.tasks c).map cancelTask else d.tasks c) = some t := ht
  split at ht
  · obtain ⟨t', ht', rfl⟩ := Option.map_eq_some_iff.mp ht
    exact BackendKind.lively_cancelTask (hd c t' ht')
  · exact hd c t ht

theorem Lively.update (hd : d.Lively) {c : Nat} {t : b.program.Task} (ht : b.Lively t)
    (h : d'.tasks = Function.update d.tasks c (some t)) : d'.Lively := by
  intro c' t' ht'
  rw [h] at ht'
  by_cases hc : c' = c
  · rw [hc, Function.update_self] at ht'
    obtain rfl := Option.some.inj ht'
    exact ht
  · rw [Function.update_of_ne hc] at ht'
    exact hd c' t' ht'

theorem Lively.work (hd : d.Lively) {running : Bool} {c : Nat} {a : b.program.Act}
    (h : d.work running c a = some d') : d'.Lively := by
  obtain ⟨t, ht, hmap⟩ := Option.bind_eq_some_iff.mp h
  obtain ⟨y, hy, rfl⟩ := Option.map_eq_some_iff.mp hmap
  exact hd.update (BackendKind.lively_step (hd c t ht) hy) rfl

end Desk

namespace Pipeline

variable {cfg : Config k} {s t : Pipeline cfg} {a : PipelineAct cfg}

theorem lively {ok : Pipeline cfg → PipelineAct cfg → Prop} (h : (pipeline cfg).Reachable ok s)
    (i : Fin k) : Desk.Lively (b := cfg.kind i) (s.desks i) := by
  refine Machine.invariant (I := fun s => Desk.Lively (b := cfg.kind i) (s.desks i)) ?_ ?_ h
  · rintro s rfl c t ht
    cases ht
  · intro s a t hd _ hstep
    cases step_changed hstep with
    | moved _ _ _ _ _ _ desks =>
      rw [desks]
      exact hd.congr (Desk.offer_spec _ _).tasks
    | other _ hdesk =>
      cases hdesk i with
      | keep desk => rw [desk]; exact hd
      | work _ desk => exact hd.work desk
      | cancel _ desk => rw [desk]; exact hd.cancelIf _
      | rebase _ _ desk => rw [desk]; exact hd
      | status _ _ _ desk =>
        rw [desk]
        exact hd.congr (Desk.offerAll_spec _ _).tasks
      | clear _ _ desk => rw [desk]; exact hd
      | hire _ _ desk =>
        rw [desk]
        exact hd.update (BackendKind.lively_create _) rfl

-- ---------------------------------------------------------------------------
-- The tasks the handler waits for
-- ---------------------------------------------------------------------------

/-- While `start_logging` is under way, and between the calls, only the host's own
statements change where its call stands. -/
theorem resting_step (hlife : s.life = .idle ∨ s.life.Starting) (h : s.step a = some t) :
    a = .advance ∧ s.life.Starting ∨ ((∃ m, a = .start m) ∨ a = .stop) ∧ s.life = .idle ∨
      t.life = s.life := by
  have hnot : ∀ l : Life k, ¬ l.Starting → l ≠ .idle → s.life ≠ l := by
    rintro l hl hidle rfl
    exact hlife.elim hidle hl
  cases a with
  | emitCall _ | cancelWorker _ _ | close =>
    obtain rfl := Option.some.inj h
    exact .inr (.inr rfl)
  | emit _ | worker _ _ _ =>
    obtain ⟨_, -, rfl⟩ := Option.map_eq_some_iff.mp h
    exact .inr (.inr rfl)
  | runSet e =>
    rw [step] at h
    split at h
    · cases h
    · obtain rfl := Option.some.inj h
      exact .inr (.inr rfl)
  | bridge b => exact .inr (.inr (bridgeStep_spec h).life)
  | start _ | stop =>
    rw [step] at h
    split at h
    · rename_i hidle
      exact .inr (.inl ⟨by simp, hidle⟩)
    · cases h
  | advance =>
    refine .inl ⟨rfl, hlife.resolve_left fun hidle => ?_⟩
    rw [step, advance, hidle] at h
    cases h
  | bridgeAwaited =>
    rw [step] at h
    split at h
    · rename_i hl _
      exact absurd hl (hnot _ id (fun h => by cases h))
    · rename_i hl _
      exact absurd hl (hnot _ id (fun h => by cases h))
    · cases h
  | joined _ | drainReturns _ | drainTimesOut _ | drainFails _ _ =>
    rw [step] at h
    obtain ⟨ds, _, hl, -, -⟩ := drainStep_eq_some h
    exact absurd hl (hnot _ id (fun h => by cases h))
  | report _ | gathered | gatherRaises | deadline | gatherEnds | gatherEndsRaising | reaped =>
    rw [step] at h
    split at h
    · rename_i hl
      exact absurd hl (hnot _ id (fun h => by cases h))
    · cases h

/-- The bridge and the workers that the handler knows have been made. -/
structure Crewed (s : Pipeline cfg) : Prop where
  bridge : ∀ b, s.handler.bridgeTask = some b → (s.bridge b).pc ≠ .absent
  workers : ∀ w ∈ s.handler.logWorkersTasks, ((s.desks w.2).tasks w.1).isSome

private theorem advance_bridge (h : s.advance = some t) :
    t.bridge = s.bridge ∨ t.bridge = Function.update s.bridge s.starts ⟨.created, false⟩ := by
  cases hlife : s.life with
  | startBridge =>
    rw [advance, hlife] at h
    obtain rfl := Option.some.inj h
    exact .inr rfl
  | startIngress _ | startEvent | startWorkers | releaseLoop | releaseIngress | releaseEvent =>
    rw [advance, hlife] at h
    obtain rfl := Option.some.inj h
    exact .inl rfl
  | flushing =>
    rcases advance_flushing hlife h with ⟨-, rfl⟩ | ⟨g, -, hm | ⟨-, rfl⟩⟩
    · exact .inl rfl
    · exact .inl (moveOne_control hm).2.2.2.1
    · exact .inl rfl
  | clearing n =>
    rcases advance_clearing hlife h with ⟨hn, l, -, rfl⟩ | ⟨hn, -, rfl⟩ | ⟨-, rfl⟩
    · exact .inl rfl
    · exact .inl rfl
    · exact .inl rfl
  | clearingIngress =>
    rcases advance_clearingIngress hlife h with rfl | ⟨g, e, q, -, -, rfl⟩
    · exact .inl rfl
    · exact .inl rfl
  | idle | awaitBridge | draining _ | gathering | timedOut | reaping =>
    rw [advance, hlife] at h
    cases h

/-- Nothing unmakes a bridge. -/
theorem absent_back (h : s.step a = some t) {b : Nat} (hb : (t.bridge b).pc = .absent) :
    (s.bridge b).pc = .absent := by
  have hupdate : ∀ {b' : Nat} {x : BridgeTask}, x.pc ≠ .absent →
      t.bridge = Function.update s.bridge b' x → (s.bridge b).pc = .absent := by
    intro b' x hx heq
    rw [heq] at hb
    by_cases h' : b = b'
    · rw [h', Function.update_self] at hb
      exact absurd hb hx
    · rw [Function.update_of_ne h'] at hb
      exact hb
  rcases step_apart h with hapart | ⟨r, rfl⟩ | ⟨n, rfl⟩ | ⟨e, rfl⟩ | ⟨b', rfl⟩ | rfl | ⟨m, rfl⟩
  · rw [← hapart.bridge]
    exact hb
  · obtain rfl := Option.some.inj h
    exact hb
  · obtain ⟨_, -, rfl⟩ := Option.map_eq_some_iff.mp h
    exact hb
  · rw [step] at h
    split at h
    · cases h
    · obtain rfl := Option.some.inj h
      replace hb : ((s.bridge b).wake e).pc = .absent := hb
      unfold BridgeTask.wake at hb
      split at hb
      · split at hb
        · cases hb
        · exact hb
      · exact hb
  · obtain ⟨-, -, -, -, halive, pc, hchange, heq⟩ := bridgeStep_spec h
    refine hupdate (fun hpc => ?_) heq
    replace hpc : pc = .absent := hpc
    rw [hpc] at hchange
    cases hchange with
    | goes same begun => exact begun same.symm
  · rcases advance_bridge h with heq | heq
    · rw [← heq]
      exact hb
    · exact hupdate (fun h => by cases h) heq
  · rw [step] at h
    split at h
    · split at h
      · obtain rfl := Option.some.inj h
        exact hb
      · cases h
    · cases h

/-- Nothing unmakes a worker. -/
theorem hired_step (h : s.step a = some t) {i : Fin k} {c : Nat}
    (hi : ((s.desks i).tasks c).isSome) : ((t.desks i).tasks c).isSome := by
  have hupdate : ∀ {c' : Nat} {x : (cfg.worker i).Task},
      (t.desks i).tasks = Function.update (s.desks i).tasks c' (some x) →
      ((t.desks i).tasks c).isSome := by
    intro c' x heq
    rw [heq]
    by_cases hc : c = c'
    · rw [hc, Function.update_self]
      rfl
    · rw [Function.update_of_ne hc]
      exact hi
  cases step_changed h with
  | moved _ _ _ _ _ _ desks =>
    rw [desks, (Desk.offer_spec _ _).tasks]
    exact hi
  | other _ hdesk =>
    cases hdesk i with
    | keep desk => rw [desk]; exact hi
    | work _ desk =>
      obtain ⟨u, hu, hmap⟩ := Option.bind_eq_some_iff.mp desk
      obtain ⟨y, -, heq⟩ := Option.map_eq_some_iff.mp hmap
      exact hupdate (by rw [← heq])
    | cancel _ desk =>
      rw [desk, Desk.cancelIf_isSome]
      exact hi
    | rebase _ _ desk => rw [desk]; exact hi
    | status _ _ _ desk =>
      rw [desk, (Desk.offerAll_spec _ _).tasks]
      exact hi
    | clear _ _ desk => rw [desk]; exact hi
    | hire _ _ desk => exact hupdate (by rw [desk]; rfl)

/-- What a statement of the host's call does to the tasks the handler knows. -/
private theorem HostStep.crew {h : Handler k} {l : Life k} (step : HostStep s a h l)
    (hstarting : s.life.Starting → l = s.life) :
    (h.bridgeTask = s.handler.bridgeTask ∨ h.bridgeTask = none) ∧
      (h.logWorkersTasks = s.handler.logWorkersTasks ∨ h.logWorkersTasks = []) := by
  cases step with
  | setIngress life | setEvent life | setBridge life | setWorkers life =>
    have hl := hstarting (by rw [life]; trivial)
    rw [life] at hl
    cases hl
  | reportedNoWorkers _ _ | forget _ _ => exact ⟨.inl rfl, .inr rfl⟩
  | releaseEvent _ => exact ⟨.inr rfl, .inl rfl⟩
  | _ => exact ⟨.inl rfl, .inl rfl⟩

/-- A statement of `start_logging` makes what it enters in the handler. -/
private theorem Crewed.starts (hw : Crewed s) (hlife : s.life.Starting) (h : s.advance = some t) :
    Crewed t := by
  cases hl : s.life with
  | startIngress _ | startEvent =>
    rw [advance, hl] at h
    obtain rfl := Option.some.inj h
    exact ⟨hw.bridge, hw.workers⟩
  | startBridge =>
    rw [advance, hl] at h
    obtain rfl := Option.some.inj h
    refine ⟨fun b hb => ?_, hw.workers⟩
    obtain rfl := Option.some.inj hb
    show (Function.update s.bridge s.starts ⟨.created, false⟩ s.starts).pc ≠ .absent
    rw [Function.update_self]
    exact fun h => by cases h
  | startWorkers =>
    rw [advance, hl] at h
    obtain rfl := Option.some.inj h
    refine ⟨hw.bridge, fun w hmem => ?_⟩
    rw [Handler.mem_workerTasks.mp hmem]
    show (Function.update (s.desks w.2).tasks s.starts _ s.starts).isSome
    rw [Function.update_self]
    rfl
  | _ =>
    rw [hl] at hlife
    exact hlife.elim

theorem crewed {ok : Pipeline cfg → PipelineAct cfg → Prop} (h : (pipeline cfg).Reachable ok s) :
    Crewed s := by
  refine Machine.invariant (I := Crewed) ?_ ?_ h
  · rintro s rfl
    exact ⟨fun b hb => (by cases hb), fun w hw => absurd hw List.not_mem_nil⟩
  · intro s a t hw _ hstep
    have hback : (t.handler.bridgeTask = s.handler.bridgeTask ∨ t.handler.bridgeTask = none) →
        (t.handler.logWorkersTasks = s.handler.logWorkersTasks ∨ t.handler.logWorkersTasks = []) →
        Crewed t := by
      intro hbridge hworkers
      refine ⟨fun b hb habsent => ?_, fun w hmem => ?_⟩
      · rcases hbridge with heq | heq
        · exact hw.bridge b (heq ▸ hb) (absent_back hstep habsent)
        · rw [heq] at hb
          cases hb
      · rcases hworkers with heq | heq
        · exact hired_step hstep (hw.workers w (heq ▸ hmem))
        · rw [heq] at hmem
          cases hmem
    by_cases hstart : a = .advance ∧ s.life.Starting
    · obtain ⟨rfl, hlife⟩ := hstart
      exact hw.starts hlife hstep
    · cases step_hosted hstep with
      | same handler _ _ _ => exact hback (.inl (by rw [handler])) (.inl (by rw [handler]))
      | start _ _ eq => exact hback (.inl (by rw [eq]; rfl)) (.inl (by rw [eq]; rfl))
      | host step _ _ =>
        have hcrew := step.crew fun hlife => ?_
        · exact hback hcrew.1 hcrew.2
        · rcases resting_step (.inr hlife) hstep with h | ⟨-, hidle⟩ | h
          · exact absurd h hstart
          · rw [hidle] at hlife
            exact hlife.elim
          · exact h

-- ---------------------------------------------------------------------------
-- Where a call leads
-- ---------------------------------------------------------------------------

/-- What the handler does by itself: the host's call goes on, the bridge and the workers
run, and the calls they wait for end. Nobody calls the handler, no thread emits, and no
drain fails. -/
def Own : PipelineAct cfg → Prop
  | .emitCall _ | .emit _ | .runSet _ | .cancelWorker _ _ | .close | .start _ | .stop
  | .drainFails _ _ => False
  | .bridge _ | .worker _ _ _ | .advance | .bridgeAwaited | .joined _ | .drainReturns _
  | .drainTimesOut _ | .report _ | .gathered | .gatherRaises | .deadline | .gatherEnds
  | .gatherEndsRaising | .reaped => True

end Pipeline

/-- Whether the handler runs when the call is over, given whether it runs now. -/
def Life.aim (running : Bool) : Life k → Bool
  | .idle => running
  | .startIngress _ | .startEvent | .startBridge | .startWorkers => true
  | .awaitBridge | .flushing | .draining _ | .gathering | .timedOut | .reaping | .clearing _
  | .clearingIngress | .releaseLoop | .releaseIngress | .releaseEvent => false

namespace Pipeline

variable {cfg : Config k} {s t : Pipeline cfg} {a : PipelineAct cfg}

/-- Whether the handler runs when the host's call is over. -/
def aim (s : Pipeline cfg) : Bool := s.life.aim s.handler.loggingRunningEvent

private theorem HostStep.aim {h : Handler k} {l : Life k} (step : HostStep s a h l)
    (hc : Control s) (hidle : s.life = .idle → l = .idle) :
    l.aim h.loggingRunningEvent = s.life.aim s.handler.loggingRunningEvent := by
  have hst := hc.stage
  cases step with
  | close => rfl
  | stop life _ => cases hidle life
  | bridgeRaised _ raised => cases hc.ended _ _ raised
  | raise life _ =>
    rcases life with life | life
    · rw [life] at hst ⊢
      exact hst.1.running
    · rw [life] at hst ⊢
      exact hst.1.running
  | clearRaises life _ _ =>
    rw [life] at hst ⊢
    exact hst.1.running
  | releaseEvent life =>
    rw [life] at hst ⊢
    exact hst.1.running
  | forget life _ =>
    rcases life with life | life
    · rw [life]
      rfl
    · rw [life]
      rfl
  | setIngress life | setEvent life | setBridge life | setWorkers life | bridgeAwaited life
  | flushed _ life _ | drain life _ | reported life _ | reportedNoWorkers life _ | deadline life
  | reap life | clear _ life _ | cleared life _ | emptied life | releaseLoop life
  | releaseIngress life =>
    rw [life]
    rfl

/-- The handler by itself does not change where the call leads. -/
theorem aim_step (hc : Control s) (hown : Own a) (h : s.step a = some t) : t.aim = s.aim := by
  have hidle : s.life = .idle → t.life = .idle := by
    intro hl
    rcases resting_step (.inl hl) h with ⟨-, hstarting⟩ | ⟨⟨m, rfl⟩ | rfl, -⟩ | heq
    · rw [hl] at hstarting
      exact hstarting.elim
    · exact hown.elim
    · exact hown.elim
    · exact heq.trans hl
  cases step_hosted h with
  | same handler life _ _ => rw [aim, aim, handler, life]
  | start life _ eq =>
    have hl := hidle life
    rw [eq] at hl
    cases hl
  | host step _ _ => exact step.aim hc hidle

-- ---------------------------------------------------------------------------
-- The variant
-- ---------------------------------------------------------------------------

end Pipeline

/-- How many statements and waits are before the call. -/
def Life.phase : Life k → Nat
  | .idle => 0
  | .startIngress _ => 4
  | .startEvent => 3
  | .startBridge => 2
  | .startWorkers => 1
  | .awaitBridge => 11
  | .flushing => 10
  | .draining _ => 9
  | .gathering => 8
  | .timedOut => 7
  | .reaping => 6
  | .clearing _ => 5
  | .clearingIngress => 4
  | .releaseLoop => 3
  | .releaseIngress => 2
  | .releaseEvent => 1

/-- How far a bridge that was asked to end is from it, but for what it has to move. -/
def BridgePc.rank : BridgePc → Nat
  | .absent | .ended _ => 0
  | .created | .waiting _ _ | .woken _ _ => 1
  | .atWait _ _ => 2
  | .moving _ _ => 3

namespace Pipeline

variable {cfg : Config k} {s t : Pipeline cfg} {a : PipelineAct cfg}

/-- What is left to do in the phase the call is in. -/
def left (s : Pipeline cfg) : Nat :=
  match s.life with
  | .awaitBridge =>
    (s.intake.ingress s.starts).items.length + (if (s.intake.event s.starts).flag then 3 else 0) +
      (s.bridge s.starts).pc.rank
  | .flushing | .clearingIngress => (s.intake.ingress s.starts).items.length
  | .draining ds => ∑ i, if (ds i).status?.isSome then 0 else 1
  | .timedOut | .reaping => ∑ i, if (s.taskEnd (s.starts, i)).isSome then 0 else 1
  | .clearing n => k - n
  | .idle | .startIngress _ | .startEvent | .startBridge | .startWorkers | .gathering
  | .releaseLoop | .releaseIngress | .releaseEvent => 0

/-- The variant. -/
def toGo (s : Pipeline cfg) : ℕ ×ₗ ℕ := toLex (s.life.phase, s.left)

/-- From `s` the handler comes closer to the end of the call. -/
def GoesOn (s : Pipeline cfg) : Prop :=
  ∃ t, (pipeline cfg).Reaches (fun _ => Own) s t ∧ t.toGo < s.toGo

theorem goesOn_phase (h : s.step a = some t) (hown : Own a) (hlt : t.life.phase < s.life.phase) :
    s.GoesOn :=
  ⟨t, .single hown h, Prod.Lex.toLex_lt_toLex.mpr (.inl hlt)⟩

theorem goesOn_left (h : s.step a = some t) (hown : Own a) (hphase : t.life.phase = s.life.phase)
    (hlt : t.left < s.left) : s.GoesOn :=
  ⟨t, .single hown h, Prod.Lex.toLex_lt_toLex.mpr (.inr ⟨hphase, hlt⟩)⟩

-- ---------------------------------------------------------------------------
-- A worker
-- ---------------------------------------------------------------------------

/-- `s` with worker `c` of backend `i`, its queue and what it shares as in `y`. -/
def withWorker (s : Pipeline cfg) (i : Fin k) (c : Nat)
    (y : (cfg.worker i).Shared × Ledger Item Outcome × (cfg.worker i).Task) : Pipeline cfg :=
  { s with
    desks := Function.update s.desks i
      { s.desks i with
        shared := y.1
        ledger := y.2.1
        tasks := Function.update (s.desks i).tasks c (some y.2.2) } }

theorem withWorker_self {i : Fin k} {c : Nat} {w : (cfg.worker i).Task}
    (hw : (s.desks i).tasks c = some w) :
    s.withWorker i c ((s.desks i).shared, (s.desks i).ledger, w) = s := by
  rw [withWorker, ← hw, Function.update_eq_self, Function.update_eq_self]

/-- A segment of a worker alone is a step of the handler. -/
theorem withWorker_step (hrun : s.handler.loggingRunningEvent = false) {i : Fin k} {c : Nat}
    {a : (cfg.worker i).Act} {y z : (cfg.worker i).Shared × Ledger Item Outcome × (cfg.worker i).Task}
    (h : (cfg.worker i).step false a y = some z) :
    (s.withWorker i c y).step (.worker i c a) = some (s.withWorker i c z) := by
  rw [step, Desk.work]
  simp only [withWorker, Function.update_self, Option.bind_some, hrun, h, Option.map_some,
    Function.update_idem]

theorem withWorker_taskEnd (i : Fin k) (c : Nat)
    (y : (cfg.worker i).Shared × Ledger Item Outcome × (cfg.worker i).Task) :
    (s.withWorker i c y).taskEnd (c, i) = (cfg.worker i).ended y.2.2 := by
  simp only [taskEnd, Desk.taskEnd, withWorker, Function.update_self, Option.bind_some]

theorem withWorker_taskEnd_of_ne {i j : Fin k} (hj : j ≠ i) (c c' : Nat)
    (y : (cfg.worker i).Shared × Ledger Item Outcome × (cfg.worker i).Task) :
    (s.withWorker i c y).taskEnd (c', j) = s.taskEnd (c', j) := by
  simp only [taskEnd, withWorker, Function.update_of_ne hj]

/-- **A worker can end** while the host waits for it. -/
theorem worker_ends {ok : Pipeline cfg → PipelineAct cfg → Prop} (hs : (pipeline cfg).Reachable ok s)
    (hrun : s.handler.loggingRunningEvent = false) {i : Fin k} {c : Nat}
    (hhired : ((s.desks i).tasks c).isSome) :
    ∃ y, (pipeline cfg).Reaches (fun _ => Own) s (s.withWorker i c y) ∧
      ((cfg.worker i).ended y.2.2).isSome := by
  obtain ⟨w, hw⟩ := Option.isSome_iff_exists.mp hhired
  obtain ⟨y, hy, hend⟩ :=
    BackendKind.lively_canEnd (lively hs i c w hw) (s.desks i).shared (s.desks i).ledger
  have hrun' : (pipeline cfg).Reaches (fun _ => Own)
      (s.withWorker i c ((s.desks i).shared, (s.desks i).ledger, w)) (s.withWorker i c y) := by
    refine Machine.Reaches.map (s.withWorker i c) (fun x a z _ hstep => ?_) hy
    exact ⟨.worker i c a, trivial, withWorker_step hrun hstep⟩
  rw [withWorker_self hw] at hrun'
  exact ⟨y, hrun', Option.isSome_iff_ne_none.mpr hend⟩

-- ---------------------------------------------------------------------------
-- The statements and the waits of a call
-- ---------------------------------------------------------------------------

/-- Whoever moves a record leaves one less in the ingress. -/
theorem moveOne_length {g : Nat} (h : s.moveOne g = some t) :
    (t.intake.ingress g).items.length < (s.intake.ingress g).items.length := by
  obtain ⟨e, q, hget, rfl⟩ := moveOne_eq_some h
  obtain ⟨-, hitems⟩ := BoundedQueue.getNowait_eq_some.mp hget
  have hself : Function.update s.intake.ingress g q g = q := Function.update_self ..
  show (Function.update s.intake.ingress g q g).items.length < _
  rw [hself, hitems, List.length_cons]
  exact Nat.lt_succ_self _

/-- The bridge that was asked to end comes closer to it. -/
theorem bridge_goes (hc : Control s) (hlife : s.life = .awaitBridge)
    (halive : (s.bridge s.starts).pc.Alive) : s.GoesOn := by
  have hst := hc.stage
  rw [hlife] at hst
  obtain ⟨-, -, -, hasked⟩ := hst
  have hq := hasked halive
  have hstep : s.step (.bridge s.starts) = s.bridgeStep s.starts := rfl
  have hleft : s.left = (s.intake.ingress s.starts).items.length +
      (if (s.intake.event s.starts).flag then 3 else 0) + (s.bridge s.starts).pc.rank := by
    rw [left, hlife]
  have hset : ∀ pc : BridgePc, pc.rank < (s.bridge s.starts).pc.rank →
      s.bridgeStep s.starts = some (s.setBridge s.starts pc) → s.GoesOn := by
    intro pc hlt h
    refine goesOn_left (hstep.trans h) trivial rfl ?_
    rw [hleft, left, show (s.setBridge s.starts pc).life = .awaitBridge from hlife]
    show _ + _ + (Function.update s.bridge s.starts _ s.starts).pc.rank < _
    rw [Function.update_self]
    exact Nat.add_lt_add_left hlt _
  cases hpc : (s.bridge s.starts).pc with
  | absent | ended _ =>
    rw [hpc] at halive
    exact halive.elim
  | created | waiting g e | woken g e =>
    refine hset (.ended .cancelled) (by rw [hpc]; exact Nat.one_pos) ?_
    simp only [bridgeStep, hpc, hq]
  | atWait g e =>
    obtain ⟨rfl, rfl⟩ := hc.refs s.starts g e (by rw [hpc]; rfl)
    cases hflag : (s.intake.event s.starts).flag with
    | false =>
      refine hset (.waiting s.starts s.starts) (by rw [hpc]; exact Nat.one_lt_two) ?_
      simp only [bridgeStep, hpc, hflag]
      rfl
    | true =>
      have hbridge : s.bridgeStep s.starts = some
          ({ s with intake := s.intake.clearEvent s.starts }.setBridge s.starts
            (.moving s.starts s.starts)) := by
        simp only [bridgeStep, hpc, hflag, if_true]
      refine goesOn_left (hstep.trans hbridge) trivial rfl ?_
      rw [hleft, left, hflag, hpc]
      simp only [setBridge, hlife, Intake.clearEvent, Function.update_self, BridgePc.rank, if_true]
      show _ + 0 + 3 < _ + 3 + 2
      omega
  | moving g e =>
    obtain ⟨rfl, rfl⟩ := hc.refs s.starts g e (by rw [hpc]; rfl)
    cases hmove : s.moveOne s.starts with
    | none =>
      refine hset (.atWait s.starts s.starts) (by rw [hpc]; exact Nat.lt_succ_self _) ?_
      simp only [bridgeStep, hpc, hmove]
    | some u =>
      obtain ⟨-, hstarts, hlife', hbridge', -⟩ := moveOne_control hmove
      have hevent : u.intake.event = s.intake.event := by
        obtain ⟨e, q, -, rfl⟩ := moveOne_eq_some hmove
        rfl
      have hbridge : s.bridgeStep s.starts = some u := by
        simp only [bridgeStep, hpc, hmove]
      refine goesOn_left (hstep.trans hbridge) trivial (by rw [hlife']) ?_
      have hless := moveOne_length hmove
      rw [hleft, left, hlife', hlife]
      simp only [hstarts, hbridge', hevent]
      omega

/-- `await self._bridge_task` comes closer to its end. -/
theorem awaitBridge_goes (hc : Control s) (hw : Crewed s) (hlife : s.life = .awaitBridge) :
    s.GoesOn := by
  by_cases halive : (s.bridge s.starts).pc.Alive
  · exact bridge_goes hc hlife halive
  · have hst := hc.stage
    rw [hlife] at hst
    have htask := hst.2.1.bridgeTask
    rcases BridgePc.not_alive halive with habsent | ⟨e, hend⟩
    · exact absurd habsent (hw.bridge s.starts htask)
    · obtain rfl := hc.ended s.starts e hend
      have hstep : s.step .bridgeAwaited = some (s.setLife .flushing) := by
        simp only [step, hlife, htask, hend]
      refine goesOn_phase hstep trivial ?_
      rw [hlife]
      exact Nat.lt_succ_self _

/-- The flush comes closer to its end. -/
theorem flushing_goes (hc : Control s) (hlife : s.life = .flushing) : s.GoesOn := by
  have hst := hc.stage
  rw [hlife] at hst
  have hingress := hst.2.1.ingress
  cases hmove : s.moveOne s.starts with
  | none =>
    have hstep : s.step .advance = some
        { s with
          life := .draining fun _ => .joining
          flushed := Function.update s.flushed s.starts (some (s.intake.entered s.starts)) } := by
      simp only [step, advance, hlife, hingress, hmove]
    refine goesOn_phase hstep trivial ?_
    rw [hlife]
    exact Nat.lt_succ_self _
  | some u =>
    obtain ⟨-, hstarts, hlife', -, -⟩ := moveOne_control hmove
    have hstep : s.step .advance = some u := by
      simp only [step, advance, hlife, hingress, hmove]
    refine goesOn_left hstep trivial (by rw [hlife']) ?_
    have hless := moveOne_length hmove
    rw [left, left, hlife', hlife]
    simp only [hstarts]
    exact hless

/-- The drains have their results when each of them is over. -/
theorem results_of_done {ds : Fin k → DrainPc} (hall : ∀ i, (ds i).status?.isSome) :
    ∃ rs, results ds = some rs := by
  have hlist : ∀ is : List (Fin k), ∃ rs, is.mapM (fun i => (ds i).status?) = some rs := by
    intro is
    induction is with
    | nil => exact ⟨[], rfl⟩
    | cons i is ih =>
      obtain ⟨rs, hrs⟩ := ih
      obtain ⟨st, hst⟩ := Option.isSome_iff_exists.mp (hall i)
      exact ⟨st :: rs, by rw [List.mapM_cons, hst, hrs]; rfl⟩
  exact hlist (List.finRange k)

/-- A drain times out, or all have their results. -/
theorem draining_goes {ds : Fin k → DrainPc} (hlife : s.life = .draining ds) : s.GoesOn := by
  by_cases hall : ∀ i, (ds i).status?.isSome
  · obtain ⟨rs, hrs⟩ := results_of_done hall
    have hstep : s.step (.report fun _ _ => "") = some (s.reportResults rs fun _ _ => "") := by
      simp only [step, hlife, hrs, Option.map_some]
    refine goesOn_phase hstep trivial ?_
    rw [hlife]
    rcases (reportResults_desks s rs fun _ _ => "").2.2 with h | h
    · rw [h]
      exact Nat.lt_succ_self _
    · rw [h]
      exact (show 5 < 9 by decide)
  · obtain ⟨i, hi⟩ := not_forall.mp hall
    have hnext : s.step (.drainTimesOut i) =
        some (s.setLife (.draining (Function.update ds i (.done .timeout)))) := by
      cases hd : ds i with
      | done st =>
        rw [hd] at hi
        exact absurd rfl hi
      | joining | joined => simp only [step, drainStep, hlife, hd, Option.map_some]
    refine goesOn_left hnext trivial (by rw [hlife]; rfl) ?_
    rw [left, left, hlife]
    refine Finset.sum_lt_sum (fun j _ => ?_) ⟨i, Finset.mem_univ i, ?_⟩
    · by_cases hj : j = i
      · rw [hj, Function.update_self]
        exact Nat.zero_le _
      · rw [Function.update_of_ne hj]
    · rw [Function.update_self, if_neg hi]
      exact Nat.one_pos

/-- A worker the host waits for ends, or all have ended. -/
theorem workers_go {ok : Pipeline cfg → PipelineAct cfg → Prop} (hs : (pipeline cfg).Reachable ok s)
    (hlife : s.life = .timedOut ∨ s.life = .reaping) :
    s.GoesOn ∨ ∀ w ∈ s.handler.logWorkersTasks, (s.taskEnd w).isSome := by
  have hst := (control hs).stage
  obtain ⟨hoff, htasks⟩ : s.handler.Off ∧ s.handler.logWorkersTasks = Handler.workerTasks k s.starts := by
    rcases hlife with hlife | hlife
    · rw [hlife] at hst
      exact ⟨hst.1, hst.2.2.1⟩
    · rw [hlife] at hst
      exact ⟨hst.1, hst.2.2.1⟩
  by_cases hall : ∀ i, (s.taskEnd (s.starts, i)).isSome
  · refine .inr fun w hw => ?_
    rw [htasks] at hw
    have := hall w.2
    rw [← Handler.mem_workerTasks.mp hw] at this
    exact this
  · obtain ⟨i, hi⟩ := not_forall.mp hall
    have hhired := (crewed hs).workers (s.starts, i) (by rw [htasks]; exact Handler.mem_workerTasks.mpr rfl)
    obtain ⟨y, hrun, hend⟩ := worker_ends hs hoff.running hhired
    refine .inl ⟨_, hrun, Prod.Lex.toLex_lt_toLex.mpr (.inr ⟨rfl, ?_⟩)⟩
    have hleft : ∀ u : Pipeline cfg, u.life = .timedOut ∨ u.life = .reaping →
        u.left = ∑ j, if (u.taskEnd (u.starts, j)).isSome then 0 else 1 := by
      intro u hu
      rcases hu with hu | hu
      · rw [left, hu]
      · rw [left, hu]
    rw [hleft s hlife, hleft (s.withWorker i s.starts y) hlife]
    show ∑ j, (if ((s.withWorker i s.starts y).taskEnd (s.starts, j)).isSome then 0 else 1) < _
    refine Finset.sum_lt_sum (fun j _ => ?_) ⟨i, Finset.mem_univ i, ?_⟩
    · by_cases hj : j = i
      · rw [hj, withWorker_taskEnd, if_pos hend]
        exact Nat.zero_le _
      · rw [withWorker_taskEnd_of_ne hj]
    · rw [withWorker_taskEnd, if_pos hend, if_neg hi]
      exact Nat.one_pos

/-- The wait that was cancelled at the deadline comes closer to its end. -/
theorem timedOut_goes {ok : Pipeline cfg → PipelineAct cfg → Prop}
    (hs : (pipeline cfg).Reachable ok s) (hlife : s.life = .timedOut) : s.GoesOn := by
  rcases workers_go hs (.inl hlife) with hgoes | hall
  · exact hgoes
  by_cases hraised : s.handler.logWorkersTasks.any (s.endedBy .raised) = true
  · have hstep : s.step .gatherEndsRaising = some (s.setLife .idle) := by
      simp only [step, hlife, hraised, if_true]
    refine goesOn_phase hstep trivial ?_
    rw [hlife]
    exact Nat.succ_pos _
  · have hends : (s.handler.logWorkersTasks.any (s.endedBy .cancelled) ||
        s.handler.logWorkersTasks.all (s.endedBy .returned)) = true := by
      by_cases hcancelled : s.handler.logWorkersTasks.any (s.endedBy .cancelled) = true
      · rw [hcancelled, Bool.true_or]
      · rw [Bool.or_eq_true]
        refine .inr (List.all_eq_true.mpr fun w hw => ?_)
        obtain ⟨e, he⟩ := Option.isSome_iff_exists.mp (hall w hw)
        have hended : s.endedBy e w = true := by rw [endedBy, he, beq_self_eq_true]
        cases e with
        | returned => exact hended
        | raised => exact absurd (List.any_eq_true.mpr ⟨w, hw, hended⟩) hraised
        | cancelled => exact absurd (List.any_eq_true.mpr ⟨w, hw, hended⟩) hcancelled
    have hstep : s.step .gatherEnds = some (s.cancelAll.setLife .reaping) := by
      simp only [step, hlife, hends, if_true]
    refine goesOn_phase hstep trivial ?_
    rw [hlife]
    exact Nat.lt_succ_self _

theorem reaping_goes {ok : Pipeline cfg → PipelineAct cfg → Prop}
    (hs : (pipeline cfg).Reachable ok s) (hlife : s.life = .reaping) : s.GoesOn := by
  rcases workers_go hs (.inr hlife) with hgoes | hall
  · exact hgoes
  have hstep : s.step .reaped = some s.forgetTasks := by
    simp only [step, hlife, List.all_eq_true.mpr hall, if_true]
  refine goesOn_phase hstep trivial ?_
  rw [hlife]
  exact Nat.lt_succ_self _

/-- The teardown comes closer to its end. -/
theorem clearing_goes {n : Nat} (hlife : s.life = .clearing n) : s.GoesOn := by
  by_cases hn : n < k
  · cases hclear : (s.desks ⟨n, hn⟩).ledger.clear .dropped with
    | none =>
      have hstep : s.step .advance = some (s.setLife .idle) := by
        simp only [step, advance, hlife, hn, dif_pos, hclear]
      refine goesOn_phase hstep trivial ?_
      rw [hlife]
      exact Nat.succ_pos _
    | some l =>
      have hstep : s.step .advance = some
          { s with
            life := .clearing (n + 1)
            desks := Function.update s.desks ⟨n, hn⟩ { s.desks ⟨n, hn⟩ with ledger := l } } := by
        simp only [step, advance, hlife, hn, dif_pos, hclear]
      refine goesOn_left hstep trivial (by rw [hlife]; rfl) ?_
      rw [left, left, hlife]
      show k - (n + 1) < k - n
      omega
  · have hstep : s.step .advance = some (s.setLife .clearingIngress) := by
      simp only [step, advance, hlife, hn, dif_neg, not_false_iff]
    refine goesOn_phase hstep trivial ?_
    rw [hlife]
    exact Nat.lt_succ_self _

theorem clearingIngress_goes (hc : Control s) (hlife : s.life = .clearingIngress) : s.GoesOn := by
  have hst := hc.stage
  rw [hlife] at hst
  have hingress := hst.2.1.ingress
  cases htake : s.intake.take s.starts with
  | none =>
    have hstep : s.step .advance = some (s.setLife .releaseLoop) := by
      simp only [step, advance, hlife, hingress, htake]
    refine goesOn_phase hstep trivial ?_
    rw [hlife]
    exact Nat.lt_succ_self _
  | some p =>
    obtain ⟨e, x⟩ := p
    have hstep : s.step .advance = some { s with intake := x.addTaken ⟨s.starts, e.call, none⟩ } := by
      simp only [step, advance, hlife, hingress, htake]
    refine goesOn_left hstep trivial rfl ?_
    obtain ⟨⟨e', q⟩, hget, heq⟩ := Option.map_eq_some_iff.mp htake
    obtain ⟨-, rfl⟩ := Prod.mk.inj heq
    obtain ⟨-, hitems⟩ := BoundedQueue.getNowait_eq_some.mp hget
    rw [left, left, hlife]
    show (Function.update s.intake.ingress s.starts q s.starts).items.length < _
    rw [Function.update_self, hitems, List.length_cons]
    exact Nat.lt_succ_self _

-- ---------------------------------------------------------------------------
-- Every call can end
-- ---------------------------------------------------------------------------

/-- **One statement of the host's call, or one task on its way, is done.** -/
theorem goes_on {ok : Pipeline cfg → PipelineAct cfg → Prop} (hs : (pipeline cfg).Reachable ok s)
    (hlife : s.life ≠ .idle) : s.GoesOn := by
  have hc := control hs
  have hadvance : ∀ t, s.step .advance = some t → t.life.phase < s.life.phase → s.GoesOn :=
    fun t h hlt => goesOn_phase h trivial hlt
  cases hl : s.life with
  | idle => exact absurd hl hlife
  | startIngress _ | startEvent | startBridge | startWorkers | releaseLoop | releaseIngress
  | releaseEvent =>
    refine hadvance _ (by rw [step, advance, hl]) ?_
    rw [hl]
    exact Nat.lt_succ_self _
  | awaitBridge => exact awaitBridge_goes hc (crewed hs) hl
  | flushing => exact flushing_goes hc hl
  | draining ds => exact draining_goes hl
  | gathering =>
    refine goesOn_phase (t := s.cancelAll.setLife .timedOut) (a := .deadline) ?_ trivial ?_
    · simp only [step, hl]
    · rw [hl]
      exact Nat.lt_succ_self _
  | timedOut => exact timedOut_goes hs hl
  | reaping => exact reaping_goes hs hl
  | clearing n => exact clearing_goes hl
  | clearingIngress => exact clearingIngress_goes hc hl

theorem own_reaches (hs : (pipeline cfg).Reachable Machine.Always s)
    (h : (pipeline cfg).Reaches (fun _ => Own) s t) :
    (pipeline cfg).Reachable Machine.Always t ∧ t.aim = s.aim := by
  induction h with
  | refl => exact ⟨hs, rfl⟩
  | tail _ hown hstep ih =>
    exact ⟨ih.1.step trivial hstep, (aim_step (control ih.1) hown hstep).trans ih.2⟩

/-- **No call of the host is ever stuck.** From every state of every run, with any number of
threads, backends, cancellations and calls before it, the handler by itself can bring the
host's call to its end: it runs after `start_logging`, and not after `stop_logging`. -/
theorem never_stuck (hs : (pipeline cfg).Reachable Machine.Always s) :
    ∃ t, (pipeline cfg).Reaches (fun _ => Own) s t ∧ t.life = .idle ∧
      t.handler.loggingRunningEvent = s.aim := by
  have hgoes : ∀ u : Pipeline cfg, (pipeline cfg).Reachable Machine.Always u ∧ u.aim = s.aim →
      ¬ u.life = .idle → ∃ t, (pipeline cfg).Reaches (fun _ => Own) u t ∧
        ((pipeline cfg).Reachable Machine.Always t ∧ t.aim = s.aim) ∧ t.toGo < u.toGo := by
    rintro u ⟨hu, haim⟩ hlife
    obtain ⟨t, hrun, hlt⟩ := goes_on hu hlife
    obtain ⟨ht, haim'⟩ := own_reaches hu hrun
    exact ⟨t, hrun, ⟨ht, haim'.trans haim⟩, hlt⟩
  obtain ⟨t, hrun, ⟨-, haim⟩, hidle⟩ := Machine.reaches_of_variant toGo hgoes ⟨hs, rfl⟩
  refine ⟨t, hrun, hidle, ?_⟩
  rw [← haim, aim, hidle]
  rfl

/-- The deadline has passed while a write is on its thread. -/
theorem never_stuck_slow : ∃ s, (pipeline fileAndConsole).run Machine.Always (init fileAndConsole)
      slowWrite = some s ∧ s.life = .timedOut ∧
    ∃ t, (pipeline fileAndConsole).Reaches (fun _ => Own) s t ∧ t.life = .idle ∧
      t.handler.loggingRunningEvent = false := by
  have hrun : ∃ s, (pipeline fileAndConsole).run Machine.Always (init fileAndConsole) slowWrite =
      some s ∧ s.life = .timedOut := ⟨_, rfl, rfl⟩
  obtain ⟨s, hs, hlife⟩ := hrun
  obtain ⟨t, ht, hidle, haim⟩ := never_stuck (.of_run rfl hs)
  refine ⟨s, hs, hlife, t, ht, hidle, haim.trans ?_⟩
  rw [aim, hlife]
  rfl

end Pipeline

end ScietexLogging
