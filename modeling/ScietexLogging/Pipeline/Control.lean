import ScietexLogging.Pipeline.Steps

/-!
# Pipeline — where the host's call stands

The references a handler holds, its two events and its bridge task, by the point
the host's call of `start_logging` or `stop_logging` has reached
(`Pipeline.Stage`). The bridge of an earlier start is never alive, and the
bridge works on the ingress and the event of its own start.

A `stop_logging` that raised leaves the references of its cycle behind: that is
the third way to be `idle`.
-/

namespace ScietexLogging

open Asyncio

variable {k : Nat}

/-- The task has been made and has not ended. -/
def BridgePc.Alive : BridgePc → Prop
  | .absent | .ended _ => False
  | _ => True

/-- The local references of the coroutine, once it has begun. -/
def BridgePc.refs : BridgePc → Option (Nat × Nat)
  | .atWait g e | .waiting g e | .woken g e | .moving g e => some (g, e)
  | .absent | .created | .ended _ => none

/-- The references are those of start `c`. -/
structure Handler.Current (h : Handler k) (c : Nat) : Prop where
  loop : h.loop = true
  ingress : h.ingress = some c
  ingressEvent : h.ingressEvent = some c
  bridgeTask : h.bridgeTask = some c

/-- The references, if any, are those of an earlier start. -/
structure Handler.Older (h : Handler k) (c : Nat) : Prop where
  ingress : ∀ g, h.ingress = some g → g < c
  ingressEvent : ∀ e, h.ingressEvent = some e → e < c

/-- Neither accepting nor running. -/
structure Handler.Off (h : Handler k) : Prop where
  accept : h.loggingAcceptEvent = false
  running : h.loggingRunningEvent = false

/-- Fully running, as `start_logging` leaves it. -/
structure Handler.Up (h : Handler k) (c : Nat) (b : BridgeTask) : Prop where
  running : h.loggingRunningEvent = true
  current : h.Current c
  tasks : h.logWorkersTasks = Handler.workerTasks k c
  alive : b.pc.Alive
  quiet : b.cancelRequested = false

/-- `stop_logging` raised while it waited for the workers. -/
structure Handler.Stuck (h : Handler k) (c : Nat) (b : BridgeTask) : Prop where
  off : h.Off
  current : h.Current c
  tasks : h.logWorkersTasks = Handler.workerTasks k c
  someTask : h.logWorkersTasks ≠ []
  gone : ¬ b.pc.Alive

/-- The handler and the bridge `b` of start `c`, by the point the host's call has
reached. -/
def Stage (h : Handler k) (c : Nat) (b : BridgeTask) : Life k → Prop
  | .idle => h.Up c b ∨ (h.Stopped ∧ ¬ b.pc.Alive) ∨ h.Stuck c b
  | .startIngress _ => h.Off ∧ h.loop = true ∧ h.Older c ∧ ¬ b.pc.Alive
  | .startEvent =>
    h.Off ∧ h.loop = true ∧ h.ingress = some c ∧ (∀ e, h.ingressEvent = some e → e < c) ∧
      ¬ b.pc.Alive
  | .startBridge =>
    h.Off ∧ h.loop = true ∧ h.ingress = some c ∧ h.ingressEvent = some c ∧ ¬ b.pc.Alive
  | .startWorkers =>
    h.loggingRunningEvent = false ∧ h.Current c ∧ b.pc.Alive ∧ b.cancelRequested = false
  | .awaitBridge =>
    h.loggingAcceptEvent = false ∧ h.Current c ∧ h.logWorkersTasks = Handler.workerTasks k c ∧
      (b.pc.Alive → b.cancelRequested = true)
  | .flushing | .draining _ =>
    h.loggingAcceptEvent = false ∧ h.Current c ∧ h.logWorkersTasks = Handler.workerTasks k c ∧
      ¬ b.pc.Alive
  | .gathering | .timedOut | .reaping =>
    h.Off ∧ h.Current c ∧ h.logWorkersTasks = Handler.workerTasks k c ∧ ¬ b.pc.Alive
  | .clearing _ | .clearingIngress | .releaseLoop =>
    h.Off ∧ h.Current c ∧ h.logWorkersTasks = [] ∧ ¬ b.pc.Alive
  | .releaseIngress =>
    h.Off ∧ h.loop = false ∧ h.ingress = some c ∧ h.ingressEvent = some c ∧
      h.logWorkersTasks = [] ∧ ¬ b.pc.Alive
  | .releaseEvent =>
    h.Off ∧ h.loop = false ∧ h.ingress = none ∧ h.ingressEvent = some c ∧
      h.logWorkersTasks = [] ∧ ¬ b.pc.Alive

/-- The host's call is in `start_logging`. -/
def Life.Starting : Life k → Prop
  | .startIngress _ | .startEvent | .startBridge | .startWorkers => True
  | _ => False

/-- The stage depends on whether the bridge is alive and asked to end. -/
theorem Stage.congr {h : Handler k} {c : Nat} {b b' : BridgeTask} {l : Life k}
    (hs : Stage h c b l) (ha : b'.pc.Alive ↔ b.pc.Alive)
    (hq : b'.cancelRequested = b.cancelRequested) : Stage h c b' l := by
  cases l with
  | idle =>
    rcases hs with hup | ⟨hstop, hb⟩ | hst
    · exact .inl ⟨hup.running, hup.current, hup.tasks, ha.mpr hup.alive, hq.trans hup.quiet⟩
    · exact .inr (.inl ⟨hstop, fun h => hb (ha.mp h)⟩)
    · exact .inr (.inr ⟨hst.off, hst.current, hst.tasks, hst.someTask, fun h => hst.gone (ha.mp h)⟩)
  | _ => simp only [Stage, ha, hq] at hs ⊢; exact hs

/-- `close()` clears the accept event, and is nothing to the rest. -/
theorem Stage.close {h : Handler k} {c : Nat} {b : BridgeTask} {l : Life k}
    (hs : Stage h c b l) : Stage h.close c b l := by
  have hoff : h.Off → h.close.Off := fun ho => ⟨rfl, ho.running⟩
  have hcur : h.Current c → h.close.Current c :=
    fun hc => ⟨hc.loop, hc.ingress, hc.ingressEvent, hc.bridgeTask⟩
  cases l with
  | idle =>
    rcases hs with hup | ⟨hstop, hb⟩ | hst
    · exact .inl ⟨hup.running, hcur hup.current, hup.tasks, hup.alive, hup.quiet⟩
    · exact .inr (.inl ⟨⟨rfl, hstop.running, hstop.loop, hstop.ingress, hstop.ingressEvent,
        hstop.bridgeTask, hstop.tasks⟩, hb⟩)
    · exact .inr (.inr ⟨hoff hst.off, hcur hst.current, hst.tasks, hst.someTask, hst.gone⟩)
  | startIngress m =>
    exact ⟨hoff hs.1, hs.2.1, ⟨hs.2.2.1.ingress, hs.2.2.1.ingressEvent⟩, hs.2.2.2⟩
  | startEvent => exact ⟨hoff hs.1, hs.2⟩
  | startBridge => exact ⟨hoff hs.1, hs.2⟩
  | startWorkers => exact ⟨hs.1, hcur hs.2.1, hs.2.2⟩
  | awaitBridge => exact ⟨rfl, hcur hs.2.1, hs.2.2⟩
  | flushing => exact ⟨rfl, hcur hs.2.1, hs.2.2⟩
  | draining ds => exact ⟨rfl, hcur hs.2.1, hs.2.2⟩
  | gathering => exact ⟨hoff hs.1, hcur hs.2.1, hs.2.2⟩
  | timedOut => exact ⟨hoff hs.1, hcur hs.2.1, hs.2.2⟩
  | reaping => exact ⟨hoff hs.1, hcur hs.2.1, hs.2.2⟩
  | clearing n => exact ⟨hoff hs.1, hcur hs.2.1, hs.2.2⟩
  | clearingIngress => exact ⟨hoff hs.1, hcur hs.2.1, hs.2.2⟩
  | releaseLoop => exact ⟨hoff hs.1, hcur hs.2.1, hs.2.2⟩
  | releaseIngress => exact ⟨hoff hs.1, hs.2⟩
  | releaseEvent => exact ⟨hoff hs.1, hs.2⟩

/-- A bridge that is alive finds the references of its start. -/
theorem Stage.current_of_alive {h : Handler k} {c : Nat} {b : BridgeTask} {l : Life k}
    (hs : Stage h c b l) (ha : b.pc.Alive) : h.Current c := by
  cases l with
  | idle =>
    rcases hs with hup | ⟨-, hb⟩ | hst
    · exact hup.current
    · exact absurd ha hb
    · exact hst.current
  | startWorkers | awaitBridge | flushing | draining _ | gathering | timedOut | reaping
  | clearing _ | clearingIngress | releaseLoop => exact hs.2.1
  | startIngress _ | startEvent | startBridge | releaseIngress | releaseEvent =>
    simp only [Stage, ha, not_true, and_false] at hs

/-- While the accept event is set, the references are those of the last start. -/
theorem Stage.current_of_accept {h : Handler k} {c : Nat} {b : BridgeTask} {l : Life k}
    (hs : Stage h c b l) (ha : h.loggingAcceptEvent = true) : h.Current c := by
  have hno : h.loggingAcceptEvent = false → h.Current c := fun hf => by
    rw [hf] at ha
    exact absurd ha (by simp)
  cases l with
  | idle =>
    rcases hs with hup | ⟨hstop, -⟩ | hst
    · exact hup.current
    · exact hno hstop.accept
    · exact hst.current
  | startWorkers => exact hs.2.1
  | awaitBridge | flushing | draining _ => exact hno hs.1
  | startIngress _ | startEvent | startBridge | gathering | timedOut | reaping | clearing _
  | clearingIngress | releaseLoop | releaseIngress | releaseEvent => exact hno hs.1.accept

/-- What `_ingress` refers to: that of the last start, once there is one. -/
theorem Stage.ingress {h : Handler k} {c : Nat} {b : BridgeTask} {l : Life k} (hs : Stage h c b l)
    {g : Nat} (hg : h.ingress = some g) : g < c ∨ (g = c ∧ ∀ m, l ≠ .startIngress m) := by
  have hcur : ∀ {l : Life k}, (∀ m, l ≠ .startIngress m) → h.ingress = some c →
      g < c ∨ (g = c ∧ ∀ m, l ≠ .startIngress m) :=
    fun hl hc => .inr ⟨Option.some.inj (hg.symm.trans hc), hl⟩
  cases l with
  | startIngress m => exact .inl (hs.2.2.1.ingress g hg)
  | idle =>
    refine hcur (fun _ => nofun) ?_
    rcases hs with hup | ⟨hstop, -⟩ | hst
    · exact hup.current.ingress
    · rw [hstop.ingress] at hg
      exact absurd hg (by simp)
    · exact hst.current.ingress
  | startEvent | startBridge | releaseIngress => exact hcur (fun _ => nofun) hs.2.2.1
  | startWorkers | awaitBridge | flushing | draining _ | gathering | timedOut | reaping
  | clearing _ | clearingIngress | releaseLoop => exact hcur (fun _ => nofun) hs.2.1.ingress
  | releaseEvent =>
    rw [hs.2.2.1] at hg
    exact absurd hg (by simp)

/-- Only a bridge that was asked to may end. -/
theorem Stage.bridgeEnds {h : Handler k} {c : Nat} {b b' : BridgeTask} {l : Life k}
    (hs : Stage h c b l) (ha : b.pc.Alive) (hq : b.cancelRequested = true)
    (hb : ¬ b'.pc.Alive) : Stage h c b' l := by
  cases l with
  | awaitBridge => exact ⟨hs.1, hs.2.1, hs.2.2.1, fun h => absurd h hb⟩
  | idle =>
    rcases hs with hup | ⟨-, hb⟩ | hst
    · rw [hup.quiet] at hq
      exact absurd hq (by simp)
    · exact absurd ha hb
    · exact absurd ha hst.gone
  | startWorkers =>
    rw [hs.2.2.2] at hq
    exact absurd hq (by simp)
  | _ => simp only [Stage, ha, not_true, and_false] at hs

theorem BridgeTask.wake_alive (b : BridgeTask) (e : Nat) : (b.wake e).pc.Alive ↔ b.pc.Alive := by
  unfold BridgeTask.wake
  split
  · rename_i g e' hpc
    split
    · rw [hpc]
      exact Iff.rfl
    · exact Iff.rfl
  · exact Iff.rfl

theorem BridgeTask.wake_refs (b : BridgeTask) (e : Nat) : (b.wake e).pc.refs = b.pc.refs := by
  unfold BridgeTask.wake
  split
  · rename_i g e' hpc
    split
    · rename_i heq
      rw [hpc, heq]
      rfl
    · rfl
  · rfl

theorem BridgeTask.wake_cancelRequested (b : BridgeTask) (e : Nat) :
    (b.wake e).cancelRequested = b.cancelRequested := by
  unfold BridgeTask.wake
  split
  · split <;> rfl
  · rfl

theorem BridgeTask.wake_ended {b : BridgeTask} {e : Nat} {x : TaskEnd}
    (h : (b.wake e).pc = .ended x) : b.pc = .ended x := by
  unfold BridgeTask.wake at h
  split at h
  · split at h
    · cases h
    · exact h
  · exact h

theorem BridgeTask.cancel_pc (b : BridgeTask) : b.cancel.pc = b.pc := by
  unfold BridgeTask.cancel
  split
  · rfl
  · rfl

theorem BridgePc.alive_of_refs {pc : BridgePc} {r : Nat × Nat} (h : pc.refs = some r) :
    pc.Alive := by
  cases pc <;> simp_all [refs, Alive]

theorem BridgePc.not_alive {pc : BridgePc} (h : ¬ pc.Alive) :
    pc = .absent ∨ ∃ e, pc = .ended e := by
  cases pc <;> simp_all [Alive]

namespace Pipeline

variable {cfg : Config k} {s t : Pipeline cfg} {a : PipelineAct cfg}

-- ---------------------------------------------------------------------------
-- What a segment of the bridge does to the bridge
-- ---------------------------------------------------------------------------

inductive BridgeChange (h : Handler k) (b : BridgeTask) : BridgePc → Prop
  | cancelled (request : b.cancelRequested = true) : BridgeChange h b (.ended .cancelled)
  | begins {g e : Nat} (created : b.pc = .created) (ingress : h.ingress = some g)
      (event : h.ingressEvent = some e) : BridgeChange h b (.atWait g e)
  | fails (created : b.pc = .created) (unset : h.ingress = none ∨ h.ingressEvent = none) :
      BridgeChange h b (.ended .raised)
  | goes {pc : BridgePc} (same : pc.refs = b.pc.refs) (begun : b.pc.refs ≠ none) :
      BridgeChange h b pc

theorem moveOne_control {g : Nat} (h : s.moveOne g = some t) :
    t.handler = s.handler ∧ t.starts = s.starts ∧ t.life = s.life ∧ t.bridge = s.bridge ∧
      t.flushed = s.flushed := by
  obtain ⟨e, q, -, rfl⟩ := moveOne_eq_some h
  exact ⟨rfl, rfl, rfl, rfl, rfl⟩

/-- What a step of the bridge leaves alone, and what it does to its task. -/
structure BridgeStepped (s t : Pipeline cfg) (b : Nat) : Prop where
  handler : t.handler = s.handler
  starts : t.starts = s.starts
  life : t.life = s.life
  flushed : t.flushed = s.flushed
  alive : (s.bridge b).pc.Alive
  bridge : ∃ pc, BridgeChange s.handler (s.bridge b) pc ∧
    t.bridge = Function.update s.bridge b ⟨pc, (s.bridge b).cancelRequested⟩

theorem bridgeStep_spec {b : Nat} (h : s.bridgeStep b = some t) : BridgeStepped s t b := by
  have hset : ∀ x : Pipeline cfg, ∀ pc, x.handler = s.handler → x.starts = s.starts →
      x.life = s.life → x.flushed = s.flushed → x.bridge = s.bridge → (s.bridge b).pc.Alive →
      BridgeChange s.handler (s.bridge b) pc → BridgeStepped s (x.setBridge b pc) b := by
    intro x pc h₁ h₂ h₃ h₄ h₅ ha hpc
    refine ⟨h₁, h₂, h₃, h₄, ha, pc, hpc, ?_⟩
    rw [setBridge, h₅]
  unfold bridgeStep at h
  split at h
  case h_1 hpc hq | h_2 hpc hq | h_3 hpc hq =>
    obtain rfl := Option.some.inj h
    exact hset s _ rfl rfl rfl rfl rfl (by rw [hpc]; trivial) (.cancelled hq)
  case h_4 hpc hq =>
    split at h
    · rename_i g e hg he
      obtain rfl := Option.some.inj h
      exact hset s _ rfl rfl rfl rfl rfl (by rw [hpc]; trivial) (.begins hpc hg he)
    · rename_i hnone
      obtain rfl := Option.some.inj h
      refine hset s _ rfl rfl rfl rfl rfl (by rw [hpc]; trivial) (.fails hpc ?_)
      cases hg : s.handler.ingress with
      | none => exact .inl rfl
      | some g =>
        cases he : s.handler.ingressEvent with
        | none => exact .inr rfl
        | some e => exact absurd he (hnone g e hg)
  case h_5 g e hpc =>
    have hbegun : (s.bridge b).pc.refs ≠ none := by rw [hpc]; exact Option.some_ne_none _
    split at h
    · obtain rfl := Option.some.inj h
      exact hset _ _ rfl rfl rfl rfl rfl (by rw [hpc]; trivial) (.goes (by rw [hpc]; rfl) hbegun)
    · obtain rfl := Option.some.inj h
      exact hset s _ rfl rfl rfl rfl rfl (by rw [hpc]; trivial) (.goes (by rw [hpc]; rfl) hbegun)
  case h_6 g e hpc hq =>
    have hbegun : (s.bridge b).pc.refs ≠ none := by rw [hpc]; exact Option.some_ne_none _
    obtain rfl := Option.some.inj h
    exact hset _ _ rfl rfl rfl rfl rfl (by rw [hpc]; trivial) (.goes (by rw [hpc]; rfl) hbegun)
  case h_7 g e hpc =>
    have hbegun : (s.bridge b).pc.refs ≠ none := by rw [hpc]; exact Option.some_ne_none _
    split at h
    · rename_i hm
      obtain rfl := Option.some.inj h
      obtain ⟨h₁, h₂, h₃, h₄, h₅⟩ := moveOne_control hm
      refine ⟨h₁, h₂, h₃, h₅, by rw [hpc]; trivial, .moving g e,
        .goes (by rw [hpc]) hbegun, ?_⟩
      rw [h₄, ← hpc]
      exact (Function.update_eq_self b s.bridge).symm
    · obtain rfl := Option.some.inj h
      exact hset s _ rfl rfl rfl rfl rfl (by rw [hpc]; trivial) (.goes (by rw [hpc]; rfl) hbegun)
  all_goals exact absurd h (by simp)

-- ---------------------------------------------------------------------------
-- What a step does to the host's call
-- ---------------------------------------------------------------------------

/-- The statements and the suspensions of the host's
calls. -/
inductive HostStep (s : Pipeline cfg) (a : PipelineAct cfg) : Handler k → Life k → Prop
  | close : HostStep s a s.handler.close s.life
  | stop (life : s.life = .idle) (busy : s.handler.stopIgnored = false) :
      HostStep s a { s.handler with loggingAcceptEvent := false } .awaitBridge
  | setIngress {m : Nat} (life : s.life = .startIngress m) (is : a = .advance) :
      HostStep s a { s.handler with ingress := some s.starts } .startEvent
  | setEvent (life : s.life = .startEvent) :
      HostStep s a { s.handler with ingressEvent := some s.starts } .startBridge
  | setBridge (life : s.life = .startBridge) :
      HostStep s a { s.handler with bridgeTask := some s.starts, loggingAcceptEvent := true }
        .startWorkers
  | setWorkers (life : s.life = .startWorkers) :
      HostStep s a
        { s.handler with
          loggingRunningEvent := true
          logWorkersTasks := Handler.workerTasks k s.starts } .idle
  | bridgeAwaited (life : s.life = .awaitBridge) : HostStep s a s.handler .flushing
  | bridgeRaised {b : Nat} (life : s.life = .awaitBridge)
      (raised : (s.bridge b).pc = .ended .raised) : HostStep s a s.handler .idle
  | flushed (is : a = .advance) (life : s.life = .flushing)
      (empty : ∀ g, s.handler.ingress = some g → (s.intake.ingress g).items = []) :
      HostStep s a s.handler (.draining fun _ => .joining)
  | drain {ds : Fin k → DrainPc} {i : Fin k} {d : DrainPc} (life : s.life = .draining ds)
      (zero : d = .joined ∨ d = .done .completed →
        ds i = .joined ∨ (s.desks i).ledger.queue.unfinished = 0) :
      HostStep s a s.handler (.draining (Function.update ds i d))
  | reported {ds : Fin k → DrainPc} (life : s.life = .draining ds)
      (workers : s.handler.logWorkersTasks ≠ []) :
      HostStep s a { s.handler with loggingRunningEvent := false } .gathering
  | reportedNoWorkers {ds : Fin k → DrainPc} (life : s.life = .draining ds)
      (workers : s.handler.logWorkersTasks = []) :
      HostStep s a { s.handler with loggingRunningEvent := false, logWorkersTasks := [] } (.clearing 0)
  | deadline (life : s.life = .gathering) : HostStep s a s.handler .timedOut
  | reap (life : s.life = .timedOut) : HostStep s a s.handler .reaping
  | raise (life : s.life = .gathering ∨ s.life = .timedOut)
      (is : a = .gatherRaises ∨ a = .gatherEndsRaising) : HostStep s a s.handler .idle
  | forget (life : s.life = .gathering ∨ s.life = .reaping)
      (all : ∀ t ∈ s.handler.logWorkersTasks, (s.taskEnd t).isSome) :
      HostStep s a { s.handler with logWorkersTasks := [] } (.clearing 0)
  | clear {n : Nat} (is : a = .advance) (life : s.life = .clearing n) (more : n < k) :
      HostStep s a s.handler (.clearing (n + 1))
  | clearRaises {n : Nat} (life : s.life = .clearing n) (more : n < k)
      (fails : (s.desks ⟨n, more⟩).ledger.clear .dropped = none) : HostStep s a s.handler .idle
  | cleared {n : Nat} (life : s.life = .clearing n) (all : k ≤ n) :
      HostStep s a s.handler .clearingIngress
  | emptied (life : s.life = .clearingIngress) : HostStep s a s.handler .releaseLoop
  | releaseLoop (life : s.life = .releaseLoop) :
      HostStep s a { s.handler with loop := false } .releaseIngress
  | releaseIngress (life : s.life = .releaseIngress) :
      HostStep s a { s.handler with ingress := none } .releaseEvent
  | releaseEvent (life : s.life = .releaseEvent) :
      HostStep s a { s.handler with ingressEvent := none, bridgeTask := none } .idle

/-- What a step does to the host's call: nothing, a statement, or a new start. -/
inductive Hosted (s t : Pipeline cfg) (a : PipelineAct cfg) : Prop
  | same (handler : t.handler = s.handler) (life : t.life = s.life) (starts : t.starts = s.starts)
      (flushed : t.flushed = s.flushed)
  | host (step : HostStep s a t.handler t.life) (starts : t.starts = s.starts)
      (flushed : t.flushed = s.flushed ∨ ∃ g, s.life = .flushing ∧ s.handler.ingress = some g ∧
        t.flushed = Function.update s.flushed g (some (s.intake.entered g)))
  | start {m : Nat} (life : s.life = .idle) (may : s.handler.mayStart = true)
      (eq : t = s.startLogging m) (is : a = .start m)

private theorem advance_hosted (his : a = .advance) (h : s.advance = some t) : Hosted s t a := by
  cases hlife : s.life with
  | startIngress m =>
    rw [advance, hlife] at h
    obtain rfl := Option.some.inj h
    exact .host (.setIngress hlife his) rfl (.inl rfl)
  | startEvent =>
    rw [advance, hlife] at h
    obtain rfl := Option.some.inj h
    exact .host (.setEvent hlife) rfl (.inl rfl)
  | startBridge =>
    rw [advance, hlife] at h
    obtain rfl := Option.some.inj h
    exact .host (.setBridge hlife) rfl (.inl rfl)
  | startWorkers =>
    rw [advance, hlife] at h
    obtain rfl := Option.some.inj h
    exact .host (.setWorkers hlife) rfl (.inl rfl)
  | releaseLoop =>
    rw [advance, hlife] at h
    obtain rfl := Option.some.inj h
    exact .host (.releaseLoop hlife) rfl (.inl rfl)
  | releaseIngress =>
    rw [advance, hlife] at h
    obtain rfl := Option.some.inj h
    exact .host (.releaseIngress hlife) rfl (.inl rfl)
  | releaseEvent =>
    rw [advance, hlife] at h
    obtain rfl := Option.some.inj h
    exact .host (.releaseEvent hlife) rfl (.inl rfl)
  | flushing =>
    rcases advance_flushing hlife h with ⟨hnone, rfl⟩ | ⟨g, hg, hm | ⟨hm, rfl⟩⟩
    · refine .host (.flushed his hlife fun g hg => ?_) rfl (.inl rfl)
      rw [hnone] at hg
      exact absurd hg (by simp)
    · obtain ⟨h₁, h₂, h₃, -, h₅⟩ := moveOne_control hm
      exact .same h₁ h₃ h₂ h₅
    · refine .host (.flushed his hlife fun g' hg' => ?_) rfl (.inr ⟨g, hlife, hg, rfl⟩)
      obtain rfl := Option.some.inj (hg.symm.trans hg')
      exact moveOne_eq_none.mp hm
  | clearing n =>
    rcases advance_clearing hlife h with ⟨hn, l, -, rfl⟩ | ⟨hn, hnone, rfl⟩ | ⟨hn, rfl⟩
    · exact .host (.clear his hlife hn) rfl (.inl rfl)
    · exact .host (.clearRaises hlife hn hnone) rfl (.inl rfl)
    · exact .host (.cleared hlife hn) rfl (.inl rfl)
  | clearingIngress =>
    rcases advance_clearingIngress hlife h with rfl | ⟨g, e, q, -, -, rfl⟩
    · exact .host (.emptied hlife) rfl (.inl rfl)
    · exact .same rfl rfl rfl rfl
  | idle | awaitBridge | draining _ | gathering | timedOut | reaping =>
    rw [advance, hlife] at h
    exact absurd h (by simp)

private theorem drain_hosted {i : Fin k} {next : DrainPc → Option DrainPc}
    (h : s.drainStep i next = some t)
    (hnext : ∀ d d', next d = some d' → d' = .joined ∨ d' = .done .completed →
      d = .joined ∨ (s.desks i).ledger.queue.unfinished = 0) : Hosted s t a := by
  obtain ⟨ds, d, hlife, hd, rfl⟩ := drainStep_eq_some h
  exact .host (.drain hlife (hnext _ _ hd)) rfl (.inl rfl)

/-- **What a step does to the host's call.** -/
theorem step_hosted (h : s.step a = some t) : Hosted s t a := by
  cases a with
  | emitCall _ | cancelWorker _ _ =>
    obtain rfl := Option.some.inj h
    exact .same rfl rfl rfl rfl
  | close =>
    obtain rfl := Option.some.inj h
    exact .host .close rfl (.inl rfl)
  | emit n =>
    obtain ⟨x, -, rfl⟩ := Option.map_eq_some_iff.mp h
    exact .same rfl rfl rfl rfl
  | worker i c act =>
    obtain ⟨d, -, rfl⟩ := Option.map_eq_some_iff.mp h
    exact .same rfl rfl rfl rfl
  | runSet e =>
    rw [Pipeline.step] at h
    split at h
    · exact absurd h (by simp)
    · obtain rfl := Option.some.inj h
      exact .same rfl rfl rfl rfl
  | bridge b =>
    have hb := bridgeStep_spec h
    exact .same hb.handler hb.life hb.starts hb.flushed
  | start m =>
    rw [Pipeline.step] at h
    split at h
    · rename_i hlife
      split at h
      · rename_i hmay
        exact .start hlife hmay (Option.some.inj h).symm rfl
      · exact absurd h (by simp)
    · exact absurd h (by simp)
  | stop =>
    rw [Pipeline.step] at h
    split at h
    · rename_i hlife
      obtain rfl := Option.some.inj h
      unfold stopLogging
      split
      · exact .same rfl rfl rfl rfl
      · rename_i hbusy
        exact .host (.stop hlife (by simpa using hbusy)) rfl (.inl rfl)
    · exact absurd h (by simp)
  | advance => exact advance_hosted rfl h
  | bridgeAwaited =>
    rw [Pipeline.step] at h
    split at h
    · rename_i hlife _
      obtain rfl := Option.some.inj h
      exact .host (.bridgeAwaited hlife) rfl (.inl rfl)
    · rename_i b hlife _
      split at h
      · rename_i hpc
        obtain rfl := Option.some.inj h
        exact .host (.bridgeRaised hlife hpc) rfl (.inl rfl)
      · obtain rfl := Option.some.inj h
        exact .host (.bridgeAwaited hlife) rfl (.inl rfl)
      · exact absurd h (by simp)
    · exact absurd h (by simp)
  | joined i =>
    rw [Pipeline.step] at h
    refine drain_hosted h fun d d' hd _ => ?_
    split at hd
    · rename_i hcond
      exact .inr hcond.2
    · exact absurd hd (by simp)
  | drainReturns i =>
    rw [Pipeline.step] at h
    refine drain_hosted h fun d d' hd _ => ?_
    split at hd
    · rename_i hcond
      exact .inl hcond
    · exact absurd hd (by simp)
  | drainTimesOut i | drainFails i exc =>
    rw [Pipeline.step] at h
    refine drain_hosted h fun d d' hd hd' => ?_
    split at hd
    · exact absurd hd (by simp)
    · obtain rfl := Option.some.inj hd
      exact absurd hd' (by simp)
  | report times =>
    rw [Pipeline.step] at h
    split at h
    · rename_i ds hlife
      obtain ⟨rs, -, rfl⟩ := Option.map_eq_some_iff.mp h
      unfold reportResults
      split
      · rename_i hnil
        exact .host (.reportedNoWorkers hlife hnil) rfl (.inl rfl)
      · rename_i hne
        exact .host (.reported hlife hne) rfl (.inl rfl)
    · exact absurd h (by simp)
  | deadline =>
    rw [Pipeline.step] at h
    split at h
    · rename_i hlife
      obtain rfl := Option.some.inj h
      exact .host (.deadline hlife) rfl (.inl rfl)
    · exact absurd h (by simp)
  | gathered =>
    rw [Pipeline.step] at h
    split at h
    · rename_i hlife
      split at h
      · rename_i hall
        obtain rfl := Option.some.inj h
        refine .host (.forget (.inl hlife) fun t ht => ?_) rfl (.inl rfl)
        have hret := List.all_eq_true.mp hall t ht
        rw [endedBy, beq_iff_eq] at hret
        rw [hret]
        rfl
      · exact absurd h (by simp)
    · exact absurd h (by simp)
  | reaped =>
    rw [Pipeline.step] at h
    split at h
    · rename_i hlife
      split at h
      · rename_i hall
        obtain rfl := Option.some.inj h
        exact .host (.forget (.inr hlife) fun t ht => List.all_eq_true.mp hall t ht) rfl (.inl rfl)
      · exact absurd h (by simp)
    · exact absurd h (by simp)
  | gatherRaises =>
    rw [Pipeline.step] at h
    split at h
    · rename_i hlife
      split at h
      · obtain rfl := Option.some.inj h
        exact .host (.raise (.inl hlife) (.inl rfl)) rfl (.inl rfl)
      · exact absurd h (by simp)
    · exact absurd h (by simp)
  | gatherEndsRaising =>
    rw [Pipeline.step] at h
    split at h
    · rename_i hlife
      split at h
      · obtain rfl := Option.some.inj h
        exact .host (.raise (.inr hlife) (.inr rfl)) rfl (.inl rfl)
      · exact absurd h (by simp)
    · exact absurd h (by simp)
  | gatherEnds =>
    rw [Pipeline.step] at h
    split at h
    · rename_i hlife
      split at h
      · obtain rfl := Option.some.inj h
        exact .host (.reap hlife) rfl (.inl rfl)
      · exact absurd h (by simp)
    · exact absurd h (by simp)

theorem HostStep.startIngress {h : Handler k} {l : Life k} {m : Nat} (hs : HostStep s a h l)
    (hl : l = .startIngress m) : s.life = .startIngress m := by
  cases hs with
  | close => exact hl
  | _ => cases hl

/-- Only a call of `start_logging` counts a start, and begins with a new ingress. -/
theorem step_starts (h : s.step a = some t) :
    (t.starts = s.starts ∧ ∀ m, t.life = .startIngress m → s.life = .startIngress m) ∨
      ∃ m, s.life = .idle ∧ s.handler.mayStart = true ∧ t = s.startLogging m := by
  cases step_hosted h with
  | same _ life starts _ => exact .inl ⟨starts, fun m hm => life ▸ hm⟩
  | start life may eq _ => exact .inr ⟨_, life, may, eq⟩
  | host step starts _ => exact .inl ⟨starts, fun m hm => step.startIngress hm⟩

-- ---------------------------------------------------------------------------
-- The invariant
-- ---------------------------------------------------------------------------

structure Control (s : Pipeline cfg) : Prop where
  old : ∀ b, b ≠ s.starts → ¬ (s.bridge b).pc.Alive
  refs : ∀ b g e, (s.bridge b).pc.refs = some (g, e) → g = s.starts ∧ e = s.starts
  ended : ∀ b x, (s.bridge b).pc = .ended x → x = .cancelled
  stage : Stage s.handler s.starts (s.bridge s.starts) s.life

theorem Control.init : Control (init cfg) :=
  ⟨fun _ _ => id, fun _ _ _ h => absurd h (by simp [Pipeline.init, BridgePc.refs]),
    fun _ _ h => absurd h (by simp [Pipeline.init]), .inr (.inl ⟨.fresh, id⟩)⟩

/-- Steps of the host that leave the bridges alone. -/
private theorem Control.host (hc : Control s) (hstarts : t.starts = s.starts)
    (hbridge : t.bridge = s.bridge)
    (hstage : Stage t.handler s.starts (s.bridge s.starts) t.life) : Control t := by
  refine ⟨?_, ?_, ?_, ?_⟩
  · rw [hstarts, hbridge]; exact hc.old
  · rw [hstarts, hbridge]; exact hc.refs
  · rw [hbridge]; exact hc.ended
  · rw [hstarts, hbridge]; exact hstage

/-- Steps that touch the bridge of the last start only. -/
private theorem Control.setTask (hc : Control s) (hstarts : t.starts = s.starts) {b' : BridgeTask}
    (hbridge : t.bridge = Function.update s.bridge s.starts b')
    (hrefs : ∀ g e, b'.pc.refs = some (g, e) → g = s.starts ∧ e = s.starts)
    (hended : ∀ x, b'.pc = .ended x → x = .cancelled)
    (hstage : Stage t.handler s.starts b' t.life) : Control t := by
  have hself : t.bridge s.starts = b' := by rw [hbridge, Function.update_self]
  have hother : ∀ b, b ≠ s.starts → t.bridge b = s.bridge b := fun b hne => by
    rw [hbridge, Function.update_of_ne hne]
  refine ⟨fun b hne => ?_, fun b g e hr => ?_, fun b x hx => ?_, ?_⟩
  · rw [hstarts] at hne
    rw [hother b hne]
    exact hc.old b hne
  · rw [hstarts]
    by_cases hbs : b = s.starts
    · rw [hbs, hself] at hr
      exact hrefs g e hr
    · rw [hother b hbs] at hr
      exact hc.refs b g e hr
  · by_cases hbs : b = s.starts
    · rw [hbs, hself] at hx
      exact hended x hx
    · rw [hother b hbs] at hx
      exact hc.ended b x hx
  · rw [hstarts, hself]
    exact hstage

private theorem Control.bridge (hc : Control s) {b : Nat} (h : s.bridgeStep b = some t) :
    Control t := by
  obtain ⟨hh, hstarts, hlife, -, halive, pc, hpc, hb⟩ := bridgeStep_spec h
  obtain rfl : b = s.starts := by
    by_contra hne
    exact hc.old b hne halive
  have hcur := hc.stage.current_of_alive halive
  have hstage := hc.stage
  rw [← hh, ← hlife] at hstage
  cases hpc with
  | cancelled request =>
    exact hc.setTask hstarts hb (fun g e h => absurd h (by simp [BridgePc.refs]))
      (fun x h => (BridgePc.ended.inj h).symm) (hstage.bridgeEnds halive request id)
  | @begins g e created ingress event =>
    refine hc.setTask hstarts hb (fun g' e' h => ?_) (fun x h => absurd h (by simp))
      (hstage.congr ?_ rfl)
    · rw [hcur.ingress] at ingress
      rw [hcur.ingressEvent] at event
      obtain ⟨rfl, rfl⟩ := Prod.mk.inj (Option.some.inj h)
      exact ⟨(Option.some.inj ingress).symm, (Option.some.inj event).symm⟩
    · rw [created]
      exact Iff.rfl
  | fails created unset =>
    rw [hcur.ingress, hcur.ingressEvent] at unset
    exact absurd unset (by simp)
  | goes same begun =>
    obtain ⟨r, hr⟩ := Option.ne_none_iff_exists'.mp begun
    have ha : pc.Alive := BridgePc.alive_of_refs (same.trans hr)
    refine hc.setTask hstarts hb (fun g e h => hc.refs s.starts g e (same.symm.trans h))
      (fun x h => ?_) (hstage.congr ⟨fun _ => halive, fun _ => ha⟩ rfl)
    rw [show pc = _ from h] at ha
    exact ha.elim

private theorem Control.startBridge (hc : Control s) (hlife : s.life = .startBridge)
    (h : s.advance = some t) : Control t := by
  rw [advance, hlife] at h
  obtain rfl := Option.some.inj h
  have hst := hc.stage
  rw [hlife] at hst
  obtain ⟨hoff, hloop, hing, hev, -⟩ := hst
  exact hc.setTask rfl rfl (fun g e h => absurd h (by simp [BridgePc.refs]))
    (fun x h => absurd h (by simp)) ⟨hoff.running, ⟨hloop, hing, hev, rfl⟩, trivial, rfl⟩

private theorem Control.advance (hc : Control s) (hsound : ∀ i, (s.desks i).Sound)
    (h : s.advance = some t) : Control t := by
  have hst := hc.stage
  cases hlife : s.life with
  | startBridge => exact hc.startBridge hlife h
  | startIngress m =>
    rw [Pipeline.advance, hlife] at h
    obtain rfl := Option.some.inj h
    rw [hlife] at hst
    obtain ⟨hoff, hloop, holder, hb⟩ := hst
    exact hc.host rfl rfl ⟨⟨hoff.accept, hoff.running⟩, hloop, rfl, holder.ingressEvent, hb⟩
  | startEvent =>
    rw [Pipeline.advance, hlife] at h
    obtain rfl := Option.some.inj h
    rw [hlife] at hst
    obtain ⟨hoff, hloop, hing, -, hb⟩ := hst
    exact hc.host rfl rfl ⟨⟨hoff.accept, hoff.running⟩, hloop, hing, rfl, hb⟩
  | startWorkers =>
    rw [Pipeline.advance, hlife] at h
    obtain rfl := Option.some.inj h
    rw [hlife] at hst
    obtain ⟨-, hcur, halive, hq⟩ := hst
    exact hc.host rfl rfl (.inl ⟨rfl, ⟨hcur.loop, hcur.ingress, hcur.ingressEvent, hcur.bridgeTask⟩,
      rfl, halive, hq⟩)
  | flushing =>
    rw [hlife] at hst
    rcases advance_flushing hlife h with ⟨-, rfl⟩ | ⟨g, -, hm | ⟨-, rfl⟩⟩
    · exact hc.host rfl rfl hst
    · obtain ⟨h₁, h₂, h₃, h₄, -⟩ := moveOne_control hm
      refine hc.host h₂ h₄ ?_
      rw [h₁, h₃, hlife]
      exact hst
    · exact hc.host rfl rfl hst
  | clearing n =>
    rw [hlife] at hst
    rcases advance_clearing hlife h with ⟨hn, l, -, rfl⟩ | ⟨hn, hnone, -⟩ | ⟨-, rfl⟩
    · exact hc.host rfl rfl hst
    · -- a queue that agrees with its history can be cleared
      obtain ⟨l, hl, -⟩ := (hsound ⟨n, hn⟩).clear
      rw [hl] at hnone
      exact absurd hnone (by simp)
    · exact hc.host rfl rfl hst
  | clearingIngress =>
    rcases advance_clearingIngress hlife h with rfl | ⟨g, e, q, -, -, rfl⟩
    · rw [hlife] at hst
      exact hc.host rfl rfl hst
    · exact hc.host rfl rfl hst
  | releaseLoop =>
    rw [hlife] at hst
    rw [Pipeline.advance, hlife] at h
    obtain rfl := Option.some.inj h
    obtain ⟨hoff, hcur, htasks, hb⟩ := hst
    exact hc.host rfl rfl
      ⟨⟨hoff.accept, hoff.running⟩, rfl, hcur.ingress, hcur.ingressEvent, htasks, hb⟩
  | releaseIngress =>
    rw [hlife] at hst
    rw [Pipeline.advance, hlife] at h
    obtain rfl := Option.some.inj h
    obtain ⟨hoff, hloop, -, hev, htasks, hb⟩ := hst
    exact hc.host rfl rfl ⟨⟨hoff.accept, hoff.running⟩, hloop, rfl, hev, htasks, hb⟩
  | releaseEvent =>
    rw [hlife] at hst
    rw [Pipeline.advance, hlife] at h
    obtain rfl := Option.some.inj h
    obtain ⟨hoff, hloop, hing, -, htasks, hb⟩ := hst
    exact hc.host rfl rfl
      (.inr (.inl ⟨⟨hoff.accept, hoff.running, hloop, hing, rfl, rfl, htasks⟩, hb⟩))
  | idle | awaitBridge | draining _ | gathering | timedOut | reaping =>
    rw [Pipeline.advance, hlife] at h
    exact absurd h (by simp)

private theorem Control.start (hc : Control s) {m : Nat} (hlife : s.life = .idle)
    (hmay : s.handler.mayStart = true) : Control (s.startLogging m) := by
  have hst := hc.stage
  rw [hlife] at hst
  have hrun : s.handler.loggingRunningEvent = false := by
    simp only [Handler.mayStart, Bool.and_eq_true, Bool.not_eq_true'] at hmay
    exact hmay.2
  obtain ⟨haccept, hgone, holder⟩ : s.handler.loggingAcceptEvent = false ∧
      ¬ (s.bridge s.starts).pc.Alive ∧ s.handler.Older (s.starts + 1) := by
    rcases hst with hup | ⟨hstop, hb⟩ | hstuck
    · rw [hup.running] at hrun
      exact absurd hrun (by simp)
    · refine ⟨hstop.accept, hb, fun g hg => ?_, fun e he => ?_⟩
      · rw [hstop.ingress] at hg
        exact absurd hg (by simp)
      · rw [hstop.ingressEvent] at he
        exact absurd he (by simp)
    · refine ⟨hstuck.off.accept, hstuck.gone, fun g hg => ?_, fun e he => ?_⟩
      · rw [hstuck.current.ingress] at hg
        have := Option.some.inj hg
        omega
      · rw [hstuck.current.ingressEvent] at he
        have := Option.some.inj he
        omega
  have hall : ∀ b, ¬ (s.bridge b).pc.Alive := by
    intro b
    by_cases hb : b = s.starts
    · rw [hb]
      exact hgone
    · exact hc.old b hb
  refine ⟨fun b _ => hall b, fun b g e hr => ?_, hc.ended, ?_⟩
  · exact absurd (BridgePc.alive_of_refs hr) (hall b)
  · exact ⟨⟨haccept, hrun⟩, rfl, ⟨holder.ingress, holder.ingressEvent⟩, hall _⟩

private theorem Control.stop (hc : Control s) (hlife : s.life = .idle) :
    Control s.stopLogging := by
  have hst := hc.stage
  rw [hlife] at hst
  unfold stopLogging
  split
  · exact hc
  · rename_i hig
    obtain ⟨hcur, htasks⟩ : s.handler.Current s.starts ∧
        s.handler.logWorkersTasks = Handler.workerTasks k s.starts := by
      rcases hst with hup | ⟨hstop, -⟩ | hstuck
      · exact ⟨hup.current, hup.tasks⟩
      · exact absurd hstop.stopIgnored hig
      · exact ⟨hstuck.current, hstuck.tasks⟩
    rw [hcur.bridgeTask]
    have hcancel : (s.bridge s.starts).cancel.pc = (s.bridge s.starts).pc ∧
        ((s.bridge s.starts).pc.Alive → (s.bridge s.starts).cancel.cancelRequested = true) := by
      unfold BridgeTask.cancel
      split
      · rename_i e hpc
        exact ⟨rfl, fun h => by rw [hpc] at h; exact h.elim⟩
      · exact ⟨rfl, fun _ => rfl⟩
    refine hc.setTask rfl rfl ?_ ?_ ⟨rfl, ⟨hcur.loop, hcur.ingress, hcur.ingressEvent,
      hcur.bridgeTask⟩, htasks, ?_⟩
    · rw [hcancel.1]
      exact hc.refs s.starts
    · rw [hcancel.1]
      exact hc.ended s.starts
    · rw [hcancel.1]
      exact hcancel.2

/-- A drain moves on among the drains. -/
private theorem Control.drain (hc : Control s) {i : Fin k} {next : DrainPc → Option DrainPc}
    (h : s.drainStep i next = some t) : Control t := by
  obtain ⟨ds, d, hlife, -, rfl⟩ := drainStep_eq_some h
  have hst := hc.stage
  rw [hlife] at hst
  exact hc.host rfl rfl hst

private theorem Control.report (hc : Control s) {ds : Fin k → DrainPc}
    (hlife : s.life = .draining ds) (rs : List DrainStatus)
    (times : Fin k → Fin k → String) :
    Control (s.reportResults rs times) := by
  have hst := hc.stage
  rw [hlife] at hst
  obtain ⟨haccept, hcur, htasks, hb⟩ := hst
  have hcur' : (s.reportStatus rs times).clearRunning.handler.Current s.starts :=
    ⟨hcur.loop, hcur.ingress, hcur.ingressEvent, hcur.bridgeTask⟩
  unfold reportResults
  split
  · exact hc.host rfl rfl ⟨⟨haccept, rfl⟩, ⟨hcur'.loop, hcur'.ingress, hcur'.ingressEvent,
      hcur'.bridgeTask⟩, rfl, hb⟩
  · exact hc.host rfl rfl ⟨⟨haccept, rfl⟩, hcur', htasks, hb⟩

/-- The wait for the workers ends with the tasks forgotten. -/
private theorem Control.forget (hc : Control s)
    (hst : s.handler.Off ∧ s.handler.Current s.starts ∧
      s.handler.logWorkersTasks = Handler.workerTasks k s.starts ∧
      ¬ (s.bridge s.starts).pc.Alive) : Control s.forgetTasks := by
  obtain ⟨hoff, hcur, -, hb⟩ := hst
  exact hc.host rfl rfl ⟨⟨hoff.accept, hoff.running⟩,
    ⟨hcur.loop, hcur.ingress, hcur.ingressEvent, hcur.bridgeTask⟩, rfl, hb⟩

/-- The wait for the workers raises, with the tasks still there. -/
private theorem Control.raise (hc : Control s)
    (hst : s.handler.Off ∧ s.handler.Current s.starts ∧
      s.handler.logWorkersTasks = Handler.workerTasks k s.starts ∧
      ¬ (s.bridge s.starts).pc.Alive) (hne : s.handler.logWorkersTasks ≠ []) :
    Control (s.setLife .idle) := by
  obtain ⟨hoff, hcur, htasks, hb⟩ := hst
  exact hc.host rfl rfl (.inr (.inr ⟨hoff, hcur, htasks, hne, hb⟩))

private theorem ne_nil_of_any {α : Type} {p : α → Bool} {l : List α} (h : l.any p = true) :
    l ≠ [] := by
  rintro rfl
  simp at h

theorem Control.step (hc : Control s) (hsound : ∀ i, (s.desks i).Sound) (h : s.step a = some t) :
    Control t := by
  have hst := hc.stage
  cases a with
  | emitCall r =>
    obtain rfl := Option.some.inj h
    exact ⟨hc.old, hc.refs, hc.ended, hc.stage⟩
  | emit n =>
    obtain ⟨x, -, rfl⟩ := Option.map_eq_some_iff.mp h
    exact ⟨hc.old, hc.refs, hc.ended, hc.stage⟩
  | worker i c act =>
    obtain ⟨d, -, rfl⟩ := Option.map_eq_some_iff.mp h
    exact ⟨hc.old, hc.refs, hc.ended, hc.stage⟩
  | cancelWorker i c =>
    obtain rfl := Option.some.inj h
    exact ⟨hc.old, hc.refs, hc.ended, hc.stage⟩
  | close =>
    obtain rfl := Option.some.inj h
    exact hc.host rfl rfl hst.close
  | runSet e =>
    rw [Pipeline.step] at h
    split at h
    · exact absurd h (by simp)
    · obtain rfl := Option.some.inj h
      refine ⟨fun b hb => ?_, fun b g e' hr => ?_, fun b x hx => ?_, ?_⟩
      · exact fun ha => hc.old b hb (((s.bridge b).wake_alive e).mp ha)
      · exact hc.refs b g e' ((BridgeTask.wake_refs _ e).symm.trans hr)
      · exact hc.ended b x (BridgeTask.wake_ended hx)
      · exact hst.congr (BridgeTask.wake_alive _ e) (BridgeTask.wake_cancelRequested _ e)
  | bridge b => exact hc.bridge h
  | start m =>
    rw [Pipeline.step] at h
    split at h
    · rename_i hlife
      split at h
      · rename_i hmay
        obtain rfl := Option.some.inj h
        exact hc.start hlife hmay
      · exact absurd h (by simp)
    · exact absurd h (by simp)
  | stop =>
    rw [Pipeline.step] at h
    split at h
    · rename_i hlife
      obtain rfl := Option.some.inj h
      exact hc.stop hlife
    · exact absurd h (by simp)
  | advance => exact hc.advance hsound h
  | bridgeAwaited =>
    rw [Pipeline.step] at h
    split at h
    · rename_i hlife hnone
      rw [hlife] at hst
      rw [hst.2.1.bridgeTask] at hnone
      exact absurd hnone (by simp)
    · rename_i b hlife hb
      rw [hlife] at hst
      obtain rfl : s.starts = b := Option.some.inj (hst.2.1.bridgeTask.symm.trans hb)
      split at h
      · rename_i hpc
        exact absurd (hc.ended _ _ hpc) (by simp)
      · rename_i e _ hpc
        obtain rfl := Option.some.inj h
        exact hc.host rfl rfl ⟨hst.1, hst.2.1, hst.2.2.1, by rw [hpc]; exact id⟩
      · exact absurd h (by simp)
    · exact absurd h (by simp)
  | joined i | drainReturns i | drainTimesOut i | drainFails i exc =>
    rw [Pipeline.step] at h
    exact hc.drain h
  | report times =>
    rw [Pipeline.step] at h
    split at h
    · rename_i ds hlife
      obtain ⟨rs, -, rfl⟩ := Option.map_eq_some_iff.mp h
      exact hc.report hlife rs times
    · exact absurd h (by simp)
  | gathered | reaped =>
    rw [Pipeline.step] at h
    split at h
    · rename_i hlife
      rw [hlife] at hst
      split at h
      · obtain rfl := Option.some.inj h
        exact hc.forget hst
      · exact absurd h (by simp)
    · exact absurd h (by simp)
  | gatherRaises | gatherEndsRaising =>
    rw [Pipeline.step] at h
    split at h
    · rename_i hlife
      rw [hlife] at hst
      split at h
      · rename_i hany
        obtain rfl := Option.some.inj h
        exact hc.raise hst (ne_nil_of_any hany)
      · exact absurd h (by simp)
    · exact absurd h (by simp)
  | deadline =>
    rw [Pipeline.step] at h
    split at h
    · rename_i hlife
      rw [hlife] at hst
      obtain rfl := Option.some.inj h
      exact hc.host rfl rfl hst
    · exact absurd h (by simp)
  | gatherEnds =>
    rw [Pipeline.step] at h
    split at h
    · rename_i hlife
      rw [hlife] at hst
      split at h
      · obtain rfl := Option.some.inj h
        exact hc.host rfl rfl hst
      · exact absurd h (by simp)
    · exact absurd h (by simp)

theorem control {ok : Pipeline cfg → PipelineAct cfg → Prop}
    (h : (pipeline cfg).Reachable ok s) : Control s := by
  refine Machine.invariant_with (J := fun s => ∀ i, (s.desks i).Sound) (I := Control)
    (fun s hs i => desks_sound hs i) ?_ ?_ h
  · rintro s rfl
    exact .init
  · exact fun s a t hsound hc _ hstep => hc.step hsound hstep

-- ---------------------------------------------------------------------------
-- What it says about the moving loops
-- ---------------------------------------------------------------------------

/-- The bridge and the flush move records out of the ingress of the last start. -/
theorem Control.mover (hc : Control s) {g : Nat} (h : s.Mover g) : g = s.starts := by
  rcases h with ⟨b, e, hpc⟩ | ⟨hlife, hg⟩
  · exact (hc.refs b g e (by rw [hpc]; rfl)).1
  · have hst := hc.stage
    rw [hlife] at hst
    exact Option.some.inj (hg.symm.trans hst.2.1.ingress)

end Pipeline

end ScietexLogging
