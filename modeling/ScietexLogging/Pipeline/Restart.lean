import ScietexLogging.Pipeline.Fanout

/-!
# Pipeline — every restart begins clean

Backend queues live as long as the handler, while every start makes new workers,
a new bridge and a new ingress. What keeps one cycle's records out of the next is
that a `stop_logging` which returns has seen every worker end and has then taken
what was left out of the queues.

* `Staffed` — a worker that has not ended is one of `log_workers_tasks`.
* `Desk.Kept` — an entry taken out and not acknowledged is in a worker's hand.
* `Dated` — what is in an ingress was put in since that ingress was made.
* `Clean` — a backend queue holds records of the current cycle, and none at all
  from the teardown's clearing until the next bridge.

Main result: `restarts_clean`.
-/

namespace ScietexLogging

open Asyncio

variable {k : Nat}

-- ---------------------------------------------------------------------------
-- Workers alive, and entries in their hands
-- ---------------------------------------------------------------------------

namespace Desk

variable {C : Consumer Item Outcome} {d d' : Desk C} {c : Nat}

theorem alive_congr (h : d'.tasks = d.tasks) : d'.Alive c ↔ d.Alive c := by
  rw [Alive, Alive, taskEnd, taskEnd, h]

theorem alive_of_hand {n : Nat} (h : d.hand c = some n) : d.Alive c := by
  obtain ⟨t, ht, -⟩ := Option.bind_eq_some_iff.mp h
  refine ⟨by rw [ht]; rfl, ?_⟩
  cases he : d.taskEnd c with
  | none => rfl
  | some e =>
    rw [hand_of_taskEnd he] at h
    exact absurd h (by simp)

theorem alive_of_work {running : Bool} {c' : Nat} {a : C.Act}
    (h : d.work running c' a = some d') (ha : d'.Alive c) : d.Alive c := by
  obtain ⟨hothers, -, t, t', ht, ht', -, hended, -⟩ := work_spec h
  by_cases hc : c = c'
  · subst hc
    refine ⟨by rw [ht]; rfl, ?_⟩
    rw [taskEnd, ht, Option.bind_some]
    cases he : C.ended t with
    | none => rfl
    | some e =>
      have hend : d'.taskEnd c = some e := by
        rw [taskEnd, ht', Option.bind_some]
        exact (hended e he).1
      rw [ha.2] at hend
      exact absurd hend (by simp)
  · rw [Alive, taskEnd, hothers c hc] at ha
    exact ha

theorem cancelIf_alive (d : Desk C) (p : Nat → Bool) : (d.cancelIf p).Alive c ↔ d.Alive c := by
  rw [Alive, Alive, cancelIf_isSome, cancelIf_taskEnd]

theorem alive_of_hire {c' : Nat} (ha : (d.hire c').Alive c) : d.Alive c ∨ c = c' := by
  by_cases hc : c = c'
  · exact .inr hc
  · refine .inl ?_
    have htask : (d.hire c').tasks c = d.tasks c := Function.update_of_ne hc _ _
    rw [Alive, taskEnd, htask] at ha
    exact ha

/-- A worker takes the head of the queue, if anything. -/
theorem work_items {running : Bool} {c' : Nat} {a : C.Act} (h : d.work running c' a = some d')
    (hs : d.Sound) : ∃ n, d'.ledger.queue.items = d.ledger.queue.items.drop n := by
  have hmoves := work_hand h hs
  refine ⟨d'.ledger.taken - d.ledger.taken, ?_⟩
  have hle : d.ledger.taken ≤ d'.ledger.taken := hmoves.taken_le
  rw [(hs.work h).ledger.items, hs.ledger.items, hmoves.log_eq, List.drop_drop]
  congr 1
  omega

/-- Who has ended leaves the queue alone. -/
theorem work_ledger_of_not_alive {running : Bool} {a : C.Act} (h : d.work running c a = some d')
    (ha : ¬ d.Alive c) : d'.ledger = d.ledger := by
  obtain ⟨-, -, t, t', ht, -, -, hended, -⟩ := work_spec h
  cases he : C.ended t with
  | none =>
    refine absurd ⟨by rw [ht]; rfl, ?_⟩ ha
    rw [taskEnd, ht]
    exact he
  | some e => exact (hended e he).2

/-- What was taken and not acknowledged is in a worker's hand. -/
def Kept (d : Desk C) : Prop :=
  ∀ n < d.ledger.taken, d.ledger.acks n = [] → ∃ c, d.hand c = some n

private theorem Kept.congr (hk : d.Kept) (htaken : d'.ledger.taken = d.ledger.taken)
    (hacks : d'.ledger.acks = d.ledger.acks) (hhand : ∀ c, d'.hand c = d.hand c) : d'.Kept := by
  intro n hn ha
  rw [htaken] at hn
  rw [hacks] at ha
  obtain ⟨c, hc⟩ := hk n hn ha
  exact ⟨c, (hhand c).trans hc⟩

theorem Kept.offer (hk : d.Kept) (x : Item) : (d.offer x).Kept := by
  have h := offer_spec d x
  exact hk.congr h.taken h.acks fun c => by rw [hand, hand, h.tasks]

theorem Kept.offerAll (hk : d.Kept) (xs : List Item) : (d.offerAll xs).Kept := by
  have h := offerAll_spec d xs
  exact hk.congr h.taken h.acks fun c => by rw [hand, hand, h.tasks]

theorem Kept.cancelIf (hk : d.Kept) (p : Nat → Bool) : (d.cancelIf p).Kept :=
  hk.congr rfl rfl (cancelIf_hand d p)

theorem Kept.hire (hk : d.Kept) (hnone : d.hand c = none) : (d.hire c).Kept := by
  refine hk.congr rfl rfl fun c' => ?_
  rw [hire_hand]
  split
  · rename_i hc
    rw [hc, hnone]
  · rfl

theorem Kept.work (hk : d.Kept) (hs : d.Sound) {running : Bool} {a : C.Act}
    (hloses : C.loses a d.ledger = false) (h : d.work running c a = some d') : d'.Kept := by
  intro n hn ha
  have hl : ¬ C.loses a d.ledger = true := by
    rw [hloses]
    exact Bool.false_ne_true
  rcases (work_hand h hs).kept hl hn ha with hhand | ⟨hlt, hacks, hne⟩
  · exact ⟨c, hhand⟩
  · -- another worker has it
    obtain ⟨c', hc'⟩ := hk n hlt hacks
    refine ⟨c', ?_⟩
    have hother : c' ≠ c := by
      rintro rfl
      exact hne hc'
    rw [hand, (work_spec h).others c' hother]
    exact hc'

theorem Kept.clear (hk : d.Kept) (h : Cleared d d') : d'.Kept := by
  intro n hn ha
  by_cases hlt : n < d.ledger.taken
  · rw [h.old n hlt] at ha
    obtain ⟨c, hc⟩ := hk n hlt ha
    exact ⟨c, by rw [hand, h.tasks]; exact hc⟩
  · have hlen := h.sound.ledger.taken_le
    rw [h.log] at hlen
    rw [h.dropped n (by omega) (by omega)] at ha
    exact absurd ha (by simp)

/-- With no worker left and nothing queued, nothing is unfinished. -/
theorem Kept.settled (hk : d.Kept) (hs : d.Sound) (hnone : ∀ c, ¬ d.Alive c)
    (hitems : d.ledger.queue.items = []) : d.ledger.queue.unfinished = 0 := by
  have hall : ∀ n < d.ledger.taken, d.ledger.acks n ≠ [] := by
    intro n hn ha
    obtain ⟨c, hc⟩ := hk n hn ha
    exact hnone c (alive_of_hand hc)
  rw [hs.ledger.unfinished_eq_length hall, hitems]
  rfl

end Desk

namespace Pipeline

variable {cfg : Config k} {s t : Pipeline cfg} {a : PipelineAct cfg}

/-- No `stop_logging` raises, and no worker is given a record that it cannot turn
into an entry. -/
def Orderly (s : Pipeline cfg) : PipelineAct cfg → Prop
  | .gatherRaises | .gatherEndsRaising => False
  | .worker i _ act => (cfg.worker i).loses act (s.desks i).ledger = false
  | _ => True

/-- No `stop_logging` raises. -/
def Returning : PipelineAct cfg → Prop
  | .gatherRaises | .gatherEndsRaising => False
  | _ => True

instance : (a : PipelineAct cfg) → Decidable (Returning a)
  | .gatherRaises | .gatherEndsRaising => isFalse id
  | .emitCall _ | .emit _ | .runSet _ | .bridge _ | .worker _ _ _ | .cancelWorker _ _ | .close
  | .start _ | .stop | .advance | .bridgeAwaited | .joined _ | .drainReturns _ | .drainTimesOut _
  | .drainFails _ _ | .report _ | .gathered | .deadline | .gatherEnds | .reaped => isTrue trivial

theorem Orderly.returning (h : s.Orderly a) : Returning a := by
  cases a with
  | gatherRaises => exact h
  | gatherEndsRaising => exact h
  | _ => trivial

instance (s : Pipeline cfg) : (a : PipelineAct cfg) → Decidable (s.Orderly a)
  | .gatherRaises | .gatherEndsRaising => isFalse id
  | .worker _ _ _ => inferInstanceAs (Decidable (_ = _))
  | .emitCall _ | .emit _ | .runSet _ | .bridge _ | .cancelWorker _ _ | .close | .start _ | .stop
  | .advance | .bridgeAwaited | .joined _ | .drainReturns _ | .drainTimesOut _ | .drainFails _ _
  | .report _ | .gathered | .deadline | .gatherEnds | .reaped => isTrue trivial

-- ---------------------------------------------------------------------------
-- The workers of the cycle
-- ---------------------------------------------------------------------------

/-- Only `start_logging` makes a worker. -/
theorem alive_step (h : s.step a = some t) {i : Fin k} {c : Nat} (ha : (t.desks i).Alive c) :
    (s.desks i).Alive c ∨ (a = .advance ∧ s.life = .startWorkers ∧ c = s.starts) := by
  cases step_changed h with
  | moved _ _ _ _ _ _ desks =>
    rw [desks] at ha
    exact .inl ((Desk.alive_congr (Desk.offer_spec _ _).tasks).mp ha)
  | other _ desk =>
    cases desk i with
    | keep desk => rw [desk] at ha; exact .inl ha
    | work _ desk => exact .inl (Desk.alive_of_work desk ha)
    | cancel _ desk => rw [desk] at ha; exact .inl ((Desk.cancelIf_alive _ _).mp ha)
    | rebase _ _ desk => rw [desk] at ha; exact .inl ha
    | status _ _ _ desk =>
      rw [desk] at ha
      exact .inl ((Desk.alive_congr (Desk.offerAll_spec _ _).tasks).mp ha)
    | clear _ _ desk => rw [desk] at ha; exact .inl ha
    | hire is life desk =>
      rw [desk] at ha
      rcases Desk.alive_of_hire ha with ha | hc
      · exact .inl ha
      · exact .inr ⟨is, life, hc⟩

end Pipeline

/-- The tasks the handler knows are those of the last start. -/
private theorem Stage.tasks {h : Handler k} {c : Nat} {b : BridgeTask} {l : Life k}
    (hs : Stage h c b l) :
    l.Starting ∨ h.logWorkersTasks = Handler.workerTasks k c ∨ h.logWorkersTasks = [] := by
  cases l with
  | startIngress _ | startEvent | startBridge | startWorkers => exact .inl trivial
  | idle =>
    rcases hs with hup | ⟨hstop, -⟩ | hst
    · exact .inr (.inl hup.tasks)
    · exact .inr (.inr hstop.tasks)
    · exact .inr (.inl hst.tasks)
  | awaitBridge | flushing | draining _ | gathering | timedOut | reaping =>
    exact .inr (.inl hs.2.2.1)
  | clearing _ | clearingIngress | releaseLoop => exact .inr (.inr hs.2.2.1)
  | releaseIngress | releaseEvent => exact .inr (.inr hs.2.2.2.2.1)

namespace Pipeline

variable {cfg : Config k} {s t : Pipeline cfg} {a : PipelineAct cfg}

/-- A worker that has not ended is one of `log_workers_tasks`. -/
structure Staffed (s : Pipeline cfg) : Prop where
  known : ∀ i c, (s.desks i).Alive c → (c, i) ∈ s.handler.logWorkersTasks
  starting : s.life.Starting → s.handler.logWorkersTasks = []
  stopped : s.life = .idle → s.handler.loggingRunningEvent = false → s.handler.Stopped

theorem Staffed.init : Staffed (init cfg) := by
  refine ⟨fun i c ha => ?_, fun h => h.elim, fun _ _ => .fresh⟩
  exact absurd ha.1 (by simp [Pipeline.init, Desk.new])

/-- What a statement of the host's call does to the list of the workers. -/
private theorem HostStep.tasks {h : Handler k} {l : Life k} (step : HostStep s a h l) :
    h.logWorkersTasks = s.handler.logWorkersTasks ∨
      s.life = .startWorkers ∨
      (h.logWorkersTasks = [] ∧ ∀ t ∈ s.handler.logWorkersTasks, (s.taskEnd t).isSome) := by
  cases step with
  | setWorkers life => exact .inr (.inl life)
  | forget _ all => exact .inr (.inr ⟨rfl, all⟩)
  | reportedNoWorkers _ workers => exact .inl workers.symm
  | _ => exact .inl rfl

private theorem HostStep.starting {h : Handler k} {l : Life k} (step : HostStep s a h l)
    (hl : l.Starting) : s.life.Starting ∧ h.logWorkersTasks = s.handler.logWorkersTasks := by
  cases step with
  | close => exact ⟨hl, rfl⟩
  | setIngress life | setEvent life | setBridge life =>
    rw [life]
    exact ⟨trivial, rfl⟩
  | _ => exact hl.elim

/-- `stop_logging` leaves the handler either raising or stopped. -/
private theorem HostStep.stopped {h : Handler k} {l : Life k} (step : HostStep s a h l)
    (hc : Control s) (hsound : ∀ i, (s.desks i).Sound) (hok : Returning a)
    (hs : s.life = .idle → s.handler.loggingRunningEvent = false → s.handler.Stopped)
    (hl : l = .idle) (hrun : h.loggingRunningEvent = false) : h.Stopped := by
  have hst := hc.stage
  cases step with
  | close =>
    have hstop := hs hl hrun
    exact ⟨rfl, hstop.running, hstop.loop, hstop.ingress, hstop.ingressEvent, hstop.bridgeTask,
      hstop.tasks⟩
  | setWorkers _ => exact absurd hrun (by simp)
  | bridgeRaised _ raised => exact absurd (hc.ended _ _ raised) (by simp)
  | raise _ is =>
    rcases is with rfl | rfl
    · exact hok.elim
    · exact hok.elim
  | clearRaises life more fails =>
    -- a queue that agrees with its history can be cleared
    obtain ⟨l, hl, -⟩ := (hsound ⟨_, more⟩).clear
    rw [hl] at fails
    exact absurd fails (by simp)
  | releaseEvent life =>
    rw [life] at hst
    obtain ⟨hoff, hloop, hing, -, htasks, -⟩ := hst
    exact ⟨hoff.accept, hoff.running, hloop, hing, rfl, rfl, htasks⟩
  | _ => exact absurd hl (by simp)

/-- The workers a start has just made. -/
private theorem startWorkers_tasks (hlife : s.life = .startWorkers)
    (h : s.step .advance = some t) :
    t.handler.logWorkersTasks = Handler.workerTasks k s.starts ∧ t.life = .idle := by
  rw [step, advance, hlife] at h
  obtain rfl := Option.some.inj h
  exact ⟨rfl, rfl⟩

private theorem Staffed.known_step (hi : Staffed s) (h : s.step a = some t) {i : Fin k} {c : Nat}
    (ha : (t.desks i).Alive c) : (c, i) ∈ t.handler.logWorkersTasks := by
  rcases alive_step h ha with ha | ⟨rfl, hlife, rfl⟩
  · have hmem := hi.known i c ha
    cases step_hosted h with
    | same handler _ _ _ => rw [handler]; exact hmem
    | start _ _ eq => rw [eq]; exact hmem
    | host step _ _ =>
      rcases step.tasks with htasks | hlife | ⟨-, hall⟩
      · rw [htasks]
        exact hmem
      · -- nobody is at work while a start is under way
        rw [hi.starting (by rw [hlife]; trivial)] at hmem
        exact absurd hmem (by simp)
      · have hend := hall _ hmem
        rw [show s.taskEnd (c, i) = none from ha.2] at hend
        exact absurd hend (by simp)
  · rw [(startWorkers_tasks hlife h).1]
    exact Handler.mem_workerTasks.mpr rfl

theorem Staffed.step (hi : Staffed s) (hc : Control s) (hsound : ∀ i, (s.desks i).Sound)
    (hok : Returning a) (h : s.step a = some t) : Staffed t := by
  refine ⟨fun i c ha => hi.known_step h ha, ?_, ?_⟩
  · intro hl
    cases step_hosted h with
    | same handler life _ _ => rw [handler]; exact hi.starting (life ▸ hl)
    | start life may eq =>
      rw [eq]
      simp only [Handler.mayStart, Bool.and_eq_true, Bool.not_eq_true'] at may
      exact (hi.stopped life may.2).tasks
    | host step _ _ =>
      obtain ⟨hl', htasks⟩ := step.starting hl
      rw [htasks]
      exact hi.starting hl'
  · intro hl hrun
    cases step_hosted h with
    | same handler life _ _ =>
      rw [handler] at hrun ⊢
      exact hi.stopped (life ▸ hl) hrun
    | start _ _ eq =>
      rw [eq] at hl
      exact absurd hl (by simp [startLogging])
    | host step _ _ => exact step.stopped hc hsound hok hi.stopped hl hrun

theorem staffed {ok : Pipeline cfg → PipelineAct cfg → Prop} (hok : ∀ s a, ok s a → Returning a)
    (h : (pipeline cfg).Reachable ok s) : Staffed s := by
  refine Machine.invariant_with (J := fun s => Control s ∧ ∀ i, (s.desks i).Sound) (I := Staffed)
    (fun s hs => ⟨control hs, fun i => desks_sound hs i⟩) ?_ ?_ h
  · rintro s rfl
    exact .init
  · exact fun s a t hj hi ha hstep => hi.step hj.1 hj.2 (hok s a ha) hstep

/-- A worker that has not ended was made by the last start. -/
theorem Staffed.current (hi : Staffed s) (hc : Control s) {i : Fin k} {c : Nat}
    (ha : (s.desks i).Alive c) : c = s.starts := by
  have hmem := hi.known i c ha
  rcases hc.stage.tasks with hl | htasks | htasks
  · rw [hi.starting hl] at hmem
    exact absurd hmem (by simp)
  · rw [htasks] at hmem
    exact Handler.mem_workerTasks.mp hmem
  · rw [htasks] at hmem
    exact absurd hmem (by simp)

/-- What a worker took out and did not acknowledge is in its hand, or that of
another worker. -/
theorem kept (h : (pipeline cfg).Reachable Orderly s) (i : Fin k) : (s.desks i).Kept := by
  refine Machine.invariant_with (J := fun s => Staffed s ∧ ∀ i, (s.desks i).Sound)
    (I := fun s => (s.desks i).Kept)
    (fun s hs => ⟨staffed (fun _ _ => Orderly.returning) hs, fun i => desks_sound hs i⟩) ?_ ?_ h
  · rintro s rfl n hn
    exact absurd hn (Nat.not_lt_zero n)
  · rintro s a t ⟨hi, hsound⟩ hk hok hstep
    cases step_changed hstep with
    | moved _ _ _ _ _ _ desks => rw [desks]; exact hk.offer _
    | other _ hdesk =>
      cases hdesk i with
      | keep desk => rw [desk]; exact hk
      | work is desk =>
        subst is
        exact hk.work (hsound i) hok desk
      | cancel _ desk => rw [desk]; exact hk.cancelIf _
      | rebase _ _ desk => rw [desk]; exact hk
      | status _ _ _ desk => rw [desk]; exact hk.offerAll _
      | clear _ cleared desk =>
        obtain ⟨l, hl, hcl⟩ := (hsound i).clear
        obtain rfl := Option.some.inj (hl.symm.trans cleared)
        rw [desk]
        exact hk.clear hcl
      | hire _ life desk =>
        rw [desk]
        refine hk.hire ?_
        -- the start in progress has no worker yet
        cases hh : (s.desks i).hand s.starts with
        | none => rfl
        | some n =>
          have hmem := hi.known i _ (Desk.alive_of_hand hh)
          rw [hi.starting (by rw [life]; trivial)] at hmem
          exact absurd hmem (by simp)

-- ---------------------------------------------------------------------------
-- When a record entered an ingress
-- ---------------------------------------------------------------------------

/-- What is in an ingress was put in since that ingress was made. -/
def Dated (s : Pipeline cfg) : Prop :=
  ∀ g, ∀ e ∈ (s.intake.ingress g).items, g ≤ e.cycle ∧ e.cycle ≤ s.starts

theorem Born.le {g : Nat} (hb : s.Born g) : g ≤ s.starts := by
  rcases hb with hlt | ⟨heq, -⟩
  · exact Nat.le_of_lt hlt
  · exact Nat.le_of_eq heq

private theorem starts_le (h : s.step a = some t) : s.starts ≤ t.starts := by
  rcases step_starts h with ⟨hs, -⟩ | ⟨m, -, -, rfl⟩
  · exact Nat.le_of_eq hs.symm
  · exact Nat.le_succ s.starts

/-- Taking the head of an ingress out leaves the rest. -/
private theorem Dated.take (hd : Dated s) {g : Nat} {e : Emitted} {q : BoundedQueue Emitted}
    (hget : (s.intake.ingress g).getNowait = some (e, q)) {g' : Nat} {e' : Emitted}
    (hmem : e' ∈ (Function.update s.intake.ingress g q g').items) :
    g' ≤ e'.cycle ∧ e'.cycle ≤ s.starts := by
  refine hd g' e' ?_
  by_cases hg : g' = g
  · rw [hg, Function.update_self] at hmem
    rw [hg, (BoundedQueue.getNowait_eq_some.mp hget).2]
    exact List.mem_cons_of_mem e hmem
  · rwa [Function.update_of_ne hg] at hmem

private theorem Dated.emit {x y : Intake k} {starts n : Nat} {h : Handler k}
    (hd : ∀ g, ∀ e ∈ (x.ingress g).items, g ≤ e.cycle ∧ e.cycle ≤ starts)
    (hheld : ∀ r g e, x.emits n = .put r g e → g ≤ starts) (hstep : EmitStep x h starts n y) :
    ∀ g, ∀ e ∈ (y.ingress g).items, g ≤ e.cycle ∧ e.cycle ≤ starts := by
  cases hstep with
  | @entered r g _ q pc put =>
    obtain ⟨-, -, hitems⟩ := BoundedQueue.putNowait_eq_some.mp put
    intro g' e' hmem
    have hmem' : e' ∈ (Function.update x.ingress g q g').items := hmem
    by_cases hg : g' = g
    · rw [hg, Function.update_self, hitems, List.mem_append] at hmem'
      rcases hmem' with hold | hnew
      · rw [hg]
        exact hd g e' hold
      · rw [hg, List.mem_singleton.mp hnew]
        exact ⟨hheld r g _ pc, Nat.le_refl _⟩
    · rw [Function.update_of_ne hg] at hmem'
      exact hd g' e' hmem'
  | _ => exact hd

theorem Dated.step (hd : Dated s) (ha : Accounts s) (h : s.step a = some t) : Dated t := by
  have hle := starts_le h
  suffices hall : ∀ g, ∀ e ∈ (t.intake.ingress g).items, g ≤ e.cycle ∧ e.cycle ≤ s.starts from
    fun g e hmem => ⟨(hall g e hmem).1, (hall g e hmem).2.trans hle⟩
  cases step_changed h with
  | moved _ get _ _ _ intake _ =>
    rw [intake]
    exact fun _ _ hmem => hd.take get hmem
  | other hintake _ =>
    cases hintake with
    | keep intake | call intake | event intake =>
      rw [intake]
      exact hd
    | emit _ step =>
      exact Dated.emit hd (fun r g e hpc => (ha.intake.held _ g (by rw [hpc]; rfl)).le) step
    | discard _ _ get intake =>
      rw [intake]
      exact fun _ _ hmem => hd.take get hmem
    | renew _ intake =>
      rw [intake]
      intro g e hmem
      have hmem' : e ∈ (Function.update s.intake.ingress s.starts (.new _) g).items := hmem
      by_cases hg : g = s.starts
      · rw [hg, Function.update_self] at hmem'
        exact absurd hmem' (by simp)
      · rw [Function.update_of_ne hg] at hmem'
        exact hd g e hmem'

theorem dated {ok : Pipeline cfg → PipelineAct cfg → Prop} (h : (pipeline cfg).Reachable ok s) :
    Dated s := by
  refine Machine.invariant_with (J := Accounts) (I := Dated) (fun s hs => accounts hs) ?_ ?_ h
  · rintro s rfl g e hmem
    exact absurd hmem (by simp [Pipeline.init])
  · exact fun s a t ha hd _ hstep => hd.step ha hstep

-- ---------------------------------------------------------------------------
-- What is in a backend queue
-- ---------------------------------------------------------------------------

end Pipeline

/-- The teardown has emptied the queue of backend `i`, and the next bridge has not
been made. -/
def Life.Emptied (running : Bool) (i : Fin k) : Life k → Prop
  | .idle => running = false
  | .startIngress _ | .startEvent | .startBridge => True
  | .clearing n => i < n
  | .clearingIngress | .releaseLoop | .releaseIngress | .releaseEvent => True
  | _ => False

namespace Pipeline

variable {cfg : Config k} {s t : Pipeline cfg} {a : PipelineAct cfg}

/-- The queue of backend `i` has been emptied, and nobody is there to fill it. -/
abbrev Emptied (s : Pipeline cfg) (i : Fin k) : Prop :=
  s.life.Emptied s.handler.loggingRunningEvent i

private theorem HostStep.emptied_back {h : Handler k} {l : Life k} (step : HostStep s a h l)
    (hc : Control s) (hsound : ∀ i, (s.desks i).Sound) (hok : s.Orderly a) {i : Fin k}
    (he : l.Emptied h.loggingRunningEvent i) :
    s.Emptied i ∨ (a = .advance ∧ s.life = .clearing i) := by
  cases step with
  | close => exact .inl he
  | setIngress life | setEvent life | cleared life _ | emptied life | releaseLoop life
  | releaseIngress life | releaseEvent life =>
    refine .inl ?_
    rw [Emptied, life]
    first
    | trivial
    | exact Nat.lt_of_lt_of_le i.isLt ‹_›
  | @clear n is life more =>
    have hle : i.val < n + 1 := he
    by_cases hi : i.val = n
    · exact .inr ⟨is, by rw [life, hi]⟩
    · refine .inl ?_
      rw [Emptied, life]
      show i.val < n
      omega
  | setWorkers _ => exact absurd he (by simp [Life.Emptied])
  | forget _ _ | reportedNoWorkers _ _ => exact absurd he (Nat.not_lt_zero _)
  | bridgeRaised _ raised => exact absurd (hc.ended _ _ raised) (by simp)
  | raise _ is =>
    rcases is with rfl | rfl
    · exact hok.elim
    · exact hok.elim
  | clearRaises life more fails =>
    obtain ⟨l, hl, -⟩ := (hsound ⟨_, more⟩).clear
    rw [hl] at fails
    exact absurd fails (by simp)
  | _ => exact he.elim

/-- A queue found empty was so before, or has just been emptied. -/
theorem emptied_back (h : s.step a = some t) (hc : Control s) (hsound : ∀ i, (s.desks i).Sound)
    (hok : s.Orderly a) {i : Fin k} (he : t.Emptied i) :
    s.Emptied i ∨ (a = .advance ∧ s.life = .clearing i) := by
  cases step_hosted h with
  | same handler life _ _ =>
    rw [Emptied, handler, life] at he
    exact .inl he
  | start life may _ =>
    refine .inl ?_
    rw [Emptied, life]
    simp only [Handler.mayStart, Bool.and_eq_true, Bool.not_eq_true'] at may
    exact may.2
  | host step _ _ => exact step.emptied_back hc hsound hok he

/-- Nobody moves records to a queue that has been emptied. -/
theorem Emptied.quiet {i : Fin k} (he : s.Emptied i) (hc : Control s) :
    (∀ b, ¬ (s.bridge b).pc.Alive) ∧ s.life ≠ .flushing ∧ ∀ ds, s.life ≠ .draining ds := by
  have hst := hc.stage
  have hgone : ¬ (s.bridge s.starts).pc.Alive := by
    cases hlife : s.life with
    | idle =>
      rw [Emptied, hlife] at he
      rw [hlife] at hst
      rcases hst with hup | ⟨-, hb⟩ | hstuck
      · rw [hup.running] at he
        exact absurd he (by simp [Life.Emptied])
      · exact hb
      · exact hstuck.gone
    | startIngress _ | startEvent | startBridge | clearing _ | clearingIngress | releaseLoop
    | releaseIngress | releaseEvent =>
      rw [hlife] at hst
      simp only [Stage] at hst
      tauto
    | startWorkers | awaitBridge | flushing | draining _ | gathering | timedOut | reaping =>
      rw [Emptied, hlife] at he
      exact he.elim
  refine ⟨fun b => ?_, fun hl => ?_, fun ds hl => ?_⟩
  · by_cases hb : b = s.starts
    · rw [hb]
      exact hgone
    · exact hc.old b hb
  · rw [Emptied, hl] at he
    exact he
  · rw [Emptied, hl] at he
    exact he

/-- What a step that moves no record adds to a queue: status records. -/
private theorem DeskChange.items {i : Fin k} (h : DeskChange s t a i) (hsound : (s.desks i).Sound)
    {x : Item} (hx : x ∈ (t.desks i).ledger.queue.items) :
    x ∈ (s.desks i).ledger.queue.items ∨ ((∃ ds, s.life = .draining ds) ∧ x.cycle = s.starts) := by
  cases h with
  | keep desk | cancel _ desk | hire _ _ desk | rebase _ _ desk =>
    rw [desk] at hx
    exact .inl hx
  | work _ desk =>
    obtain ⟨n, hn⟩ := Desk.work_items desk hsound
    rw [hn] at hx
    exact .inl (List.mem_of_mem_drop hx)
  | @status xs life _ items desk =>
    have hspec := Desk.offerAll_spec (s.desks i) xs
    rw [desk, (hspec.sound hsound.ledger).items, hspec.taken, hspec.log,
      List.drop_append_of_le_length hsound.ledger.taken_le, ← hsound.ledger.items,
      List.mem_append] at hx
    rcases hx with hx | hx
    · exact .inl hx
    · obtain ⟨r, rfl⟩ := items x ((BoundedQueue.admits_sublist _ _).subset hx)
      exact .inr ⟨life, rfl⟩
  | clear _ cleared desk =>
    obtain ⟨l, hl, hcl⟩ := hsound.clear
    obtain rfl := Option.some.inj (hl.symm.trans cleared)
    rw [desk, hcl.items] at hx
    exact absurd hx (by simp)

/-- What a backend queue holds is of the current cycle, and nothing once the
teardown has emptied it. -/
structure Clean (s : Pipeline cfg) : Prop where
  emptied : ∀ i, s.Emptied i → (s.desks i).ledger.queue.items = []
  current : ∀ i, ∀ x ∈ (s.desks i).ledger.queue.items, x.cycle = s.starts

/-- The clearing loop empties the queue it has come to. -/
private theorem clearing_items {i : Fin k} (hsound : (s.desks i).Sound)
    (hlife : s.life = .clearing i) (h : s.step .advance = some t) :
    (t.desks i).ledger.queue.items = [] := by
  obtain ⟨l, hl, hcl⟩ := hsound.clear
  rcases advance_clearing hlife h with ⟨_, l', hl', rfl⟩ | ⟨_, hnone, -⟩ | ⟨hn, -⟩
  · obtain rfl := Option.some.inj (hl.symm.trans hl')
    show (Function.update s.desks i _ i).ledger.queue.items = []
    rw [Function.update_self]
    exact hcl.items
  · rw [show (s.desks ⟨i, _⟩).ledger.clear .dropped = _ from hl] at hnone
    exact absurd hnone (by simp)
  · exact absurd i.isLt (by omega)

theorem Clean.step (hcl : Clean s) (hc : Control s) (hsound : ∀ i, (s.desks i).Sound)
    (hd : Dated s) (hok : s.Orderly a) (h : s.step a = some t) : Clean t := by
  refine ⟨fun i he => ?_, fun i x hx => ?_⟩
  · rcases emptied_back h hc hsound hok he with he | ⟨rfl, hlife⟩
    · obtain ⟨hbridge, hflush, hdrain⟩ := he.quiet hc
      have hnil := hcl.emptied i he
      refine List.eq_nil_iff_forall_not_mem.mpr fun x hx => ?_
      cases step_changed h with
      | moved mover _ _ _ _ _ _ =>
        rcases mover with ⟨b, e, hpc⟩ | ⟨hl, -⟩
        · exact hbridge b (by rw [hpc]; trivial)
        · exact hflush hl
      | other _ desk =>
        rcases (desk i).items (hsound i) hx with hold | ⟨⟨ds, hl⟩, -⟩
        · rw [hnil] at hold
          exact absurd hold (by simp)
        · exact hdrain ds hl
    · exact clearing_items (hsound i) hlife h
  · cases step_changed h with
    | @moved g e q mover get _ _ starts _ desks =>
      have hspec := Desk.offer_spec (s.desks i) (.emitted e)
      rw [desks, (hspec.sound (hsound i).ledger).items, hspec.taken, hspec.log] at hx
      rw [starts]
      have hmem : x ∈ (s.desks i).ledger.queue.items ∨ x = .emitted e := by
        split at hx
        · rw [(hsound i).ledger.items]
          exact .inl hx
        · rw [List.drop_append_of_le_length (hsound i).ledger.taken_le, ← (hsound i).ledger.items,
            List.mem_append, List.mem_singleton] at hx
          exact hx
      rcases hmem with hold | rfl
      · exact hcl.current i x hold
      · -- it comes out of the ingress of the last start
        have hdated := hd g e (by rw [(BoundedQueue.getNowait_eq_some.mp get).2]; simp)
        rw [hc.mover mover] at hdated
        exact Nat.le_antisymm hdated.2 hdated.1
    | other _ desk =>
      have hitem := (desk i).items (hsound i) hx
      rcases step_starts h with ⟨hs, -⟩ | ⟨m, hlife, hmay, rfl⟩
      · rw [hs]
        rcases hitem with hold | ⟨-, hcycle⟩
        · exact hcl.current i x hold
        · exact hcycle
      · -- a start finds every queue empty
        have he : s.Emptied i := by
          rw [Emptied, hlife]
          simp only [Handler.mayStart, Bool.and_eq_true, Bool.not_eq_true'] at hmay
          exact hmay.2
        have hnil : x ∈ (s.desks i).ledger.queue.items := hx
        rw [hcl.emptied i he] at hnil
        exact absurd hnil (by simp)

theorem clean (h : (pipeline cfg).Reachable Orderly s) : Clean s := by
  refine Machine.invariant_with
    (J := fun s => Control s ∧ (∀ i, (s.desks i).Sound) ∧ Dated s) (I := Clean)
    (fun s hs => ⟨control hs, fun i => desks_sound hs i, dated hs⟩) ?_ ?_ h
  · rintro s rfl
    exact ⟨fun _ _ => rfl, fun i x hx => absurd hx (by simp [Pipeline.init, Desk.new, Ledger.new])⟩
  · exact fun s a t hj hcl hok hstep => hcl.step hj.1 hj.2.1 hj.2.2 hok hstep

-- ---------------------------------------------------------------------------
-- The main result
-- ---------------------------------------------------------------------------

/-- Nothing of a cycle is left. -/
structure AtRest (s : Pipeline cfg) : Prop where
  empty : ∀ i, (s.desks i).ledger.queue.items = []
  finished : ∀ i, (s.desks i).ledger.queue.unfinished = 0
  workers : ∀ i c, ¬ (s.desks i).Alive c
  bridges : ∀ b, ¬ (s.bridge b).pc.Alive

/-- **Every restart begins clean.** For every sequence of starts and stops in which
no stop raises, whatever the drains, the cancellations and the emits: whenever
logging is stopped, the queues are empty, with nothing unfinished, and neither
worker nor bridge is left; and a worker takes out only records put in since its
own start. -/
theorem restarts_clean (hs : (pipeline cfg).Reachable Orderly s) :
    (s.life = .idle → s.handler.loggingRunningEvent = false → s.AtRest) ∧
    ∀ i c act t, s.step (.worker i c act) = some t →
      ∀ p, (s.desks i).ledger.taken ≤ p → p < (t.desks i).ledger.taken →
        c = s.starts ∧ ∃ x, (s.desks i).ledger.log[p]? = some x ∧ x.cycle = s.starts := by
  have hc := control hs
  have hi := staffed (fun _ _ => Orderly.returning) hs
  have hcl := clean hs
  have hsound := fun i => desks_sound hs i
  refine ⟨fun hlife hrun => ?_, fun i c act t h p hge hlt => ?_⟩
  · have he : ∀ i, s.Emptied i := fun i => by rw [Emptied, hlife]; exact hrun
    have hnone : ∀ i c, ¬ (s.desks i).Alive c := by
      intro i c ha
      have hmem := hi.known i c ha
      rw [(hi.stopped hlife hrun).tasks] at hmem
      exact absurd hmem (by simp)
    refine ⟨fun i => hcl.emptied i (he i), fun i => ?_, hnone, fun b => ?_⟩
    · exact (kept hs i).settled (hsound i) (hnone i) (hcl.emptied i (he i))
    · have hst := hc.stage
      rw [hlife] at hst
      by_cases hb : b = s.starts
      · rcases hst with hup | ⟨-, hgone⟩ | hstuck
        · rw [hup.running] at hrun
          exact absurd hrun (by simp)
        · rw [hb]
          exact hgone
        · rw [hb]
          exact hstuck.gone
      · exact hc.old b hb
  · obtain ⟨d, hd, rfl⟩ := Option.map_eq_some_iff.mp h
    have hlt' : p < d.ledger.taken := by
      rwa [show (Function.update s.desks i d i).ledger.taken = d.ledger.taken by
        rw [Function.update_self]] at hlt
    refine ⟨hi.current hc (i := i) ?_, ?_⟩
    · by_contra ha
      rw [Desk.work_ledger_of_not_alive hd ha] at hlt'
      omega
    · have hlog : d.ledger.log = (s.desks i).ledger.log := (Desk.work_hand hd (hsound i)).log_eq
      have hlen := ((hsound i).work hd).ledger.taken_le
      rw [hlog] at hlen
      have hp : (s.desks i).ledger.log[p]? = some (s.desks i).ledger.log[p] :=
        List.getElem?_eq_getElem (by omega)
      refine ⟨_, hp, hcl.current i _ ?_⟩
      rw [(hsound i).ledger.items]
      refine List.mem_iff_getElem?.mpr ⟨p - (s.desks i).ledger.taken, ?_⟩
      rw [List.getElem?_drop, Nat.add_sub_cancel' hge, hp]

/-- A record is emitted, its worker never runs, and the teardown throws it away. -/
def stalledCycle : List (PipelineAct oneConsole) :=
  let record : LogRecord := ⟨20, "app", .ok "started", .ok "1970-01-01T00:00:00+00:00"⟩
  [.start 8, .advance, .advance, .advance, .advance,
    .emitCall record, .emit 0, .emit 0, .emit 0, .emit 0, .emit 0, .emit 0,
    .stop, .bridge 1, .bridgeAwaited, .advance, .advance, .drainTimesOut (Fin.last 0),
    .report fun _ _ => "1970-01-01T00:00:05+00:00", .deadline, .worker (Fin.last 0) 1 SinkAct.deliver,
    .gatherEnds, .reaped, .advance, .advance, .advance, .advance, .advance, .advance]

/-- Logging starts again, and another record is emitted. -/
def nextCycle : List (PipelineAct oneConsole) :=
  let record : LogRecord := ⟨20, "app", .ok "again", .ok "1970-01-01T00:00:10+00:00"⟩
  [.start 8, .advance, .advance, .advance, .advance,
    .emitCall record, .emit 1, .emit 1, .emit 1, .emit 1, .emit 1, .emit 1,
    .runSet 2, .bridge 2, .bridge 2, .bridge 2, .worker (Fin.last 0) 2 SinkAct.start]

theorem restarts_clean_stalled :
    ∃ s t u, (pipeline oneConsole).run Orderly (init oneConsole) stalledCycle = some s ∧
      (pipeline oneConsole).run Orderly s nextCycle = some t ∧
      t.step (.worker 0 2 (SinkAct.get (.text "again"))) = some u ∧
      s.AtRest ∧ t.starts = 2 ∧ ∃ x, (t.desks 0).ledger.log[1]? = some x ∧ x.cycle = 2 := by
  have hrun : ∃ s t u, (pipeline oneConsole).run Orderly (init oneConsole) stalledCycle = some s ∧
      (pipeline oneConsole).run Orderly s nextCycle = some t ∧
      t.step (.worker 0 2 (SinkAct.get (.text "again"))) = some u ∧
      s.life = .idle ∧ s.handler.loggingRunningEvent = false ∧ t.starts = 2 ∧
      (t.desks 0).ledger.taken = 1 ∧ (u.desks 0).ledger.taken = 2 :=
    ⟨_, _, _, rfl, rfl, rfl, rfl, rfl, rfl, rfl, rfl⟩
  obtain ⟨s, t, u, hs, ht, hu, hlife, hrest, hstarts, htaken, htaken'⟩ := hrun
  have hreach : (pipeline oneConsole).Reachable Orderly s := .of_run rfl hs
  have hreach' : (pipeline oneConsole).Reachable Orderly t :=
    ⟨_, rfl, (Machine.Reaches.of_run hs).trans (.of_run ht)⟩
  obtain ⟨-, x, hx, hcycle⟩ := (restarts_clean hreach').2 0 2 (SinkAct.get (.text "again")) u hu 1
    (by rw [htaken]) (by rw [htaken']; exact Nat.one_lt_two)
  exact ⟨s, t, u, hs, ht, hu, (restarts_clean hreach).1 hlife hrest, hstarts, x, hx,
    hcycle.trans hstarts⟩

end Pipeline

end ScietexLogging
