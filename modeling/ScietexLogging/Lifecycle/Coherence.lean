import ScietexLogging.Lifecycle.Calls

/-!
# Lifecycle — coherence under interleaving

Between calls a handler is either fully stopped or fully running. The invariant
behind it has a third stage, in which stops are on their way and share the
fields of the cycle they take down.

Main results:

* `lifecycle_coherent` — as long as `start_logging` gets past its guards only
  when no `stop_logging` is unfinished, the handler is coherent whenever no call
  is in progress, whatever else is interleaved (several stops, `close`, workers
  ending, records coming and going);
* `start_during_stop_incoherent` — the guard of `start_logging` itself does not
  see to that: the running event it tests is cleared long before the stop that
  clears it is over.
-/

namespace ScietexLogging

open Asyncio

variable {k : Nat}

/-- The stages of a call before it waits for the workers. -/
def CallPc.Early : CallPc k → Prop
  | .awaitBridge | .draining | .reporting => True
  | _ => False

/-- The worker tasks a call is waiting for. -/
def CallPc.waitsFor : CallPc k → Option (List (TaskId k))
  | .gathering ts | .timedOut ts | .reaping ts => some ts
  | _ => none

/-- The call has cancelled workers. -/
def CallPc.Cancelling : CallPc k → Prop
  | .timedOut _ | .reaping _ => True
  | _ => False

namespace LifecycleState

variable {s t : LifecycleState k}

/-- Nothing of a cycle is left. -/
structure Down (s : LifecycleState k) : Prop where
  handler : s.handler.Stopped
  workers : ∀ t, ¬ (s.worker t).IsAlive
  bridges : ∀ g, s.bridge g ≠ .alive ∧ s.bridge g ≠ .cancelling

/-- The fields hold the objects of the last start. -/
structure Current (s : LifecycleState k) : Prop where
  loop : s.handler.loop = true
  ingress : s.handler.ingress = some s.starts
  ingressEvent : s.handler.ingressEvent = some s.starts
  bridgeTask : s.handler.bridgeTask = some s.starts
  tasks : s.handler.logWorkersTasks = Handler.workerTasks k s.starts

/-- Only the last start has tasks alive. -/
structure OldEnded (s : LifecycleState k) : Prop where
  workers : ∀ t : TaskId k, t.1 ≠ s.starts → ¬ (s.worker t).IsAlive
  bridges : ∀ g, g ≠ s.starts → s.bridge g ≠ .alive ∧ s.bridge g ≠ .cancelling

/-- The cycle of the last start is fully running. -/
structure Up (s : LifecycleState k) : Prop where
  current : s.Current
  old : s.OldEnded
  running : s.handler.loggingRunningEvent = true
  accept : s.handler.closed = false → s.handler.loggingAcceptEvent = true
  workers : ∀ i, s.worker (s.starts, i) = .alive false
  bridge : s.bridge s.starts = .alive

/-- What a reader of the claim calls coherent. -/
def Coherent (s : LifecycleState k) : Prop := s.Down ∨ s.Up

/-- One or more stops are taking the cycle of the last start down. -/
structure GoingDown (s : LifecycleState k) : Prop where
  current : s.Current
  old : s.OldEnded
  accept : s.handler.loggingAcceptEvent = false
  bridge : s.bridge s.starts = .cancelling ∨ s.bridge s.starts = .ended
  someone : ∃ c, (s.calls c).InProgress
  /-- Workers are cancelled by a stop that is still there to reap them. -/
  cancels : ∀ i, s.worker (s.starts, i) = .alive true ∨ s.worker (s.starts, i) = .ended .cancelled →
    ∃ c, (s.calls c).Cancelling
  early : s.handler.loggingRunningEvent = true → ∀ c, (s.calls c).InProgress → (s.calls c).Early
  late : s.handler.loggingRunningEvent = false → s.handler.logWorkersTasks ≠ []
  waits : ∀ c ts, (s.calls c).waitsFor = some ts → ts = Handler.workerTasks k s.starts
  past : ∀ c, (s.calls c).InProgress → s.calls c ≠ .awaitBridge → s.bridge s.starts = .ended

structure Inv (s : LifecycleState k) : Prop where
  fresh : ∀ c, s.stops ≤ c → s.calls c = .notCalled
  stage : s.Down ∨ (s.Up ∧ ∀ c, ¬ (s.calls c).InProgress) ∨ s.GoingDown

-- ---------------------------------------------------------------------------
-- Small facts about the operations
-- ---------------------------------------------------------------------------

@[simp] theorem setCall_self (s : LifecycleState k) (c : Nat) (pc : CallPc k) :
    (s.setCall c pc).calls c = pc := by
  simp [setCall]

theorem setCall_ne (s : LifecycleState k) {c c' : Nat} (pc : CallPc k) (h : c' ≠ c) :
    (s.setCall c pc).calls c' = s.calls c' := by
  simp [setCall, h]

theorem not_inProgress_notCalled : ¬ (CallPc.notCalled : CallPc k).InProgress := id

/-- A call that has been made stays below the count of calls. -/
theorem Inv.lt_stops (hi : s.Inv) {c : Nat} (h : (s.calls c).InProgress) : c < s.stops := by
  by_contra hge
  rw [hi.fresh c (by omega)] at h
  exact not_inProgress_notCalled h

theorem cancelAll_of_none_alive (ts : List (TaskId k)) (h : ∀ t, ¬ (s.worker t).IsAlive) :
    s.cancelAll ts = s := by
  have hw : (fun t => if t ∈ ts then (s.worker t).cancel else s.worker t) = s.worker := by
    funext t
    have := h t
    cases hw : s.worker t with
    | absent => simp [WorkerState.cancel]
    | alive b =>
      rw [hw] at this
      exact absurd trivial this
    | ended e => simp [WorkerState.cancel]
  rw [cancelAll, hw]

theorem allEnded_iff {ts : List (TaskId k)} :
    s.allEnded ts = true ↔ ∀ t ∈ ts, ∃ e, s.worker t = .ended e := by
  rw [allEnded, List.all_eq_true]
  refine forall₂_congr fun t _ => ?_
  cases s.worker t <;> simp

theorem Current.congr (hc : s.Current) (hh : t.handler = s.handler) (hs : t.starts = s.starts) :
    t.Current := by
  obtain ⟨hl, hi, he, hb, ht⟩ := hc
  rw [← hh, ← hs] at *
  exact ⟨hl, hi, he, hb, ht⟩

theorem OldEnded.congr (ho : s.OldEnded) (hw : t.worker = s.worker) (hb : t.bridge = s.bridge)
    (hs : t.starts = s.starts) : t.OldEnded := by
  refine ⟨fun x hx => ?_, fun g hg => ?_⟩
  · rw [hw]
    exact ho.workers x (hs ▸ hx)
  · rw [hb]
    exact ho.bridges g (hs ▸ hg)

-- ---------------------------------------------------------------------------
-- The stage of being down
-- ---------------------------------------------------------------------------

theorem Down.setCall (hd : s.Down) (c : Nat) (pc : CallPc k) : (s.setCall c pc).Down :=
  ⟨hd.handler, hd.workers, hd.bridges⟩

theorem Down.teardown (hd : s.Down) (c : Nat) : (s.teardown c).Down :=
  ⟨⟨hd.handler.accept, hd.handler.running, rfl, rfl, rfl, rfl, rfl⟩, hd.workers, hd.bridges⟩

-- ---------------------------------------------------------------------------
-- The stage of going down
-- ---------------------------------------------------------------------------

/-- A call of a cycle going down moves on. -/
theorem GoingDown.setCall (hg : s.GoingDown) (c : Nat) {pc : CallPc k} (hpc : pc.InProgress)
    (hEarly : s.handler.loggingRunningEvent = true → pc.Early)
    (hWaits : ∀ ts, pc.waitsFor = some ts → ts = Handler.workerTasks k s.starts)
    (hPast : pc ≠ .awaitBridge → s.bridge s.starts = .ended)
    (hCancelling : (s.calls c).Cancelling → pc.Cancelling) :
    (s.setCall c pc).GoingDown := by
  refine ⟨hg.current.congr rfl rfl, hg.old.congr rfl rfl rfl, hg.accept, hg.bridge,
    ⟨c, by simpa using hpc⟩, ?_, ?_, hg.late, ?_, ?_⟩
  · intro i hw
    obtain ⟨c', hc'⟩ := hg.cancels i hw
    by_cases h : c' = c
    · exact ⟨c, by rw [setCall_self]; exact hCancelling (h ▸ hc')⟩
    · exact ⟨c', by rw [setCall_ne s pc h]; exact hc'⟩
  · intro hr c' hc'
    by_cases h : c' = c
    · rw [h, setCall_self]
      exact hEarly hr
    · rw [setCall_ne s pc h] at hc' ⊢
      exact hg.early hr c' hc'
  · intro c' ts hc'
    by_cases h : c' = c
    · rw [h, setCall_self] at hc'
      exact hWaits ts hc'
    · rw [setCall_ne s pc h] at hc'
      exact hg.waits c' ts hc'
  · intro c' hc' hne
    by_cases h : c' = c
    · rw [h, setCall_self] at hne
      exact hPast hne
    · rw [setCall_ne s pc h] at hc' hne
      exact hg.past c' hc' hne

/-- The teardown, once the bridge and the workers have ended, leaves nothing. -/
theorem teardown_down (hOld : s.OldEnded) (ha : s.handler.loggingAcceptEvent = false)
    (hr : s.handler.loggingRunningEvent = false) (hb : s.bridge s.starts = .ended)
    (hw : ∀ t : TaskId k, t.1 = s.starts → ∃ e, s.worker t = .ended e) (c : Nat) :
    (s.teardown c).Down := by
  refine ⟨⟨ha, hr, rfl, rfl, rfl, rfl, rfl⟩, fun t => ?_, fun g => ?_⟩
  · show ¬ (s.worker t).IsAlive
    by_cases ht : t.1 = s.starts
    · obtain ⟨e, he⟩ := hw t ht
      rw [he]
      exact id
    · exact hOld.workers t ht
  · show s.bridge g ≠ .alive ∧ s.bridge g ≠ .cancelling
    by_cases hgs : g = s.starts
    · rw [hgs, hb]
      decide
    · exact hOld.bridges g hgs

/-- A call leaves without having torn the cycle down; another one will. -/
theorem GoingDown.leave (hg : s.GoingDown) {c c' : Nat} (hne : c' ≠ c)
    (hc' : (s.calls c').Cancelling) : (s.setCall c .raised).GoingDown := by
  have hSame : (s.setCall c .raised).calls c' = s.calls c' := setCall_ne s _ hne
  have hProgress : (s.calls c').InProgress := by
    cases hpc : s.calls c' <;> rw [hpc] at hc' <;> first | exact trivial | exact hc'.elim
  refine ⟨hg.current.congr rfl rfl, hg.old.congr rfl rfl rfl, hg.accept, hg.bridge,
    ⟨c', by rw [hSame]; exact hProgress⟩, fun _ _ => ⟨c', by rw [hSame]; exact hc'⟩, ?_, hg.late,
    ?_, ?_⟩
  · intro hr d hd
    by_cases h : d = c
    · rw [h, setCall_self] at hd
      exact hd.elim
    · rw [setCall_ne s _ h] at hd ⊢
      exact hg.early hr d hd
  · intro d ts hd
    by_cases h : d = c
    · rw [h, setCall_self] at hd
      cases hd
    · rw [setCall_ne s _ h] at hd
      exact hg.waits d ts hd
  · intro d hd hne'
    by_cases h : d = c
    · rw [h, setCall_self] at hd
      exact hd.elim
    · rw [setCall_ne s _ h] at hd hne'
      exact hg.past d hd hne'

/-- `logging_running_event.clear()`, with workers to wait for. -/
theorem GoingDown.clearRunning (hg : s.GoingDown) (hTasks : s.handler.logWorkersTasks ≠ []) :
    GoingDown { s with handler := { s.handler with loggingRunningEvent := false } } := by
  obtain ⟨h₁, h₂, h₃, h₄, h₅⟩ := hg.current
  refine ⟨⟨h₁, h₂, h₃, h₄, h₅⟩, hg.old.congr rfl rfl rfl, hg.accept, hg.bridge, hg.someone,
    hg.cancels, ?_, fun _ => hTasks, hg.waits, hg.past⟩
  intro hr
  cases hr

theorem cancelAll_isAlive (ts : List (TaskId k)) (x : TaskId k) :
    ((s.cancelAll ts).worker x).IsAlive ↔ (s.worker x).IsAlive := by
  show (if x ∈ ts then (s.worker x).cancel else s.worker x).IsAlive ↔ _
  split
  · cases s.worker x <;> exact Iff.rfl
  · exact Iff.rfl

/-- While the running event is set, no call waits for the workers. -/
theorem GoingDown.running_eq_false (hg : s.GoingDown) {c : Nat} (hc : (s.calls c).InProgress)
    (hLate : ¬ (s.calls c).Early) : s.handler.loggingRunningEvent = false := by
  cases hr : s.handler.loggingRunningEvent with
  | false => rfl
  | true => exact absurd (hg.early hr c hc) hLate

theorem GoingDown.bridge_ended (hg : s.GoingDown) {c : Nat} (hc : (s.calls c).InProgress)
    (hLate : ¬ (s.calls c).Early) : s.bridge s.starts = .ended := by
  refine hg.past c hc fun h => hLate ?_
  rw [h]
  trivial

/-- Workers are cancelled, by a call that stays to reap them. -/
theorem GoingDown.cancelAll (hg : s.GoingDown) {c : Nat} {pc : CallPc k} (ts : List (TaskId k))
    (hc : (s.calls c).InProgress) (hLate : ¬ (s.calls c).Early) (hpc : pc.Cancelling)
    (hWaits : ∀ us, pc.waitsFor = some us → us = Handler.workerTasks k s.starts) :
    ((s.cancelAll ts).setCall c pc).GoingDown := by
  have hProgress : pc.InProgress := by
    cases pc <;> first | exact trivial | exact hpc.elim
  have hRunning := hg.running_eq_false hc hLate
  refine ⟨hg.current.congr rfl rfl, ⟨fun x hx => ?_, hg.old.bridges⟩, hg.accept, hg.bridge,
    ⟨c, by simpa using hProgress⟩, fun i _ => ⟨c, by simpa using hpc⟩, ?_, hg.late, ?_, ?_⟩
  · show ¬ ((s.cancelAll ts).worker x).IsAlive
    rw [cancelAll_isAlive]
    exact hg.old.workers x hx
  · intro hr
    have hr' : s.handler.loggingRunningEvent = true := hr
    rw [hRunning] at hr'
    cases hr'
  · intro c' us hc'
    by_cases h : c' = c
    · rw [h, setCall_self] at hc'
      exact hWaits us hc'
    · rw [setCall_ne _ pc h] at hc'
      exact hg.waits c' us hc'
  · exact fun _ _ _ => hg.bridge_ended hc hLate

-- ---------------------------------------------------------------------------
-- Steps
-- ---------------------------------------------------------------------------

theorem Inv.start (hi : s.Inv) (hok : s.NoOverlap .start) : (s.startLogging).Inv := by
  unfold startLogging
  split
  · rename_i hMay
    have hQuiet : ∀ c, ¬ (s.calls c).InProgress := fun c hc => hok hMay c (hi.lt_stops hc) hc
    have hNotRunning : s.handler.loggingRunningEvent = false := by
      simp only [Handler.mayStart, Bool.and_eq_true, Bool.not_eq_true'] at hMay
      exact hMay.2
    have hDown : s.Down := by
      rcases hi.stage with hd | ⟨hu, -⟩ | hg
      · exact hd
      · have := hu.running
        rw [hNotRunning] at this
        cases this
      · obtain ⟨c, hc⟩ := hg.someone
        exact absurd hc (hQuiet c)
    refine ⟨hi.fresh, .inr (.inl ⟨⟨⟨rfl, rfl, rfl, rfl, rfl⟩, ⟨?_, ?_⟩, rfl, fun _ => rfl, ?_, ?_⟩, hQuiet⟩)⟩
    · intro x hx
      show ¬ (if x.1 = s.starts + 1 then WorkerState.alive false else s.worker x).IsAlive
      rw [if_neg hx]
      exact hDown.workers x
    · intro g hg
      show Function.update s.bridge (s.starts + 1) .alive g ≠ _ ∧
        Function.update s.bridge (s.starts + 1) .alive g ≠ _
      rw [Function.update_of_ne hg]
      exact hDown.bridges g
    · intro i
      exact if_pos rfl
    · exact Function.update_self ..
  · exact hi

/-- `stop_logging` as far as it gets at once, when there is something to stop. -/
private theorem goingDown_stop (hi : s.Inv) (hStage : s.Up ∨ s.GoingDown)
    (hQuiet : s.Up → ∀ c, ¬ (s.calls c).InProgress) (ht : t.starts = s.starts)
    (hh : t.handler = { s.handler with loggingAcceptEvent := false })
    (hw : t.worker = s.worker)
    (hb : t.bridge = Function.update s.bridge s.starts (s.bridge s.starts).cancel)
    (hc : t.calls = Function.update s.calls s.stops .awaitBridge) : t.GoingDown := by
  have hCurrent : s.Current := hStage.elim Up.current GoingDown.current
  have hOld : s.OldEnded := hStage.elim Up.old GoingDown.old
  have hFresh : ∀ c, (s.calls c).InProgress → c ≠ s.stops := fun c h => by
    have := hi.lt_stops h
    omega
  have hCall : ∀ c, c ≠ s.stops → t.calls c = s.calls c := fun c h => by
    rw [hc, Function.update_of_ne h]
  have hSelf : t.calls s.stops = .awaitBridge := by rw [hc, Function.update_self]
  have hBridge : t.bridge s.starts = (s.bridge s.starts).cancel := by
    rw [hb, Function.update_self]
  refine ⟨?_, ⟨?_, ?_⟩, by rw [hh], ?_, ⟨s.stops, by rw [hSelf]; trivial⟩, ?_, ?_, ?_, ?_, ?_⟩
  · obtain ⟨h₁, h₂, h₃, h₄, h₅⟩ := hCurrent
    refine ⟨?_, ?_, ?_, ?_, ?_⟩ <;> rw [hh] <;> rw [ht] at *
    · exact h₁
    · exact h₂
    · exact h₃
    · exact h₄
    · exact h₅
  · intro x hx
    rw [hw]
    exact hOld.workers x (ht ▸ hx)
  · intro g hg
    rw [ht] at hg
    rw [hb, Function.update_of_ne hg]
    exact hOld.bridges g hg
  · rw [ht, hBridge]
    rcases hStage with hu | hg
    · rw [hu.bridge]
      exact .inl rfl
    · rcases hg.bridge with h | h <;> rw [h]
      · exact .inl rfl
      · exact .inr rfl
  · intro i hi'
    rw [hw, ht] at hi'
    rcases hStage with hu | hg
    · rw [hu.workers i] at hi'
      rcases hi' with h | h <;> cases h
    · obtain ⟨c, hcc⟩ := hg.cancels i hi'
      refine ⟨c, ?_⟩
      rw [hCall c (hFresh c ?_)]
      · exact hcc
      · cases hpc : s.calls c <;> rw [hpc] at hcc <;> first | exact trivial | exact hcc.elim
  · intro hr c hcc
    by_cases h : c = s.stops
    · rw [h, hSelf]
      trivial
    · rw [hCall c h] at hcc ⊢
      rcases hStage with hu | hg
      · exact absurd hcc (hQuiet hu c)
      · exact hg.early (by rw [hh] at hr; exact hr) c hcc
  · intro hr
    rw [hh] at hr ⊢
    rcases hStage with hu | hg
    · have := hu.running
      rw [show s.handler.loggingRunningEvent = false from hr] at this
      cases this
    · exact hg.late hr
  · intro c ts hcc
    rw [ht]
    by_cases h : c = s.stops
    · rw [h, hSelf] at hcc
      cases hcc
    · rw [hCall c h] at hcc
      rcases hStage with hu | hg
      · refine absurd ?_ (hQuiet hu c)
        cases hpc : s.calls c <;> rw [hpc] at hcc <;> first | exact trivial | cases hcc
      · exact hg.waits c ts hcc
  · intro c hcc hne
    rw [ht, hBridge]
    by_cases h : c = s.stops
    · rw [h] at hne
      exact absurd hSelf hne
    · rw [hCall c h] at hcc hne
      rcases hStage with hu | hg
      · exact absurd hcc (hQuiet hu c)
      · rw [hg.past c hcc hne]
        rfl

theorem Inv.stop (hi : s.Inv) : (s.stopLogging).Inv := by
  have hFresh : ∀ c pc, s.stops + 1 ≤ c → Function.update s.calls s.stops pc c = .notCalled := by
    intro c pc hc
    rw [Function.update_of_ne (by omega)]
    exact hi.fresh c (by omega)
  unfold stopLogging
  simp only [Nat.add_sub_cancel]
  split
  · rename_i hIgnored
    refine ⟨fun c hc => hFresh c _ hc, ?_⟩
    rcases hi.stage with hd | ⟨hu, -⟩ | hg
    · exact .inl ⟨hd.handler, hd.workers, hd.bridges⟩
    · have := hu.running
      simp [Handler.stopIgnored, this] at hIgnored
    · simp only [Handler.stopIgnored, Bool.and_eq_true, Bool.not_eq_true', List.isEmpty_iff]
        at hIgnored
      exact absurd hIgnored.2 (hg.late hIgnored.1)
  · rename_i hNotIgnored
    refine ⟨fun c hc => hFresh c _ hc, ?_⟩
    have hStage : s.Up ∨ s.GoingDown := by
      rcases hi.stage with hd | ⟨hu, -⟩ | hg
      · exact absurd hd.handler.stopIgnored hNotIgnored
      · exact .inl hu
      · exact .inr hg
    have hCurrent : s.Current := hStage.elim Up.current GoingDown.current
    have hQuiet : s.Up → ∀ c, ¬ (s.calls c).InProgress := by
      intro hu
      rcases hi.stage with hd | ⟨-, hq⟩ | hg
      · have := hd.handler.running
        rw [hu.running] at this
        cases this
      · exact hq
      · have := hg.bridge
        rw [hu.bridge] at this
        rcases this with h | h <;> cases h
    refine .inr (.inr (goingDown_stop hi hStage hQuiet rfl rfl rfl ?_ rfl))
    rw [hCurrent.bridgeTask]
    rfl

/-- A call in progress moves on. -/
theorem Inv.call (hi : s.Inv) {c : Nat} {pc : CallPc k} (hc : (s.calls c).InProgress)
    (hStops : t.stops = s.stops) (hCalls : t.calls = Function.update s.calls c pc)
    (hDown : s.Down → t.Down) (hGoing : s.GoingDown → t.Down ∨ t.GoingDown) : t.Inv := by
  refine ⟨?_, ?_⟩
  · intro c' hc'
    rw [hStops] at hc'
    have hlt := hi.lt_stops hc
    rw [hCalls, Function.update_of_ne (by omega)]
    exact hi.fresh c' hc'
  · rcases hi.stage with hd | ⟨-, hq⟩ | hg
    · exact .inl (hDown hd)
    · exact absurd hc (hq c)
    · exact (hGoing hg).imp_right .inr

/-- Nothing but the calls, the accept event and the backlog changes. -/
private theorem GoingDown.congr (hg : s.GoingDown) (hc : t.Current) (hs : t.starts = s.starts)
    (hw : t.worker = s.worker) (hb : t.bridge = s.bridge) (hcalls : t.calls = s.calls)
    (ha : t.handler.loggingAcceptEvent = false)
    (hr : t.handler.loggingRunningEvent = s.handler.loggingRunningEvent) : t.GoingDown := by
  have hTasks : t.handler.logWorkersTasks = s.handler.logWorkersTasks := by
    rw [hc.tasks, hg.current.tasks, hs]
  refine ⟨hc, hg.old.congr hw hb hs, ha, ?_, ?_, ?_, ?_, ?_, ?_, ?_⟩
  · rw [hb, hs]
    exact hg.bridge
  · rw [hcalls]
    exact hg.someone
  · rw [hw, hs, hcalls]
    exact hg.cancels
  · rw [hr, hcalls]
    exact hg.early
  · rw [hr, hTasks]
    exact hg.late
  · rw [hcalls, hs]
    exact hg.waits
  · rw [hcalls, hb, hs]
    exact hg.past

theorem Inv.close (hi : s.Inv) : Inv { s with handler := s.handler.close } := by
  refine ⟨hi.fresh, ?_⟩
  rcases hi.stage with hd | ⟨hu, hq⟩ | hg
  · obtain ⟨h₁, h₂, h₃, h₄, h₅, h₆, h₇⟩ := hd.handler
    exact .inl ⟨⟨rfl, h₂, h₃, h₄, h₅, h₆, h₇⟩, hd.workers, hd.bridges⟩
  · obtain ⟨h₁, h₂, h₃, h₄, h₅⟩ := hu.current
    refine .inr (.inl ⟨⟨⟨h₁, h₂, h₃, h₄, h₅⟩, ⟨hu.old.workers, hu.old.bridges⟩, hu.running, ?_,
      hu.workers, hu.bridge⟩, hq⟩)
    intro hclosed
    cases hclosed
  · obtain ⟨h₁, h₂, h₃, h₄, h₅⟩ := hg.current
    exact .inr (.inr (hg.congr ⟨h₁, h₂, h₃, h₄, h₅⟩ rfl rfl rfl rfl rfl rfl))

/-- The backlog is nothing the invariant speaks of. -/
theorem Inv.backlog (hi : s.Inv) (b : Fin k → Nat) : Inv { s with backlog := b } := by
  refine ⟨hi.fresh, ?_⟩
  rcases hi.stage with hd | ⟨hu, hq⟩ | hg
  · exact .inl ⟨hd.handler, hd.workers, hd.bridges⟩
  · exact .inr (.inl ⟨⟨hu.current.congr rfl rfl, hu.old.congr rfl rfl rfl, hu.running, hu.accept,
      hu.workers, hu.bridge⟩, hq⟩)
  · exact .inr (.inr (hg.congr (hg.current.congr rfl rfl) rfl rfl rfl rfl hg.accept rfl))

theorem Inv.bridgeEnds {g : Nat} (hi : s.Inv) (hg : s.bridge g = .cancelling) :
    Inv { s with bridge := Function.update s.bridge g .ended } := by
  have hStage : s.GoingDown ∧ g = s.starts := by
    rcases hi.stage with hd | ⟨hu, -⟩ | hgo
    · exact absurd hg (hd.bridges g).2
    · by_cases h : g = s.starts
      · rw [h, hu.bridge] at hg
        cases hg
      · exact absurd hg (hu.old.bridges g h).2
    · refine ⟨hgo, ?_⟩
      by_contra h
      exact (hgo.old.bridges g h).2 hg
  obtain ⟨hgo, rfl⟩ := hStage
  refine ⟨hi.fresh, .inr (.inr ⟨hgo.current.congr rfl rfl, ⟨hgo.old.workers, fun g' hg' => ?_⟩,
    hgo.accept, .inr (Function.update_self ..), hgo.someone, hgo.cancels, hgo.early, hgo.late,
    hgo.waits, fun _ _ _ => Function.update_self ..⟩)⟩
  show Function.update s.bridge s.starts .ended g' ≠ _ ∧
    Function.update s.bridge s.starts .ended g' ≠ _
  have hg'' : g' ≠ s.starts := hg'
  rw [Function.update_of_ne hg'']
  exact hgo.old.bridges g' hg''

/-- A worker ends: by returning, or cancelled on request. -/
theorem Inv.workerEnds {x : TaskId k} {e : TaskEnd} (hi : s.Inv) (hx : (s.worker x).IsAlive)
    (he : s.handler.loggingRunningEvent = true → s.worker x = .alive true)
    (hc : e = .cancelled → s.worker x = .alive true) : (s.setWorker x (.ended e)).Inv := by
  have hGoing : s.GoingDown := by
    rcases hi.stage with hd | ⟨hu, -⟩ | hg
    · exact absurd hx (hd.workers x)
    · have hcur : x.1 = s.starts := by
        by_contra h
        exact hu.old.workers x h hx
      have halive := hu.workers x.2
      rw [← hcur] at halive
      have := he hu.running
      rw [show x = (x.1, x.2) from rfl, halive] at this
      cases this
    · exact hg
  have hself : (s.setWorker x (.ended e)).worker x = .ended e := by simp [setWorker]
  have hne : ∀ y, y ≠ x → (s.setWorker x (.ended e)).worker y = s.worker y := by
    intro y hy
    simp [setWorker, hy]
  have hcancels : ∀ i, (s.setWorker x (.ended e)).worker (s.starts, i) = .alive true ∨
      (s.setWorker x (.ended e)).worker (s.starts, i) = .ended .cancelled →
      ∃ c, (s.calls c).Cancelling := by
    intro i hi'
    refine hGoing.cancels i ?_
    by_cases hix : (s.starts, i) = x
    · rw [hix, hself] at hi'
      rw [hix]
      rcases hi' with h | h
      · cases h
      · exact .inl (hc (WorkerState.ended.inj h))
    · rw [hne _ hix] at hi'
      exact hi'
  refine ⟨hi.fresh, .inr (.inr ⟨hGoing.current.congr rfl rfl, ⟨fun y hy => ?_, hGoing.old.bridges⟩,
    hGoing.accept, hGoing.bridge, hGoing.someone, hcancels, hGoing.early, hGoing.late,
    hGoing.waits, hGoing.past⟩)⟩
  by_cases hyx : y = x
  · rw [hyx, hself]
    exact id
  · rw [hne y hyx]
    exact hGoing.old.workers y hy

/-- A step of a run in which no start overlaps a stop. -/
theorem Inv.step {a : Act k} (hi : s.Inv) (hok : s.NoOverlap a)
    (h : LifecycleState.step s a = some t) : t.Inv := by
  cases a with
  | start =>
    obtain rfl := Option.some.inj h
    exact hi.start hok
  | close =>
    obtain rfl := Option.some.inj h
    exact hi.close
  | stop =>
    obtain rfl := Option.some.inj h
    exact hi.stop
  | bridgeEnds g =>
    simp only [LifecycleState.step, Option.ite_none_right_eq_some] at h
    obtain ⟨hg, h⟩ := h
    obtain rfl := Option.some.inj h
    exact hi.bridgeEnds hg
  | bridgeAwaited c =>
    simp only [LifecycleState.step, Option.ite_none_right_eq_some] at h
    obtain ⟨⟨hc, hb⟩, h⟩ := h
    obtain rfl := Option.some.inj h
    refine hi.call (c := c) (by rw [hc]; trivial) rfl rfl (fun hd => hd.setCall c _) fun hg => .inr ?_
    refine hg.setCall c trivial (fun _ => trivial) (fun _ h => by cases h) (fun _ => ?_)
      (fun h => by rw [hc] at h; exact h.elim)
    rw [bridgeEnded, hg.current.bridgeTask] at hb
    exact beq_iff_eq.mp hb
  | drained c =>
    simp only [LifecycleState.step, Option.ite_none_right_eq_some] at h
    obtain ⟨hc, h⟩ := h
    obtain rfl := Option.some.inj h
    refine hi.call (c := c) (by rw [hc]; trivial) rfl rfl (fun hd => hd.setCall c _) fun hg => .inr ?_
    refine hg.setCall c trivial (fun _ => trivial) (fun _ h => by cases h) (fun _ => ?_)
      (fun h => by rw [hc] at h; exact h.elim)
    exact hg.past c (by rw [hc]; trivial) (by rw [hc]; simp)
  | reported c =>
    simp only [LifecycleState.step, Option.ite_none_right_eq_some] at h
    obtain ⟨hc, h⟩ := h
    have hProgress : (s.calls c).InProgress := by rw [hc]; trivial
    have hBridge : s.GoingDown → s.bridge s.starts = .ended := fun hg =>
      hg.past c hProgress (by rw [hc]; simp)
    split at h
    · rename_i hTasks
      obtain rfl := Option.some.inj h
      refine hi.call hProgress rfl rfl ?_ fun hg => .inl ?_
      · intro hd
        exact ⟨⟨hd.handler.accept, rfl, rfl, rfl, rfl, rfl, rfl⟩, hd.workers, hd.bridges⟩
      · refine teardown_down
          (s := { s with handler := { s.handler with loggingRunningEvent := false } })
          (hg.old.congr rfl rfl rfl) hg.accept rfl (hBridge hg) (fun x hx => ?_) c
        -- a cycle with no tasks has no workers
        have hmem : x ∈ s.handler.logWorkersTasks := by
          rw [hg.current.tasks, Handler.mem_workerTasks]
          exact hx
        rw [show s.handler.logWorkersTasks = [] from hTasks] at hmem
        cases hmem
    · rename_i hTasks
      obtain rfl := Option.some.inj h
      refine hi.call hProgress rfl rfl (fun hd => absurd hd.handler.tasks hTasks) fun hg => .inr ?_
      refine (hg.clearRunning hTasks).setCall c trivial (fun hr => by cases hr) ?_
        (fun _ => hBridge hg) (fun h => by
          have h' : (s.calls c).Cancelling := h
          rw [hc] at h'
          exact h'.elim)
      intro ts hts
      rw [← Option.some.inj hts]
      exact hg.current.tasks
  | gathered c =>
    simp only [LifecycleState.step] at h
    split at h
    · rename_i ts hc
      obtain ⟨hall, h⟩ := Option.ite_none_right_eq_some.mp h
      obtain rfl := Option.some.inj h
      have hProgress : (s.calls c).InProgress := by rw [hc]; trivial
      have hLate : ¬ (s.calls c).Early := by rw [hc]; exact id
      refine hi.call hProgress rfl rfl (fun hd => hd.teardown c) fun hg => .inl ?_
      refine teardown_down hg.old hg.accept (hg.running_eq_false hProgress hLate)
        (hg.bridge_ended hProgress hLate) (fun x hx => ⟨.returned, ?_⟩) c
      rw [List.all_eq_true] at hall
      refine of_decide_eq_true (hall x ?_)
      rw [hg.waits c ts (by rw [hc]; rfl), Handler.mem_workerTasks]
      exact hx
    · cases h
  | gatherCancelled c =>
    simp only [LifecycleState.step] at h
    split at h
    · rename_i ts hc
      obtain ⟨hany, h⟩ := Option.ite_none_right_eq_some.mp h
      obtain rfl := Option.some.inj h
      refine hi.call (c := c) (by rw [hc]; trivial) rfl rfl (fun hd => hd.setCall c _)
        fun hg => .inr ?_
      -- whoever has cancelled the worker is still there
      obtain ⟨x, hx, hw⟩ := List.any_eq_true.mp hany
      rw [hg.waits c ts (by rw [hc]; rfl), Handler.mem_workerTasks] at hx
      have hw' : s.worker (s.starts, x.2) = .ended .cancelled := by
        rw [← hx]
        exact of_decide_eq_true hw
      obtain ⟨c', hc'⟩ := hg.cancels x.2 (.inr hw')
      refine hg.leave (fun heq => ?_) hc'
      rw [heq, hc] at hc'
      exact hc'.elim
    · cases h
  | deadline c =>
    simp only [LifecycleState.step] at h
    split at h
    · rename_i ts hc
      obtain rfl := Option.some.inj h
      have hProgress : (s.calls c).InProgress := by rw [hc]; trivial
      refine hi.call hProgress rfl rfl (fun hd => ?_) fun hg => .inr ?_
      · rw [cancelAll_of_none_alive ts hd.workers]
        exact hd.setCall c _
      · refine hg.cancelAll ts hProgress (by rw [hc]; exact id) trivial fun us hus => ?_
        rw [← Option.some.inj hus]
        exact hg.waits c ts (by rw [hc]; rfl)
    · cases h
  | gatherEnds c =>
    simp only [LifecycleState.step] at h
    split at h
    · rename_i ts hc
      obtain ⟨-, h⟩ := Option.ite_none_right_eq_some.mp h
      obtain rfl := Option.some.inj h
      have hProgress : (s.calls c).InProgress := by rw [hc]; trivial
      refine hi.call hProgress rfl rfl (fun hd => ?_) fun hg => .inr ?_
      · rw [cancelAll_of_none_alive _ hd.workers]
        exact hd.setCall c _
      · refine hg.cancelAll _ hProgress (by rw [hc]; exact id) trivial fun us hus => ?_
        rw [← Option.some.inj hus]
        exact hg.current.tasks
    · cases h
  | reaped c =>
    simp only [LifecycleState.step] at h
    split at h
    · rename_i ts hc
      obtain ⟨hall, h⟩ := Option.ite_none_right_eq_some.mp h
      obtain rfl := Option.some.inj h
      have hProgress : (s.calls c).InProgress := by rw [hc]; trivial
      have hLate : ¬ (s.calls c).Early := by rw [hc]; exact id
      refine hi.call hProgress rfl rfl (fun hd => hd.teardown c) fun hg => .inl ?_
      refine teardown_down hg.old hg.accept (hg.running_eq_false hProgress hLate)
        (hg.bridge_ended hProgress hLate) (fun x hx => ?_) c
      refine allEnded_iff.mp hall x ?_
      rw [hg.waits c ts (by rw [hc]; rfl), Handler.mem_workerTasks]
      exact hx
    · cases h
  | workerReturns x =>
    simp only [LifecycleState.step] at h
    split at h
    · rename_i b hx
      obtain ⟨⟨hr, -⟩, h⟩ := Option.ite_none_right_eq_some.mp h
      obtain rfl := Option.some.inj h
      refine hi.workerEnds (by rw [hx]; trivial) (fun hr' => ?_) (fun hc => by cases hc)
      rw [hr] at hr'
      cases hr'
    · cases h
  | workerCancelled x =>
    simp only [LifecycleState.step, Option.ite_none_right_eq_some] at h
    obtain ⟨hx, h⟩ := h
    obtain rfl := Option.some.inj h
    exact hi.workerEnds (by rw [hx]; trivial) (fun _ => hx) (fun _ => hx)
  | enqueue i =>
    obtain rfl := Option.some.inj h
    exact hi.backlog _
  | dequeue i =>
    obtain rfl := Option.some.inj h
    exact hi.backlog _

theorem Inv.init : (init k).Inv := by
  refine ⟨fun _ _ => rfl, .inl ⟨Handler.Stopped.fresh, fun _ => id, fun g => ?_⟩⟩
  show BridgeState.absent ≠ .alive ∧ BridgeState.absent ≠ .cancelling
  decide

/-- **Coherence.** In every run in which no start overlaps a stop: between calls
the handler is fully stopped or fully running; a start that gets past its guards
finds no worker alive; a set accept event has a running cycle behind it. -/
theorem lifecycle_coherent (h : (machine k).Reachable NoOverlap s) :
    (s.Quiet → s.Coherent) ∧
      (s.NoOverlap .start → s.handler.mayStart = true → ∀ t, ¬ (s.worker t).IsAlive) ∧
      (s.handler.loggingAcceptEvent = true → s.Up) := by
  have hi : s.Inv := by
    refine Machine.invariant (I := Inv) ?_ (fun _ _ _ hi hok hstep => hi.step hok hstep) h
    rintro _ rfl
    exact Inv.init
  refine ⟨fun hq => ?_, fun hok hMay => ?_, fun ha => ?_⟩
  · rcases hi.stage with hd | ⟨hu, -⟩ | hg
    · exact .inl hd
    · exact .inr hu
    · obtain ⟨c, hc⟩ := hg.someone
      exact absurd hc (hq c (hi.lt_stops hc))
  · rcases hi.stage with hd | ⟨hu, -⟩ | hg
    · exact hd.workers
    · have := hu.running
      simp [Handler.mayStart, this] at hMay
    · obtain ⟨c, hc⟩ := hg.someone
      exact absurd hc (hok hMay c (hi.lt_stops hc))
  · rcases hi.stage with hd | ⟨hu, -⟩ | hg
    · have := hd.handler.accept
      rw [ha] at this
      cases this
    · exact hu
    · have := hg.accept
      rw [ha] at this
      cases this

/-- Two stops at once on a handler with two backends, a worker stuck until the
deadline, and a restart after both. -/
def overlappingStops : List (Act 2) :=
  [.start, .enqueue 1, .stop, .stop, .bridgeEnds 1, .bridgeAwaited 0, .bridgeAwaited 1, .drained 0,
   .reported 0, .workerReturns (1, 0), .deadline 0, .drained 1, .reported 1,
   .workerCancelled (1, 1), .gatherCancelled 1, .gatherEnds 0, .reaped 0, .start]

theorem lifecycle_coherent_run :
    ∃ t, (machine 2).run NoOverlap (init 2) overlappingStops = some t ∧ t.Coherent ∧
      t.handler.logWorkersTasks = [(2, 0), (2, 1)] := by
  have hrun : ∃ t, (machine 2).run NoOverlap (init 2) overlappingStops = some t ∧
      decide t.Quiet = true ∧ t.handler.logWorkersTasks = [(2, 0), (2, 1)] :=
    ⟨_, rfl, rfl, rfl⟩
  obtain ⟨t, ht, hquiet, htasks⟩ := hrun
  exact ⟨t, ht, (lifecycle_coherent (.of_run rfl ht)).1 (of_decide_eq_true hquiet), htasks⟩

/-- One backend, its worker stuck in a send; `start_logging` is called while
`stop_logging` waits for it. -/
def startDuringStop : List (Act 1) :=
  [.start, .stop, .bridgeEnds 1, .bridgeAwaited 0, .drained 0, .reported 0, .start,
   .deadline 0, .workerCancelled (1, 0), .gatherEnds 0, .workerCancelled (2, 0), .reaped 0]

theorem start_during_stop_incoherent :
    ¬ ∀ s, (machine 1).Reachable (fun _ _ => True) s → s.Quiet → s.Coherent := by
  intro hall
  have hrun : ∃ t, (machine 1).run (fun _ _ => True) (init 1) startDuringStop = some t ∧
      decide t.Quiet = true ∧ t.handler.loggingAcceptEvent = true ∧ t.handler.ingress = none :=
    ⟨_, rfl, rfl, rfl, rfl⟩
  obtain ⟨t, ht, hquiet, haccept, hingress⟩ := hrun
  rcases hall t (.of_run rfl ht) (of_decide_eq_true hquiet) with hd | hu
  · rw [hd.handler.accept] at haccept
    cases haccept
  · rw [hu.current.ingress] at hingress
    cases hingress

end LifecycleState

end ScietexLogging
