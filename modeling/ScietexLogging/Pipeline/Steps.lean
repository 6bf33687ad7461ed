import ScietexLogging.Pipeline.Desks

/-!
# Pipeline — what a step does

`Pipeline.Changed` lists, once, everything a step can do to the backends and to
what `emit` shares with the rest, with where in the program it is done;
`Pipeline.step_changed` derives it from the code. The statements about records are
read off this list.

Main result: `desks_sound` — whatever is interleaved, every backend queue agrees
with its history, and the tasks alive hold different unacknowledged records.
-/

namespace ScietexLogging

open Asyncio

variable {k : Nat}

-- ---------------------------------------------------------------------------
-- What a statement of emit does
-- ---------------------------------------------------------------------------

@[simp] theorem Intake.setEmit_self (x : Intake k) (n : Nat) (pc : EmitPc) :
    (x.setEmit n pc).emits n = pc :=
  Function.update_self ..

theorem Intake.setEmit_ne (x : Intake k) {n m : Nat} (pc : EmitPc) (h : m ≠ n) :
    (x.setEmit n pc).emits m = x.emits m :=
  Function.update_of_ne h _ _

/-- The statements of a call of `emit`, and how they go. -/
inductive EmitStep (x : Intake k) (h : Handler k) (starts n : Nat) : Intake k → Prop
  | accepted {r : LogRecord} (pc : x.emits n = .called r) (accept : h.loggingAcceptEvent = true) :
      EmitStep x h starts n (x.setEmit n (.readIngress r))
  | ignored {r : LogRecord} (pc : x.emits n = .called r) (accept : h.loggingAcceptEvent = false) :
      EmitStep x h starts n (x.setEmit n (.done .notAccepting))
  | ingress {r : LogRecord} (pc : x.emits n = .readIngress r) :
      EmitStep x h starts n (x.setEmit n (.readLoop r h.ingress))
  | loop {r : LogRecord} {g : Option Nat} (pc : x.emits n = .readLoop r g) :
      EmitStep x h starts n (x.setEmit n (.readEvent r g h.loop))
  | event {r : LogRecord} {g e : Nat} (pc : x.emits n = .readEvent r (some g) true)
      (event : h.ingressEvent = some e) : EmitStep x h starts n (x.setEmit n (.put r g e))
  | released {r : LogRecord} {g : Option Nat} {l : Bool} (pc : x.emits n = .readEvent r g l)
      (unset : g = none ∨ l = false ∨ h.ingressEvent = none) :
      EmitStep x h starts n (x.setEmit n (.done .released))
  | entered {r : LogRecord} {g e : Nat} {q : BoundedQueue Emitted} (pc : x.emits n = .put r g e)
      (put : (x.ingress g).putNowait ⟨n, starts, r⟩ = some q) :
      EmitStep x h starts n
        ({ x with
          ingress := Function.update x.ingress g q
          entered := Function.update x.entered g (x.entered g ++ [n]) }.setEmit n (.wake g e))
  | full {r : LogRecord} {g e : Nat} (pc : x.emits n = .put r g e) :
      EmitStep x h starts n ((x.addReports [.ingressFull n]).setEmit n (.done .full))
  | delivered {g e : Nat} (pc : x.emits n = .wake g e) :
      EmitStep x h starts n ((x.schedule e).setEmit n (.done .delivered))

/-- How a call of `emit` goes on. -/
inductive EmitPc.Next (h : Handler k) : EmitPc → EmitPc → Prop
  | accepted {r : LogRecord} (accept : h.loggingAcceptEvent = true) :
      Next h (.called r) (.readIngress r)
  | ignored {r : LogRecord} (accept : h.loggingAcceptEvent = false) :
      Next h (.called r) (.done .notAccepting)
  | ingress {r : LogRecord} : Next h (.readIngress r) (.readLoop r h.ingress)
  | loop {r : LogRecord} {g : Option Nat} : Next h (.readLoop r g) (.readEvent r g h.loop)
  | event {r : LogRecord} {g e : Nat} (event : h.ingressEvent = some e) :
      Next h (.readEvent r (some g) true) (.put r g e)
  | released {r : LogRecord} {g : Option Nat} {l : Bool}
      (unset : g = none ∨ l = false ∨ h.ingressEvent = none) :
      Next h (.readEvent r g l) (.done .released)
  | entered {r : LogRecord} {g e : Nat} : Next h (.put r g e) (.wake g e)
  | full {r : LogRecord} {g e : Nat} : Next h (.put r g e) (.done .full)
  | delivered {g e : Nat} : Next h (.wake g e) (.done .delivered)

theorem EmitStep.next {x y : Intake k} {h : Handler k} {starts n : Nat}
    (hs : EmitStep x h starts n y) :
    EmitPc.Next h (x.emits n) (y.emits n) ∧ ∀ m, m ≠ n → y.emits m = x.emits m := by
  refine ⟨?_, fun m hm => ?_⟩
  · cases hs with
    | accepted pc accept => rw [pc, Intake.setEmit_self]; exact .accepted accept
    | ignored pc accept => rw [pc, Intake.setEmit_self]; exact .ignored accept
    | ingress pc => rw [pc, Intake.setEmit_self]; exact .ingress
    | loop pc => rw [pc, Intake.setEmit_self]; exact .loop
    | event pc event => rw [pc, Intake.setEmit_self]; exact .event event
    | released pc unset => rw [pc, Intake.setEmit_self]; exact .released unset
    | entered pc put => rw [pc, Intake.setEmit_self]; exact .entered
    | full pc => rw [pc, Intake.setEmit_self]; exact .full
    | delivered pc => rw [pc, Intake.setEmit_self]; exact .delivered
  · cases hs <;> exact Intake.setEmit_ne _ _ hm

theorem Intake.emitStep_spec {x y : Intake k} {h : Handler k} {starts n : Nat}
    (hstep : x.emitStep h starts n = some y) : EmitStep x h starts n y := by
  unfold emitStep at hstep
  split at hstep
  case h_1 r hpc =>
    obtain rfl := Option.some.inj hstep
    split
    · rename_i haccept
      exact .accepted hpc haccept
    · rename_i haccept
      exact .ignored hpc (by simpa using haccept)
  case h_2 r hpc =>
    obtain rfl := Option.some.inj hstep
    exact .ingress hpc
  case h_3 r g hpc =>
    obtain rfl := Option.some.inj hstep
    exact .loop hpc
  case h_4 r gr lr hpc =>
    split at hstep
    · rename_i g e he
      obtain rfl := Option.some.inj hstep
      exact .event hpc he
    · rename_i hnone
      obtain rfl := Option.some.inj hstep
      refine .released hpc ?_
      by_contra hset
      rw [not_or, not_or] at hset
      obtain ⟨g, hg⟩ := Option.ne_none_iff_exists'.mp hset.1
      obtain ⟨e, he⟩ := Option.ne_none_iff_exists'.mp hset.2.2
      exact hnone g e hg (by simpa using hset.2.1) he
  case h_5 r g e hpc =>
    cases hput : x.put n g r starts with
    | none =>
      simp only [hput] at hstep
      obtain rfl := Option.some.inj hstep
      exact .full hpc
    | some z =>
      simp only [hput] at hstep
      obtain rfl := Option.some.inj hstep
      obtain ⟨q, hq, rfl⟩ := Option.map_eq_some_iff.mp hput
      exact .entered hpc hq
  case h_6 g e hpc =>
    obtain rfl := Option.some.inj hstep
    exact .delivered hpc
  all_goals exact absurd hstep (by simp)

-- ---------------------------------------------------------------------------
-- What a step does to the intake and the backends
-- ---------------------------------------------------------------------------

namespace Pipeline

variable {cfg : Config k} {s t : Pipeline cfg} {a : PipelineAct cfg}

/-- Someone is about to take a record out of ingress `g` for the backends. -/
def Mover (s : Pipeline cfg) (g : Nat) : Prop :=
  (∃ b e, (s.bridge b).pc = .moving g e) ∨ (s.life = .flushing ∧ s.handler.ingress = some g)

/-- What a step that moves no record can do to backend `i`. -/
inductive DeskChange (s t : Pipeline cfg) (a : PipelineAct cfg) (i : Fin k) : Prop
  | keep (desk : t.desks i = s.desks i)
  | work {c : Nat} {act : (cfg.worker i).Act} (is : a = .worker i c act)
      (desk : (s.desks i).work s.handler.loggingRunningEvent c act = some (t.desks i))
  | cancel {p : Nat → Bool}
      (who : (∃ c, a = .cancelWorker i c) ∨ s.life = .gathering ∨ s.life = .timedOut)
      (desk : t.desks i = (s.desks i).cancelIf p)
  | hire (is : a = .advance) (life : s.life = .startWorkers)
      (desk : t.desks i = (s.desks i).hire s.starts)
  | rebase (life : s.life = .idle) (starts : t.starts = s.starts + 1)
      (desk : t.desks i = { s.desks i with base := (s.desks i).ledger.log.length })
  | status {xs : List Item} (life : ∃ ds, s.life = .draining ds)
      (left : t.life = .gathering ∨ t.life = .clearing 0)
      (items : ∀ x ∈ xs, ∃ r, x = .status s.starts r)
      (desk : t.desks i = (s.desks i).offerAll xs)
  | clear {l : Ledger Item Outcome} (life : s.life = .clearing i)
      (cleared : (s.desks i).ledger.clear .dropped = some l)
      (desk : t.desks i = { s.desks i with ledger := l })

/-- What a step that moves no record can do to the intake. -/
inductive IntakeChange (s t : Pipeline cfg) (a : PipelineAct cfg) : Prop
  | keep (intake : t.intake = s.intake)
  | call {r : LogRecord}
      (intake : t.intake =
        { s.intake with calls := s.intake.calls + 1 }.setEmit s.intake.calls (.called r))
      (is : a = .emitCall r)
  | emit {n : Nat} (is : a = .emit n)
      (step : EmitStep s.intake s.handler s.starts n t.intake)
  | event {f : Nat → EventState} (intake : t.intake = { s.intake with event := f })
  | discard {g : Nat} {e : Emitted} {q : BoundedQueue Emitted} (life : s.life = .clearingIngress)
      (ingress : s.handler.ingress = some g)
      (get : (s.intake.ingress g).getNowait = some (e, q))
      (intake : t.intake =
        { s.intake with ingress := Function.update s.intake.ingress g q }.addTaken
          ⟨g, e.call, none⟩)
  | renew {m : Nat} (life : s.life = .startIngress m)
      (intake : t.intake =
        { s.intake with ingress := Function.update s.intake.ingress s.starts (.new m) })

/-- What a step can do to the intake and the backends. -/
inductive Changed (s t : Pipeline cfg) (a : PipelineAct cfg) : Prop
  | moved {g : Nat} {e : Emitted} {q : BoundedQueue Emitted} (mover : s.Mover g)
      (get : (s.intake.ingress g).getNowait = some (e, q)) (handler : t.handler = s.handler)
      (life : t.life = s.life) (starts : t.starts = s.starts)
      (intake : t.intake =
        ({ s.intake with ingress := Function.update s.intake.ingress g q }.addTaken
          ⟨g, e.call, some fun i => (s.desks i).refuses (.emitted e)⟩).addReports
            (((List.finRange k).filter fun i => (s.desks i).refuses (.emitted e)).map
              (.queueFull · e.call)))
      (desks : ∀ i, t.desks i = (s.desks i).offer (.emitted e))
  | other (intake : IntakeChange s t a) (desk : ∀ i, DeskChange s t a i)

/-- One turn of a moving loop takes the head of the ingress. -/
theorem moveOne_eq_some {g : Nat} (h : s.moveOne g = some t) :
    ∃ e q, (s.intake.ingress g).getNowait = some (e, q) ∧
      t = { s with
        intake := { s.intake with ingress := Function.update s.intake.ingress g q } }.fanOut g e := by
  obtain ⟨p, hp, rfl⟩ := Option.map_eq_some_iff.mp h
  obtain ⟨⟨e, q⟩, hget, rfl⟩ := Option.map_eq_some_iff.mp hp
  exact ⟨e, q, hget, rfl⟩

theorem moveOne_eq_none {g : Nat} : s.moveOne g = none ↔ (s.intake.ingress g).items = [] := by
  rw [moveOne, Option.map_eq_none_iff, Intake.take, Option.map_eq_none_iff,
    BoundedQueue.getNowait_eq_none]

-- The three statements of the host's calls that branch.

theorem advance_flushing (hlife : s.life = .flushing) (h : s.advance = some t) :
    (s.handler.ingress = none ∧ t = s.setLife (.draining fun _ => .joining)) ∨
      ∃ g, s.handler.ingress = some g ∧ (s.moveOne g = some t ∨ s.moveOne g = none ∧
        t = { s with
          life := .draining fun _ => .joining
          flushed := Function.update s.flushed g (some (s.intake.entered g)) }) := by
  simp only [advance, hlife] at h
  cases hg : s.handler.ingress with
  | none =>
    rw [hg] at h
    exact .inl ⟨rfl, (Option.some.inj h).symm⟩
  | some g =>
    rw [hg] at h
    refine .inr ⟨g, rfl, ?_⟩
    cases hm : s.moveOne g with
    | none =>
      simp only [hm] at h
      exact .inr ⟨rfl, (Option.some.inj h).symm⟩
    | some u =>
      simp only [hm] at h
      exact .inl h

theorem advance_clearing {n : Nat} (hlife : s.life = .clearing n) (h : s.advance = some t) :
    (∃ hn : n < k, ∃ l, (s.desks ⟨n, hn⟩).ledger.clear .dropped = some l ∧
      t = { s with
        life := .clearing (n + 1)
        desks := Function.update s.desks ⟨n, hn⟩ { s.desks ⟨n, hn⟩ with ledger := l } }) ∨
      (∃ hn : n < k, (s.desks ⟨n, hn⟩).ledger.clear .dropped = none ∧ t = s.setLife .idle) ∨
      (k ≤ n ∧ t = s.setLife .clearingIngress) := by
  simp only [advance, hlife] at h
  split at h
  · rename_i hn
    cases hl : (s.desks ⟨n, hn⟩).ledger.clear .dropped with
    | none =>
      simp only [hl] at h
      exact .inr (.inl ⟨hn, hl, (Option.some.inj h).symm⟩)
    | some l =>
      simp only [hl] at h
      exact .inl ⟨hn, l, hl, (Option.some.inj h).symm⟩
  · exact .inr (.inr ⟨by omega, (Option.some.inj h).symm⟩)

theorem advance_clearingIngress (hlife : s.life = .clearingIngress) (h : s.advance = some t) :
    t = s.setLife .releaseLoop ∨
      ∃ g e q, s.handler.ingress = some g ∧ (s.intake.ingress g).getNowait = some (e, q) ∧
        t = { s with
          intake :=
            { s.intake with ingress := Function.update s.intake.ingress g q }.addTaken
              ⟨g, e.call, none⟩ } := by
  simp only [advance, hlife] at h
  cases hg : s.handler.ingress with
  | none =>
    rw [hg] at h
    exact .inl (Option.some.inj h).symm
  | some g =>
    rw [hg] at h
    cases hx : s.intake.take g with
    | none =>
      simp only [hx] at h
      exact .inl (Option.some.inj h).symm
    | some p =>
      simp only [hx] at h
      obtain ⟨⟨e, q⟩, hget, rfl⟩ := Option.map_eq_some_iff.mp hx
      refine .inr ⟨g, e, q, rfl, hget, ?_⟩
      rw [hlife]
      exact (Option.some.inj h).symm

theorem drainStep_eq_some {i : Fin k} {next : DrainPc → Option DrainPc}
    (h : s.drainStep i next = some t) :
    ∃ ds d, s.life = .draining ds ∧ next (ds i) = some d ∧
      t = s.setLife (.draining (Function.update ds i d)) := by
  unfold drainStep at h
  split at h
  · rename_i ds hlife
    obtain ⟨d, hd, rfl⟩ := Option.map_eq_some_iff.mp h
    exact ⟨ds, d, hlife, hd, rfl⟩
  · exact absurd h (by simp)

theorem reportResults_desks (s : Pipeline cfg) (rs : List DrainStatus)
    (times : Fin k → Fin k → String) :
    (s.reportResults rs times).desks = (s.reportStatus rs times).desks ∧
      (s.reportResults rs times).intake = s.intake ∧
      ((s.reportResults rs times).life = .gathering ∨ (s.reportResults rs times).life = .clearing 0) := by
  unfold reportResults
  split
  · exact ⟨rfl, rfl, .inr rfl⟩
  · exact ⟨rfl, rfl, .inl rfl⟩

/-- The items a reporter puts into its own queue. -/
theorem reportStatus_desk (s : Pipeline cfg) (rs : List DrainStatus)
    (times : Fin k → Fin k → String) (i : Fin k) :
    ∃ xs, (∀ x ∈ xs, ∃ r, x = Item.status s.starts r) ∧
      (s.reportStatus rs times).desks i = (s.desks i).offerAll xs := by
  by_cases hr : cfg.reporter i = true
  · refine ⟨_, ?_, if_pos hr⟩
    intro x hx
    obtain ⟨p, -, rfl⟩ := List.mem_map.mp hx
    exact ⟨_, rfl⟩
  · exact ⟨[], by simp, if_neg hr⟩

/-- A step that leaves the intake and the backends alone. -/
private theorem Changed.none (hi : t.intake = s.intake) (hd : t.desks = s.desks) :
    Changed s t a :=
  .other (.keep hi) fun i => .keep (by rw [hd])

private theorem moveOne_changed {g : Nat} (hm : s.Mover g) (h : s.moveOne g = some t) :
    Changed s t a := by
  obtain ⟨e, q, hget, rfl⟩ := moveOne_eq_some h
  exact .moved hm hget rfl rfl rfl rfl fun _ => rfl

private theorem bridgeStep_changed {b : Nat} (h : s.bridgeStep b = some t) : Changed s t a := by
  unfold bridgeStep at h
  split at h
  case h_7 g e hpc =>
    split at h
    · rename_i hm
      obtain rfl := Option.some.inj h
      exact moveOne_changed (.inl ⟨b, e, hpc⟩) hm
    · obtain rfl := Option.some.inj h
      exact .none rfl rfl
  case h_4 =>
    split at h
    · obtain rfl := Option.some.inj h
      exact .none rfl rfl
    · obtain rfl := Option.some.inj h
      exact .none rfl rfl
  case h_5 =>
    split at h
    · obtain rfl := Option.some.inj h
      exact .other (.event rfl) fun _ => .keep rfl
    · obtain rfl := Option.some.inj h
      exact .none rfl rfl
  case h_6 =>
    obtain rfl := Option.some.inj h
    exact .other (.event rfl) fun _ => .keep rfl
  case h_1 | h_2 | h_3 =>
    obtain rfl := Option.some.inj h
    exact .none rfl rfl
  all_goals exact absurd h (by simp)

private theorem advance_changed (his : a = .advance) (h : s.advance = some t) :
    Changed s t a := by
  cases hlife : s.life with
  | startBridge | releaseLoop | releaseIngress | releaseEvent =>
    rw [advance, hlife] at h
    obtain rfl := Option.some.inj h
    exact .none rfl rfl
  | startIngress m =>
    rw [advance, hlife] at h
    obtain rfl := Option.some.inj h
    exact .other (.renew hlife rfl) fun _ => .keep rfl
  | startEvent =>
    rw [advance, hlife] at h
    obtain rfl := Option.some.inj h
    exact .other (.event rfl) fun _ => .keep rfl
  | startWorkers =>
    rw [advance, hlife] at h
    obtain rfl := Option.some.inj h
    exact .other (.keep rfl) fun _ => .hire his hlife rfl
  | flushing =>
    rcases advance_flushing hlife h with ⟨-, rfl⟩ | ⟨g, hg, hm | ⟨-, rfl⟩⟩
    · exact .none rfl rfl
    · exact moveOne_changed (.inr ⟨hlife, hg⟩) hm
    · exact .none rfl rfl
  | clearing n =>
    rcases advance_clearing hlife h with ⟨hn, l, hl, rfl⟩ | ⟨-, -, rfl⟩ | ⟨-, rfl⟩
    · refine .other (.keep rfl) fun i => ?_
      by_cases hi : i = ⟨n, hn⟩
      · subst hi
        exact .clear hlife hl (Function.update_self ..)
      · exact .keep (Function.update_of_ne hi _ _)
    · exact .none rfl rfl
    · exact .none rfl rfl
  | clearingIngress =>
    rcases advance_clearingIngress hlife h with rfl | ⟨g, e, q, hg, hget, rfl⟩
    · exact .none rfl rfl
    · exact .other (.discard hlife hg hget rfl) fun _ => .keep rfl
  | idle | awaitBridge | draining _ | gathering | timedOut | reaping =>
    rw [advance, hlife] at h
    exact absurd h (by simp)

/-- **What a step does.** -/
theorem step_changed (h : s.step a = some t) : Changed s t a := by
  cases a with
  | emitCall r =>
    obtain rfl := Option.some.inj h
    exact .other (.call rfl rfl) fun _ => .keep rfl
  | emit n =>
    obtain ⟨x, hx, rfl⟩ := Option.map_eq_some_iff.mp h
    exact .other (.emit rfl (Intake.emitStep_spec hx)) fun _ => .keep rfl
  | runSet e =>
    rw [step] at h
    split at h
    · exact absurd h (by simp)
    · obtain rfl := Option.some.inj h
      exact .other (.event rfl) fun _ => .keep rfl
  | bridge b => exact bridgeStep_changed h
  | worker j c act =>
    obtain ⟨d, hd, rfl⟩ := Option.map_eq_some_iff.mp h
    refine .other (.keep rfl) fun i => ?_
    by_cases hi : i = j
    · subst hi
      refine .work rfl ?_
      show _ = some (Function.update s.desks i d i)
      rw [Function.update_self, hd]
    · exact .keep (Function.update_of_ne hi _ _)
  | cancelWorker j c =>
    obtain rfl := Option.some.inj h
    refine .other (.keep rfl) fun i => ?_
    by_cases hi : i = j
    · subst hi
      exact .cancel (.inl ⟨c, rfl⟩) (Function.update_self ..)
    · exact .keep (Function.update_of_ne hi _ _)
  | close =>
    obtain rfl := Option.some.inj h
    exact .none rfl rfl
  | start m =>
    rw [step] at h
    split at h
    · rename_i hlife
      split at h
      · obtain rfl := Option.some.inj h
        exact .other (.keep rfl) fun _ => .rebase hlife rfl rfl
      · exact absurd h (by simp)
    · exact absurd h (by simp)
  | stop =>
    rw [step] at h
    split at h
    · obtain rfl := Option.some.inj h
      unfold stopLogging
      split
      · exact .none rfl rfl
      · exact .none rfl rfl
    · exact absurd h (by simp)
  | advance => exact advance_changed rfl h
  | bridgeAwaited =>
    rw [step] at h
    split at h
    · obtain rfl := Option.some.inj h
      exact .none rfl rfl
    · split at h
      · obtain rfl := Option.some.inj h
        exact .none rfl rfl
      · obtain rfl := Option.some.inj h
        exact .none rfl rfl
      · exact absurd h (by simp)
    · exact absurd h (by simp)
  | joined j | drainReturns j | drainTimesOut j | drainFails j exc =>
    rw [step] at h
    obtain ⟨ds, d, -, -, rfl⟩ := drainStep_eq_some h
    exact .none rfl rfl
  | report times =>
    rw [step] at h
    split at h
    · rename_i ds hlife
      obtain ⟨rs, -, rfl⟩ := Option.map_eq_some_iff.mp h
      obtain ⟨hdesks, hintake, hlife'⟩ := reportResults_desks s rs times
      refine .other (.keep hintake) fun i => ?_
      obtain ⟨xs, hxs, hdesk⟩ := reportStatus_desk s rs times i
      exact .status ⟨ds, hlife⟩ hlife' hxs (by rw [hdesks, hdesk])
    · exact absurd h (by simp)
  | deadline =>
    rw [step] at h
    split at h
    · rename_i hlife
      obtain rfl := Option.some.inj h
      exact .other (.keep rfl) fun _ => .cancel (.inr (.inl hlife)) rfl
    · exact absurd h (by simp)
  | gatherEnds =>
    rw [step] at h
    split at h
    · rename_i hlife
      split at h
      · obtain rfl := Option.some.inj h
        exact .other (.keep rfl) fun _ => .cancel (.inr (.inr hlife)) rfl
      · exact absurd h (by simp)
    · exact absurd h (by simp)
  | gathered | gatherRaises | gatherEndsRaising | reaped =>
    rw [step] at h
    split at h
    · split at h
      · obtain rfl := Option.some.inj h
        exact .none rfl rfl
      · exact absurd h (by simp)
    · exact absurd h (by simp)

/-- What a step does to a call of `emit`. -/
theorem step_emits (h : s.step a = some t) (n : Nat) :
    t.intake.emits n = s.intake.emits n ∨
      (n = s.intake.calls ∧ ∃ r, t.intake.emits n = .called r) ∨
      EmitPc.Next s.handler (s.intake.emits n) (t.intake.emits n) := by
  cases step_changed h with
  | moved _ _ _ _ _ intake _ =>
    rw [intake]
    exact .inl rfl
  | other hintake _ =>
    cases hintake with
    | keep intake | event intake | discard _ _ _ intake | renew _ intake =>
      rw [intake]
      exact .inl rfl
    | @call r intake =>
      rw [intake]
      by_cases hn : n = s.intake.calls
      · rw [hn, Intake.setEmit_self]
        exact .inr (.inl ⟨rfl, r, rfl⟩)
      · exact .inl (Intake.setEmit_ne _ _ hn)
    | @emit m _ step =>
      obtain ⟨hnext, hother⟩ := step.next
      by_cases hn : n = m
      · rw [hn]
        exact .inr (.inr hnext)
      · exact .inl (hother n hn)

/-- Every backend queue agrees with its history. -/
theorem desks_sound {ok : Pipeline cfg → PipelineAct cfg → Prop}
    (h : (pipeline cfg).Reachable ok s) (i : Fin k) : (s.desks i).Sound := by
  refine Machine.invariant (I := fun s => (s.desks i).Sound) ?_ ?_ h
  · rintro s rfl
    exact .new _ _
  · intro s a t hs _ hstep
    cases step_changed hstep with
    | moved _ _ _ _ _ _ desks => rw [desks]; exact hs.offer _
    | other _ desk =>
      cases desk i with
      | keep desk => rw [desk]; exact hs
      | work _ desk => exact hs.work desk
      | cancel _ desk => rw [desk]; exact hs.cancelIf _
      | hire _ _ desk => rw [desk]; exact hs.hire _
      | rebase _ _ desk => rw [desk]; exact ⟨hs.ledger, hs.holds, hs.apart⟩
      | status _ _ _ desk => rw [desk]; exact hs.offerAll _
      | clear _ cleared desk =>
        obtain ⟨l, hl, hc⟩ := hs.clear
        obtain rfl := Option.some.inj (hl.symm.trans cleared)
        rw [desk]
        exact hc.sound

/-- A step that moves no record puts none but status records into a backend queue. -/
theorem DeskChange.log {i : Fin k} (h : DeskChange s t a i) (hs : (s.desks i).Sound) :
    ∃ ys, (t.desks i).ledger.log = (s.desks i).ledger.log ++ ys ∧
      ∀ y ∈ ys, ∃ r, y = Item.status s.starts r := by
  cases h with
  | keep desk | cancel _ desk | hire _ _ desk | rebase _ _ desk =>
    rw [desk]
    exact ⟨[], (List.append_nil _).symm, nofun⟩
  | work _ desk =>
    rw [(Desk.work_hand desk hs).log_eq]
    exact ⟨[], (List.append_nil _).symm, nofun⟩
  | @status xs _ _ items desk =>
    rw [desk, (Desk.offerAll_spec (s.desks i) xs).log]
    exact ⟨_, rfl, fun y hy => items y ((BoundedQueue.admits_sublist _ _).subset hy)⟩
  | clear _ cleared desk =>
    obtain ⟨l, hl, hc⟩ := hs.clear
    obtain rfl := Option.some.inj (hl.symm.trans cleared)
    rw [desk, hc.log]
    exact ⟨[], (List.append_nil _).symm, nofun⟩

/-- **What a desk keeps**: what a segment of a worker, growing, a new worker and the teardown
leave true. -/
theorem Changed.desk (h : Changed s t a) {i : Fin k} (hs : (s.desks i).Sound)
    {I : Desk (cfg.worker i) → Prop}
    (hwork : ∀ c act d, a = .worker i c act →
      (s.desks i).work s.handler.loggingRunningEvent c act = some d → I d)
    (hgrows : ∀ d, (s.desks i).Grows d → I d) (hhire : I ((s.desks i).hire s.starts))
    (hclear : ∀ d, (s.desks i).Cleared d → I d) : I (t.desks i) := by
  cases h with
  | moved _ _ _ _ _ _ desks =>
    rw [desks]
    exact hgrows _ (Desk.grows_offer _ _)
  | other _ desk =>
    cases desk i with
    | keep desk =>
      rw [desk]
      exact hgrows _ ⟨rfl, ⟨[], (List.append_nil _).symm⟩, rfl, rfl, fun _ => .inl rfl⟩
    | work is desk => exact hwork _ _ _ is desk
    | cancel _ desk =>
      rw [desk]
      exact hgrows _ (Desk.grows_cancelIf _ _)
    | hire _ _ desk =>
      rw [desk]
      exact hhire
    | rebase _ _ desk =>
      rw [desk]
      exact hgrows _ ⟨rfl, ⟨[], (List.append_nil _).symm⟩, rfl, rfl, fun _ => .inl rfl⟩
    | status _ _ _ desk =>
      rw [desk]
      exact hgrows _ (Desk.grows_offerAll _ _)
    | clear _ cleared desk =>
      obtain ⟨l, hl, hclear'⟩ := hs.clear
      obtain rfl := Option.some.inj (cleared.symm.trans hl)
      rw [desk]
      exact hclear _ hclear'

end Pipeline

end ScietexLogging
