import ScietexLogging.Pipeline.Drain
import ScietexLogging.Pipeline.Restart

/-!
# Pipeline — what the reporters say

When its drains are over, `stop_logging` hands their results to the reporters, and each of
these puts a status record of every backend into its own queue, as far as there is room. Such
a record says what became of the records of a whole cycle, and is read long after that.

* `statusRecord_inj` — which backend it is of and how its drain ended can be read off it;
* `DrainReport`      — what the reporters were told, and what of it their queues have room for;
* `Reporting`        — the reports of a run, and what the queues have of them;
* `reporters_agree`  — one report of each cycle, and every queue has of all of them what fitted;
* `completed_true`   — the record that says `COMPLETED` is true.
-/

namespace ScietexLogging

open Asyncio

variable {k : Nat}

-- ---------------------------------------------------------------------------
-- Status records
-- ---------------------------------------------------------------------------

/-- A status record says how the drain ended, and of which backend. -/
theorem statusRecord_inj {l l' : String} {st st' : DrainStatus} {time time' : String}
    (h : statusRecord l st time = statusRecord l' st' time') :
    l = l' ∧ st = st' ∧ time = time' := by
  obtain ⟨hlevel, hname, hmessage, htime⟩ := LogRecord.mk.inj h
  have hl : l = l' := by
    have hlist := congrArg String.toList hname
    rw [String.toList_append, String.toList_append] at hlist
    exact String.toList_inj.mp (List.append_cancel_right hlist)
  subst hl
  refine ⟨rfl, ?_, Except.ok.inj htime⟩
  have hchars := congrArg String.toList (Except.ok.inj hmessage)
  cases st with
  | completed =>
    cases st' with
    | completed => rfl
    | timeout | error _ => exact absurd (show (20 : Int) = 40 from hlevel) (by decide)
  | timeout =>
    cases st' with
    | completed => exact absurd (show (40 : Int) = 20 from hlevel) (by decide)
    | timeout => rfl
    | error e =>
      -- one begins with "T", the other with "E"
      rw [String.toList_append, String.toList_append, String.toList_append, String.toList_append,
        String.toList_append] at hchars
      exact absurd (List.cons.inj hchars).1 (by decide)
  | error e =>
    cases st' with
    | completed => exact absurd (show (40 : Int) = 20 from hlevel) (by decide)
    | timeout =>
      rw [String.toList_append, String.toList_append, String.toList_append, String.toList_append,
        String.toList_append] at hchars
      exact absurd (List.cons.inj hchars).1 (by decide)
    | error e' =>
      simp only [String.toList_append] at hchars
      rw [String.toList_inj.mp (List.append_cancel_left hchars)]

/-- A status record, with the cycle it is of. -/
def Item.status? : Item → Option (Nat × LogRecord)
  | .emitted _ => none
  | .status c r => some (c, r)

/-- The status records that were put into the queue. -/
def Desk.statuses {C : Consumer Item Outcome} (d : Desk C) : List (Nat × LogRecord) :=
  d.ledger.log.filterMap Item.status?

/-- What a `stop_logging` told the reporters: the state they were told in, the results of the
drains, and when each of them made its record of each backend. -/
structure DrainReport (cfg : Config k) where
  found : Pipeline cfg
  results : List DrainStatus
  times : Fin k → Fin k → String

namespace DrainReport

variable {cfg : Config k}

/-- The cycle it is of. -/
def cycle (r : DrainReport cfg) : Nat := r.found.starts

/-- The status records reporter `i` makes, one of each backend in registration order. -/
def records (r : DrainReport cfg) (i : Fin k) : List (Nat × LogRecord) :=
  ((List.finRange k).zip r.results).map fun p =>
    (r.cycle, statusRecord (cfg.label p.1) p.2 (r.times i p.1))

/-- Those that its queue had room for. -/
def admitted (r : DrainReport cfg) (i : Fin k) : List (Nat × LogRecord) :=
  (r.found.desks i).ledger.queue.admits (r.records i)

/-- A status record is of a backend, and of the result of its drain. -/
theorem mem_admitted {r : DrainReport cfg} {i : Fin k} {c : Nat} {rec : LogRecord}
    (h : (c, rec) ∈ r.admitted i) :
    c = r.cycle ∧ ∃ j : Fin k, ∃ st, r.results[j.val]? = some st ∧
      rec = statusRecord (cfg.label j) st (r.times i j) := by
  obtain ⟨⟨j, st⟩, hmem, heq⟩ := List.mem_map.mp ((BoundedQueue.admits_sublist _ _).subset h)
  obtain ⟨rfl, rfl⟩ := Prod.mk.inj heq
  obtain ⟨n, hn⟩ := List.mem_iff_getElem?.mp hmem
  obtain ⟨hj, hst⟩ := List.getElem?_zip_eq_some.mp hn
  -- the backends stand at their own positions
  obtain ⟨hlt, hj⟩ := List.getElem?_eq_some_iff.mp hj
  rw [List.getElem_finRange] at hj
  obtain rfl : n = j.val := congrArg Fin.val hj
  exact ⟨rfl, j, st, hst, rfl⟩

end DrainReport

-- ---------------------------------------------------------------------------
-- Where the host's call is
-- ---------------------------------------------------------------------------

/-- The host's call is in `stop_logging`, and not yet past the drains. -/
def Life.Stopping : Life k → Prop
  | .awaitBridge | .flushing | .draining _ => True
  | _ => False

/-- The reporters have been told, and logging has not been started since. -/
def Life.Told (running : Bool) : Life k → Prop
  | .idle => running = false
  | .gathering | .timedOut | .reaping | .clearing _ | .clearingIngress | .releaseLoop
  | .releaseIngress | .releaseEvent => True
  | _ => False

namespace Pipeline

variable {cfg : Config k} {s t : Pipeline cfg} {a : PipelineAct cfg}

private theorem Staffed.stopIgnored (hi : Staffed s) (hlife : s.life = .idle)
    (hrun : s.handler.loggingRunningEvent = false) : s.handler.stopIgnored = true := by
  rw [Handler.stopIgnored, hrun, (hi.stopped hlife hrun).tasks]
  rfl

private theorem HostStep.stopping {h : Handler k} {l : Life k} (step : HostStep s a h l)
    (hi : Staffed s) (hrun : s.life.Stopping → s.handler.loggingRunningEvent = true)
    (hl : l.Stopping) : h.loggingRunningEvent = true := by
  cases step with
  | close => exact hrun hl
  | stop life busy =>
    by_contra hnot
    rw [hi.stopIgnored life (by simpa using hnot)] at busy
    cases busy
  | bridgeAwaited life | flushed _ life _ | drain life _ => exact hrun (by rw [life]; trivial)
  | _ => exact hl.elim

/-- The drains of a cycle run while logging does, if no stop raises. -/
theorem stopping_running {ok : Pipeline cfg → PipelineAct cfg → Prop}
    (hok : ∀ s a, ok s a → Returning a) (h : (pipeline cfg).Reachable ok s)
    (hl : s.life.Stopping) : s.handler.loggingRunningEvent = true := by
  refine Machine.invariant_with (J := Staffed)
    (I := fun s => s.life.Stopping → s.handler.loggingRunningEvent = true)
    (fun s hs => staffed hok hs) ?_ ?_ h hl
  · rintro s rfl hl
    exact hl.elim
  · rintro s a t hi hrun - hstep hl
    cases step_hosted hstep with
    | same handler life _ _ =>
      rw [handler]
      exact hrun (life ▸ hl)
    | start _ _ eq =>
      rw [eq] at hl
      exact hl.elim
    | host step _ _ => exact step.stopping hi hrun hl

private theorem HostStep.told {h : Handler k} {l : Life k} (step : HostStep s a h l)
    (hc : Control s) (hi : Staffed s) (hsound : ∀ i, (s.desks i).Sound) (hok : Returning a)
    (ht : s.life.Told s.handler.loggingRunningEvent) : l.Told h.loggingRunningEvent := by
  cases step with
  | close => exact ht
  | stop life busy =>
    rw [life] at ht
    rw [hi.stopIgnored life ht] at busy
    cases busy
  | setIngress life | setEvent life | setBridge life | setWorkers life | bridgeAwaited life
  | bridgeRaised life _ | flushed _ life _ | drain life _ | reported life _
  | reportedNoWorkers life _ =>
    rw [life] at ht
    exact ht.elim
  | raise _ is =>
    rcases is with rfl | rfl
    · exact hok.elim
    · exact hok.elim
  | clearRaises life more fails =>
    obtain ⟨l, hl, -⟩ := (hsound ⟨_, more⟩).clear
    cases hl.symm.trans fails
  | releaseEvent life =>
    have hst := hc.stage
    rw [life] at hst
    exact hst.1.running
  | _ => trivial

private theorem HostStep.untold {h : Handler k} {l : Life k} (step : HostStep s a h l)
    (hrun : s.life.Stopping → s.handler.loggingRunningEvent = true)
    (hreport : ∀ ds, s.life = .draining ds → l ≠ .gathering ∧ l ≠ .clearing 0)
    (ht : ¬ s.life.Told s.handler.loggingRunningEvent) : ¬ l.Told h.loggingRunningEvent := by
  intro hl
  cases step with
  | close => exact ht hl
  | setWorkers => cases hl
  | bridgeRaised life _ =>
    have hup := hrun (by rw [life]; trivial)
    rw [show s.handler.loggingRunningEvent = false from hl] at hup
    cases hup
  | reported life _ => exact (hreport _ life).1 rfl
  | reportedNoWorkers life _ => exact (hreport _ life).2 rfl
  | raise life _ | forget life _ =>
    rcases life with life | life <;>
    · rw [life] at ht
      exact ht trivial
  | deadline life | reap life | clear _ life _ | clearRaises life _ _ | cleared life _ | emptied life
  | releaseLoop life | releaseIngress life | releaseEvent life =>
    rw [life] at ht
    exact ht trivial
  | _ => exact hl

/-- Nothing is moved or reported any more in the cycle. -/
theorem told_quiet (hc : Control s) (ht : s.life.Told s.handler.loggingRunningEvent) :
    (∀ g, ¬ s.Mover g) ∧ ∀ ds, s.life ≠ .draining ds := by
  have hgone : ¬ (s.bridge s.starts).pc.Alive := by
    have hst := hc.stage
    cases hlife : s.life with
    | idle =>
      rw [hlife] at ht hst
      rcases hst with hup | ⟨-, hb⟩ | hstuck
      · cases hup.running.symm.trans ht
      · exact hb
      · exact hstuck.gone
    | gathering | timedOut | reaping | clearing _ | clearingIngress | releaseLoop | releaseIngress
    | releaseEvent =>
      rw [hlife] at hst
      simp only [Stage] at hst
      tauto
    | _ =>
      rw [hlife] at ht
      exact ht.elim
  refine ⟨fun g hm => ?_, fun ds hl => ?_⟩
  · rcases hm with ⟨b, e, hpc⟩ | ⟨hl, -⟩
    · have halive : (s.bridge b).pc.Alive := by rw [hpc]; trivial
      by_cases hb : b = s.starts
      · exact hgone (hb ▸ halive)
      · exact hc.old b hb halive
    · rw [hl] at ht
      exact ht
  · rw [hl] at ht
    exact ht

-- ---------------------------------------------------------------------------
-- What is put into a queue, and when
-- ---------------------------------------------------------------------------

/-- The entries of a queue are of the cycles so far, and those before its `base` of earlier
ones. -/
structure Filed (s : Pipeline cfg) (i : Fin k) : Prop where
  base_le : (s.desks i).base ≤ (s.desks i).ledger.log.length
  cycle : ∀ (p : Nat) x, (s.desks i).ledger.log[p]? = some x → x.cycle ≤ s.starts
  older : ∀ (p : Nat) x, (s.desks i).ledger.log[p]? = some x → p < (s.desks i).base →
    x.cycle < s.starts

/-- The entry that is moved is of the current cycle. -/
theorem moved_cycle (hc : Control s) (hd : Dated s) {g : Nat} {e : Emitted} {q : BoundedQueue Emitted}
    (hm : s.Mover g) (hget : (s.intake.ingress g).getNowait = some (e, q)) : e.cycle = s.starts := by
  have hdated := hd g e (by rw [(BoundedQueue.getNowait_eq_some.mp hget).2]; exact List.mem_cons_self)
  rw [hc.mover hm] at hdated
  exact Nat.le_antisymm hdated.2 hdated.1

/-- What a step puts into a queue is of the current cycle; nothing is taken back. -/
structure Appends (s t : Pipeline cfg) (i : Fin k) (xs : List Item) : Prop where
  log : (t.desks i).ledger.log = (s.desks i).ledger.log ++ xs
  cycle : ∀ x ∈ xs, x.cycle = s.starts
  acks : ∀ p < (s.desks i).ledger.log.length, ∀ f ∈ (s.desks i).ledger.acks p,
    f ∈ (t.desks i).ledger.acks p
  moved : ∀ e, .emitted e ∈ xs → ∃ g, s.Mover g
  base : (t.desks i).base = (s.desks i).base ∨ t.starts = s.starts + 1

private theorem Appends.nil {i : Fin k} (hlog : (t.desks i).ledger.log = (s.desks i).ledger.log)
    (hacks : ∀ p, ∀ f ∈ (s.desks i).ledger.acks p, f ∈ (t.desks i).ledger.acks p)
    (hbase : (t.desks i).base = (s.desks i).base ∨ t.starts = s.starts + 1) : Appends s t i [] where
  log := hlog.trans (List.append_nil _).symm
  cycle := fun _ hx => absurd hx List.not_mem_nil
  acks := fun p _ => hacks p
  moved := fun _ hx => absurd hx List.not_mem_nil
  base := hbase

theorem step_appends (hc : Control s) (hd : Dated s) {i : Fin k} (hsound : (s.desks i).Sound)
    (h : s.step a = some t) : ∃ xs, Appends s t i xs := by
  cases step_changed h with
  | @moved g e q mover get _ _ _ _ desks =>
    have hspec := Desk.offer_spec (s.desks i) (.emitted e)
    by_cases hr : (s.desks i).refuses (.emitted e) = true
    · refine ⟨[], .nil ?_ (fun p f hf => ?_) (.inl ?_)⟩
      · rw [desks, hspec.log, if_pos hr]
      · rw [desks, hspec.acks]
        exact hf
      · rw [desks, hspec.base]
    · refine ⟨[.emitted e], ?_, fun x hx => ?_, fun p _ f hf => ?_, fun _ _ => ⟨g, mover⟩, .inl ?_⟩
      · rw [desks, hspec.log, if_neg hr]
      · rw [List.mem_singleton.mp hx]
        exact moved_cycle hc hd mover get
      · rw [desks, hspec.acks]
        exact hf
      · rw [desks, hspec.base]
  | other _ hdesk =>
    cases hdesk i with
    | keep desk | cancel _ desk | hire _ _ desk =>
      refine ⟨[], .nil ?_ (fun p f hf => ?_) (.inl ?_)⟩
      · exact (congrArg (fun d => d.ledger.log) desk).trans rfl
      · rw [desk]
        exact hf
      · exact (congrArg Desk.base desk).trans rfl
    | rebase _ starts desk =>
      refine ⟨[], .nil ?_ (fun p f hf => ?_) (.inr starts)⟩
      · exact (congrArg (fun d => d.ledger.log) desk).trans rfl
      · rw [desk]
        exact hf
    | work _ desk =>
      have hmoves := Desk.work_hand desk hsound
      exact ⟨[], .nil hmoves.log_eq (fun p f hf => hmoves.mem_acks hf) (.inl (Desk.work_spec desk).base)⟩
    | @status xs _ _ items desk =>
      have hspec := Desk.offerAll_spec (s.desks i) xs
      have hsub := BoundedQueue.admits_sublist (s.desks i).ledger.queue.toBoundedQueue xs
      refine ⟨_, by rw [desk, hspec.log], fun x hx => ?_, fun p _ f hf => ?_, fun e he => ?_,
        .inl (by rw [desk, hspec.base])⟩
      · obtain ⟨r, rfl⟩ := items x (hsub.subset hx)
        rfl
      · rw [desk, hspec.acks]
        exact hf
      · obtain ⟨r, hr⟩ := items _ (hsub.subset he)
        cases hr
    | clear _ cleared desk =>
      obtain ⟨l, hl, hcl⟩ := hsound.clear
      obtain rfl := Option.some.inj (hl.symm.trans cleared)
      refine ⟨[], .nil (by rw [desk, hcl.log]) (fun p f hf => ?_) (.inl (by rw [desk]))⟩
      have hlt : p < (s.desks i).ledger.taken := by
        by_contra hge
        rw [hsound.ledger.fresh p (by omega)] at hf
        cases hf
      rw [desk, hcl.old p hlt]
      exact hf

theorem filed {ok : Pipeline cfg → PipelineAct cfg → Prop} (h : (pipeline cfg).Reachable ok s)
    (i : Fin k) : Filed s i := by
  refine Machine.invariant_with (J := fun s => Control s ∧ Dated s ∧ (s.desks i).Sound)
    (I := fun s => Filed s i) (fun s hs => ⟨control hs, dated hs, desks_sound hs i⟩) ?_ ?_ h
  · rintro s rfl
    exact ⟨Nat.le_refl 0, fun _ _ hx => absurd hx nofun, fun _ _ hx _ => absurd hx nofun⟩
  · rintro s a t ⟨hc, hd, hsound⟩ hi - hstep
    rcases step_starts hstep with ⟨hstarts, -⟩ | ⟨m, -, -, rfl⟩
    · obtain ⟨xs, happ⟩ := step_appends hc hd hsound hstep
      have hbase := happ.base.resolve_right (by omega)
      have hle := hi.base_le
      refine ⟨?_, fun p x hx => ?_, fun p x hx hp => ?_⟩
      · rw [hbase, happ.log, List.length_append]
        omega
      · rw [happ.log] at hx
        rw [hstarts]
        rcases List.mem_append.mp (List.mem_of_getElem? hx) with hold | hnew
        · obtain ⟨q, hq⟩ := List.mem_iff_getElem?.mp hold
          exact hi.cycle q x hq
        · exact Nat.le_of_eq (happ.cycle x hnew)
      · rw [hbase] at hp
        rw [happ.log, List.getElem?_append_left (by omega)] at hx
        rw [hstarts]
        exact hi.older p x hx hp
    · refine ⟨Nat.le_refl _, fun p x hx => Nat.le_succ_of_le (hi.cycle p x hx), fun p x hx _ => ?_⟩
      exact Nat.lt_succ_of_le (hi.cycle p x hx)

-- ---------------------------------------------------------------------------
-- The reports of a run
-- ---------------------------------------------------------------------------

/-- Only the reporters take `stop_logging` past the drains. -/
private theorem report_of_left {ds : Fin k → DrainPc} (hlife : s.life = .draining ds)
    (left : t.life = .gathering ∨ t.life = .clearing 0) (h : s.step a = some t) :
    ∃ times, a = .report times := by
  have hleft : ∀ ds', t.life ≠ .draining ds' := by
    intro ds' hl
    rw [hl] at left
    rcases left with h | h <;> cases h
  have hdrain : ∀ i next, s.drainStep i next ≠ some t := by
    intro i next hd
    obtain ⟨ds', d, -, -, rfl⟩ := drainStep_eq_some hd
    exact hleft _ rfl
  cases a with
  | report times => exact ⟨times, rfl⟩
  | emitCall _ | cancelWorker _ _ | close =>
    obtain rfl := Option.some.inj h
    exact absurd hlife (hleft ds)
  | emit _ | worker _ _ _ =>
    obtain ⟨x, -, rfl⟩ := Option.map_eq_some_iff.mp h
    exact absurd hlife (hleft ds)
  | runSet e =>
    rw [Pipeline.step] at h
    split at h
    · cases h
    · obtain rfl := Option.some.inj h
      exact absurd hlife (hleft ds)
  | joined i | drainReturns i | drainTimesOut i | drainFails i _ =>
    rw [Pipeline.step] at h
    exact absurd h (hdrain i _)
  | bridge b => exact absurd ((bridgeStep_spec h).life.trans hlife) (hleft ds)
  | advance =>
    rw [Pipeline.step, Pipeline.advance, hlife] at h
    cases h
  | start _ | stop | gathered | gatherRaises | deadline | gatherEnds | gatherEndsRaising | reaped =>
    rw [Pipeline.step, hlife] at h
    cases h
  | bridgeAwaited =>
    rw [Pipeline.step, hlife] at h
    cases h

/-- The results stand in registration order. -/
theorem results_getElem? {ds : Fin k → DrainPc} {rs : List DrainStatus} (h : results ds = some rs)
    (i : Fin k) : rs[i.val]? = (ds i).status? := by
  have hmap : ∀ (is : List (Fin k)) rs, is.mapM (fun i => (ds i).status?) = some rs →
      is.map (fun i => (ds i).status?) = rs.map some := by
    intro is
    induction is with
    | nil =>
      intro rs hrs
      rw [← Option.some.inj hrs]
      rfl
    | cons i is ih =>
      intro rs hrs
      rw [List.mapM_cons] at hrs
      obtain ⟨st, hst, hrs⟩ := Option.bind_eq_some_iff.mp hrs
      obtain ⟨rs', hrs', hrs⟩ := Option.bind_eq_some_iff.mp hrs
      rw [← Option.some.inj hrs, List.map_cons, List.map_cons, hst, ih rs' hrs']
  have hat : ((List.finRange k).map fun i => (ds i).status?)[i.val]? = (rs.map some)[i.val]? :=
    congrArg (·[i.val]?) (hmap _ rs h)
  rw [List.getElem?_map, List.getElem?_map, List.getElem?_eq_getElem (by simp), List.getElem_finRange,
    Option.map_some] at hat
  obtain ⟨st, hst, heq⟩ := Option.map_eq_some_iff.mp hat.symm
  exact hst.trans heq

/-- Only the reporters put status records in. -/
private theorem DeskChange.statuses {i : Fin k} (h : DeskChange s t a i) (hsound : (s.desks i).Sound)
    (hstep : s.step a = some t) (hnot : ∀ times, a ≠ .report times) :
    (t.desks i).statuses = (s.desks i).statuses := by
  cases h with
  | keep desk | cancel _ desk | hire _ _ desk | rebase _ _ desk =>
    exact (congrArg Desk.statuses desk).trans rfl
  | work _ desk => rw [Desk.statuses, (Desk.work_hand desk hsound).log_eq, Desk.statuses]
  | status life left _ _ =>
    obtain ⟨ds, hlife⟩ := life
    obtain ⟨times, rfl⟩ := report_of_left hlife left hstep
    exact absurd rfl (hnot times)
  | clear _ cleared desk =>
    obtain ⟨l, hl, hcl⟩ := hsound.clear
    obtain rfl := Option.some.inj (hl.symm.trans cleared)
    rw [desk, Desk.statuses, hcl.log, Desk.statuses]

theorem statuses_step (hsound : ∀ i, (s.desks i).Sound) (h : s.step a = some t)
    (hnot : ∀ times, a ≠ .report times) (i : Fin k) : (t.desks i).statuses = (s.desks i).statuses := by
  cases step_changed h with
  | @moved g e q _ _ _ _ _ _ desks =>
    rw [desks, Desk.statuses, (Desk.offer_spec (s.desks i) (.emitted e)).log]
    split
    · rfl
    · rw [List.filterMap_append]
      exact List.append_nil _
  | other _ hdesk => exact (hdesk i).statuses (hsound i) h hnot

/-- What the reporters are told by a step. -/
def reported (s : Pipeline cfg) : PipelineAct cfg → List (DrainReport cfg)
  | .report times =>
    match s.life with
    | .draining ds => (results ds).toList.map fun rs => ⟨s, rs, times⟩
    | _ => []
  | _ => []

/-- What they are told along a schedule. -/
def reports (cfg : Config k) (as : List (PipelineAct cfg)) : List (DrainReport cfg) :=
  (pipeline cfg).trace reported (init cfg) as

theorem reported_nil (hnot : ∀ times, a ≠ .report times) : s.reported a = [] := by
  cases a with
  | report times => exact absurd rfl (hnot times)
  | _ => rfl

theorem report_eq_some {times : Fin k → Fin k → String} (h : s.step (.report times) = some t) :
    ∃ ds rs, s.life = .draining ds ∧ results ds = some rs ∧ t = s.reportResults rs times ∧
      s.reported (.report times) = [⟨s, rs, times⟩] := by
  rw [Pipeline.step] at h
  split at h
  · rename_i ds hlife
    obtain ⟨rs, hrs, rfl⟩ := Option.map_eq_some_iff.mp h
    refine ⟨ds, rs, hlife, hrs, rfl, ?_⟩
    rw [reported, hlife]
    show (results ds).toList.map _ = _
    rw [hrs]
    rfl
  · cases h

/-- What the reporters put in. -/
theorem statuses_report (s : Pipeline cfg) (rs : List DrainStatus) (times : Fin k → Fin k → String)
    (i : Fin k) :
    ((s.reportResults rs times).desks i).statuses = (s.desks i).statuses ++
      if cfg.reporter i then DrainReport.admitted ⟨s, rs, times⟩ i else [] := by
  rw [(reportResults_desks s rs times).1]
  show Desk.statuses (if cfg.reporter i = true then _ else _) = _
  split
  · rw [Desk.statuses, (Desk.offerAll_spec _ _).log, List.filterMap_append, Desk.statuses,
      DrainReport.admitted, DrainReport.records, BoundedQueue.admits_map, BoundedQueue.admits_map,
      List.filterMap_map]
    exact congrArg _ (congrFun (List.filterMap_eq_map' (f := fun p : Fin k × DrainStatus =>
      (s.starts, statusRecord (cfg.label p.1) p.2 (times i p.1)))) _)
  · rw [List.append_nil]

/-- `rs` are the reports that were made. Where one of them says of a backend that its drain
was completed, every record of the cycle was acknowledged with an outcome in `P`. -/
structure Reporting (P : Outcome → Prop) (s : Pipeline cfg) (rs : List (DrainReport cfg)) : Prop where
  told : s.life.Told s.handler.loggingRunningEvent → rs.map DrainReport.cycle = List.range' 1 s.starts
  untold : ¬ s.life.Told s.handler.loggingRunningEvent →
    rs.map DrainReport.cycle ++ [s.starts] = List.range' 1 s.starts
  queued : ∀ i, (s.desks i).statuses = if cfg.reporter i then rs.flatMap (·.admitted i) else []
  honest : ∀ r ∈ rs, ∀ i : Fin k, r.results[i.val]? = some .completed → ∀ (p : Nat) e,
    (s.desks i).ledger.log[p]? = some (.emitted e) → e.cycle = r.cycle →
      ∃ f ∈ (s.desks i).ledger.acks p, P f

namespace Reporting

variable {P : Outcome → Prop} {rs : List (DrainReport cfg)}

/-- A report of the current cycle has been made only when the reporters were told. -/
theorem past (hr : Reporting P s rs) {r : DrainReport cfg} (hmem : r ∈ rs) (hcycle : r.cycle = s.starts) :
    s.life.Told s.handler.loggingRunningEvent := by
  by_contra hnot
  have hnodup : (rs.map DrainReport.cycle ++ [s.starts]).Nodup := by
    rw [hr.untold hnot]
    exact List.nodup_range'
  have hdisjoint := (List.nodup_append.mp hnodup).2.2 r.cycle (List.mem_map_of_mem hmem) s.starts
    List.mem_cons_self
  exact hdisjoint hcycle

/-- What was said stays true. -/
theorem honest_step (hr : Reporting P s rs) (hc : Control s) (hd : Dated s)
    (hsound : ∀ i, (s.desks i).Sound) (h : s.step a = some t) {r : DrainReport cfg} (hmem : r ∈ rs)
    {i : Fin k} (hdone : r.results[i.val]? = some .completed) {p : Nat} {e : Emitted}
    (hp : (t.desks i).ledger.log[p]? = some (.emitted e)) (hcycle : e.cycle = r.cycle) :
    ∃ f ∈ (t.desks i).ledger.acks p, P f := by
  obtain ⟨xs, happ⟩ := step_appends hc hd (hsound i) h
  rw [happ.log] at hp
  rcases Nat.lt_or_ge p (s.desks i).ledger.log.length with hlt | hge
  · rw [List.getElem?_append_left hlt] at hp
    obtain ⟨f, hf, hP⟩ := hr.honest r hmem i hdone p e hp hcycle
    exact ⟨f, happ.acks p hlt f hf, hP⟩
  · -- nothing of the cycle is moved after its report
    rw [List.getElem?_append_right hge] at hp
    have hnew := List.mem_of_getElem? hp
    obtain ⟨g, hm⟩ := happ.moved e hnew
    have htold := hr.past hmem (hcycle.symm.trans (happ.cycle _ hnew))
    exact absurd hm ((told_quiet hc htold).1 g)

/-- A step that is none of the reporters'. -/
theorem quiet (hr : Reporting P s rs) (hc : Control s) (hd : Dated s) (hi : Staffed s)
    (hsound : ∀ i, (s.desks i).Sound)
    (hrun : s.life.Stopping → s.handler.loggingRunningEvent = true) (hok : Returning a)
    (h : s.step a = some t) (hnot : ∀ times, a ≠ .report times) : Reporting P t rs := by
  have hqueued : ∀ i, (t.desks i).statuses = if cfg.reporter i then rs.flatMap (·.admitted i) else [] :=
    fun i => (statuses_step hsound h hnot i).trans (hr.queued i)
  have hhonest := fun r hmem i hdone p e => hr.honest_step (r := r) (i := i) (p := p) (e := e) hc hd
    hsound h hmem hdone
  cases step_hosted h with
  | same handler life starts _ =>
    refine ⟨fun ht => ?_, fun ht => ?_, hqueued, hhonest⟩
    all_goals
      rw [handler, life] at ht
      rw [starts]
    · exact hr.told ht
    · exact hr.untold ht
  | host step starts _ =>
    have hleft : ∀ ds, s.life = .draining ds → t.life ≠ .gathering ∧ t.life ≠ .clearing 0 := by
      intro ds hlife
      refine ⟨fun hl => ?_, fun hl => ?_⟩
      · obtain ⟨times, heq⟩ := report_of_left hlife (.inl hl) h
        exact hnot times heq
      · obtain ⟨times, heq⟩ := report_of_left hlife (.inr hl) h
        exact hnot times heq
    refine ⟨fun ht => ?_, fun ht => ?_, hqueued, hhonest⟩
    · rw [starts]
      exact hr.told (by_contra fun hs => step.untold hrun hleft hs ht)
    · rw [starts]
      exact hr.untold fun hs => ht (step.told hc hi hsound hok hs)
  | start life may eq =>
    -- a start finds the cycle before it reported
    simp only [Handler.mayStart, Bool.and_eq_true, Bool.not_eq_true'] at may
    have hcycles := hr.told (by rw [life]; exact may.2)
    refine ⟨fun ht => ?_, fun _ => ?_, hqueued, hhonest⟩
    · rw [eq] at ht
      exact ht.elim
    · rw [eq]
      show _ ++ [s.starts + 1] = List.range' 1 (s.starts + 1)
      rw [hcycles, List.range'_concat, Nat.one_mul, Nat.add_comm]

/-- The reporters are told the results. -/
theorem report (hr : Reporting P s rs) (hc : Control s) (hd : Dated s)
    (hsound : ∀ i, (s.desks i).Sound) {times : Fin k → Fin k → String}
    (h : s.step (.report times) = some t)
    (htrue : ∀ ds, s.life = .draining ds → ∀ i, ds i = .done .completed → ∀ (p : Nat) e,
      (s.desks i).ledger.log[p]? = some (.emitted e) → e.cycle = s.starts →
        ∃ f ∈ (s.desks i).ledger.acks p, P f) :
    Reporting P t (rs ++ s.reported (.report times)) := by
  have hkept := fun r hmem i hdone p e => hr.honest_step (r := r) (i := i) (p := p) (e := e) hc hd
    hsound h hmem hdone
  obtain ⟨ds, results, hlife, hresults, rfl, hreported⟩ := report_eq_some h
  obtain ⟨hdesks, -, hnext⟩ := reportResults_desks s results times
  have hstarts : (s.reportResults results times).starts = s.starts := by
    unfold reportResults
    split <;> rfl
  have htold : (s.reportResults results times).life.Told
      (s.reportResults results times).handler.loggingRunningEvent := by
    rcases hnext with hl | hl <;> rw [hl] <;> trivial
  have hcycles := hr.untold (by rw [hlife]; exact id)
  rw [hreported]
  refine ⟨fun _ => ?_, fun hnot => absurd htold hnot, fun i => ?_, fun r hmem i hdone p e hp hcycle => ?_⟩
  · rw [List.map_append, hstarts]
    exact hcycles
  · rw [statuses_report, hr.queued i]
    split
    · rw [List.flatMap_append, List.flatMap_singleton]
    · rfl
  · rcases List.mem_append.mp hmem with hold | hnew
    · exact hkept r hold i hdone p e hp hcycle
    · obtain rfl := List.mem_singleton.mp hnew
      obtain ⟨xs, hxs, hdesk⟩ := reportStatus_desk s results times i
      have hspec := Desk.offerAll_spec (s.desks i) xs
      rw [hdesks, hdesk, hspec.log] at hp
      rw [hdesks, hdesk, hspec.acks]
      rcases Nat.lt_or_ge p (s.desks i).ledger.log.length with hlt | hge
      · rw [List.getElem?_append_left hlt] at hp
        have hcompleted : ds i = .done .completed := by
          have hstatus := (results_getElem? hresults i).symm.trans hdone
          cases hds : ds i with
          | done st =>
            rw [hds] at hstatus
            rw [Option.some.inj hstatus]
          | _ =>
            rw [hds] at hstatus
            cases hstatus
        exact htrue ds hlife i hcompleted p e hp hcycle
      · rw [List.getElem?_append_right hge] at hp
        obtain ⟨r, hr⟩ := hxs _ ((BoundedQueue.admits_sublist _ _).subset (List.mem_of_getElem? hp))
        cases hr

end Reporting

/-- **The reports of a run.** -/
theorem reporting {ok : Pipeline cfg → PipelineAct cfg → Prop} [∀ s a, Decidable (ok s a)]
    (hok : ∀ s a, ok s a → Returning a) {P : Outcome → Prop}
    (hP : ∀ s, (pipeline cfg).Reachable ok s → s.handler.loggingRunningEvent = true →
      ∀ i p f, (s.desks i).base ≤ p → f ∈ (s.desks i).ledger.acks p → P f)
    {as : List (PipelineAct cfg)} (h : (pipeline cfg).run ok (init cfg) as = some s) :
    Reporting P s (reports cfg as) := by
  refine Machine.run_rule (I := Reporting P) ?_ rfl ?_ h
  · intro s a t rs hs hr hoks hstep
    have hc := control hs
    have hd := dated hs
    have hi := staffed hok hs
    have hsound := fun i => desks_sound hs i
    by_cases hreport : ∃ times, a = .report times
    · obtain ⟨times, rfl⟩ := hreport
      refine hr.report hc hd hsound hstep fun ds hlife i hdone p e hp hcycle => ?_
      have hlt := (List.getElem?_eq_some_iff.mp hp).1
      obtain ⟨f, hf⟩ := List.exists_mem_of_ne_nil _ (joined_acked hs hlife (.inr hdone) p hlt)
      refine ⟨f, hf, hP s hs (stopping_running hok hs (by rw [hlife]; trivial)) i p f ?_ hf⟩
      -- what was put in before the start is of an earlier cycle
      by_contra hge
      have holder := (filed hs i).older p _ hp (Nat.lt_of_not_le hge)
      exact Nat.ne_of_lt holder hcycle
    · rw [reported_nil fun times heq => hreport ⟨times, heq⟩, List.append_nil]
      exact hr.quiet hc hd hi hsound (stopping_running hok hs) (hok _ _ hoks) hstep
        fun times heq => hreport ⟨times, heq⟩
  · refine ⟨fun _ => rfl, fun hnot => absurd rfl hnot, fun i => ?_,
      fun r hmem => absurd hmem List.not_mem_nil⟩
    exact (ite_self []).symm

-- ---------------------------------------------------------------------------
-- The main results
-- ---------------------------------------------------------------------------

/-- **All reporters say the same.** In every run in which no `stop_logging` raises, over any
number of cycles: the reporters are told the results of every cycle once, before it is over and
in the order of the cycles; each queue has of each report the records it had room for then, and
no other status record; and where a report says of a backend that its drain was completed, every
record of the cycle was acknowledged. -/
theorem reporters_agree {as : List (PipelineAct cfg)}
    (h : (pipeline cfg).run (fun _ => Returning) (init cfg) as = some s) :
    (s.life.Told s.handler.loggingRunningEvent →
      (reports cfg as).map DrainReport.cycle = List.range' 1 s.starts) ∧
    (¬ s.life.Told s.handler.loggingRunningEvent →
      (reports cfg as).map DrainReport.cycle ++ [s.starts] = List.range' 1 s.starts) ∧
    (∀ i, (s.desks i).statuses =
      if cfg.reporter i then (reports cfg as).flatMap (·.admitted i) else []) ∧
    ∀ r ∈ reports cfg as, ∀ i : Fin k, r.results[i.val]? = some .completed → ∀ (p : Nat) e,
      (s.desks i).ledger.log[p]? = some (.emitted e) → e.cycle = r.cycle →
        (s.desks i).ledger.acks p ≠ [] := by
  have hr := reporting (P := fun _ => True) (fun _ _ => id) (fun _ _ _ _ _ _ _ _ => trivial) h
  refine ⟨hr.told, hr.untold, hr.queued, fun r hmem i hdone p e hp hcycle => ?_⟩
  obtain ⟨f, hf, -⟩ := hr.honest r hmem i hdone p e hp hcycle
  exact List.ne_nil_of_mem hf

/-- The drain of the console times out: its queue has no room for the status record. -/
def unheard : List (PipelineAct oneConsole) :=
  twoRecords ++ [.advance, .drainTimesOut (Fin.last 0), .report fun _ _ => "1970-01-01T00:00:05+00:00"]

theorem reporters_agree_unheard : ∃ s, (pipeline oneConsole).run (fun _ => Returning) (init oneConsole)
      unheard = some s ∧ (reports oneConsole unheard).map (·.results) = [[.timeout]] ∧
    (s.desks 0).statuses = [] ∧
    (s.life.Told s.handler.loggingRunningEvent →
      (reports oneConsole unheard).map DrainReport.cycle = List.range' 1 s.starts) ∧
    (¬ s.life.Told s.handler.loggingRunningEvent →
      (reports oneConsole unheard).map DrainReport.cycle ++ [s.starts] = List.range' 1 s.starts) ∧
    (∀ i, (s.desks i).statuses =
      if oneConsole.reporter i then (reports oneConsole unheard).flatMap (·.admitted i) else []) ∧
    ∀ r ∈ reports oneConsole unheard, ∀ i : Fin 1, r.results[i.val]? = some .completed →
      ∀ (p : Nat) e, (s.desks i).ledger.log[p]? = some (.emitted e) → e.cycle = r.cycle →
        (s.desks i).ledger.acks p ≠ [] := by
  have hrun : ∃ s, (pipeline oneConsole).run (fun _ => Returning) (init oneConsole) unheard = some s ∧
      (reports oneConsole unheard).map (·.results) = [[.timeout]] ∧ (s.desks 0).statuses = [] :=
    ⟨_, rfl, rfl, rfl⟩
  obtain ⟨s, hs, hresults, hstatuses⟩ := hrun
  exact ⟨s, hs, hresults, hstatuses, reporters_agree hs⟩

/-- **A status record that says completed is true.** In every run in which no `stop_logging`
raises, nobody else cancels a worker and no worker lacks its formatter: where a queue has the
record which says that a backend has completed processing its queue in some cycle, a backend of
that name has written or sent every record of the cycle that was put into its queue, or has
reported that it could not. -/
theorem completed_true (h : (pipeline cfg).Reachable (fun s a => s.Undisturbed a ∧ Returning a) s)
    {i j : Fin k} {c : Nat} {time : String}
    (hmem : (c, statusRecord (cfg.label i) .completed time) ∈ (s.desks j).statuses) :
    ∃ i', cfg.label i' = cfg.label i ∧ ∀ (p : Nat) e,
      (s.desks i').ledger.log[p]? = some (.emitted e) → e.cycle = c →
        ∃ f, (s.desks i').ledger.acks p = [f] ∧
          (cfg.kind i').Handles (s.desks i').shared p (.emitted e) f := by
  have hundisturbed : ∀ s, (pipeline cfg).Reachable (fun s a => s.Undisturbed a ∧ Returning a) s →
      (pipeline cfg).Reachable Undisturbed s := fun s hs => hs.mono fun _ _ hok => hok.1
  obtain ⟨_, rfl, hreaches⟩ := id h
  obtain ⟨as, hrun⟩ := hreaches.to_run
  have hr := reporting (P := fun f => f = .written ∨ f = .sent ∨ f = .failed)
    (fun _ _ hok => hok.2) (fun s hs hrun i p f hp hf =>
      (served (hundisturbed s hs) (.inr hrun) i).handled p f hp hf) hrun
  -- the record is of one of the reports
  rw [hr.queued j] at hmem
  split at hmem
  · obtain ⟨r, hr', hrecord⟩ := List.mem_flatMap.mp hmem
    obtain ⟨rfl, i', st, hst, heq⟩ := DrainReport.mem_admitted hrecord
    obtain ⟨hlabel, rfl, -⟩ := statusRecord_inj heq
    refine ⟨i', hlabel.symm, fun p e hp hcycle => ?_⟩
    obtain ⟨f, hf, hP⟩ := hr.honest r hr' i' hst p e hp hcycle
    obtain ⟨x, hx, hhandles⟩ := (accounted h i').handled p f hf hP
    obtain rfl := Option.some.inj (hx.symm.trans hp)
    refine ⟨f, ?_, hhandles⟩
    -- an entry is acknowledged once
    obtain ⟨g, hg⟩ := List.length_eq_one_iff.mp (Nat.le_antisymm
      ((desks_sound h i').ledger.once p) (List.length_pos_iff.mpr (List.ne_nil_of_mem hf)))
    rw [hg] at hf ⊢
    rw [List.mem_singleton.mp hf]
  · cases hmem

/-- The drain of the console is completed, and it says so. -/
def reportedCycle : List (PipelineAct oneConsole) :=
  drainedCycle ++ [.report fun _ _ => "1970-01-01T00:00:05+00:00"]

theorem completed_true_console : ∃ s, (pipeline oneConsole).run (fun s a => s.Undisturbed a ∧ Returning a)
      (init oneConsole) reportedCycle = some s ∧
    (s.desks 0).calls = [0] ∧ (s.desks 0).statuses =
      [(1, statusRecord "Console" .completed "1970-01-01T00:00:05+00:00")] ∧
    ∃ i', oneConsole.label i' = "Console" ∧ ∀ (p : Nat) e,
      (s.desks i').ledger.log[p]? = some (.emitted e) → e.cycle = 1 →
        ∃ f, (s.desks i').ledger.acks p = [f] ∧
          (oneConsole.kind i').Handles (s.desks i').shared p (.emitted e) f := by
  have hrun : ∃ s, (pipeline oneConsole).run (fun s a => s.Undisturbed a ∧ Returning a)
        (init oneConsole) reportedCycle = some s ∧
      (s.desks 0).calls = [0] ∧ (s.desks 0).statuses =
        [(1, statusRecord "Console" .completed "1970-01-01T00:00:05+00:00")] :=
    ⟨_, rfl, rfl, rfl⟩
  obtain ⟨s, hs, hcalls, hstatuses⟩ := hrun
  refine ⟨s, hs, hcalls, hstatuses, ?_⟩
  exact completed_true (i := 0) (j := 0) (.of_run rfl hs) (by rw [hstatuses]; exact List.mem_cons_self)

end Pipeline

end ScietexLogging
