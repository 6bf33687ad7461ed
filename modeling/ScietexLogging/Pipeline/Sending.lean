import ScietexLogging.Pipeline.Fates

/-!
# Pipeline — the handler and what a broker is sent

The whole handler, with what its `emit` is called with, and the calls of `send_message` by the
workers of one of its broker backends.

* `sending`        — the handler, with the history of the calls of `emit`;
* `sent_entries`   — whatever threads, workers, cancellations and restarts there are, a broker
                     is sent the entries of what was emitted, each at most once;
* `sends_in_order` — what was emitted first is sent first.
-/

namespace ScietexLogging

open Asyncio

variable {k : Nat}

/-- The calls of `send_message` by the workers of a backend. -/
def BackendKind.calls : (b : BackendKind) → b.program.Shared → List (Nat × LogEntry)
  | .broker _, (s : Broker Item) => s.calls
  | .sink _, _ => []

-- ---------------------------------------------------------------------------
-- A broker backend
-- ---------------------------------------------------------------------------

namespace Desk

/-- What the queue and the workers of a backend have to do with what a broker was sent. -/
structure Sent {C : Consumer Item Outcome} (d : Desk C) (sent : List (Nat × LogEntry)) : Prop where
  order : (sent.map Prod.fst).Pairwise (· < ·)
  taken : ∀ p ∈ sent, p.1 < d.ledger.taken
  entry : ∀ p ∈ sent, ∃ x, d.ledger.log[p.1]? = some x ∧ logEntry x.record = .ok p.2
  hands : ∀ c n, d.hand c = some n → n ∈ sent.map Prod.fst
  acks : ∀ n, ∀ f ∈ d.ledger.acks n, n ∈ sent.map Prod.fst ↔ f ≠ .dropped

section

variable {C : Consumer Item Outcome} {d d' : Desk C} {sent : List (Nat × LogEntry)}

theorem Sent.new (C : Consumer Item Outcome) (maxsize : Nat) : (Desk.new C maxsize).Sent [] :=
  ⟨.nil, nofun, nofun, fun _ _ hn => absurd hn nofun, nofun⟩

theorem Sent.grow (h : d.Sent sent) (hd : d.Grows d') : d'.Sent sent := by
  refine ⟨h.order, fun p hp => ?_, fun p hp => ?_, fun c n hn => ?_, fun n f hf => ?_⟩
  · rw [hd.taken]
    exact h.taken p hp
  · obtain ⟨x, hx, hentry⟩ := h.entry p hp
    exact ⟨x, hd.getElem? hx, hentry⟩
  · rw [hd.hand] at hn
    exact h.hands c n hn
  · rw [hd.acks] at hf
    exact h.acks n f hf

theorem Sent.hire (h : d.Sent sent) (c : Nat) : (d.hire c).Sent sent := by
  refine ⟨h.order, h.taken, h.entry, fun c' n hn => ?_, h.acks⟩
  rw [hire_hand] at hn
  split at hn
  · cases hn
  · exact h.hands c' n hn

/-- What the teardown takes out is not sent. -/
theorem Sent.clear (h : d.Sent sent) (hs : d.Sound) (hd : d.Cleared d') : d'.Sent sent := by
  refine ⟨h.order, fun p hp => ?_, fun p hp => ?_, fun c n hn => ?_, fun n f hf => ?_⟩
  · exact Nat.lt_of_lt_of_le (Nat.lt_of_lt_of_le (h.taken p hp) hs.ledger.taken_le) hd.length_le
  · rw [hd.log]
    exact h.entry p hp
  · rw [Desk.hand, hd.tasks] at hn
    exact h.hands c n hn
  · rcases Nat.lt_or_ge n d.ledger.taken with hlt | hge
    · rw [hd.old n hlt] at hf
      exact h.acks n f hf
    · refine iff_of_false (fun hmem => ?_) (not_not_intro (hd.acks hge hf))
      obtain ⟨p, hp, rfl⟩ := List.mem_map.mp hmem
      exact absurd (h.taken p hp) (Nat.not_lt.mpr hge)

/-- A segment of worker `c`, where the other workers hold what they held. -/
theorem Sent.hands_of_others {sent' : List (Nat × LogEntry)} {c : Nat} (h : d.Sent sent)
    (hothers : ∀ c', c' ≠ c → d'.tasks c' = d.tasks c')
    (hsub : sent.map Prod.fst ⊆ sent'.map Prod.fst)
    (hself : ∀ n, d'.hand c = some n → n ∈ sent'.map Prod.fst) :
    ∀ c' n, d'.hand c' = some n → n ∈ sent'.map Prod.fst := by
  intro c' n hn
  by_cases hc : c' = c
  · exact hself n (hc ▸ hn)
  · rw [hand, hothers c' hc] at hn
    exact hsub (h.hands c' n hn)

/-- Neither the queue nor the record in hand changes. -/
theorem Sent.still {c : Nat} (h : d.Sent sent) (hothers : ∀ c', c' ≠ c → d'.tasks c' = d.tasks c')
    (hledger : d'.ledger = d.ledger) (hhand : d'.hand c = d.hand c) : d'.Sent sent := by
  refine ⟨h.order, ?_, ?_, h.hands_of_others hothers (List.Subset.refl _) fun n hn => ?_, ?_⟩
  · rw [hledger]
    exact h.taken
  · rw [hledger]
    exact h.entry
  · exact h.hands c n (hhand ▸ hn)
  · rw [hledger]
    exact h.acks

/-- A record is taken and sent. -/
theorem Sent.take {c n : Nat} {x : Item} {e : LogEntry} (h : d.Sent sent) (hs : d.Sound)
    (hothers : ∀ c', c' ≠ c → d'.tasks c' = d.tasks c')
    (hget : d.ledger.get = some ((n, x), d'.ledger)) (hentry : logEntry x.record = .ok e)
    (hhand : d'.hand c = some n) : d'.Sent (sent ++ [(n, e)]) := by
  have hnext := (hs.ledger.get hget).2.2.2
  obtain ⟨rfl, hlog, htaken, hacks, -, -⟩ := Ledger.get_eq_some hget
  have hmap : (sent ++ [(d.ledger.taken, e)]).map Prod.fst = sent.map Prod.fst ++ [d.ledger.taken] :=
    List.map_append
  have hbefore : ∀ n ∈ sent.map Prod.fst, n < d.ledger.taken := by
    intro n hn
    obtain ⟨p, hp, rfl⟩ := List.mem_map.mp hn
    exact h.taken p hp
  refine ⟨?_, fun p hp => ?_, fun p hp => ?_, ?_, fun n f hf => ?_⟩
  · rw [hmap, List.pairwise_append]
    refine ⟨h.order, List.pairwise_singleton _ _, fun n hn m hm => ?_⟩
    rw [List.mem_singleton.mp hm]
    exact hbefore n hn
  · rw [htaken]
    rcases List.mem_append.mp hp with hp | hp
    · exact Nat.lt_succ_of_lt (h.taken p hp)
    · rw [List.mem_singleton.mp hp]
      exact Nat.lt_succ_self _
  · rcases List.mem_append.mp hp with hp | hp
    · rw [hlog]
      exact h.entry p hp
    · rw [List.mem_singleton.mp hp]
      exact ⟨x, hnext, hentry⟩
  · refine h.hands_of_others hothers (hmap ▸ List.subset_append_left _ _) fun n hn => ?_
    rw [hhand] at hn
    rw [hmap, ← Option.some.inj hn]
    exact List.mem_append_right _ List.mem_cons_self
  · rw [hacks] at hf
    rw [hmap, List.mem_append, List.mem_singleton, ← h.acks n f hf]
    refine or_iff_left fun hn => ?_
    rw [hn, hs.ledger.fresh _ (Nat.le_refl _)] at hf
    cases hf

/-- A record is taken that has no entry: the worker drops it. -/
theorem Sent.spoil {c n : Nat} {x : Item} (h : d.Sent sent)
    (hothers : ∀ c', c' ≠ c → d'.tasks c' = d.tasks c')
    (hget : d.ledger.get = some ((n, x), d'.ledger)) (hhand : d'.hand c = none) : d'.Sent sent := by
  obtain ⟨-, hlog, htaken, hacks, -, -⟩ := Ledger.get_eq_some hget
  refine ⟨h.order, fun p hp => ?_, ?_, h.hands_of_others hothers (List.Subset.refl _) fun n hn => ?_, ?_⟩
  · rw [htaken]
    exact Nat.lt_succ_of_lt (h.taken p hp)
  · rw [hlog]
    exact h.entry
  · rw [hhand] at hn
    cases hn
  · rw [hacks]
    exact h.acks

/-- The record in hand is acknowledged. -/
theorem Sent.ack {c n : Nat} {f : Outcome} (h : d.Sent sent)
    (hothers : ∀ c', c' ≠ c → d'.tasks c' = d.tasks c') (hack : d.ledger.ack n f = some d'.ledger)
    (hhand : d.hand c = some n) (hf : f ≠ .dropped) (hhand' : d'.hand c = none) : d'.Sent sent := by
  obtain ⟨-, hlog, htaken, -, -, -⟩ := Ledger.ack_eq_some hack
  refine ⟨h.order, ?_, ?_, h.hands_of_others hothers (List.Subset.refl _) fun m hm => ?_, fun m g hg => ?_⟩
  · rw [htaken]
    exact h.taken
  · rw [hlog]
    exact h.entry
  · rw [hhand'] at hm
    cases hm
  · rcases Ledger.mem_acks_of_ack hack hg with hg | ⟨rfl, rfl⟩
    · exact h.acks m g hg
    · exact iff_of_true (h.hands c m hhand) hf

end

/-- **One segment** of one of its workers. -/
theorem Sent.work {ownsClient : Bool} {d d' : Desk (BackendKind.broker ownsClient).program}
    (h : d.Sent (BackendKind.calls _ d.shared)) (hs : d.Sound) {running : Bool} {c : Nat}
    {a : (BackendKind.broker ownsClient).program.Act} (hwork : d.work running c a = some d') :
    d'.Sent (BackendKind.calls _ d'.shared) := by
  obtain ⟨t, ht, hmap⟩ := Option.bind_eq_some_iff.mp hwork
  obtain ⟨y, hy, hd'⟩ := Option.map_eq_some_iff.mp hmap
  have hothers := (work_spec hwork).others
  have hledger : y.2.1 = d'.ledger := by rw [← hd']
  have hshared : BackendKind.calls _ d'.shared = Broker.calls y.1 := by
    rw [← hd']
    rfl
  have hhand : d.hand c = BrokerPc.hand (BrokerTask.pc t) := by
    rw [hand, ht]
    rfl
  have hhand' : d'.hand c = BrokerPc.hand (BrokerTask.pc y.2.2) := by
    rw [← hd']
    show (Function.update d.tasks c (some y.2.2) c).bind _ = _
    rw [Function.update_self]
    rfl
  have hholds := hs.holds c
  rw [hhand] at hholds
  replace h : d.Sent (Broker.calls d.shared) := h
  rw [hshared]
  cases BrokerSide.step_effect (x := (d.shared, d.ledger, t)) hs.ledger hholds hy with
  | quiet hand hand' ledger _ _ calls =>
    rw [show Broker.calls y.1 = Broker.calls d.shared from calls]
    exact h.still hothers (hledger.symm.trans ledger) (hhand'.trans (hand'.trans (hhand.trans hand).symm))
  | retire sending pc ledger _ calls =>
    rw [show Broker.calls y.1 = Broker.calls d.shared from calls]
    refine h.still hothers (hledger.symm.trans ledger) ?_
    rw [hhand', hhand, pc, show BrokerTask.pc t = _ from sending]
    rfl
  | @take n x _ get _ pc _ calls =>
    obtain ⟨e, hentry, hcalls⟩ := calls
    rw [hcalls]
    refine h.take hs hothers (hledger ▸ get) hentry ?_
    rw [hhand', pc]
    rfl
  | @spoil n x _ _ get _ leaving _ calls =>
    rw [show Broker.calls y.1 = Broker.calls d.shared from calls]
    refine h.spoil hothers (hledger ▸ get) ?_
    rw [hhand']
    rcases leaving with hpc | hpc <;>
    · rw [show BrokerTask.pc y.2.2 = _ from hpc]
      rfl
  | @ack n x f hand' ack outcome _ calls =>
    rw [show Broker.calls y.1 = Broker.calls d.shared from calls]
    have hheld : d.hand c = some n ∧ f ≠ .dropped := by
      rw [hhand]
      rcases outcome with ⟨hpc, rfl, -⟩ | ⟨hpc, rfl, -⟩ | ⟨hpc, rfl | ⟨rfl, -⟩, -⟩
      all_goals
        rw [show BrokerTask.pc t = _ from hpc]
        exact ⟨rfl, by simp⟩
    exact h.ack hothers (hledger ▸ ack) hheld.1 hheld.2 (hhand'.trans hand')

end Desk

-- ---------------------------------------------------------------------------
-- What was emitted
-- ---------------------------------------------------------------------------

/-- The record that a call of `emit` has still to put into an ingress. -/
def EmitPc.record? : EmitPc → Option LogRecord
  | .called r | .readIngress r | .readLoop r _ | .readEvent r _ _ | .put r _ _ => some r
  | .idle | .wake _ _ | .done _ => none

/-- The records that `emit` was called with, call by call, are those on their way. -/
structure Intake.Genuine (x : Intake k) (emitted : List LogRecord) : Prop where
  calls : x.calls = emitted.length
  emits : ∀ n r, (x.emits n).record? = some r → emitted[n]? = some r
  ingress : ∀ g, ∀ e ∈ (x.ingress g).items, emitted[e.call]? = some e.record

namespace Intake.Genuine

variable {x y : Intake k} {emitted : List LogRecord}

theorem setEmit (h : x.Genuine emitted) {n : Nat} {pc : EmitPc}
    (hpc : ∀ r, pc.record? = some r → (x.emits n).record? = some r) : (x.setEmit n pc).Genuine emitted := by
  refine ⟨h.calls, fun m r hr => ?_, h.ingress⟩
  by_cases hm : m = n
  · rw [hm, setEmit_self] at hr
    rw [hm]
    exact h.emits n r (hpc r hr)
  · rw [setEmit_ne _ _ hm] at hr
    exact h.emits m r hr

theorem emitStep (h : x.Genuine emitted) {hd : Handler k} {starts n : Nat}
    (hstep : EmitStep x hd starts n y) : y.Genuine emitted := by
  cases hstep with
  | accepted pc _ | ingress pc | loop pc | event pc _ =>
    refine h.setEmit fun r hr => ?_
    rw [pc]
    exact hr
  | ignored _ _ | released _ _ => exact h.setEmit nofun
  | @entered r g e q pc put =>
    obtain ⟨-, -, hitems⟩ := BoundedQueue.putNowait_eq_some.mp put
    have hrecord : emitted[n]? = some r := h.emits n r (by rw [pc]; rfl)
    refine setEmit (x := { x with
      ingress := Function.update x.ingress g q
      entered := Function.update x.entered g (x.entered g ++ [n]) })
      ⟨h.calls, h.emits, fun g' e' he' => ?_⟩ nofun
    replace he' : e' ∈ (Function.update x.ingress g q g').items := he'
    by_cases hg : g' = g
    · rw [hg, Function.update_self, hitems] at he'
      rcases List.mem_append.mp he' with he' | he'
      · exact h.ingress g e' he'
      · rw [List.mem_singleton.mp he']
        exact hrecord
    · rw [Function.update_of_ne hg] at he'
      exact h.ingress g' e' he'
  | full _ => exact setEmit (x := x.addReports [.ingressFull n]) ⟨h.calls, h.emits, h.ingress⟩ nofun
  | @delivered g e _ => exact setEmit (x := x.schedule e) ⟨h.calls, h.emits, h.ingress⟩ nofun

theorem call (h : x.Genuine emitted) (r : LogRecord) :
    ({ x with calls := x.calls + 1 }.setEmit x.calls (.called r)).Genuine (emitted ++ [r]) := by
  have hold : ∀ (n : Nat) (r' : LogRecord), emitted[n]? = some r' → (emitted ++ [r])[n]? = some r' := by
    intro n r' hr'
    rw [List.getElem?_append_left (List.getElem?_eq_some_iff.mp hr').1, hr']
  refine ⟨?_, fun n r' hr' => ?_, fun g e he => hold _ _ (h.ingress g e he)⟩
  · rw [List.length_append, List.length_singleton, ← h.calls]
    rfl
  · by_cases hn : n = x.calls
    · rw [hn, setEmit_self] at hr'
      rw [hn, h.calls, List.getElem?_concat_length]
      exact hr'
    · rw [setEmit_ne _ _ hn] at hr'
      exact hold n r' (h.emits n r' hr')

theorem take (h : x.Genuine emitted) {g : Nat} {e : Emitted} {q : BoundedQueue Emitted}
    (hget : (x.ingress g).getNowait = some (e, q)) :
    { x with ingress := Function.update x.ingress g q }.Genuine emitted ∧
      emitted[e.call]? = some e.record := by
  obtain ⟨-, hitems⟩ := BoundedQueue.getNowait_eq_some.mp hget
  refine ⟨⟨h.calls, h.emits, fun g' e' he' => ?_⟩, h.ingress g e (hitems ▸ List.mem_cons_self)⟩
  replace he' : e' ∈ (Function.update x.ingress g q g').items := he'
  by_cases hg : g' = g
  · rw [hg, Function.update_self] at he'
    exact h.ingress g e' (hitems ▸ List.mem_cons_of_mem e he')
  · rw [Function.update_of_ne hg] at he'
    exact h.ingress g' e' he'

end Intake.Genuine

namespace Pipeline

variable {cfg : Config k} {s t : Pipeline cfg} {a : PipelineAct cfg} {emitted : List LogRecord}

/-- What the step adds to the records that `emit` was called with. -/
def emittedBy : PipelineAct cfg → List LogRecord
  | .emitCall r => [r]
  | _ => []

structure Genuine (s : Pipeline cfg) (emitted : List LogRecord) : Prop where
  intake : s.intake.Genuine emitted
  desks : ∀ i e, Item.emitted e ∈ (s.desks i).ledger.log → emitted[e.call]? = some e.record

theorem Genuine.step (h : s.Genuine emitted) (hs : ∀ i, (s.desks i).Sound) (hstep : s.step a = some t) :
    t.Genuine (emitted ++ emittedBy a) := by
  have hmore : ∀ i e, Item.emitted e ∈ (s.desks i).ledger.log →
      (emitted ++ emittedBy a)[e.call]? = some e.record := by
    intro i e he
    have hrecord := h.desks i e he
    rw [List.getElem?_append_left (List.getElem?_eq_some_iff.mp hrecord).1, hrecord]
  by_cases hcall : ∃ r, a = .emitCall r
  · obtain ⟨r, rfl⟩ := hcall
    obtain rfl := Option.some.inj hstep
    exact ⟨h.intake.call r, hmore⟩
  · have hnone : emitted ++ emittedBy a = emitted := by
      cases a with
      | emitCall r => exact absurd ⟨r, rfl⟩ hcall
      | _ => exact List.append_nil _
    rw [hnone]
    cases step_changed hstep with
    | @moved g e q _ get _ _ _ intake desks =>
      obtain ⟨htaken, hrecord⟩ := h.intake.take get
      refine ⟨?_, fun i e' he' => ?_⟩
      · rw [intake]
        exact ⟨htaken.calls, htaken.emits, htaken.ingress⟩
      · rw [desks i, (Desk.offer_spec (s.desks i) (.emitted e)).log] at he'
        split at he'
        · exact h.desks i e' he'
        · rcases List.mem_append.mp he' with he' | he'
          · exact h.desks i e' he'
          · obtain rfl := Item.emitted.inj (List.mem_singleton.mp he')
            exact hrecord
    | other hintake desk =>
      have hold : ∀ i e, Item.emitted e ∈ (t.desks i).ledger.log →
          Item.emitted e ∈ (s.desks i).ledger.log := by
        intro i e he
        obtain ⟨ys, hlog, hstatus⟩ := (desk i).log (hs i)
        rw [hlog] at he
        refine (List.mem_append.mp he).resolve_right fun hy => ?_
        obtain ⟨r, heq⟩ := hstatus _ hy
        cases heq
      refine ⟨?_, fun i e he => h.desks i e (hold i e he)⟩
      cases hintake with
      | keep intake =>
        rw [intake]
        exact h.intake
      | call _ is => exact absurd ⟨_, is⟩ hcall
      | emit _ step => exact h.intake.emitStep step
      | event intake =>
        rw [intake]
        exact ⟨h.intake.calls, h.intake.emits, h.intake.ingress⟩
      | discard _ _ get intake =>
        have htaken := (h.intake.take get).1
        rw [intake]
        exact ⟨htaken.calls, htaken.emits, htaken.ingress⟩
      | @renew m _ intake =>
        rw [intake]
        refine ⟨h.intake.calls, h.intake.emits, fun g e he => ?_⟩
        replace he : e ∈ (Function.update s.intake.ingress s.starts (.new m) g).items := he
        by_cases hg : g = s.starts
        · rw [hg, Function.update_self] at he
          cases he
        · rw [Function.update_of_ne hg] at he
          exact h.intake.ingress g e he

end Pipeline

-- ---------------------------------------------------------------------------
-- The handler and the broker
-- ---------------------------------------------------------------------------

structure Sending (cfg : Config k) where
  handler : Pipeline cfg
  /-- What `emit` was called with, call by call. -/
  emitted : List LogRecord

namespace Sending

variable {cfg : Config k}

def step (s : Sending cfg) (a : PipelineAct cfg) : Option (Sending cfg) :=
  (s.handler.step a).map fun t => ⟨t, s.emitted ++ Pipeline.emittedBy a⟩

end Sending

def sending (cfg : Config k) : Machine (Sending cfg) (PipelineAct cfg) where
  init := (· = ⟨.init cfg, []⟩)
  step := Sending.step

namespace Sending

variable {cfg : Config k} {f : Fin k} {s t : Sending cfg} {a : PipelineAct cfg}

theorem step_eq_some (h : s.step a = some t) :
    s.handler.step a = some t.handler ∧ t.emitted = s.emitted ++ Pipeline.emittedBy a := by
  obtain ⟨u, hu, rfl⟩ := Option.map_eq_some_iff.mp h
  exact ⟨hu, rfl⟩

/-- The handler runs as it does. -/
theorem handler_reachable (h : (sending cfg).Reachable Machine.Always s) :
    (pipeline cfg).Reachable Machine.Always s.handler := by
  refine Machine.invariant (I := fun s => (pipeline cfg).Reachable Machine.Always s.handler) ?_ ?_ h
  · rintro s rfl
    exact .init rfl
  · exact fun s a t hr _ hstep => hr.step trivial (step_eq_some hstep).1

theorem handler_reaches (h : (sending cfg).Reaches Machine.Always s t) :
    (pipeline cfg).Reaches Machine.Always s.handler t.handler := by
  induction h with
  | refl => exact .refl _
  | tail _ _ hstep ih => exact ih.tail trivial (step_eq_some hstep).1

theorem genuine (h : (sending cfg).Reachable Machine.Always s) : s.handler.Genuine s.emitted := by
  refine Machine.invariant_with (J := fun s => (pipeline cfg).Reachable Machine.Always s.handler)
    (I := fun s => s.handler.Genuine s.emitted) (fun _ => handler_reachable) ?_ ?_ h
  · rintro s rfl
    exact ⟨⟨rfl, nofun, nofun⟩, nofun⟩
  · rintro s a t hreach hg - hstep
    obtain ⟨hhandler, hemitted⟩ := step_eq_some hstep
    rw [hemitted]
    exact hg.step (fun i => Pipeline.desks_sound hreach i) hhandler

end Sending

/-- One segment of a worker of a broker backend. -/
theorem BackendKind.sent_work {b : BackendKind} {ownsClient : Bool} (hb : b = .broker ownsClient)
    {d d' : Desk b.program} (h : d.Sent (b.calls d.shared)) (hs : d.Sound) {running : Bool} {c : Nat}
    {a : b.program.Act} (hwork : d.work running c a = some d') : d'.Sent (b.calls d'.shared) := by
  subst hb
  exact h.work hs hwork

/-- What backend `f` was sent, along a run of the handler. -/
theorem Pipeline.desk_sent {cfg : Config k} {f : Fin k} {s : Pipeline cfg} {ownsClient : Bool}
    (hf : cfg.kind f = .broker ownsClient) (h : (pipeline cfg).Reachable Machine.Always s) :
    (s.desks f).Sent ((cfg.kind f).calls (s.desks f).shared) := by
  refine Machine.invariant_with (J := fun s => ∀ i, (s.desks i).Sound)
    (I := fun s => (s.desks f).Sent ((cfg.kind f).calls (s.desks f).shared))
    (fun s hs i => Pipeline.desks_sound hs i) ?_ ?_ h
  · rintro s rfl
    have hnone : (cfg.kind f).calls ((Pipeline.init cfg).desks f).shared = [] := by
      show (cfg.kind f).calls (cfg.kind f).program.initial = []
      rw [hf]
      rfl
    rw [hnone]
    exact .new _ _
  · intro s a t hsound hsent _ hstep
    refine (Pipeline.step_changed hstep).desk (hsound f)
      (I := fun d => d.Sent ((cfg.kind f).calls d.shared))
      (fun _ _ _ _ hwork => BackendKind.sent_work hf hsent (hsound f) hwork) (fun d hgrows => ?_)
      (hsent.hire _) fun d hclear => ?_
    · rw [hgrows.shared]
      exact hsent.grow hgrows
    · rw [hclear.shared]
      exact hsent.clear (hsound f) hclear

namespace Sending

variable {cfg : Config k} {f : Fin k} {s t : Sending cfg} {a : PipelineAct cfg} {ownsClient : Bool}

/-- What the broker of backend `f` was sent, each entry with the number of its item in the queue. -/
def sent (f : Fin k) (s : Sending cfg) : List (Nat × LogEntry) :=
  (cfg.kind f).calls (s.handler.desks f).shared

theorem sent_desk (hf : cfg.kind f = .broker ownsClient) (h : (sending cfg).Reachable Machine.Always s) :
    (s.handler.desks f).Sent (s.sent f) := Pipeline.desk_sent hf (handler_reachable h)

/-- `p` was sent for call `m` of `emit`. -/
def SentFor (f : Fin k) (s : Sending cfg) (m : Nat) (p : Nat × LogEntry) : Prop :=
  p ∈ s.sent f ∧ s.handler.EntryOf f m p.1

/-- What the broker was sent. -/
structure Sends (f : Fin k) (s : Sending cfg) : Prop where
  /-- In the order of the queue, each item once. -/
  order : ((s.sent f).map Prod.fst).Pairwise (· < ·)
  /-- The entry of the item. -/
  entry : ∀ p ∈ s.sent f, ∃ x, (s.handler.desks f).ledger.log[p.1]? = some x ∧
    logEntry x.record = .ok p.2
  /-- For a call of `emit`, the entry of the record it was called with. -/
  emitted : ∀ m p, SentFor f s m p → ∃ r, s.emitted[m]? = some r ∧ logEntry r = .ok p.2
  once : ∀ m p q, SentFor f s m p → SentFor f s m q → p = q
  /-- An item was sent before it was acknowledged, but for those the teardown took out. -/
  acks : ∀ n, ∀ o ∈ (s.handler.desks f).ledger.acks n, n ∈ (s.sent f).map Prod.fst ↔ o ≠ .dropped

theorem mem_eq_of_fst {p q : Nat × LogEntry} (hs : ((s.sent f).map Prod.fst).Pairwise (· < ·))
    (hp : p ∈ s.sent f) (hq : q ∈ s.sent f) (heq : p.1 = q.1) : p = q := by
  have hnodup : ((s.sent f).map Prod.fst).Nodup := hs.imp Nat.ne_of_lt
  exact List.inj_on_of_nodup_map hnodup hp hq heq

/-- Of two calls of `send_message`, the first is that for the item that comes first. -/
theorem sublist_of_lt {p q : Nat × LogEntry} (hs : ((s.sent f).map Prod.fst).Pairwise (· < ·))
    (hp : p ∈ s.sent f) (hq : q ∈ s.sent f) (hlt : p.1 < q.1) : [p, q].Sublist (s.sent f) := by
  obtain ⟨l₁, l₂, heq⟩ := List.append_of_mem hp
  rw [heq] at hs hq ⊢
  refine .trans ?_ (List.sublist_append_right l₁ (p :: l₂))
  refine List.cons_sublist_cons.mpr (List.singleton_sublist.mpr ?_)
  rw [List.map_append, List.map_cons, List.pairwise_append] at hs
  rcases List.mem_append.mp hq with hq | hq
  · have hqp := hs.2.2 q.1 (List.mem_map_of_mem hq) p.1 List.mem_cons_self
    omega
  · rcases List.mem_cons.mp hq with rfl | hq
    · omega
    · exact hq

/-- **What a broker is sent.** Whatever threads call `emit`, whenever workers are cancelled and
clients fail, and however often logging is stopped and started: `send_message` is called with
the entries of items of the queue, in its order, and for each call of `emit` once at most, with
the entry of the record it was called with. No item is acknowledged that was not sent, but for
those that the teardown takes out, and they are not sent. -/
theorem sent_entries (hf : cfg.kind f = .broker ownsClient) (h : (sending cfg).Reachable Machine.Always s) :
    Sends f s := by
  have hsent := sent_desk hf h
  refine ⟨hsent.order, hsent.entry, ?_, ?_, hsent.acks⟩
  · rintro m p ⟨hp, x, hx, hcall⟩
    obtain ⟨y, hy, hentry⟩ := hsent.entry p hp
    obtain rfl := Option.some.inj (hx.symm.trans hy)
    cases x with
    | status c r => cases hcall
    | emitted e =>
      have hrecord := (genuine h).desks f e (List.mem_of_getElem? hx)
      rw [Option.some.inj hcall] at hrecord
      exact ⟨e.record, hrecord, hentry⟩
  · rintro m p q ⟨hp, hpm⟩ ⟨hq, hqm⟩
    exact mem_eq_of_fst hsent.order hp hq (hpm.unique (handler_reachable h) hqm)

/-- A broker backend with room for ten records. -/
def aBroker : Config 1 where
  kind := fun _ => .broker true
  queueMaxsize := fun _ => 10
  reporter := fun _ => false
  label := fun _ => "Redis"

def brokerWorker (a : BrokerAct) : PipelineAct aBroker := .worker (Fin.last 0) 1 a

/-- Logging starts, and the worker connects; a record is emitted, and taken by the worker. -/
def firstSent : List (PipelineAct aBroker) :=
  let record : LogRecord := ⟨20, "app", .ok "first", .ok "1970-01-01T00:00:00+00:00"⟩
  [.start 10, .advance, .advance, .advance, .advance, brokerWorker .start, brokerWorker (.connectOk true),
    .emitCall record, .emit 0, .emit 0, .emit 0, .emit 0, .emit 0, .emit 0,
    .runSet 1, .bridge 1, .bridge 1, .bridge 1, .bridge 1, brokerWorker .get]

/-- Another is emitted. -/
def anotherEmitted : List (PipelineAct aBroker) :=
  let record : LogRecord := ⟨20, "app", .ok "second", .ok "1970-01-01T00:00:01+00:00"⟩
  [.emitCall record, .emit 1, .emit 1, .emit 1, .emit 1, .emit 1, .emit 1,
    .runSet 1, .bridge 1, .bridge 1, .bridge 1]

/-- The worker is cancelled while it sends the first. -/
def sendInterrupted : List (PipelineAct aBroker) :=
  [.bridge 1, .stop, .bridge 1, .bridgeAwaited, .advance, .drainTimesOut (Fin.last 0),
    .report fun _ _ => "1970-01-01T00:00:05+00:00", .deadline, brokerWorker .deliver,
    brokerWorker (.disconnectOk false), .gatherEnds, .reaped, .advance]

/-- The first is sent once, and the second, which was still in the queue, is not. -/
theorem sent_entries_interrupted : ∃ s : Sending aBroker,
    (s.sent (Fin.last 0)).map Prod.fst = [0] ∧
      (s.handler.desks (Fin.last 0)).ledger.acks 0 = [.interrupted] ∧
      (s.handler.desks (Fin.last 0)).ledger.acks 1 = [.dropped] ∧ Sends (Fin.last 0) s := by
  have hrun : ((sending aBroker).run Machine.Always ⟨.init aBroker, []⟩
      (firstSent ++ anotherEmitted ++ sendInterrupted)).any (fun s =>
        decide ((s.sent (Fin.last 0)).map Prod.fst = [0] ∧
          (s.handler.desks (Fin.last 0)).ledger.acks 0 = [.interrupted] ∧
          (s.handler.desks (Fin.last 0)).ledger.acks 1 = [.dropped])) = true := by
    decide +kernel
  obtain ⟨s, hs, hends⟩ := (Option.any_eq_true _ _).mp hrun
  obtain ⟨hsent, hfirst, hsecond⟩ := of_decide_eq_true hends
  exact ⟨s, hsent, hfirst, hsecond, sent_entries rfl (.of_run rfl hs)⟩

/-- Entries of a queue whose calls are in order. -/
theorem entry_lt {s : Pipeline cfg} (hs : (pipeline cfg).Reachable Machine.Always s) {m n p q : Nat}
    (hp : s.EntryOf f m p) (hq : s.EntryOf f n q) (h : [m, n].Sublist (s.desks f).calls) : p < q := by
  by_contra hge
  have hpair : (s.desks f).calls.Pairwise fun a b => ¬ (a = m ∧ b = n) := by
    rw [Desk.calls, List.pairwise_filterMap, List.pairwise_iff_getElem]
    rintro i j hi hj hij a ha b hb ⟨rfl, rfl⟩
    have hpi := hp.unique hs ⟨_, List.getElem?_eq_getElem hi, ha⟩
    have hqj := hq.unique hs ⟨_, List.getElem?_eq_getElem hj, hb⟩
    omega
  exact List.pairwise_iff_forall_sublist.mp hpair h ⟨rfl, rfl⟩

/-- **What was emitted first is sent first**: a record whose `emit` was called when that of
another had returned is not sent to a broker before it. -/
theorem sends_in_order (hf : cfg.kind f = .broker ownsClient)
    (hs : (sending cfg).Reachable Machine.Always s) (h : (sending cfg).Reaches Machine.Always s t)
    {m n : Nat} (hm : s.handler.intake.emits m = .done .delivered) (hn : s.emitted.length ≤ n)
    {p q : Nat × LogEntry} (hp : SentFor f t m p) (hq : SentFor f t n q) : [p, q].Sublist (t.sent f) := by
  obtain ⟨s₀, h₀, hrun⟩ := hs
  have ht : (sending cfg).Reachable Machine.Always t := ⟨s₀, h₀, hrun.trans h⟩
  have hcalls := (genuine ⟨s₀, h₀, hrun⟩).intake.calls
  obtain ⟨c, d, hc, hd, hr, hsent, hunsent⟩ := Pipeline.sent_before (handler_reachable ⟨s₀, h₀, hrun⟩)
    (handler_reaches h) hm (hcalls ▸ hn)
  have horder := Channel.Broadcast.in_order hc hd hsent hunsent (i := f)
    (by rw [hr.got f]; exact Pipeline.mem_calls.mpr ⟨p.1, hp.2⟩)
    (by rw [hr.got f]; exact Pipeline.mem_calls.mpr ⟨q.1, hq.2⟩)
  rw [hr.got f] at horder
  exact sublist_of_lt (sent_desk hf ht).order hp.1 hq.1
    (entry_lt (handler_reachable ht) hp.2 hq.2 horder)

/-- The first fails to be sent; on a new client, the second is sent. -/
def secondSent : List (PipelineAct aBroker) :=
  [brokerWorker (.sendFail "broken"), brokerWorker (.disconnectOk false), brokerWorker (.connectOk true),
    brokerWorker .get]

theorem sends_in_order_failed : ∃ s t : Sending aBroker, ∃ p q,
    (sending aBroker).run Machine.Always ⟨.init aBroker, []⟩ firstSent = some s ∧
      (sending aBroker).run Machine.Always s (anotherEmitted ++ secondSent) = some t ∧
      t.sent (Fin.last 0) = [p, q] ∧ [p, q].Sublist (t.sent (Fin.last 0)) := by
  have hrun : ∃ s t : Sending aBroker, ∃ p q,
      (sending aBroker).run Machine.Always ⟨.init aBroker, []⟩ firstSent = some s ∧
      (sending aBroker).run Machine.Always s (anotherEmitted ++ secondSent) = some t ∧
      s.handler.intake.emits 0 = .done .delivered ∧ s.emitted.length = 1 ∧ t.sent (Fin.last 0) = [p, q] ∧
      t.handler.EntryOf (Fin.last 0) 0 p.1 ∧ t.handler.EntryOf (Fin.last 0) 1 q.1 :=
    ⟨_, _, _, _, rfl, rfl, rfl, rfl, rfl, ⟨_, rfl, rfl⟩, ⟨_, rfl, rfl⟩⟩
  obtain ⟨s, t, p, q, hs, ht, hemit, hlength, hsent, hp, hq⟩ := hrun
  refine ⟨s, t, p, q, hs, ht, hsent, sends_in_order rfl (.of_run rfl hs) (.of_run ht) hemit
    (Nat.le_of_eq hlength) ⟨?_, hp⟩ ⟨?_, hq⟩⟩
  · rw [hsent]
    exact List.mem_cons_self
  · rw [hsent]
    exact List.mem_cons_of_mem _ List.mem_cons_self

end Sending

end ScietexLogging
