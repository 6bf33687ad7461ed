import Mathlib.Logic.Relation
import ScietexLogging.Asyncio.Refinement
import ScietexLogging.Broker.ClientSegments
import ScietexLogging.Broker.Survival

/-!
# Broker — the worker with its clients refines the worker

The worker is modelled twice: with the client objects it makes, probes and closes, and,
where the whole handler is looked at, with no more than whether it has one. The second
follows every step of the first.

* `Refines`      — the states of the two, seen from what they share;
* `step_refines` — what one segment of the first is on the second;
* `simulation`   — the same for whole runs, over any number of starts.
-/

namespace ScietexLogging

open Asyncio

-- ---------------------------------------------------------------------------
-- The worker without its clients, over several starts
-- ---------------------------------------------------------------------------

namespace BrokerRun

inductive CycleAct where
  | act (a : Act)
  | clear                   -- `stop_logging` empties the queue
  | restart                 -- the next `start_logging` creates a new worker

variable (ownsClient : Bool)

def cycleStep (s : BrokerRun) : CycleAct → Option BrokerRun
  | .act a => s.step ownsClient a
  | .clear =>
    match s.task.pc with
    | .ended _ => (s.ledger.clear .dropped).map fun l => { s with side := (s.broker, l, s.task) }
    | _ => none
  | .restart =>
    match s.task.pc with
    | .ended _ => some { s with side := (s.broker, s.ledger, ⟨.created, connectRetryBase, false⟩) }
    | _ => none

/-- From the handler as `__init__` leaves it: an injected client is there. -/
def cycles : Machine BrokerRun CycleAct where
  init s := ∃ maxsize, s.side =
    (⟨!ownsClient, [], []⟩, Ledger.new maxsize, ⟨.created, connectRetryBase, false⟩)
  step := cycleStep ownsClient

end BrokerRun

-- ---------------------------------------------------------------------------
-- The relation
-- ---------------------------------------------------------------------------

/-- Where the worker is suspended, on the second level. Up to three awaits make a client. -/
def ClientPc.Of (log : List LogRecord) : ClientPc → BrokerPc LogRecord → Prop
  | .created, q => q = .created
  | .building, q | .pinging _, q | .discarding _, q => q = .connecting
  | .sleeping, q => q = .sleeping
  | .getting, q => q = .getting
  | .sending n, q => ∃ record, log[n]? = some record ∧ q = .sending n record
  | .disconnecting n, q => ∃ record, log[n]? = some record ∧ q = .disconnecting n record
  | .closing e, q => q = .closing e
  | .ended e, q => q = .ended e

def ClientEvent.report? : ClientEvent → Option (Option Nat × String)
  | .reported n exc => some (n, exc)
  | _ => none

def ClientEvent.message? : ClientEvent → Option (Nat × LogEntry)
  | .sendCalled n entry _ => some (n, entry)
  | _ => none

/-- The calls of one kind, the first one first. -/
def callsOf {β : Type} (kind : ClientEvent → Option β) (history : List ClientEvent) : List β :=
  (history.filterMap kind).reverse

/-- A report with its record, and the same with its number. -/
structure SameReport (log : List LogRecord) (p : Option (Nat × LogRecord) × String)
    (q : Option Nat × String) : Prop where
  number : p.1.map Prod.fst = q.1
  record : ∀ n r, p.1 = some (n, r) → log[n]? = some r
  exc : p.2 = q.2

namespace ClientWorker

/-- What the two levels share, wherever they are suspended. -/
structure Shares (ownsClient : Bool) (x : ClientWorker) (y : BrokerSide LogRecord) : Prop where
  owns : x.ownsClient = ownsClient
  injected : ownsClient = false → x.injectedClient.isSome = true
  ledger : y.2.1 = x.ledger
  client : y.1.client = x.client.isSome
  reports : List.Forall₂ (SameReport x.ledger.log) y.1.reports (callsOf ClientEvent.report? x.history)
  calls : y.1.calls = callsOf ClientEvent.message? x.history
  delay : y.2.2.connectDelay = x.connectDelay

/-- The same worker on both levels. A cancellation that a `ping` swallowed is over for the
first, while the second is still connecting. -/
structure Refines (ownsClient : Bool) (x : ClientWorker) (y : BrokerSide LogRecord) : Prop where
  shares : Shares ownsClient x y
  pc : x.pc.Of x.ledger.log y.2.2.pc
  cancelRequested : x.cancelRequested = true → y.2.2.cancelRequested = true
  request : y.2.2.pc ≠ .connecting → y.2.2.cancelRequested = x.cancelRequested

/-- What a segment goes on with: no cancellation is requested. -/
structure Goes (ownsClient : Bool) (x : ClientWorker) (y : BrokerSide LogRecord) : Prop where
  shares : Shares ownsClient x y
  calm : x.cancelRequested = false
  calm' : y.2.2.cancelRequested = false

/-- Some segments of the worker without its clients. -/
def Follows (ownsClient running : Bool) : BrokerSide LogRecord → BrokerSide LogRecord → Prop :=
  Relation.ReflTransGen fun y y' => ∃ a, BrokerSide.step ownsClient running logEntry a y = some y'

variable {cls : BrokerClass} {ownsClient running : Bool} {x x' : ClientWorker} {y y' : BrokerSide LogRecord}

theorem Goes.at (h : Goes ownsClient x y) {pc : ClientPc} {pc' : BrokerPc LogRecord}
    (hpc : pc.Of x.ledger.log pc') : Refines ownsClient (x.moveTo pc) (y.moveTo pc') where
  shares := { h.shares with }
  pc := hpc
  cancelRequested hx := absurd (h.calm.symm.trans hx) (by simp)
  request _ := h.calm'.trans h.calm.symm

theorem callsOf_cons {β : Type} (kind : ClientEvent → Option β) (e : ClientEvent)
    (history : List ClientEvent) :
    callsOf kind (e :: history) = callsOf kind history ++ (kind e).toList := by
  unfold callsOf
  rw [List.filterMap_cons]
  cases kind e with
  | none => simp
  | some p => simp

/-- A call neither of the error channel nor of `send_message`. -/
theorem Goes.log (h : Goes ownsClient x y) {e : ClientEvent} (he : e.report? = none ∧ e.message? = none) :
    Goes ownsClient (x.log e) y := by
  refine ⟨{ h.shares with reports := ?_, calls := ?_ }, h.calm, h.calm'⟩
  · show List.Forall₂ _ _ (callsOf ClientEvent.report? (e :: x.history))
    rw [callsOf_cons, he.1, Option.toList_none, List.append_nil]
    exact h.shares.reports
  · show _ = callsOf ClientEvent.message? (e :: x.history)
    rw [callsOf_cons, he.2, Option.toList_none, List.append_nil]
    exact h.shares.calls

/-- `send_message` is called for entry `n`. -/
theorem Goes.call (h : Goes ownsClient x y) (n : Nat) (entry : LogEntry) (c : Option Nat) :
    Goes ownsClient (x.log (.sendCalled n entry c)) (y.call n entry) := by
  refine ⟨{ h.shares with reports := ?_, calls := ?_ }, h.calm, h.calm'⟩
  · show List.Forall₂ _ _ (callsOf ClientEvent.report? (_ :: x.history))
    rw [callsOf_cons]
    exact (List.append_nil (callsOf ClientEvent.report? x.history)).symm ▸ h.shares.reports
  · show y.1.calls ++ [(n, entry)] = callsOf ClientEvent.message? (_ :: x.history)
    rw [callsOf_cons, h.shares.calls]
    rfl

theorem Goes.setClient (h : Goes ownsClient x y) (c : Option Nat) :
    Goes ownsClient (x.setClient c) (y.setClient c.isSome) :=
  ⟨{ h.shares with client := rfl }, h.calm, h.calm'⟩

theorem Goes.setDelay (h : Goes ownsClient x y) (d : ℚ) : Goes ownsClient (x.setDelay d) (y.setDelay d) :=
  ⟨{ h.shares with delay := rfl }, h.calm, h.calm'⟩

/-- The failure of entry `n`, or of none, is reported. -/
theorem Goes.report (h : Goes ownsClient x y) (entry : Option (Nat × LogRecord)) (exc : String)
    (hentry : ∀ n r, entry = some (n, r) → x.ledger.log[n]? = some r) :
    Goes ownsClient (x.log (.reported (entry.map Prod.fst) exc)) (y.report entry exc) := by
  refine ⟨{ h.shares with reports := ?_, calls := ?_ }, h.calm, h.calm'⟩
  · show List.Forall₂ _ (y.1.reports ++ [(entry, exc)]) (callsOf ClientEvent.report? (_ :: x.history))
    rw [callsOf_cons]
    exact List.rel_append h.shares.reports (.cons ⟨rfl, hentry, rfl⟩ .nil)
  · show y.1.calls = callsOf ClientEvent.message? (_ :: x.history)
    rw [callsOf_cons, h.shares.calls]
    exact (List.append_nil _).symm

/-- A record is taken. -/
theorem Goes.get (h : Goes ownsClient x y) {n : Nat} {record : LogRecord} {l : Ledger LogRecord Outcome}
    (hget : x.ledger.get = some ((n, record), l)) :
    Goes ownsClient { x with ledger := l } (y.1, l, y.2.2) := by
  refine ⟨{ h.shares with ledger := rfl, reports := ?_ }, h.calm, h.calm'⟩
  rw [show l.log = x.ledger.log from (Ledger.get_eq_some hget).2.1]
  exact h.shares.reports

/-- The record in hand is acknowledged. -/
theorem Goes.acked (h : Goes ownsClient x y) {n : Nat} {f : Outcome} {l : Ledger LogRecord Outcome}
    (hack : x.ledger.ack n f = some l) : Goes ownsClient (x.acked n l) (y.1, l, y.2.2) := by
  refine ⟨{ h.shares with ledger := rfl, reports := ?_, calls := ?_ }, h.calm, h.calm'⟩
  · show List.Forall₂ (SameReport l.log) _ (callsOf ClientEvent.report? (_ :: x.history))
    rw [(Ledger.ack_eq_some hack).2.1, callsOf_cons]
    exact (List.append_nil (callsOf ClientEvent.report? x.history)).symm ▸ h.shares.reports
  · show y.1.calls = callsOf ClientEvent.message? (_ :: x.history)
    rw [callsOf_cons, h.shares.calls]
    exact (List.append_nil _).symm

-- ---------------------------------------------------------------------------
-- On to the next suspension
-- ---------------------------------------------------------------------------

theorem Goes.resume (h : Goes ownsClient x y) : Goes ownsClient x y.resume :=
  ⟨{ h.shares with }, h.calm, rfl⟩

theorem Follows.single {a : BrokerAct} (h : BrokerSide.step ownsClient running logEntry a y = some y') :
    Follows ownsClient running y y' := Relation.ReflTransGen.single ⟨a, h⟩

theorem finish_refines (cls : BrokerClass) (running : Bool) (h : Goes ownsClient x y) (e : TaskEnd) :
    ∃ y', Follows ownsClient running (y.finish ownsClient e) y' ∧ Refines ownsClient (x.finish cls e) y' := by
  have howns := h.shares.owns
  unfold finish disconnect BrokerSide.finish
  cases ownsClient with
  | false =>
    rw [howns]
    exact ⟨_, .refl, (h.setClient none).at rfl⟩
  | true =>
    rw [howns]
    simp only [if_true]
    cases hclient : x.client with
    | some c => exact ⟨_, .refl, ((h.log ⟨rfl, rfl⟩).log ⟨rfl, rfl⟩).at rfl⟩
    | none =>
      simp only
      cases cls.shipped with
      | false => exact ⟨_, .refl, (h.log ⟨rfl, rfl⟩).at rfl⟩
      | true =>
        -- `disconnect` has nothing to close, and does not suspend
        refine ⟨((y.moveTo (.closing e)).resume.setClient false).moveTo (.ended e),
          .single (a := .disconnectOk false) rfl, ?_⟩
        exact (((h.log ⟨rfl, rfl⟩).resume).setClient none).at rfl

theorem loopHead_refines (cls : BrokerClass) (running : Bool) (h : Goes ownsClient x y) :
    ∃ y', Follows ownsClient running (y.loopHead ownsClient running) y' ∧
      Refines ownsClient (x.loopHead cls running) y' := by
  have howns := h.shares.owns
  have hflag := h.shares.client
  unfold loopHead BrokerSide.loopHead
  rw [h.shares.ledger]
  by_cases hon : (running || !x.ledger.queue.items.isEmpty) = true
  · rw [if_pos hon, if_pos hon, hflag]
    cases hclient : x.client with
    | some c => exact ⟨_, .refl, h.at rfl⟩
    | none =>
      rw [howns]
      cases ownsClient with
      | true => exact ⟨_, .refl, (h.log ⟨rfl, rfl⟩).at rfl⟩
      | false =>
        have hclient := (h.setClient x.injectedClient).log (e := .connected x.injectedClient) ⟨rfl, rfl⟩
        have hgoes := hclient.setDelay connectRetryBase
        rw [h.shares.injected rfl] at hgoes
        exact ⟨_, .refl, hgoes.at rfl⟩
  · rw [if_neg hon, if_neg hon]
    exact finish_refines cls running h .returned

/-- The record in hand is acknowledged, and the worker goes on. -/
theorem acknowledge_refines (cls : BrokerClass) {n : Nat} {f : Outcome} {next : ClientWorker → ClientWorker}
    {next' : BrokerSide LogRecord → BrokerSide LogRecord} (h : Goes ownsClient x y)
    (hnext : ∀ x y, Goes ownsClient x y →
      ∃ y', Follows ownsClient running (next' y) y' ∧ Refines ownsClient (next x) y') :
    ∃ y', Follows ownsClient running (y.acknowledge ownsClient n f next') y' ∧
      Refines ownsClient (x.acknowledge cls n f next) y' := by
  unfold acknowledge BrokerSide.acknowledge
  rw [h.shares.ledger]
  cases hack : x.ledger.ack n f with
  | none => exact finish_refines cls running h .raised
  | some l => exact hnext _ _ (h.acked hack)

theorem compose_refines (cls : BrokerClass) (running : Bool) (h : Goes ownsClient x y) {n : Nat}
    {record : LogRecord} (hrecord : x.ledger.log[n]? = some record) :
    ∃ y', Follows ownsClient running (y.compose ownsClient logEntry n record) y' ∧
      Refines ownsClient (x.compose cls n record) y' := by
  unfold compose BrokerSide.compose
  cases logEntry record with
  | ok entry => exact ⟨_, .refl, (h.call n entry x.client).at ⟨record, hrecord, rfl⟩⟩
  | error _ => exact finish_refines cls running h .raised

-- ---------------------------------------------------------------------------
-- A segment
-- ---------------------------------------------------------------------------

/-- The suspension has ended, on both levels. -/
theorem Refines.resume (h : Refines ownsClient x y) : Goes ownsClient x.resume y.resume :=
  ⟨{ h.shares with }, rfl, rfl⟩

/-- No cancellation was requested during the suspension. -/
theorem Refines.calm (h : Refines ownsClient x y) (hpc : y.2.2.pc ≠ .connecting)
    (hcalm : ¬ x.cancelRequested = true) : Goes ownsClient x y ∧ ¬ y.2.2.cancelRequested = true := by
  have hfalse : x.cancelRequested = false := Bool.eq_false_of_not_eq_true hcalm
  have hfalse' : y.2.2.cancelRequested = false := (h.request hpc).trans hfalse
  exact ⟨⟨h.shares, hfalse, hfalse'⟩, by simp [hfalse']⟩

/-- A cancellation is delivered. -/
theorem interrupt_refines (cls : BrokerClass) (running : Bool) (h : Refines ownsClient x y)
    (hx : x.resume.interrupt cls = some x') :
    ∃ z y', y.resume.interrupt ownsClient = some z ∧ Follows ownsClient running z y' ∧
      Refines ownsClient x' y' := by
  have hgoes := h.resume
  have hfinish := finish_refines cls running hgoes .cancelled
  have hfinishes : ∀ x y, Goes ownsClient x y → ∃ y',
      Follows ownsClient running (y.finish ownsClient .cancelled) y' ∧
        Refines ownsClient (x.finish cls .cancelled) y' :=
    fun x y hxy => finish_refines cls running hxy .cancelled
  have hpc := h.pc
  unfold interrupt at hx
  unfold BrokerSide.interrupt
  rw [BrokerSide.resume_pc]
  split at hx
  case h_1 hat =>
    rw [show x.pc = .created from hat] at hpc
    obtain rfl := Option.some.inj hx
    rw [show y.2.2.pc = .created from hpc]
    exact ⟨_, _, rfl, .refl, hgoes.at rfl⟩
  case h_2 hat | h_3 hat | h_4 hat =>
    rw [show x.pc = _ from hat] at hpc
    obtain rfl := Option.some.inj hx
    rw [show y.2.2.pc = .connecting from hpc]
    obtain ⟨y', hy', href⟩ := hfinish
    exact ⟨_, y', rfl, hy', href⟩
  case h_5 hat =>
    rw [show x.pc = _ from hat] at hpc
    obtain rfl := Option.some.inj hx
    rw [show y.2.2.pc = .sleeping from hpc]
    obtain ⟨y', hy', href⟩ := hfinish
    exact ⟨_, y', rfl, hy', href⟩
  case h_6 hat =>
    rw [show x.pc = _ from hat] at hpc
    obtain rfl := Option.some.inj hx
    rw [show y.2.2.pc = .getting from hpc]
    obtain ⟨y', hy', href⟩ := hfinish
    exact ⟨_, y', rfl, hy', href⟩
  case h_7 n hat =>
    rw [show x.pc = _ from hat] at hpc
    obtain rfl := Option.some.inj hx
    obtain ⟨record, -, hy⟩ := hpc
    rw [hy]
    obtain ⟨y', hy', href⟩ := acknowledge_refines cls (n := n) (f := .interrupted) hgoes hfinishes
    exact ⟨_, y', rfl, hy', href⟩
  case h_8 n hat =>
    rw [show x.pc = _ from hat] at hpc
    obtain rfl := Option.some.inj hx
    obtain ⟨record, -, hy⟩ := hpc
    rw [hy]
    obtain ⟨y', hy', href⟩ := acknowledge_refines cls (n := n) (f := .failed) hgoes hfinishes
    exact ⟨_, y', rfl, hy', href⟩
  case h_9 e hat =>
    rw [show x.pc = _ from hat] at hpc
    obtain rfl := Option.some.inj hx
    rw [show y.2.2.pc = .closing e from hpc]
    exact ⟨_, _, rfl, .refl, hgoes.at rfl⟩
  case h_10 => cases hx

theorem Follows.head {a : BrokerAct} {z : BrokerSide LogRecord}
    (h : BrokerSide.step ownsClient running logEntry a y = some z) (hz : Follows ownsClient running z y') :
    Follows ownsClient running y y' := Relation.ReflTransGen.head ⟨a, h⟩ hz

/-- The library has returned a client, which is not kept yet. -/
theorem Goes.newClient (h : Goes ownsClient x y) : Goes ownsClient x.newClient y := by
  have hlog := h.log (e := .obtained x.made) ⟨rfl, rfl⟩
  exact ⟨{ h.shares with reports := hlog.shares.reports, calls := hlog.shares.calls }, h.calm, h.calm'⟩

/-- A further await on the way to a client is no step of the worker without clients. -/
theorem Goes.still (h : Goes ownsClient x y.resume) (hy : y.2.2.pc = .connecting) {pc : ClientPc}
    (hpc : pc.Of x.ledger.log .connecting) : Refines ownsClient (x.moveTo pc) y where
  shares := { h.shares with }
  pc := hy ▸ hpc
  cancelRequested hc := absurd (h.calm.symm.trans hc) (by simp)
  request hne := absurd hy hne

/-- A client is kept. -/
theorem connected_refines (h : Goes ownsClient x y.resume) (hy : y.2.2.pc = .connecting) (c : Nat) :
    ∃ y', Follows ownsClient running y y' ∧ Refines ownsClient (x.afterConnect (some c)) y' := by
  refine ⟨((y.resume.setClient true).setDelay connectRetryBase).moveTo .getting,
    .single (a := .connectOk true) (by simp only [BrokerSide.step, hy]), ?_⟩
  exact (((h.setClient (some c)).log ⟨rfl, rfl⟩).setDelay connectRetryBase).at rfl

theorem raised_refines (h : Goes ownsClient x y.resume) (hy : y.2.2.pc = .connecting) {exc : String}
    {jitter : ℚ} (hx : x.afterConnectRaises exc jitter = some x') :
    ∃ y', Follows ownsClient running y y' ∧ Refines ownsClient x' y' := by
  unfold afterConnectRaises at hx
  obtain ⟨-, hx⟩ := Option.ite_none_right_eq_some.mp hx
  obtain rfl := Option.some.inj hx
  refine ⟨(y.resume.report none exc).moveTo .sleeping,
    .single (a := .connectFail exc) (by simp only [BrokerSide.step, hy]), ?_⟩
  exact (((h.log ⟨rfl, rfl⟩).report none exc nofun).log ⟨rfl, rfl⟩).at rfl

/-- A send has failed: the record is acknowledged when its client is closed, or given up. -/
theorem failed_refines (cls : BrokerClass) (h : Goes ownsClient x y.resume) {n : Nat}
    {record : LogRecord} (hrecord : x.ledger.log[n]? = some record)
    (hy : y.2.2.pc = .sending n record) (exc : String) :
    ∃ y', Follows ownsClient running y y' ∧
      Refines ownsClient (((x.log (.sendRaised n)).log (.reported (some n) exc)).disconnect cls
        (.disconnecting n) (acknowledge cls · n .failed (loopHead cls running))) y' := by
  have hloop : ∀ x y, Goes ownsClient x y → ∃ y',
      Follows ownsClient running (y.loopHead ownsClient running) y' ∧
        Refines ownsClient (x.loopHead cls running) y' :=
    fun x y hxy => loopHead_refines cls running hxy
  have hreported := (h.log (e := .sendRaised n) ⟨rfl, rfl⟩).report (some (n, record)) exc
    (fun m r hmr => by
      obtain ⟨rfl, rfl⟩ := Prod.mk.inj (Option.some.inj hmr)
      exact hrecord)
  have howns : ((x.log (.sendRaised n)).log (.reported (some n) exc)).ownsClient = ownsClient :=
    h.shares.owns
  have hsame : ((x.log (.sendRaised n)).log (.reported (some n) exc)).client = x.client := rfl
  unfold disconnect
  rw [howns, hsame]
  cases ownsClient with
  | false =>
    obtain ⟨y', hy', href⟩ := acknowledge_refines cls (n := n) (f := .failed) hreported hloop
    refine ⟨y', .head (a := .sendFail exc) ?_ hy', href⟩
    simp only [BrokerSide.step, hy]
    rfl
  | true =>
    have hstep : BrokerSide.step true running logEntry (.sendFail exc) y =
        some ((y.resume.report (some (n, record)) exc).moveTo (.disconnecting n record)) := by
      simp only [BrokerSide.step, hy]
      rfl
    rw [if_pos rfl]
    cases hclient : x.client with
    | some c =>
      exact ⟨_, .single hstep, ((hreported.log ⟨rfl, rfl⟩).log ⟨rfl, rfl⟩).at ⟨record, hrecord, rfl⟩⟩
    | none =>
      simp only
      cases cls.shipped with
      | false => exact ⟨_, .single hstep, (hreported.log ⟨rfl, rfl⟩).at ⟨record, hrecord, rfl⟩⟩
      | true =>
        -- `disconnect` has nothing to close: the record is acknowledged at once
        have hlog := hreported.log (e := .disconnectCalled) ⟨rfl, rfl⟩
        have hnone : false = x.client.isSome := by rw [hclient]; rfl
        have hgone : Goes true
            (((x.log (.sendRaised n)).log (.reported (some n) exc)).log .disconnectCalled)
            (((y.resume.report (some (n, record)) exc).moveTo (.disconnecting n record)).resume.setClient
              false) := ⟨{ hlog.shares with client := hnone }, hlog.calm, rfl⟩
        obtain ⟨y', hy', href⟩ := acknowledge_refines cls (n := n) (f := .failed) hgone hloop
        exact ⟨y', .head hstep (.head (a := .disconnectOk false) rfl hy'), href⟩

/-- **One segment.** -/
theorem step_refines (h : Refines ownsClient x y) (hs : x.ledger.Sound) {a : ClientAct}
    (hx : x.step cls running a = some x') :
    ∃ y', Follows ownsClient running y y' ∧ Refines ownsClient x' y' := by
  have hpc := h.pc
  have hgoes := h.resume
  have hloop : ∀ x y, Goes ownsClient x y → ∃ y',
      Follows ownsClient running (y.loopHead ownsClient running) y' ∧
        Refines ownsClient (x.loopHead cls running) y' :=
    fun x y hxy => loopHead_refines cls running hxy
  unfold step at hx
  split at hx
  case h_1 hat =>
    rw [hat] at hpc
    have hy : y.2.2.pc = .created := hpc
    obtain ⟨hcalm, hx⟩ := Option.ite_none_left_eq_some.mp hx
    obtain rfl := Option.some.inj hx
    obtain ⟨hgoes, hcalm'⟩ := h.calm (by simp [hy]) hcalm
    obtain ⟨y', hy', href⟩ := hloop _ _ ((hgoes.log (e := .started) ⟨rfl, rfl⟩).setDelay connectRetryBase)
    refine ⟨y', .head (a := .start) ?_ hy', href⟩
    simp only [BrokerSide.step, hy, if_neg hcalm']
  case h_2 hat =>
    rw [hat] at hpc
    have hy : y.2.2.pc = .connecting := hpc
    obtain rfl := Option.some.inj hx
    split
    · exact ⟨y, .refl, hgoes.newClient.still hy rfl⟩
    · exact connected_refines hgoes.newClient hy x.made
  case h_3 exc jitter hat =>
    rw [hat] at hpc
    exact raised_refines hgoes hpc hx
  case h_4 c hat =>
    rw [hat] at hpc
    obtain rfl := Option.some.inj hx
    exact connected_refines hgoes hpc c
  case h_5 c hat =>
    rw [hat] at hpc
    obtain rfl := Option.some.inj hx
    exact ⟨y, .refl, (hgoes.log ⟨rfl, rfl⟩).still hpc rfl⟩
  case h_6 c hat =>
    rw [hat] at hpc
    exact raised_refines hgoes hpc hx
  case h_7 hat =>
    rw [hat] at hpc
    have hy : y.2.2.pc = .sleeping := hpc
    obtain ⟨hcalm, hx⟩ := Option.ite_none_left_eq_some.mp hx
    obtain rfl := Option.some.inj hx
    obtain ⟨hgoes, hcalm'⟩ := h.calm (by simp [hy]) hcalm
    obtain ⟨y', hy', href⟩ := hloop _ _ (hgoes.setDelay (min (x.connectDelay * 2) connectRetryCap))
    refine ⟨y', .head (a := .wake) ?_ hy', href⟩
    simp only [BrokerSide.step, hy, if_neg hcalm', h.shares.delay]
  case h_8 hat =>
    rw [hat] at hpc
    have hy : y.2.2.pc = .getting := hpc
    obtain ⟨⟨⟨n, record⟩, l⟩, hget, rfl⟩ := Option.map_eq_some_iff.mp hx
    obtain ⟨-, -, -, hrecord⟩ := hs.get hget
    obtain ⟨y', hy', href⟩ := compose_refines cls running (hgoes.get hget) hrecord
    refine ⟨y', .head (a := .get) ?_ hy', href⟩
    simp only [BrokerSide.step, hy, h.shares.ledger, hget]
    rfl
  case h_9 hat =>
    rw [hat] at hpc
    have hy : y.2.2.pc = .getting := hpc
    obtain ⟨hcalm, hx⟩ := Option.ite_none_left_eq_some.mp hx
    obtain rfl := Option.some.inj hx
    obtain ⟨hgoes, hcalm'⟩ := h.calm (by simp [hy]) hcalm
    obtain ⟨y', hy', href⟩ := hloop _ _ hgoes
    refine ⟨y', .head (a := .timeout) ?_ hy', href⟩
    simp only [BrokerSide.step, hy, if_neg hcalm']
  case h_10 n hat =>
    rw [hat] at hpc
    obtain ⟨record, -, hy⟩ := hpc
    obtain rfl := Option.some.inj hx
    obtain ⟨y', hy', href⟩ := acknowledge_refines cls (n := n) (f := .sent)
      (hgoes.log (e := .sendReturned n) ⟨rfl, rfl⟩) hloop
    refine ⟨y', .head (a := .sendOk) ?_ hy', href⟩
    simp only [BrokerSide.step, hy]
  case h_11 exc n hat =>
    rw [hat] at hpc
    obtain ⟨record, hrecord, hy⟩ := hpc
    obtain rfl := Option.some.inj hx
    exact failed_refines cls hgoes hrecord hy exc
  case h_12 n hat | h_13 n hat =>
    rw [hat] at hpc
    obtain ⟨record, -, hy⟩ := hpc
    obtain rfl := Option.some.inj hx
    obtain ⟨y', hy', href⟩ := acknowledge_refines cls (n := n) (f := .failed) (hgoes.setClient none) hloop
    refine ⟨y', .head (a := .disconnectOk false) ?_ hy', href⟩
    simp only [BrokerSide.step, hy]
    rfl
  case h_14 e hat =>
    rw [hat] at hpc
    have hy : y.2.2.pc = .closing e := hpc
    obtain rfl := Option.some.inj hx
    refine ⟨(y.resume.setClient false).moveTo (.ended e),
      .single (a := .disconnectOk false) (by simp only [BrokerSide.step, hy]), ?_⟩
    exact (hgoes.setClient none).at rfl
  case h_15 exc e hat =>
    rw [hat] at hpc
    have hy : y.2.2.pc = .closing e := hpc
    obtain rfl := Option.some.inj hx
    refine ⟨((y.resume.report none exc).setClient false).moveTo (.ended e),
      .single (a := .disconnectFail exc) (by simp only [BrokerSide.step, hy]), ?_⟩
    exact ((hgoes.report none exc nofun).setClient none).at rfl
  case h_16 =>
    obtain ⟨hc, hx⟩ := Option.ite_none_right_eq_some.mp hx
    obtain ⟨z, y', hz, hy', href⟩ := interrupt_refines cls running h hx
    refine ⟨y', .head (a := .deliver) ?_ hy', href⟩
    have hc' := h.cancelRequested hc
    unfold BrokerSide.step
    split
    all_goals first
      | contradiction
      | (rw [if_pos hc']; exact hz)
  case h_17 => cases hx

-- ---------------------------------------------------------------------------
-- What others do
-- ---------------------------------------------------------------------------

theorem Refines.grow (h : Refines ownsClient x y) {l : Ledger LogRecord Outcome}
    (hlog : ∀ (n : Nat) (r : LogRecord), x.ledger.log[n]? = some r → l.log[n]? = some r) :
    Refines ownsClient { x with ledger := l } (y.1, l, y.2.2) where
  shares :=
    { h.shares with
      ledger := rfl
      reports := h.shares.reports.imp fun p q (same : SameReport x.ledger.log p q) =>
        (⟨same.number, fun n r hnr => hlog n r (same.record n r hnr), same.exc⟩ : SameReport l.log p q) }
  pc := by
    have hpc := h.pc
    show x.pc.Of l.log y.2.2.pc
    cases hat : x.pc with
    | sending n | disconnecting n =>
      rw [hat] at hpc
      obtain ⟨record, hrecord, hy⟩ := hpc
      exact ⟨record, hlog n record hrecord, hy⟩
    | _ =>
      rw [hat] at hpc
      exact hpc
  cancelRequested := h.cancelRequested
  request := h.request

theorem Refines.cancel (h : Refines ownsClient x y) :
    Refines ownsClient { x with cancelRequested := true }
      (y.1, y.2.1, { y.2.2 with cancelRequested := true }) where
  shares := { h.shares with }
  pc := h.pc
  cancelRequested _ := rfl
  request _ := rfl

/-- The next worker. -/
theorem Refines.restart (h : Refines ownsClient x y) :
    Refines ownsClient { x with pc := .created, connectDelay := connectRetryBase, cancelRequested := false }
      (y.1, y.2.1, ⟨.created, connectRetryBase, false⟩) where
  shares := { h.shares with delay := rfl }
  pc := rfl
  cancelRequested hc := hc
  request _ := rfl

end ClientWorker

-- ---------------------------------------------------------------------------
-- Runs
-- ---------------------------------------------------------------------------

namespace ClientRun

/-- The same run on both levels. -/
structure Refines (ownsClient : Bool) (s : ClientRun) (c : BrokerRun) : Prop where
  worker : ClientWorker.Refines ownsClient s.worker c.side
  running : c.running = s.running

variable {cls : BrokerClass} {injected : Option Nat} {s t : ClientRun}

theorem reaches_of_follows {ownsClient running : Bool} {y y' : BrokerSide LogRecord}
    (h : ClientWorker.Follows ownsClient running y y') :
    (BrokerRun.cycles ownsClient).Reaches Machine.Always ⟨y, running⟩ ⟨y', running⟩ := by
  induction h with
  | refl => exact .refl _
  | tail _ hstep ih =>
    obtain ⟨a, ha⟩ := hstep
    refine ih.tail (a := .act (.worker a)) trivial ?_
    show (BrokerSide.step ownsClient running logEntry a _).map _ = _
    rw [ha]
    rfl

/-- **Every step is followed.** -/
theorem simulation : Machine.Simulation (machine cls injected) Machine.Always
    (BrokerRun.cycles injected.isNone) (Refines injected.isNone) where
  init := by
    rintro s ⟨maxsize, running, rfl⟩
    refine ⟨⟨(⟨!injected.isNone, [], []⟩, .new maxsize, ⟨.created, connectRetryBase, false⟩), running⟩,
      ⟨maxsize, rfl⟩,
      ⟨⟨⟨rfl, fun howns => ?_, rfl, ?_, .nil, rfl, rfl⟩, rfl, fun hc => hc, fun _ => rfl⟩, rfl⟩⟩
    · exact Option.isNone_eq_false_iff.mp howns
    · exact Option.not_isNone injected
  step := by
    rintro s a t hreach - hstep ⟨y, running⟩ ⟨href, hrunning⟩
    have hs := sound hreach
    obtain rfl : running = s.running := hrunning
    cases a with
    | enqueue record =>
      obtain ⟨l, hput, rfl⟩ := Option.map_eq_some_iff.mp hstep
      have hlog : l.log = s.worker.ledger.log ++ [record] := (Ledger.put_eq_some hput).2.1
      refine ⟨⟨(y.1, l, y.2.2), s.running⟩, .tail (a := .act (.enqueue record)) (.refl _) trivial ?_,
        href.grow fun n r hr => ?_, rfl⟩
      · show (y.2.1.put record).map _ = _
        rw [href.shares.ledger, hput]
        rfl
      · rw [hlog, List.getElem?_append_left (List.getElem?_eq_some_iff.mp hr).1, hr]
    | setRunning b =>
      obtain rfl := Option.some.inj hstep
      exact ⟨⟨y, b⟩, .tail (a := .act (.setRunning b)) (.refl _) trivial rfl, href, rfl⟩
    | cancel =>
      obtain rfl := Option.some.inj hstep
      exact ⟨_, .tail (a := .act .cancel) (.refl _) trivial rfl, href.cancel, rfl⟩
    | clear =>
      have hpc := href.pc
      replace hstep : ClientRun.step cls s .clear = some t := hstep
      rw [ClientRun.step] at hstep
      split at hstep
      · rename_i e hat
        rw [hat] at hpc
        obtain ⟨l, hclear, rfl⟩ := Option.map_eq_some_iff.mp hstep
        obtain ⟨l', hl', -, -, hlog, -⟩ := hs.ledger.clear (f := .dropped)
        obtain rfl := Option.some.inj (hl'.symm.trans hclear)
        refine ⟨⟨(y.1, l', y.2.2), s.running⟩, .tail (a := .clear) (.refl _) trivial ?_,
          href.grow fun n r hr => by rw [hlog, hr], rfl⟩
        have hended : (BrokerRun.task ⟨y, s.running⟩).pc = .ended e := hpc
        have hcleared : (BrokerRun.ledger ⟨y, s.running⟩).clear .dropped = some l' := by
          rw [BrokerRun.ledger, href.shares.ledger, hclear]
        show BrokerRun.cycleStep injected.isNone ⟨y, s.running⟩ .clear = _
        rw [BrokerRun.cycleStep, hended]
        simp only [hcleared, Option.map_some]
        rfl
      · cases hstep
    | restart =>
      have hpc := href.pc
      replace hstep : ClientRun.step cls s .restart = some t := hstep
      rw [ClientRun.step] at hstep
      split at hstep
      · rename_i e hat
        rw [hat] at hpc
        obtain rfl := Option.some.inj hstep
        refine ⟨⟨(y.1, y.2.1, ⟨.created, connectRetryBase, false⟩), s.running⟩,
          .tail (a := .restart) (.refl _) trivial ?_, href.restart, rfl⟩
        have hended : (BrokerRun.task ⟨y, s.running⟩).pc = .ended e := hpc
        show BrokerRun.cycleStep injected.isNone ⟨y, s.running⟩ .restart = _
        rw [BrokerRun.cycleStep, hended]
        rfl
      · cases hstep
    | worker act =>
      obtain ⟨x, hx, rfl⟩ := Option.map_eq_some_iff.mp hstep
      obtain ⟨y', hy', href'⟩ := ClientWorker.step_refines href hs.ledger hx
      exact ⟨⟨y', s.running⟩, reaches_of_follows hy', href', rfl⟩

/-- **The worker with its clients refines the worker.** Every run, over any number of starts,
on a client of its own or an injected one, with connections that fail or are cancelled in any
of their awaits, is a run of the worker that knows its client only as there or not: with the
same queue and acknowledgements, the same record in hand, the same delay before it connects
again, and the same calls of `send_message` and of the error channel. -/
theorem refines_worker (hs : (machine cls injected).Reachable Machine.Always s)
    (h : (machine cls injected).Reaches Machine.Always s t) :
    ∃ c d, (BrokerRun.cycles injected.isNone).Reachable Machine.Always c ∧
      (BrokerRun.cycles injected.isNone).Reaches Machine.Always c d ∧
      Refines injected.isNone s c ∧ Refines injected.isNone t d := by
  obtain ⟨c, hc, hrel⟩ := simulation.abstract hs
  obtain ⟨d, hd, hrel'⟩ := simulation.reaches hs h hrel
  exact ⟨c, d, hc, hd, hrel, hrel'⟩

/-- A Redis worker: a cancellation is swallowed by the first ping, the second client is kept. -/
def pinged : List Act :=
  [.worker .start, .worker .built, .cancel, .worker (.pingFails "no answer"),
    .worker (.discarded "no answer" 1), .worker .wake, .worker .built, .worker .pingOk]

/-- A record is sent on it, the worker returns, and another one starts. -/
def sentAndRestarted : List Act :=
  [.enqueue ⟨20, "app", .ok "up", .ok "1970-01-01T00:00:00+00:00"⟩, .worker .get,
    .worker (.sendFail "broken"), .worker .closeOk, .setRunning false, .worker (.buildFails "refused" 1),
    .worker .wake, .restart, .worker .start]

theorem refines_worker_pinged :
    ∃ s t c d, (machine .redis none).run Machine.Always (initial none 8 true) pinged = some s ∧
      (machine .redis none).run Machine.Always s sentAndRestarted = some t ∧
      (BrokerRun.cycles true).Reachable Machine.Always c ∧
      (BrokerRun.cycles true).Reaches Machine.Always c d ∧ Refines true s c ∧ Refines true t d ∧
      d.ledger.acks 0 = [.failed] := by
  have hrun : ((machine .redis none).run Machine.Always (initial none 8 true) pinged).any (fun s =>
      ((machine .redis none).run Machine.Always s sentAndRestarted).any fun t =>
        decide (t.worker.ledger.acks 0 = [.failed])) = true := by
    decide +kernel
  obtain ⟨s, hs, hrest⟩ := (Option.any_eq_true _ _).mp hrun
  obtain ⟨t, ht, hdecide⟩ := (Option.any_eq_true _ _).mp hrest
  have hacks := of_decide_eq_true hdecide
  obtain ⟨c, d, hc, hcd, hrel, hrel'⟩ := refines_worker (.of_run ⟨8, true, rfl⟩ hs) (.of_run ht)
  refine ⟨s, t, c, d, hs, ht, hc, hcd, hrel, hrel', ?_⟩
  rw [BrokerRun.ledger, hrel'.worker.shares.ledger, hacks]

end ClientRun

end ScietexLogging
