import ScietexLogging.Asyncio.Machine
import ScietexLogging.Broker.Segments

/-!
# Broker — the worker survives and acknowledges

The worker of an `AsyncBrokerHandler` runs against a queue others put into, a
running event others clear, a client that may fail at every call, and
cancellations at every suspension.

Main results:

* `worker_delivers` — as long as every record it dequeues can be turned into an
  entry, the worker acknowledges each exactly once, reports each failed one
  once, and ends only when cancelled or when there is nothing left to do;
* `worker_dies_on_bad_record` — a record that cannot be turned into an entry
  ends the worker and stays unacknowledged for good: `getMessage` and
  `iso_timestamp` are called outside the `try` around `send_message`.
-/

namespace ScietexLogging

open Asyncio

structure BrokerRun where
  side : BrokerSide LogRecord
  running : Bool

namespace BrokerRun

inductive Act where
  | enqueue (record : LogRecord)
  | setRunning (b : Bool)
  | cancel
  | worker (a : BrokerAct)

def broker (s : BrokerRun) : Broker LogRecord := s.side.1

def ledger (s : BrokerRun) : Ledger LogRecord Outcome := s.side.2.1

def task (s : BrokerRun) : BrokerTask LogRecord := s.side.2.2

variable (ownsClient : Bool)

def step (s : BrokerRun) : Act → Option BrokerRun
  | .enqueue record =>
    (s.ledger.put record).map fun l => { s with side := (s.broker, l, s.task) }
  | .setRunning b => some { s with running := b }
  | .cancel =>
    some { s with side := (s.broker, s.ledger, { s.task with cancelRequested := true }) }
  | .worker a =>
    (BrokerSide.step ownsClient s.running logEntry a s.side).map fun x => { s with side := x }

/-- The task has just been created, over an empty queue. -/
def Init (s : BrokerRun) : Prop :=
  ∃ client maxsize, s.side = (⟨client, [], []⟩, Ledger.new maxsize, ⟨.created, connectRetryBase, false⟩)

def machine : Machine BrokerRun Act where
  init := Init
  step := step ownsClient

/-- A record about to be dequeued can be turned into an entry. -/
def renders (s : BrokerRun) : Act → Bool
  | .worker .get =>
    match s.ledger.get with
    | some ((_, record), _) => (logEntry record).toBool
    | none => true
  | _ => true

/-- The send of entry `n` has failed. -/
def Failed (s : BrokerRun) (n : Nat) : Prop :=
  s.ledger.acks n = [.failed] ∨ ∃ record, s.task.pc = .disconnecting n record

/-- How often entry `n` was reported. -/
def reportsOf (s : BrokerRun) (n : Nat) : Nat :=
  s.broker.reports.countP fun e => e.1.map Prod.fst == some n

/-- What the worker owes its queue and the error channel; the steps considered
are those that satisfy `ok`. -/
structure Delivers (ok : BrokerRun → Act → Prop) (s : BrokerRun) : Prop where
  /-- Every record dequeued and no longer in hand was acknowledged, once. -/
  acked : ∀ n < s.ledger.taken, s.task.pc.hand ≠ some n → ∃ f, s.ledger.acks n = [f]
  inHand : ∀ n, s.task.pc.hand = some n → n < s.ledger.taken ∧ s.ledger.acks n = []
  /-- A record that could not be sent is reported once, no other is reported. -/
  reported : ∀ n, (s.Failed n → s.reportsOf n = 1) ∧ (¬ s.Failed n → s.reportsOf n = 0)
  ended : ∀ e, s.task.pc = .ended e → e = .returned ∨ e = .cancelled
  counted : ∀ e, s.task.pc = .ended e → s.ledger.queue.unfinished = s.ledger.queue.items.length
  /-- The worker leaves its loop when cancelled, or with nothing left to do. -/
  leaves : ∀ a t e, ok s a → step ownsClient s a = some t → t.side.Leaving e →
    s.side.Leaving e ∨ (e = .cancelled ∧ s.task.cancelRequested = true) ∨
      (e = .returned ∧ t.running = false ∧ t.ledger.queue.items = [])

-- ---------------------------------------------------------------------------
-- The invariant
-- ---------------------------------------------------------------------------

structure Inv (s : BrokerRun) : Prop where
  sound : s.ledger.Sound
  holds : s.ledger.Holds s.task.pc.hand
  acked : ∀ n < s.ledger.taken, s.task.pc.hand ≠ some n → s.ledger.acks n ≠ []
  reported : ∀ n, (s.Failed n → s.reportsOf n = 1) ∧ (¬ s.Failed n → s.reportsOf n = 0)
  notRaised : ¬ s.side.Leaving .raised

variable {ownsClient} {s t : BrokerRun}

theorem renders_get {n : Nat} {record : LogRecord} {l : Ledger LogRecord Outcome}
    (h : s.renders (.worker .get) = true) (hget : s.ledger.get = some ((n, record), l)) :
    ∃ e, logEntry record = .ok e := by
  rw [renders, hget] at h
  cases he : logEntry record with
  | ok e => exact ⟨e, rfl⟩
  | error exc =>
    simp only [he] at h
    exact Bool.noConfusion h

/-- The entries that failed are those acknowledged as failed, when no failed
send is in progress. -/
private theorem failed_iff (n : Nat) (h : ∀ m record, s.task.pc ≠ .disconnecting m record) :
    s.Failed n ↔ s.ledger.acks n = [.failed] := by
  refine or_iff_left ?_
  rintro ⟨record, hpc⟩
  exact h n record hpc

private theorem not_disconnecting (h : s.task.pc.hand = none) (m : Nat) (record : LogRecord) :
    s.task.pc ≠ .disconnecting m record := by
  intro hpc
  rw [hpc] at h
  exact absurd h (by simp [BrokerPc.hand])

theorem Inv.init (h : Init s) : s.Inv := by
  obtain ⟨client, maxsize, hs⟩ := h
  have hledger : s.ledger = Ledger.new maxsize := by rw [ledger, hs]
  have hpc : s.task.pc = .created := by rw [task, hs]
  have hnd := not_disconnecting (s := s) (by rw [hpc]; rfl)
  refine ⟨?_, ?_, ?_, ?_, ?_⟩
  · rw [hledger]
    exact Ledger.Sound.new maxsize
  · rw [hpc]
    exact fun n hn => absurd hn (by simp [BrokerPc.hand])
  · intro n hn
    rw [hledger] at hn
    exact absurd hn (Nat.not_lt_zero n)
  · intro n
    rw [failed_iff n hnd, hledger]
    have hnone : s.reportsOf n = 0 := by simp [reportsOf, broker, hs]
    exact ⟨fun h => absurd h (by simp [Ledger.new]), fun _ => hnone⟩
  · rintro (h | h) <;> rw [← task, hpc] at h <;> cases h

/-- Reports not about a record do not count for any. -/
private theorem countP_none {es : List (Option (Nat × LogRecord) × String)}
    (h : ∀ e ∈ es, e.1 = none) (n : Nat) :
    es.countP (fun e => e.1.map Prod.fst == some n) = 0 := by
  rw [List.countP_eq_zero]
  intro e he
  rw [h e he]
  simp

/-- What the queue and the error channel say about the entries depends on the
acknowledgements, the reports and the failed send in progress only. -/
private theorem reported_congr (hf : ∀ n, t.Failed n ↔ s.Failed n)
    (hr : ∀ n, t.reportsOf n = s.reportsOf n)
    (h : ∀ n, (s.Failed n → s.reportsOf n = 1) ∧ (¬ s.Failed n → s.reportsOf n = 0)) :
    ∀ n, (t.Failed n → t.reportsOf n = 1) ∧ (¬ t.Failed n → t.reportsOf n = 0) := by
  intro n
  rw [hf n, hr n]
  exact h n

/-- One more report, of the record in hand. -/
private theorem reportsOf_append {n : Nat} {record : LogRecord} {exc : String}
    (h : t.broker.reports = s.broker.reports ++ [(some (n, record), exc)]) (m : Nat) :
    t.reportsOf m = s.reportsOf m + if m = n then 1 else 0 := by
  rw [reportsOf, reportsOf, h, List.countP_append]
  by_cases hm : m = n
  · simp [hm]
  · simp [hm, Ne.symm hm]

/-- The record in hand has not failed before, when its send is in progress. -/
private theorem Inv.not_failed {n : Nat} {record : LogRecord} (hi : s.Inv)
    (hpc : s.task.pc = .sending n record) : ¬ s.Failed n := by
  rintro (h | ⟨record', h⟩)
  · have := (hi.holds n (by rw [hpc]; rfl)).2
    rw [h] at this
    exact absurd this (by simp)
  · rw [hpc] at h
    cases h

/-- A segment of the worker keeps the invariant, unless it dequeues a record
that cannot be turned into an entry. -/
private theorem Inv.worker {a : BrokerAct} {y : BrokerSide LogRecord} (hi : s.Inv)
    (hok : s.renders (.worker a) = true)
    (h : BrokerSide.step ownsClient s.running logEntry a s.side = some y) :
    Inv { s with side := y } := by
  obtain ⟨hsound, hholds⟩ := ((brokerConsumer ownsClient logEntry).step_moves s.running a s.side y
    hi.sound hi.holds h).sound hi.sound hi.holds
  have heff := BrokerSide.step_effect hi.sound hi.holds h
  generalize ht : ({ s with side := y } : BrokerRun) = t
  have hl : t.ledger = y.2.1 := by rw [← ht]; rfl
  have hp : t.task.pc = y.2.2.pc := by rw [← ht]; rfl
  have hb : t.broker = y.1 := by rw [← ht]; rfl
  have hside : t.side = y := by rw [← ht]
  -- a worker that leaves its loop raising was already leaving so
  have hraised : ∀ z, BrokerSide.Exit s.running s.side z .raised → False := by
    rintro z (hl | ⟨he, -⟩ | ⟨he, -⟩)
    · exact hi.notRaised hl
    · cases he
    · cases he
  have hsound' : t.ledger.Sound := by rw [hl]; exact hsound
  have hholds' : t.ledger.Holds t.task.pc.hand := by rw [hl, hp]; exact hholds
  cases heff with
  | quiet hand hand' ledger reports leave =>
    obtain ⟨es, hes, hnone⟩ := reports
    have hl' : t.ledger = s.ledger := hl.trans ledger
    refine ⟨hsound', hholds', ?_, reported_congr ?_ ?_ hi.reported, ?_⟩
    · intro n hn _
      rw [hl'] at hn ⊢
      exact hi.acked n hn (by rw [show s.task.pc.hand = none from hand]; simp)
    · intro n
      rw [failed_iff n (not_disconnecting (s := s) hand),
        failed_iff n (not_disconnecting (s := t) (by rw [hp]; exact hand')), hl']
    · intro n
      rw [reportsOf, hb, hes, List.countP_append, countP_none hnone, Nat.add_zero]
      rfl
    · rw [hside]
      exact fun hr => hraised _ (leave _ hr)
  | @take n record getting get composed pc reports =>
    obtain ⟨rfl, hlog, htaken, hacks, -, -⟩ := Ledger.get_eq_some get
    have hpc : t.task.pc = .sending s.ledger.taken record := hp.trans pc
    have hacks' : t.ledger.acks = s.ledger.acks := by rw [hl]; exact hacks
    have htaken' : t.ledger.taken = s.ledger.taken + 1 := by rw [hl]; exact htaken
    have hgetting : s.task.pc = .getting := getting
    refine ⟨hsound', hholds', ?_, reported_congr ?_ ?_ hi.reported, ?_⟩
    · intro m hm hne
      have hmne : m ≠ s.ledger.taken := fun heq => hne (by rw [heq, hpc]; rfl)
      rw [hacks']
      exact hi.acked m (by omega) (by rw [hgetting]; simp [BrokerPc.hand])
    · intro m
      rw [failed_iff m (not_disconnecting (s := s) (by rw [hgetting]; rfl)),
        failed_iff m (by rw [hpc]; exact fun _ _ h => by cases h), hacks']
    · intro m
      rw [reportsOf, hb, reports]
      rfl
    · rw [hside]
      rintro (h | h) <;> rw [pc] at h <;> cases h
  | @spoil n record act getting get bad leaving reports =>
    obtain ⟨exc, hbad⟩ := bad
    have hget : s.ledger.get = some ((n, record), y.2.1) := get
    obtain ⟨e, he⟩ := renders_get (by rw [act] at hok; exact hok) hget
    rw [hbad] at he
    cases he
  | @retire n record exc sending pc ledger reports =>
    have hl' : t.ledger = s.ledger := hl.trans ledger
    have hpc : t.task.pc = .disconnecting n record := hp.trans pc
    have hsending : s.task.pc = .sending n record := sending
    have hnew := reportsOf_append (s := s) (t := t) (by rw [hb]; exact reports)
    refine ⟨hsound', hholds', ?_, fun m => ?_, ?_⟩
    · intro m hm hne
      rw [hl'] at hm ⊢
      refine hi.acked m hm (fun h => hne ?_)
      rw [hsending] at h
      rw [hpc]
      exact h
    · by_cases hm : m = n
      · subst hm
        rw [hnew m, (hi.reported m).2 (hi.not_failed hsending), if_pos rfl]
        exact ⟨fun _ => rfl, fun h => absurd (.inr ⟨record, hpc⟩) h⟩
      · have hfm : t.Failed m ↔ s.Failed m := by
          unfold Failed
          rw [hl', hpc, hsending]
          simp [Ne.symm hm]
        rw [hfm, hnew m, if_neg hm]
        exact hi.reported m
    · rw [hside]
      rintro (h | h) <;> rw [pc] at h <;> cases h
  | @ack n record f hand' ack outcome leave =>
    obtain ⟨-, hlog, htaken, hacks, -, -⟩ := Ledger.ack_eq_some ack
    have hacks' : t.ledger.acks = Function.update s.ledger.acks n (s.ledger.acks n ++ [f]) := by
      rw [hl]
      exact hacks
    have htaken' : t.ledger.taken = s.ledger.taken := by rw [hl]; exact htaken
    have hhand : s.task.pc.hand = some n := by
      rcases outcome with ⟨h, -⟩ | ⟨h, -⟩ | ⟨h, -⟩ <;> rw [task, h] <;> rfl
    have hnil : s.ledger.acks n = [] := (hi.holds n hhand).2
    have hnd' := not_disconnecting (s := t) (by rw [hp]; exact hand')
    -- the other entries are as they were
    have hother : ∀ m, m ≠ n → (t.Failed m ↔ s.Failed m) := by
      intro m hm
      rw [failed_iff m hnd', hacks', Function.update_of_ne hm]
      refine (or_iff_left ?_).symm
      rintro ⟨record', h⟩
      rw [h] at hhand
      exact hm (Option.some.inj hhand)
    have hself : t.Failed n ↔ f = .failed := by
      rw [failed_iff n hnd', hacks', Function.update_self, hnil]
      simp
    refine ⟨hsound', hholds', ?_, fun m => ?_, ?_⟩
    · intro m hm _
      rw [hacks']
      by_cases hmn : m = n
      · rw [hmn, Function.update_self]
        simp
      · rw [Function.update_of_ne hmn]
        exact hi.acked m (by omega) (fun h => hmn (by rw [hhand] at h; exact (Option.some.inj h).symm))
    · rcases outcome with ⟨hpc, rfl, hr⟩ | ⟨hpc, rfl, exc, hr⟩ | ⟨hpc, hf, hr⟩
      · have hsame : t.reportsOf m = s.reportsOf m := by
          rw [reportsOf, hb, hr]
          rfl
        rw [hsame]
        by_cases hm : m = n
        · subst hm
          have : s.Failed m := .inr ⟨record, hpc⟩
          exact ⟨fun _ => (hi.reported m).1 this, fun h => absurd (hself.mpr rfl) h⟩
        · rw [hother m hm]
          exact hi.reported m
      · rw [reportsOf_append (s := s) (t := t) (by rw [hb]; exact hr) m]
        by_cases hm : m = n
        · subst hm
          rw [(hi.reported m).2 (hi.not_failed hpc), if_pos rfl]
          exact ⟨fun _ => rfl, fun h => absurd (hself.mpr rfl) h⟩
        · rw [hother m hm, if_neg hm]
          exact hi.reported m
      · have hsame : t.reportsOf m = s.reportsOf m := by
          rw [reportsOf, hb, hr]
          rfl
        rw [hsame]
        by_cases hm : m = n
        · subst hm
          have hnf : ¬ t.Failed m := by
            rw [hself]
            rcases hf with rfl | ⟨rfl, -⟩ <;> decide
          exact ⟨fun h => absurd h hnf, fun _ => (hi.reported m).2 (hi.not_failed hpc)⟩
        · rw [hother m hm]
          exact hi.reported m
    · rw [hside]
      exact fun hr => hraised _ (leave _ hr)

theorem Inv.step {a : Act} (hi : s.Inv) (hok : s.renders a = true)
    (h : BrokerRun.step ownsClient s a = some t) : t.Inv := by
  cases a with
  | enqueue record =>
    obtain ⟨l, hput, rfl⟩ := Option.map_eq_some_iff.mp h
    obtain ⟨-, hlog, htaken, hacks, -, -⟩ := Ledger.put_eq_some hput
    refine ⟨hi.sound.put hput, ?_, ?_, ?_, hi.notRaised⟩
    · intro n hn
      obtain ⟨hlt, ha⟩ := hi.holds n hn
      exact ⟨by show n < l.taken; omega, by show l.acks n = []; rw [hacks, ha]⟩
    · intro n hn hne
      show l.acks n ≠ []
      have hn' : n < l.taken := hn
      rw [hacks]
      exact hi.acked n (by omega) hne
    · refine reported_congr (s := s) (fun n => ?_) (fun _ => rfl) hi.reported
      show l.acks n = _ ∨ _ ↔ s.ledger.acks n = _ ∨ _
      rw [hacks]
      rfl
  | setRunning b =>
    obtain rfl := Option.some.inj h
    exact ⟨hi.sound, hi.holds, hi.acked, hi.reported, hi.notRaised⟩
  | cancel =>
    obtain rfl := Option.some.inj h
    exact ⟨hi.sound, hi.holds, hi.acked, hi.reported, hi.notRaised⟩
  | worker a =>
    obtain ⟨y, hy, rfl⟩ := Option.map_eq_some_iff.mp h
    exact hi.worker hok hy

theorem Inv.of_reachable
    (h : (machine ownsClient).Reachable (fun s a => s.renders a = true) s) : s.Inv :=
  Machine.invariant (I := Inv) (fun _ h => Inv.init h)
    (fun _ _ _ hi hok hstep => hi.step hok hstep) h

theorem Inv.leaves {a : Act} {e : TaskEnd} (hi : s.Inv) (hok : s.renders a = true)
    (h : BrokerRun.step ownsClient s a = some t) (he : t.side.Leaving e) :
    s.side.Leaving e ∨ (e = .cancelled ∧ s.task.cancelRequested = true) ∨
      (e = .returned ∧ t.running = false ∧ t.ledger.queue.items = []) := by
  cases a with
  | enqueue record =>
    obtain ⟨l, hput, rfl⟩ := Option.map_eq_some_iff.mp h
    exact .inl he
  | setRunning b =>
    obtain rfl := Option.some.inj h
    exact .inl he
  | cancel =>
    obtain rfl := Option.some.inj h
    exact .inl he
  | worker a =>
    obtain ⟨y, hy, rfl⟩ := Option.map_eq_some_iff.mp h
    cases BrokerSide.step_effect hi.sound hi.holds hy with
    | quiet _ _ _ _ leave => exact leave e he
    | take _ _ _ pc _ => rcases he with he | he <;> rw [pc] at he <;> cases he
    | @spoil n record act _ get bad _ _ =>
      obtain ⟨exc, hbad⟩ := bad
      obtain ⟨_, he⟩ := renders_get (by rw [act] at hok; exact hok) get
      rw [hbad] at he
      cases he
    | retire _ pc _ _ => rcases he with he | he <;> rw [pc] at he <;> cases he
    | ack _ _ _ leave => exact leave e he

/-- **The worker delivers.** For every sequence of records, every behaviour of
the client and every cancellation: as long as each record dequeued can be
turned into an entry, the worker meets all it owes. -/
theorem worker_delivers
    (h : (machine ownsClient).Reachable (fun s a => s.renders a = true) s) :
    s.Delivers ownsClient (fun s a => s.renders a = true) := by
  have hi := Inv.of_reachable h
  have hended : ∀ e, s.task.pc = .ended e → s.task.pc.hand = none := by
    intro e he
    rw [he]
    rfl
  refine ⟨?_, hi.holds, hi.reported, ?_, ?_, ?_⟩
  · intro n hn hne
    have hone := hi.sound.once n
    have hpos := List.length_pos_iff.mpr (hi.acked n hn hne)
    exact List.length_eq_one_iff.mp (by omega)
  · intro e he
    cases e with
    | returned => exact .inl rfl
    | cancelled => exact .inr rfl
    | raised => exact absurd (.inr he) hi.notRaised
  · intro e he
    refine hi.sound.unfinished_eq_length fun n hn => hi.acked n hn ?_
    rw [hended e he]
    simp
  · exact fun a t e hok hstep he => hi.leaves hok hstep he

/-- The worker of a connected handler, before its first segment. -/
def connected : BrokerRun :=
  ⟨(⟨true, [], []⟩, Ledger.new 10, ⟨.created, connectRetryBase, false⟩), true⟩

/-- One record is sent, the send of a second fails, then logging stops. -/
def deliverySchedule : List Act :=
  [.enqueue ⟨20, "app", .ok "started", .ok "1970-01-01T00:00:00+00:00"⟩,
   .enqueue ⟨40, "app", .ok "lost", .ok "1970-01-01T00:00:01+00:00"⟩,
   .worker .start, .worker .get, .worker .sendOk, .worker .get,
   .worker (.sendFail "ConnectionError"), .worker (.disconnectOk false),
   .worker (.connectOk true), .setRunning false, .worker .timeout, .worker (.disconnectOk false)]

theorem worker_delivers_run :
    ∃ t, (machine true).run (fun s a => s.renders a = true) connected deliverySchedule = some t ∧
      t.Delivers true (fun s a => s.renders a = true) ∧ t.task.pc = .ended .returned := by
  have hrun : ∃ t, (machine true).run (fun s a => s.renders a = true) connected
      deliverySchedule = some t ∧ t.task.pc = .ended .returned := ⟨_, rfl, rfl⟩
  obtain ⟨t, ht, hpc⟩ := hrun
  exact ⟨t, ht, worker_delivers (.of_run ⟨true, 10, rfl⟩ ht), hpc⟩

/-- A record whose `msg` and `args` do not match, and the worker that gets it. -/
theorem worker_dies_on_bad_record :
    ¬ ∀ s, (machine true).Reachable (fun _ _ => True) s → s.Delivers true (fun _ _ => True) := by
  intro hall
  have hrun : ∃ t, (machine true).run (fun _ _ => True) connected
      [.enqueue ⟨20, "app", .error "TypeError: %d format: a real number is required, not str",
         .ok "1970-01-01T00:00:00+00:00"⟩,
       .worker .start, .worker .get, .worker (.disconnectOk false)] = some t ∧
      t.task.pc = .ended .raised ∧ t.ledger.queue.unfinished = 1 ∧ t.ledger.queue.items = [] :=
    ⟨_, rfl, rfl, rfl, rfl⟩
  obtain ⟨t, ht, hpc, -, -⟩ := hrun
  have hd := hall t (.of_run ⟨true, 10, rfl⟩ ht)
  rcases hd.ended _ hpc with h | h <;> cases h

end BrokerRun

end ScietexLogging
