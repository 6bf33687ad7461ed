import ScietexLogging.Broker.Model

/-!
# Broker — what a segment of the worker does

`BrokerSide.Effect` lists, once, everything a segment can do to the queue, the
record in hand and the error channel; `BrokerSide.step_effect` derives it from
the code. Everything else about the worker is read off this list: that it is a
lawful consumer (`brokerConsumer`), and its survival.
-/

namespace ScietexLogging

open Asyncio

def BrokerPc.hand {α : Type} : BrokerPc α → Option Nat
  | .sending n _ | .disconnecting n _ => some n
  | _ => none

def BrokerPc.ended? {α : Type} : BrokerPc α → Option TaskEnd
  | .ended e => some e
  | _ => none

namespace BrokerSide

variable {α : Type} {ownsClient running : Bool} {entry : α → Except String LogEntry}

/-- The worker is past its loop, on its way to end as `e`. -/
def Leaving (x : BrokerSide α) (e : TaskEnd) : Prop :=
  x.2.2.pc = .closing e ∨ x.2.2.pc = .ended e

@[simp] theorem moveTo_fst (x : BrokerSide α) (pc : BrokerPc α) : (x.moveTo pc).1 = x.1 := rfl
@[simp] theorem moveTo_ledger (x : BrokerSide α) (pc : BrokerPc α) :
    (x.moveTo pc).2.1 = x.2.1 := rfl
@[simp] theorem moveTo_pc (x : BrokerSide α) (pc : BrokerPc α) : (x.moveTo pc).2.2.pc = pc := rfl
@[simp] theorem moveTo_cancelRequested (x : BrokerSide α) (pc : BrokerPc α) :
    (x.moveTo pc).2.2.cancelRequested = x.2.2.cancelRequested := rfl
@[simp] theorem setClient_snd (x : BrokerSide α) (c : Bool) : (x.setClient c).2 = x.2 := rfl
@[simp] theorem setClient_reports (x : BrokerSide α) (c : Bool) :
    (x.setClient c).1.reports = x.1.reports := rfl
@[simp] theorem setDelay_fst (x : BrokerSide α) (d : ℚ) : (x.setDelay d).1 = x.1 := rfl
@[simp] theorem setDelay_ledger (x : BrokerSide α) (d : ℚ) : (x.setDelay d).2.1 = x.2.1 := rfl
@[simp] theorem setDelay_pc (x : BrokerSide α) (d : ℚ) :
    (x.setDelay d).2.2.pc = x.2.2.pc := rfl
@[simp] theorem setDelay_cancelRequested (x : BrokerSide α) (d : ℚ) :
    (x.setDelay d).2.2.cancelRequested = x.2.2.cancelRequested := rfl
@[simp] theorem resume_fst (x : BrokerSide α) : x.resume.1 = x.1 := rfl
@[simp] theorem resume_ledger (x : BrokerSide α) : x.resume.2.1 = x.2.1 := rfl
@[simp] theorem resume_pc (x : BrokerSide α) : x.resume.2.2.pc = x.2.2.pc := rfl
@[simp] theorem resume_cancelRequested (x : BrokerSide α) :
    x.resume.2.2.cancelRequested = false := rfl
@[simp] theorem report_snd (x : BrokerSide α) (r : Option (Nat × α)) (exc : String) :
    (x.report r exc).2 = x.2 := rfl
@[simp] theorem report_reports (x : BrokerSide α) (r : Option (Nat × α)) (exc : String) :
    (x.report r exc).1.reports = x.1.reports ++ [(r, exc)] := rfl

/-- Segments that only move the worker on, leaving queue and reports alone. -/
structure Onward (x y : BrokerSide α) : Prop where
  ledger : y.2.1 = x.2.1
  reports : y.1.reports = x.1.reports
  hand : y.2.2.pc.hand = none
  cancelRequested : y.2.2.cancelRequested = x.2.2.cancelRequested
  calls : y.1.calls = x.1.calls

theorem finish_spec (ownsClient : Bool) (x : BrokerSide α) (e : TaskEnd) :
    Onward x (x.finish ownsClient e) ∧ Leaving (x.finish ownsClient e) e := by
  unfold finish
  split
  · exact ⟨⟨rfl, rfl, rfl, rfl, rfl⟩, .inl rfl⟩
  · exact ⟨⟨rfl, rfl, rfl, rfl, rfl⟩, .inr rfl⟩

theorem Leaving.unique {x : BrokerSide α} {e e' : TaskEnd} (h : x.Leaving e) (h' : x.Leaving e') :
    e = e' := by
  rcases h with h | h <;> rcases h' with h' | h' <;> rw [h] at h' <;> cases h' <;> rfl

/-- The loop is left only when logging has stopped and the queue is empty. -/
theorem loopHead_spec (ownsClient running : Bool) (x : BrokerSide α) :
    Onward x (x.loopHead ownsClient running) ∧
      ∀ e, (x.loopHead ownsClient running).Leaving e →
        e = .returned ∧ running = false ∧ x.2.1.queue.items = [] := by
  unfold loopHead
  split
  · split
    · exact ⟨⟨rfl, rfl, rfl, rfl, rfl⟩, fun e he => by rcases he with he | he <;> cases he⟩
    · split
      · exact ⟨⟨rfl, rfl, rfl, rfl, rfl⟩, fun e he => by rcases he with he | he <;> cases he⟩
      · exact ⟨⟨rfl, rfl, rfl, rfl, rfl⟩, fun e he => by rcases he with he | he <;> cases he⟩
  · rename_i hcond
    obtain ⟨hon, hleave⟩ := finish_spec ownsClient x .returned
    refine ⟨hon, fun e he => ⟨he.unique hleave, ?_⟩⟩
    simpa using hcond

/-- Why the worker is past its loop. -/
def Exit (running : Bool) (x y : BrokerSide α) (e : TaskEnd) : Prop :=
  x.Leaving e ∨ (e = .cancelled ∧ x.2.2.cancelRequested = true) ∨
    (e = .returned ∧ running = false ∧ y.2.1.queue.items = [])

/-- Everything a segment can do to the queue, the record in hand, the broker and
the error channel. -/
inductive Effect (running : Bool) (entry : α → Except String LogEntry) (a : BrokerAct)
    (x y : BrokerSide α) : Prop
  | quiet (hand : x.2.2.pc.hand = none) (hand' : y.2.2.pc.hand = none) (ledger : y.2.1 = x.2.1)
      (reports : ∃ es, y.1.reports = x.1.reports ++ es ∧ ∀ e ∈ es, e.1 = none)
      (leave : ∀ e, y.Leaving e → Exit running x y e) (calls : y.1.calls = x.1.calls)
  | take {n : Nat} {record : α} (getting : x.2.2.pc = .getting)
      (get : x.2.1.get = some ((n, record), y.2.1)) (composed : ∃ e, entry record = .ok e)
      (pc : y.2.2.pc = .sending n record) (reports : y.1.reports = x.1.reports)
      (calls : ∃ e, entry record = .ok e ∧ y.1.calls = x.1.calls ++ [(n, e)])
  | spoil {n : Nat} {record : α} (act : a = .get) (getting : x.2.2.pc = .getting)
      (get : x.2.1.get = some ((n, record), y.2.1)) (bad : ∃ exc, entry record = .error exc)
      (leaving : y.Leaving .raised) (reports : y.1.reports = x.1.reports)
      (calls : y.1.calls = x.1.calls)
  | retire {n : Nat} {record : α} {exc : String} (sending : x.2.2.pc = .sending n record)
      (pc : y.2.2.pc = .disconnecting n record) (ledger : y.2.1 = x.2.1)
      (reports : y.1.reports = x.1.reports ++ [(some (n, record), exc)])
      (calls : y.1.calls = x.1.calls)
  | ack {n : Nat} {record : α} {f : Outcome} (hand' : y.2.2.pc.hand = none)
      (ack : x.2.1.ack n f = some y.2.1)
      (outcome :
        (x.2.2.pc = .disconnecting n record ∧ f = .failed ∧ y.1.reports = x.1.reports) ∨
        (x.2.2.pc = .sending n record ∧ f = .failed ∧
          ∃ exc, y.1.reports = x.1.reports ++ [(some (n, record), exc)]) ∨
        (x.2.2.pc = .sending n record ∧ (f = .sent ∨ f = .interrupted ∧
          x.2.2.cancelRequested = true) ∧ y.1.reports = x.1.reports))
      (leave : ∀ e, y.Leaving e → Exit running x y e) (calls : y.1.calls = x.1.calls)

/-- Acknowledging the record in hand succeeds, and the worker moves on by `next`. -/
private theorem acknowledge_effect {a : BrokerAct} {x x' : BrokerSide α} {n : Nat} (record : α)
    {f : Outcome}
    {next : BrokerSide α → BrokerSide α} (hs : x.2.1.Sound) (hh : x.2.1.Holds x.2.2.pc.hand)
    (hhand : x.2.2.pc.hand = some n) (hledger : x'.2.1 = x.2.1)
    (hnext : ∀ z : BrokerSide α, Onward z (next z) ∧ ∀ e, (next z).Leaving e →
      (e = .cancelled ∧ x.2.2.cancelRequested = true) ∨
        (e = .returned ∧ running = false ∧ z.2.1.queue.items = []))
    (houtcome :
      (x.2.2.pc = .disconnecting n record ∧ f = .failed ∧ x'.1.reports = x.1.reports) ∨
      (x.2.2.pc = .sending n record ∧ f = .failed ∧
        ∃ exc, x'.1.reports = x.1.reports ++ [(some (n, record), exc)]) ∨
      (x.2.2.pc = .sending n record ∧ (f = .sent ∨ f = .interrupted ∧
        x.2.2.cancelRequested = true) ∧ x'.1.reports = x.1.reports))
    (hcalls : x'.1.calls = x.1.calls) :
    Effect running entry a x (x'.acknowledge ownsClient n f next) := by
  obtain ⟨hlt, ha⟩ := hh n hhand
  obtain ⟨l, hl⟩ := Ledger.ack_of_pos (hs.unfinished_pos hlt ha) n f
  have heq : x'.acknowledge ownsClient n f next = next (x'.1, l, x'.2.2) := by
    rw [acknowledge, hledger, hl]
  obtain ⟨hon, hleave⟩ := hnext (x'.1, l, x'.2.2)
  rw [heq]
  have hack : x.2.1.ack n f = some (next (x'.1, l, x'.2.2)).2.1 := by rw [hon.ledger]; exact hl
  refine @Effect.ack _ _ _ _ _ _ n record f hon.hand hack ?_ (fun e he => .inr ?_)
    (hon.calls.trans hcalls)
  · rw [hon.reports]
    exact houtcome
  · rw [hon.ledger]
    exact hleave e he

private theorem finish_next (x z : BrokerSide α) (hc : x.2.2.cancelRequested = true) :
    Onward z (z.finish ownsClient .cancelled) ∧
      ∀ e, (z.finish ownsClient .cancelled).Leaving e →
        (e = .cancelled ∧ x.2.2.cancelRequested = true) ∨
          (e = .returned ∧ running = false ∧ z.2.1.queue.items = []) := by
  obtain ⟨hon, hleave⟩ := finish_spec ownsClient z .cancelled
  exact ⟨hon, fun e he => .inl ⟨he.unique hleave, hc⟩⟩

private theorem loopHead_next (x z : BrokerSide α) :
    Onward z (z.loopHead ownsClient running) ∧
      ∀ e, (z.loopHead ownsClient running).Leaving e →
        (e = .cancelled ∧ x.2.2.cancelRequested = true) ∨
          (e = .returned ∧ running = false ∧ z.2.1.queue.items = []) := by
  obtain ⟨hon, hleave⟩ := loopHead_spec ownsClient running z
  exact ⟨hon, fun e he => .inr (hleave e he)⟩

private theorem interrupt_effect {a : BrokerAct} {x y : BrokerSide α} (hs : x.2.1.Sound)
    (hh : x.2.1.Holds x.2.2.pc.hand) (hc : x.2.2.cancelRequested = true)
    (h : x.resume.interrupt ownsClient = some y) : Effect running entry a x y := by
  have hleave : ∀ z e, z.Leaving .cancelled → z.Leaving e → Exit running x z e :=
    fun z e hz he => .inr (.inl ⟨he.unique hz, hc⟩)
  unfold interrupt at h
  split at h
  · rename_i hpc
    rw [resume_pc] at hpc
    obtain rfl := Option.some.inj h
    exact .quiet (by rw [hpc]; rfl) rfl rfl ⟨[], by simp⟩ (fun e => hleave _ e (.inr rfl)) rfl
  iterate 3
    rename_i hpc
    rw [resume_pc] at hpc
    obtain rfl := Option.some.inj h
    obtain ⟨hon, hl⟩ := finish_spec ownsClient x.resume .cancelled
    exact .quiet (by rw [hpc]; rfl) hon.hand hon.ledger ⟨[], by simp [hon.reports]⟩
      (fun e => hleave _ e hl) hon.calls
  · rename_i n record hpc
    rw [resume_pc] at hpc
    obtain rfl := Option.some.inj h
    exact acknowledge_effect record hs hh (by rw [hpc]; rfl) rfl
      (fun z => finish_next x z hc) (.inr (.inr ⟨hpc, .inr ⟨rfl, hc⟩, rfl⟩)) rfl
  -- the failed send was reported before the client was told to disconnect
  · rename_i n record hpc
    rw [resume_pc] at hpc
    obtain rfl := Option.some.inj h
    exact acknowledge_effect record hs hh (by rw [hpc]; rfl) rfl
      (fun z => finish_next x z hc) (.inl ⟨hpc, rfl, rfl⟩) rfl
  · rename_i hpc
    rw [resume_pc] at hpc
    obtain rfl := Option.some.inj h
    exact .quiet (by rw [hpc]; rfl) rfl rfl ⟨[], by simp⟩ (fun e => hleave _ e (.inr rfl)) rfl
  · exact absurd h (by simp)

/-- **What a segment does.** -/
theorem step_effect {a : BrokerAct} {x y : BrokerSide α} (hs : x.2.1.Sound)
    (hh : x.2.1.Holds x.2.2.pc.hand) (h : step ownsClient running entry a x = some y) :
    Effect running entry a x y := by
  have hquiet : ∀ z : BrokerSide α, x.2.2.pc.hand = none → z.2.1 = x.2.1 →
      z.1.reports = x.1.reports → z.1.calls = x.1.calls →
        Effect running entry a x (z.loopHead ownsClient running) := by
    intro z hx hz hr hcalls
    obtain ⟨hon, hleave⟩ := loopHead_spec ownsClient running z
    refine .quiet hx hon.hand (hon.ledger.trans hz) ⟨[], by simp [hon.reports, hr]⟩ ?_
      (hon.calls.trans hcalls)
    intro e he
    refine .inr (.inr ?_)
    rw [hon.ledger]
    exact hleave e he
  unfold step at h
  split at h
  · rename_i hpc
    split at h
    · exact absurd h (by simp)
    · obtain rfl := Option.some.inj h
      exact hquiet _ (by rw [hpc]; rfl) rfl rfl rfl
  · rename_i hpc
    obtain rfl := Option.some.inj h
    refine .quiet (by rw [hpc]; rfl) rfl rfl ⟨[], by simp⟩ (fun e he => ?_) rfl
    rcases he with he | he <;> cases he
  · rename_i exc hpc
    obtain rfl := Option.some.inj h
    refine .quiet (by rw [hpc]; rfl) rfl rfl ⟨[(none, exc)], by simp⟩ (fun e he => ?_) rfl
    rcases he with he | he <;> cases he
  · rename_i hpc
    split at h
    · exact absurd h (by simp)
    · obtain rfl := Option.some.inj h
      exact hquiet _ (by rw [hpc]; rfl) rfl rfl rfl
  · rename_i hpc
    obtain ⟨⟨⟨n, record⟩, l⟩, hget, rfl⟩ := Option.map_eq_some_iff.mp h
    unfold compose
    split
    · rename_i e he
      exact .take hpc hget ⟨e, he⟩ rfl rfl ⟨e, he, rfl⟩
    · rename_i exc he
      obtain ⟨hon, hl⟩ := finish_spec ownsClient
        (x.resume.1, l, x.resume.2.2) .raised
      exact .spoil rfl hpc (by rw [hon.ledger]; exact hget) ⟨exc, he⟩ hl hon.reports
        hon.calls
  · rename_i hpc
    split at h
    · exact absurd h (by simp)
    · obtain rfl := Option.some.inj h
      exact hquiet _ (by rw [hpc]; rfl) rfl rfl rfl
  · rename_i n record hpc
    obtain rfl := Option.some.inj h
    exact acknowledge_effect record hs hh (by rw [hpc]; rfl) rfl
      (fun z => loopHead_next x z) (.inr (.inr ⟨hpc, .inl rfl, rfl⟩)) rfl
  · rename_i exc n record hpc
    obtain rfl := Option.some.inj h
    split
    · exact .retire hpc rfl rfl rfl rfl
    · exact acknowledge_effect record hs hh (by rw [hpc]; rfl) rfl
        (fun z => loopHead_next x z) (.inr (.inl ⟨hpc, rfl, exc, rfl⟩)) rfl
  iterate 2
    rename_i n record hpc
    obtain rfl := Option.some.inj h
    exact acknowledge_effect record hs hh (by rw [hpc]; rfl) rfl
      (fun z => loopHead_next x z) (.inl ⟨hpc, rfl, rfl⟩) rfl
  · rename_i e hpc
    obtain rfl := Option.some.inj h
    refine .quiet (by rw [hpc]; rfl) rfl rfl ⟨[], by simp⟩ (fun e' he => .inl ?_) rfl
    rw [he.unique (.inr rfl)]
    exact .inl hpc
  · rename_i exc e hpc
    obtain rfl := Option.some.inj h
    refine .quiet (by rw [hpc]; rfl) rfl rfl ⟨[(none, exc)], by simp⟩ (fun e' he => .inl ?_) rfl
    rw [he.unique (.inr rfl)]
    exact .inl hpc
  · split at h
    · rename_i hc
      exact interrupt_effect hs hh hc h
    · exact absurd h (by simp)
  · exact absurd h (by simp)

private theorem acknowledge_cancelRequested (x : BrokerSide α) (n : Nat) (f : Outcome)
    {next : BrokerSide α → BrokerSide α} (hnext : ∀ z, Onward z (next z)) :
    (x.acknowledge ownsClient n f next).2.2.cancelRequested = x.2.2.cancelRequested := by
  unfold acknowledge
  split
  · rw [(hnext _).cancelRequested]
  · rw [(finish_spec _ _ _).1.cancelRequested]

/-- A request to cancel the task does not outlive the segment it is met by. -/
theorem step_cancelRequested {a : BrokerAct} {x y : BrokerSide α}
    (h : step ownsClient running entry a x = some y) : y.2.2.cancelRequested = false := by
  have hloop : ∀ z : BrokerSide α, Onward z (z.loopHead ownsClient running) :=
    fun z => (loopHead_spec ownsClient running z).1
  have hfin : ∀ e, ∀ z : BrokerSide α, Onward z (z.finish ownsClient e) :=
    fun e z => (finish_spec ownsClient z e).1
  unfold step at h
  split at h
  case h_1 | h_4 | h_6 =>
    split at h
    · exact absurd h (by simp)
    · rename_i hc
      obtain rfl := Option.some.inj h
      rw [(hloop _).cancelRequested]
      exact Bool.eq_false_iff.mpr hc
  case h_2 | h_3 | h_11 | h_12 =>
    obtain rfl := Option.some.inj h
    rfl
  case h_5 =>
    obtain ⟨p, -, rfl⟩ := Option.map_eq_some_iff.mp h
    unfold compose
    split
    · rfl
    · rw [(hfin _ _).cancelRequested]
      rfl
  case h_7 | h_9 | h_10 =>
    obtain rfl := Option.some.inj h
    rw [acknowledge_cancelRequested _ _ _ hloop]
    rfl
  case h_8 =>
    obtain rfl := Option.some.inj h
    split
    · rfl
    · rw [acknowledge_cancelRequested _ _ _ hloop]
      rfl
  case h_13 =>
    split at h
    · unfold interrupt at h
      split at h
      case h_5 | h_6 =>
        obtain rfl := Option.some.inj h
        rw [acknowledge_cancelRequested _ _ _ (hfin _)]
        rfl
      case h_8 => exact absurd h (by simp)
      all_goals obtain rfl := Option.some.inj h
      case h_1 | h_7 => rfl
      all_goals
        rw [(hfin _ _).cancelRequested]
        rfl
    · exact absurd h (by simp)
  case h_14 => exact absurd h (by simp)

theorem step_ended {a : BrokerAct} {x : BrokerSide α} {e : TaskEnd}
    (hx : x.2.2.pc.ended? = some e) : step ownsClient running entry a x = none := by
  have hpc : x.2.2.pc = .ended e := by
    cases hp : x.2.2.pc <;> rw [hp] at hx <;> simp_all [BrokerPc.ended?]
  unfold step
  rw [hpc]
  cases a <;> simp [interrupt, hpc]

/-- What a segment of the worker may acknowledge with. -/
def Allows (_a : BrokerAct) (t : BrokerTask α) (n : Nat) (f : Outcome) : Prop :=
  f = .sent ∨ f = .failed ∨ f = .interrupted ∧ t.cancelRequested = true ∧ t.pc.hand = some n

/-- The record about to be dequeued cannot be turned into an entry. -/
def spoils (entry : α → Except String LogEntry) (a : BrokerAct) (l : Ledger α Outcome) : Bool :=
  match a, l.get with
  | .get, some ((_, record), _) => !(entry record).toBool
  | _, _ => false

theorem spoils_get {l l' : Ledger α Outcome} {n : Nat} {record : α}
    (h : l.get = some ((n, record), l')) : spoils entry .get l = !(entry record).toBool := by
  simp only [spoils, h]

/-- The moves behind an effect. -/
private theorem Effect.moves {a : BrokerAct} {x y : BrokerSide α} (h : Effect running entry a x y) :
    Ledger.Moves (Allows a x.2.2) (spoils entry a x.2.1 = true)
      (x.2.2.pc.hand, x.2.1) (y.2.2.pc.hand, y.2.1) := by
  cases h with
  | quiet hand hand' ledger _ _ =>
    rw [hand, hand', ledger]
  | @take n record getting get composed pc _ =>
    rw [getting, pc]
    exact .single (.take get)
  | @spoil n record act getting get bad leaving _ =>
    have hy : y.2.2.pc.hand = none := by
      rcases leaving with h | h <;> rw [h] <;> rfl
    have hspoils : spoils entry a x.2.1 = true := by
      obtain ⟨exc, hexc⟩ := bad
      rw [act, spoils_get get, hexc]
      rfl
    rw [getting, hy]
    exact .tail (.single (.take get)) (.lose hspoils)
  | retire sending pc ledger _ =>
    rw [sending, pc, ledger]
    exact .refl
  | @ack n record f hand' ack outcome _ =>
    have hx : x.2.2.pc.hand = some n := by
      rcases outcome with ⟨h, -⟩ | ⟨h, -⟩ | ⟨h, -⟩ <;> rw [h] <;> rfl
    have hf : Allows a x.2.2 n f := by
      rcases outcome with ⟨-, hf, -⟩ | ⟨-, hf, -⟩ | ⟨-, hf | hf, -⟩
      · exact .inr (.inl hf)
      · exact .inr (.inl hf)
      · exact .inl hf
      · exact .inr (.inr ⟨hf.1, hf.2, hx⟩)
    rw [hx, hand']
    exact .single (.ack hf ack)

end BrokerSide

/-- The broker worker as a consumer of its queue. -/
def brokerConsumer (ownsClient : Bool) {α : Type} (entry : α → Except String LogEntry) :
    Consumer α Outcome where
  Shared := Broker α
  Task := BrokerTask α
  Act := BrokerAct
  initial := ⟨!ownsClient, [], []⟩
  create := ⟨.created, connectRetryBase, false⟩
  cancel := fun t => { t with cancelRequested := true }
  cancelRequested := (·.cancelRequested)
  hand := (·.pc.hand)
  ended := (·.pc.ended?)
  step := fun running a x => BrokerSide.step ownsClient running entry a x
  outcome := BrokerSide.Allows
  loses := BrokerSide.spoils entry
  create_hand := rfl
  create_ended := rfl
  create_quiet := rfl
  cancel_hand := fun _ => rfl
  cancel_ended := fun _ => rfl
  ended_hand := fun t e h => by
    cases hp : t.pc <;> rw [hp] at h <;> simp_all [BrokerPc.ended?, BrokerPc.hand]
  ended_step := fun _ _ _ _ _ he h => by
    rw [BrokerSide.step_ended he] at h
    exact absurd h (by simp)
  step_moves := fun _ _ _ _ hs hh h => (BrokerSide.step_effect hs hh h).moves
  step_quiet := fun _ _ _ _ h hc => by
    rw [BrokerSide.step_cancelRequested h] at hc
    exact absurd hc (by simp)

end ScietexLogging
