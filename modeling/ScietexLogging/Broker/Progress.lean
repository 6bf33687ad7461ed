import ScietexLogging.Asyncio.Progress
import ScietexLogging.Broker.Segments

/-!
# Broker — a worker can always end

Wherever a broker worker stands when the handler stops running, it works off the rest of
its queue and ends, if the broker can be reached and the calls of the client return.
-/

namespace ScietexLogging

open Asyncio

/-- How far the worker is from its end, within a turn of its loop. -/
def BrokerPc.rank {α : Type} : BrokerPc α → Nat
  | .ended _ => 0
  | .closing _ => 1
  | .getting => 2
  | .connecting => 3
  | .created | .sleeping | .sending _ _ | .disconnecting _ _ => 4

namespace BrokerSide

variable {α : Type} {ownsClient : Bool} {entry : α → Except String LogEntry} {x y : BrokerSide α}

def work (x : BrokerSide α) : Nat := 4 * x.2.1.queue.items.length

/-- The variant. -/
def toGo (x : BrokerSide α) : Nat := x.work + x.2.2.pc.rank

theorem finish_toGo (ownsClient : Bool) (x : BrokerSide α) (e : TaskEnd) :
    (x.finish ownsClient e).toGo ≤ x.work + 1 := by
  unfold finish
  split
  · exact Nat.le_refl _
  · exact Nat.le_succ _

theorem loopHead_toGo (ownsClient : Bool) (running : Bool) (x : BrokerSide α) :
    (x.loopHead ownsClient running).toGo ≤ x.work + 3 := by
  unfold loopHead
  split
  · split
    · exact Nat.le_succ _
    · split
      · exact Nat.le_refl _
      · exact Nat.le_succ _
  · exact (finish_toGo ownsClient x .returned).trans (Nat.le_add_right _ 2)

/-- At the head of its loop a worker with an empty queue leaves. -/
theorem loopHead_empty (hempty : x.2.1.queue.items = []) :
    x.loopHead ownsClient false = x.finish ownsClient .returned := by
  rw [loopHead, hempty]
  rfl

theorem acknowledge_toGo (x : BrokerSide α) (n : Nat) (f : Outcome)
    {next : BrokerSide α → BrokerSide α} (hnext : ∀ z : BrokerSide α, (next z).toGo ≤ z.work + 3) :
    (x.acknowledge ownsClient n f next).toGo ≤ x.work + 3 := by
  unfold acknowledge
  split
  · rename_i l hl
    obtain ⟨-, -, -, -, hitems, -⟩ := Ledger.ack_eq_some hl
    have hwork : work (x.1, l, x.2.2) = x.work := by rw [work, work, hitems]
    rw [← hwork]
    exact hnext _
  · exact (finish_toGo ownsClient x .raised).trans (Nat.le_add_right _ 2)

theorem compose_toGo (x : BrokerSide α) (n : Nat) (record : α) :
    (x.compose ownsClient entry n record).toGo ≤ x.work + 4 := by
  unfold compose
  split
  · exact Nat.le_refl _
  · exact (finish_toGo ownsClient x .raised).trans (Nat.le_add_right _ 3)

/-- A cancellation during a sleep or a `get` leaves the loop. -/
theorem deliver_finishes {running : Bool} (hcancel : x.2.2.cancelRequested = true)
    (hat : x.2.2.pc = .sleeping ∨ x.2.2.pc = .getting) :
    step ownsClient running entry .deliver x = some (x.resume.finish ownsClient .cancelled) := by
  have hresume : x.resume.2.2.pc = x.2.2.pc := rfl
  rcases hat with hat | hat
  · simp only [step, hcancel, if_true, interrupt, hresume, hat]
  · simp only [step, hcancel, if_true, interrupt, hresume, hat]

/-- **A worker goes on**, once the handler does not run any more. -/
theorem worker_goes (hpc : x.2.2.pc.ended? = none) :
    ∃ a y, step ownsClient false entry a x = some y ∧ y.toGo < x.toGo := by
  have htoGo : x.toGo = x.work + x.2.2.pc.rank := rfl
  have hresume : x.resume.2.2.pc = x.2.2.pc := rfl
  have hloop : ∀ z : BrokerSide α, (z.loopHead ownsClient false).toGo ≤ z.work + 3 :=
    loopHead_toGo ownsClient false
  cases hat : x.2.2.pc with
  | created =>
    cases hcancel : x.2.2.cancelRequested with
    | true =>
      refine ⟨.deliver, x.resume.moveTo (.ended .cancelled), ?_, ?_⟩
      · simp only [step, hcancel, if_true, interrupt, hresume, hat]
      · rw [htoGo, hat]
        exact Nat.add_lt_add_left (Nat.succ_pos 3) x.work
    | false =>
      refine ⟨.start, _, by simp only [step, hat, hcancel]; rfl, Nat.lt_of_le_of_lt (hloop _) ?_⟩
      rw [htoGo, hat]
      exact Nat.lt_succ_self _
  | connecting =>
    refine ⟨.connectOk true, _, by simp only [step, hat]; rfl, ?_⟩
    rw [htoGo, hat]
    exact Nat.lt_succ_self _
  | sleeping =>
    cases hcancel : x.2.2.cancelRequested with
    | true =>
      refine ⟨.deliver, _, deliver_finishes hcancel (.inl hat),
        Nat.lt_of_le_of_lt (finish_toGo ownsClient x.resume .cancelled) ?_⟩
      rw [htoGo, hat]
      exact Nat.add_lt_add_left (show 1 < 4 by decide) x.work
    | false =>
      refine ⟨.wake, _, by simp only [step, hat, hcancel]; rfl, Nat.lt_of_le_of_lt (hloop _) ?_⟩
      rw [htoGo, hat]
      exact Nat.lt_succ_self _
  | getting =>
    cases hget : x.2.1.get with
    | some p =>
      obtain ⟨⟨n, record⟩, l⟩ := p
      obtain ⟨-, -, -, -, hitems, -⟩ := Ledger.get_eq_some hget
      refine ⟨.get, _, by simp only [step, hat, hget, Option.map_some]; rfl,
        Nat.lt_of_le_of_lt (compose_toGo _ n record) ?_⟩
      rw [htoGo, hat]
      show 4 * l.queue.items.length + 4 < 4 * x.2.1.queue.items.length + 2
      rw [hitems, List.length_cons]
      omega
    | none =>
      have hempty := Ledger.get_eq_none.mp hget
      cases hcancel : x.2.2.cancelRequested with
      | true =>
        refine ⟨.deliver, _, deliver_finishes hcancel (.inr hat),
          Nat.lt_of_le_of_lt (finish_toGo ownsClient x.resume .cancelled) ?_⟩
        rw [htoGo, hat]
        exact Nat.lt_succ_self _
      | false =>
        refine ⟨.timeout, x.finish ownsClient .returned, ?_,
          Nat.lt_of_le_of_lt (finish_toGo ownsClient x .returned) ?_⟩
        · simp only [step, hat, hcancel, loopHead_empty hempty]
          rfl
        · rw [htoGo, hat]
          exact Nat.lt_succ_self _
  | sending n record =>
    refine ⟨.sendOk, _, by simp only [step, hat]; rfl,
      Nat.lt_of_le_of_lt (acknowledge_toGo _ n .sent hloop) ?_⟩
    rw [htoGo, hat]
    exact Nat.lt_succ_self _
  | disconnecting n record =>
    refine ⟨.disconnectOk false, _, by simp only [step, hat]; rfl,
      Nat.lt_of_le_of_lt (acknowledge_toGo _ n .failed hloop) ?_⟩
    rw [htoGo, hat]
    exact Nat.lt_succ_self _
  | closing e =>
    refine ⟨.disconnectOk false, _, by simp only [step, hat]; rfl, ?_⟩
    rw [htoGo, hat]
    exact Nat.lt_succ_self _
  | ended e =>
    rw [hat] at hpc
    cases hpc

end BrokerSide

/-- **A broker worker can end**, once the handler does not run any more. -/
theorem broker_canEnd (ownsClient : Bool) {α : Type} (entry : α → Except String LogEntry)
    (t : BrokerTask α) : (brokerConsumer ownsClient entry).CanEnd t := by
  have hgoes : ∀ x : BrokerSide α, True → ¬ x.2.2.pc.ended? ≠ none →
      ∃ y, ((brokerConsumer ownsClient entry).machine false).Reaches Machine.Always x y ∧
        True ∧ BrokerSide.toGo y < x.toGo := by
    intro x _ hnot
    have hgo : ∃ a y, BrokerSide.step ownsClient false entry a x = some y ∧ y.toGo < x.toGo :=
      BrokerSide.worker_goes (not_not.mp hnot)
    obtain ⟨a, y, hy, hlt⟩ := hgo
    exact ⟨y, .single trivial hy, trivial, hlt⟩
  intro shared ledger
  obtain ⟨y, hy, -, hend⟩ := Machine.reaches_of_variant BrokerSide.toGo hgoes trivial
  exact ⟨y, hy, hend⟩

end ScietexLogging
