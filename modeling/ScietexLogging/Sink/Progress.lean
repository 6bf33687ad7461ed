import ScietexLogging.Asyncio.Progress
import ScietexLogging.Sink.Segments

/-!
# Sink — a worker can always end

A worker that waits for a job of its executor waits for one that is over or that the
thread will come to: it is never stuck. Once the handler has stopped running, the thread
works off what it has, the worker the rest of its queue, and then it ends.

* `Awaits`      — what a worker waits for will be there;
* `step_awaits` — no segment, and no step of the thread, takes that away;
* `canEnd`      — a worker of which that holds can end.
-/

namespace ScietexLogging

open Asyncio

namespace SinkPc

variable {α : Type}

/-- The job the worker waits for is over, or its thread will come to it. -/
def Awaits (ex : Executor Job) : SinkPc α → Prop
  | .writing _ _ job | .closing _ job => ex.Expects job
  | .created | .getting | .shutting _ | .ended _ => True

theorem Awaits.mono {ex ex' : Executor Job} {pc : SinkPc α} (h : pc.Awaits ex)
    (hex : ∀ n, ex.Expects n → ex'.Expects n) : pc.Awaits ex' := by
  cases pc with
  | writing n record job => exact hex job h
  | closing e job => exact hex job h
  | created | getting | shutting _ | ended _ => trivial

/-- How far the worker is from its end, within a turn of its loop. -/
def rank : SinkPc α → Nat
  | .ended _ => 0
  | .shutting _ => 1
  | .closing _ _ => 2
  | .getting => 5
  | .created | .writing _ _ _ => 6

end SinkPc

namespace SinkSide

variable {α : Type} {kind : SinkKind} {running : Bool} {x y : SinkSide α}

/-- What the worker waits for will be there. -/
def Awaits (x : SinkSide α) : Prop := x.2.2.pc.Awaits x.2.2.executor

/-- What is left on the queue and on the executor. -/
def work (x : SinkSide α) : Nat := 4 * x.2.1.queue.items.length + x.2.2.executor.load

/-- The variant. -/
def toGo (x : SinkSide α) : Nat := x.work + x.2.2.pc.rank

-- ---------------------------------------------------------------------------
-- The thread
-- ---------------------------------------------------------------------------

theorem begins_awaits (hx : x.Awaits) {ex : Executor Job} (h : x.2.2.executor.begin = some ex) :
    (x.setExecutor ex).Awaits ∧ (x.setExecutor ex).toGo < x.toGo := by
  refine ⟨hx.mono fun n hn => hn.begin h, ?_⟩
  have hload := Executor.load_begin h
  show 4 * x.2.1.queue.items.length + ex.load + x.2.2.pc.rank <
    4 * x.2.1.queue.items.length + x.2.2.executor.load + x.2.2.pc.rank
  omega

theorem endJob_awaits (hx : x.Awaits) {n : Nat} {j : Job} (h : x.2.2.executor.running = some (n, j))
    (fx : Sink α → Sink α × Bool) : (x.endJob n fx).Awaits ∧ (x.endJob n fx).toGo < x.toGo := by
  refine ⟨hx.mono fun m hm => hm.finish h _, ?_⟩
  have hload := Executor.load_finish h (fx x.1).2
  show 4 * x.2.1.queue.items.length + (x.2.2.executor.finish n (fx x.1).2).load + x.2.2.pc.rank <
    4 * x.2.1.queue.items.length + x.2.2.executor.load + x.2.2.pc.rank
  omega

/-- A thread that has something to do can do it. -/
theorem thread_goes (hx : x.Awaits) (hbusy : ¬ x.2.2.executor.Idle) :
    ∃ a y, step kind running a x = some y ∧ y.Awaits ∧ y.toGo < x.toGo := by
  cases hrunning : x.2.2.executor.running with
  | some p =>
    obtain ⟨n, j⟩ := p
    cases j with
    | write m text =>
      have hend := endJob_awaits hx hrunning (writeEffect kind ⟨true, .keep, true⟩ m text)
      exact ⟨.writeEnds ⟨true, .keep, true⟩, _, by simp only [step, hrunning], hend⟩
    | close =>
      have hend := endJob_awaits hx hrunning (closeEffect kind true)
      exact ⟨.closeEnds true, _, by simp only [step, hrunning], hend⟩
  | none =>
    obtain ⟨ex, hex⟩ := (Executor.begin_or_idle hrunning).resolve_left hbusy
    exact ⟨.jobBegins, _, by simp only [step, hex, Option.map_some], begins_awaits hx hex⟩

-- ---------------------------------------------------------------------------
-- The worker
-- ---------------------------------------------------------------------------

/-- `y` waits for nothing that will not come, and has no more than `n` to go. -/
structure Settled (y : SinkSide α) (n : Nat) : Prop where
  awaits : y.Awaits
  toGo_le : y.toGo ≤ n

theorem Settled.mono {n m : Nat} (h : y.Settled n) (hle : n ≤ m) : y.Settled m :=
  ⟨h.awaits, h.toGo_le.trans hle⟩

theorem finish_settled (kind : SinkKind) (x : SinkSide α) (e : TaskEnd) :
    (x.finish kind e).Settled (x.work + 4) := by
  cases kind with
  | console => exact ⟨trivial, Nat.add_le_add_left (Nat.le_add_left 1 3) x.work⟩
  | file _ =>
    refine ⟨.submitted x.2.2.executor .close, ?_⟩
    have hload := x.2.2.executor.load_submit .close
    show 4 * x.2.1.queue.items.length + (x.2.2.executor.submit .close).load + 2 ≤
      4 * x.2.1.queue.items.length + x.2.2.executor.load + 4
    omega

theorem loopHead_settled (kind : SinkKind) (running : Bool) (x : SinkSide α) :
    (x.loopHead kind running).Settled (x.work + 5) := by
  unfold loopHead
  split
  · exact ⟨trivial, Nat.le_refl _⟩
  · exact (finish_settled kind x .returned).mono (Nat.le_succ _)

theorem acknowledge_settled (x : SinkSide α) (n : Nat) (f : Outcome) {next : SinkSide α → SinkSide α}
    (hnext : ∀ z : SinkSide α, (next z).Settled (z.work + 5)) :
    (x.acknowledge kind n f next).Settled (x.work + 5) := by
  unfold acknowledge
  split
  · rename_i l hl
    obtain ⟨-, -, -, -, hitems, -⟩ := Ledger.ack_eq_some hl
    have hwork : work (x.1, l, x.2.2) = x.work := by rw [work, work, hitems]
    rw [← hwork]
    exact hnext _
  · exact (finish_settled kind x .raised).mono (Nat.le_succ _)

theorem finish_cancelled_settled (z : SinkSide α) :
    (z.finish kind .cancelled).Settled (z.work + 5) :=
  (finish_settled kind z .cancelled).mono (Nat.le_succ _)

theorem compose_awaits (r : Rendering) (x : SinkSide α) (n : Nat) (record : α) :
    (x.compose kind running r n record).Awaits := by
  cases r with
  | unset => exact (acknowledge_settled x n .skipped (loopHead_settled kind running)).awaits
  | raises exc =>
    exact (acknowledge_settled (x.report record exc) n .failed (loopHead_settled kind running)).awaits
  | text s => exact .submitted x.2.2.executor (.write n (s ++ "\n"))

theorem interrupt_awaits (h : x.interrupt kind = some y) : y.Awaits := by
  unfold interrupt at h
  split at h
  · obtain rfl := Option.some.inj h
    trivial
  · obtain rfl := Option.some.inj h
    exact (finish_cancelled_settled x).awaits
  · obtain rfl := Option.some.inj h
    exact (acknowledge_settled _ _ .interrupted finish_cancelled_settled).awaits
  · obtain rfl := Option.some.inj h
    trivial
  all_goals exact absurd h (by simp)

/-- **No step takes away** what a worker waits for. -/
theorem step_awaits {a : SinkAct} (hx : x.Awaits) (h : step kind running a x = some y) :
    y.Awaits := by
  unfold step at h
  split at h
  case h_1 | h_2 =>
    split at h
    · exact absurd h (by simp)
    · obtain rfl := Option.some.inj h
      exact (loopHead_settled kind running x).awaits
  case h_3 =>
    obtain ⟨p, -, rfl⟩ := Option.map_eq_some_iff.mp h
    exact compose_awaits ..
  case h_4 exc n record job hpc =>
    split at h
    · exact absurd h (by simp)
    · obtain ⟨ok, -, rfl⟩ := Option.map_eq_some_iff.mp h
      unfold afterWrite
      split
      · exact (acknowledge_settled x n .written (loopHead_settled kind running)).awaits
      · exact (acknowledge_settled (x.report record exc) n .failed
          (loopHead_settled kind running)).awaits
  case h_5 =>
    split at h
    · exact absurd h (by simp)
    · obtain ⟨ok, -, rfl⟩ := Option.map_eq_some_iff.mp h
      cases ok with
      | true => trivial
      | false => trivial
  case h_6 =>
    obtain ⟨ex, -, rfl⟩ := Option.map_eq_some_iff.mp h
    trivial
  case h_7 =>
    split at h
    · exact interrupt_awaits h
    · exact absurd h (by simp)
  case h_8 =>
    obtain ⟨ex, hex, rfl⟩ := Option.map_eq_some_iff.mp h
    exact (begins_awaits hx hex).1
  case h_9 =>
    split at h
    · rename_i n m hrunning
      obtain rfl := Option.some.inj h
      exact (endJob_awaits hx hrunning _).1
    · exact absurd h (by simp)
  case h_10 =>
    split at h
    · rename_i n hrunning
      obtain rfl := Option.some.inj h
      exact (endJob_awaits hx hrunning _).1
    · exact absurd h (by simp)
  case h_11 => exact absurd h (by simp)

/-- A request to cancel is met, wherever the worker waits for something. -/
theorem interrupt_goes (hcancel : x.2.2.cancelRequested = true) (hpc : x.2.2.pc.ended? = none)
    (hshut : ∀ e, x.2.2.pc ≠ .shutting e) :
    ∃ a y, step kind false a x = some y ∧ y.Awaits ∧ y.toGo < x.toGo := by
  have hstep : step kind false .deliver x = x.resume.interrupt kind := by
    simp only [step, hcancel, if_true]
  have hresume : x.resume.2.2.pc = x.2.2.pc := rfl
  have htoGo : x.toGo = x.work + x.2.2.pc.rank := rfl
  refine ⟨.deliver, ?_⟩
  rw [hstep, interrupt, hresume, htoGo]
  cases hat : x.2.2.pc with
  | created => exact ⟨_, rfl, trivial, Nat.add_lt_add_left (Nat.succ_pos 5) x.work⟩
  | getting =>
    obtain ⟨hawaits, hle⟩ := finish_settled kind x.resume .cancelled
    exact ⟨_, rfl, hawaits, Nat.lt_of_le_of_lt hle (Nat.lt_succ_self _)⟩
  | writing n record job =>
    have hcancelled : ∀ z : SinkSide α, (z.finish kind .cancelled).Settled (z.work + 5) :=
      finish_cancelled_settled
    obtain ⟨hawaits, hle⟩ := acknowledge_settled (x.resume.setExecutor (x.2.2.executor.cancel job)) n
      .interrupted hcancelled
    refine ⟨_, rfl, hawaits, Nat.lt_of_le_of_lt hle ?_⟩
    have hload := x.2.2.executor.load_cancel job
    show 4 * x.2.1.queue.items.length + (x.2.2.executor.cancel job).load + 5 <
      4 * x.2.1.queue.items.length + x.2.2.executor.load + 6
    omega
  | closing e job =>
    refine ⟨_, rfl, trivial, ?_⟩
    have hload := x.2.2.executor.load_cancel job
    show 4 * x.2.1.queue.items.length + (x.2.2.executor.cancel job).load + 0 <
      4 * x.2.1.queue.items.length + x.2.2.executor.load + 2
    omega
  | shutting e => exact absurd hat (hshut e)
  | ended e =>
    rw [hat] at hpc
    cases hpc

/-- With nothing on its thread, a worker goes on when the handler does not run any more. -/
theorem worker_goes (hx : x.Awaits) (hidle : x.2.2.executor.Idle) (hpc : x.2.2.pc.ended? = none) :
    ∃ a y, step kind false a x = some y ∧ y.Awaits ∧ y.toGo < x.toGo := by
  by_cases hshut : ∃ e, x.2.2.pc = .shutting e
  · obtain ⟨e, hat⟩ := hshut
    have hdown : x.2.2.executor.shutdown = some { x.2.2.executor with pool := false } := by
      rw [Executor.shutdown, if_pos (Executor.idle_iff.mpr hidle)]
    refine ⟨.release, (x.resume.setExecutor { x.2.2.executor with pool := false }).moveTo (.ended e),
      by simp only [step, hat, hdown, Option.map_some], trivial, ?_⟩
    show x.work + 0 < x.work + x.2.2.pc.rank
    rw [hat]
    exact Nat.lt_succ_self _
  have hnot : ∀ e, x.2.2.pc ≠ .shutting e := fun e h => hshut ⟨e, h⟩
  cases hcancel : x.2.2.cancelRequested with
  | true => exact interrupt_goes hcancel hpc hnot
  | false =>
    have htoGo : x.toGo = x.work + x.2.2.pc.rank := rfl
    cases hat : x.2.2.pc with
    | created =>
      obtain ⟨hawaits, hle⟩ := loopHead_settled kind false x
      refine ⟨.start, _, by simp only [step, hat, hcancel]; rfl, hawaits, Nat.lt_of_le_of_lt hle ?_⟩
      rw [htoGo, hat]
      exact Nat.lt_succ_self _
    | getting =>
      cases hget : x.2.1.get with
      | none =>
        -- the queue is empty, and the loop is left
        have hempty := Ledger.get_eq_none.mp hget
        have hloop : x.loopHead kind false = x.finish kind .returned := by
          rw [loopHead, hempty]
          rfl
        obtain ⟨hawaits, hle⟩ := finish_settled kind x .returned
        refine ⟨.timeout, _, by simp only [step, hat, hcancel, hloop]; rfl, hawaits,
          Nat.lt_of_le_of_lt hle ?_⟩
        rw [htoGo, hat]
        exact Nat.lt_succ_self _
      | some p =>
        obtain ⟨⟨n, record⟩, l⟩ := p
        obtain ⟨-, -, -, -, hitems, -⟩ := Ledger.get_eq_some hget
        refine ⟨.get (.text ""), _, by simp only [step, hat, hget, Option.map_some]; rfl,
          compose_awaits .., ?_⟩
        have hload := x.2.2.executor.load_submit (.write n ("" ++ "\n"))
        rw [htoGo, hat]
        show 4 * l.queue.items.length + (x.2.2.executor.submit (.write n ("" ++ "\n"))).load + 6 <
          4 * x.2.1.queue.items.length + x.2.2.executor.load + 5
        rw [hitems, List.length_cons]
        omega
    | writing n record job =>
      rw [Awaits, hat] at hx
      obtain ⟨ok, hok⟩ := Executor.Expects.finished hx hidle
      have hdone : (x.afterWrite kind false ok "" n record).Settled (x.work + 5) := by
        unfold afterWrite
        split
        · exact acknowledge_settled x n .written (loopHead_settled kind false)
        · exact acknowledge_settled (x.report record "") n .failed (loopHead_settled kind false)
      refine ⟨.jobDone "", _, by simp only [step, hat, hcancel, hok, Option.map_some]; rfl,
        hdone.awaits, Nat.lt_of_le_of_lt hdone.toGo_le ?_⟩
      rw [htoGo, hat]
      exact Nat.lt_succ_self _
    | closing e job =>
      rw [Awaits, hat] at hx
      obtain ⟨ok, hok⟩ := Executor.Expects.finished hx hidle
      refine ⟨.jobDone "", _, by simp only [step, hat, hcancel, hok, Option.map_some]; rfl, ?_, ?_⟩
      · cases ok with
        | true => trivial
        | false => trivial
      · rw [htoGo, hat]
        cases ok with
        | true => exact Nat.lt_succ_self _
        | false => exact Nat.add_lt_add_left Nat.two_pos x.work
    | shutting e => exact absurd hat (hnot e)
    | ended e =>
      rw [hat] at hpc
      cases hpc

end SinkSide

/-- **A console or file worker can end**, once the handler does not run any more. -/
theorem sink_canEnd (kind : SinkKind) {α : Type} {t : SinkTask α} (ht : t.pc.Awaits t.executor) :
    (sinkConsumer kind α).CanEnd t := by
  have hgoes : ∀ x : SinkSide α, x.Awaits → ¬ x.2.2.pc.ended? ≠ none →
      ∃ y, ((sinkConsumer kind α).machine false).Reaches Machine.Always x y ∧
        SinkSide.Awaits y ∧ SinkSide.toGo y < x.toGo := by
    intro x hx hnot
    have hgo : ∃ a y, x.step kind false a = some y ∧ y.Awaits ∧ y.toGo < x.toGo := by
      by_cases hidle : x.2.2.executor.Idle
      · exact SinkSide.worker_goes hx hidle (not_not.mp hnot)
      · exact SinkSide.thread_goes hx hidle
    obtain ⟨a, y, hy, hawaits, hlt⟩ := hgo
    exact ⟨y, .single trivial hy, hawaits, hlt⟩
  intro shared ledger
  obtain ⟨y, hy, -, hend⟩ := Machine.reaches_of_variant SinkSide.toGo hgoes
    (show SinkSide.Awaits (shared, ledger, t) from ht)
  exact ⟨y, hy, hend⟩

end ScietexLogging
