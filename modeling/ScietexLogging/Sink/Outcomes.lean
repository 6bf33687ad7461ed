import ScietexLogging.Asyncio.Machine
import ScietexLogging.Sink.Segments

/-!
# Sink — one outcome and one acknowledgement per record

A console or file worker runs against a queue others put into, a running event
others clear, a formatter that returns a text or raises, a stream that may fail at
every operation, and cancellations at every suspension. Records are known by their
place in the queue.

Main result: `one_outcome` — every record dequeued is acknowledged once; unless a
cancellation met the worker with the record in hand, what the formatter made of
it was written with a newline, or the record was reported, once and not both; texts
are handed to the executor in the order of the queue, and nothing else is written;
the worker leaves its loop by itself only with nothing left to do.

`Books` is what the queue and the error channel say, `Thread` what the executor's
thread does with the texts.
-/

namespace ScietexLogging

open Asyncio

structure SinkRun where
  side : SinkSide (Nat × LogRecord)
  running : Bool
  /-- What the formatter made of each record dequeued. -/
  rendered : List (Nat × Rendering)

namespace SinkRun

inductive Act where
  | enqueue (record : LogRecord)
  | setRunning (b : Bool)
  | cancel
  | worker (a : SinkAct)

def sink (s : SinkRun) : Sink (Nat × LogRecord) := s.side.1

def ledger (s : SinkRun) : Ledger (Nat × LogRecord) Outcome := s.side.2.1

def task (s : SinkRun) : SinkTask (Nat × LogRecord) := s.side.2.2

/-- What the formatter makes of record `n`, if it is dequeued. -/
def rendering (n : Nat) : SinkAct → List (Nat × Rendering)
  | .get r => [(n, r)]
  | _ => []

variable (kind : SinkKind)

def step (s : SinkRun) : Act → Option SinkRun
  | .enqueue record =>
    (s.ledger.put (s.ledger.log.length, record)).map fun l =>
      { s with side := (s.sink, l, s.task) }
  | .setRunning b => some { s with running := b }
  | .cancel => some { s with side := (s.sink, s.ledger, { s.task with cancelRequested := true }) }
  | .worker a =>
    (SinkSide.step kind s.running a s.side).map fun x =>
      { s with side := x, rendered := s.rendered ++ rendering s.ledger.taken a }

/-- The task has just been created, over an empty queue. -/
def Init (s : SinkRun) : Prop :=
  ∃ maxsize running,
    s = ⟨(⟨none, 0, [], [], []⟩, Ledger.new maxsize, ⟨.created, .new, false⟩), running, []⟩

def machine : Machine SinkRun Act where
  init := Init
  step := step kind

/-- The provider returns a formatter. -/
def formats (_ : SinkRun) : Act → Bool
  | .worker (.get .unset) => false
  | _ => true

/-- The formatted text of record `n`, with its newline, was written. -/
def Wrote (s : SinkRun) (n : Nat) : Prop :=
  ∃ text, (n, .text text) ∈ s.rendered ∧ (n, text ++ "\n") ∈ s.sink.output

/-- How often record `n` was reported. -/
def reportsOf (s : SinkRun) (n : Nat) : Nat := s.sink.reports.countP fun e => e.1.1 == n

/-- The worker has left its loop, ending with `e`. -/
def Leaving (s : SinkRun) (e : TaskEnd) : Prop :=
  (∃ job, s.task.pc = .closing e job) ∨ s.task.pc = .shutting e ∨ s.task.pc = .ended e

/-- What the worker owes its queue, its sink and the error channel; the steps
considered are those that satisfy `ok`. -/
structure Outcomes (ok : SinkRun → Act → Prop) (s : SinkRun) : Prop where
  /-- Every record dequeued and no longer in hand was acknowledged, once. -/
  acked : ∀ n < s.ledger.taken, s.task.pc.hand ≠ some n → ∃ f, s.ledger.acks n = [f]
  inHand : ∀ n, s.task.pc.hand = some n → n < s.ledger.taken ∧ s.ledger.acks n = []
  waiting : ∀ n, s.ledger.taken ≤ n → s.ledger.acks n = []
  /-- One of the two, unless the worker was cancelled with the record in hand. -/
  outcome : ∀ n f, s.ledger.acks n = [f] → f ≠ .interrupted →
    s.Wrote n ∧ s.reportsOf n = 0 ∨ ¬ s.Wrote n ∧ s.reportsOf n = 1
  interrupted : ∀ a t n, ok s a → step kind s a = some t → s.ledger.acks n = [] →
    t.ledger.acks n = [.interrupted] → s.task.cancelRequested = true ∧ s.task.pc.hand = some n
  /-- Nothing is reported before the record is acknowledged, or otherwise. -/
  reported : ∀ n, s.reportsOf n ≠ 0 → s.ledger.acks n = [.failed]
  original : ∀ e ∈ s.sink.reports, s.ledger.log[e.1.1]? = some e.1
  /-- An acknowledged record is done with: its write is over. -/
  settled : ∀ n f, s.ledger.acks n = [f] → f ≠ .interrupted →
    ∀ job text, (job, .write n text) ∉ s.task.executor.jobs
  /-- An interrupted write goes on only if it had begun. -/
  withdrawn : ∀ n, s.ledger.acks n = [.interrupted] →
    ∀ job text, (job, .write n text) ∉ s.task.executor.pending
  /-- Texts are handed to the executor in the order of the queue. -/
  ordered : (s.task.executor.log.filterMap Job.line?).Pairwise (·.1 < ·.1)
  /-- They are written in this order, each once, -/
  inOrder : s.sink.output.Pairwise (·.1 < ·.1)
  /-- and nothing is written but what the formatter made of the record, and a newline. -/
  faithful : ∀ p ∈ s.sink.output, ∃ text, (p.1, .text text) ∈ s.rendered ∧ p.2 = text ++ "\n"
  /-- The worker leaves its loop when cancelled, or with nothing left to do; from
  there only the close of its file may raise. -/
  leaves : ∀ a t e, ok s a → step kind s a = some t → t.Leaving e →
    s.Leaving e ∨ (e = .cancelled ∧ s.task.cancelRequested = true) ∨
      (e = .returned ∧ t.running = false ∧ t.ledger.queue.items = []) ∨
      (e = .raised ∧ ∃ e' job, s.task.pc = .closing e' job)

-- ---------------------------------------------------------------------------
-- The queue and the error channel
-- ---------------------------------------------------------------------------

structure Books (l : Ledger (Nat × LogRecord) Outcome) (hand : Option Nat)
    (reports : List ((Nat × LogRecord) × String)) : Prop where
  sound : l.Sound
  holds : l.Holds hand
  acked : ∀ n < l.taken, hand ≠ some n →
    l.acks n = [.written] ∨ l.acks n = [.failed] ∨ l.acks n = [.interrupted]
  numbered : ∀ (i : Nat) x, l.log[i]? = some x → x.1 = i
  counted : ∀ n, reports.countP (fun e => e.1.1 == n) = if l.acks n = [.failed] then 1 else 0
  original : ∀ e ∈ reports, l.log[e.1.1]? = some e.1

namespace Books

variable {l l' : Ledger (Nat × LogRecord) Outcome} {hand : Option Nat}
  {reports : List ((Nat × LogRecord) × String)} {n : Nat} {record : Nat × LogRecord}

theorem new (maxsize : Nat) : Books (Ledger.new maxsize) none [] :=
  ⟨.new maxsize, fun _ h => absurd h (by simp), fun _ h => absurd h (Nat.not_lt_zero _),
    fun _ _ h => absurd h (by simp [Ledger.new]), fun _ => by simp [Ledger.new],
    fun _ h => absurd h (by simp)⟩

theorem put {r : LogRecord} (hb : Books l hand reports)
    (h : l.put (l.log.length, r) = some l') : Books l' hand reports := by
  obtain ⟨-, hlog, htaken, hacks, -, -⟩ := Ledger.put_eq_some h
  refine ⟨hb.sound.put h, fun n hn => ?_, ?_, fun i x hx => ?_, ?_, fun e he => ?_⟩
  · rw [htaken, hacks]
    exact hb.holds n hn
  · rw [htaken, hacks]
    exact hb.acked
  · rw [hlog] at hx
    by_cases hi : i < l.log.length
    · rw [List.getElem?_append_left hi] at hx
      exact hb.numbered i x hx
    · rw [List.getElem?_append_right (Nat.le_of_not_lt hi), List.getElem?_singleton] at hx
      split at hx
      · rw [← Option.some.inj hx]
        show l.log.length = i
        omega
      · exact absurd hx (by simp)
  · rw [hacks]
    exact hb.counted
  · have hold := hb.original e he
    rw [hlog, List.getElem?_append_left (List.getElem?_eq_some_iff.mp hold).1, hold]

theorem take (hb : Books l none reports) (h : l.get = some ((n, record), l')) :
    Books l' (some n) reports ∧ l'.log[record.1]? = some record ∧ record.1 = n := by
  obtain ⟨hs', hlt, hnil, hget⟩ := hb.sound.get h
  obtain ⟨rfl, hlog, htaken, hacks, -, -⟩ := Ledger.get_eq_some h
  have hnum : record.1 = l.taken := by
    rw [hlog] at hget
    exact hb.numbered _ _ hget
  refine ⟨⟨hs', fun m hm => ?_, fun m hm hne => ?_, ?_, ?_, ?_⟩, by rw [hnum, hget], hnum⟩
  · obtain rfl := Option.some.inj hm
    exact ⟨hlt, hnil⟩
  · have hmt : m ≠ l.taken := fun heq => hne (by rw [heq])
    rw [hacks]
    exact hb.acked m (by omega) (by simp)
  · rw [hlog]
    exact hb.numbered
  · rw [hacks]
    exact hb.counted
  · rw [hlog]
    exact hb.original

/-- The record in hand is acknowledged; it is reported if it failed. -/
theorem ack {f : Outcome} {new : List ((Nat × LogRecord) × String)} (hb : Books l (some n) reports)
    (h : l.ack n f = some l') (hf : f = .written ∨ f = .failed ∨ f = .interrupted)
    (hcount : ∀ m, new.countP (fun e => e.1.1 == m) = if m = n ∧ f = .failed then 1 else 0)
    (hnew : ∀ e ∈ new, l.log[e.1.1]? = some e.1) : Books l' none (reports ++ new) := by
  obtain ⟨hlt, hnil⟩ := hb.holds n rfl
  obtain ⟨-, hlog, htaken, hacks, -, -⟩ := Ledger.ack_eq_some h
  have hself : l'.acks n = [f] := by rw [hacks, Function.update_self, hnil, List.nil_append]
  have hother : ∀ m, m ≠ n → l'.acks m = l.acks m := fun m hm => by
    rw [hacks, Function.update_of_ne hm]
  refine ⟨hb.sound.ack hlt hnil h, fun m hm => absurd hm (by simp), fun m hm _ => ?_, ?_,
    fun m => ?_, fun e he => ?_⟩
  · by_cases hmn : m = n
    · rw [hmn, hself]
      rcases hf with rfl | rfl | rfl
      · exact .inl rfl
      · exact .inr (.inl rfl)
      · exact .inr (.inr rfl)
    · rw [hother m hmn]
      rw [htaken] at hm
      exact hb.acked m hm fun heq => hmn (Option.some.inj heq).symm
  · rw [hlog]
    exact hb.numbered
  · rw [List.countP_append, hb.counted, hcount]
    by_cases hmn : m = n
    · subst hmn
      rw [hself, hnil]
      simp
    · simp [hother m hmn, hmn]
  · rw [hlog]
    rcases List.mem_append.mp he with he | he
    · exact hb.original e he
    · exact hnew e he

theorem pass {f : Outcome} (hb : Books l (some n) reports) (h : l.ack n f = some l')
    (hf : f = .written ∨ f = .interrupted) : Books l' none reports := by
  have hnf : f ≠ .failed := by rcases hf with rfl | rfl <;> decide
  have hnone : Books l' none (reports ++ []) :=
    hb.ack h (hf.imp_right .inr) (fun m => by simp [hnf]) (by simp)
  rwa [List.append_nil] at hnone

theorem fail (hb : Books l (some n) reports) (h : l.ack n .failed = some l')
    (hnum : record.1 = n) (hrecord : l.log[record.1]? = some record) (exc : String) :
    Books l' none (reports ++ [(record, exc)]) := by
  refine hb.ack h (.inr (.inl rfl)) (fun m => ?_) fun e he => ?_
  · by_cases hm : m = n
    · simp [hm, hnum]
    · simp [hm, hnum, Ne.symm hm]
  · rw [List.mem_singleton.mp he]
    exact hrecord

end Books

-- ---------------------------------------------------------------------------
-- The executor's thread
-- ---------------------------------------------------------------------------

/-- `current` is the record in hand, with the job that writes it. -/
structure Thread (ex : Executor Job) (rendered : List (Nat × Rendering)) (output : List (Nat × String))
    (taken : Nat) (acks : Nat → List Outcome) (current : Option (Nat × Nat)) : Prop where
  sound : ex.Sound
  submitted : (ex.log.filterMap Job.line?).Pairwise (·.1 < ·.1)
  bound : ∀ p ∈ ex.log.filterMap Job.line?, p.1 < taken
  order : (output ++ Job.lines ex.jobs).Pairwise (·.1 < ·.1)
  taken : ∀ p ∈ output ++ Job.lines ex.jobs, p.1 < taken
  faithful : ∀ p ∈ output ++ Job.lines ex.jobs, ∃ text, (p.1, .text text) ∈ rendered ∧ p.2 = text ++ "\n"
  pending : ∀ job n text, (job, .write n text) ∈ ex.pending → current = some (n, job)
  running : ∀ job n text, ex.running = some (job, .write n text) →
    current = some (n, job) ∨ acks n = [.interrupted]
  /-- The write in hand is not over, or its job says how it ended. -/
  verdict : ∀ n job, current = some (n, job) → (∃ text, (job, .write n text) ∈ ex.jobs) ∨
    ∃ ok, ex.finished job = some ok ∧ (ok = true ↔ ∃ text, (n, text) ∈ output)
  written : ∀ n, acks n = [.written] → ∃ text, (n, text) ∈ output
  failed : ∀ n, acks n = [.failed] → ∀ text, (n, text) ∉ output

namespace Thread

variable {ex ex' : Executor Job} {rendered : List (Nat × Rendering)} {output : List (Nat × String)}
  {taken : Nat} {acks acks' : Nat → List Outcome} {current : Option (Nat × Nat)} {n job : Nat}

theorem new : Thread .new [] [] 0 (fun _ => []) none :=
  ⟨.new, .nil, by simp [Executor.new], .nil, by simp [Job.lines, Executor.jobs, Executor.new],
    by simp [Job.lines, Executor.jobs, Executor.new], by simp [Executor.new], by simp [Executor.new],
    by simp, by simp, by simp⟩

/-- More was rendered, and more may be taken. -/
theorem mono (ht : Thread ex rendered output taken acks current) {more : List (Nat × Rendering)}
    {taken' : Nat} (h : taken ≤ taken') : Thread ex (rendered ++ more) output taken' acks current := by
  refine ⟨ht.sound, ht.submitted, fun p hp => Nat.lt_of_lt_of_le (ht.bound p hp) h, ht.order,
    fun p hp => Nat.lt_of_lt_of_le (ht.taken p hp) h, fun p hp => ?_, ht.pending, ht.running, ht.verdict,
    ht.written, ht.failed⟩
  obtain ⟨text, htext, heq⟩ := ht.faithful p hp
  exact ⟨text, List.mem_append_left _ htext, heq⟩

/-- A record is dequeued, and its text submitted. -/
theorem compose (ht : Thread ex rendered output taken acks none) (text : String) :
    Thread (ex.submit (.write taken (text ++ "\n"))) (rendered ++ [(taken, .text text)]) output
      (taken + 1) acks (some (taken, ex.submitted)) := by
  have hlog : (ex.submit (.write taken (text ++ "\n"))).log.filterMap Job.line? =
      ex.log.filterMap Job.line? ++ [(taken, text ++ "\n")] := List.filterMap_append
  have hlines : output ++ Job.lines (ex.submit (.write taken (text ++ "\n"))).jobs =
      (output ++ Job.lines ex.jobs) ++ [(taken, text ++ "\n")] := by
    rw [Job.lines_submit, List.append_assoc]
    rfl
  refine ⟨ht.sound.submit _, ?_, fun p hp => ?_, ?_, fun p hp => ?_, fun p hp => ?_, ?_, ?_, ?_,
    ht.written, ht.failed⟩
  · rw [hlog, List.pairwise_append]
    refine ⟨ht.submitted, List.pairwise_singleton _ _, fun p hp q hq => ?_⟩
    rw [List.mem_singleton.mp hq]
    exact ht.bound p hp
  · rw [hlog, List.mem_append, List.mem_singleton] at hp
    rcases hp with hp | rfl
    · exact Nat.lt_succ_of_lt (ht.bound p hp)
    · exact Nat.lt_succ_self _
  · rw [hlines, List.pairwise_append]
    refine ⟨ht.order, List.pairwise_singleton _ _, fun p hp q hq => ?_⟩
    rw [List.mem_singleton.mp hq]
    exact ht.taken p hp
  · rw [hlines, List.mem_append, List.mem_singleton] at hp
    rcases hp with hp | rfl
    · exact Nat.lt_succ_of_lt (ht.taken p hp)
    · exact Nat.lt_succ_self _
  · rw [hlines, List.mem_append, List.mem_singleton] at hp
    rcases hp with hp | rfl
    · obtain ⟨s, hs, heq⟩ := ht.faithful p hp
      exact ⟨s, List.mem_append_left _ hs, heq⟩
    · exact ⟨text, List.mem_append_right _ List.mem_cons_self, rfl⟩
  · intro j m s hm
    rcases List.mem_append.mp hm with hm | hm
    · exact absurd (ht.pending j m s hm) (by simp)
    · obtain ⟨rfl, heq⟩ := Prod.mk.inj (List.mem_singleton.mp hm)
      rw [(Job.write.inj heq).1]
  · intro j m s hm
    exact .inr ((ht.running j m s hm).resolve_left (by simp))
  · rintro m j hmj
    obtain ⟨rfl, rfl⟩ := Prod.mk.inj (Option.some.inj hmj)
    exact .inl ⟨_, Executor.mem_jobs.mpr (.inr (List.mem_append_right _ List.mem_cons_self))⟩

/-- A record just dequeued is given up. -/
theorem skip (ht : Thread ex rendered output (taken + 1) acks none) {f : Outcome} (hf : f ≠ .written)
    (hfresh : ∀ p ∈ output, p.1 < taken) (hself : acks' taken = [f]) (hold : acks taken = [])
    (hother : ∀ m, m ≠ taken → acks' m = acks m) : Thread ex rendered output (taken + 1) acks' none := by
  refine ⟨ht.sound, ht.submitted, ht.bound, ht.order, ht.taken, ht.faithful, ht.pending,
    fun j m text hm => ?_, by simp, fun m hm => ?_, fun m hm => ?_⟩
  · have hint := (ht.running j m text hm).resolve_left (by simp)
    refine .inr ((hother m ?_).trans hint)
    rintro rfl
    rw [hold] at hint
    exact absurd hint (by simp)
  · by_cases hmt : m = taken
    · rw [hmt, hself] at hm
      exact absurd (List.cons.inj hm).1 hf
    · exact ht.written m ((hother m hmt).symm.trans hm)
  · by_cases hmt : m = taken
    · rw [hmt]
      exact fun text hmem => Nat.lt_irrefl _ (hfresh _ hmem)
    · exact ht.failed m ((hother m hmt).symm.trans hm)

/-- The write in hand is over, and its record acknowledged accordingly. -/
theorem acknowledge {ok : Bool} (ht : Thread ex rendered output taken acks (some (n, job)))
    (hdone : ex.finished job = some ok) (hold : acks n = [])
    (hself : acks' n = [if ok then .written else .failed])
    (hother : ∀ m, m ≠ n → acks' m = acks m) : Thread ex rendered output taken acks' none := by
  have hover : ∀ p ∈ ex.jobs, p.1 ≠ job := (ht.sound.left job (by rw [hdone]; simp)).2
  have hwrote : ok = true ↔ ∃ text, (n, text) ∈ output := by
    rcases ht.verdict n job rfl with ⟨text, hjobs⟩ | ⟨ok', hdone', hwrote⟩
    · exact absurd rfl (hover _ hjobs)
    · obtain rfl := Option.some.inj (hdone.symm.trans hdone')
      exact hwrote
  refine ⟨ht.sound, ht.submitted, ht.bound, ht.order, ht.taken, ht.faithful, fun j m text hm => ?_,
    fun j m text hm => ?_, by simp, fun m hm => ?_, fun m hm => ?_⟩
  · obtain ⟨rfl, rfl⟩ := Prod.mk.inj (Option.some.inj (ht.pending j m text hm))
    exact absurd rfl (hover _ (Executor.mem_jobs.mpr (.inr hm)))
  · rcases ht.running j m text hm with heq | hint
    · obtain ⟨rfl, rfl⟩ := Prod.mk.inj (Option.some.inj heq)
      exact absurd rfl (hover _ (Executor.mem_jobs.mpr (.inl hm)))
    · refine .inr ((hother m ?_).trans hint)
      rintro rfl
      rw [hold] at hint
      exact absurd hint (by simp)
  · by_cases hmn : m = n
    · rw [hmn, hself] at hm
      cases ok with
      | true => exact hmn ▸ hwrote.mp rfl
      | false => exact absurd hm (by simp)
    · exact ht.written m ((hother m hmn).symm.trans hm)
  · by_cases hmn : m = n
    · rw [hmn, hself] at hm
      cases ok with
      | true => exact absurd hm (by simp)
      | false =>
        rw [hmn]
        exact fun text hmem => absurd (hwrote.mpr ⟨text, hmem⟩) (by simp)
    · exact ht.failed m ((hother m hmn).symm.trans hm)

/-- A cancellation meets the worker at its write. -/
theorem interrupt (ht : Thread ex rendered output taken acks (some (n, job))) (hold : acks n = [])
    (hself : acks' n = [.interrupted]) (hother : ∀ m, m ≠ n → acks' m = acks m) :
    Thread (ex.cancel job) rendered output taken acks' none := by
  have hsub : (output ++ Job.lines (ex.cancel job).jobs).Sublist (output ++ Job.lines ex.jobs) :=
    (Job.lines_cancel ex job).append_left output
  refine ⟨ht.sound.cancel job, ht.submitted, ht.bound, ht.order.sublist hsub,
    fun p hp => ht.taken p (hsub.subset hp), fun p hp => ht.faithful p (hsub.subset hp),
    fun j m text hm => ?_, fun j m text hm => ?_, by simp, fun m hm => ?_, fun m hm => ?_⟩
  · obtain ⟨hm, hne⟩ := List.mem_filter.mp hm
    obtain ⟨-, rfl⟩ := Prod.mk.inj (Option.some.inj (ht.pending j m text hm))
    exact absurd hne (by simp)
  · rcases ht.running j m text hm with heq | hint
    · obtain ⟨rfl, -⟩ := Prod.mk.inj (Option.some.inj heq)
      exact .inr hself
    · refine .inr ((hother m ?_).trans hint)
      rintro rfl
      rw [hold] at hint
      exact absurd hint (by simp)
  · refine ht.written m ((hother m ?_).symm.trans hm)
    rintro rfl
    rw [hself] at hm
    exact absurd hm (by simp)
  · refine ht.failed m ((hother m ?_).symm.trans hm)
    rintro rfl
    rw [hself] at hm
    exact absurd hm (by simp)

/-- Steps that submit, run and end no write. -/
theorem other (ht : Thread ex rendered output taken acks current) (hs : ex'.Sound)
    (hlog : ex'.log.filterMap Job.line? = ex.log.filterMap Job.line?)
    (hlines : (Job.lines ex'.jobs).Sublist (Job.lines ex.jobs))
    (hpending : ∀ j m text, (j, .write m text) ∈ ex'.pending → (j, .write m text) ∈ ex.pending)
    (hrunning : ∀ j m text, ex'.running = some (j, .write m text) → (j, .write m text) ∈ ex.jobs)
    (hcurrent : ∀ j m, current = some (m, j) →
      (∀ text, (j, .write m text) ∈ ex.jobs → (j, .write m text) ∈ ex'.jobs) ∧
        ex'.finished j = ex.finished j) :
    Thread ex' rendered output taken acks current := by
  have hsub : (output ++ Job.lines ex'.jobs).Sublist (output ++ Job.lines ex.jobs) :=
    hlines.append_left output
  refine ⟨hs, by rw [hlog]; exact ht.submitted, by rw [hlog]; exact ht.bound, ht.order.sublist hsub,
    fun p hp => ht.taken p (hsub.subset hp), fun p hp => ht.faithful p (hsub.subset hp),
    fun j m text hm => ht.pending j m text (hpending j m text hm), fun j m text hm => ?_,
    fun m j hmj => ?_, ht.written, ht.failed⟩
  · rcases Executor.mem_jobs.mp (hrunning j m text hm) with h | h
    · exact ht.running j m text h
    · exact .inl (ht.pending j m text h)
  · obtain ⟨hkeep, hfin⟩ := hcurrent j m hmj
    rw [hfin]
    exact (ht.verdict m j hmj).imp_left fun ⟨text, htext⟩ => ⟨text, hkeep text htext⟩

theorem begin (ht : Thread ex rendered output taken acks current) (h : ex.begin = some ex') :
    Thread ex' rendered output taken acks current := by
  have hs := ht.sound.begin h
  obtain ⟨hjobs, -⟩ := Executor.jobs_begin h
  obtain ⟨p, ps, hpending, hrunning, rfl⟩ := Executor.begin_eq_some h
  refine ht.other hs rfl (by rw [hjobs]) (fun j m text hm => ?_) (fun j m text hm => ?_) fun j m _ =>
    ⟨fun text hm => by rw [hjobs]; exact hm, rfl⟩
  · rw [hpending]
    exact List.mem_cons_of_mem _ hm
  · obtain rfl := Option.some.inj hm
    exact Executor.mem_jobs.mpr (.inr (by rw [hpending]; exact List.mem_cons_self))

theorem shutdown (ht : Thread ex rendered output taken acks current) (h : ex.shutdown = some ex') :
    Thread ex' rendered output taken acks current := by
  have hs := ht.sound.shutdown h
  unfold Executor.shutdown at h
  split at h
  · obtain rfl := Option.some.inj h
    exact ht.other hs rfl (List.Sublist.refl _) (fun _ _ _ hm => hm)
      (fun _ _ _ hm => Executor.mem_jobs.mpr (.inl hm)) fun _ _ _ => ⟨fun _ => id, rfl⟩
  · exact absurd h (by simp)

theorem submitClose (ht : Thread ex rendered output taken acks none) :
    Thread (ex.submit .close) rendered output taken acks none := by
  refine ht.other (ht.sound.submit _) ?_ ?_ (fun j m text hm => ?_) (fun j m text hm => ?_) (by simp)
  · exact List.filterMap_append.trans (List.append_nil _)
  · rw [Job.lines_submit]
    exact (List.append_nil _).symm ▸ List.Sublist.refl _
  · exact (List.mem_append.mp hm).resolve_right (by simp)
  · exact Executor.mem_jobs.mpr (.inl hm)

/-- The close is taken back. -/
theorem cancelClose (ht : Thread ex rendered output taken acks none) (job : Nat) :
    Thread (ex.cancel job) rendered output taken acks none :=
  ht.other (ht.sound.cancel job) rfl (Job.lines_cancel ex job) (fun _ _ _ hm => (List.mem_filter.mp hm).1)
    (fun _ _ _ hm => Executor.mem_jobs.mpr (.inl hm)) (by simp)

theorem endClose (ht : Thread ex rendered output taken acks current)
    (h : ex.running = some (job, .close)) (ok : Bool) :
    Thread (ex.finish job ok) rendered output taken acks current := by
  have hjobs := Executor.jobs_finish h ok
  have hjob : (job, Job.close) ∈ ex.jobs := Executor.mem_jobs.mpr (.inl h)
  refine ht.other (ht.sound.finish h ok) rfl ?_ (fun _ _ _ hm => hm)
    (fun j m text hm => absurd hm (by simp [Executor.finish]))
    fun j m hmj => ⟨fun text hm => ?_, Function.update_of_ne ?_ _ _⟩
  · rw [Job.lines_finish h ok]
    exact List.Sublist.refl _
  · rw [hjobs] at hm
    exact (List.mem_cons.mp hm).resolve_left (by simp)
  · -- the job awaited is another one: the number is that of a close
    rintro rfl
    rcases ht.verdict m j hmj with ⟨text, hmem⟩ | ⟨ok', hdone, -⟩
    · exact absurd (ht.sound.unique hmem hjob) (by simp)
    · exact (ht.sound.left j (by rw [hdone]; simp)).2 _ hjob rfl

/-- The write on the thread is over; its text is in the output if it returned. -/
theorem endWrite {text : String} (ht : Thread ex rendered output taken acks current)
    (h : ex.running = some (job, .write n text)) (hcurrent : ∀ j, current = some (n, j) → acks n = [])
    (ok : Bool) : Thread (ex.finish job ok) rendered (output ++ if ok then [(n, text)] else []) taken acks
      current := by
  have hjob : (job, Job.write n text) ∈ ex.jobs := Executor.mem_jobs.mpr (.inl h)
  have hlines : Job.lines ex.jobs = (n, text) :: Job.lines (ex.finish job ok).jobs :=
    Job.lines_finish h ok
  have hsub : ((output ++ if ok then [(n, text)] else []) ++ Job.lines (ex.finish job ok).jobs).Sublist
      (output ++ Job.lines ex.jobs) := by
    rw [hlines, List.append_assoc]
    refine List.Sublist.append_left ?_ output
    cases ok with
    | true => exact List.Sublist.refl _
    | false => exact List.sublist_cons_self _ _
  have hnew : ∀ s, (n, s) ∉ output := by
    intro s hs
    have hlast : (n, text) ∈ Job.lines ex.jobs := hlines ▸ List.mem_cons_self
    exact Nat.lt_irrefl n ((List.pairwise_append.mp ht.order).2.2 _ hs _ hlast)
  have hnone : ∀ f, acks n = [f] → f = .interrupted := by
    intro f hf
    rcases ht.running job n text h with heq | hint
    · rw [hcurrent job heq] at hf
      exact absurd hf (by simp)
    · rw [hint] at hf
      exact (List.cons.inj hf).1.symm
  have hmem : ∀ m s, (m, s) ∈ (output ++ if ok then [(n, text)] else []) →
      (m, s) ∈ output ∨ m = n ∧ ok = true := by
    intro m s hs
    cases ok with
    | true =>
      exact (List.mem_append.mp hs).imp_right fun hs => ⟨(Prod.mk.inj (List.mem_singleton.mp hs)).1, rfl⟩
    | false => exact .inl (by simpa using hs)
  refine ⟨ht.sound.finish h ok, ht.submitted, ht.bound, ht.order.sublist hsub,
    fun p hp => ht.taken p (hsub.subset hp), fun p hp => ht.faithful p (hsub.subset hp), ht.pending,
    fun j m s hm => absurd hm (by simp [Executor.finish]), fun m j hmj => ?_, fun m hm => ?_,
    fun m hm s hs => ?_⟩
  · by_cases hj : j = job
    · subst hj
      rcases ht.verdict m j hmj with ⟨s, hs⟩ | ⟨ok', hdone, -⟩
      · obtain ⟨rfl, rfl⟩ := Job.write.inj (ht.sound.unique hs hjob)
        refine .inr ⟨ok, Function.update_self _ _ _, fun hok => ?_, fun hin => ?_⟩
        · rw [if_pos hok]
          exact ⟨s, List.mem_append_right _ List.mem_cons_self⟩
        · obtain ⟨s', hs'⟩ := hin
          exact ((hmem m s' hs').resolve_left (hnew s')).2
      · exact absurd rfl ((ht.sound.left j (by rw [hdone]; simp)).2 _ hjob)
    · -- another record's: the one interrupted
      have hmn : m ≠ n := by
        rintro rfl
        rcases ht.running job m text h with heq | hint
        · rw [hmj] at heq
          exact hj (Prod.mk.inj (Option.some.inj heq)).2
        · rw [hcurrent j hmj] at hint
          exact absurd hint (by simp)
      have hsame : (∃ s, (m, s) ∈ (output ++ if ok then [(n, text)] else [])) ↔ ∃ s, (m, s) ∈ output :=
        exists_congr fun s => ⟨fun hs => (hmem m s hs).resolve_right fun heq => hmn heq.1,
          List.mem_append_left _⟩
      rw [hsame, show (ex.finish job ok).finished j = ex.finished j from Function.update_of_ne hj _ _]
      refine (ht.verdict m j hmj).imp_left fun hin => hin.imp fun s hs => ?_
      rw [Executor.jobs_finish h ok] at hs
      exact (List.mem_cons.mp hs).resolve_left fun heq => hj (Prod.mk.inj heq).1
  · obtain ⟨s, hs⟩ := ht.written m hm
    exact ⟨s, List.mem_append_left _ hs⟩
  · rcases hmem m s hs with hold | ⟨rfl, -⟩
    · exact ht.failed m hm s hold
    · exact absurd (hnone _ hm) (by simp)

end Thread

-- ---------------------------------------------------------------------------
-- The invariant
-- ---------------------------------------------------------------------------

end SinkRun

/-- The record in hand, with the job that writes it. -/
def SinkPc.current {α : Type} : SinkPc α → Option (Nat × Nat)
  | .writing n _ job => some (n, job)
  | _ => none

namespace SinkRun

structure Inv (s : SinkRun) : Prop where
  books : Books s.ledger s.task.pc.hand s.sink.reports
  thread : Thread s.task.executor s.rendered s.sink.output s.ledger.taken s.ledger.acks
    s.task.pc.current
  record : ∀ n r job, s.task.pc = .writing n r job → r.1 = n ∧ s.ledger.log[r.1]? = some r

/-- Between two records. -/
structure Free (rendered : List (Nat × Rendering)) (x : SinkSide (Nat × LogRecord)) : Prop where
  books : Books x.2.1 none x.1.reports
  thread : Thread x.2.2.executor rendered x.1.output x.2.1.taken x.2.1.acks none

section

variable {kind : SinkKind} {running : Bool} {rendered : List (Nat × Rendering)}
  {x y : SinkSide (Nat × LogRecord)}

theorem Free.moveTo (hf : Free rendered x) {pc : SinkPc (Nat × LogRecord)} (hpc : pc.current = none) :
    Inv ⟨x.moveTo pc, running, rendered⟩ := by
  cases pc with
  | writing n r job => exact absurd hpc (by simp [SinkPc.current])
  | created | getting | closing _ _ | shutting _ | ended _ =>
    exact ⟨hf.books, hf.thread, fun n r job h => absurd h (by simp [SinkSide.moveTo, task])⟩

theorem Free.finish (hf : Free rendered x) (e : TaskEnd) : Inv ⟨x.finish kind e, running, rendered⟩ := by
  cases kind with
  | console => exact hf.moveTo rfl
  | file _ =>
    have hsubmit : Free rendered (x.setExecutor (x.2.2.executor.submit .close)) :=
      ⟨hf.books, hf.thread.submitClose⟩
    exact hsubmit.moveTo rfl

theorem Free.loopHead (hf : Free rendered x) (h : SinkSide.LoopHead kind running x y) :
    Inv ⟨y, running, rendered⟩ := by
  cases h with
  | goes => exact hf.moveTo rfl
  | leaves _ _ => exact hf.finish .returned

end

variable {kind : SinkKind} {s t : SinkRun}

theorem Inv.init (h : Init s) : s.Inv := by
  obtain ⟨maxsize, running, rfl⟩ := h
  exact ⟨.new maxsize, .new, fun n r job h => absurd h (by simp [task])⟩

theorem Inv.free (hi : s.Inv) (h : s.task.pc.current = none) : Free s.rendered s.side := by
  have hb := hi.books
  have ht := hi.thread
  cases hpc : s.task.pc with
  | writing n r job =>
    rw [hpc] at h
    exact absurd h (by simp [SinkPc.current])
  | created | getting | closing _ _ | shutting _ | ended _ =>
    rw [hpc] at hb ht
    exact ⟨hb, ht⟩

/-- The worker at its write. -/
theorem Inv.writing (hi : s.Inv) {n job : Nat} {r : Nat × LogRecord}
    (hpc : s.task.pc = .writing n r job) :
    Books s.ledger (some n) s.sink.reports ∧
      Thread s.task.executor s.rendered s.sink.output s.ledger.taken s.ledger.acks (some (n, job)) ∧
      s.ledger.acks n = [] := by
  have hb := hi.books
  have ht := hi.thread
  rw [hpc] at hb ht
  exact ⟨hb, ht, (hb.holds n rfl).2⟩

theorem Inv.current (hi : s.Inv) {n job : Nat} (h : s.task.pc.current = some (n, job)) :
    n < s.ledger.taken ∧ s.ledger.acks n = [] := by
  refine hi.books.holds n ?_
  cases hpc : s.task.pc with
  | writing m r j =>
    rw [hpc] at h
    rw [(Prod.mk.inj (Option.some.inj h)).1.symm]
    rfl
  | created | getting | closing _ _ | shutting _ | ended _ =>
    rw [hpc] at h
    exact absurd h (by simp [SinkPc.current])

/-- What an acknowledgement changes. -/
private theorem ack_acks {l l' : Ledger (Nat × LogRecord) Outcome} {n : Nat} {f : Outcome}
    (h : l.ack n f = some l') (hnil : l.acks n = []) :
    l'.taken = l.taken ∧ l'.acks n = [f] ∧ ∀ m, m ≠ n → l'.acks m = l.acks m := by
  obtain ⟨-, -, htaken, hacks, -, -⟩ := Ledger.ack_eq_some h
  refine ⟨htaken, ?_, fun m hm => ?_⟩
  · rw [hacks, Function.update_self, hnil, List.nil_append]
  · rw [hacks, Function.update_of_ne hm]

/-- A segment of the worker, or a step of the thread, keeps the invariant. -/
theorem Inv.worker {a : SinkAct} {y : SinkSide (Nat × LogRecord)} (hi : s.Inv)
    (hok : a ≠ .get .unset) (h : SinkSide.step kind s.running a s.side = some y) :
    Inv ⟨y, s.running, s.rendered ++ rendering s.ledger.taken a⟩ := by
  have hseg := SinkSide.step_segment hi.books.sound hi.books.holds h
  -- most segments render nothing
  have hquiet : rendering s.ledger.taken a = [] → Inv ⟨y, s.running, s.rendered⟩ →
      Inv ⟨y, s.running, s.rendered ++ rendering s.ledger.taken a⟩ := by
    intro h hy
    rw [h, List.append_nil]
    exact hy
  cases hseg with
  | start is pc _ on =>
    subst is
    exact hquiet rfl ((hi.free (by rw [task, pc]; rfl)).loopHead on)
  | idles is pc _ on =>
    subst is
    exact hquiet rfl ((hi.free (by rw [task, pc]; rfl)).loopHead on)
  | skips is => exact absurd is hok
  | @unrendered _ n r exc l l' is pc get ack on =>
    subst is
    have hf := hi.free (by rw [task, pc]; rfl)
    obtain ⟨hb, hlog, hnum⟩ := hf.books.take get
    have hnil := (hb.holds n rfl).2
    obtain ⟨htaken', hself, hother⟩ := ack_acks ack hnil
    obtain ⟨rfl, -, htaken, hacks, -, -⟩ := Ledger.get_eq_some get
    refine Free.loopHead ⟨hb.fail ack hnum hlog exc, ?_⟩ on
    rw [htaken', htaken]
    rw [hacks] at hother
    refine (hf.thread.mono (Nat.le_succ _)).skip (by decide) (fun p hp => ?_) hself
      (by rw [← hacks]; exact hnil) hother
    exact hf.thread.taken p (List.mem_append_left _ hp)
  | @submits n r text l is pc get =>
    subst is
    have hf := hi.free (by rw [task, pc]; rfl)
    obtain ⟨hb, hlog, hnum⟩ := hf.books.take get
    obtain ⟨rfl, -, htaken, hacks, -, -⟩ := Ledger.get_eq_some get
    refine ⟨hb, ?_, fun m r' job heq => ?_⟩
    · have ht := hf.thread.compose text
      rw [← hacks, ← htaken] at ht
      exact ht
    · obtain ⟨rfl, rfl, -⟩ := SinkPc.writing.inj heq
      exact ⟨hnum, hlog⟩
  | @wrote _ n r job exc l is pc _ done ack on =>
    subst is
    obtain ⟨hb, ht, hnil⟩ := hi.writing pc
    obtain ⟨htaken, hself, hother⟩ := ack_acks ack hnil
    refine hquiet rfl (Free.loopHead (x := (s.sink, l, s.task)) ⟨hb.pass ack (.inl rfl), ?_⟩ on)
    have := ht.acknowledge done hnil hself hother
    rwa [← show l.taken = s.ledger.taken from htaken] at this
  | @failed _ n r job exc l is pc _ done ack on =>
    subst is
    obtain ⟨hb, ht, hnil⟩ := hi.writing pc
    obtain ⟨hnum, hlog⟩ := hi.record n r job pc
    obtain ⟨htaken, hself, hother⟩ := ack_acks ack hnil
    obtain ⟨-, hlogs, -⟩ := Ledger.ack_eq_some ack
    refine hquiet rfl (Free.loopHead ⟨hb.fail ack hnum hlog exc, ?_⟩ on)
    have := ht.acknowledge done hnil hself hother
    rwa [← show l.taken = s.ledger.taken from htaken] at this
  | @closed e job exc ok is pc _ done =>
    subst is
    have hf := hi.free (by rw [task, pc]; rfl)
    refine hquiet rfl (hf.moveTo ?_)
    cases ok with
    | true => rfl
    | false => rfl
  | shuts is pc down =>
    subst is
    have hf := hi.free (by rw [task, pc]; rfl)
    exact hquiet rfl (Free.moveTo (x := s.side.resume.setExecutor _)
      ⟨hf.books, hf.thread.shutdown down⟩ rfl)
  | unstarted is _ pc =>
    subst is
    have hf := hi.free (by rw [task, pc]; rfl)
    exact hquiet rfl (Free.moveTo (x := s.side.resume) ⟨hf.books, hf.thread⟩ rfl)
  | interruptedGet is _ pc =>
    subst is
    have hf := hi.free (by rw [task, pc]; rfl)
    exact hquiet rfl (Free.finish (x := s.side.resume) ⟨hf.books, hf.thread⟩ .cancelled)
  | @interruptedWrite n r job l is _ pc ack =>
    subst is
    obtain ⟨hb, ht, hnil⟩ := hi.writing pc
    obtain ⟨htaken, hself, hother⟩ := ack_acks ack hnil
    refine hquiet rfl (Free.finish
      (x := (s.sink, l, (s.side.resume.setExecutor (s.task.executor.cancel job)).2.2))
      ⟨hb.pass ack (.inr rfl), ?_⟩ .cancelled)
    have := ht.interrupt hnil hself hother
    rwa [← show l.taken = s.ledger.taken from htaken] at this
  | interruptedClose is _ pc =>
    subst is
    have hf := hi.free (by rw [task, pc]; rfl)
    exact hquiet rfl (Free.moveTo (x := s.side.resume.setExecutor _)
      ⟨hf.books, hf.thread.cancelClose _⟩ rfl)
  | begins is begin =>
    subst is
    exact hquiet rfl ⟨hi.books, hi.thread.begin begin, hi.record⟩
  | @writeEnds job n text fx is job_eq =>
    subst is
    obtain ⟨hreports, houtput⟩ := SinkSide.writeEffect_spec kind fx n text s.sink
    refine hquiet rfl ⟨?_, ?_, hi.record⟩
    · have hb := hi.books
      rw [← hreports] at hb
      exact hb
    · have ht := hi.thread.endWrite job_eq (fun j heq => (hi.current heq).2)
        (SinkSide.writeEffect kind fx n text s.sink).2
      rw [← houtput] at ht
      exact ht
  | @closeEnds job ok is job_eq =>
    subst is
    obtain ⟨hreports, houtput⟩ := SinkSide.closeEffect_spec kind ok s.sink
    refine hquiet rfl ⟨?_, ?_, hi.record⟩
    · have hb := hi.books
      rw [← hreports] at hb
      exact hb
    · have ht := hi.thread.endClose job_eq (SinkSide.closeEffect kind ok s.sink).2
      rw [← houtput] at ht
      exact ht

theorem Inv.step {a : Act} (hi : s.Inv) (hok : s.formats a = true)
    (h : SinkRun.step kind s a = some t) : t.Inv := by
  cases a with
  | enqueue r =>
    obtain ⟨l, hput, rfl⟩ := Option.map_eq_some_iff.mp h
    obtain ⟨-, hlog, htaken, hacks, -, -⟩ := Ledger.put_eq_some hput
    refine ⟨hi.books.put hput, ?_, fun n r' job hpc => ?_⟩
    · show Thread _ _ _ l.taken l.acks _
      rw [htaken, hacks]
      exact hi.thread
    · obtain ⟨hnum, hold⟩ := hi.record n r' job hpc
      refine ⟨hnum, ?_⟩
      show l.log[r'.1]? = _
      rw [hlog, List.getElem?_append_left (List.getElem?_eq_some_iff.mp hold).1, hold]
  | setRunning b =>
    obtain rfl := Option.some.inj h
    exact ⟨hi.books, hi.thread, hi.record⟩
  | cancel =>
    obtain rfl := Option.some.inj h
    exact ⟨hi.books, hi.thread, hi.record⟩
  | worker a =>
    obtain ⟨y, hy, rfl⟩ := Option.map_eq_some_iff.mp h
    refine hi.worker ?_ hy
    rintro rfl
    exact absurd hok (by simp [formats])

theorem Inv.of_reachable
    (h : (machine kind).Reachable (fun s a => s.formats a = true) s) : s.Inv :=
  Machine.invariant (I := Inv) (fun _ h => Inv.init h)
    (fun _ _ _ hi hok hstep => hi.step hok hstep) h

-- ---------------------------------------------------------------------------
-- What a step acknowledges, and where it leaves the loop
-- ---------------------------------------------------------------------------

theorem Inv.interrupts {a : Act} {n : Nat} (hi : s.Inv) (h : SinkRun.step kind s a = some t)
    (hs : s.ledger.acks n = []) (ht : t.ledger.acks n = [.interrupted]) :
    s.task.cancelRequested = true ∧ s.task.pc.hand = some n := by
  have hsame : t.ledger.acks ≠ s.ledger.acks := by
    intro heq
    rw [heq, hs] at ht
    exact absurd ht (by simp)
  cases a with
  | enqueue r =>
    obtain ⟨l, hput, rfl⟩ := Option.map_eq_some_iff.mp h
    obtain ⟨-, -, -, hacks, -, -⟩ := Ledger.put_eq_some hput
    exact absurd hacks hsame
  | setRunning b =>
    obtain rfl := Option.some.inj h
    exact absurd rfl hsame
  | cancel =>
    obtain rfl := Option.some.inj h
    exact absurd rfl hsame
  | worker a =>
    obtain ⟨y, hy, rfl⟩ := Option.map_eq_some_iff.mp h
    have hmoves := SinkSide.step_moves hi.books.sound hi.books.holds hy
    have hmem : Outcome.interrupted ∈ y.2.1.acks n := by
      rw [show y.2.1.acks n = [.interrupted] from ht]
      exact List.mem_cons_self
    rcases hmoves.acked hmem with hold | hf | hf | ⟨hf, -⟩ | ⟨-, hreq, hhand⟩
    · rw [show s.side.2.1.acks n = [] from hs] at hold
      exact absurd hold (by simp)
    · exact absurd hf (by decide)
    · exact absurd hf (by decide)
    · exact absurd hf (by decide)
    · exact ⟨hreq, hhand⟩

/-- How the worker may come to be past its loop. -/
abbrev Exit (s : SinkRun) (t : SinkRun) (e : TaskEnd) : Prop :=
  s.Leaving e ∨ (e = .cancelled ∧ s.task.cancelRequested = true) ∨
    (e = .returned ∧ t.running = false ∧ t.ledger.queue.items = []) ∨
    (e = .raised ∧ ∃ e' job, s.task.pc = .closing e' job)

theorem leaving_moveTo {x : SinkSide (Nat × LogRecord)} {pc : SinkPc (Nat × LogRecord)} {r : Bool}
    {rs : List (Nat × Rendering)} {e : TaskEnd} (h : Leaving ⟨x.moveTo pc, r, rs⟩ e) :
    (∃ job, pc = .closing e job) ∨ pc = .shutting e ∨ pc = .ended e := h

theorem leaving_finish {x : SinkSide (Nat × LogRecord)} {r : Bool} {rs : List (Nat × Rendering)}
    {e e' : TaskEnd} (h : Leaving ⟨x.finish kind e', r, rs⟩ e) : e = e' := by
  cases kind with
  | console =>
    rcases leaving_moveTo h with ⟨job, h⟩ | h | h
    · exact absurd h (by simp)
    · exact (SinkPc.shutting.inj h).symm
    · exact absurd h (by simp)
  | file _ =>
    rcases leaving_moveTo h with ⟨job, h⟩ | h | h
    · exact (SinkPc.closing.inj h).1.symm
    · exact absurd h (by simp)
    · exact absurd h (by simp)

theorem leaving_loopHead {x y : SinkSide (Nat × LogRecord)} {r : Bool} {rs : List (Nat × Rendering)}
    {e : TaskEnd} (on : SinkSide.LoopHead kind r x y) (h : Leaving ⟨y, r, rs⟩ e) :
    e = .returned ∧ r = false ∧ y.2.1.queue.items = [] := by
  cases on with
  | goes => rcases leaving_moveTo h with ⟨job, h⟩ | h | h <;> cases h
  | leaves stopped empty =>
    refine ⟨leaving_finish h, stopped, ?_⟩
    rw [(SinkSide.finish_onward kind x .returned).ledger]
    exact empty

theorem Inv.leaves {a : Act} {e : TaskEnd} (hi : s.Inv) (hok : s.formats a = true)
    (h : SinkRun.step kind s a = some t) (he : t.Leaving e) : Exit s t e := by
  cases a with
  | enqueue r =>
    obtain ⟨l, hput, rfl⟩ := Option.map_eq_some_iff.mp h
    exact .inl he
  | setRunning b =>
    obtain rfl := Option.some.inj h
    exact .inl he
  | cancel =>
    obtain rfl := Option.some.inj h
    exact .inl he
  | worker a =>
    obtain ⟨y, hy, rfl⟩ := Option.map_eq_some_iff.mp h
    cases SinkSide.step_segment hi.books.sound hi.books.holds hy with
    | start _ _ _ on | idles _ _ _ on | unrendered _ _ _ _ on | wrote _ _ _ _ _ on
    | failed _ _ _ _ _ on =>
      exact .inr (.inr (.inl (leaving_loopHead on he)))
    | skips is =>
      subst is
      exact absurd hok (by simp [formats])
    | submits _ _ _ => rcases leaving_moveTo he with ⟨_, h⟩ | h | h <;> cases h
    | @closed e' job exc ok _ pc _ _ =>
      cases ok with
      | true =>
        rcases leaving_moveTo he with ⟨_, h⟩ | h | h
        · cases h
        · rw [← SinkPc.shutting.inj h]
          exact .inl (.inl ⟨job, pc⟩)
        · cases h
      | false =>
        rcases leaving_moveTo he with ⟨_, h⟩ | h | h
        · cases h
        · cases h
        · exact .inr (.inr (.inr ⟨(SinkPc.ended.inj h).symm, e', job, pc⟩))
    | shuts _ pc _ =>
      rcases leaving_moveTo he with ⟨_, h⟩ | h | h
      · cases h
      · cases h
      · rw [← SinkPc.ended.inj h]
        exact .inl (.inr (.inl pc))
    | unstarted _ request _ | interruptedClose _ request _ =>
      rcases leaving_moveTo he with ⟨_, h⟩ | h | h
      · cases h
      · cases h
      · exact .inr (.inl ⟨(SinkPc.ended.inj h).symm, request⟩)
    | interruptedGet _ request _ | interruptedWrite _ request _ _ =>
      exact .inr (.inl ⟨leaving_finish he, request⟩)
    | begins _ _ | writeEnds _ _ | closeEnds _ _ => exact .inl he

/-- **One outcome and one acknowledgement per record.** For every sequence of
records and every behaviour of the formatter, the sink and the cancellations: as
long as there is a formatter, the worker meets all it owes. -/
theorem one_outcome (h : (machine kind).Reachable (fun s a => s.formats a = true) s) :
    s.Outcomes kind (fun s a => s.formats a = true) := by
  have hi := Inv.of_reachable h
  have hcurrent : ∀ n f job, s.ledger.acks n = [f] → s.task.pc.current ≠ some (n, job) := by
    intro n f job hf heq
    rw [(hi.current heq).2] at hf
    exact absurd hf (by simp)
  have hlt : ∀ n f, s.ledger.acks n = [f] → n < s.ledger.taken ∧ s.task.pc.hand ≠ some n := by
    intro n f hf
    refine ⟨?_, fun heq => ?_⟩
    · by_contra hge
      rw [hi.books.sound.fresh n (Nat.le_of_not_lt hge)] at hf
      exact absurd hf (by simp)
    · rw [(hi.books.holds n heq).2] at hf
      exact absurd hf (by simp)
  have hfaithful : ∀ p ∈ s.sink.output, ∃ text, (p.1, .text text) ∈ s.rendered ∧ p.2 = text ++ "\n" :=
    fun p hp => hi.thread.faithful p (List.mem_append_left _ hp)
  refine ⟨?_, hi.books.holds, hi.books.sound.fresh, ?_, ?_, ?_, hi.books.original, ?_, ?_,
    hi.thread.submitted, (List.pairwise_append.mp hi.thread.order).1, hfaithful,
    fun a t e hok hstep he => hi.leaves hok hstep he⟩
  · intro n hn hne
    rcases hi.books.acked n hn hne with h | h | h
    · exact ⟨_, h⟩
    · exact ⟨_, h⟩
    · exact ⟨_, h⟩
  · intro n f hf hne
    have hcount : s.reportsOf n = _ := hi.books.counted n
    obtain ⟨hn, hhand⟩ := hlt n f hf
    rcases hi.books.acked n hn hhand with h | h | h
    · obtain ⟨s', hs'⟩ := hi.thread.written n h
      obtain ⟨text, htext, heq⟩ := hfaithful _ hs'
      refine .inl ⟨⟨text, htext, heq ▸ hs'⟩, ?_⟩
      rw [hcount, h, if_neg (by decide)]
    · refine .inr ⟨fun ⟨_, _, hwrote⟩ => hi.thread.failed n h _ hwrote, ?_⟩
      rw [hcount, if_pos h]
    · rw [h] at hf
      exact absurd (List.cons.inj hf).1.symm hne
  · exact fun a t n _ hstep hs ht => hi.interrupts hstep hs ht
  · intro n hne
    by_contra hnf
    exact hne ((hi.books.counted n).trans (if_neg hnf))
  · intro n f hf hne job text hjob
    rcases Executor.mem_jobs.mp hjob with hrun | hpend
    · rcases hi.thread.running job n text hrun with heq | hint
      · exact hcurrent n f job hf heq
      · rw [hint] at hf
        exact hne (List.cons.inj hf).1.symm
    · exact hcurrent n f job hf (hi.thread.pending job n text hpend)
  · intro n hf job text hpend
    exact hcurrent n _ job hf (hi.thread.pending job n text hpend)

/-- The worker of a file handler, before its first segment. -/
def created : SinkRun :=
  ⟨(⟨none, 0, [], [], []⟩, Ledger.new 10, ⟨.created, .new, false⟩), true, []⟩

/-- One record is written, the formatting of a second raises, the write of a third
fails, and the worker is cancelled at its write of a fourth. -/
def outcomeSchedule : List Act :=
  [.enqueue ⟨20, "app", .ok "started", .ok "1970-01-01T00:00:00+00:00"⟩,
   .enqueue ⟨20, "app", .error "TypeError", .ok "1970-01-01T00:00:01+00:00"⟩,
   .enqueue ⟨40, "app", .ok "lost", .ok "1970-01-01T00:00:02+00:00"⟩,
   .enqueue ⟨40, "app", .ok "late", .ok "1970-01-01T00:00:03+00:00"⟩,
   .worker .start, .worker (.get (.text "INFO started")), .worker .jobBegins,
   .worker (.writeEnds ⟨true, .keep, true⟩), .worker (.jobDone ""),
   .worker (.get (.raises "TypeError")), .worker (.get (.text "ERROR lost")), .worker .jobBegins,
   .worker (.writeEnds ⟨true, .keep, false⟩), .worker (.jobDone "OSError"),
   .worker (.get (.text "ERROR late")), .cancel, .worker .deliver, .worker .jobBegins,
   .worker (.closeEnds true), .worker (.jobDone ""), .worker .release]

theorem one_outcome_four :
    ∃ t, (machine (.file true)).run (fun s a => s.formats a = true) created outcomeSchedule =
        some t ∧ t.Outcomes (.file true) (fun s a => s.formats a = true) ∧
      t.task.pc = .ended .cancelled ∧ t.sink.output = [(0, "INFO started\n")] := by
  have hrun : ∃ t, (machine (.file true)).run (fun s a => s.formats a = true) created
      outcomeSchedule = some t ∧ t.task.pc = .ended .cancelled ∧
        t.sink.output = [(0, "INFO started\n")] := ⟨_, rfl, rfl, rfl⟩
  obtain ⟨t, ht, hpc, houtput⟩ := hrun
  exact ⟨t, ht, one_outcome (.of_run ⟨10, true, rfl⟩ ht), hpc, houtput⟩

end SinkRun

end ScietexLogging
