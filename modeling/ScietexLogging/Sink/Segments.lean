import ScietexLogging.Sink.Model

/-!
# Sink — the workers as consumers

A segment of a console or file worker takes at most one record out of the queue
and acknowledges the one in its hand, and the steps of the executor's thread
leave both alone: `sinkConsumer` is lawful. Unlike the broker worker it never
loses a record, as everything between `get()` and the write is inside the `try`
that acknowledges it.
-/

namespace ScietexLogging

open Asyncio

def SinkPc.hand {α : Type} : SinkPc α → Option Nat
  | .writing n _ _ => some n
  | _ => none

def SinkPc.ended? {α : Type} : SinkPc α → Option TaskEnd
  | .ended e => some e
  | _ => none

/-- The texts that jobs of an executor write, in their order. -/
def Job.lines (jobs : List (Nat × Job)) : List (Nat × String) := jobs.filterMap fun p => p.2.line?

theorem Job.lines_submit (ex : Executor Job) (j : Job) :
    lines (ex.submit j).jobs = lines ex.jobs ++ j.line?.toList := by
  rw [Executor.jobs_submit, lines, List.filterMap_append]
  cases j with
  | write n text => rfl
  | close => rfl

theorem Job.lines_finish {ex : Executor Job} {job : Nat} {j : Job} (h : ex.running = some (job, j))
    (ok : Bool) : lines ex.jobs = j.line?.toList ++ lines (ex.finish job ok).jobs := by
  rw [Executor.jobs_finish h ok]
  cases j with
  | write n text => rfl
  | close => rfl

theorem Job.lines_cancel (ex : Executor Job) (job : Nat) :
    (lines (ex.cancel job).jobs).Sublist (lines ex.jobs) :=
  ((List.Sublist.refl _).append List.filter_sublist).filterMap _

namespace SinkSide

variable {α : Type} {kind : SinkKind} {running : Bool}

/-- Code that only moves the worker on, leaving the queue alone. -/
structure Onward (x y : SinkSide α) : Prop where
  ledger : y.2.1 = x.2.1
  hand : y.2.2.pc.hand = none
  cancelRequested : y.2.2.cancelRequested = x.2.2.cancelRequested

theorem finish_onward (kind : SinkKind) (x : SinkSide α) (e : TaskEnd) :
    Onward x (x.finish kind e) := by
  cases kind with
  | console => exact ⟨rfl, rfl, rfl⟩
  | file _ => exact ⟨rfl, rfl, rfl⟩

theorem loopHead_onward (kind : SinkKind) (running : Bool) (x : SinkSide α) :
    Onward x (x.loopHead kind running) := by
  unfold loopHead
  split
  · exact ⟨rfl, rfl, rfl⟩
  · exact finish_onward kind x .returned

-- What the jobs on the executor's thread write; they report nothing.

theorem write_spec (ok : Bool) (n : Nat) (text : String) (x : Sink α) :
    (x.write ok n text).1.reports = x.reports ∧
      (x.write ok n text).1.output = x.output ++ if (x.write ok n text).2 then [(n, text)] else [] := by
  cases ok with
  | true => exact ⟨rfl, rfl⟩
  | false => exact ⟨rfl, (List.append_nil _).symm⟩

theorem writeTo_spec (ok : Bool) (s n : Nat) (text : String) (x : Sink α) :
    (x.writeTo ok s n text).1.reports = x.reports ∧
      (x.writeTo ok s n text).1.output =
        x.output ++ if (x.writeTo ok s n text).2 then [(n, text)] else [] := by
  unfold Sink.writeTo
  split
  · exact ⟨rfl, (List.append_nil _).symm⟩
  · exact write_spec ok n text (x.log [.wrote s])

theorem openStream_spec {ok : Bool} {s : Nat} {x y : Sink α} (h : x.openStream ok = some (s, y)) :
    y.reports = x.reports ∧ y.output = x.output := by
  unfold Sink.openStream at h
  split at h
  · obtain ⟨-, rfl⟩ := Prod.mk.inj (Option.some.inj h)
    exact ⟨rfl, rfl⟩
  · obtain ⟨-, heq⟩ := Option.ite_none_right_eq_some.mp h
    obtain ⟨-, rfl⟩ := Prod.mk.inj (Option.some.inj heq)
    exact ⟨rfl, rfl⟩

theorem writeRecord_spec (fx : WriteFx) (n : Nat) (text : String) (x : Sink α) :
    (x.writeRecord fx n text).1.reports = x.reports ∧
      (x.writeRecord fx n text).1.output =
        x.output ++ if (x.writeRecord fx n text).2 then [(n, text)] else [] := by
  unfold Sink.writeRecord
  split
  · exact ⟨rfl, (List.append_nil _).symm⟩
  · rename_i s y hopen
    obtain ⟨hreports, houtput⟩ := openStream_spec hopen
    rw [← hreports, ← houtput]
    split
    · exact writeTo_spec fx.writeOk s n text y
    · exact ⟨rfl, (List.append_nil _).symm⟩
    · exact ⟨rfl, (List.append_nil _).symm⟩
    · exact ⟨rfl, (List.append_nil _).symm⟩
    · exact writeTo_spec fx.writeOk y.opened n text (y.log [.closed s]).openNew

/-- A job that writes adds its text to what was written, if it returns. -/
theorem writeEffect_spec (kind : SinkKind) (fx : WriteFx) (n : Nat) (text : String) (x : Sink α) :
    (writeEffect kind fx n text x).1.reports = x.reports ∧
      (writeEffect kind fx n text x).1.output =
        x.output ++ if (writeEffect kind fx n text x).2 then [(n, text)] else [] := by
  unfold writeEffect
  split
  · exact writeRecord_spec fx n text x
  · exact write_spec fx.writeOk n text x

theorem closeEffect_spec (kind : SinkKind) (ok : Bool) (x : Sink α) :
    (closeEffect kind ok x).1.reports = x.reports ∧ (closeEffect kind ok x).1.output = x.output := by
  unfold closeEffect Sink.closeStream
  split
  · split
    · exact ⟨rfl, rfl⟩
    · exact ⟨rfl, rfl⟩
  · exact ⟨rfl, rfl⟩

/-- The ways the head of the loop goes on. -/
inductive LoopHead (kind : SinkKind) (running : Bool) (x : SinkSide α) : SinkSide α → Prop
  | goes : LoopHead kind running x (x.moveTo .getting)
  | leaves (stopped : running = false) (empty : x.2.1.queue.items = []) :
      LoopHead kind running x (x.finish kind .returned)

theorem loopHead_spec (kind : SinkKind) (running : Bool) (x : SinkSide α) :
    LoopHead kind running x (x.loopHead kind running) := by
  unfold loopHead
  split
  · exact .goes
  · rename_i hcond
    simp only [Bool.or_eq_true, Bool.not_eq_true', not_or, Bool.not_eq_true] at hcond
    exact .leaves hcond.1 (by simpa using hcond.2)

/-- The segments of the worker and the steps of its executor's thread. -/
inductive Segment (kind : SinkKind) (running : Bool) (a : SinkAct) (x : SinkSide α) :
    SinkSide α → Prop
  | start {y : SinkSide α} (is : a = .start) (pc : x.2.2.pc = .created)
      (calm : x.2.2.cancelRequested = false) (on : LoopHead kind running x y) :
      Segment kind running a x y
  | idles {y : SinkSide α} (is : a = .timeout) (pc : x.2.2.pc = .getting)
      (calm : x.2.2.cancelRequested = false) (on : LoopHead kind running x y) :
      Segment kind running a x y
  | skips {y : SinkSide α} {n : Nat} {record : α} {l l' : Ledger α Outcome}
      (is : a = .get .unset) (pc : x.2.2.pc = .getting) (get : x.2.1.get = some ((n, record), l))
      (ack : l.ack n .skipped = some l') (on : LoopHead kind running (x.1, l', x.resume.2.2) y) :
      Segment kind running a x y
  | unrendered {y : SinkSide α} {n : Nat} {record : α} {exc : String} {l l' : Ledger α Outcome}
      (is : a = .get (.raises exc)) (pc : x.2.2.pc = .getting)
      (get : x.2.1.get = some ((n, record), l)) (ack : l.ack n .failed = some l')
      (on : LoopHead kind running ((x.report record exc).1, l', x.resume.2.2) y) :
      Segment kind running a x y
  | submits {n : Nat} {record : α} {text : String} {l : Ledger α Outcome}
      (is : a = .get (.text text)) (pc : x.2.2.pc = .getting)
      (get : x.2.1.get = some ((n, record), l)) :
      Segment kind running a x (submit (x.1, l, x.resume.2.2) (.write n (text ++ "\n")) (.writing n record))
  | wrote {y : SinkSide α} {n : Nat} {record : α} {job : Nat} {exc : String} {l : Ledger α Outcome}
      (is : a = .jobDone exc) (pc : x.2.2.pc = .writing n record job)
      (calm : x.2.2.cancelRequested = false) (done : x.2.2.executor.finished job = some true)
      (ack : x.2.1.ack n .written = some l) (on : LoopHead kind running (x.1, l, x.2.2) y) :
      Segment kind running a x y
  | failed {y : SinkSide α} {n : Nat} {record : α} {job : Nat} {exc : String} {l : Ledger α Outcome}
      (is : a = .jobDone exc) (pc : x.2.2.pc = .writing n record job)
      (calm : x.2.2.cancelRequested = false) (done : x.2.2.executor.finished job = some false)
      (ack : x.2.1.ack n .failed = some l)
      (on : LoopHead kind running ((x.report record exc).1, l, x.2.2) y) : Segment kind running a x y
  | closed {e : TaskEnd} {job : Nat} {exc : String} {ok : Bool} (is : a = .jobDone exc)
      (pc : x.2.2.pc = .closing e job) (calm : x.2.2.cancelRequested = false)
      (done : x.2.2.executor.finished job = some ok) :
      Segment kind running a x (x.moveTo (if ok then .shutting e else .ended .raised))
  | shuts {e : TaskEnd} {ex : Executor Job} (is : a = .release) (pc : x.2.2.pc = .shutting e)
      (down : x.2.2.executor.shutdown = some ex) :
      Segment kind running a x ((x.resume.setExecutor ex).moveTo (.ended e))
  | unstarted (is : a = .deliver) (request : x.2.2.cancelRequested = true)
      (pc : x.2.2.pc = .created) : Segment kind running a x (x.resume.moveTo (.ended .cancelled))
  | interruptedGet (is : a = .deliver) (request : x.2.2.cancelRequested = true)
      (pc : x.2.2.pc = .getting) : Segment kind running a x (x.resume.finish kind .cancelled)
  | interruptedWrite {n : Nat} {record : α} {job : Nat} {l : Ledger α Outcome} (is : a = .deliver)
      (request : x.2.2.cancelRequested = true) (pc : x.2.2.pc = .writing n record job)
      (ack : x.2.1.ack n .interrupted = some l) :
      Segment kind running a x
        (finish kind (x.1, l, (x.resume.setExecutor (x.2.2.executor.cancel job)).2.2) .cancelled)
  | interruptedClose {e : TaskEnd} {job : Nat} (is : a = .deliver)
      (request : x.2.2.cancelRequested = true) (pc : x.2.2.pc = .closing e job) :
      Segment kind running a x
        ((x.resume.setExecutor (x.2.2.executor.cancel job)).moveTo (.ended .cancelled))
  | begins {ex : Executor Job} (is : a = .jobBegins) (begin : x.2.2.executor.begin = some ex) :
      Segment kind running a x (x.setExecutor ex)
  | writeEnds {job n : Nat} {text : String} {fx : WriteFx} (is : a = .writeEnds fx)
      (job_eq : x.2.2.executor.running = some (job, .write n text)) :
      Segment kind running a x (x.endJob job (writeEffect kind fx n text))
  | closeEnds {job : Nat} {ok : Bool} (is : a = .closeEnds ok)
      (job_eq : x.2.2.executor.running = some (job, .close)) :
      Segment kind running a x (x.endJob job (closeEffect kind ok))

/-- Acknowledging the record in hand succeeds. -/
private theorem acknowledge_eq (kind : SinkKind) {x : SinkSide α} (x' : SinkSide α) {n : Nat}
    (f : Outcome) (next : SinkSide α → SinkSide α) (hs : x.2.1.Sound) (hh : x.2.1.Holds (some n))
    (hledger : x'.2.1 = x.2.1) :
    ∃ l, x.2.1.ack n f = some l ∧ x'.acknowledge kind n f next = next (x'.1, l, x'.2.2) := by
  obtain ⟨hlt, ha⟩ := hh n rfl
  obtain ⟨l, hl⟩ := Ledger.ack_of_pos (hs.unfinished_pos hlt ha) n f
  exact ⟨l, hl, by rw [acknowledge, hledger, hl]⟩

private theorem interrupt_segment {a : SinkAct} {x y : SinkSide α} (hact : a = .deliver)
    (hs : x.2.1.Sound) (hh : x.2.1.Holds x.2.2.pc.hand) (hc : x.2.2.cancelRequested = true)
    (h : x.resume.interrupt kind = some y) : Segment kind running a x y := by
  unfold interrupt at h
  split at h
  case h_1 hpc =>
    obtain rfl := Option.some.inj h
    exact .unstarted hact hc hpc
  case h_2 hpc =>
    obtain rfl := Option.some.inj h
    exact .interruptedGet hact hc hpc
  case h_3 n record job hpc =>
    obtain rfl := Option.some.inj h
    rw [show x.2.2.pc = _ from hpc] at hh
    obtain ⟨l, hl, heq⟩ := acknowledge_eq kind
      (x.resume.setExecutor (x.2.2.executor.cancel job)) .interrupted
      (finish kind · .cancelled) hs hh rfl
    show Segment kind running a x (acknowledge kind (x.resume.setExecutor _) n .interrupted _)
    rw [show x.resume.2.2.executor = x.2.2.executor from rfl, heq]
    exact .interruptedWrite hact hc hpc hl
  case h_4 e job hpc =>
    obtain rfl := Option.some.inj h
    exact .interruptedClose hact hc hpc
  all_goals exact absurd h (by simp)

private theorem get_segment {r : Rendering} {x : SinkSide α} {n : Nat} {record : α}
    {l : Ledger α Outcome} (hs : x.2.1.Sound) (hpc : x.2.2.pc = .getting)
    (hget : x.2.1.get = some ((n, record), l)) :
    Segment kind running (.get r) x (compose kind running r (x.resume.1, l, x.resume.2.2) n record) := by
  obtain ⟨hs', hlt, ha, -⟩ := hs.get hget
  have hholds : l.Holds (some n) := by
    intro m hm
    obtain rfl := Option.some.inj hm
    exact ⟨hlt, ha⟩
  cases r with
  | unset =>
    obtain ⟨l', hl', heq⟩ := acknowledge_eq kind (x := (x.1, l, x.resume.2.2))
      (x.1, l, x.resume.2.2) .skipped (loopHead kind running) hs' hholds rfl
    rw [compose, show x.resume.1 = x.1 from rfl, heq]
    exact .skips rfl hpc hget hl' (loopHead_spec kind running _)
  | raises exc =>
    obtain ⟨l', hl', heq⟩ := acknowledge_eq kind (x := (x.1, l, x.resume.2.2))
      (report (x.1, l, x.resume.2.2) record exc) .failed (loopHead kind running) hs' hholds rfl
    rw [compose, show x.resume.1 = x.1 from rfl, heq]
    exact .unrendered rfl hpc hget hl' (loopHead_spec kind running _)
  | text s => exact .submits rfl hpc hget

/-- **What a segment does.** -/
theorem step_segment {a : SinkAct} {x y : SinkSide α} (hs : x.2.1.Sound)
    (hh : x.2.1.Holds x.2.2.pc.hand) (h : step kind running a x = some y) :
    Segment kind running a x y := by
  unfold step at h
  split at h
  case h_1 hpc =>
    split at h
    · exact absurd h (by simp)
    · rename_i hcalm
      obtain rfl := Option.some.inj h
      exact .start rfl hpc (by simpa using hcalm) (loopHead_spec kind running x)
  case h_2 hpc =>
    split at h
    · exact absurd h (by simp)
    · rename_i hcalm
      obtain rfl := Option.some.inj h
      exact .idles rfl hpc (by simpa using hcalm) (loopHead_spec kind running x)
  case h_3 r hpc =>
    obtain ⟨⟨⟨n, record⟩, l⟩, hget, rfl⟩ := Option.map_eq_some_iff.mp h
    exact get_segment hs hpc hget
  case h_4 exc n record job hpc =>
    split at h
    · exact absurd h (by simp)
    · rename_i hcalm
      obtain ⟨ok, hdone, rfl⟩ := Option.map_eq_some_iff.mp h
      rw [hpc] at hh
      cases ok with
      | true =>
        obtain ⟨l, hl, heq⟩ := acknowledge_eq kind x .written (loopHead kind running) hs hh rfl
        rw [afterWrite, if_pos rfl, heq]
        exact .wrote rfl hpc (by simpa using hcalm) hdone hl (loopHead_spec kind running _)
      | false =>
        obtain ⟨l, hl, heq⟩ := acknowledge_eq kind (x.report record exc) .failed
          (loopHead kind running) hs hh rfl
        rw [afterWrite, if_neg (by simp), heq]
        exact .failed rfl hpc (by simpa using hcalm) hdone hl (loopHead_spec kind running _)
  case h_5 exc e job hpc =>
    split at h
    · exact absurd h (by simp)
    · rename_i hcalm
      obtain ⟨ok, hdone, rfl⟩ := Option.map_eq_some_iff.mp h
      exact .closed rfl hpc (by simpa using hcalm) hdone
  case h_6 e hpc =>
    obtain ⟨ex, hdown, rfl⟩ := Option.map_eq_some_iff.mp h
    exact .shuts rfl hpc hdown
  case h_7 =>
    split at h
    · rename_i hc
      exact interrupt_segment rfl hs hh hc h
    · exact absurd h (by simp)
  case h_8 =>
    obtain ⟨ex, hbegin, rfl⟩ := Option.map_eq_some_iff.mp h
    exact .begins rfl hbegin
  case h_9 fx _ =>
    split at h
    · rename_i job n text hjob
      obtain rfl := Option.some.inj h
      exact .writeEnds rfl hjob
    · exact absurd h (by simp)
  case h_10 ok _ =>
    split at h
    · rename_i job hjob
      obtain rfl := Option.some.inj h
      exact .closeEnds rfl hjob
    · exact absurd h (by simp)
  case h_11 => exact absurd h (by simp)

/-- What a segment of the worker may acknowledge with. -/
def Allows (a : SinkAct) (t : SinkTask α) (n : Nat) (f : Outcome) : Prop :=
  f = .written ∨ f = .failed ∨ (f = .skipped ∧ a = .get .unset) ∨
    (f = .interrupted ∧ t.cancelRequested = true ∧ t.pc.hand = some n)

/-- Acknowledging the record in hand succeeds, and the worker moves on by `next`. -/
private theorem acknowledge_moves {P : Nat → Outcome → Prop} {lossy : Prop} {x x' : SinkSide α} {n : Nat}
    {f : Outcome} {next : SinkSide α → SinkSide α} (hs : x.2.1.Sound) (hh : x.2.1.Holds (some n))
    (hledger : x'.2.1 = x.2.1) (hf : P n f) (hnext : ∀ z, Onward z (next z)) :
    Ledger.Moves P lossy (some n, x.2.1)
      ((x'.acknowledge kind n f next).2.2.pc.hand, (x'.acknowledge kind n f next).2.1) := by
  obtain ⟨hlt, ha⟩ := hh n rfl
  obtain ⟨l, hl⟩ := Ledger.ack_of_pos (hs.unfinished_pos hlt ha) n f
  have heq : x'.acknowledge kind n f next = next (x'.1, l, x'.2.2) := by
    rw [acknowledge, hledger, hl]
  rw [heq, (hnext _).hand, (hnext _).ledger]
  exact .single (.ack hf hl)

private theorem acknowledge_cancelRequested (x : SinkSide α) (n : Nat) (f : Outcome)
    {next : SinkSide α → SinkSide α} (hnext : ∀ z, Onward z (next z)) :
    (x.acknowledge kind n f next).2.2.cancelRequested = x.2.2.cancelRequested := by
  unfold acknowledge
  split
  · rw [(hnext _).cancelRequested]
  · rw [(finish_onward _ _ _).cancelRequested]

private theorem interrupt_moves {lossy : Prop} {a : SinkAct} {x y : SinkSide α} (hs : x.2.1.Sound)
    (hh : x.2.1.Holds x.2.2.pc.hand) (hc : x.2.2.cancelRequested = true)
    (h : x.resume.interrupt kind = some y) :
    Ledger.Moves (Allows a x.2.2) lossy (x.2.2.pc.hand, x.2.1) (y.2.2.pc.hand, y.2.1) := by
  unfold interrupt at h
  split at h
  case h_1 hpc =>
    obtain rfl := Option.some.inj h
    rw [show x.2.2.pc = _ from hpc]
    exact .refl
  case h_2 hpc =>
    obtain rfl := Option.some.inj h
    rw [show x.2.2.pc = _ from hpc, (finish_onward _ _ _).hand, (finish_onward _ _ _).ledger]
    exact .refl
  case h_3 n record job hpc =>
    obtain rfl := Option.some.inj h
    have hhand : x.2.2.pc.hand = some n := by rw [show x.2.2.pc = _ from hpc]; rfl
    rw [hhand] at hh ⊢
    exact acknowledge_moves hs hh rfl (.inr (.inr (.inr ⟨rfl, hc, hhand⟩)))
      (fun z => finish_onward kind z .cancelled)
  case h_4 hpc =>
    obtain rfl := Option.some.inj h
    rw [show x.2.2.pc = _ from hpc]
    exact .refl
  all_goals exact absurd h (by simp)

/-- What a segment does to the queue and the record in hand. -/
theorem step_moves {a : SinkAct} {x y : SinkSide α} (hs : x.2.1.Sound)
    (hh : x.2.1.Holds x.2.2.pc.hand) (h : step kind running a x = some y) :
    Ledger.Moves (Allows a x.2.2) False (x.2.2.pc.hand, x.2.1) (y.2.2.pc.hand, y.2.1) := by
  have hloop := loopHead_onward (α := α) kind running
  unfold step at h
  split at h
  case h_1 hpc | h_2 hpc =>
    split at h
    · exact absurd h (by simp)
    · obtain rfl := Option.some.inj h
      rw [hpc, (hloop x).hand, (hloop x).ledger]
      exact .refl
  case h_3 r hpc =>
    obtain ⟨⟨⟨n, record⟩, l⟩, hget, rfl⟩ := Option.map_eq_some_iff.mp h
    have htake : Ledger.Move (Allows (.get r) x.2.2) False (none, x.2.1) (some n, l) := .take hget
    obtain ⟨hs', hlt, ha, -⟩ := hs.get hget
    have hholds : l.Holds (some n) := by
      rintro m hm
      obtain rfl := Option.some.inj hm
      exact ⟨hlt, ha⟩
    rw [hpc]
    refine Relation.ReflTransGen.head htake ?_
    cases r with
    | unset =>
      exact acknowledge_moves (x := (x.1, l, x.2.2)) hs' hholds rfl
        (.inr (.inr (.inl ⟨rfl, rfl⟩))) hloop
    | raises exc =>
      exact acknowledge_moves (x := (x.1, l, x.2.2)) hs' hholds rfl (.inr (.inl rfl)) hloop
    | text s => exact .refl
  case h_4 exc n record job hpc =>
    split at h
    · exact absurd h (by simp)
    · obtain ⟨ok, -, rfl⟩ := Option.map_eq_some_iff.mp h
      rw [hpc] at hh ⊢
      cases ok with
      | true => exact acknowledge_moves hs hh rfl (.inl rfl) hloop
      | false => exact acknowledge_moves hs hh rfl (.inr (.inl rfl)) hloop
  case h_5 e job hpc =>
    split at h
    · exact absurd h (by simp)
    · obtain ⟨ok, -, rfl⟩ := Option.map_eq_some_iff.mp h
      rw [hpc]
      cases ok with
      | true => exact .refl
      | false => exact .refl
  case h_6 e hpc =>
    obtain ⟨ex, -, rfl⟩ := Option.map_eq_some_iff.mp h
    rw [hpc]
    exact .refl
  case h_7 =>
    split at h
    · rename_i hc
      exact interrupt_moves hs hh hc h
    · exact absurd h (by simp)
  -- the steps of the executor's thread
  case h_8 =>
    obtain ⟨ex, -, rfl⟩ := Option.map_eq_some_iff.mp h
    exact .refl
  case h_9 | h_10 =>
    split at h
    · obtain rfl := Option.some.inj h
      exact .refl
    · exact absurd h (by simp)
  case h_11 => exact absurd h (by simp)

/-- A request to cancel is still there only where the worker stays where it is. -/
theorem step_quiet {a : SinkAct} {x y : SinkSide α} (h : step kind running a x = some y)
    (hc : y.2.2.cancelRequested = true) :
    x.2.2.cancelRequested = true ∧ y.2.2.pc.hand = x.2.2.pc.hand := by
  have hloop := loopHead_onward (α := α) kind running
  have hfin : ∀ z : SinkSide α, Onward z (z.finish kind .cancelled) :=
    fun z => finish_onward kind z .cancelled
  have hback : ∀ z : SinkSide α, z.2.2.cancelRequested = false →
      y.2.2.cancelRequested = z.2.2.cancelRequested →
      x.2.2.cancelRequested = true ∧ y.2.2.pc.hand = x.2.2.pc.hand := by
    intro z hz hy
    rw [hy, hz] at hc
    exact absurd hc (by simp)
  unfold step at h
  split at h
  case h_1 | h_2 =>
    split at h
    · exact absurd h (by simp)
    · rename_i hcr
      obtain rfl := Option.some.inj h
      exact hback x (by simpa using hcr) (hloop x).cancelRequested
  case h_3 r hpc =>
    obtain ⟨⟨⟨n, record⟩, l⟩, -, rfl⟩ := Option.map_eq_some_iff.mp h
    refine hback x.resume rfl ?_
    cases r with
    | unset => exact acknowledge_cancelRequested _ _ _ hloop
    | raises exc => exact acknowledge_cancelRequested _ _ _ hloop
    | text s => rfl
  case h_4 =>
    split at h
    · exact absurd h (by simp)
    · rename_i hcr
      obtain ⟨ok, -, rfl⟩ := Option.map_eq_some_iff.mp h
      refine hback x (by simpa using hcr) ?_
      cases ok with
      | true => exact acknowledge_cancelRequested _ _ _ hloop
      | false => exact acknowledge_cancelRequested _ _ _ hloop
  case h_5 =>
    split at h
    · exact absurd h (by simp)
    · rename_i hcr
      obtain ⟨ok, -, rfl⟩ := Option.map_eq_some_iff.mp h
      exact hback x (by simpa using hcr) rfl
  case h_6 =>
    obtain ⟨ex, -, rfl⟩ := Option.map_eq_some_iff.mp h
    exact hback x.resume rfl rfl
  case h_7 =>
    split at h
    · refine hback x.resume rfl ?_
      unfold interrupt at h
      split at h
      case h_3 =>
        obtain rfl := Option.some.inj h
        exact acknowledge_cancelRequested _ _ _ hfin
      case h_2 =>
        obtain rfl := Option.some.inj h
        exact (hfin _).cancelRequested
      case h_1 | h_4 =>
        obtain rfl := Option.some.inj h
        rfl
      all_goals exact absurd h (by simp)
    · exact absurd h (by simp)
  case h_8 =>
    obtain ⟨ex, -, rfl⟩ := Option.map_eq_some_iff.mp h
    exact ⟨hc, rfl⟩
  case h_9 | h_10 =>
    split at h
    · obtain rfl := Option.some.inj h
      exact ⟨hc, rfl⟩
    · exact absurd h (by simp)
  case h_11 => exact absurd h (by simp)

/-- Once the task has ended only the executor's thread goes on. -/
theorem step_ended {a : SinkAct} {x y : SinkSide α} {e : TaskEnd}
    (hx : x.2.2.pc.ended? = some e) (h : step kind running a x = some y) :
    y.2.2.pc.ended? = some e ∧ y.2.1 = x.2.1 := by
  have hpc : x.2.2.pc = .ended e := by
    cases hp : x.2.2.pc <;> rw [hp] at hx <;> simp_all [SinkPc.ended?]
  unfold step at h
  split at h
  case h_7 =>
    split at h
    · rw [interrupt, show x.resume.2.2.pc = _ from hpc] at h
      exact absurd h (by simp)
    · exact absurd h (by simp)
  case h_8 =>
    obtain ⟨ex, -, rfl⟩ := Option.map_eq_some_iff.mp h
    exact ⟨hx, rfl⟩
  case h_9 | h_10 =>
    split at h
    · obtain rfl := Option.some.inj h
      exact ⟨hx, rfl⟩
    · exact absurd h (by simp)
  case h_11 => exact absurd h (by simp)
  all_goals
    rename_i hpc'
    rw [hpc] at hpc'
    cases hpc'

end SinkSide

/-- The console and file workers as consumers of their queues. An injected file
is nobody's to open. -/
def sinkConsumer (kind : SinkKind) (α : Type) : Consumer α Outcome where
  Shared := Sink α
  Task := SinkTask α
  Act := SinkAct
  initial := ⟨none, 0, [], [], []⟩
  create := ⟨.created, .new, false⟩
  cancel := fun t => { t with cancelRequested := true }
  cancelRequested := (·.cancelRequested)
  hand := (·.pc.hand)
  ended := (·.pc.ended?)
  step := fun running a x => SinkSide.step kind running a x
  outcome := SinkSide.Allows
  loses := fun _ _ => false
  create_hand := rfl
  create_ended := rfl
  create_quiet := rfl
  cancel_hand := fun _ => rfl
  cancel_ended := fun _ => rfl
  ended_hand := fun t e h => by
    cases hp : t.pc <;> rw [hp] at h <;> simp_all [SinkPc.ended?, SinkPc.hand]
  ended_step := fun _ _ _ _ _ he h => SinkSide.step_ended he h
  step_moves := fun _ _ _ _ hs hh h => (SinkSide.step_moves hs hh h).mono (fun _ _ hf => hf) False.elim
  step_quiet := fun _ _ _ _ h hc => SinkSide.step_quiet h hc

end ScietexLogging
