import ScietexLogging.Sink.Segments

/-!
# Sink — what a file worker leaves behind

A file worker that leaves its loop hands the close of its stream to its executor, behind a
write that may still be running there, and shuts the executor down once the close is over.
Both awaits of its `finally` are part of the worker: a cancellation that meets it while it
awaits the close takes the close back, or does not wait for it, and leaves the executor up.

* `Disciplined`   — of the streams a backend opened all are closed but the one it holds,
                    and nothing is written to a closed one;
* `Tidy.step`     — a worker that no cancellation meets there ends with its executor shut
                    down and the stream closed.
-/

namespace ScietexLogging

open Asyncio

-- ---------------------------------------------------------------------------
-- The streams
-- ---------------------------------------------------------------------------

namespace Sink

variable {α : Type} {x : Sink α}

structure Disciplined (x : Sink α) : Prop where
  closed : ∀ s, .opened s ∈ x.events → x.stream = some s ∨ .closed s ∈ x.events
  last : x.events.Pairwise fun e e' => ∀ s, e = .closed s → e' ≠ .wrote s

namespace Disciplined

/-- A close, and opening a stream, write nothing. -/
theorem log (hd : x.Disciplined) {e : StreamEvent} (he : ∀ s, e ≠ .wrote s) (hopened : ∀ s, e ≠ .opened s) :
    (x.log [e]).Disciplined := by
  refine ⟨fun s hs => ?_, ?_⟩
  · rcases List.mem_append.mp hs with hs | hs
    · exact (hd.closed s hs).imp_right (List.mem_append_left _)
    · exact absurd (List.mem_singleton.mp hs).symm (hopened s)
  · refine List.pairwise_append.mpr ⟨hd.last, List.pairwise_singleton _ _, fun e' _ e'' he' s _ => ?_⟩
    rw [List.mem_singleton.mp he']
    exact he s

theorem openNew (hd : x.Disciplined) (hall : ∀ s, .opened s ∈ x.events → .closed s ∈ x.events) :
    x.openNew.Disciplined := by
  refine ⟨fun s hs => ?_, ?_⟩
  · rcases List.mem_append.mp hs with hs | hs
    · exact .inr (List.mem_append_left _ (hall s hs))
    · exact .inl (by rw [StreamEvent.opened.inj (List.mem_singleton.mp hs)]; rfl)
  · refine List.pairwise_append.mpr ⟨hd.last, List.pairwise_singleton _ _, fun e _ e' he' s _ => ?_⟩
    rw [List.mem_singleton.mp he']
    exact StreamEvent.noConfusion

theorem openStream (hd : x.Disciplined) {ok : Bool} {s : Nat} {y : Sink α}
    (h : x.openStream ok = some (s, y)) : y.Disciplined ∧ y.stream = some s := by
  unfold Sink.openStream at h
  split at h
  · rename_i s' hs
    obtain ⟨rfl, rfl⟩ := Prod.mk.inj (Option.some.inj h)
    exact ⟨hd, hs⟩
  · rename_i hnone
    split at h
    · obtain ⟨rfl, rfl⟩ := Prod.mk.inj (Option.some.inj h)
      refine ⟨hd.openNew fun s hs => (hd.closed s hs).resolve_left ?_, rfl⟩
      rw [hnone]
      exact fun h => by cases h
    · cases h

theorem write (hd : x.Disciplined) (ok : Bool) (n : Nat) (text : String) :
    (x.write ok n text).1.Disciplined := by
  cases ok with
  | true => exact ⟨hd.closed, hd.last⟩
  | false => exact hd

/-- A closed stream raises. -/
theorem writeTo (hd : x.Disciplined) (ok : Bool) (s n : Nat) (text : String) :
    (x.writeTo ok s n text).1.Disciplined := by
  unfold Sink.writeTo
  split
  · exact hd
  · rename_i hopen
    have hlog : (x.log [.wrote s]).Disciplined := by
      refine ⟨fun s' hs => ?_, ?_⟩
      · rcases List.mem_append.mp hs with hs | hs
        · exact (hd.closed s' hs).imp_right (List.mem_append_left _)
        · cases List.mem_singleton.mp hs
      · refine List.pairwise_append.mpr ⟨hd.last, List.pairwise_singleton _ _, fun e he e' he' s' hs' => ?_⟩
        rw [List.mem_singleton.mp he']
        intro heq
        rw [hs', ← StreamEvent.wrote.inj heq] at he
        exact hopen he
    exact hlog.write ok n text

/-- Closing the stream it holds. -/
theorem close (hd : x.Disciplined) {s : Nat} (hs : x.stream = some s) :
    ∀ s', .opened s' ∈ (x.log [.closed s]).events → .closed s' ∈ (x.log [.closed s]).events := by
  intro s' hs'
  have hclosed : .closed s ∈ (x.log [.closed s]).events :=
    List.mem_append_right _ (List.mem_cons_self ..)
  rcases List.mem_append.mp hs' with hs' | hs'
  · rcases hd.closed s' hs' with heq | hmem
    · rw [hs] at heq
      rw [← Option.some.inj heq]
      exact hclosed
    · exact List.mem_append_left _ hmem
  · cases List.mem_singleton.mp hs'

theorem writeRecord (hd : x.Disciplined) (fx : WriteFx) (n : Nat) (text : String) :
    (x.writeRecord fx n text).1.Disciplined := by
  unfold Sink.writeRecord
  split
  · exact hd
  · rename_i s y hopen
    obtain ⟨hy, hs⟩ := hd.openStream hopen
    have hclosed : (y.log [.closed s]).Disciplined :=
      hy.log (fun _ h => by cases h) fun _ h => by cases h
    split
    · exact hy.writeTo ..
    · exact hy
    · exact hclosed
    · exact ⟨fun s' hs' => .inr (hy.close hs s' hs'), hclosed.last⟩
    · exact (hclosed.openNew (hy.close hs)).writeTo ..

/-- After the close it holds none. -/
theorem closeStream (hd : x.Disciplined) (ok : Bool) :
    (x.closeStream ok).1.Disciplined ∧ (x.closeStream ok).1.stream = none := by
  unfold Sink.closeStream
  split
  · rename_i hnone
    exact ⟨hd, hnone⟩
  · rename_i s hs
    have hclosed : (x.log [.closed s]).Disciplined :=
      hd.log (fun _ h => by cases h) fun _ h => by cases h
    exact ⟨⟨fun s' hs' => .inr (hd.close hs s' hs'), hclosed.last⟩, rfl⟩

end Disciplined

end Sink

-- ---------------------------------------------------------------------------
-- The worker and its executor
-- ---------------------------------------------------------------------------

namespace SinkSide

variable {α : Type} {running : Bool} {x y : SinkSide α}

/-- The close of the stream is what the executor has to do last, or it is over. -/
def CloseDue (x : Sink α) (ex : Executor Job) (job : Nat) : Prop :=
  (ex.finished job = none ∧ ∃ js, ex.jobs = js ++ [(job, .close)] ∧ ∀ p ∈ js, p.2 ≠ .close) ∨
    (ex.finished job = some true ∧ ex.jobs = [] ∧ x.stream = none)

/-- What the executor has to do, by where its worker is. -/
def Cleanup (x : Sink α) (ex : Executor Job) : SinkPc α → Prop
  | .created => ex = .new ∧ x.stream = none
  | .getting => ex.jobs = []
  | .writing n _ job => ∀ p ∈ ex.jobs, ∃ text, p = (job, .write n text)
  | .closing _ job => CloseDue x ex job
  | .shutting _ => ex.jobs = [] ∧ x.stream = none
  | .ended _ => ex.Down ∧ x.stream = none

/-- No cancellation meets the worker while it awaits the close, and the close returns. -/
def undisturbed : SinkAct → SinkPc α → Bool
  | .deliver, .closing _ _ => false
  | .closeEnds ok, _ => ok
  | _, _ => true

/-- What a segment of the worker keeps. -/
structure Tidy (x : SinkSide α) : Prop where
  streams : x.1.Disciplined
  jobs : x.2.2.executor.Sound
  cleanup : Cleanup x.1 x.2.2.executor x.2.2.pc

/-- Leaving the loop, with nothing but a write still on the executor. -/
theorem Tidy.finish (hd : x.1.Disciplined) (hs : x.2.2.executor.Sound)
    (hjobs : ∀ p ∈ x.2.2.executor.jobs, p.2 ≠ .close) (e : TaskEnd) :
    (x.finish (.file true) e).Tidy := by
  refine ⟨hd, hs.submit .close, .inl ⟨?_, x.2.2.executor.jobs, ?_, hjobs⟩⟩
  · exact hs.fresh
  · exact Executor.jobs_submit ..

theorem LoopHead.tidy (h : LoopHead (.file true) running x y) (hd : x.1.Disciplined)
    (hs : x.2.2.executor.Sound) (hjobs : x.2.2.executor.jobs = []) : y.Tidy := by
  cases h with
  | goes => exact ⟨hd, hs, hjobs⟩
  | leaves _ _ => exact .finish hd hs (fun p hp => by rw [hjobs] at hp; cases hp) .returned

/-- A job that is awaited and over leaves nothing to do. -/
theorem jobs_of_finished {ex : Executor Job} (hs : ex.Sound) {n job : Nat} {ok : Bool}
    (hjobs : ∀ p ∈ ex.jobs, ∃ text, p = (job, .write n text)) (hdone : ex.finished job = some ok) :
    ex.jobs = [] := by
  refine List.eq_nil_iff_forall_not_mem.mpr fun p hp => ?_
  obtain ⟨text, rfl⟩ := hjobs p hp
  exact (hs.left job (by rw [hdone]; exact fun h => by cases h)).2 _ hp rfl

theorem jobs_cancel_subset {ex : Executor Job} {job : Nat} {p : Nat × Job}
    (h : p ∈ (ex.cancel job).jobs) : p ∈ ex.jobs := by
  rcases Executor.mem_jobs.mp h with h | h
  · exact Executor.mem_jobs.mpr (.inl h)
  · exact Executor.mem_jobs.mpr (.inr (List.mem_filter.mp h).1)

theorem ne_new_of_running {ex : Executor Job} {p : Nat × Job} (h : ex.running = some p) :
    ex.jobs ≠ [] := by
  intro hnil
  rw [(Executor.jobs_eq_nil.mp hnil).2] at h
  cases h

/-- The executor has something to do only for a worker that writes or closes. -/
theorem Cleanup.busy {x : Sink α} {ex : Executor Job} {pc : SinkPc α} (hc : Cleanup x ex pc)
    (hbusy : ex.jobs ≠ []) : (∃ n record job, pc = .writing n record job) ∨
      ∃ e job, pc = .closing e job := by
  cases pc with
  | created =>
    rw [hc.1] at hbusy
    exact absurd rfl hbusy
  | getting => exact absurd hc hbusy
  | writing n record job => exact .inl ⟨n, record, job, rfl⟩
  | closing e job => exact .inr ⟨e, job, rfl⟩
  | shutting e => exact absurd hc.1 hbusy
  | ended e => exact absurd (Executor.jobs_eq_nil.mpr hc.1.1) hbusy

theorem Tidy.begins (ht : x.Tidy) {ex : Executor Job} (h : x.2.2.executor.begin = some ex) :
    (x.setExecutor ex).Tidy := by
  obtain ⟨hd, hs, hc⟩ := ht
  obtain ⟨hjobs, hfinished⟩ := Executor.jobs_begin h
  refine ⟨hd, hs.begin h, ?_⟩
  show Cleanup x.1 ex x.2.2.pc
  have hbusy : x.2.2.executor.jobs ≠ [] := by
    obtain ⟨p, ps, hpending, -, -⟩ := Executor.begin_eq_some h
    intro hnil
    rw [(Executor.jobs_eq_nil.mp hnil).1] at hpending
    cases hpending
  rcases hc.busy hbusy with ⟨n, record, job, hpc⟩ | ⟨e, job, hpc⟩
  · rw [hpc] at hc ⊢
    show ∀ p ∈ ex.jobs, ∃ text, p = (job, .write n text)
    rw [hjobs]
    exact hc
  · rw [hpc] at hc ⊢
    show CloseDue x.1 ex job
    rw [CloseDue, hjobs, hfinished]
    exact hc

/-- A write ends; a close may still be due behind it. -/
theorem Tidy.writeEnds (ht : x.Tidy) {job n : Nat} {text : String} (fx : WriteFx)
    (h : x.2.2.executor.running = some (job, .write n text)) :
    (x.endJob job (writeEffect (.file true) fx n text)).Tidy := by
  obtain ⟨hd, hs, hc⟩ := ht
  refine ⟨hd.writeRecord fx n text, hs.finish h _, ?_⟩
  have hjobs := Executor.jobs_finish h (x.1.writeRecord fx n text).2
  rcases hc.busy (ne_new_of_running h) with ⟨n', record, job', hpc⟩ | ⟨e, job', hpc⟩
  · show Cleanup _ _ x.2.2.pc
    rw [hpc] at hc ⊢
    exact fun p hp => hc p (by rw [hjobs]; exact List.mem_cons_of_mem _ hp)
  · show Cleanup _ _ x.2.2.pc
    rw [hpc] at hc ⊢
    rcases hc with ⟨hdue, js, heq, hother⟩ | ⟨-, hnil, -⟩
    · -- the write is not the close, so something of `js` is over
      cases js with
      | nil =>
        rw [List.nil_append, hjobs] at heq
        cases heq
      | cons p js =>
        rw [hjobs, List.cons_append] at heq
        obtain ⟨rfl, htail⟩ := List.cons.inj heq
        refine .inl ⟨?_, js, htail, fun q hq => hother q (List.mem_cons_of_mem _ hq)⟩
        refine (Function.update_of_ne ?_ _ _).trans hdue
        rintro rfl
        have hclose : (job', Job.close) ∈ x.2.2.executor.jobs := by
          rw [hjobs, htail]
          exact List.mem_cons_of_mem _ (List.mem_append_right _ (List.mem_cons_self ..))
        have hwrite : (job', Job.write n text) ∈ x.2.2.executor.jobs := Executor.mem_jobs.mpr (.inl h)
        cases hs.unique hclose hwrite
    · exact absurd hnil (ne_new_of_running h)

/-- The close ends, and with it all that the executor had to do. -/
theorem Tidy.closeEnds (ht : x.Tidy) {job : Nat}
    (h : x.2.2.executor.running = some (job, .close)) :
    (x.endJob job (closeEffect (.file true) true)).Tidy := by
  obtain ⟨hd, hs, hc⟩ := ht
  obtain ⟨hd', hstream⟩ := hd.closeStream true
  refine ⟨hd', hs.finish h _, ?_⟩
  have hjobs := Executor.jobs_finish h (x.1.closeStream true).2
  show Cleanup _ _ x.2.2.pc
  rcases hc.busy (ne_new_of_running h) with ⟨n, record, job', hpc⟩ | ⟨e, job', hpc⟩
  · rw [hpc] at hc
    obtain ⟨text, heq⟩ := hc (job, .close) (Executor.mem_jobs.mpr (.inl h))
    cases heq
  · rw [hpc] at hc ⊢
    rcases hc with ⟨-, js, heq, hother⟩ | ⟨-, hnil, -⟩
    · cases js with
      | nil =>
        rw [List.nil_append, hjobs] at heq
        obtain ⟨hsame, htail⟩ := List.cons.inj heq
        obtain ⟨rfl, -⟩ := Prod.mk.inj hsame
        refine .inr ⟨(Function.update_self ..).trans ?_, htail, hstream⟩
        unfold closeEffect Sink.closeStream
        cases x.1.stream <;> rfl
      | cons p js =>
        rw [hjobs, List.cons_append] at heq
        refine absurd ?_ (hother p (List.mem_cons_self ..))
        rw [← (List.cons.inj heq).1]
    · exact absurd hnil (ne_new_of_running h)

/-- **A worker that is not disturbed** while it awaits the close of its stream keeps its
streams and its executor in order; where it has ended, all is closed and shut down. -/
theorem Tidy.step {a : SinkAct} (ht : x.Tidy) (hok : undisturbed a x.2.2.pc = true)
    (h : Segment (.file true) running a x y) : y.Tidy := by
  obtain ⟨hd, hs, hc⟩ := ht
  cases h with
  | start is pc _ on =>
    rw [pc] at hc
    exact on.tidy hd hs (by rw [hc.1]; rfl)
  | idles is pc _ on =>
    rw [pc] at hc
    exact on.tidy hd hs hc
  | skips is pc _ _ on =>
    rw [pc] at hc
    exact on.tidy hd hs hc
  | unrendered is pc _ _ on =>
    rw [pc] at hc
    exact on.tidy ⟨hd.closed, hd.last⟩ hs hc
  | @submits n record text l is pc _ =>
    rw [pc] at hc
    refine ⟨hd, hs.submit _, fun p hp => ?_⟩
    have hjobs : (x.2.2.executor.submit (.write n (text ++ "\n"))).jobs =
        [(x.2.2.executor.submitted, .write n (text ++ "\n"))] := by
      rw [Executor.jobs_submit, show x.2.2.executor.jobs = [] from hc]
      rfl
    exact ⟨text ++ "\n", List.mem_singleton.mp (hjobs ▸ hp)⟩
  | wrote is pc _ done _ on =>
    rw [pc] at hc
    exact on.tidy hd hs (jobs_of_finished hs hc done)
  | failed is pc _ done _ on =>
    rw [pc] at hc
    exact on.tidy ⟨hd.closed, hd.last⟩ hs (jobs_of_finished hs hc done)
  | closed is pc _ done =>
    rw [pc] at hc
    rcases hc with ⟨hnone, -⟩ | ⟨htrue, hjobs, hstream⟩
    · rw [hnone] at done
      cases done
    · rw [htrue] at done
      obtain rfl := Option.some.inj done
      exact ⟨hd, hs, hjobs, hstream⟩
  | shuts is pc down =>
    rw [pc] at hc
    exact ⟨hd, hs.shutdown down, (Executor.shutdown_eq_some down).2, hc.2⟩
  | unstarted is _ pc =>
    rw [pc] at hc
    refine ⟨hd, hs, ?_, hc.2⟩
    show x.2.2.executor.Down
    rw [hc.1]
    exact .new
  | interruptedGet is _ pc =>
    rw [pc] at hc
    refine .finish (x := x.resume) hd hs (fun p hp => ?_) .cancelled
    rw [show x.resume.2.2.executor.jobs = [] from hc] at hp
    cases hp
  | @interruptedWrite n record job l is _ pc _ =>
    rw [pc] at hc
    refine .finish (x := (x.1, l, (x.resume.setExecutor (x.2.2.executor.cancel job)).2.2)) hd
      (hs.cancel job) (fun p hp => ?_) .cancelled
    obtain ⟨text, rfl⟩ := hc p (jobs_cancel_subset hp)
    exact Job.noConfusion
  | interruptedClose is _ pc =>
    rw [is, pc] at hok
    cases hok
  | begins is begin => exact (Tidy.begins ⟨hd, hs, hc⟩ begin :)
  | writeEnds is job_eq => exact Tidy.writeEnds ⟨hd, hs, hc⟩ _ job_eq
  | closeEnds is job_eq =>
    rw [is] at hok
    obtain rfl : _ = true := hok
    exact Tidy.closeEnds ⟨hd, hs, hc⟩ job_eq

/-- A worker that has ended with its executor shut down does nothing any more. -/
theorem not_segment_of_down {kind : SinkKind} {a : SinkAct} {e : TaskEnd} (hpc : x.2.2.pc = .ended e)
    (hdown : x.2.2.executor.Down) : ¬ Segment kind running a x y := by
  obtain ⟨⟨hpending, hrunning⟩, -⟩ := hdown
  intro h
  cases h with
  | begins _ begin =>
    obtain ⟨p, ps, heq, -, -⟩ := Executor.begin_eq_some begin
    rw [hpending] at heq
    cases heq
  | writeEnds _ job_eq =>
    rw [hrunning] at job_eq
    cases job_eq
  | closeEnds _ job_eq =>
    rw [hrunning] at job_eq
    cases job_eq
  | start _ pc | idles _ pc | skips _ pc | unrendered _ pc | submits _ pc | wrote _ pc
  | failed _ pc | closed _ pc | shuts _ pc | unstarted _ _ pc | interruptedGet _ _ pc
  | interruptedWrite _ _ pc | interruptedClose _ _ pc =>
    rw [hpc] at pc
    cases pc

end SinkSide

end ScietexLogging
