import ScietexLogging.Sink.Cleanup

/-!
# Sink — the lines of a file

A file worker renders a record when it dequeues it and hands the text to its executor. What
the executor's thread writes is what was rendered, in the order of the queue, also where the
worker was cancelled in the meantime; and a record is acknowledged as written only if its
write has returned.

* `FileStep`        — what a segment has to do with the file;
* `Journal`         — the texts that are written and those on their way;
* `Journaled.step`  — one segment of the worker, or of its thread.
-/

namespace ScietexLogging

open Asyncio

/-- What a segment of a file worker has to do with its file. -/
inductive FileStep where
  | aside
  | writes (n : Nat) (text : String) (returned : Bool)
  | closes

variable {α : Type}

-- ---------------------------------------------------------------------------
-- The texts written, and those on their way
-- ---------------------------------------------------------------------------

/-- `output` are the texts written, and `jobs` those whose writes are not over. -/
structure Journal (format : α → Except String String) (l : Ledger α Outcome)
    (jobs output : List (Nat × String)) : Prop where
  order : (output ++ jobs).Pairwise (·.1 < ·.1)
  taken : ∀ p ∈ output ++ jobs, p.1 < l.taken
  rendered : ∀ p ∈ output ++ jobs, ∃ x text, l.log[p.1]? = some x ∧ format x = .ok text ∧
    p.2 = text ++ "\n"
  pending : ∀ p ∈ jobs, l.acks p.1 = [] ∨ l.acks p.1 = [.interrupted]
  written : ∀ p ∈ output, l.acks p.1 = [] ∨ l.acks p.1 = [.written] ∨ l.acks p.1 = [.interrupted]
  done : ∀ n, l.acks n = [.written] → ∃ text, (n, text) ∈ output

namespace Journal

variable {format : α → Except String String} {l l' : Ledger α Outcome}
  {jobs output : List (Nat × String)}

theorem new (maxsize : Nat) : Journal format (.new maxsize) [] [] where
  order := .nil
  taken := fun p hp => absurd hp List.not_mem_nil
  rendered := fun p hp => absurd hp List.not_mem_nil
  pending := fun p hp => absurd hp List.not_mem_nil
  written := fun p hp => absurd hp List.not_mem_nil
  done := fun n hn => absurd hn (by simp [Ledger.new])

/-- The queue may grow, and what follows may be taken. -/
theorem mono (hj : Journal format l jobs output)
    (hlog : ∀ (n : Nat) x, l.log[n]? = some x → l'.log[n]? = some x) (htaken : l.taken ≤ l'.taken)
    (hacks : l'.acks = l.acks) : Journal format l' jobs output := by
  refine ⟨hj.order, fun p hp => Nat.lt_of_lt_of_le (hj.taken p hp) htaken, fun p hp => ?_,
    by rw [hacks]; exact hj.pending, by rw [hacks]; exact hj.written, by rw [hacks]; exact hj.done⟩
  obtain ⟨x, text, hx, hformat, htext⟩ := hj.rendered p hp
  exact ⟨x, text, hlog p.1 x hx, hformat, htext⟩

/-- Writes that were taken back. -/
theorem drop {jobs' : List (Nat × String)} (hj : Journal format l jobs output) (h : jobs'.Sublist jobs) :
    Journal format l jobs' output := by
  have hsub : (output ++ jobs').Sublist (output ++ jobs) := h.append_left _
  exact ⟨hj.order.sublist hsub, fun p hp => hj.taken p (hsub.subset hp),
    fun p hp => hj.rendered p (hsub.subset hp), fun p hp => hj.pending p (h.subset hp), hj.written,
    hj.done⟩

/-- An entry is acknowledged: as written if its write has returned, and otherwise if there is
no write of it. -/
theorem ack (hj : Journal format l jobs output) {n : Nat} {f : Outcome} (h : l.ack n f = some l')
    (hnone : l.acks n = [])
    (hf : (f = .written ∧ ∃ text, (n, text) ∈ output) ∨ f = .interrupted ∨
      (f ≠ .written ∧ (∀ text, (n, text) ∉ output) ∧ ∀ text, (n, text) ∉ jobs)) :
    Journal format l' jobs output := by
  obtain ⟨-, hlog, htaken, hacks, -, -⟩ := Ledger.ack_eq_some h
  have hself : l'.acks n = [f] := by rw [hacks, Function.update_self, hnone, List.nil_append]
  have hother : ∀ m, m ≠ n → l'.acks m = l.acks m := fun m hm => by
    rw [hacks, Function.update_of_ne hm]
  refine ⟨hj.order, by rw [htaken]; exact hj.taken, by rw [hlog]; exact hj.rendered, fun p hp => ?_,
    fun p hp => ?_, fun m hm => ?_⟩
  · obtain ⟨m, text⟩ := p
    by_cases hmn : m = n
    · subst hmn
      rcases hf with ⟨-, text', hmem⟩ | rfl | ⟨-, -, hjobs⟩
      · exact absurd ((List.pairwise_append.mp hj.order).2.2 _ hmem _ hp) (Nat.lt_irrefl m)
      · exact .inr hself
      · exact absurd hp (hjobs text)
    · rw [hother m hmn]
      exact hj.pending _ hp
  · obtain ⟨m, text⟩ := p
    by_cases hmn : m = n
    · subst hmn
      rcases hf with ⟨rfl, -⟩ | rfl | ⟨-, hmem, -⟩
      · exact .inr (.inl hself)
      · exact .inr (.inr hself)
      · exact absurd hp (hmem text)
    · rw [hother m hmn]
      exact hj.written _ hp
  · by_cases hmn : m = n
    · subst hmn
      rw [hself] at hm
      rcases hf with ⟨-, hmem⟩ | rfl | ⟨hne, -, -⟩
      · exact hmem
      · cases hm
      · exact absurd (List.cons.inj hm).1 hne
    · exact hj.done m (by rw [← hother m hmn]; exact hm)

/-- The next entry is rendered, and its write submitted. -/
theorem submit (hj : Journal format l [] output) {n : Nat} {x : α} {text : String} (hn : n < l.taken)
    (hnew : ∀ p ∈ output, p.1 < n) (hx : l.log[n]? = some x) (hformat : format x = .ok text)
    (hacks : l.acks n = []) : Journal format l [(n, text ++ "\n")] output := by
  have hmem : ∀ p ∈ output ++ [(n, text ++ "\n")], p ∈ output ∨ p = (n, text ++ "\n") := by simp
  refine ⟨List.pairwise_append.mpr ⟨?_, List.pairwise_singleton _ _, fun p hp q hq => ?_⟩,
    fun p hp => ?_, fun p hp => ?_, fun p hp => ?_, hj.written, hj.done⟩
  · exact (List.pairwise_append.mp hj.order).1
  · rw [List.mem_singleton.mp hq]
    exact hnew p hp
  · rcases hmem p hp with hp | rfl
    · exact hj.taken p (List.mem_append_left _ hp)
    · exact hn
  · rcases hmem p hp with hp | rfl
    · exact hj.rendered p (List.mem_append_left _ hp)
    · exact ⟨x, text, hx, hformat, rfl⟩
  · rw [List.mem_singleton.mp hp]
    exact .inl hacks

/-- A write is over. -/
theorem write {n : Nat} {text : String} {rest : List (Nat × String)}
    (hj : Journal format l ((n, text) :: rest) output) (returned : Bool) :
    Journal format l rest (output ++ if returned then [(n, text)] else []) := by
  cases returned with
  | false =>
    rw [show output ++ (if false then [(n, text)] else []) = output from List.append_nil _]
    exact hj.drop (List.sublist_cons_self _ rest)
  | true =>
    have heq : (output ++ [(n, text)]) ++ rest = output ++ (n, text) :: rest :=
      (List.append_cons ..).symm
    refine ⟨?_, ?_, ?_, fun p hp => hj.pending p (List.mem_cons_of_mem _ hp), fun p hp => ?_,
      fun m hm => ?_⟩
    · show ((output ++ [(n, text)]) ++ rest).Pairwise _
      rw [heq]
      exact hj.order
    · show ∀ p ∈ (output ++ [(n, text)]) ++ rest, _
      rw [heq]
      exact hj.taken
    · show ∀ p ∈ (output ++ [(n, text)]) ++ rest, _
      rw [heq]
      exact hj.rendered
    · rcases List.mem_append.mp hp with hp | hp
      · exact hj.written p hp
      · obtain rfl := List.mem_singleton.mp hp
        rcases hj.pending _ List.mem_cons_self with h | h
        · exact .inl h
        · exact .inr (.inr h)
    · obtain ⟨s, hs⟩ := hj.done m hm
      exact ⟨s, List.mem_append_left _ hs⟩

end Journal

-- ---------------------------------------------------------------------------
-- One segment
-- ---------------------------------------------------------------------------

namespace SinkSide

variable {format : α → Except String String} {running : Bool} {a : SinkAct} {x y : SinkSide α}
  {output : List (Nat × String)}

def fileStep (a : SinkAct) (x : SinkSide α) : FileStep :=
  match a with
  | .writeEnds fx =>
    match x.2.2.executor.running with
    | some (_, .write n text) => .writes n text (writeEffect (.file true) fx n text x.1).2
    | _ => .aside
  | .closeEnds _ => .closes
  | _ => .aside

/-- The text of a record is what `format` makes of it. -/
def Renders (format : α → Except String String) (a : SinkAct) (l : Ledger α Outcome) : Prop :=
  ∀ text record, a = .get (.text text) → l.queue.items.head? = some record →
    format record = .ok text

/-- The journal of a worker; the job it awaits says whether its entry is written. -/
structure Journaled (format : α → Except String String) (x : SinkSide α) : Prop where
  journal : Journal format x.2.1 (Job.lines x.2.2.executor.jobs) x.1.output
  verdict : ∀ n record job ok, x.2.2.pc = .writing n record job →
    x.2.2.executor.finished job = some ok → (ok = true ↔ ∃ text, (n, text) ∈ x.1.output)

theorem lines_eq_nil {ex : Executor Job} (h : ex.jobs = []) : Job.lines ex.jobs = [] := by
  rw [h]
  rfl

theorem LoopHead.lines {z : SinkSide α} (h : LoopHead (.file true) running z y) :
    y.1 = z.1 ∧ y.2.1 = z.2.1 ∧ Job.lines y.2.2.executor.jobs = Job.lines z.2.2.executor.jobs ∧
      ∀ n record job, y.2.2.pc ≠ .writing n record job := by
  cases h with
  | goes => exact ⟨rfl, rfl, rfl, nofun⟩
  | leaves _ _ =>
    exact ⟨rfl, rfl, (Job.lines_submit z.2.2.executor .close).trans (List.append_nil _), nofun⟩

/-- What the worker does away from its file. -/
theorem Journaled.aside {z : SinkSide α}
    (hj : Journal format z.2.1 (Job.lines z.2.2.executor.jobs) z.1.output)
    (h : LoopHead (.file true) running z y) : y.Journaled format := by
  obtain ⟨hsink, hledger, hlines, hpc⟩ := h.lines
  refine ⟨?_, fun n record job ok h => absurd h (hpc n record job)⟩
  rw [hsink, hledger, hlines]
  exact hj

/-- Taking the next record changes nothing yet. -/
theorem Journal.take {l l' : Ledger α Outcome} {jobs : List (Nat × String)} {n : Nat} {record : α}
    (hj : Journal format l jobs output) (h : l.get = some ((n, record), l')) :
    Journal format l' jobs output := by
  obtain ⟨-, hlog, htaken, hacks, -, -⟩ := Ledger.get_eq_some h
  exact hj.mono (fun m z hz => by rw [hlog]; exact hz) (by omega) hacks

/-- The record just taken is given up. -/
theorem Journaled.givesUp {l l' : Ledger α Outcome} {t : SinkTask α} {z : Sink α} {n : Nat} {record : α}
    {f : Outcome} (hj : Journal format x.2.1 [] z.output) (hs : x.2.1.Sound)
    (hget : x.2.1.get = some ((n, record), l)) (hack : l.ack n f = some l') (hf : f ≠ .written)
    (hlines : Job.lines t.executor.jobs = []) (on : LoopHead (.file true) running (z, l', t) y) :
    y.Journaled format := by
  obtain ⟨-, -, hnone, -⟩ := hs.get hget
  obtain ⟨rfl, -⟩ := Ledger.get_eq_some hget
  refine Journaled.aside ?_ on
  show Journal format l' (Job.lines t.executor.jobs) z.output
  rw [hlines]
  refine (Journal.take hj hget).ack hack hnone
    (.inr (.inr ⟨hf, fun text hmem => ?_, fun _ => List.not_mem_nil⟩))
  exact Nat.lt_irrefl _ (hj.taken _ (List.mem_append_left _ hmem))

/-- **One segment** of a worker, or of its executor's thread. -/
theorem Journaled.step (hj : x.Journaled format) (ht : x.Tidy) (hs : x.2.1.Sound)
    (hh : x.2.1.Holds x.2.2.pc.hand) (hr : Renders format a x.2.1)
    (h : Segment (.file true) running a x y) : y.Journaled format := by
  obtain ⟨hjournal, hverdict⟩ := hj
  obtain ⟨-, hex, hc⟩ := ht
  cases h with
  | start is _ _ on | idles is _ _ on => exact .aside hjournal on
  | skips is pc hget hack on =>
    rw [pc] at hc
    have hnil := lines_eq_nil hc
    rw [hnil] at hjournal
    exact .givesUp (t := x.resume.2.2) hjournal hs hget hack nofun hnil on
  | @unrendered _ n record exc l l' is pc hget hack on =>
    rw [pc] at hc
    have hnil := lines_eq_nil hc
    rw [hnil] at hjournal
    exact .givesUp (t := x.resume.2.2) (z := (x.report record exc).1) hjournal hs hget hack nofun hnil on
  | @submits n record text l is pc hget =>
    rw [pc] at hc
    have hnil := lines_eq_nil hc
    rw [hnil] at hjournal
    obtain ⟨-, hlt, hnone, hrecord⟩ := hs.get hget
    obtain ⟨rfl, -, -, -, hitems, -⟩ := Ledger.get_eq_some hget
    refine ⟨?_, fun m z job ok hpc hdone => ?_⟩
    · have hlines : Job.lines (x.2.2.executor.submit (.write x.2.1.taken (text ++ "\n"))).jobs =
          [(x.2.1.taken, text ++ "\n")] := by
        rw [Job.lines_submit, hnil]
        rfl
      show Journal format l (Job.lines (x.2.2.executor.submit _).jobs) x.1.output
      rw [hlines]
      refine (Journal.take hjournal hget).submit hlt (fun p hp => ?_) hrecord ?_ hnone
      · exact hjournal.taken p (List.mem_append_left _ hp)
      · exact hr text record is (by rw [hitems]; rfl)
    · -- its write is not over
      obtain ⟨-, -, rfl⟩ := SinkPc.writing.inj hpc
      have hfresh : x.2.2.executor.finished x.2.2.executor.submitted = none := hex.fresh
      cases hfresh.symm.trans hdone
  | wrote is pc _ done hack on =>
    rw [pc] at hc hh
    have hnil := lines_eq_nil (jobs_of_finished hex hc done)
    rw [hnil] at hjournal
    refine Journaled.aside ?_ on
    show Journal format _ (Job.lines x.2.2.executor.jobs) x.1.output
    rw [hnil]
    exact hjournal.ack hack (hh _ rfl).2 (.inl ⟨rfl, (hverdict _ _ _ _ pc done).mp rfl⟩)
  | failed is pc _ done hack on =>
    rw [pc] at hc hh
    have hnil := lines_eq_nil (jobs_of_finished hex hc done)
    rw [hnil] at hjournal
    refine Journaled.aside ?_ on
    show Journal format _ (Job.lines x.2.2.executor.jobs) x.1.output
    rw [hnil]
    refine hjournal.ack hack (hh _ rfl).2
      (.inr (.inr ⟨nofun, fun text hmem => ?_, fun _ => List.not_mem_nil⟩))
    cases (hverdict _ _ _ _ pc done).mpr ⟨text, hmem⟩
  | closed is _ _ _ =>
    refine ⟨hjournal, fun n record job ok hpc => ?_⟩
    replace hpc : (if _ then _ else _) = SinkPc.writing n record job := hpc
    split at hpc <;> cases hpc
  | @shuts e ex is _ down =>
    refine ⟨hjournal.drop ?_, nofun⟩
    show (Job.lines ex.jobs).Sublist _
    rw [lines_eq_nil (Executor.jobs_eq_nil.mpr (Executor.shutdown_eq_some down).2.1)]
    exact List.nil_sublist _
  | unstarted is _ _ => exact ⟨hjournal, nofun⟩
  | interruptedGet is _ _ =>
    refine ⟨hjournal.drop ?_, nofun⟩
    show (Job.lines (x.2.2.executor.submit .close).jobs).Sublist _
    rw [Job.lines_submit]
    exact (List.append_nil _).symm ▸ List.Sublist.refl _
  | @interruptedWrite n record job l is _ pc hack =>
    rw [pc] at hh
    refine ⟨(hjournal.ack hack (hh n rfl).2 (.inr (.inl rfl))).drop ?_, nofun⟩
    show (Job.lines ((x.2.2.executor.cancel job).submit .close).jobs).Sublist _
    rw [Job.lines_submit]
    exact (List.append_nil _).symm ▸ Job.lines_cancel x.2.2.executor job
  | @interruptedClose e job is _ _ =>
    exact ⟨hjournal.drop (Job.lines_cancel x.2.2.executor job), nofun⟩
  | @begins ex is begin =>
    obtain ⟨hjobs, hfinished⟩ := Executor.jobs_begin begin
    refine ⟨?_, fun n record job ok hpc hdone => hverdict n record job ok hpc ?_⟩
    · show Journal format x.2.1 (Job.lines ex.jobs) x.1.output
      rw [hjobs]
      exact hjournal
    · rw [← hfinished]
      exact hdone
  | @writeEnds job n text fx is job_eq =>
    have houtput := (writeEffect_spec (.file true) fx n text x.1).2
    rw [Job.lines_finish job_eq (writeEffect (.file true) fx n text x.1).2] at hjournal
    have hnew : ∀ s, (n, s) ∉ x.1.output := fun s hmem =>
      Nat.lt_irrefl n ((List.pairwise_append.mp hjournal.order).2.2 _ hmem _ List.mem_cons_self)
    refine ⟨?_, fun m record job' ok hpc hdone => ?_⟩
    · show Journal format x.2.1 _ (writeEffect (.file true) fx n text x.1).1.output
      rw [houtput]
      exact hjournal.write _
    · replace hpc : x.2.2.pc = .writing m record job' := hpc
      rw [hpc] at hc
      -- the job that has ended is the one the worker awaits
      have hawaited : ∃ s, (job, Job.write n text) = (job', .write m s) :=
        hc _ (Executor.mem_jobs.mpr (.inl job_eq))
      obtain ⟨s, heq⟩ := hawaited
      obtain ⟨rfl, hnm⟩ := Prod.mk.inj heq
      obtain ⟨rfl, rfl⟩ := Job.write.inj hnm
      replace hdone : Function.update x.2.2.executor.finished job _ job = some ok := hdone
      rw [Function.update_self] at hdone
      obtain rfl := Option.some.inj hdone
      show _ ↔ ∃ s, (n, s) ∈ (writeEffect (.file true) fx n text x.1).1.output
      rw [houtput]
      split
      · rename_i hok
        exact iff_of_true hok ⟨text, List.mem_append_right _ List.mem_cons_self⟩
      · rename_i hok
        refine iff_of_false hok fun ⟨s, hs⟩ => hnew s ?_
        exact (List.mem_append.mp hs).resolve_right List.not_mem_nil
  | @closeEnds job ok is job_eq =>
    have houtput := (closeEffect_spec (.file true) ok x.1).2
    have hlines := Job.lines_finish job_eq (closeEffect (.file true) ok x.1).2
    refine ⟨?_, fun m record job' ok' hpc _ => ?_⟩
    · show Journal format x.2.1 _ (closeEffect (.file true) ok x.1).1.output
      rw [houtput]
      rw [hlines] at hjournal
      exact hjournal
    · replace hpc : x.2.2.pc = .writing m record job' := hpc
      rw [hpc] at hc
      have hawaited : ∃ s, (job, Job.close) = (job', .write m s) :=
        hc _ (Executor.mem_jobs.mpr (.inl job_eq))
      obtain ⟨s, heq⟩ := hawaited
      cases (Prod.mk.inj heq).2

/-- A segment writes what it has to do with the file. -/
theorem output_segment (h : Segment (.file true) running a x y) :
    y.1.output = x.1.output ++ match fileStep a x with
      | .writes n text true => [(n, text)]
      | _ => [] := by
  have hrests : ∀ {z : SinkSide α}, LoopHead (.file true) running z y → z.1.output = x.1.output →
      y.1.output = x.1.output ++ [] := fun on hz => by rw [on.lines.1, hz, List.append_nil]
  cases h with
  | writeEnds is job_eq =>
    subst is
    simp only [fileStep, job_eq]
    rw [show (x.endJob _ _).1.output = _ from (writeEffect_spec (.file true) _ _ _ x.1).2]
    split
    · rename_i hok
      rw [hok]
    · rename_i hok
      rw [Bool.eq_false_of_not_eq_true hok]
  | closeEnds is job_eq =>
    subst is
    exact (closeEffect_spec (.file true) _ x.1).2.trans (List.append_nil _).symm
  | start is _ _ on | idles is _ _ on | skips is _ _ _ on | unrendered is _ _ _ on | wrote is _ _ _ _ on
  | failed is _ _ _ _ on =>
    subst is
    exact hrests on rfl
  | submits is _ _ | closed is _ _ _ | shuts is _ _ | unstarted is _ _ | interruptedGet is _ _
  | interruptedWrite is _ _ _ | interruptedClose is _ _ | begins is _ =>
    subst is
    exact (List.append_nil _).symm

end SinkSide

end ScietexLogging
