import ScietexLogging.Pipeline.Fanout

/-!
# Pipeline — a completed drain means everything was processed

A drain is `COMPLETED` when the unfinished count of its queue was seen at zero.
The count says how many entries are not acknowledged, so what is left to show is
when a worker acknowledges: after the sink's write, after `send_message`, or after
it reported the failure — and, when a teardown cancels it, with a record in its
hand. That last case never concerns a record of a cycle still being served.

Main result: `completed_processed`.
-/

namespace ScietexLogging

open Asyncio

variable {k : Nat}

-- ---------------------------------------------------------------------------
-- What a worker has done when it acknowledges
-- ---------------------------------------------------------------------------

namespace SinkSide

variable {α : Type} {kind : SinkKind} {running : Bool} {a : SinkAct} {x y : SinkSide α}

/-- The record in hand is that of the entry taken; its write is not over, or the job says how
it ended. -/
structure Writing (s : Sink α) (l : Ledger α Outcome) (t : SinkTask α) : Prop where
  jobs : t.executor.Sound
  record : ∀ n r job, t.pc = .writing n r job → l.log[n]? = some r
  verdict : ∀ n r job, t.pc = .writing n r job →
    (∃ text, (job, .write n text) ∈ t.executor.jobs) ∨
      ∃ ok, t.executor.finished job = some ok ∧ (ok = true → ∃ text, (n, text) ∈ s.output)

theorem Writing.of_hand {s : Sink α} {l : Ledger α Outcome} {t : SinkTask α} (hs : t.executor.Sound)
    (h : t.pc.hand = none) : Writing s l t := by
  refine ⟨hs, fun n r job hpc => ?_, fun n r job hpc => ?_⟩
  · rw [hpc] at h
    cases h
  · rw [hpc] at h
    cases h

/-- The write in hand is over, and has returned. -/
theorem Writing.wrote {s : Sink α} {l : Ledger α Outcome} {t : SinkTask α} (hw : Writing s l t) {n job : Nat}
    {r : α} (hpc : t.pc = .writing n r job) (hdone : t.executor.finished job = some true) :
    ∃ text, (n, text) ∈ s.output := by
  rcases hw.verdict n r job hpc with ⟨text, hjob⟩ | ⟨ok, hdone', hwrote⟩
  · exact absurd rfl ((hw.jobs.left job (by rw [hdone]; simp)).2 _ hjob)
  · obtain rfl := Option.some.inj (hdone.symm.trans hdone')
    exact hwrote rfl

theorem Writing.begin {s : Sink α} {l : Ledger α Outcome} {t : SinkTask α} (hw : Writing s l t)
    {ex : Executor Job} (h : t.executor.begin = some ex) : Writing s l { t with executor := ex } := by
  obtain ⟨hjobs, hfinished⟩ := Executor.jobs_begin h
  refine ⟨hw.jobs.begin h, hw.record, fun n r job hpc => ?_⟩
  show (∃ text, (job, Job.write n text) ∈ ex.jobs) ∨ ∃ ok, ex.finished job = some ok ∧ _
  rw [hjobs, hfinished]
  exact hw.verdict n r job hpc

/-- A job on the thread is over; if it is a write that returned, its text is written. -/
theorem Writing.finish {s s' : Sink α} {l : Ledger α Outcome} {t : SinkTask α} (hw : Writing s l t)
    {job : Nat} {j : Job} (h : t.executor.running = some (job, j)) {ok : Bool}
    (houtput : s'.output = s.output ++ if ok then j.line?.toList else []) :
    Writing s' l { t with executor := t.executor.finish job ok } := by
  have hkept : ∀ {n : Nat}, (∃ text, (n, text) ∈ s.output) → ∃ text, (n, text) ∈ s'.output := by
    rintro n ⟨text, htext⟩
    exact ⟨text, houtput ▸ List.mem_append_left _ htext⟩
  refine ⟨hw.jobs.finish h ok, hw.record, fun n r job' hpc => ?_⟩
  show (∃ text, (job', Job.write n text) ∈ (t.executor.finish job ok).jobs) ∨
    ∃ ok', (t.executor.finish job ok).finished job' = some ok' ∧ _
  by_cases hj : job' = job
  · -- the job awaited is the one that is over
    subst hj
    have hmem : (job', j) ∈ t.executor.jobs := Executor.mem_jobs.mpr (.inl h)
    rcases hw.verdict n r job' hpc with ⟨text, htext⟩ | ⟨ok', hdone, -⟩
    · obtain rfl := hw.jobs.unique hmem htext
      refine .inr ⟨ok, Function.update_self _ _ _, fun hok => ⟨text, ?_⟩⟩
      rw [houtput, if_pos hok]
      exact List.mem_append_right _ (List.mem_singleton_self _)
    · exact absurd rfl ((hw.jobs.left job' (by rw [hdone]; simp)).2 _ hmem)
  · rw [show (t.executor.finish job ok).finished job' = t.executor.finished job' from
      Function.update_of_ne hj _ _]
    refine (hw.verdict n r job' hpc).imp (fun ⟨text, htext⟩ => ⟨text, ?_⟩)
      fun ⟨ok', hdone, hwrote⟩ => ⟨ok', hdone, fun hok => hkept (hwrote hok)⟩
    rw [Executor.jobs_finish h ok] at htext
    exact (List.mem_cons.mp htext).resolve_left fun heq => hj (Prod.mk.inj heq).1

/-- How entry `p`, of record `r`, was dealt with: its text is written, or the error channel
was told. -/
def Handles (s : Sink α) (p : Nat) (r : α) (f : Outcome) : Prop :=
  (f = .written ∧ ∃ text, (p, text) ∈ s.output) ∨ (f = .failed ∧ ∃ exc, (r, exc) ∈ s.reports)

/-- What a segment leaves: what was written and reported so far, the entry in hand, and for
each entry it acknowledges what it has done with it. -/
structure Told (x y : SinkSide α) : Prop where
  reports : ∀ z ∈ x.1.reports, z ∈ y.1.reports
  output : ∀ z ∈ x.1.output, z ∈ y.1.output
  writing : Writing y.1 y.2.1 y.2.2
  acked : ∀ p f, f ∈ y.2.1.acks p → f ∈ x.2.1.acks p ∨ f = .skipped ∨ f = .interrupted ∨
    ∃ r, y.2.1.log[p]? = some r ∧ Handles y.1 p r f

/-- Segments that leave queue and sink alone, with nothing in hand. -/
private theorem Told.rests (hsink : y.1 = x.1) (hledger : y.2.1 = x.2.1) (hhand : y.2.2.pc.hand = none)
    (hs : y.2.2.executor.Sound) : Told x y :=
  ⟨fun _ hz => hsink ▸ hz, fun _ hz => hsink ▸ hz, .of_hand hs hhand, fun _ _ hf => .inl (hledger ▸ hf)⟩

/-- Segments that acknowledge an entry, with what they report. -/
private theorem Told.acks {n : Nat} {f : Outcome} {l : Ledger α Outcome} {es : List (α × String)}
    (hlog : l.log = x.2.1.log) (hacks : l.acks = x.2.1.acks) (hack : l.ack n f = some y.2.1)
    (hreports : y.1.reports = x.1.reports ++ es) (houtput : y.1.output = x.1.output)
    (hhand : y.2.2.pc.hand = none) (hs : y.2.2.executor.Sound)
    (hhandles : f = .skipped ∨ f = .interrupted ∨ ∃ r, x.2.1.log[n]? = some r ∧ Handles y.1 n r f) :
    Told x y := by
  refine ⟨fun z hz => ?_, fun z hz => houtput ▸ hz, .of_hand hs hhand, fun p g hg => ?_⟩
  · rw [hreports]
    exact List.mem_append_left es hz
  · rcases Ledger.mem_acks_of_ack hack hg with hold | ⟨rfl, rfl⟩
    · exact .inl (hacks ▸ hold)
    · rw [(Ledger.ack_eq_some hack).2.1, hlog]
      exact .inr hhandles

private theorem finish_rests (kind : SinkKind) (x : SinkSide α) (e : TaskEnd)
    (hs : x.2.2.executor.Sound) : (x.finish kind e).1 = x.1 ∧ (x.finish kind e).2.1 = x.2.1 ∧
      (x.finish kind e).2.2.pc.hand = none ∧ (x.finish kind e).2.2.executor.Sound := by
  cases kind with
  | console => exact ⟨rfl, rfl, rfl, hs⟩
  | file _ => exact ⟨rfl, rfl, rfl, hs.submit .close⟩

private theorem LoopHead.rests (h : LoopHead kind running x y) (hs : x.2.2.executor.Sound) :
    y.1 = x.1 ∧ y.2.1 = x.2.1 ∧ y.2.2.pc.hand = none ∧ y.2.2.executor.Sound := by
  cases h with
  | goes => exact ⟨rfl, rfl, rfl, hs⟩
  | leaves _ _ => exact finish_rests kind x .returned hs

theorem step_told (hs : x.2.1.Sound) (hh : x.2.1.Holds x.2.2.pc.hand) (hw : Writing x.1 x.2.1 x.2.2)
    (h : step kind running a x = some y) : Told x y := by
  cases step_segment hs hh h with
  | start _ _ _ on | idles _ _ _ on =>
    obtain ⟨hsink, hledger, hhand, hjobs⟩ := on.rests hw.jobs
    exact .rests hsink hledger hhand hjobs
  | @skips _ n record l l' _ _ get ack on =>
    obtain ⟨hsink, hledger, hhand, hjobs⟩ := on.rests hw.jobs
    obtain ⟨-, hlog, -, hacks, -, -⟩ := Ledger.get_eq_some get
    exact .acks hlog hacks (by rw [hledger]; exact ack)
      (by rw [hsink]; exact (List.append_nil _).symm) (by rw [hsink]) hhand hjobs (.inl rfl)
  | @unrendered _ n record exc l l' _ _ get ack on =>
    obtain ⟨hsink, hledger, hhand, hjobs⟩ := on.rests hw.jobs
    obtain ⟨-, hlog, -, hacks, -, -⟩ := Ledger.get_eq_some get
    have htold : y.1.reports = x.1.reports ++ [(record, exc)] := by rw [hsink]; rfl
    refine .acks hlog hacks (by rw [hledger]; exact ack) htold (by rw [hsink]; rfl) hhand hjobs
      (.inr (.inr ⟨record, ?_, .inr ⟨rfl, exc, ?_⟩⟩))
    · rw [← hlog]
      exact (hs.get get).2.2.2
    · rw [hsink]
      exact List.mem_append_right _ (List.mem_singleton_self _)
  | @submits n record text l _ _ get =>
    obtain ⟨-, -, -, hacks, -, -⟩ := Ledger.get_eq_some get
    refine ⟨fun z hz => hz, fun z hz => hz, ⟨hw.jobs.submit _, fun m r job hpc => ?_,
      fun m r job hpc => ?_⟩, fun p f hf => .inl (hacks ▸ hf)⟩
    · obtain ⟨rfl, rfl, -⟩ := SinkPc.writing.inj hpc
      exact (hs.get get).2.2.2
    · obtain ⟨rfl, -, rfl⟩ := SinkPc.writing.inj hpc
      refine .inl ⟨text ++ "\n", ?_⟩
      show _ ∈ (x.2.2.executor.submit _).jobs
      rw [Executor.jobs_submit]
      exact List.mem_append_right _ (List.mem_singleton_self _)
  | @wrote _ n record job exc l _ pc _ done ack on =>
    obtain ⟨hsink, hledger, hhand, hjobs⟩ := on.rests hw.jobs
    refine .acks rfl rfl (by rw [hledger]; exact ack) (by rw [hsink]; exact (List.append_nil _).symm)
      (by rw [hsink]) hhand hjobs (.inr (.inr ⟨record, hw.record n record job pc, .inl ⟨rfl, ?_⟩⟩))
    rw [hsink]
    exact hw.wrote pc done
  | @failed _ n record job exc _ _ pc _ _ ack on =>
    obtain ⟨hsink, hledger, hhand, hjobs⟩ := on.rests hw.jobs
    have htold : y.1.reports = x.1.reports ++ [(record, exc)] := by rw [hsink]; rfl
    refine .acks rfl rfl (by rw [hledger]; exact ack) htold (by rw [hsink]; rfl) hhand hjobs
      (.inr (.inr ⟨record, hw.record n record job pc, .inr ⟨rfl, exc, ?_⟩⟩))
    rw [hsink]
    exact List.mem_append_right _ (List.mem_singleton_self _)
  | closed _ _ _ _ =>
    refine .rests rfl rfl ?_ hw.jobs
    show (if _ then SinkPc.shutting _ else SinkPc.ended _).hand = none
    split
    · rfl
    · rfl
  | shuts _ _ down => exact .rests rfl rfl rfl (hw.jobs.shutdown down)
  | unstarted _ _ _ => exact .rests rfl rfl rfl hw.jobs
  | interruptedClose _ _ _ => exact .rests rfl rfl rfl (hw.jobs.cancel _)
  | interruptedGet _ _ _ =>
    obtain ⟨hsink, hledger, hhand, hjobs⟩ := finish_rests kind x.resume .cancelled hw.jobs
    exact .rests hsink hledger hhand hjobs
  | @interruptedWrite n record job l _ _ _ ack =>
    obtain ⟨hsink, hledger, hhand, hjobs⟩ := finish_rests kind
      (x.1, l, (x.resume.setExecutor (x.2.2.executor.cancel job)).2.2) .cancelled (hw.jobs.cancel job)
    exact .acks rfl rfl (by rw [hledger]; exact ack) (by rw [hsink]; exact (List.append_nil _).symm)
      (by rw [hsink]) hhand hjobs (.inr (.inl rfl))
  | begins _ begin => exact ⟨fun z hz => hz, fun z hz => hz, hw.begin begin, fun p f hf => .inl hf⟩
  | @writeEnds job n text fx _ job_eq =>
    obtain ⟨hreports, houtput⟩ := writeEffect_spec kind fx n text x.1
    refine ⟨fun z hz => ?_, fun z hz => ?_, hw.finish job_eq houtput, fun p f hf => .inl hf⟩
    · rw [show (x.endJob _ _).1.reports = x.1.reports from hreports]
      exact hz
    · rw [show (x.endJob _ _).1.output = _ from houtput]
      exact List.mem_append_left _ hz
  | @closeEnds job ok _ job_eq =>
    obtain ⟨hreports, houtput⟩ := closeEffect_spec kind ok x.1
    refine ⟨fun z hz => ?_, fun z hz => ?_, hw.finish job_eq ?_, fun p f hf => .inl hf⟩
    · rw [show (x.endJob _ _).1.reports = x.1.reports from hreports]
      exact hz
    · rw [show (x.endJob _ _).1.output = x.1.output from houtput]
      exact hz
    · rw [show (x.endJob job (closeEffect kind ok)).1.output = x.1.output from houtput]
      split
      · exact (List.append_nil _).symm
      · exact (List.append_nil _).symm

end SinkSide

namespace BrokerSide

variable {α : Type} {ownsClient running : Bool} {entry : α → Except String LogEntry} {a : BrokerAct}
  {x y : BrokerSide α}

/-- The record in hand is that of the entry taken, for which `send_message` was called; a send
that failed has been reported. -/
structure Sending (entry : α → Except String LogEntry) (x : BrokerSide α) : Prop where
  sending : ∀ n r, x.2.2.pc = .sending n r →
    x.2.1.log[n]? = some r ∧ ∃ e, entry r = .ok e ∧ (n, e) ∈ x.1.calls
  disconnecting : ∀ n r, x.2.2.pc = .disconnecting n r →
    x.2.1.log[n]? = some r ∧ ∃ exc, (some (n, r), exc) ∈ x.1.reports

/-- How entry `p`, of record `r`, was dealt with: `send_message` was called for it, or the
error channel was told. -/
def Handles (entry : α → Except String LogEntry) (s : Broker α) (p : Nat) (r : α) (f : Outcome) : Prop :=
  (f = .sent ∧ ∃ e, entry r = .ok e ∧ (p, e) ∈ s.calls) ∨
    (f = .failed ∧ ∃ exc, (some (p, r), exc) ∈ s.reports)

/-- What a segment leaves: the calls and reports so far, the entry in hand, and for each entry
it acknowledges what it has done with it. -/
structure Told (entry : α → Except String LogEntry) (x y : BrokerSide α) : Prop where
  reports : ∀ z ∈ x.1.reports, z ∈ y.1.reports
  calls : ∀ z ∈ x.1.calls, z ∈ y.1.calls
  sending : y.Sending entry
  acked : ∀ p f, f ∈ y.2.1.acks p → f ∈ x.2.1.acks p ∨ f = .interrupted ∨
    ∃ r, y.2.1.log[p]? = some r ∧ Handles entry y.1 p r f

private theorem Sending.of_hand (h : x.2.2.pc.hand = none) : x.Sending entry := by
  refine ⟨fun n r hpc => ?_, fun n r hpc => ?_⟩
  · rw [hpc] at h
    exact absurd h (by simp [BrokerPc.hand])
  · rw [hpc] at h
    exact absurd h (by simp [BrokerPc.hand])

theorem step_told (hs : x.2.1.Sound) (hh : x.2.1.Holds x.2.2.pc.hand) (hr : x.Sending entry)
    (h : step ownsClient running entry a x = some y) : Told entry x y := by
  cases step_effect hs hh h with
  | quiet _ hand' ledger reports _ calls =>
    obtain ⟨es, hes, -⟩ := reports
    refine ⟨fun z hz => ?_, fun z hz => calls ▸ hz, .of_hand hand', fun p f hf => .inl (ledger ▸ hf)⟩
    rw [hes]
    exact List.mem_append_left es hz
  | @take n r _ get _ pc reports calls =>
    obtain ⟨-, -, -, hacks, -, -⟩ := Ledger.get_eq_some get
    obtain ⟨e, he, hcalls⟩ := calls
    refine ⟨fun z hz => reports ▸ hz, fun z hz => ?_, ⟨fun m r' hpc => ?_, fun m r' hpc => ?_⟩,
      fun p f hf => .inl (hacks ▸ hf)⟩
    · rw [hcalls]
      exact List.mem_append_left _ hz
    · obtain ⟨rfl, rfl⟩ := BrokerPc.sending.inj (pc.symm.trans hpc)
      refine ⟨(hs.get get).2.2.2, e, he, ?_⟩
      rw [hcalls]
      exact List.mem_append_right _ (List.mem_singleton_self _)
    · exact absurd (pc.symm.trans hpc) (by simp)
  | spoil _ _ get _ leaving reports calls =>
    obtain ⟨-, -, -, hacks, -, -⟩ := Ledger.get_eq_some get
    have hhand : y.2.2.pc.hand = none := by rcases leaving with h | h <;> rw [h] <;> rfl
    exact ⟨fun z hz => reports ▸ hz, fun z hz => calls ▸ hz, .of_hand hhand,
      fun p f hf => .inl (hacks ▸ hf)⟩
  | @retire n r exc sending pc ledger reports calls =>
    refine ⟨fun z hz => ?_, fun z hz => calls ▸ hz, ⟨fun m r' hpc => ?_, fun m r' hpc => ?_⟩,
      fun p f hf => .inl (ledger ▸ hf)⟩
    · rw [reports]
      exact List.mem_append_left _ hz
    · exact absurd (pc.symm.trans hpc) (by simp)
    · obtain ⟨rfl, rfl⟩ := BrokerPc.disconnecting.inj (pc.symm.trans hpc)
      rw [ledger, reports]
      exact ⟨(hr.sending n r sending).1, exc, by simp⟩
  | @ack n r f hand' ack outcome _ calls =>
    have hkept : ∀ z ∈ x.1.reports, z ∈ y.1.reports := by
      intro z hz
      rcases outcome with ⟨-, -, heq⟩ | ⟨-, -, exc, heq⟩ | ⟨-, -, heq⟩
      · rwa [heq]
      · rw [heq]
        exact List.mem_append_left _ hz
      · rwa [heq]
    refine ⟨hkept, fun z hz => calls ▸ hz, .of_hand hand', fun p g hg => ?_⟩
    rcases Ledger.mem_acks_of_ack ack hg with hold | ⟨rfl, rfl⟩
    · exact .inl hold
    · rw [(Ledger.ack_eq_some ack).2.1]
      rcases outcome with ⟨hpc, hf, heq⟩ | ⟨hpc, hf, exc, heq⟩ | ⟨hpc, hf | hf, -⟩
      · obtain ⟨hlog, exc, hexc⟩ := hr.disconnecting p r hpc
        exact .inr (.inr ⟨r, hlog, .inr ⟨hf, exc, hkept _ hexc⟩⟩)
      · exact .inr (.inr ⟨r, (hr.sending p r hpc).1, .inr ⟨hf, exc, by rw [heq]; simp⟩⟩)
      · obtain ⟨hlog, e, he, hcall⟩ := hr.sending p r hpc
        exact .inr (.inr ⟨r, hlog, .inl ⟨hf, e, he, calls ▸ hcall⟩⟩)
      · exact .inr (.inl hf.1)

end BrokerSide

namespace BackendKind

/-- How entry `p`, of item `x`, was dealt with: its text is written, `send_message` was called
for it, or the error channel of the backend was told. -/
def Handles : (b : BackendKind) → b.program.Shared → Nat → Item → Outcome → Prop
  | .sink _, (s : Sink Item), p, x, f => SinkSide.Handles s p x f
  | .broker _, (s : Broker Item), p, x, f => BrokerSide.Handles (fun x => logEntry x.record) s p x f

/-- The record in the worker's hand is that of the entry it took, with what has been done
with it. -/
def InHand : (b : BackendKind) → b.program.Shared → Ledger Item Outcome → b.program.Task → Prop
  | .sink _, (s : Sink Item), l, (t : SinkTask Item) => SinkSide.Writing s l t
  | .broker _, (s : Broker Item), l, (t : BrokerTask Item) =>
    BrokerSide.Sending (fun x => logEntry x.record) (s, l, t)

/-- All that was written, sent and reported still is. -/
def Keeps : (b : BackendKind) → b.program.Shared → b.program.Shared → Prop
  | .sink _, (s : Sink Item), (s' : Sink Item) =>
    (∀ z ∈ s.reports, z ∈ s'.reports) ∧ ∀ z ∈ s.output, z ∈ s'.output
  | .broker _, (s : Broker Item), (s' : Broker Item) =>
    (∀ z ∈ s.reports, z ∈ s'.reports) ∧ ∀ z ∈ s.calls, z ∈ s'.calls

/-- A step of the worker was taken without a formatter. -/
def unformatted : (b : BackendKind) → b.program.Act → Bool
  | .sink _, (a : SinkAct) =>
    match a with
    | .get .unset => true
    | _ => false
  | .broker _, _ => false

variable {b : BackendKind}

theorem Keeps.refl (s : b.program.Shared) : b.Keeps s s := by
  cases b with
  | sink _ => exact ⟨fun _ h => h, fun _ h => h⟩
  | broker _ => exact ⟨fun _ h => h, fun _ h => h⟩

theorem Handles.keep {s s' : b.program.Shared} (hk : b.Keeps s s') {p : Nat} {x : Item} {f : Outcome}
    (h : b.Handles s p x f) : b.Handles s' p x f := by
  cases b with
  | sink _ =>
    exact Or.imp (fun ⟨hf, text, htext⟩ => ⟨hf, text, hk.2 _ htext⟩)
      (fun ⟨hf, exc, hexc⟩ => ⟨hf, exc, hk.1 _ hexc⟩) h
  | broker _ =>
    exact Or.imp (fun ⟨hf, e, he, hcall⟩ => ⟨hf, e, he, hk.2 _ hcall⟩)
      (fun ⟨hf, exc, hexc⟩ => ⟨hf, exc, hk.1 _ hexc⟩) h

theorem inHand_create (s : b.program.Shared) (l : Ledger Item Outcome) :
    b.InHand s l b.program.create := by
  cases b with
  | sink _ => exact ⟨.new, fun _ _ _ => nofun, fun _ _ _ => nofun⟩
  | broker _ => exact ⟨fun _ _ => nofun, fun _ _ => nofun⟩

theorem inHand_cancel {s : b.program.Shared} {l : Ledger Item Outcome} {t : b.program.Task}
    (h : b.InHand s l t) : b.InHand s l (b.program.cancel t) := by
  cases b with
  | sink _ => exact ⟨h.jobs, h.record, h.verdict⟩
  | broker _ => exact ⟨h.sending, h.disconnecting⟩

/-- More entries, and more that was done, do not matter to the record in hand. -/
theorem inHand_mono {s s' : b.program.Shared} {l l' : Ledger Item Outcome} {t : b.program.Task}
    (h : b.InHand s l t) (hlog : ∀ {n : Nat} {r : Item}, l.log[n]? = some r → l'.log[n]? = some r)
    (hk : b.Keeps s s') : b.InHand s' l' t := by
  cases b with
  | sink _ =>
    exact ⟨h.jobs, fun n r job hpc => hlog (h.record n r job hpc), fun n r job hpc =>
      (h.verdict n r job hpc).imp_right fun ⟨ok, hdone, hwrote⟩ =>
        ⟨ok, hdone, fun hok => (hwrote hok).imp fun _ htext => hk.2 _ htext⟩⟩
  | broker _ =>
    refine ⟨fun n r hpc => ?_, fun n r hpc => ?_⟩
    · obtain ⟨hr, e, he, hcall⟩ := h.sending n r hpc
      exact ⟨hlog hr, e, he, hk.2 _ hcall⟩
    · obtain ⟨hr, exc, hexc⟩ := h.disconnecting n r hpc
      exact ⟨hlog hr, exc, hk.1 _ hexc⟩

/-- What a segment of the worker of a backend has done when it acknowledges. -/
theorem step_told {running : Bool} {a : b.program.Act}
    {x y : b.program.Shared × Ledger Item Outcome × b.program.Task} (hs : x.2.1.Sound)
    (hh : x.2.1.Holds (b.program.hand x.2.2)) (hin : b.InHand x.1 x.2.1 x.2.2)
    (h : b.program.step running a x = some y) :
    b.Keeps x.1 y.1 ∧ b.InHand y.1 y.2.1 y.2.2 ∧
      ∀ p f, f ∈ y.2.1.acks p → f ∈ x.2.1.acks p ∨ f = .skipped ∨ f = .interrupted ∨
        ∃ z, y.2.1.log[p]? = some z ∧ b.Handles y.1 p z f := by
  cases b with
  | sink kind =>
    have ht := SinkSide.step_told hs hh hin h
    exact ⟨⟨ht.reports, ht.output⟩, ht.writing, ht.acked⟩
  | broker owns =>
    have ht := BrokerSide.step_told hs hh hin h
    exact ⟨⟨ht.reports, ht.calls⟩, ht.sending, fun p f hf => (ht.acked p f hf).imp_right .inr⟩

/-- With a formatter, a worker acknowledges what it has handled, or what it held
when it was cancelled. -/
theorem outcome_cases {a : b.program.Act} {t : b.program.Task} {n : Nat} {f : Outcome}
    (h : b.program.outcome a t n f) (ha : b.unformatted a = false) :
    f = .written ∨ f = .sent ∨ f = .failed ∨
      (f = .interrupted ∧ b.program.cancelRequested t = true ∧ b.program.hand t = some n) := by
  cases b with
  | sink kind =>
    rcases h with h | h | ⟨-, h⟩ | h
    · exact .inl h
    · exact .inr (.inr (.inl h))
    · subst h
      exact absurd ha (by simp [unformatted])
    · exact .inr (.inr (.inr h))
  | broker owns =>
    rcases h with h | h | h
    · exact .inr (.inl h)
    · exact .inr (.inr (.inl h))
    · exact .inr (.inr (.inr h))

end BackendKind

-- ---------------------------------------------------------------------------
-- What a backend has done, and what it served since the last start
-- ---------------------------------------------------------------------------

namespace Desk

variable {b : BackendKind} {d d' : Desk b.program}

/-- What is acknowledged as written, sent or failed was dealt with accordingly. -/
structure Accounted (d : Desk b.program) : Prop where
  handled : ∀ p f, f ∈ d.ledger.acks p → f = .written ∨ f = .sent ∨ f = .failed →
    ∃ x, d.ledger.log[p]? = some x ∧ b.Handles d.shared p x f
  inHand : ∀ c t, d.tasks c = some t → b.InHand d.shared d.ledger t

theorem Accounted.grow (ha : d.Accounted) (h : d.Grows d') : d'.Accounted := by
  refine ⟨fun p f hf hkind => ?_, fun c t ht => ?_⟩
  · rw [h.acks] at hf
    obtain ⟨x, hx, hhandles⟩ := ha.handled p f hf hkind
    exact ⟨x, h.getElem? hx, by rw [h.shared]; exact hhandles⟩
  · rw [h.shared]
    refine BackendKind.inHand_mono (s := d.shared) (l := d.ledger) ?_ h.getElem? (.refl _)
    rcases h.tasks c with heq | heq
    · exact ha.inHand c t (heq.symm.trans ht)
    · obtain ⟨t₀, ht₀, rfl⟩ := Option.map_eq_some_iff.mp (heq.symm.trans ht)
      unfold cancelTask
      split
      · exact ha.inHand c t₀ ht₀
      · exact BackendKind.inHand_cancel (ha.inHand c t₀ ht₀)

theorem Accounted.hire (ha : d.Accounted) (c : Nat) : (d.hire c).Accounted := by
  refine ⟨ha.handled, fun c' t ht => ?_⟩
  have ht' : Function.update d.tasks c (some b.program.create) c' = some t := ht
  by_cases hc : c' = c
  · rw [hc, Function.update_self] at ht'
    obtain rfl := Option.some.inj ht'
    exact BackendKind.inHand_create _ _
  · rw [Function.update_of_ne hc] at ht'
    exact ha.inHand c' t ht'

theorem Accounted.clear (ha : d.Accounted) (h : Cleared d d') : d'.Accounted := by
  refine ⟨fun p f hf hkind => ?_, fun c t ht => ?_⟩
  · rw [h.shared, h.log]
    refine ha.handled p f ?_ hkind
    rcases Nat.lt_or_ge p d.ledger.taken with hlt | hge
    · rwa [h.old p hlt] at hf
    · -- what the teardown takes out is dropped
      obtain rfl := h.acks hge hf
      simp at hkind
  · rw [h.tasks] at ht
    rw [h.shared]
    exact BackendKind.inHand_mono (ha.inHand c t ht) (fun hr => by rw [h.log]; exact hr) (.refl _)

theorem Accounted.work (ha : d.Accounted) (hs : d.Sound) {running : Bool} {c : Nat}
    {a : b.program.Act} (h : d.work running c a = some d') : d'.Accounted := by
  have hlog := (work_hand h hs).log_eq
  obtain ⟨t, ht, hmap⟩ := Option.bind_eq_some_iff.mp h
  obtain ⟨y, hy, rfl⟩ := Option.map_eq_some_iff.mp hmap
  have hholds : d.ledger.Holds (b.program.hand t) := by
    have hh := hs.holds c
    rwa [hand, ht, Option.bind_some] at hh
  obtain ⟨hkept, hin, hacked⟩ := BackendKind.step_told hs.ledger hholds (ha.inHand c t ht) hy
  have hsame : y.2.1.log = d.ledger.log := hlog
  refine ⟨fun p f hf hkind => ?_, fun c' t' ht' => ?_⟩
  · rcases hacked p f hf with hold | rfl | rfl | hnew
    · obtain ⟨x, hx, hhandles⟩ := ha.handled p f hold hkind
      exact ⟨x, by rw [hsame]; exact hx, hhandles.keep hkept⟩
    · simp at hkind
    · simp at hkind
    · exact hnew
  · have ht'' : Function.update d.tasks c (some y.2.2) c' = some t' := ht'
    by_cases hc : c' = c
    · rw [hc, Function.update_self] at ht''
      obtain rfl := Option.some.inj ht''
      exact hin
    · rw [Function.update_of_ne hc] at ht''
      exact BackendKind.inHand_mono (ha.inHand c' t' ht'') (fun hr => by rw [hsame]; exact hr) hkept

/-- Since the last start began: no entry is in the hand of a worker asked to end, and
what was acknowledged was handled. -/
structure Served (d : Desk b.program) : Prop where
  calm : ∀ c t n, d.tasks c = some t → b.program.cancelRequested t = true →
    b.program.hand t = some n → n < d.base
  handled : ∀ p f, d.base ≤ p → f ∈ d.ledger.acks p → f = .written ∨ f = .sent ∨ f = .failed

theorem Served.rebase (hs : d.Sound) : Served { d with base := d.ledger.log.length } := by
  have hle := hs.ledger.taken_le
  refine ⟨fun c t n ht _ hn => ?_, fun p f hp hf => ?_⟩
  · have hh := hs.holds c n (by rw [hand, ht]; exact hn)
    exact Nat.lt_of_lt_of_le hh.1 hle
  · have hp' : d.ledger.log.length ≤ p := hp
    have hf' : f ∈ d.ledger.acks p := hf
    rw [hs.ledger.fresh p (by omega)] at hf'
    exact absurd hf' (by simp)

theorem Served.offer (hd : d.Served) (x : Item) : (d.offer x).Served := by
  have h := offer_spec d x
  refine ⟨fun c t n ht => ?_, fun p f hp hf => ?_⟩
  · rw [h.tasks] at ht
    rw [h.base]
    exact hd.calm c t n ht
  · rw [h.base] at hp
    rw [h.acks] at hf
    exact hd.handled p f hp hf

theorem Served.offerAll (hd : d.Served) (xs : List Item) : (d.offerAll xs).Served := by
  have h := offerAll_spec d xs
  refine ⟨fun c t n ht => ?_, fun p f hp hf => ?_⟩
  · rw [h.tasks] at ht
    rw [h.base]
    exact hd.calm c t n ht
  · rw [h.base] at hp
    rw [h.acks] at hf
    exact hd.handled p f hp hf

theorem Served.hire (hd : d.Served) (c : Nat) : (d.hire c).Served := by
  refine ⟨fun c' t n ht hq => ?_, hd.handled⟩
  have ht' : Function.update d.tasks c (some b.program.create) c' = some t := ht
  by_cases hc : c' = c
  · rw [hc, Function.update_self] at ht'
    obtain rfl := Option.some.inj ht'
    rw [b.program.create_quiet] at hq
    exact absurd hq (by simp)
  · rw [Function.update_of_ne hc] at ht'
    exact hd.calm c' t n ht' hq

theorem Served.work (hd : d.Served) (hs : d.Sound) {running : Bool} {c : Nat}
    {a : b.program.Act} (hformat : b.unformatted a = false) (h : d.work running c a = some d') :
    d'.Served := by
  obtain ⟨hothers, hbase, t, t', ht, ht', hquiet, -, -⟩ := work_spec h
  refine ⟨fun c' u n hu hq hn => ?_, fun p f hp hf => ?_⟩
  · rw [hbase]
    by_cases hc : c' = c
    · -- a request that is still there found the worker where it is
      rw [hc, ht'] at hu
      obtain rfl := Option.some.inj hu
      obtain ⟨hq', hhand⟩ := hquiet hq
      exact hd.calm c t n ht hq' (hhand ▸ hn)
    · rw [hothers c' hc] at hu
      exact hd.calm c' u n hu hq hn
  · rw [hbase] at hp
    rcases (work_hand h hs).acked hf with hold | ⟨u, hu, hout⟩
    · exact hd.handled p f hp hold
    · rcases BackendKind.outcome_cases hout hformat with h | h | h | ⟨-, hq, hn⟩
      · exact .inl h
      · exact .inr (.inl h)
      · exact .inr (.inr h)
      · have := hd.calm c u p hu hq hn
        omega

end Desk

namespace Pipeline

variable {cfg : Config k} {s t : Pipeline cfg} {a : PipelineAct cfg}

/-- What is acknowledged was dealt with accordingly. -/
theorem accounted {ok : Pipeline cfg → PipelineAct cfg → Prop} (h : (pipeline cfg).Reachable ok s)
    (i : Fin k) : Desk.Accounted (b := cfg.kind i) (s.desks i) := by
  refine Machine.invariant_with (J := fun s => ∀ i, (s.desks i).Sound)
    (I := fun s => Desk.Accounted (b := cfg.kind i) (s.desks i))
    (fun s hs i => desks_sound hs i) ?_ ?_ h
  · rintro s rfl
    exact ⟨fun p f hf => absurd hf (by simp [Pipeline.init, Desk.new, Ledger.new]),
      fun c t ht => absurd ht (by simp [Pipeline.init, Desk.new])⟩
  · intro s a t hsound ha _ hstep
    exact (step_changed hstep).desk (hsound i) (fun _ _ _ _ hwork => ha.work (hsound i) hwork)
      (fun _ hgrows => ha.grow hgrows) (ha.hire _) (fun _ hclear => ha.clear hclear)

-- ---------------------------------------------------------------------------
-- While logging is served
-- ---------------------------------------------------------------------------

/-- Nobody but `stop_logging` cancels a worker, and no worker lacks its formatter. -/
def Undisturbed (_s : Pipeline cfg) : PipelineAct cfg → Prop
  | .cancelWorker _ _ => False
  | .worker i _ act => (cfg.kind i).unformatted act = false
  | _ => True

instance (s : Pipeline cfg) : (a : PipelineAct cfg) → Decidable (s.Undisturbed a)
  | .cancelWorker _ _ => isFalse id
  | .worker _ _ _ => inferInstanceAs (Decidable (_ = _))
  | .emitCall _ | .emit _ | .runSet _ | .bridge _ | .close | .start _ | .stop | .advance
  | .bridgeAwaited | .joined _ | .drainReturns _ | .drainTimesOut _ | .drainFails _ _ | .report _
  | .gathered | .gatherRaises | .deadline | .gatherEnds | .gatherEndsRaising | .reaped =>
    isTrue trivial

/-- From the beginning of a start until `stop_logging` tells the workers to end. -/
def Serving (s : Pipeline cfg) : Prop := s.life.Starting ∨ s.handler.loggingRunningEvent = true

private theorem HostStep.serving {h : Handler k} {l : Life k} (step : HostStep s a h l)
    (hs : l.Starting ∨ h.loggingRunningEvent = true) : s.Serving := by
  cases step with
  | close => exact hs
  | setIngress life | setEvent life | setBridge life | setWorkers life =>
    refine .inl ?_
    rw [life]
    trivial
  | reported _ _ | reportedNoWorkers _ _ => exact absurd (hs.resolve_left id) (by simp)
  | _ => exact .inr (hs.resolve_left id)

theorem serving_back (h : s.step a = some t) (hs : t.Serving) :
    s.Serving ∨ ∃ m, t = s.startLogging m := by
  cases step_hosted h with
  | same handler life _ _ =>
    rw [Serving, handler, life] at hs
    exact .inl hs
  | start _ _ eq => exact .inr ⟨_, eq⟩
  | host step _ _ => exact .inl (step.serving hs)

/-- The workers are asked to end, and the queues cleared, after that only. -/
private theorem Serving.busy (hs : s.Serving) (hc : Control s) :
    s.life ≠ .gathering ∧ s.life ≠ .timedOut ∧ ∀ n, s.life ≠ .clearing n := by
  have hst := hc.stage
  have hoff : ∀ {l : Life k}, s.life = l → ¬ l.Starting → ¬ s.handler.Off := by
    rintro l rfl hl hoff
    rcases hs with h | h
    · exact hl h
    · rw [hoff.running] at h
      exact absurd h (by simp)
  refine ⟨fun hl => ?_, fun hl => ?_, fun n hl => ?_⟩
  all_goals
    rw [hl] at hst
    exact hoff hl id hst.1

/-- No entry of the cycle is lost to a cancellation while logging is served. -/
theorem served (h : (pipeline cfg).Reachable Undisturbed s) (hserving : s.Serving) (i : Fin k) :
    Desk.Served (b := cfg.kind i) (s.desks i) := by
  refine Machine.invariant_with (J := fun s => Control s ∧ ∀ i, (s.desks i).Sound)
    (I := fun s => s.Serving → Desk.Served (b := cfg.kind i) (s.desks i))
    (fun s hs => ⟨control hs, fun i => desks_sound hs i⟩) ?_ ?_ h hserving
  · rintro s rfl -
    exact ⟨fun c t n ht => absurd ht (by simp [Pipeline.init, Desk.new]),
      fun p f _ hf => absurd hf (by simp [Pipeline.init, Desk.new, Ledger.new])⟩
  · rintro s a t ⟨hc, hsound⟩ hi hok hstep hserving
    rcases serving_back hstep hserving with hs | ⟨m, rfl⟩
    · have hd := hi hs
      obtain ⟨hgather, htimed, hclear⟩ := hs.busy hc
      cases step_changed hstep with
      | moved _ _ _ _ _ _ desks => rw [desks]; exact hd.offer _
      | other _ hdesk =>
        cases hdesk i with
        | keep desk => rw [desk]; exact hd
        | work is desk =>
          subst is
          exact hd.work (hsound i) hok desk
        | cancel who _ =>
          rcases who with ⟨c, rfl⟩ | hl | hl
          · exact hok.elim
          · exact absurd hl hgather
          · exact absurd hl htimed
        | hire _ _ desk => rw [desk]; exact hd.hire _
        | rebase _ _ desk => rw [desk]; exact Desk.Served.rebase (hsound i)
        | status _ _ _ desk => rw [desk]; exact hd.offerAll _
        | clear life _ _ => exact absurd life (hclear i)
    · exact Desk.Served.rebase (hsound i)

-- ---------------------------------------------------------------------------
-- While the drains run
-- ---------------------------------------------------------------------------

/-- Nobody moves records, and nothing is put into a queue, while the drains run. -/
private theorem draining_step (hc : Control s) (hsound : ∀ i, (s.desks i).Sound)
    {ds ds' : Fin k → DrainPc} (hlife : s.life = .draining ds) (hlife' : t.life = .draining ds')
    (h : s.step a = some t) :
    t.intake.taken = s.intake.taken ∧ ∀ i, (t.desks i).ledger.log = (s.desks i).ledger.log ∧
      ∀ p, (s.desks i).ledger.acks p ≠ [] → (t.desks i).ledger.acks p ≠ [] := by
  have hst := hc.stage
  rw [hlife] at hst
  cases step_changed h with
  | moved mover _ _ _ _ _ _ =>
    rcases mover with ⟨b, e, hpc⟩ | ⟨hl, -⟩
    · by_cases hb : b = s.starts
      · subst hb
        exact absurd (by rw [hpc]; trivial) hst.2.2.2
      · exact absurd (by rw [hpc]; trivial) (hc.old b hb)
    · rw [hlife] at hl
      exact absurd hl (by simp)
  | other hintake hdesk =>
    refine ⟨?_, fun i => ?_⟩
    · cases hintake with
      | keep intake | call intake | event intake | renew _ intake =>
        exact (congrArg Intake.taken intake).trans rfl
      | emit _ step => exact step.taken
      | discard life _ _ _ =>
        rw [hlife] at life
        exact absurd life (by simp)
    · cases hdesk i with
      | keep desk | cancel _ desk => rw [desk]; exact ⟨rfl, fun _ h => h⟩
      | work _ desk =>
        have hmoves := Desk.work_hand desk (hsound i)
        exact ⟨hmoves.log_eq, fun p hp => hmoves.acks_ne_nil hp⟩
      | hire _ life _ | rebase life _ _ | clear life _ _ =>
        rw [hlife] at life
        exact absurd life (by simp)
      | status _ left _ _ =>
        rw [hlife'] at left
        exact absurd left (by simp)

/-- The drains begin when the flush has seen the ingress empty. -/
private theorem draining_back (h : s.step a = some t) {ds' : Fin k → DrainPc}
    (hlife' : t.life = .draining ds') :
    (∃ ds, s.life = .draining ds) ∨ (a = .advance ∧ s.life = .flushing ∧ ds' = fun _ => .joining) := by
  cases step_hosted h with
  | same _ life _ _ => exact .inl ⟨ds', life.symm.trans hlife'⟩
  | start _ _ eq =>
    rw [eq] at hlife'
    exact absurd hlife' (by simp [startLogging])
  | host step _ _ =>
    generalize t.handler = h' at step
    generalize t.life = l' at step hlife'
    cases step with
    | close => exact .inl ⟨ds', hlife'⟩
    | flushed is life _ => exact .inr ⟨is, life, (Life.draining.inj hlife').symm⟩
    | drain life _ => exact .inl ⟨_, life⟩
    | _ => exact absurd hlife' (by simp)

/-- What entered the ingress before the flush saw it empty is what was taken out. -/
theorem flushed_taken {ok : Pipeline cfg → PipelineAct cfg → Prop}
    (h : (pipeline cfg).Reachable ok s) {ds : Fin k → DrainPc} (hlife : s.life = .draining ds) :
    s.accepted = (s.intake.takenFrom s.starts).map Taken.call := by
  suffices hall : ∀ ds, s.life = .draining ds →
      s.flushed s.starts = some ((s.intake.takenFrom s.starts).map Taken.call) by
    rw [accepted, hall ds hlife, Option.getD_some]
  refine Machine.invariant_with
    (J := fun s => Control s ∧ (∀ i, (s.desks i).Sound) ∧ Accounts s)
    (I := fun s => ∀ ds, s.life = .draining ds →
      s.flushed s.starts = some ((s.intake.takenFrom s.starts).map Taken.call))
    (fun s hs => ⟨control hs, fun i => desks_sound hs i, accounts hs⟩) ?_ ?_ h
  · rintro s rfl ds hl
    exact absurd hl (by simp [Pipeline.init])
  · rintro s a t ⟨hc, hsound, ha⟩ hi _ hstep ds' hlife'
    rcases draining_back hstep hlife' with ⟨ds, hl⟩ | ⟨rfl, hl, -⟩
    · have htaken := (draining_step hc hsound hl hlife' hstep).1
      have hkeep : t.starts = s.starts ∧ t.flushed = s.flushed := by
        cases step_hosted hstep with
        | same _ _ starts flushed => exact ⟨starts, flushed⟩
        | start life _ _ =>
          rw [hl] at life
          exact absurd life (by simp)
        | host _ starts flushed =>
          refine ⟨starts, flushed.resolve_right ?_⟩
          rintro ⟨g, hl', -⟩
          rw [hl] at hl'
          exact absurd hl' (by simp)
      rw [hkeep.1, hkeep.2, Intake.takenFrom, htaken]
      exact hi ds hl
    · obtain ⟨hempty, rfl⟩ := flush_ends hc hl hstep (by rw [hlife']; simp)
      show Function.update s.flushed s.starts _ s.starts = _
      rw [Function.update_self, ha.intake.fifo s.starts, hempty, List.map_nil, List.append_nil]

/-- When a drain has seen the unfinished count at zero, every entry of its queue has
been acknowledged. -/
theorem joined_acked {ok : Pipeline cfg → PipelineAct cfg → Prop}
    (h : (pipeline cfg).Reachable ok s) {ds : Fin k → DrainPc} (hlife : s.life = .draining ds)
    {i : Fin k} (hjoined : ds i = .joined ∨ ds i = .done .completed) :
    ∀ p < (s.desks i).ledger.log.length, (s.desks i).ledger.acks p ≠ [] := by
  suffices hall : ∀ ds, s.life = .draining ds → ds i = .joined ∨ ds i = .done .completed →
      ∀ p < (s.desks i).ledger.log.length, (s.desks i).ledger.acks p ≠ [] from hall ds hlife hjoined
  refine Machine.invariant_with (J := fun s => Control s ∧ ∀ i, (s.desks i).Sound)
    (I := fun s => ∀ ds, s.life = .draining ds → ds i = .joined ∨ ds i = .done .completed →
      ∀ p < (s.desks i).ledger.log.length, (s.desks i).ledger.acks p ≠ [])
    (fun s hs => ⟨control hs, fun i => desks_sound hs i⟩) ?_ ?_ h
  · rintro s rfl ds hl
    exact absurd hl (by simp [Pipeline.init])
  · rintro s a t ⟨hc, hsound⟩ hi _ hstep ds' hlife' hjoined
    rcases draining_back hstep hlife' with ⟨ds, hl⟩ | ⟨-, -, rfl⟩
    · obtain ⟨hlog, hacks⟩ := (draining_step hc hsound hl hlife' hstep).2 i
      -- the drain saw the count at zero in this step or before it
      have hzero : (ds i = .joined ∨ ds i = .done .completed) ∨
          (s.desks i).ledger.queue.unfinished = 0 := by
        cases step_hosted hstep with
        | same _ life _ _ =>
          rw [life, hl] at hlife'
          rw [Life.draining.inj hlife']
          exact .inl hjoined
        | start life _ _ =>
          rw [hl] at life
          exact absurd life (by simp)
        | host step _ _ =>
          generalize t.handler = h' at step
          generalize t.life = l' at step hlife'
          cases step with
          | close =>
            rw [hl] at hlife'
            rw [Life.draining.inj hlife']
            exact .inl hjoined
          | flushed _ life _ =>
            rw [hl] at life
            exact absurd life (by simp)
          | @drain ds₀ j d life zero =>
            obtain rfl := Life.draining.inj (life.symm.trans hl)
            obtain rfl := Life.draining.inj hlife'
            by_cases hij : i = j
            · subst hij
              rw [Function.update_self] at hjoined
              rcases zero hjoined with h | h
              · exact .inl (.inl h)
              · exact .inr h
            · rw [Function.update_of_ne hij] at hjoined
              exact .inl hjoined
          | _ => exact absurd hlife' (by simp)
      intro p hp
      rw [hlog] at hp
      refine hacks p ?_
      rcases hzero with hj | h0
      · exact hi ds hl hj p hp
      · have hone := (hsound i).ledger.acked_of_unfinished_zero h0 hp
        intro hnil
        rw [hnil] at hone
        exact absurd hone (by simp)
    · rcases hjoined with h | h <;> exact absurd h (by simp)

-- ---------------------------------------------------------------------------
-- The main result
-- ---------------------------------------------------------------------------

/-- Backend `i` took the record of call `n` since the start, and was done with it: its
text is written, `send_message` was called with its entry, or a failure was reported. -/
def Handled (s : Pipeline cfg) (i : Fin k) (n : Nat) : Prop :=
  ∃ p e f, (s.desks i).base ≤ p ∧ p < (s.desks i).ledger.taken ∧
    (s.desks i).ledger.log[p]? = some (.emitted e) ∧ e.call = n ∧
    (s.desks i).ledger.acks p = [f] ∧ (cfg.kind i).Handles (s.desks i).shared p (.emitted e) f

/-- Backend `i` has processed what was accepted. -/
structure Processed (s : Pipeline cfg) (i : Fin k) : Prop where
  records : ∀ n ∈ s.accepted,
    (s.intake.Refused i n ∧ s.intake.reports.count (.queueFull i n) = 1) ∨ s.Handled i n
  queued : (s.desks i).ledger.queue.items = []
  finished : (s.desks i).ledger.queue.unfinished = 0
  hands : ∀ c, (s.desks i).hand c = none
  /-- Status records come after everything. -/
  after : ∀ times t, s.step (.report times) = some t →
    ∃ xs, (t.desks i).ledger.log = (s.desks i).ledger.log ++ xs ∧
      ∀ x ∈ xs, ∃ r, x = .status s.starts r

private theorem report_log {times : Fin k → Fin k → String} (h : s.step (.report times) = some t)
    (i : Fin k) :
    ∃ xs, (t.desks i).ledger.log = (s.desks i).ledger.log ++ xs ∧
      ∀ x ∈ xs, ∃ r, x = .status s.starts r := by
  have hsame : (t.desks i).ledger.log = (s.desks i).ledger.log →
      ∃ xs, (t.desks i).ledger.log = (s.desks i).ledger.log ++ xs ∧
        ∀ x ∈ xs, ∃ r, x = Item.status s.starts r :=
    fun heq => ⟨[], by rw [heq, List.append_nil], fun x hx => absurd hx (by simp)⟩
  have hlife : ∃ ds, s.life = .draining ds := by
    rw [step] at h
    split at h
    · exact ⟨_, ‹_›⟩
    · exact absurd h (by simp)
  obtain ⟨ds, hl⟩ := hlife
  rw [step, hl] at h
  obtain ⟨rs, -, rfl⟩ := Option.map_eq_some_iff.mp h
  rw [(reportResults_desks s rs times).1]
  obtain ⟨xs, hxs, hdesk⟩ := reportStatus_desk s rs times i
  refine ⟨_, by rw [hdesk, (Desk.offerAll_spec (s.desks i) xs).log], fun x hx => hxs x ?_⟩
  exact (BoundedQueue.admits_sublist _ _).subset hx

/-- What backend `i` was given since the start, and has acknowledged, it has handled. -/
private theorem handled_of_delivered (hs : (pipeline cfg).Reachable Undisturbed s)
    (hserving : s.Serving) {i : Fin k}
    (hacked : ∀ p < (s.desks i).ledger.log.length, (s.desks i).ledger.acks p ≠ []) {n : Nat}
    (hn : n ∈ (s.desks i).delivered) : s.Handled i n := by
  have hsound := (desks_sound hs i).ledger
  have hserved := served hs hserving i
  obtain ⟨x, hx, hcall⟩ := List.mem_filterMap.mp hn
  obtain ⟨j, hj⟩ := List.mem_iff_getElem?.mp hx
  rw [List.getElem?_drop] at hj
  have hlt := (List.getElem?_eq_some_iff.mp hj).1
  obtain ⟨e, rfl, rfl⟩ : ∃ e, x = .emitted e ∧ e.call = n := by
    cases x with
    | emitted e => exact ⟨e, rfl, Option.some.inj hcall⟩
    | status c r => exact absurd hcall (by simp [Item.call?])
  have hne := hacked _ hlt
  -- an entry is acknowledged once
  obtain ⟨f, hf⟩ : ∃ f, (s.desks i).ledger.acks ((s.desks i).base + j) = [f] := by
    refine List.length_eq_one_iff.mp (Nat.le_antisymm (hsound.once _) ?_)
    exact List.length_pos_iff.mpr hne
  have hmem : f ∈ (s.desks i).ledger.acks ((s.desks i).base + j) := by
    rw [hf]
    exact List.mem_singleton_self f
  refine ⟨_, e, f, Nat.le_add_right _ _, ?_, hj, rfl, hf, ?_⟩
  · by_contra hge
    exact hne (hsound.fresh _ (by omega))
  · obtain ⟨x, hx, hhandles⟩ := (accounted hs i).handled _ f hmem
      (hserved.handled _ f (Nat.le_add_right _ _) hmem)
    obtain rfl := Option.some.inj (hx.symm.trans hj)
    exact hhandles

/-- **A completed drain means everything was processed.** For every number of cycles,
every backlog and every interleaving in which nobody but `stop_logging` cancels a
worker: when a drain is `COMPLETED`, its backend has everything accepted either refused
and reported, or handled; nothing is queued or in a worker's hand; and the status
records come after. The drains of a cycle run while logging still does; a
`stop_logging` called again after it raised is not a cycle, and finds it cleared. -/
theorem completed_processed (hs : (pipeline cfg).Reachable Undisturbed s)
    {ds : Fin k → DrainPc} (hlife : s.life = .draining ds)
    (hrun : s.handler.loggingRunningEvent = true) {i : Fin k}
    (hdone : ds i = .done .completed) : s.Processed i := by
  have hsound := desks_sound hs i
  have hacked := joined_acked hs hlife (.inr hdone)
  have hlen := hsound.ledger.taken_le
  have hempty : (s.desks i).ledger.queue.items = [] := by
    rw [hsound.ledger.items, List.drop_eq_nil_iff]
    by_contra hlt
    exact hacked _ (by omega) (hsound.ledger.fresh _ (Nat.le_refl _))
  refine ⟨fun n hn => ?_, hempty, ?_, fun c => ?_, fun times t h =>
    report_log h i⟩
  · have ha := accounts hs
    rw [flushed_taken hs hlife] at hn
    obtain ⟨o, ho, rfl⟩ := List.mem_map.mp hn
    have hmem := (List.mem_filter.mp ho).1
    -- the teardown has not come to throwing records away
    have hoff : o.refusedBy ≠ none := by
      intro hnone
      rcases offered hs o ho hnone with hl | hl | hl | hl | ⟨hl, -⟩ <;>
      · rw [hlife] at hl
        exact absurd hl (by simp)
    by_cases hr : o.refusal i o.call = true
    · have href : s.intake.Refused i o.call := ⟨o, hmem, hr⟩
      refine .inl ⟨href, ?_⟩
      rw [ha.reported, ha.intake.countP_refusal, if_pos href]
    · refine .inr (handled_of_delivered hs (.inr hrun) hacked ?_)
      rw [ha.given i]
      exact List.mem_filterMap.mpr ⟨o, ho, by rw [givenTo_eq hoff, if_neg hr]⟩
  · rw [hsound.ledger.unfinished_eq_length fun p hp => hacked p (by omega), hempty]
    rfl
  · cases hc : (s.desks i).hand c with
    | none => rfl
    | some p =>
      obtain ⟨hlt, ha⟩ := hsound.holds c p hc
      exact absurd ha (hacked p (by omega))

/-- Two records for a console with room for one; its worker writes that one while
`stop_logging` waits. -/
def drainedCycle : List (PipelineAct oneConsole) :=
  twoRecords ++ [.advance, .worker (Fin.last 0) 1 SinkAct.start,
    .worker (Fin.last 0) 1 (SinkAct.get (.text "started")),
    .worker (Fin.last 0) 1 SinkAct.jobBegins,
    .worker (Fin.last 0) 1 (SinkAct.writeEnds ⟨true, .keep, true⟩),
    .worker (Fin.last 0) 1 (SinkAct.jobDone ""), .joined (Fin.last 0), .drainReturns (Fin.last 0)]

theorem completed_processed_console :
    ∃ s ds, (pipeline oneConsole).run Undisturbed (init oneConsole) drainedCycle = some s ∧
      s.life = .draining ds ∧ ds 0 = .done .completed ∧ s.accepted = [0, 1] ∧ s.Processed 0 := by
  have hrun : ∃ s ds, (pipeline oneConsole).run Undisturbed (init oneConsole) drainedCycle = some s ∧
      s.life = .draining ds ∧ ds 0 = .done .completed ∧ s.accepted = [0, 1] ∧
      s.handler.loggingRunningEvent = true := ⟨_, _, rfl, rfl, rfl, rfl, rfl⟩
  obtain ⟨s, ds, hs, hlife, hdone, hacc, hrunning⟩ := hrun
  exact ⟨s, ds, hs, hlife, hdone, hacc,
    completed_processed (.of_run rfl hs) hlife hrunning hdone⟩

end Pipeline

end ScietexLogging
