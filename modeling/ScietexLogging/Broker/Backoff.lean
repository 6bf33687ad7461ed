import Mathlib.Algebra.Order.Field.Basic
import Mathlib.Tactic.Linarith
import Mathlib.Tactic.NormNum
import Mathlib.Tactic.Ring
import ScietexLogging.Broker.ClientSegments

/-!
# Broker — waiting out an outage

While a broker cannot be reached the worker leaves the queue alone, reports every
failed attempt once and waits longer and longer between attempts.

* `backoff k`   — the wait after the `k`-th failed attempt in a row;
* `failures`    — how many attempts have failed in a row, read off the history;
* `outage_backs_off` — in every state of every run, for every sequence of
  outcomes of `connect`, sends, timeouts, teardowns, cancellations and restarts.
-/

namespace ScietexLogging

open Asyncio

-- ---------------------------------------------------------------------------
-- The closed form
-- ---------------------------------------------------------------------------

/-- The wait after the `k`-th failed attempt in a row, before jitter. -/
def backoff (k : Nat) : ℚ := min (1 / 2 * 2 ^ (k - 1)) 30

theorem backoff_one : backoff 1 = connectRetryBase := by
  norm_num [backoff, connectRetryBase]

theorem backoff_le_cap (k : Nat) : backoff k ≤ 30 := min_le_right _ _

/-- Doubling, up to the cap. -/
theorem backoff_succ {k : Nat} (hk : 0 < k) :
    backoff (k + 1) = min (backoff k * 2) connectRetryCap := by
  obtain ⟨m, rfl⟩ : ∃ m, k = m + 1 := ⟨k - 1, by omega⟩
  show min (1 / 2 * 2 ^ (m + 1) : ℚ) 30 = min (min (1 / 2 * 2 ^ m) 30 * 2) 30
  have hpow : (1 / 2 * 2 ^ (m + 1) : ℚ) = 1 / 2 * 2 ^ m * 2 := by ring
  rw [hpow]
  rcases le_total (1 / 2 * 2 ^ m : ℚ) 30 with hle | hge
  · rw [min_eq_left hle]
  · rw [min_eq_right hge, min_eq_right (by linarith), min_eq_right (by norm_num)]

theorem backoff_mono (k : Nat) : backoff k ≤ backoff (k + 1) := by
  refine min_le_min_right 30 ?_
  have hpow : (2 : ℚ) ^ (k - 1) ≤ 2 ^ (k + 1 - 1) := pow_le_pow_right₀ (by norm_num) (by omega)
  linarith

-- ---------------------------------------------------------------------------
-- Outages in a history
-- ---------------------------------------------------------------------------

/-- How many attempts have failed since the worker started or last connected. -/
def failures : List ClientEvent → Nat
  | [] => 0
  | .started :: _ | .connected _ :: _ => 0
  | .connectRaised _ :: past => failures past + 1
  | _ :: past => failures past

/-- Nothing to do with attempts to connect and their sleeps. -/
def ClientEvent.Plain : ClientEvent → Prop
  | .started | .connected _ | .connectRaised _ | .slept _ _ => False
  | _ => True

/-- The jitter stays within its bounds. -/
def Jitter (u : ℚ) : Prop := 4 / 5 ≤ u ∧ u ≤ 6 / 5

/-- Every sleep follows a failed attempt and its report, with the wait that is due;
every failed attempt is followed by one report, without a record, and a sleep. -/
structure Paced (h : List ClientEvent) : Prop where
  sleeps : Each (fun past e => ∀ d u, e = .slept d u → Jitter u ∧ ∃ exc older,
    past = .reported none exc :: .connectRaised exc :: older ∧ d = backoff (failures older + 1)) h
  attempts : ∀ later exc older, h = later ++ .connectRaised exc :: older →
    ∃ rest d u, later = rest ++ [.slept d u, .reported none exc]

namespace Paced

variable {h : List ClientEvent}

theorem nil : Paced [] := ⟨trivial, fun later exc older heq => absurd heq (by simp)⟩

/-- Further events, of other kinds. -/
theorem cons (hp : Paced h) {e : ClientEvent} (hraised : ∀ exc, e ≠ .connectRaised exc)
    (hslept : ∀ d u, e ≠ .slept d u) : Paced (e :: h) := by
  refine ⟨⟨fun d u heq => absurd heq (hslept d u), hp.sleeps⟩, fun later exc older heq => ?_⟩
  cases later with
  | nil => exact absurd (List.cons.inj heq).1 (hraised exc)
  | cons e' later =>
    obtain ⟨rest, d, u, hlater⟩ := hp.attempts later exc older (List.cons.inj heq).2
    exact ⟨e' :: rest, d, u, by rw [hlater]; rfl⟩

theorem plain (hp : Paced h) {e : ClientEvent} (he : e.Plain) : Paced (e :: h) := by
  refine hp.cons ?_ ?_
  · rintro exc rfl
    exact he
  · rintro d u rfl
    exact he

theorem append (hp : Paced h) {new : List ClientEvent} (hnew : ∀ e ∈ new, e.Plain) :
    Paced (new ++ h) := by
  induction new with
  | nil => exact hp
  | cons e new ih =>
    exact (ih fun e' he' => hnew e' (List.mem_cons_of_mem _ he')).plain (hnew e List.mem_cons_self)

/-- A failed attempt, its report and its sleep. -/
theorem raise (hp : Paced h) {exc : String} {u : ℚ} (hu : Jitter u) :
    Paced (.slept (backoff (failures h + 1)) u :: .reported none exc :: .connectRaised exc :: h) := by
  refine ⟨⟨fun d u' heq => ?_, fun d u' heq => absurd heq (by simp),
    fun d u' heq => absurd heq (by simp), hp.sleeps⟩, fun later exc' older heq => ?_⟩
  · obtain ⟨rfl, rfl⟩ := ClientEvent.slept.inj heq
    exact ⟨hu, exc, h, rfl, rfl⟩
  · -- the attempt is the one just made, or an earlier one
    match later, heq with
    | [], heq => exact absurd (List.cons.inj heq).1 (by simp)
    | [_], heq => exact absurd (List.cons.inj (List.cons.inj heq).2).1 (by simp)
    | [e₁, e₂], heq =>
      simp only [List.cons_append, List.nil_append, List.cons.injEq,
        ClientEvent.connectRaised.injEq] at heq
      obtain ⟨rfl, rfl, rfl, -⟩ := heq
      exact ⟨[], _, _, rfl⟩
    | e₁ :: e₂ :: e₃ :: later, heq =>
      simp only [List.cons_append, List.cons.injEq] at heq
      obtain ⟨rest, d, u', hlater⟩ := hp.attempts later exc' older heq.2.2.2
      exact ⟨e₁ :: e₂ :: e₃ :: rest, d, u', by rw [hlater]; rfl⟩

end Paced

theorem failures_plain {e : ClientEvent} {h : List ClientEvent} (he : e.Plain) :
    failures (e :: h) = failures h := by
  cases e with
  | started | connected _ | connectRaised _ | slept _ _ => exact he.elim
  | _ => rfl

theorem failures_append {new h : List ClientEvent} (hnew : ∀ e ∈ new, e.Plain) :
    failures (new ++ h) = failures h := by
  induction new with
  | nil => rfl
  | cons e new ih =>
    rw [List.cons_append, failures_plain (hnew e List.mem_cons_self)]
    exact ih fun e' he' => hnew e' (List.mem_cons_of_mem _ he')

-- ---------------------------------------------------------------------------
-- The invariant
-- ---------------------------------------------------------------------------

namespace ClientWorker

variable {cls : BrokerClass} {running : Bool} {a : ClientAct} {x y : ClientWorker}

/-- The wait `connect_delay` stands for: that of the attempt just failed while the
worker sleeps, and of the next one otherwise. -/
def DelayDue (x : ClientWorker) : ClientPc → Prop
  | .created | .closing _ | .ended _ => True
  | .sleeping => 0 < failures x.history ∧ x.connectDelay = backoff (failures x.history)
  | _ => x.connectDelay = backoff (failures x.history + 1)

structure OutageInv (x : ClientWorker) : Prop where
  owns : x.ownsClient = x.injectedClient.isNone
  paced : Paced x.history
  client : x.pc = .getting ∨ (∃ n, x.pc = .sending n) → x.client ≠ none
  delay : x.DelayDue x.pc

theorem Finished.outage {e : TaskEnd} (h : Finished cls x e y)
    (howns : x.ownsClient = x.injectedClient.isNone) (hp : Paced x.history) : y.OutageInv := by
  obtain ⟨new, heq, hnew⟩ := h.history
  have hplain : ∀ e ∈ new, e.Plain := by
    intro e he
    rcases hnew e he with rfl | ⟨c, -, rfl⟩ <;> trivial
  have hpaced : Paced y.history := by
    rw [heq]
    exact hp.append hplain
  cases h with
  | injected _ => exact ⟨howns, hpaced, by simp [leave, moveTo], trivial⟩
  | closes _ _ => exact ⟨howns, hpaced, by simp [moveTo], trivial⟩
  | nothing _ _ => exact ⟨howns, hpaced, by simp [leave, moveTo], trivial⟩
  | custom _ _ _ => exact ⟨howns, hpaced, by simp [moveTo], trivial⟩

/-- `_connect` has returned: the wait starts from its base again. -/
theorem afterConnect_outage {c : Option Nat} (howns : x.ownsClient = x.injectedClient.isNone)
    (hp : Paced x.history) (hc : c ≠ none) : (x.afterConnect c).OutageInv :=
  ⟨howns, hp.cons (by simp) (by simp), fun _ => hc, backoff_one.symm⟩

theorem Onward.outage (h : Onward cls running x y) (howns : x.ownsClient = x.injectedClient.isNone)
    (hp : Paced x.history) (hd : x.connectDelay = backoff (failures x.history + 1)) :
    y.OutageInv := by
  cases h with
  | getting client => exact ⟨howns, hp, fun _ => client, hd⟩
  | connects _ _ =>
    refine ⟨howns, hp.plain trivial, by simp [moveTo], ?_⟩
    show x.connectDelay = backoff (failures (.connectCalled :: x.history) + 1)
    rw [failures_plain (e := .connectCalled) trivial, hd]
  | restored owns _ =>
    refine afterConnect_outage howns hp fun hnone => ?_
    rw [owns, hnone] at howns
    exact absurd howns (by simp)
  | returns _ _ finished => exact finished.outage howns hp

/-- Events that have nothing to do with connecting leave the wait that is due. -/
private theorem due_append {x' : ClientWorker} {p : List ClientEvent}
    (hd : x.connectDelay = backoff (failures x.history + 1)) (hhist : x'.history = p ++ x.history)
    (hdelay : x'.connectDelay = x.connectDelay) (hnew : ∀ e ∈ p, e.Plain) :
    x'.connectDelay = backoff (failures x'.history + 1) := by
  rw [hdelay, hhist, failures_append hnew, hd]

theorem Segment.outage (h : Segment cls running a x y) (hi : x.OutageInv) : y.OutageInv := by
  obtain ⟨howns, hp, hclient, hd⟩ := hi
  cases h with
  | start _ _ on =>
    refine on.outage howns (hp.cons (by simp) (by simp)) ?_
    exact backoff_one.symm
  | probes _ pc =>
    rw [pc] at hd
    refine ⟨howns, hp.plain trivial, by simp [moveTo], ?_⟩
    exact due_append (p := [.obtained x.made]) hd rfl rfl (by simp [ClientEvent.Plain])
  | connects _ _ => exact afterConnect_outage howns (hp.plain trivial) (by simp)
  | answers _ => exact afterConnect_outage howns hp (by simp)
  | @silent c pc =>
    rw [pc] at hd
    refine ⟨howns, hp.plain trivial, by simp [moveTo], ?_⟩
    exact due_append (p := [.closeTried c]) hd rfl rfl (by simp [ClientEvent.Plain])
  | @raises exc jitter pc bounds =>
    have hdue : x.connectDelay = backoff (failures x.history + 1) := by
      rcases pc with pc | ⟨c, pc⟩ <;>
      · rw [pc] at hd
        exact hd
    have hjitter : Jitter jitter := by
      norm_num [connectRetryJitter] at bounds
      exact bounds
    refine ⟨howns, ?_, by simp [moveTo], Nat.succ_pos _, hdue⟩
    show Paced (.slept x.connectDelay jitter :: .reported none exc :: .connectRaised exc :: x.history)
    rw [hdue]
    exact hp.raise hjitter
  | wakes pc _ on =>
    rw [pc] at hd
    obtain ⟨hpos, hdue⟩ := hd
    refine on.outage howns hp ?_
    show min (x.connectDelay * 2) connectRetryCap = backoff (failures x.history + 1)
    rw [backoff_succ hpos, hdue]
  | @sends n record entry l pc _ _ =>
    rw [pc] at hd
    refine ⟨howns, hp.plain trivial, fun _ => hclient (.inl pc), ?_⟩
    exact due_append (p := [.sendCalled n entry x.client]) hd rfl rfl (by simp [ClientEvent.Plain])
  | spoils _ _ _ _ finished => exact finished.outage howns hp
  | idles pc _ on =>
    rw [pc] at hd
    exact on.outage howns hp hd
  | @sent _ n l pc _ on =>
    rw [pc] at hd
    have hnew : ∀ e ∈ [ClientEvent.taskDone n, .sendReturned n], e.Plain := by
      simp [ClientEvent.Plain]
    exact on.outage howns (hp.append hnew) (due_append hd rfl rfl hnew)
  | @tears n exc pc _ _ =>
    rw [pc] at hd
    have hnew : ∀ e ∈ (x.client.toList.map .closeTried) ++
        [ClientEvent.disconnectCalled, .reported (some n) exc, .sendRaised n], e.Plain := by
      intro e he
      rcases List.mem_append.mp he with he | he
      · obtain ⟨c, -, rfl⟩ := List.mem_map.mp he
        trivial
      · simp only [List.mem_cons, List.not_mem_nil, or_false] at he
        rcases he with rfl | rfl | rfl <;> trivial
    have hhist : (x.client.toList.map ClientEvent.closeTried) ++ .disconnectCalled ::
        .reported (some n) exc :: .sendRaised n :: x.history = ((x.client.toList.map .closeTried) ++
          [ClientEvent.disconnectCalled, .reported (some n) exc, .sendRaised n]) ++ x.history := by
      rw [List.append_assoc]
      rfl
    refine ⟨howns, ?_, by simp, ?_⟩
    · show Paced ((x.client.toList.map ClientEvent.closeTried) ++ _)
      rw [hhist]
      exact hp.append hnew
    · exact due_append hd hhist rfl hnew
  | @fails _ n exc l called pc why _ on =>
    rw [pc] at hd
    have hnew : ∀ e ∈ .taskDone n :: called ++ [ClientEvent.reported (some n) exc, .sendRaised n],
        e.Plain := by
      rcases why with ⟨-, rfl⟩ | ⟨-, -, rfl⟩ <;> simp [ClientEvent.Plain]
    have hhist : ({ x.resume with
        history := called ++ ClientEvent.reported (some n) exc :: .sendRaised n :: x.history }.acked n l).history
          = (.taskDone n :: called ++ [ClientEvent.reported (some n) exc, .sendRaised n]) ++
            x.history := by
      show .taskDone n :: (called ++ _) = _
      simp
    refine on.outage howns ?_ (due_append hd hhist rfl hnew)
    rw [hhist]
    exact hp.append hnew
  | @torn _ n l pc _ on =>
    rw [pc] at hd
    exact on.outage howns (hp.plain trivial)
      (due_append (p := [.taskDone n]) hd rfl rfl (by simp [ClientEvent.Plain]))
  | @closed e said pc said_eq =>
    refine ⟨howns, hp.append ?_, by simp [leave, moveTo], trivial⟩
    rcases said_eq with rfl | ⟨exc, rfl⟩ <;> simp [ClientEvent.Plain]
  | interrupted _ _ _ finished => exact finished.outage howns hp
  | interruptedSend _ _ _ finished => exact finished.outage howns (hp.plain trivial)
  | abandoned _ _ _ => exact ⟨howns, hp, by simp [moveTo], trivial⟩

/-- A record is dequeued in `queue.get()` only. -/
theorem Segment.taken (h : Segment cls running a x y) (hpc : x.pc ≠ .getting) :
    y.ledger.taken = x.ledger.taken := by
  have ack : ∀ {n : Nat} {f : Outcome} {l : Ledger LogRecord Outcome} {z : ClientWorker},
      x.ledger.ack n f = some l → Frame z y → z.ledger = l → y.ledger.taken = x.ledger.taken :=
    fun hack hframe hl => by rw [hframe.ledger, hl, (Ledger.ack_eq_some hack).2.2.1]
  cases h with
  | start _ _ on | wakes _ _ on => rw [on.frame.ledger]; rfl
  | idles pc _ _ | sends pc _ _ | spoils _ pc _ _ _ => exact absurd pc hpc
  | sent _ hack on | fails _ _ hack on | torn _ hack on => exact ack hack on.frame rfl
  | interrupted _ _ _ finished => rw [finished.frame.ledger]; rfl
  | interruptedSend _ _ hack finished => exact ack hack finished.frame rfl
  | probes _ _ | connects _ _ | answers _ | silent _ | raises _ _ | tears _ _ _ | closed _ _
  | abandoned _ _ _ => rfl

end ClientWorker

namespace ClientRun

variable {cls : BrokerClass} {injected : Option Nat} {s t : ClientRun} {a : Act}

theorem outageInv {ok : ClientRun → Act → Prop} (h : (machine cls injected).Reachable ok s) :
    s.worker.OutageInv := by
  refine Machine.invariant_with (J := Sound) (I := fun s => s.worker.OutageInv)
    (fun s hs => sound hs) ?_ ?_ h
  · rintro s ⟨maxsize, running, rfl⟩
    exact ⟨rfl, .nil, by simp [initial], trivial⟩
  · intro s a t hs hi _ hstep
    cases hs.stepped hstep with
    | enqueue _ _ eq =>
      rw [eq]
      exact ⟨hi.owns, hi.paced, hi.client, hi.delay⟩
    | other _ _ eq =>
      rw [eq]
      exact ⟨hi.owns, hi.paced, hi.client, hi.delay⟩
    | clear _ _ _ eq =>
      rw [eq]
      exact ⟨hi.owns, hi.paced, hi.client, hi.delay⟩
    | restart _ _ eq =>
      rw [eq]
      exact ⟨hi.owns, hi.paced, by simp, trivial⟩
    | worker _ _ segment => exact segment.outage hi

/-- **Waiting out an outage.** For every sequence of outcomes of `connect`, in any
mix with sends, failed sends, timeouts, teardowns, cancellations and restarts: no
record is dequeued without a client, except by `stop_logging`, and every failed attempt is followed by one
report without a record and by a sleep of the wait that is due, within its jitter.
The wait never shrinks from one failure to the next, is capped, and starts from
its base after every connection. -/
theorem outage_backs_off (h : (machine cls injected).Reachable Machine.Always s) :
    (∀ a t, s.step cls a = some t → s.worker.ledger.taken < t.worker.ledger.taken →
      a = .clear ∨ s.worker.client ≠ none) ∧
    Paced s.worker.history ∧
    (∀ k, backoff k ≤ backoff (k + 1) ∧ backoff k ≤ 30) ∧ backoff 1 = 1 / 2 := by
  have hi := outageInv h
  refine ⟨fun a t hstep hlt => ?_, hi.paced, fun k => ⟨backoff_mono k, backoff_le_cap k⟩,
    backoff_one.trans rfl⟩
  cases (sound h).stepped hstep with
  | enqueue _ put eq =>
    rw [eq] at hlt
    have htaken := (Ledger.put_eq_some put).2.2.1
    exact absurd hlt (by show ¬ _ < _; rw [htaken]; exact Nat.lt_irrefl _)
  | other _ _ eq =>
    rw [eq] at hlt
    exact absurd hlt (Nat.lt_irrefl _)
  | clear is _ _ _ => exact .inl is
  | restart _ _ eq =>
    rw [eq] at hlt
    exact absurd hlt (Nat.lt_irrefl _)
  | worker _ _ segment =>
    by_cases hpc : s.worker.pc = .getting
    · exact .inr (hi.client (.inl hpc))
    · rw [segment.taken hpc] at hlt
      exact absurd hlt (Nat.lt_irrefl _)

/-- Two attempts fail, the third connects, and a send fails; the next attempt fails
again. -/
def flapping : List Act :=
  [.worker .start, .worker (.buildFails "refused" 1), .worker .wake,
    .worker (.buildFails "refused" (6 / 5)), .worker .wake, .worker .built, .worker .pingOk,
    .enqueue ⟨20, "app", .ok "started", .ok "1970-01-01T00:00:00+00:00"⟩, .worker .get,
    .worker (.sendFail "reset"), .worker .closeOk, .worker (.buildFails "refused" 1)]

/-- The sleeps of a run, the latest first. -/
def sleeps (s : ClientRun) : List ClientEvent := s.worker.history.filter (· matches .slept _ _)

theorem outage_backs_off_flapping :
    ∃ s, (machine .redis none).run Machine.Always (initial none 8 true) flapping = some s ∧
      Paced s.worker.history ∧
      s.sleeps = [.slept (1 / 2) 1, .slept 1 (6 / 5), .slept (1 / 2) 1] := by
  have hrun : ((machine .redis none).run Machine.Always (initial none 8 true) flapping).map sleeps =
      some [.slept (1 / 2) 1, .slept 1 (6 / 5), .slept (1 / 2) 1] := by decide +kernel
  obtain ⟨s, hs, hslept⟩ := Option.map_eq_some_iff.mp hrun
  exact ⟨s, hs, (outage_backs_off (.of_run ⟨8, true, rfl⟩ hs)).2.1, hslept⟩

end ClientRun

end ScietexLogging
