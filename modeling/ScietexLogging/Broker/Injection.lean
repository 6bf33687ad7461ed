import ScietexLogging.Broker.ClientSegments

/-!
# Broker — an injected client

A handler built with `client=c` sends through `c` in every cycle, and otherwise
leaves it to its owner: the subclass's `connect` and `disconnect` are never called,
and nothing is closed. The worker's teardown clears `self.client`; the next worker
puts the injected client back before it takes a record.
-/

namespace ScietexLogging

open Asyncio

/-- The only call an injected client sees is a send. -/
def ClientEvent.LeavesAlone (c : Nat) : ClientEvent → Prop
  | .connectCalled | .disconnectCalled | .closeTried _ => False
  | .sendCalled _ _ client => client = some c
  | _ => True

namespace ClientWorker

variable {cls : BrokerClass} {running : Bool} {a : ClientAct} {x y : ClientWorker} {c : Nat}

/-- Where a worker with an injected client is suspended, and what `self.client`
then is. -/
def InjectedAt (x : ClientWorker) (c : Nat) : ClientPc → Prop
  | .created | .ended _ => x.client = none ∨ x.client = some c
  | .getting | .sending _ => x.client = some c
  | _ => False

structure Injected (x : ClientWorker) (c : Nat) : Prop where
  owns : x.ownsClient = false
  injected : x.injectedClient = some c
  at_pc : x.InjectedAt c x.pc
  history : Each (fun _ e => e.LeavesAlone c) x.history

theorem Finished.injected_client {e : TaskEnd} (h : Finished cls x e y)
    (howns : x.ownsClient = false) (hinj : x.injectedClient = some c)
    (hh : Each (fun _ e => e.LeavesAlone c) x.history) : y.Injected c ∧ y.client = none := by
  cases h with
  | injected _ => exact ⟨⟨howns, hinj, .inl rfl, hh⟩, rfl⟩
  | closes owns _ | nothing owns _ | custom _ owns _ =>
    rw [howns] at owns
    exact absurd owns (by simp)

theorem Onward.injected_client (h : Onward cls running x y) (howns : x.ownsClient = false)
    (hinj : x.injectedClient = some c) (hc : x.client = none ∨ x.client = some c)
    (hh : Each (fun _ e => e.LeavesAlone c) x.history) :
    y.Injected c ∧ ((∃ e, y.pc = .ended e) → y.client = none) := by
  cases h with
  | getting client =>
    refine ⟨⟨howns, hinj, hc.resolve_left client, hh⟩, ?_⟩
    rintro ⟨e, he⟩
    exact absurd he (by simp [moveTo])
  | connects owns _ =>
    rw [howns] at owns
    exact absurd owns (by simp)
  | restored _ _ =>
    refine ⟨⟨howns, hinj, hinj, trivial, hh⟩, ?_⟩
    rintro ⟨e, he⟩
    exact absurd he (by simp [afterConnect, moveTo])
  | returns _ _ finished =>
    obtain ⟨hi, hnone⟩ := finished.injected_client howns hinj hh
    exact ⟨hi, fun _ => hnone⟩

/-- A segment keeps to the injected client, and clears `self.client` when it ends
a worker that had begun. -/
theorem Segment.injected_client (h : Segment cls running a x y) (hi : x.Injected c) :
    y.Injected c ∧ (x.pc ≠ .created → (∃ e, y.pc = .ended e) → y.client = none) := by
  obtain ⟨howns, hinj, hat, hh⟩ := hi
  have nowhere : ∀ {pc : ClientPc}, x.pc = pc → ¬ x.InjectedAt c pc → False :=
    fun hpc hno => hno (hpc ▸ hat)
  cases h with
  | start pc _ on =>
    rw [pc] at hat
    obtain ⟨hi, hnone⟩ := on.injected_client howns hinj hat ⟨trivial, hh⟩
    exact ⟨hi, fun _ => hnone⟩
  | probes _ pc | connects pc _ | answers pc | silent pc | wakes pc _ _ | torn pc _ _ | closed pc _ =>
    exact (nowhere pc id).elim
  | raises pc _ => rcases pc with pc | ⟨d, pc⟩ <;> exact (nowhere pc id).elim
  | tears _ owns _ =>
    rw [howns] at owns
    exact absurd owns (by simp)
  | sends pc _ _ =>
    rw [pc] at hat
    refine ⟨⟨howns, hinj, hat, hat, hh⟩, fun _ => ?_⟩
    rintro ⟨e, he⟩
    exact absurd he (by simp [moveTo])
  | spoils _ _ _ _ finished =>
    obtain ⟨hi, hnone⟩ := finished.injected_client howns hinj hh
    exact ⟨hi, fun _ _ => hnone⟩
  | idles pc _ on =>
    rw [pc] at hat
    obtain ⟨hi, hnone⟩ := on.injected_client howns hinj (.inr hat) hh
    exact ⟨hi, fun _ => hnone⟩
  | sent pc _ on =>
    rw [pc] at hat
    obtain ⟨hi, hnone⟩ := on.injected_client howns hinj (.inr hat) ⟨trivial, trivial, hh⟩
    exact ⟨hi, fun _ => hnone⟩
  | fails pc why _ on =>
    rw [pc] at hat
    rcases why with ⟨-, rfl⟩ | ⟨owns, -, -⟩
    · obtain ⟨hi, hnone⟩ := on.injected_client howns hinj (.inr hat) ⟨trivial, trivial, trivial, hh⟩
      exact ⟨hi, fun _ => hnone⟩
    · rw [howns] at owns
      exact absurd owns (by simp)
  | interrupted _ _ _ finished =>
    obtain ⟨hi, hnone⟩ := finished.injected_client howns hinj hh
    exact ⟨hi, fun _ _ => hnone⟩
  | interruptedSend _ _ _ finished =>
    obtain ⟨hi, hnone⟩ := finished.injected_client howns hinj ⟨trivial, hh⟩
    exact ⟨hi, fun _ _ => hnone⟩
  | abandoned _ _ pc =>
    rcases pc with pc | ⟨e, pc⟩
    · rw [pc] at hat
      exact ⟨⟨howns, hinj, hat, hh⟩, fun hne => absurd pc hne⟩
    · exact (nowhere pc id).elim

end ClientWorker

namespace ClientRun

variable {cls : BrokerClass} {s t : ClientRun} {a : Act} {c : Nat}

theorem injected_of_reachable {ok : ClientRun → Act → Prop}
    (h : (machine cls (some c)).Reachable ok s) : s.worker.Injected c := by
  refine Machine.invariant_with (J := Sound) (I := fun s => s.worker.Injected c)
    (fun s hs => sound hs) ?_ ?_ h
  · rintro s ⟨maxsize, running, rfl⟩
    exact ⟨rfl, rfl, .inr rfl, trivial⟩
  · intro s a t hs hi _ hstep
    cases hs.stepped hstep with
    | enqueue _ _ eq =>
      rw [eq]
      exact ⟨hi.owns, hi.injected, hi.at_pc, hi.history⟩
    | other _ _ eq =>
      rw [eq]
      exact ⟨hi.owns, hi.injected, hi.at_pc, hi.history⟩
    | clear _ _ _ eq =>
      rw [eq]
      exact ⟨hi.owns, hi.injected, hi.at_pc, hi.history⟩
    | restart _ pc eq =>
      have hat := hi.at_pc
      rw [pc] at hat
      rw [eq]
      exact ⟨hi.owns, hi.injected, hat, hi.history⟩
    | worker _ _ segment => exact (segment.injected_client hi).1

/-- **An injected client is used and left alone.** For every sequence of cycles,
records, failed sends, records that cannot be rendered, and cancellations: the
handler keeps the client it was given, sends through it only, and calls neither
`connect` nor `disconnect`; a worker that had begun leaves `self.client` clear. -/
theorem injected_client_untouched (h : (machine cls (some c)).Reachable Machine.Always s) :
    s.worker.injectedClient = some c ∧
    Each (fun _ e => e.LeavesAlone c) s.worker.history ∧
    ∀ a t e, s.step cls a = some t → s.worker.pc ≠ .created → s.worker.pc ≠ t.worker.pc →
      t.worker.pc = .ended e → t.worker.client = none := by
  have hi := injected_of_reachable h
  refine ⟨hi.injected, hi.history, fun a t e hstep hnc hne he => ?_⟩
  cases (sound h).stepped hstep with
  | enqueue _ _ eq =>
    rw [eq] at hne
    exact absurd rfl hne
  | other _ _ eq =>
    rw [eq] at hne
    exact absurd rfl hne
  | clear _ _ _ eq =>
    rw [eq] at hne
    exact absurd rfl hne
  | restart _ _ eq =>
    rw [eq] at he
    exact absurd he (by simp)
  | worker _ _ segment => exact (segment.injected_client hi).2 hnc ⟨e, he⟩

/-- A send fails, the worker stops; after a restart a send is cancelled. -/
def twoCycles : List Act :=
  let record : LogRecord := ⟨20, "app", .ok "started", .ok "1970-01-01T00:00:00+00:00"⟩
  [.enqueue record, .worker .start, .worker .get, .setRunning false, .worker (.sendFail "reset"),
    .restart, .setRunning true, .enqueue record, .worker .start, .worker .get, .cancel]

theorem injected_client_untouched_twice :
    ∃ s t, (machine .mqtt (some 7)).run Machine.Always (initial (some 7) 8 true) twoCycles = some s ∧
      s.step .mqtt (.worker .deliver) = some t ∧ s.worker.client = some 7 ∧
      t.worker.client = none ∧ Each (fun _ e => e.LeavesAlone 7) s.worker.history := by
  have hrun : ∃ s t, (machine .mqtt (some 7)).run Machine.Always (initial (some 7) 8 true) twoCycles =
      some s ∧ s.step .mqtt (.worker .deliver) = some t ∧ s.worker.client = some 7 ∧
      s.worker.pc = .sending 1 ∧ t.worker.pc = .ended .cancelled := ⟨_, _, rfl, rfl, rfl, rfl, rfl⟩
  obtain ⟨s, t, hs, ht, hclient, hpc, hend⟩ := hrun
  obtain ⟨-, hhist, hnone⟩ := injected_client_untouched (.of_run ⟨8, true, rfl⟩ hs)
  refine ⟨s, t, hs, ht, hclient, hnone _ t .cancelled ht ?_ ?_ hend, hhist⟩
  · rw [hpc]
    simp
  · rw [hpc, hend]
    simp

end ClientRun

end ScietexLogging
