import ScietexLogging.Broker.ClientSegments

/-!
# Broker — no client is leaked

Every client a shipped subclass obtains from its library is either known to the
handler or has had its close attempted (`Books`), and no send goes through a client
whose close was attempted.

Two cancellations break this. One that strikes Redis' `connect` while it awaits its
`ping` leaves a client only a local variable refers to: the `except Exception`
around the ping does not see a `CancelledError`. One that strikes the last
`disconnect` leaves `self.client` set: the `except Exception` around it lets the
`CancelledError` pass before `self.client = None`.

* `clients_released` — without these two, in every state of every run; either of
  them leaves a client behind;
* `client_leaks_at_ping` — the first of them, as a run.
-/

namespace ScietexLogging

open Asyncio

/-- An event that neither brings, closes nor uses a client. -/
def ClientEvent.Idle : ClientEvent → Prop
  | .obtained _ | .closeTried _ | .sendCalled _ _ _ => False
  | _ => True

/-- A send goes through a client whose close was not attempted. -/
def SendsOpen (past : List ClientEvent) (e : ClientEvent) : Prop :=
  ∀ n entry c, e = .sendCalled n entry (some c) → .closeTried c ∉ past

/-- `self.client` is set at these suspensions only. -/
def ClientPc.MayHold : ClientPc → Prop
  | .getting | .sending _ | .disconnecting _ | .closing _ => True
  | _ => False

/-- The books of the clients a handler got: `held` is the one it has not closed
yet, of `made` in all. -/
structure Books (h : List ClientEvent) (made : Nat) (held : Option Nat) : Prop where
  known : ∀ c, .obtained c ∈ h → .closeTried c ∈ h ∨ held = some c
  closed : ∀ c, .closeTried c ∈ h → c < made
  held : ∀ c, held = some c → c < made
  sends : Each SendsOpen h

/-- The client held has not had its close attempted. -/
def Open (h : List ClientEvent) (held : Option Nat) : Prop := ∀ c, held = some c → .closeTried c ∉ h

namespace Books

variable {h p : List ClientEvent} {made : Nat} {held : Option Nat}

/-- Events that are nothing to the books. -/
theorem push (hb : Books h made held) (hnew : ∀ e ∈ p, e.Idle) : Books (p ++ h) made held := by
  have hmem : ∀ {e : ClientEvent}, ¬ e.Idle → (e ∈ p ++ h ↔ e ∈ h) := by
    intro e he
    rw [List.mem_append]
    exact or_iff_right fun h => he (hnew e h)
  refine ⟨fun c hc => ?_, fun c hc => hb.closed c ((hmem id).mp hc), hb.held, ?_⟩
  · rw [hmem (e := .closeTried c) id]
    exact hb.known c ((hmem id).mp hc)
  · clear hmem
    induction p with
    | nil => exact hb.sends
    | cons e p ih =>
      refine ⟨?_, ih fun e' he' => hnew e' (List.mem_cons_of_mem _ he')⟩
      rintro n entry c rfl
      exact (hnew _ List.mem_cons_self).elim

/-- A send through the client held. -/
theorem send (hb : Books h made held) (ho : Open h held) (n : Nat) (entry : LogEntry) :
    Books (.sendCalled n entry held :: h) made held := by
  refine ⟨fun c hc => ?_, fun c hc => ?_, hb.held, ⟨fun m entry' c heq => ?_, hb.sends⟩⟩
  · rcases hb.known c ((List.mem_cons.mp hc).resolve_left (by simp)) with h | h
    · exact .inl (List.mem_cons_of_mem _ h)
    · exact .inr h
  · exact hb.closed c ((List.mem_cons.mp hc).resolve_left (by simp))
  · exact ho c (ClientEvent.sendCalled.inj heq).2.2

/-- The library returns a new client. -/
theorem fetch (hb : Books h made none) : Books (.obtained made :: h) (made + 1) (some made) := by
  refine ⟨fun c hc => ?_, fun c hc => ?_, fun c hc => ?_, ⟨fun n entry c heq => ?_, hb.sends⟩⟩
  · rcases List.mem_cons.mp hc with hc | hc
    · exact .inr (by rw [ClientEvent.obtained.inj hc])
    · exact .inl (List.mem_cons_of_mem _ ((hb.known c hc).resolve_right (by simp)))
  · exact Nat.lt_succ_of_lt (hb.closed c ((List.mem_cons.mp hc).resolve_left (by simp)))
  · obtain rfl := Option.some.inj hc
    exact Nat.lt_succ_self _
  · exact absurd heq (by simp)

theorem fetch_open (hb : Books h made none) : Open (.obtained made :: h) (some made) := by
  intro c hc hmem
  obtain rfl := Option.some.inj hc
  exact absurd (hb.closed _ ((List.mem_cons.mp hmem).resolve_left (by simp))) (Nat.lt_irrefl _)

/-- The close of the client held is attempted. -/
theorem close (hb : Books h made held) {c : Nat} (hc : held = some c) :
    Books (.closeTried c :: h) made none := by
  refine ⟨fun d hd => .inl ?_, fun d hd => ?_, fun d hd => absurd hd (by simp),
    ⟨fun n entry d heq => absurd heq (by simp), hb.sends⟩⟩
  · rcases hb.known d ((List.mem_cons.mp hd).resolve_left (by simp)) with h | h
    · exact List.mem_cons_of_mem _ h
    · obtain rfl := Option.some.inj (hc.symm.trans h)
      exact List.mem_cons_self
  · rcases List.mem_cons.mp hd with hd | hd
    · obtain rfl := ClientEvent.closeTried.inj hd
      exact hb.held _ hc
    · exact hb.closed d hd

/-- A client whose close was attempted may be kept or forgotten. -/
theorem keep (hb : Books h made none) (hlt : ∀ c, held = some c → c < made) : Books h made held :=
  ⟨fun c hc => .inl ((hb.known c hc).resolve_right (by simp)), hb.closed, hlt, hb.sends⟩

theorem forget (hb : Books h made held) (hclosed : ∀ c, held = some c → .closeTried c ∈ h) :
    Books h made none := by
  refine ⟨fun c hc => .inl ?_, hb.closed, fun c hc => absurd hc (by simp), hb.sends⟩
  rcases hb.known c hc with h | h
  · exact h
  · exact hclosed c h

end Books

theorem Open.push {h p : List ClientEvent} {held : Option Nat} (ho : Open h held)
    (hnew : ∀ e ∈ p, e.Idle) : Open (p ++ h) held := by
  intro c hc hmem
  rcases List.mem_append.mp hmem with hmem | hmem
  · exact hnew _ hmem
  · exact ho c hc hmem

theorem Open.none (h : List ClientEvent) : Open h none := fun c hc => absurd hc (by simp)

-- ---------------------------------------------------------------------------
-- The invariant
-- ---------------------------------------------------------------------------

namespace ClientWorker

variable {cls : BrokerClass} {running : Bool} {a : ClientAct} {x y : ClientWorker}

/-- The client the worker holds, in `self.client` or in a local of `connect`. -/
def holding (x : ClientWorker) : Option Nat :=
  match x.pc with
  | .pinging c => some c
  | _ => x.client

structure Owned (x : ClientWorker) : Prop where
  owns : x.ownsClient = true
  books : Books x.history x.made x.holding
  opened : ¬ x.pc.Closing → Open x.history x.holding
  idle : ¬ x.pc.MayHold → x.client = none
  closing : x.pc.Closing → ∀ c, x.client = some c → .closeTried c ∈ x.history

/-- A cancellation here strikes a client only `connect` knows, or the last
`disconnect`. -/
def Strands (x : ClientWorker) : Bool := x.pc matches .pinging _ | .closing _

theorem Finished.owned {e : TaskEnd} (hcls : cls.shipped = true) (h : Finished cls x e y)
    (howns : x.ownsClient = true) (hb : Books x.history x.made x.client) : y.Owned := by
  cases h with
  | injected owns =>
    rw [howns] at owns
    exact absurd owns (by simp)
  | custom other _ _ =>
    rw [hcls] at other
    exact absurd other (by simp)
  | nothing _ client =>
    rw [client] at hb
    exact ⟨howns, hb.push (p := [.disconnectCalled]) (by simp [ClientEvent.Idle]),
      fun _ => .none _, fun _ => rfl, False.elim⟩
  | @closes c _ client =>
    have hb' := (hb.push (p := [.disconnectCalled]) (by simp [ClientEvent.Idle])).close client
    refine ⟨howns, hb'.keep hb.held, fun hno => absurd trivial hno, fun hno => absurd trivial hno,
      fun _ d hd => ?_⟩
    obtain rfl := Option.some.inj (hd.symm.trans client)
    exact List.mem_cons_self

theorem Onward.owned (hcls : cls.shipped = true) (h : Onward cls running x y)
    (howns : x.ownsClient = true) (hb : Books x.history x.made x.client)
    (ho : Open x.history x.client) : y.Owned := by
  cases h with
  | getting client => exact ⟨howns, hb, fun _ => ho, fun hno => absurd trivial hno, False.elim⟩
  | connects _ client =>
    have hnew : ∀ e ∈ [ClientEvent.connectCalled], e.Idle := by simp [ClientEvent.Idle]
    exact ⟨howns, hb.push hnew, fun _ => ho.push hnew, fun _ => client, False.elim⟩
  | restored owns _ =>
    rw [howns] at owns
    exact absurd owns (by simp)
  | returns _ _ finished => exact finished.owned hcls howns hb

/-- `_connect` has returned with the client held. -/
private theorem keep_owned {x : ClientWorker} {c : Nat} (howns : x.ownsClient = true)
    (hb : Books x.history x.made (some c)) (ho : Open x.history (some c)) :
    (x.afterConnect (some c)).Owned := by
  have hnew : ∀ e ∈ [ClientEvent.connected (some c)], e.Idle := by simp [ClientEvent.Idle]
  exact ⟨howns, hb.push hnew, fun _ => ho.push hnew, fun hno => absurd trivial hno, False.elim⟩

/-- A segment that strands no client keeps the books. -/
theorem Segment.owned (hcls : cls.shipped = true) (h : Segment cls running a x y) (hi : x.Owned)
    (hok : a = .deliver → x.Strands = false) : y.Owned := by
  obtain ⟨howns, hb, ho, hidle, hclosing⟩ := hi
  unfold holding at hb ho
  cases h with
  | start pc _ on =>
    rw [pc] at hb ho
    have hnew : ∀ e ∈ [ClientEvent.started], e.Idle := by simp [ClientEvent.Idle]
    exact on.owned hcls howns (hb.push hnew) ((ho id).push hnew)
  | probes _ pc =>
    have hnone := hidle (by rw [pc]; exact id)
    rw [pc, hnone] at hb
    exact ⟨howns, hb.fetch, fun _ => hb.fetch_open, fun _ => hnone, False.elim⟩
  | connects pc _ =>
    have hnone := hidle (by rw [pc]; exact id)
    rw [pc, hnone] at hb
    exact keep_owned howns hb.fetch hb.fetch_open
  | answers pc =>
    rw [pc] at hb ho
    exact keep_owned (x := x.resume) howns hb (ho id)
  | silent pc =>
    have hnone := hidle (by rw [pc]; exact id)
    rw [pc] at hb
    refine ⟨howns, ?_, fun _ => ?_, fun _ => hnone, False.elim⟩
    · show Books _ _ x.client
      rw [hnone]
      exact hb.close rfl
    · show Open _ x.client
      rw [hnone]
      exact .none _
  | @raises exc jitter pc _ =>
    have hnone : x.client = none := by
      rcases pc with pc | ⟨d, pc⟩ <;> exact hidle (by rw [pc]; exact id)
    have hbooks : Books x.history x.made x.client := by
      rcases pc with pc | ⟨d, pc⟩ <;>
      · rw [pc] at hb
        exact hb
    have hnew : ∀ e ∈ [ClientEvent.slept x.connectDelay jitter, .reported none exc,
        .connectRaised exc], e.Idle := by simp [ClientEvent.Idle]
    refine ⟨howns, hbooks.push hnew, fun _ => ?_, fun _ => hnone, False.elim⟩
    show Open _ x.client
    rw [hnone]
    exact .none _
  | wakes pc _ on =>
    rw [pc] at hb ho
    exact on.owned hcls howns hb (ho id)
  | @sends n record entry l pc _ _ =>
    rw [pc] at hb ho
    refine ⟨howns, hb.send (ho id) n entry, fun _ => ?_, fun hno => absurd trivial hno, False.elim⟩
    intro c hc hmem
    exact ho id c hc ((List.mem_cons.mp hmem).resolve_left (by simp))
  | spoils _ pc _ _ finished =>
    rw [pc] at hb
    exact finished.owned hcls howns hb
  | idles pc _ on =>
    rw [pc] at hb ho
    exact on.owned hcls howns hb (ho id)
  | @sent _ n l pc _ on =>
    rw [pc] at hb ho
    have hnew : ∀ e ∈ [ClientEvent.taskDone n, .sendReturned n], e.Idle := by simp [ClientEvent.Idle]
    exact on.owned hcls howns (hb.push hnew) ((ho id).push hnew)
  | @tears n exc pc _ client =>
    rw [pc] at hb
    have hnew : ∀ e ∈ [ClientEvent.disconnectCalled, .reported (some n) exc, .sendRaised n],
        e.Idle := by simp [ClientEvent.Idle]
    have hb' := hb.push hnew
    have hmade := hb.held
    obtain ⟨c, hc⟩ : ∃ c, x.client = some c := by
      refine Option.ne_none_iff_exists'.mp fun hnone => ?_
      rw [client hnone] at hcls
      exact absurd hcls (by simp)
    have hlist : x.client.toList.map ClientEvent.closeTried = [.closeTried c] := by
      rw [hc]
      rfl
    refine ⟨howns, ?_, fun hno => absurd trivial hno, fun hno => absurd trivial hno,
      fun _ d hd => ?_⟩
    · show Books (x.client.toList.map ClientEvent.closeTried ++ _) x.made x.client
      rw [hlist]
      exact (hb'.close hc).keep hmade
    · obtain rfl := Option.some.inj (hc.symm.trans hd)
      show .closeTried c ∈ x.client.toList.map ClientEvent.closeTried ++ _
      rw [hlist]
      exact List.mem_cons_self
  | @fails _ n exc l called pc why _ on =>
    rw [pc] at hb ho
    have hnew : ∀ e ∈ .taskDone n :: called ++ [ClientEvent.reported (some n) exc, .sendRaised n],
        e.Idle := by
      rcases why with ⟨-, rfl⟩ | ⟨-, -, rfl⟩ <;> simp [ClientEvent.Idle]
    have hhist : .taskDone n :: (called ++ ClientEvent.reported (some n) exc :: .sendRaised n ::
        x.history) = (.taskDone n :: called ++ [ClientEvent.reported (some n) exc, .sendRaised n]) ++
          x.history := by simp
    refine on.owned hcls howns ?_ ?_
    · show Books (.taskDone n :: (called ++ _)) _ _
      rw [hhist]
      exact hb.push hnew
    · show Open (.taskDone n :: (called ++ _)) _
      rw [hhist]
      exact (ho id).push hnew
  | @torn _ n l pc _ on =>
    have hclosed := hclosing (by rw [pc]; trivial)
    rw [pc] at hb
    have hnew : ∀ e ∈ [ClientEvent.taskDone n], e.Idle := by simp [ClientEvent.Idle]
    exact on.owned hcls howns ((hb.forget hclosed).push hnew) (.none _)
  | @closed e said pc said_eq =>
    have hclosed := hclosing (by rw [pc]; trivial)
    rw [pc] at hb
    have hnew : ∀ e ∈ said, e.Idle := by
      rcases said_eq with rfl | ⟨exc, rfl⟩ <;> simp [ClientEvent.Idle]
    exact ⟨howns, (hb.forget hclosed).push hnew, fun _ => .none _, fun _ => rfl, False.elim⟩
  | interrupted act _ pc finished =>
    refine finished.owned hcls howns ?_
    have hno := hok act
    unfold Strands at hno
    show Books x.history x.made x.client
    cases hpc : x.pc <;> simp_all
  | @interruptedSend _ n f l _ pc _ finished =>
    have hnew : ∀ e ∈ [ClientEvent.taskDone n], e.Idle := by simp [ClientEvent.Idle]
    refine finished.owned hcls howns ?_
    rcases pc with ⟨pc, -⟩ | ⟨pc, -⟩ <;>
    · rw [pc] at hb
      exact hb.push hnew
  | abandoned act _ pc =>
    have hno := hok act
    rcases pc with pc | ⟨e, pc⟩
    · have hnone := hidle (by rw [pc]; exact id)
      rw [pc] at hb ho
      exact ⟨howns, hb, fun _ => ho id, fun _ => hnone, False.elim⟩
    · rw [Strands, pc] at hno
      exact absurd hno (by simp)

/-- What is at stake where `Strands` holds. -/
structure AtStake (x : ClientWorker) : Prop where
  ping : ∀ c, x.pc = .pinging c → .obtained c ∈ x.history
  close : ∀ e, x.pc = .closing e → x.client ≠ none

private theorem AtStake.elsewhere (hping : ∀ c, x.pc ≠ .pinging c) (hclose : ∀ e, x.pc ≠ .closing e) :
    x.AtStake :=
  ⟨fun c h => absurd h (hping c), fun e h => absurd h (hclose e)⟩

theorem Finished.atStake {e : TaskEnd} (hcls : cls.shipped = true) (h : Finished cls x e y) :
    y.AtStake := by
  cases h with
  | injected _ | nothing _ _ => exact .elsewhere (by simp [leave, moveTo]) (by simp [leave, moveTo])
  | closes _ client =>
    refine ⟨fun c hc => absurd hc (by simp [moveTo]), fun _ _ => ?_⟩
    show x.client ≠ none
    rw [client]
    simp
  | custom other _ _ =>
    rw [hcls] at other
    exact absurd other (by simp)

theorem Onward.atStake (hcls : cls.shipped = true) (h : Onward cls running x y) : y.AtStake := by
  cases h with
  | returns _ _ finished => exact finished.atStake hcls
  | getting _ | connects _ _ => exact .elsewhere (by simp [moveTo]) (by simp [moveTo])
  | restored _ _ => exact .elsewhere (by simp [afterConnect, moveTo]) (by simp [afterConnect, moveTo])

theorem Segment.atStake (hcls : cls.shipped = true) (h : Segment cls running a x y) : y.AtStake := by
  cases h with
  | start _ _ on | wakes _ _ on | idles _ _ on | sent _ _ on | fails _ _ _ on | torn _ _ on =>
    exact on.atStake hcls
  | spoils _ _ _ _ finished | interrupted _ _ _ finished | interruptedSend _ _ _ finished =>
    exact finished.atStake hcls
  | probes _ _ =>
    refine ⟨fun c hc => ?_, fun e he => absurd he (by simp [moveTo])⟩
    obtain rfl := ClientPc.pinging.inj hc
    exact List.mem_cons_self
  | connects _ _ | answers _ =>
    exact .elsewhere (by simp [afterConnect, moveTo]) (by simp [afterConnect, moveTo])
  | silent _ | raises _ _ | sends _ _ _ | tears _ _ _ | abandoned _ _ _ =>
    exact .elsewhere (by simp [moveTo]) (by simp [moveTo])
  | closed _ _ => exact .elsewhere (by simp [leave, moveTo]) (by simp [leave, moveTo])

end ClientWorker

namespace ClientRun

variable {cls : BrokerClass} {s t : ClientRun} {a : Act}

/-- No cancellation is delivered while `connect` awaits its `ping`, or while the
worker awaits its last `disconnect`. -/
def Spares (s : ClientRun) : Act → Prop
  | .worker .deliver => s.worker.Strands = false
  | _ => True

instance (s : ClientRun) (a : Act) : Decidable (s.Spares a) := by
  unfold Spares
  split <;> infer_instance

theorem owned_of_reachable (hcls : cls.shipped = true)
    (h : (machine cls none).Reachable Spares s) : s.worker.Owned := by
  refine Machine.invariant_with (J := Sound) (I := fun s => s.worker.Owned)
    (fun s hs => sound hs) ?_ ?_ h
  · rintro s ⟨maxsize, running, rfl⟩
    exact ⟨rfl, ⟨by simp [initial], by simp [initial], by simp [initial, ClientWorker.holding], trivial⟩,
      fun _ => .none _, fun _ => rfl, False.elim⟩
  · intro s a t hs hi hok hstep
    cases hs.stepped hstep with
    | enqueue _ _ eq =>
      rw [eq]
      exact ⟨hi.owns, hi.books, hi.opened, hi.idle, hi.closing⟩
    | other _ _ eq =>
      rw [eq]
      exact ⟨hi.owns, hi.books, hi.opened, hi.idle, hi.closing⟩
    | clear _ _ _ eq =>
      rw [eq]
      exact ⟨hi.owns, hi.books, hi.opened, hi.idle, hi.closing⟩
    | restart _ pc eq =>
      have hnone := hi.idle (by rw [pc]; exact id)
      have hb := hi.books
      have ho := hi.opened (by rw [pc]; exact id)
      rw [ClientWorker.holding, pc] at hb ho
      rw [eq]
      exact ⟨hi.owns, hb, fun _ => ho, fun _ => hnone, False.elim⟩
    | @worker act is _ segment =>
      refine segment.owned hcls hi fun hdel => ?_
      rw [is, hdel] at hok
      exact hok

theorem atStake_of_reachable {ok : ClientRun → Act → Prop} (hcls : cls.shipped = true)
    (h : (machine cls none).Reachable ok s) : s.worker.AtStake := by
  refine Machine.invariant_with (J := Sound) (I := fun s => s.worker.AtStake)
    (fun s hs => sound hs) ?_ ?_ h
  · rintro s ⟨maxsize, running, rfl⟩
    exact ⟨by simp [initial], by simp [initial]⟩
  · intro s a t hs hi _ hstep
    cases hs.stepped hstep with
    | enqueue _ _ eq => rw [eq]; exact ⟨hi.ping, hi.close⟩
    | other _ _ eq => rw [eq]; exact ⟨hi.ping, hi.close⟩
    | clear _ _ _ eq => rw [eq]; exact ⟨hi.ping, hi.close⟩
    | restart _ pc eq => rw [eq]; exact ⟨by simp, by simp⟩
    | worker _ _ segment => exact segment.atStake hcls

/-- What a worker that has ended leaves of the clients its handler got. -/
structure Released (s : ClientRun) : Prop where
  closed : ∀ c, .obtained c ∈ s.worker.history → .closeTried c ∈ s.worker.history
  client : s.worker.client = none

/-- A cancellation that strands a client ends the worker with the client leaked, or
still referred to. -/
private theorem stranded (hcls : cls.shipped = true) (h : (machine cls none).Reachable Spares s)
    (hstrands : s.worker.Strands = true) (hstep : s.step cls (.worker .deliver) = some t) :
    (∃ e, t.worker.pc = .ended e) ∧ ¬ t.Released := by
  have hi := owned_of_reachable hcls h
  have hstake := atStake_of_reachable hcls h
  obtain ⟨x, hx, rfl⟩ := Option.map_eq_some_iff.mp hstep
  unfold ClientWorker.step at hx
  simp only at hx
  split at hx
  · unfold ClientWorker.Strands at hstrands
    cases hpc : s.worker.pc with
    | pinging c =>
      rw [ClientWorker.interrupt, show s.worker.resume.pc = _ from hpc] at hx
      obtain rfl := Option.some.inj hx
      have hnone : s.worker.client = none := hi.idle (by rw [hpc]; exact id)
      have hopen := hi.opened (by rw [hpc]; exact id) c (by rw [ClientWorker.holding, hpc])
      have heq : s.worker.resume.finish cls .cancelled =
          (s.worker.resume.log .disconnectCalled).leave .cancelled := by
        rw [ClientWorker.finish, ClientWorker.disconnect, if_pos (show s.worker.resume.ownsClient = _
          from hi.owns), show s.worker.resume.client = none from hnone]
        exact if_pos hcls
      rw [heq]
      refine ⟨⟨_, rfl⟩, fun hrel => ?_⟩
      have := hrel.closed c (List.mem_cons_of_mem _ (hstake.ping c hpc))
      exact hopen ((List.mem_cons.mp this).resolve_left (by simp))
    | closing e =>
      rw [ClientWorker.interrupt, show s.worker.resume.pc = _ from hpc] at hx
      obtain rfl := Option.some.inj hx
      exact ⟨⟨_, rfl⟩, fun hrel => hstake.close e hpc hrel.client⟩
    | _ =>
      rw [hpc] at hstrands
      exact absurd hstrands (by simp)
  · exact absurd hx (by simp)

/-- **No client is leaked.** For every shipped subclass, every outcome of the
library's calls, any number of reconnects and restarts, and a cancellation at any
other suspension: an ended worker has tried to close every client it got and has
cleared `self.client`, and no send goes through a client whose close was tried.
A cancellation at one of the two suspensions left out breaks this. -/
theorem clients_released (hcls : cls.shipped = true)
    (h : (machine cls none).Reachable Spares s) :
    (∀ e, s.worker.pc = .ended e → s.Released) ∧ Each SendsOpen s.worker.history ∧
    (∀ t, ¬ s.Spares (.worker .deliver) → s.step cls (.worker .deliver) = some t →
      (∃ e, t.worker.pc = .ended e) ∧ ¬ t.Released) := by
  have hi := owned_of_reachable hcls h
  refine ⟨fun e he => ?_, hi.books.sends, fun t hspares => ?_⟩
  · have hnone := hi.idle (by rw [he]; exact id)
    have hb := hi.books
    rw [ClientWorker.holding, he, hnone] at hb
    exact ⟨fun c hc => (hb.known c hc).resolve_right (by simp), hnone⟩
  · have hspares' : ¬ s.worker.Strands = false := hspares
    exact stranded hcls h (by simpa using hspares')

/-- The worker is cancelled while a send is under way. -/
def interruptedRun : List Act :=
  [.enqueue ⟨20, "app", .ok "started", .ok "1970-01-01T00:00:00+00:00"⟩, .worker .start,
    .worker .built, .worker .pingOk, .worker .get, .cancel, .worker .deliver, .worker .closeOk]

theorem clients_released_interrupted :
    ∃ s, (machine .redis none).run Spares (initial none 8 true) interruptedRun = some s ∧
      .obtained 0 ∈ s.worker.history ∧ s.Released := by
  have hrun : ∃ s, (machine .redis none).run Spares (initial none 8 true) interruptedRun = some s ∧
      s.worker.pc = .ended .cancelled ∧ s.worker.history.contains (.obtained 0) = true :=
    ⟨_, rfl, rfl, by decide⟩
  obtain ⟨s, hs, hpc, hobt⟩ := hrun
  refine ⟨s, hs, by simpa using hobt, ?_⟩
  exact (clients_released rfl (.of_run ⟨8, true, rfl⟩ hs)).1 _ hpc

/-- The client is obtained, and the worker cancelled while it awaits the ping. -/
theorem client_leaks_at_ping :
    ¬ ∀ cls s, BrokerClass.shipped cls = true → (machine cls none).Reachable Machine.Always s →
      (∀ e, s.worker.pc = .ended e → s.Released) ∧ Each SendsOpen s.worker.history := by
  intro hall
  have hrun : ∃ s, (machine .redis none).run Machine.Always (initial none 8 true)
      [.worker .start, .worker .built, .cancel, .worker .deliver] = some s ∧
      s.worker.pc = .ended .cancelled ∧
      s.worker.history = [.disconnectCalled, .obtained 0, .connectCalled, .started] :=
    ⟨_, rfl, rfl, rfl⟩
  obtain ⟨s, hs, hpc, hhist⟩ := hrun
  have hrel := ((hall .redis s rfl (.of_run ⟨8, true, rfl⟩ hs)).1 _ hpc).closed 0
  rw [hhist] at hrel
  exact absurd (hrel (by simp)) (by simp)

end ClientRun

end ScietexLogging
