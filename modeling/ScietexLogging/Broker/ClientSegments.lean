import ScietexLogging.Broker.Clients

/-!
# Broker — what a segment does to the client

`ClientWorker.Segment` lists, once, the segments of the worker with the calls
each makes; `ClientWorker.step_segment` derives it from the code, for a queue that
agrees with its history. What the worker owes its clients is read off this list.
-/

namespace ScietexLogging

open Asyncio

def ClientPc.hand : ClientPc → Option Nat
  | .sending n | .disconnecting n => some n
  | _ => none

/-- Suspended inside the loop, with no record in hand. -/
def ClientPc.Looping : ClientPc → Prop
  | .building | .pinging _ | .discarding _ | .sleeping | .getting => True
  | _ => False

/-- Suspended in the `close` of a client. -/
def ClientPc.Closing : ClientPc → Prop
  | .disconnecting _ | .closing _ => True
  | _ => False

namespace ClientWorker

variable {cls : BrokerClass} {running : Bool} {a : ClientAct} {x : ClientWorker}

/-- The record has been acknowledged. -/
def acked (x : ClientWorker) (n : Nat) (l : Ledger LogRecord Outcome) : ClientWorker :=
  { x with ledger := l }.log (.taskDone n)

/-- The ways `_disconnect()` goes on from the outer `finally`. -/
inductive Finished (cls : BrokerClass) (x : ClientWorker) (e : TaskEnd) : ClientWorker → Prop
  | injected (owns : x.ownsClient = false) : Finished cls x e (x.leave e)
  | closes {c : Nat} (owns : x.ownsClient = true) (client : x.client = some c) :
      Finished cls x e (((x.log .disconnectCalled).log (.closeTried c)).moveTo (.closing e))
  | nothing (owns : x.ownsClient = true) (client : x.client = none) :
      Finished cls x e ((x.log .disconnectCalled).leave e)
  | custom (other : cls.shipped = false) (owns : x.ownsClient = true) (client : x.client = none) :
      Finished cls x e ((x.log .disconnectCalled).moveTo (.closing e))

/-- The ways the head of the loop goes on. -/
inductive Onward (cls : BrokerClass) (running : Bool) (x : ClientWorker) : ClientWorker → Prop
  | getting (client : x.client ≠ none) : Onward cls running x (x.moveTo .getting)
  | connects (owns : x.ownsClient = true) (client : x.client = none) :
      Onward cls running x ((x.log .connectCalled).moveTo .building)
  | restored (owns : x.ownsClient = false) (client : x.client = none) :
      Onward cls running x (x.afterConnect x.injectedClient)
  | returns (stopped : running = false) (empty : x.ledger.queue.items = []) {y : ClientWorker}
      (finished : Finished cls x .returned y) : Onward cls running x y

theorem finish_finished (cls : BrokerClass) (x : ClientWorker) (e : TaskEnd) :
    Finished cls x e (x.finish cls e) := by
  unfold finish disconnect
  cases howns : x.ownsClient with
  | false => exact .injected howns
  | true =>
    cases hclient : x.client with
    | some c => exact .closes howns hclient
    | none =>
      show Finished cls x e (if cls.shipped then _ else _)
      split
      · exact .nothing howns hclient
      · rename_i hcls
        exact .custom (by simpa using hcls) howns hclient

theorem loopHead_onward (cls : BrokerClass) (running : Bool) (x : ClientWorker) :
    Onward cls running x (x.loopHead cls running) := by
  unfold loopHead
  split
  · cases hclient : x.client with
    | some c => exact .getting (by rw [hclient]; simp)
    | none =>
      cases howns : x.ownsClient with
      | true => exact .connects howns hclient
      | false => exact .restored howns hclient
  · rename_i hcond
    simp only [Bool.or_eq_true, Bool.not_eq_true', not_or, Bool.not_eq_true] at hcond
    exact .returns hcond.1 (by simpa using hcond.2) (finish_finished cls x .returned)

/-- The segments of the worker. -/
inductive Segment (cls : BrokerClass) (running : Bool) (a : ClientAct) (x : ClientWorker) :
    ClientWorker → Prop
  | start {y : ClientWorker} (pc : x.pc = .created) (calm : x.cancelRequested = false)
      (on : Onward cls running ((x.log .started).setDelay connectRetryBase) y) : Segment cls running a x y
  | probes (redis : cls = .redis) (pc : x.pc = .building) :
      Segment cls running a x (x.resume.newClient.moveTo (.pinging x.made))
  | connects (pc : x.pc = .building) (other : cls ≠ .redis) :
      Segment cls running a x (x.resume.newClient.afterConnect (some x.made))
  | answers {c : Nat} (pc : x.pc = .pinging c) : Segment cls running a x (x.resume.afterConnect (some c))
  | silent {c : Nat} (pc : x.pc = .pinging c) :
      Segment cls running a x ((x.resume.log (.closeTried c)).moveTo (.discarding c))
  | raises {exc : String} {jitter : ℚ} (pc : x.pc = .building ∨ ∃ c, x.pc = .discarding c)
      (bounds : 1 - connectRetryJitter ≤ jitter ∧ jitter ≤ 1 + connectRetryJitter) :
      Segment cls running a x ((((x.resume.log (.connectRaised exc)).log (.reported none exc)).log
        (.slept x.connectDelay jitter)).moveTo .sleeping)
  | wakes {y : ClientWorker} (pc : x.pc = .sleeping) (calm : x.cancelRequested = false)
      (on : Onward cls running (x.setDelay (min (x.connectDelay * 2) connectRetryCap)) y) :
      Segment cls running a x y
  | sends {n : Nat} {record : LogRecord} {entry : LogEntry} {l : Ledger LogRecord Outcome}
      (pc : x.pc = .getting) (get : x.ledger.get = some ((n, record), l))
      (rendered : logEntry record = .ok entry) :
      Segment cls running a x
        (({ x.resume with ledger := l }.log (.sendCalled n entry x.client)).moveTo (.sending n))
  | spoils {y : ClientWorker} {n : Nat} {record : LogRecord} {exc : String} {l : Ledger LogRecord Outcome}
      (act : a = .get) (pc : x.pc = .getting) (get : x.ledger.get = some ((n, record), l))
      (bad : logEntry record = .error exc)
      (finished : Finished cls { x.resume with ledger := l } .raised y) : Segment cls running a x y
  | idles {y : ClientWorker} (pc : x.pc = .getting) (calm : x.cancelRequested = false)
      (on : Onward cls running x y) : Segment cls running a x y
  | sent {y : ClientWorker} {n : Nat} {l : Ledger LogRecord Outcome} (pc : x.pc = .sending n)
      (ack : x.ledger.ack n .sent = some l)
      (on : Onward cls running ((x.resume.log (.sendReturned n)).acked n l) y) :
      Segment cls running a x y
  | tears {n : Nat} {exc : String} (pc : x.pc = .sending n) (owns : x.ownsClient = true)
      (client : x.client = none → cls.shipped = false) :
      Segment cls running a x
        { x with
          history := (x.client.toList.map .closeTried) ++ .disconnectCalled ::
            .reported (some n) exc :: .sendRaised n :: x.history
          pc := .disconnecting n
          cancelRequested := false }
  | fails {y : ClientWorker} {n : Nat} {exc : String} {l : Ledger LogRecord Outcome}
      {called : List ClientEvent} (pc : x.pc = .sending n)
      (why : (x.ownsClient = false ∧ called = []) ∨
        (x.ownsClient = true ∧ x.client = none ∧ called = [.disconnectCalled]))
      (ack : x.ledger.ack n .failed = some l)
      (on : Onward cls running
        ({ x.resume with
          history := called ++ ClientEvent.reported (some n) exc :: .sendRaised n :: x.history }.acked n l) y) :
      Segment cls running a x y
  | torn {y : ClientWorker} {n : Nat} {l : Ledger LogRecord Outcome} (pc : x.pc = .disconnecting n)
      (ack : x.ledger.ack n .failed = some l)
      (on : Onward cls running ((x.resume.setClient none).acked n l) y) : Segment cls running a x y
  | closed {e : TaskEnd} {said : List ClientEvent} (pc : x.pc = .closing e)
      (said_eq : said = [] ∨ ∃ exc, said = [.reported none exc]) :
      Segment cls running a x ({ x.resume with history := said ++ x.history }.leave e)
  | interrupted {y : ClientWorker} (act : a = .deliver) (request : x.cancelRequested = true)
      (pc : x.pc.Looping) (finished : Finished cls x.resume .cancelled y) : Segment cls running a x y
  | interruptedSend {y : ClientWorker} {n : Nat} {f : Outcome} {l : Ledger LogRecord Outcome}
      (request : x.cancelRequested = true)
      (pc : x.pc = .sending n ∧ f = .interrupted ∨ x.pc = .disconnecting n ∧ f = .failed)
      (ack : x.ledger.ack n f = some l)
      (finished : Finished cls (x.resume.acked n l) .cancelled y) : Segment cls running a x y
  | abandoned (act : a = .deliver) (request : x.cancelRequested = true)
      (pc : x.pc = .created ∨ ∃ e, x.pc = .closing e) :
      Segment cls running a x (x.resume.moveTo (.ended .cancelled))

variable {y : ClientWorker}

/-- Acknowledging the record in hand succeeds. -/
private theorem acknowledge_eq (cls : BrokerClass) (x' : ClientWorker) {n : Nat} (f : Outcome)
    (next : ClientWorker → ClientWorker) (hs : x.ledger.Sound) (hh : x.ledger.Holds (some n))
    (hledger : x'.ledger = x.ledger) :
    ∃ l, x.ledger.ack n f = some l ∧ x'.acknowledge cls n f next = next (x'.acked n l) := by
  obtain ⟨hlt, ha⟩ := hh n rfl
  obtain ⟨l, hl⟩ := Ledger.ack_of_pos (hs.unfinished_pos hlt ha) n f
  refine ⟨l, hl, ?_⟩
  rw [acknowledge, hledger, hl]
  rfl

private theorem interrupt_segment (hact : a = .deliver) (hs : x.ledger.Sound)
    (hh : x.ledger.Holds x.pc.hand) (hc : x.cancelRequested = true) (h : x.resume.interrupt cls = some y) :
    Segment cls running a x y := by
  unfold interrupt at h
  split at h
  case h_1 hpc =>
    obtain rfl := Option.some.inj h
    exact .abandoned hact hc (.inl hpc)
  case h_2 hpc | h_3 hpc | h_4 hpc | h_5 hpc | h_6 hpc =>
    obtain rfl := Option.some.inj h
    refine .interrupted hact hc ?_ (finish_finished cls _ _)
    rw [show x.pc = _ from hpc]
    trivial
  case h_7 n hpc =>
    obtain rfl := Option.some.inj h
    rw [show x.pc = _ from hpc] at hh
    obtain ⟨l, hl, heq⟩ := acknowledge_eq cls x.resume .interrupted
      (finish cls · .cancelled) hs hh rfl
    rw [heq]
    exact .interruptedSend hc (.inl ⟨hpc, rfl⟩) hl (finish_finished cls _ _)
  case h_8 n hpc =>
    obtain rfl := Option.some.inj h
    rw [show x.pc = _ from hpc] at hh
    obtain ⟨l, hl, heq⟩ := acknowledge_eq cls x.resume .failed
      (finish cls · .cancelled) hs hh rfl
    rw [heq]
    exact .interruptedSend hc (.inr ⟨hpc, rfl⟩) hl (finish_finished cls _ _)
  case h_9 e hpc =>
    obtain rfl := Option.some.inj h
    exact .abandoned hact hc (.inr ⟨e, hpc⟩)
  case h_10 => exact absurd h (by simp)

private theorem raises_segment {exc : String} {jitter : ℚ}
    (hpc : x.pc = .building ∨ ∃ c, x.pc = .discarding c)
    (h : x.resume.afterConnectRaises exc jitter = some y) : Segment cls running a x y := by
  unfold afterConnectRaises at h
  split at h
  · rename_i hbounds
    obtain rfl := Option.some.inj h
    exact .raises hpc hbounds
  · exact absurd h (by simp)

private theorem sendFail_segment {n : Nat} {exc : String} (hs : x.ledger.Sound)
    (hh : x.ledger.Holds (some n)) (hpc : x.pc = .sending n) :
    Segment cls running a x
      (((x.resume.log (.sendRaised n)).log (.reported (some n) exc)).disconnect cls
        (.disconnecting n) (acknowledge cls · n .failed (loopHead cls running))) := by
  unfold disconnect
  cases howns : x.ownsClient with
  | false =>
    obtain ⟨l, hl, heq⟩ := acknowledge_eq cls
      ((x.resume.log (.sendRaised n)).log (.reported (some n) exc)) .failed
      (loopHead cls running) hs hh rfl
    rw [if_neg (by show ¬ x.ownsClient = true; rw [howns]; simp)]
    show Segment cls running a x (acknowledge cls _ n .failed _)
    rw [heq]
    exact .fails hpc (.inl ⟨howns, rfl⟩) hl (loopHead_onward cls running _)
  | true =>
    rw [if_pos (by exact howns)]
    cases hclient : x.client with
    | some c =>
      have hseg := @Segment.tears cls running a x n exc hpc howns
        (fun hnone => by rw [hclient] at hnone; exact absurd hnone (by simp))
      have hlist : x.client.toList.map ClientEvent.closeTried = [.closeTried c] := by
        rw [hclient]
        rfl
      rw [hlist] at hseg
      rw [show ((x.resume.log (.sendRaised n)).log (.reported (some n) exc)).client = _ from hclient]
      exact hseg
    | none =>
      rw [show ((x.resume.log (.sendRaised n)).log (.reported (some n) exc)).client = _ from hclient]
      show Segment cls running a x (if cls.shipped then _ else _)
      split
      · obtain ⟨l, hl, heq⟩ := acknowledge_eq cls
          (((x.resume.log (.sendRaised n)).log (.reported (some n) exc)).log .disconnectCalled)
          .failed (loopHead cls running) hs hh rfl
        show Segment cls running a x (acknowledge cls _ n .failed _)
        rw [heq]
        exact .fails hpc (.inr ⟨howns, hclient, rfl⟩) hl (loopHead_onward cls running _)
      · rename_i hcls
        have hseg := @Segment.tears cls running a x n exc hpc howns
          (fun _ => by simpa using hcls)
        have hlist : x.client.toList.map ClientEvent.closeTried = [] := by
          rw [hclient]
          rfl
        rw [hlist] at hseg
        exact hseg

/-- **What a segment does.** -/
theorem step_segment (hs : x.ledger.Sound) (hh : x.ledger.Holds x.pc.hand)
    (h : x.step cls running a = some y) : Segment cls running a x y := by
  unfold step at h
  split at h
  case h_1 hpc =>
    split at h
    · exact absurd h (by simp)
    · rename_i hcalm
      obtain rfl := Option.some.inj h
      exact .start hpc (by simpa using hcalm) (loopHead_onward cls running _)
  case h_2 hpc =>
    obtain rfl := Option.some.inj h
    split
    · exact .probes rfl hpc
    · rename_i hcls
      exact .connects hpc hcls
  case h_3 hpc => exact raises_segment (.inl hpc) h
  case h_4 c hpc =>
    obtain rfl := Option.some.inj h
    exact .answers hpc
  case h_5 c hpc =>
    obtain rfl := Option.some.inj h
    exact .silent hpc
  case h_6 c hpc => exact raises_segment (.inr ⟨c, hpc⟩) h
  case h_7 hpc =>
    split at h
    · exact absurd h (by simp)
    · rename_i hcalm
      obtain rfl := Option.some.inj h
      exact .wakes hpc (by simpa using hcalm) (loopHead_onward cls running _)
  case h_8 hpc =>
    obtain ⟨⟨⟨n, record⟩, l⟩, hget, rfl⟩ := Option.map_eq_some_iff.mp h
    show Segment cls running .get x (compose cls { x.resume with ledger := l } n record)
    unfold compose
    split
    · rename_i entry hentry
      exact .sends hpc hget hentry
    · rename_i exc hbad
      exact .spoils rfl hpc hget hbad (finish_finished cls _ _)
  case h_9 hpc =>
    split at h
    · exact absurd h (by simp)
    · rename_i hcalm
      obtain rfl := Option.some.inj h
      exact .idles hpc (by simpa using hcalm) (loopHead_onward cls running _)
  case h_10 n hpc =>
    obtain rfl := Option.some.inj h
    rw [hpc] at hh
    obtain ⟨l, hl, heq⟩ := acknowledge_eq cls (x.resume.log (.sendReturned n)) .sent
      (loopHead cls running) hs hh rfl
    rw [heq]
    exact .sent hpc hl (loopHead_onward cls running _)
  case h_11 exc n hpc =>
    obtain rfl := Option.some.inj h
    rw [hpc] at hh
    exact sendFail_segment hs hh hpc
  case h_12 n hpc | h_13 n hpc =>
    obtain rfl := Option.some.inj h
    rw [hpc] at hh
    obtain ⟨l, hl, heq⟩ := acknowledge_eq cls (x.resume.setClient none) .failed
      (loopHead cls running) hs hh rfl
    rw [heq]
    exact .torn hpc hl (loopHead_onward cls running _)
  case h_14 e hpc =>
    obtain rfl := Option.some.inj h
    exact @Segment.closed cls running _ x e [] hpc (.inl rfl)
  case h_15 exc e hpc =>
    obtain rfl := Option.some.inj h
    exact .closed hpc (.inr ⟨exc, rfl⟩)
  case h_16 =>
    split at h
    · rename_i hc
      exact interrupt_segment rfl hs hh hc h
    · exact absurd h (by simp)
  case h_17 => exact absurd h (by simp)

-- ---------------------------------------------------------------------------
-- The queue
-- ---------------------------------------------------------------------------

/-- What going on to the next suspension leaves alone. -/
structure Frame (x y : ClientWorker) : Prop where
  ledger : y.ledger = x.ledger
  hand : y.pc.hand = none
  ownsClient : y.ownsClient = x.ownsClient
  injectedClient : y.injectedClient = x.injectedClient
  made : y.made = x.made
  cancelRequested : y.cancelRequested = x.cancelRequested

theorem Finished.frame {e : TaskEnd} (h : Finished cls x e y) : Frame x y := by
  cases h <;> exact ⟨rfl, rfl, rfl, rfl, rfl, rfl⟩

theorem Onward.frame (h : Onward cls running x y) : Frame x y := by
  cases h with
  | returns _ _ finished => exact finished.frame
  | _ => exact ⟨rfl, rfl, rfl, rfl, rfl, rfl⟩

/-- The calls made on the way to the end. -/
theorem Finished.history {e : TaskEnd} (h : Finished cls x e y) :
    ∃ new, y.history = new ++ x.history ∧
      ∀ e ∈ new, e = .disconnectCalled ∨ ∃ c, x.client = some c ∧ e = .closeTried c := by
  cases h with
  | injected _ => exact ⟨[], rfl, by simp⟩
  | nothing _ _ => exact ⟨[.disconnectCalled], rfl, by simp⟩
  | custom _ _ _ => exact ⟨[.disconnectCalled], rfl, by simp⟩
  | @closes c _ client => exact ⟨[.closeTried c, .disconnectCalled], rfl, by simp [client]⟩

/-- The entries a segment acknowledges, and with which outcome. -/
def Owed (x : ClientWorker) (n : Nat) (f : Outcome) : Prop :=
  x.pc = .sending n ∧ (f = .sent ∨ f = .failed ∨ (f = .interrupted ∧ x.cancelRequested = true)) ∨
    x.pc = .disconnecting n ∧ f = .failed

/-- A segment takes the next record, or acknowledges the one in hand, or loses a
record it cannot render. -/
theorem Segment.moves (h : Segment cls running a x y) :
    Ledger.Moves (Owed x) (a = .get) (x.pc.hand, x.ledger) (y.pc.hand, y.ledger) := by
  have quiet : ∀ {l : Ledger LogRecord Outcome}, x.pc.hand = none → y.pc.hand = none →
      l = x.ledger → Ledger.Moves (Owed x) (a = .get) (x.pc.hand, x.ledger) (y.pc.hand, l) := by
    intro l hx hy hl
    rw [hx, hy, hl]
  have ack : ∀ {n : Nat} {f : Outcome} {l l' : Ledger LogRecord Outcome}, x.pc.hand = some n →
      Owed x n f → x.ledger.ack n f = some l → l' = l → y.pc.hand = none →
      Ledger.Moves (Owed x) (a = .get) (x.pc.hand, x.ledger) (y.pc.hand, l') := by
    intro n f l l' hx hf hl hl' hy
    rw [hx, hy, hl']
    exact .single (.ack hf hl)
  cases h with
  | start pc _ on => exact quiet (by rw [pc]; rfl) on.frame.hand on.frame.ledger
  | wakes pc _ on => exact quiet (by rw [pc]; rfl) on.frame.hand on.frame.ledger
  | idles pc _ on => exact quiet (by rw [pc]; rfl) on.frame.hand on.frame.ledger
  | probes _ pc => exact quiet (by rw [pc]; rfl) rfl rfl
  | connects pc _ => exact quiet (by rw [pc]; rfl) rfl rfl
  | answers pc | silent pc | closed pc _ => exact quiet (by rw [pc]; rfl) rfl rfl
  | raises pc _ =>
    rcases pc with pc | ⟨c, pc⟩ <;> exact quiet (by rw [pc]; rfl) rfl rfl
  | abandoned _ _ pc =>
    rcases pc with pc | ⟨e, pc⟩ <;> exact quiet (by rw [pc]; rfl) rfl rfl
  | interrupted _ _ pc finished =>
    refine quiet ?_ finished.frame.hand finished.frame.ledger
    cases hpc : x.pc <;> rw [hpc] at pc <;> first | rfl | exact pc.elim
  | sends pc get rendered =>
    rw [pc]
    exact .single (.take get)
  | spoils act pc get _ finished =>
    rw [pc, finished.frame.hand, finished.frame.ledger]
    exact Relation.ReflTransGen.head (.take get) (.single (.lose act))
  | tears pc _ _ =>
    show Ledger.Moves _ _ (x.pc.hand, x.ledger) (some _, x.ledger)
    rw [show x.pc.hand = _ from congrArg ClientPc.hand pc]
    exact .refl
  | sent pc hack on =>
    exact ack (by rw [pc]; rfl) (.inl ⟨pc, .inl rfl⟩) hack on.frame.ledger on.frame.hand
  | fails pc _ hack on =>
    exact ack (by rw [pc]; rfl) (.inl ⟨pc, .inr (.inl rfl)⟩) hack on.frame.ledger on.frame.hand
  | torn pc hack on =>
    exact ack (by rw [pc]; rfl) (.inr ⟨pc, rfl⟩) hack on.frame.ledger on.frame.hand
  | interruptedSend request pc hack finished =>
    rcases pc with ⟨pc, rfl⟩ | ⟨pc, rfl⟩
    · exact ack (by rw [pc]; rfl) (.inl ⟨pc, .inr (.inr ⟨rfl, request⟩)⟩) hack
        finished.frame.ledger finished.frame.hand
    · exact ack (by rw [pc]; rfl) (.inr ⟨pc, rfl⟩) hack finished.frame.ledger finished.frame.hand

end ClientWorker

namespace ClientRun

variable {cls : BrokerClass} {injected : Option Nat} {s t : ClientRun} {a : Act}

/-- The steps of a run; what is not the worker's leaves its calls alone. -/
inductive Stepped (cls : BrokerClass) (s t : ClientRun) (a : Act) : Prop
  | enqueue {record : LogRecord} {l : Ledger LogRecord Outcome} (is : a = .enqueue record)
      (put : s.worker.ledger.put record = some l)
      (eq : t = { s with worker := { s.worker with ledger := l } })
  | other {request : Bool} (is : (∃ b, a = .setRunning b) ∨ a = .cancel)
      (calm : a ≠ .cancel → request = s.worker.cancelRequested)
      (eq : t.worker = { s.worker with cancelRequested := request })
  | clear {e : TaskEnd} {l : Ledger LogRecord Outcome} (is : a = .clear) (pc : s.worker.pc = .ended e)
      (cleared : s.worker.ledger.clear .dropped = some l)
      (eq : t = { s with worker := { s.worker with ledger := l } })
  | restart {e : TaskEnd} (is : a = .restart) (pc : s.worker.pc = .ended e)
      (eq : t = { s with
        worker :=
          { s.worker with pc := .created, connectDelay := connectRetryBase, cancelRequested := false } })
  | worker {act : ClientAct} (is : a = .worker act) (running : t.running = s.running)
      (segment : ClientWorker.Segment cls s.running act s.worker t.worker)

/-- The queue agrees with its history, and the record in hand awaits its
acknowledgement. -/
structure Sound (s : ClientRun) : Prop where
  ledger : s.worker.ledger.Sound
  holds : s.worker.ledger.Holds s.worker.pc.hand

theorem Sound.stepped (hs : s.Sound) (h : s.step cls a = some t) : Stepped cls s t a := by
  cases a with
  | enqueue record =>
    obtain ⟨l, hput, rfl⟩ := Option.map_eq_some_iff.mp h
    exact .enqueue rfl hput rfl
  | setRunning b =>
    obtain rfl := Option.some.inj h
    exact .other (.inl ⟨b, rfl⟩) (fun _ => rfl) rfl
  | cancel =>
    obtain rfl := Option.some.inj h
    exact .other (.inr rfl) (fun hne => absurd rfl hne) rfl
  | clear =>
    rw [step] at h
    split at h
    · rename_i e hpc
      obtain ⟨l, hl, rfl⟩ := Option.map_eq_some_iff.mp h
      exact .clear rfl hpc hl rfl
    · exact absurd h (by simp)
  | restart =>
    rw [step] at h
    split at h
    · rename_i e hpc
      obtain rfl := Option.some.inj h
      exact .restart rfl hpc rfl
    · exact absurd h (by simp)
  | worker act =>
    obtain ⟨x, hx, rfl⟩ := Option.map_eq_some_iff.mp h
    exact .worker rfl rfl (ClientWorker.step_segment hs.ledger hs.holds hx)

theorem Sound.step (hs : s.Sound) (h : s.step cls a = some t) : t.Sound := by
  cases hs.stepped h with
  | enqueue _ put eq =>
    obtain ⟨-, -, htaken, hacks, -, -⟩ := Ledger.put_eq_some put
    rw [eq]
    refine ⟨hs.ledger.put put, fun n hn => ?_⟩
    show n < _ ∧ _
    rw [htaken, hacks]
    exact hs.holds n hn
  | other _ _ eq =>
    refine ⟨?_, ?_⟩
    · rw [eq]
      exact hs.ledger
    · rw [eq]
      exact hs.holds
  | clear _ pc cleared eq =>
    obtain ⟨l, hl, hsound, -⟩ := hs.ledger.clear (f := .dropped)
    obtain rfl := Option.some.inj (hl.symm.trans cleared)
    rw [eq]
    refine ⟨hsound, fun n hn => ?_⟩
    rw [show s.worker.pc = _ from pc] at hn
    cases hn
  | restart _ _ eq =>
    rw [eq]
    exact ⟨hs.ledger, fun n hn => absurd hn (by simp [ClientPc.hand])⟩
  | worker _ _ segment =>
    obtain ⟨hl, hh⟩ := segment.moves.sound hs.ledger hs.holds
    exact ⟨hl, hh⟩

theorem sound {ok : ClientRun → Act → Prop} (h : (machine cls injected).Reachable ok s) : s.Sound := by
  refine Machine.invariant (I := Sound) ?_ (fun s a t hs _ hstep => hs.step hstep) h
  rintro s ⟨maxsize, running, rfl⟩
  exact ⟨.new maxsize, fun n hn => absurd hn (by simp [initial, ClientPc.hand])⟩

end ClientRun

end ScietexLogging
