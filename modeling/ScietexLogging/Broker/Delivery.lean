import Mathlib.Data.List.Nodup
import ScietexLogging.Broker.Backoff

/-!
# Broker — in order, at most once, on a live client

A worker that owns its client and is left to finish its queue hands every record
to `send_message` once, in the order of the queue, through a client that is there
and through which no send has failed; it reports the records whose send raised and
no others, and acknowledges each record after its send was over.

`Tally` counts the calls of a history; what the worker does next moves it on.
-/

namespace ScietexLogging

open Asyncio

-- ---------------------------------------------------------------------------
-- Counting calls
-- ---------------------------------------------------------------------------

namespace ClientEvent

/-- The record `send_message` is called with. -/
def sent? : ClientEvent → Option Nat
  | .sendCalled n _ _ => some n
  | _ => none

/-- A report about record `n`. -/
def isReportOf (n : Nat) : ClientEvent → Bool
  | .reported m _ => m == some n
  | _ => false

/-- Nothing to do with a particular record. -/
def Aside : ClientEvent → Prop
  | .sendCalled _ _ _ | .sendReturned _ | .sendRaised _ | .reported (some _) _ | .taskDone _ => False
  | _ => True

end ClientEvent

/-- The entry sent is that of the record. -/
def SendsEntry (log : List LogRecord) (e : ClientEvent) : Prop :=
  ∀ n entry c, e = .sendCalled n entry c → ∃ record, log[n]? = some record ∧ logEntry record = .ok entry

/-- A record is acknowledged after its send was over. -/
def DoneAfter (past : List ClientEvent) (e : ClientEvent) : Prop :=
  ∀ n, e = .taskDone n → .sendReturned n ∈ past ∨ .sendRaised n ∈ past

/-- The calls made for the first `taken` records. The send of `pending` has not
ended; `hand` has not been acknowledged. -/
structure Tally (h : List ClientEvent) (log : List LogRecord) (taken : Nat)
    (pending hand : Option Nat) : Prop where
  sent : h.filterMap ClientEvent.sent? = (List.range taken).reverse
  entries : Each (fun _ e => SendsEntry log e) h
  concluded : ∀ n, h.count (.sendReturned n) + h.count (.sendRaised n) =
    if n < taken ∧ pending ≠ some n then 1 else 0
  reported : ∀ n, h.countP (ClientEvent.isReportOf n) = h.count (.sendRaised n)
  done : ∀ n, h.count (.taskDone n) = if n < taken ∧ hand ≠ some n then 1 else 0
  after : Each DoneAfter h

namespace Tally

variable {h : List ClientEvent} {log : List LogRecord} {taken : Nat} {pending hand : Option Nat}

theorem nil : Tally [] [] 0 none none :=
  ⟨rfl, trivial, fun n => by simp, fun n => by simp, fun n => by simp, trivial⟩

/-- Later records change nothing. -/
theorem grow (ht : Tally h log taken pending hand) (record : LogRecord) :
    Tally h (log ++ [record]) taken pending hand := by
  refine ⟨ht.sent, ht.entries.mono fun _ e he n entry c heq => ?_, ht.concluded, ht.reported, ht.done,
    ht.after⟩
  obtain ⟨r, hr, hentry⟩ := he n entry c heq
  have hlt : n < log.length := (List.getElem?_eq_some_iff.mp hr).1
  exact ⟨r, by rw [List.getElem?_append_left hlt, hr], hentry⟩

theorem aside (ht : Tally h log taken pending hand) {e : ClientEvent} (he : e.Aside) :
    Tally (e :: h) log taken pending hand := by
  have hne : ∀ e', ¬ e'.Aside → (e :: h).count e' = h.count e' := by
    intro e' he'
    rw [List.count_cons_of_ne]
    rintro rfl
    exact he' he
  refine ⟨?_, ⟨?_, ht.entries⟩, fun n => ?_, fun n => ?_, fun n => ?_, ⟨?_, ht.after⟩⟩
  · rw [← ht.sent]
    cases e with
    | sendCalled _ _ _ => exact he.elim
    | _ => rfl
  · rintro n entry c rfl
    exact he.elim
  · rw [hne _ id, hne _ id, ht.concluded]
  · rw [hne _ id, ← ht.reported, List.countP_cons_of_neg]
    cases e with
    | reported m _ =>
      cases m with
      | none => simp [ClientEvent.isReportOf]
      | some _ => exact he.elim
    | _ => simp [ClientEvent.isReportOf]
  · rw [hne _ id, ht.done]
  · rintro n rfl
    exact he.elim

theorem append (ht : Tally h log taken pending hand) {new : List ClientEvent}
    (hnew : ∀ e ∈ new, e.Aside) : Tally (new ++ h) log taken pending hand := by
  induction new with
  | nil => exact ht
  | cons e new ih =>
    exact (ih fun e' he' => hnew e' (List.mem_cons_of_mem _ he')).aside (hnew e List.mem_cons_self)

/-- The next record is sent. -/
theorem send (ht : Tally h log taken none none) {record : LogRecord} {entry : LogEntry}
    (hlog : log[taken]? = some record) (hentry : logEntry record = .ok entry) (c : Option Nat) :
    Tally (.sendCalled taken entry c :: h) log (taken + 1) (some taken) (some taken) := by
  have hif : ∀ n, (if n < taken + 1 ∧ some taken ≠ some n then 1 else 0) =
      if n < taken ∧ (none : Option Nat) ≠ some n then 1 else 0 := by
    intro n
    by_cases hn : n = taken
    · rw [if_neg (by simp [hn]), if_neg (by simp [hn])]
    · have hiff : n < taken + 1 ∧ some taken ≠ some n ↔ n < taken ∧ (none : Option Nat) ≠ some n := by
        simp only [ne_eq, Option.some.injEq, reduceCtorEq, not_false_eq_true, and_true]
        omega
      simp only [hiff]
  refine ⟨?_, ⟨?_, ht.entries⟩, fun n => ?_, fun n => ?_, fun n => ?_, ⟨?_, ht.after⟩⟩
  · rw [List.range_succ, List.reverse_append, ← ht.sent]
    rfl
  · intro n entry' c' heq
    obtain ⟨rfl, rfl, -⟩ := ClientEvent.sendCalled.inj heq
    exact ⟨record, hlog, hentry⟩
  · rw [List.count_cons_of_ne (by simp), List.count_cons_of_ne (by simp), ht.concluded, hif]
  · rw [List.count_cons_of_ne (by simp), ← ht.reported, List.countP_cons_of_neg]
    simp [ClientEvent.isReportOf]
  · rw [List.count_cons_of_ne (by simp), ht.done, hif]
  · intro n heq
    exact absurd heq (by simp)

/-- The weight of the pending send moves to its end. -/
private theorem conclude_if {n : Nat} (hn : n < taken) (m : Nat) :
    (if m < taken ∧ (none : Option Nat) ≠ some m then 1 else 0) =
      (if m < taken ∧ some n ≠ some m then 1 else 0) + if n = m then 1 else 0 := by
  by_cases hm : n = m
  · subst hm
    simp [hn]
  · simp [hm]

/-- The send under way returns. -/
theorem sendReturned {n : Nat} (ht : Tally h log taken (some n) hand) (hn : n < taken) :
    Tally (.sendReturned n :: h) log taken none hand := by
  refine ⟨ht.sent, ⟨?_, ht.entries⟩, fun m => ?_, fun m => ?_, fun m => ?_, ⟨?_, ht.after⟩⟩
  · intro m entry c heq
    exact absurd heq (by simp)
  · rw [conclude_if hn, ← ht.concluded, List.count_cons, List.count_cons_of_ne (by simp)]
    by_cases hm : n = m
    · simp [hm]
      omega
    · simp [hm]
  · rw [List.count_cons_of_ne (by simp), ← ht.reported, List.countP_cons_of_neg]
    simp [ClientEvent.isReportOf]
  · rw [List.count_cons_of_ne (by simp), ht.done]
  · intro m heq
    exact absurd heq (by simp)

/-- The send under way raises, and is reported. -/
theorem sendRaised {n : Nat} (ht : Tally h log taken (some n) hand) (hn : n < taken) (exc : String) :
    Tally (.reported (some n) exc :: .sendRaised n :: h) log taken none hand := by
  refine ⟨ht.sent, ⟨?_, ?_, ht.entries⟩, fun m => ?_, fun m => ?_, fun m => ?_, ⟨?_, ?_, ht.after⟩⟩
  · intro m entry c heq
    exact absurd heq (by simp)
  · intro m entry c heq
    exact absurd heq (by simp)
  · rw [conclude_if hn, ← ht.concluded, List.count_cons_of_ne (by simp),
      List.count_cons_of_ne (by simp), List.count_cons_of_ne (by simp), List.count_cons]
    by_cases hm : n = m
    · simp [hm]
      omega
    · simp [hm]
  · rw [List.count_cons_of_ne (by simp), List.count_cons, List.countP_cons,
      List.countP_cons_of_neg (by simp [ClientEvent.isReportOf]), ht.reported]
    by_cases hm : n = m
    · simp [hm, ClientEvent.isReportOf]
    · simp [hm, ClientEvent.isReportOf]
  · rw [List.count_cons_of_ne (by simp), List.count_cons_of_ne (by simp), ht.done]
  · intro m heq
    exact absurd heq (by simp)
  · intro m heq
    exact absurd heq (by simp)

/-- The record in hand is acknowledged. -/
theorem taskDone {n : Nat} (ht : Tally h log taken none (some n)) (hn : n < taken) :
    Tally (.taskDone n :: h) log taken none none := by
  refine ⟨ht.sent, ⟨?_, ht.entries⟩, fun m => ?_, fun m => ?_, fun m => ?_, ⟨?_, ht.after⟩⟩
  · intro m entry c heq
    exact absurd heq (by simp)
  · rw [List.count_cons_of_ne (by simp), List.count_cons_of_ne (by simp), ht.concluded]
  · rw [List.count_cons_of_ne (by simp), ← ht.reported, List.countP_cons_of_neg]
    simp [ClientEvent.isReportOf]
  · rw [conclude_if hn, ← ht.done, List.count_cons]
    by_cases hm : n = m
    · simp [hm]
    · simp [hm]
  · intro m heq
    obtain rfl := ClientEvent.taskDone.inj heq
    -- the send of the record was over, once
    have hone := ht.concluded n
    rw [if_pos ⟨hn, by simp⟩] at hone
    by_cases hret : .sendReturned n ∈ h
    · exact .inl hret
    · rw [List.count_eq_zero_of_not_mem hret, Nat.zero_add] at hone
      exact .inr (List.count_pos_iff.mp (by omega))

/-- Only a record that was taken out of the queue is sent. -/
theorem raised_lt (ht : Tally h log taken pending hand) {n : Nat} (hn : .sendRaised n ∈ h) :
    n < taken := by
  have hpos := List.count_pos_iff.mpr hn
  have hle := ht.concluded n
  by_contra hge
  rw [if_neg (by omega)] at hle
  omega

end Tally

-- ---------------------------------------------------------------------------
-- The client sends go through
-- ---------------------------------------------------------------------------

/-- A connection was made since the last send that raised. -/
def Connected : List ClientEvent → Prop
  | [] => False
  | .connected _ :: _ => True
  | .sendRaised _ :: _ => False
  | _ :: past => Connected past

/-- No send through `c` has raised. -/
def Unfailed (h : List ClientEvent) (c : Nat) : Prop :=
  ∀ n entry, .sendCalled n entry (some c) ∈ h → .sendRaised n ∉ h

/-- A send goes through a client, connected since the last failure, through which no
send has raised. -/
def SendsLive (past : List ClientEvent) (e : ClientEvent) : Prop :=
  ∀ n entry c, e = .sendCalled n entry c → ∃ id, c = some id ∧ Connected past ∧ Unfailed past id

/-- Nothing to do with sends and connections. -/
def ClientEvent.Off : ClientEvent → Prop
  | .sendCalled _ _ _ | .sendRaised _ | .connected _ => False
  | _ => True

/-- The clients seen so far are among the first `made`. -/
structure Line (h : List ClientEvent) (made : Nat) : Prop where
  bound : ∀ n entry c, .sendCalled n entry (some c) ∈ h → c < made
  live : Each SendsLive h

/-- `self.client` is fit for a send. -/
def Ready (h : List ClientEvent) (made : Nat) (client : Option Nat) : Prop :=
  ∀ c, client = some c → c < made ∧ Connected h ∧ Unfailed h c

section

variable {h p : List ClientEvent} {made : Nat} {client : Option Nat}

theorem Line.push (hl : Line h made) (hnew : ∀ e ∈ p, ∀ n entry c, e ≠ .sendCalled n entry c)
    {made' : Nat} (hle : made ≤ made') : Line (p ++ h) made' := by
  refine ⟨fun n entry c hc => ?_, ?_⟩
  · rcases List.mem_append.mp hc with hc | hc
    · exact absurd rfl (hnew _ hc n entry (some c))
    · exact lt_of_lt_of_le (hl.bound n entry c hc) hle
  · induction p with
    | nil => exact hl.live
    | cons e p ih =>
      refine ⟨fun n entry c heq => absurd heq (hnew e List.mem_cons_self n entry c), ?_⟩
      exact ih fun e' he' => hnew e' (List.mem_cons_of_mem _ he')

theorem ClientEvent.Off.not_send {e : ClientEvent} (he : e.Off) (n : Nat) (entry : LogEntry)
    (c : Option Nat) : e ≠ .sendCalled n entry c := by
  rintro rfl
  exact he

theorem Connected.push (hc : Connected h) (hnew : ∀ e ∈ p, e.Off) : Connected (p ++ h) := by
  induction p with
  | nil => exact hc
  | cons e p ih =>
    have he := hnew e List.mem_cons_self
    have hrest := ih fun e' he' => hnew e' (List.mem_cons_of_mem _ he')
    cases e with
    | sendCalled _ _ _ | sendRaised _ | connected _ => exact he.elim
    | _ => exact hrest

theorem Unfailed.push {c : Nat} (hu : Unfailed h c)
    (hnew : ∀ e ∈ p, (∀ n entry, e ≠ .sendCalled n entry (some c)) ∧ ∀ n, e ≠ .sendRaised n) :
    Unfailed (p ++ h) c := by
  intro n entry hcall hraised
  rcases List.mem_append.mp hcall with hcall | hcall
  · exact (hnew _ hcall).1 n entry rfl
  · rcases List.mem_append.mp hraised with hraised | hraised
    · exact (hnew _ hraised).2 n rfl
    · exact hu n entry hcall hraised

theorem Ready.push (hr : Ready h made client) (hnew : ∀ e ∈ p, e.Off) :
    Ready (p ++ h) made client := by
  intro c hc
  obtain ⟨hlt, hcon, hun⟩ := hr c hc
  refine ⟨hlt, hcon.push hnew, hun.push fun e he => ⟨fun n entry => ?_, fun n => ?_⟩⟩
  · exact (hnew e he).not_send n entry (some c)
  · rintro rfl
    exact (hnew _ he).elim

/-- A new connection, by a client no send went through. -/
theorem Ready.connect {c : Nat} (hlt : c < made)
    (hfresh : ∀ n entry, .sendCalled n entry (some c) ∉ h) :
    Ready (.connected (some c) :: h) made (some c) := by
  intro d hd
  obtain rfl := Option.some.inj hd
  refine ⟨hlt, trivial, fun n entry hcall => ?_⟩
  exact absurd ((List.mem_cons.mp hcall).resolve_left (by simp)) (hfresh n entry)

/-- A send through a client fit for it. -/
theorem Ready.send (hr : Ready h made client) (hl : Line h made) (hc : client ≠ none) {n : Nat}
    (hn : .sendRaised n ∉ h) (entry : LogEntry) :
    Line (.sendCalled n entry client :: h) made ∧
      Ready (.sendCalled n entry client :: h) made client := by
  obtain ⟨c, rfl⟩ := Option.ne_none_iff_exists'.mp hc
  obtain ⟨hlt, hcon, hun⟩ := hr c rfl
  refine ⟨⟨fun m entry' d hd => ?_, ⟨fun m entry' d heq => ?_, hl.live⟩⟩, fun d hd => ⟨?_, hcon, ?_⟩⟩
  · rcases List.mem_cons.mp hd with hd | hd
    · obtain ⟨-, -, hd⟩ := ClientEvent.sendCalled.inj hd
      rw [Option.some.inj hd]
      exact hlt
    · exact hl.bound m entry' d hd
  · exact ⟨c, (ClientEvent.sendCalled.inj heq).2.2.symm, hcon, hun⟩
  · obtain rfl := Option.some.inj hd
    exact hlt
  · obtain rfl := Option.some.inj hd
    intro m entry' hcall hraised
    have hraised' := (List.mem_cons.mp hraised).resolve_left (by simp)
    rcases List.mem_cons.mp hcall with hcall | hcall
    · rw [(ClientEvent.sendCalled.inj hcall).1] at hraised'
      exact hn hraised'
    · exact hun m entry' hcall hraised'

end

-- ---------------------------------------------------------------------------
-- The invariant
-- ---------------------------------------------------------------------------

def ClientPc.pending : ClientPc → Option Nat
  | .sending n => some n
  | _ => none

namespace ClientWorker

variable {cls : BrokerClass} {running : Bool} {a : ClientAct} {x y : ClientWorker}

structure Delivering (x : ClientWorker) : Prop where
  owns : x.ownsClient = true
  calm : x.cancelRequested = false
  tally : Tally x.history x.ledger.log x.ledger.taken x.pc.pending x.pc.hand
  line : Line x.history x.made
  ready : ¬ x.pc.Closing → Ready x.history x.made x.client
  pinged : ∀ c, x.pc = .pinging c →
    c < x.made ∧ ∀ n entry, .sendCalled n entry (some c) ∉ x.history
  idle : (x.pc = .building ∨ ∃ c, x.pc = .pinging c ∨ x.pc = .discarding c) → x.client = none
  leaving : ∀ e, x.pc = .closing e ∨ x.pc = .ended e → e = .returned

/-- The worker leaves its loop by itself. -/
private theorem Finished.delivering (h : Finished cls x .returned y) (howns : x.ownsClient = true)
    (hcalm : x.cancelRequested = false)
    (ht : Tally x.history x.ledger.log x.ledger.taken none none) (hl : Line x.history x.made) :
    y.Delivering := by
  have hleave : ∀ {pc : ClientPc}, pc = .closing .returned ∨ pc = .ended .returned →
      ∀ e, pc = .closing e ∨ pc = .ended e → e = .returned := by
    rintro pc (rfl | rfl) e (he | he) <;> cases he <;> rfl
  cases h with
  | injected owns =>
    rw [howns] at owns
    exact absurd owns (by simp)
  | @closes c _ _ =>
    have haside : ∀ e ∈ [ClientEvent.closeTried c, .disconnectCalled], e.Aside := by
      simp [ClientEvent.Aside]
    exact ⟨howns, hcalm, ht.append haside,
      hl.push (p := [.closeTried c, .disconnectCalled]) (by simp) (Nat.le_refl _),
      fun hno => absurd trivial hno, by simp [moveTo], by simp [moveTo], hleave (.inl rfl)⟩
  | nothing _ _ =>
    exact ⟨howns, hcalm, ht.aside (e := .disconnectCalled) trivial,
      hl.push (p := [.disconnectCalled]) (by simp) (Nat.le_refl _),
      fun _ c hc => absurd hc (by simp [leave, moveTo, setClient]), by simp [leave, moveTo],
      by simp [leave, moveTo], hleave (.inr rfl)⟩
  | custom _ _ _ =>
    exact ⟨howns, hcalm, ht.aside (e := .disconnectCalled) trivial,
      hl.push (p := [.disconnectCalled]) (by simp) (Nat.le_refl _),
      fun hno => absurd trivial hno, by simp [moveTo], by simp [moveTo], hleave (.inl rfl)⟩

private theorem Onward.delivering (h : Onward cls running x y) (howns : x.ownsClient = true)
    (hcalm : x.cancelRequested = false)
    (ht : Tally x.history x.ledger.log x.ledger.taken none none) (hl : Line x.history x.made)
    (hr : Ready x.history x.made x.client) : y.Delivering := by
  cases h with
  | getting _ =>
    exact ⟨howns, hcalm, ht, hl, fun _ => hr, by simp [moveTo], by simp [moveTo], by simp [moveTo]⟩
  | connects _ client =>
    exact ⟨howns, hcalm, ht.aside (e := .connectCalled) trivial,
      hl.push (p := [.connectCalled]) (by simp) (Nat.le_refl _),
      fun _ => hr.push (p := [.connectCalled]) (by simp [ClientEvent.Off]), by simp [moveTo],
      fun _ => client, by simp [moveTo]⟩
  | restored owns _ =>
    rw [howns] at owns
    exact absurd owns (by simp)
  | returns _ _ finished => exact finished.delivering howns hcalm ht hl

/-- `_connect` has returned with a client no send went through. -/
private theorem connect_delivering {x : ClientWorker} {c : Nat} (howns : x.ownsClient = true)
    (hcalm : x.cancelRequested = false)
    (ht : Tally x.history x.ledger.log x.ledger.taken none none) (hl : Line x.history x.made)
    (hlt : c < x.made) (hfresh : ∀ n entry, .sendCalled n entry (some c) ∉ x.history) :
    (x.afterConnect (some c)).Delivering :=
  ⟨howns, hcalm, ht.aside (e := .connected (some c)) trivial,
    hl.push (p := [.connected (some c)]) (by simp) (Nat.le_refl _),
    fun _ => .connect hlt hfresh, by simp [afterConnect, moveTo], by simp [afterConnect, moveTo],
    by simp [afterConnect, moveTo]⟩

/-- A segment of a worker that is not disturbed, and whose next record can be
rendered, keeps the count. -/
theorem Segment.delivering (h : Segment cls running a x y) (hi : x.Delivering)
    (hholds : x.ledger.Holds x.pc.hand)
    (hclient : x.pc = .getting ∨ (∃ n, x.pc = .sending n) → x.client ≠ none)
    (hsound : x.ledger.Sound)
    (hok : ∀ n record l exc, a = .get → x.ledger.get = some ((n, record), l) →
      logEntry record ≠ .error exc) : y.Delivering := by
  obtain ⟨howns, hcalm, ht, hl, hr, hping, hidle, hleave⟩ := hi
  cases h with
  | @start _ pc _ on =>
    rw [pc] at ht hr
    exact on.delivering howns hcalm (ht.aside (e := .started) trivial)
      (hl.push (p := [.started]) (by simp) (Nat.le_refl _))
      ((hr id).push (p := [.started]) (by simp [ClientEvent.Off]))
  | probes _ pc =>
    have hnone := hidle (.inl pc)
    rw [pc] at ht
    refine ⟨howns, rfl, ht.aside (e := .obtained x.made) trivial,
      hl.push (p := [.obtained x.made]) (by simp) (Nat.le_succ _), fun _ c hc => ?_, ?_,
      fun _ => hnone, by simp [moveTo]⟩
    · have : x.client = some c := hc
      rw [hnone] at this
      exact absurd this (by simp)
    · intro c hc
      obtain rfl := ClientPc.pinging.inj hc
      refine ⟨Nat.lt_succ_self _, fun n entry hmem => ?_⟩
      exact Nat.lt_irrefl _ (hl.bound n entry _ ((List.mem_cons.mp hmem).resolve_left (by simp)))
  | connects pc _ =>
    rw [pc] at ht
    refine connect_delivering howns rfl (ht.aside (e := .obtained x.made) trivial)
      (hl.push (p := [.obtained x.made]) (by simp) (Nat.le_succ _)) (Nat.lt_succ_self _) ?_
    intro n entry hmem
    exact Nat.lt_irrefl _ (hl.bound n entry _ ((List.mem_cons.mp hmem).resolve_left (by simp)))
  | @answers c pc =>
    obtain ⟨hlt, hfresh⟩ := hping c pc
    rw [pc] at ht
    exact connect_delivering (x := x.resume) howns rfl ht hl hlt hfresh
  | @silent c pc =>
    have hnone := hidle (.inr ⟨c, .inl pc⟩)
    rw [pc] at ht
    refine ⟨howns, rfl, ht.aside (e := .closeTried c) trivial,
      hl.push (p := [.closeTried c]) (by simp) (Nat.le_refl _), fun _ d hd => ?_, by simp [moveTo],
      fun _ => hnone, by simp [moveTo]⟩
    have : x.client = some d := hd
    rw [hnone] at this
    exact absurd this (by simp)
  | @raises exc jitter pc _ =>
    have hnone : x.client = none := by
      rcases pc with pc | ⟨d, pc⟩
      · exact hidle (.inl pc)
      · exact hidle (.inr ⟨d, .inr pc⟩)
    have ht' : Tally x.history x.ledger.log x.ledger.taken none none := by
      rcases pc with pc | ⟨d, pc⟩ <;>
      · rw [pc] at ht
        exact ht
    have haside : ∀ e ∈ [ClientEvent.slept x.connectDelay jitter, .reported none exc,
        .connectRaised exc], e.Aside := by simp [ClientEvent.Aside]
    refine ⟨howns, rfl, ht'.append haside, hl.push (p := [.slept x.connectDelay jitter,
      .reported none exc, .connectRaised exc]) (by simp) (Nat.le_refl _), fun _ c hc => ?_,
      by simp [moveTo], fun _ => hnone, by simp [moveTo]⟩
    have : x.client = some c := hc
    rw [hnone] at this
    exact absurd this (by simp)
  | wakes pc _ on =>
    rw [pc] at ht hr
    exact on.delivering howns hcalm ht hl (hr id)
  | @sends n record entry l pc get rendered =>
    have hserved := hclient (.inl pc)
    rw [pc] at ht hr
    obtain ⟨-, -, -, hrec⟩ := hsound.get get
    obtain ⟨rfl, hlog, htaken, -, -, -⟩ := Ledger.get_eq_some get
    rw [hlog] at hrec
    have hnew : .sendRaised x.ledger.taken ∉ x.history :=
      fun hmem => Nat.lt_irrefl _ (ht.raised_lt hmem)
    obtain ⟨hl', hr'⟩ := (hr id).send hl hserved hnew entry
    refine ⟨howns, rfl, ?_, hl', fun _ => hr', by simp [moveTo], by simp [moveTo], by simp [moveTo]⟩
    show Tally _ l.log l.taken _ _
    rw [hlog, htaken]
    exact ht.send hrec rendered x.client
  | spoils act _ get bad _ => exact absurd bad (hok _ _ _ _ act get)
  | idles pc _ on =>
    rw [pc] at ht hr
    exact on.delivering howns hcalm ht hl (hr id)
  | @sent _ n l pc ack on =>
    rw [pc] at ht hr hholds
    obtain ⟨hlt, -⟩ := hholds n rfl
    obtain ⟨-, hlog, htaken, -, -, -⟩ := Ledger.ack_eq_some ack
    have hnew : ∀ e ∈ [ClientEvent.taskDone n, .sendReturned n], e.Off := by simp [ClientEvent.Off]
    refine on.delivering howns rfl ?_ (hl.push (p := [.taskDone n, .sendReturned n]) (by simp)
      (Nat.le_refl _)) ((hr id).push hnew)
    show Tally _ l.log l.taken _ _
    rw [hlog, htaken]
    exact (ht.sendReturned hlt).taskDone hlt
  | @tears n exc pc _ _ =>
    rw [pc] at ht hholds
    obtain ⟨hlt, -⟩ := hholds n rfl
    have haside : ∀ e ∈ x.client.toList.map ClientEvent.closeTried, e.Aside := by
      intro e he
      obtain ⟨c, -, rfl⟩ := List.mem_map.mp he
      trivial
    have hnot : ∀ e ∈ x.client.toList.map ClientEvent.closeTried, ∀ m entry c,
        e ≠ .sendCalled m entry c := by
      intro e he m entry c
      obtain ⟨d, -, rfl⟩ := List.mem_map.mp he
      simp
    refine ⟨howns, rfl, ?_, ?_, fun hno => absurd trivial hno, by simp, by simp, by simp⟩
    · exact ((ht.sendRaised hlt exc).aside (e := .disconnectCalled) trivial).append haside
    · exact (hl.push (p := [.disconnectCalled, .reported (some n) exc, .sendRaised n]) (by simp)
        (Nat.le_refl _)).push hnot (Nat.le_refl _)
  | @fails _ n exc l called pc why _ _ =>
    have hserved := hclient (.inr ⟨n, pc⟩)
    rcases why with ⟨owns, -⟩ | ⟨-, hnone, -⟩
    · rw [howns] at owns
      exact absurd owns (by simp)
    · exact absurd hnone hserved
  | @torn _ n l pc ack on =>
    rw [pc] at ht hholds
    obtain ⟨hlt, -⟩ := hholds n rfl
    obtain ⟨-, hlog, htaken, -, -, -⟩ := Ledger.ack_eq_some ack
    refine on.delivering howns rfl ?_ (hl.push (p := [.taskDone n]) (by simp) (Nat.le_refl _))
      fun c hc => absurd hc (by simp [acked, log, setClient])
    show Tally _ l.log l.taken _ _
    rw [hlog, htaken]
    exact ht.taskDone hlt
  | @closed e said pc said_eq =>
    have hret := hleave e (.inl pc)
    rw [pc] at ht
    have haside : ∀ e ∈ said, e.Aside := by
      rcases said_eq with rfl | ⟨exc, rfl⟩ <;> simp [ClientEvent.Aside]
    have hnot : ∀ e ∈ said, ∀ m entry c, e ≠ .sendCalled m entry c := by
      rcases said_eq with rfl | ⟨exc, rfl⟩ <;> simp
    refine ⟨howns, rfl, ht.append haside, hl.push hnot (Nat.le_refl _),
      fun _ c hc => absurd hc (by simp [leave, moveTo, setClient]), by simp [leave, moveTo],
      by simp [leave, moveTo], ?_⟩
    rintro e' (he | he)
    · exact absurd he (by simp [leave, moveTo])
    · exact (ClientPc.ended.inj he).symm.trans hret
  | interrupted _ request _ _ | interruptedSend request _ _ _ | abandoned _ request _ =>
    rw [hcalm] at request
    exact absurd request (by simp)

/-- The worker leaves its loop when logging has stopped and the queue is empty. -/
theorem Segment.leaves (h : Segment cls running a x y) (hcalm : x.cancelRequested = false)
    (hok : ∀ n record l exc, a = .get → x.ledger.get = some ((n, record), l) →
      logEntry record ≠ .error exc)
    (hx : ∀ e, x.pc ≠ .closing e) {e : TaskEnd} (hy : y.pc = .closing e ∨ y.pc = .ended e) :
    running = false ∧ y.ledger.queue.items = [] := by
  have on : ∀ {z : ClientWorker}, Onward cls running z y → running = false ∧ y.ledger.queue.items = [] := by
    intro z hon
    have hledger := hon.frame.ledger
    cases hon with
    | getting _ | connects _ _ | restored _ _ =>
      rcases hy with hy | hy <;> exact absurd hy (by simp [moveTo, afterConnect])
    | returns stopped empty _ =>
      rw [hledger]
      exact ⟨stopped, empty⟩
  cases h with
  | start _ _ hon | wakes _ _ hon | idles _ _ hon | sent _ _ hon | fails _ _ _ hon
  | torn _ _ hon => exact on hon
  | spoils act _ get bad _ => exact absurd bad (hok _ _ _ _ act get)
  | closed pc _ => exact absurd pc (hx _)
  | interrupted _ request _ _ | interruptedSend request _ _ _ | abandoned _ request _ =>
    rw [hcalm] at request
    exact absurd request (by simp)
  | probes _ _ | connects _ _ | answers _ | silent _ | raises _ _ | sends _ _ _ =>
    rcases hy with hy | hy <;> exact absurd hy (by simp [moveTo, afterConnect])
  | tears _ _ _ => rcases hy with hy | hy <;> exact absurd hy (by simp)

end ClientWorker

-- ---------------------------------------------------------------------------
-- Every run
-- ---------------------------------------------------------------------------

namespace ClientRun

variable {cls : BrokerClass} {s t : ClientRun} {a : Act}

/-- Nobody cancels the worker, the record it dequeues can be rendered, and it has left nothing
for `stop_logging` to throw away. -/
def Undisturbed (s : ClientRun) : Act → Prop
  | .cancel => False
  | .worker .get => ∀ p ∈ s.worker.ledger.get, (logEntry p.1.2).toBool = true
  | .clear => s.worker.ledger.queue.items.isEmpty = true
  | _ => True

instance (s : ClientRun) (a : Act) : Decidable (s.Undisturbed a) := by
  unfold Undisturbed
  split <;> infer_instance

private theorem Undisturbed.renders {act : ClientAct} (hok : s.Undisturbed (.worker act)) :
    ∀ n record l exc, act = .get → s.worker.ledger.get = some ((n, record), l) →
      logEntry record ≠ .error exc := by
  rintro n record l exc rfl hget hbad
  have := hok _ hget
  rw [hbad] at this
  exact absurd this (by simp [Except.toBool])

theorem delivering (h : (machine cls none).Reachable Undisturbed s) : s.worker.Delivering := by
  refine Machine.invariant_with (J := fun s => s.Sound ∧ s.worker.OutageInv)
    (I := fun s => s.worker.Delivering) (fun s hs => ⟨sound hs, outageInv hs⟩) ?_ ?_ h
  · rintro s ⟨maxsize, running, rfl⟩
    exact ⟨rfl, rfl, .nil, ⟨by simp [initial], trivial⟩, fun _ c hc => absurd hc (by simp [initial]),
      by simp [initial], by simp [initial], by simp [initial]⟩
  · rintro s a t ⟨hs, ho⟩ hi hok hstep
    cases hs.stepped hstep with
    | @enqueue record l _ put eq =>
      obtain ⟨-, hlog, htaken, -, -, -⟩ := Ledger.put_eq_some put
      have ht := hi.tally.grow record
      rw [← hlog, ← htaken] at ht
      rw [eq]
      exact ⟨hi.owns, hi.calm, ht, hi.line, hi.ready, hi.pinged, hi.idle, hi.leaving⟩
    | other is calm eq =>
      have hne : a ≠ .cancel := by
        rintro rfl
        exact hok
      rw [eq]
      exact ⟨hi.owns, (calm hne).trans hi.calm, hi.tally, hi.line, hi.ready, hi.pinged, hi.idle,
        hi.leaving⟩
    | clear is _ cleared eq =>
      subst is
      have hempty := List.isEmpty_iff.mp hok
      obtain rfl : s.worker.ledger = _ := Option.some.inj (by rw [← cleared, Ledger.clear, hempty]; rfl)
      rw [eq]
      exact hi
    | restart _ pc eq =>
      have ht := hi.tally
      have hr := hi.ready (by rw [pc]; exact id)
      rw [pc] at ht
      rw [eq]
      exact ⟨hi.owns, rfl, ht, hi.line, fun _ => hr, by simp, by simp, by simp⟩
    | worker is _ segment =>
      subst is
      exact segment.delivering hi hs.holds ho.client hs.ledger hok.renders

/-- What the worker owes its records. -/
structure Delivered (s : ClientRun) : Prop where
  /-- The records taken were sent, each once and in the order of the queue. -/
  sent : (s.worker.history.filterMap ClientEvent.sent?).reverse = List.range s.worker.ledger.taken
  entries : Each (fun _ e => SendsEntry s.worker.ledger.log e) s.worker.history
  live : Each SendsLive s.worker.history
  /-- A send that is over returned, or raised. -/
  concluded : ∀ n, s.worker.history.count (.sendReturned n) + s.worker.history.count (.sendRaised n) =
    if n < s.worker.ledger.taken ∧ s.worker.pc.pending ≠ some n then 1 else 0
  reported : ∀ n, s.worker.history.countP (ClientEvent.isReportOf n) =
    s.worker.history.count (.sendRaised n)
  done : ∀ n, s.worker.history.count (.taskDone n) =
    if n < s.worker.ledger.taken ∧ s.worker.pc.hand ≠ some n then 1 else 0
  after : Each DoneAfter s.worker.history

/-- **Every record is delivered, once and in order.** For every subclass, every
sequence of records that can be rendered, every arrival time and every outcome of
`connect`, `send_message` and `disconnect`: the worker owes its records nothing; it
ends by returning, and leaves its loop only when logging has stopped and it has
taken everything that was put into the queue. -/
theorem delivers_in_order (h : (machine cls none).Reachable Undisturbed s) :
    s.Delivered ∧ (∀ e, s.worker.pc = .ended e → e = .returned) ∧
    ∀ a t e, s.Undisturbed a → s.step cls a = some t → s.worker.pc ≠ t.worker.pc →
      (∀ e, s.worker.pc ≠ .closing e) → t.worker.pc = .closing e ∨ t.worker.pc = .ended e →
      t.running = false ∧ t.worker.ledger.taken = t.worker.ledger.log.length := by
  have hi := delivering h
  have hs := sound h
  refine ⟨⟨?_, hi.tally.entries, hi.line.live, hi.tally.concluded, hi.tally.reported, hi.tally.done,
    hi.tally.after⟩, fun e he => hi.leaving e (.inr he), ?_⟩
  · rw [hi.tally.sent, List.reverse_reverse]
  · intro a t e hok hstep hne hnc he
    have hst := hs.step hstep
    cases hs.stepped hstep with
    | enqueue _ _ eq =>
      rw [eq] at hne
      exact absurd rfl hne
    | other _ _ eq =>
      rw [eq] at hne
      exact absurd rfl hne
    | clear _ _ _ eq =>
      rw [eq] at hne
      exact absurd rfl hne
    | restart _ _ eq =>
      rw [eq] at he
      rcases he with he | he <;> exact absurd he (by simp)
    | worker is running segment =>
      subst is
      obtain ⟨hrun, hempty⟩ := segment.leaves hi.calm hok.renders hnc he
      refine ⟨running.trans hrun, ?_⟩
      have hle := hst.ledger.taken_le
      have hitems := hst.ledger.items
      rw [hempty] at hitems
      have hge := List.drop_eq_nil_iff.mp hitems.symm
      omega

/-- Two records; the first send fails, and so does the teardown that follows. -/
def twoSends : List Act :=
  let record : LogRecord := ⟨20, "app", .ok "started", .ok "1970-01-01T00:00:00+00:00"⟩
  [.enqueue record, .enqueue record, .worker .start, .worker .built, .worker .get,
    .worker (.sendFail "reset"), .worker (.closeFails "gone"), .worker .built, .worker .get,
    .setRunning false, .worker .sendOk]

theorem delivers_two :
    ∃ s, (machine .valkey none).run Undisturbed (initial none 8 true) twoSends = some s ∧
      s.Delivered ∧ s.worker.ledger.taken = 2 ∧
      s.worker.history.countP (ClientEvent.isReportOf 0) = 1 := by
  have hrun : ∃ s, (machine .valkey none).run Undisturbed (initial none 8 true) twoSends = some s ∧
      s.worker.ledger.taken = 2 ∧ s.worker.history.countP (ClientEvent.isReportOf 0) = 1 :=
    ⟨_, rfl, rfl, rfl⟩
  obtain ⟨s, hs, htaken, hrep⟩ := hrun
  exact ⟨s, hs, (delivers_in_order (.of_run ⟨8, true, rfl⟩ hs)).1, htaken, hrep⟩

end ClientRun

end ScietexLogging
