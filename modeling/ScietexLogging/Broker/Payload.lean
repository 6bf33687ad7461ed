import ScietexLogging.Broker.ClientSegments
import ScietexLogging.Python.Exceptions
import ScietexLogging.Python.Json

/-!
# Broker — what a subscriber reads

`AsyncMqttHandler` publishes the entry of a record as a JSON object. A subscriber gets back
what the entry was made of: `level_abbreviation` loses nothing of the level number, and
`json.dumps` nothing of a text.

* `levelNumber_abbreviation` — the number an abbreviation stands for;
* `receive_sendMessage`      — a payload, read back;
* `subscriber_reads`         — whatever happens to the connection, the publications of a
                               worker are read as records of its queue, in their order.
-/

namespace ScietexLogging

open Asyncio Python

-- ---------------------------------------------------------------------------
-- Level numbers
-- ---------------------------------------------------------------------------

/-- The number some digits are. -/
def digitsNumber (ds : Str) : Option Nat :=
  if ds ≠ [] ∧ ds.all Char.isDigit = true then some (Nat.ofDigitChars 10 ds 0) else none

def signedNumber : Str → Option Int
  | '-' :: ds => (digitsNumber ds).map fun n : Nat => -(n : Int)
  | ds => (digitsNumber ds).map Int.ofNat

/-- The level number an abbreviation stands for. -/
def levelNumber (s : Str) : Option Int :=
  if s = "DBG".toList then some 10
  else if s = "INF".toList then some 20
  else if s = "WRN".toList then some 30
  else if s = "ERR".toList then some 40
  else if s = "CRT".toList then some 50
  else signedNumber s

theorem digitsNumber_padded (k n : Nat) :
    digitsNumber (List.replicate k '0' ++ Nat.toDigits 10 n) = some n := by
  have hdigits : (List.replicate k '0' ++ Nat.toDigits 10 n).all Char.isDigit = true := by
    rw [List.all_eq_true]
    intro c hc
    rcases List.mem_append.mp hc with hc | hc
    · rw [List.eq_of_mem_replicate hc]
      rfl
    · exact Nat.isDigit_of_mem_toDigits (by decide) (by decide) hc
  rw [digitsNumber, if_pos ⟨by simp [Nat.toDigits_ne_nil], hdigits⟩, Nat.ofDigitChars_append,
    Nat.ofDigitChars_replicate_zero, Nat.mul_zero, Nat.ofDigitChars_ten_toDigits]

/-- The characters of `f"{n:03d}"`. -/
theorem toList_threeDigits (n : Int) :
    ∃ k, (threeDigits n).toList =
      (if n < 0 then ['-'] else []) ++ (List.replicate k '0' ++ Nat.toDigits 10 n.natAbs) := by
  have hdigits : (toString n.natAbs).toList = Nat.toDigits 10 n.natAbs := Nat.toList_repr
  unfold threeDigits
  dsimp only
  generalize toString n.natAbs = digits at hdigits
  by_cases hn : n < 0
  · rw [if_pos hn, if_pos hn, String.toList_append, String.toList_append, String.toList_ofList,
      hdigits, List.append_assoc, String.toList_ofList]
    exact ⟨2 - digits.length, rfl⟩
  · rw [if_neg hn, if_neg hn, String.toList_append, String.toList_ofList, hdigits]
    exact ⟨3 - digits.length, rfl⟩

theorem signedNumber_threeDigits (n : Int) : signedNumber (threeDigits n).toList = some n := by
  obtain ⟨k, hk⟩ := toList_threeDigits n
  have hnumber := digitsNumber_padded k n.natAbs
  generalize List.replicate k '0' ++ Nat.toDigits 10 n.natAbs = ds at hk hnumber
  rw [hk]
  by_cases hn : n < 0
  · rw [if_pos hn]
    show signedNumber ('-' :: ds) = _
    rw [signedNumber, hnumber, Option.map_some, Int.ofNat_natAbs_of_nonpos (by omega), Int.neg_neg]
  · rw [if_neg hn, List.nil_append]
    have hplain : signedNumber ds = (digitsNumber ds).map Int.ofNat := by
      unfold signedNumber
      split
      · -- a minus is no digit
        cases hnumber
      · rfl
    rw [hplain, hnumber]
    exact congrArg some (Int.natAbs_of_nonneg (by omega))

/-- **Levels are told apart**, named or numbered. -/
theorem levelNumber_abbreviation (n : Int) : levelNumber (levelAbbreviation n).toList = some n := by
  unfold levelAbbreviation
  split
  · rename_i h
    rw [h]
    rfl
  split
  · rename_i h
    rw [h]
    rfl
  split
  · rename_i h
    rw [h]
    rfl
  split
  · rename_i h
    rw [h]
    rfl
  split
  · rename_i h
    rw [h]
    rfl
  · have hsigned := signedNumber_threeDigits n
    have hname : ∀ s, signedNumber s = none → (threeDigits n).toList ≠ s := by
      intro s hs heq
      rw [heq, hs] at hsigned
      cases hsigned
    rw [levelNumber, if_neg (hname _ rfl), if_neg (hname _ rfl), if_neg (hname _ rfl),
      if_neg (hname _ rfl), if_neg (hname _ rfl), hsigned]

-- ---------------------------------------------------------------------------
-- Publishing
-- ---------------------------------------------------------------------------

/-- What `publish` is called with; `messageExpiry` is the property `MessageExpiryInterval`. -/
structure Publication where
  topic : String
  payload : Str
  qos : Int
  retain : Bool
  messageExpiry : Option Int

inductive PublishError where
  | runtime (message : String)
  | type (key : Key)              -- of `json.dumps`

/-- The fields `send_message` reads, but for the client. -/
structure AsyncMqttHandler where
  topic : String
  qos : Int
  retain : Bool
  messageExpiry : Option Int

/-- A `dict[str, str]`. -/
def LogEntry.value (record : LogEntry) : Value :=
  .dict (record.map fun p => (.str p.1.toList, .str p.2.toList))

namespace AsyncMqttHandler

/-- What `send_message` publishes before it awaits the client. -/
def sendMessage (h : AsyncMqttHandler) (client : Option Nat) (record : LogEntry) :
    Except PublishError Publication :=
  if client = none then .error (.runtime "MQTT client is not connected; call connect() first.")
  else
    match dumps record.value with
    | .ok payload => .ok ⟨h.topic, payload, h.qos, h.retain, h.messageExpiry⟩
    | .error key => .error (.type key)

end AsyncMqttHandler

-- ---------------------------------------------------------------------------
-- Reading
-- ---------------------------------------------------------------------------

structure Received where
  levelno : Int
  message : Str
  name : Str
  time : Str

/-- The text a member is. -/
def textAt (name : String) (members : List (List Nat × Json)) : Option Str :=
  match members.lookup (codes name.toList) with
  | some (.string s) => some (s.map Char.ofNat)
  | _ => none

/-- What a subscriber has of a payload. -/
def receive (payload : Str) : Option Received :=
  match Json.read payload with
  | some (.object members) => do
    let level ← textAt "level" members
    let levelno ← levelNumber level
    let message ← textAt "message" members
    let name ← textAt "name" members
    let time ← textAt "time" members
    return ⟨levelno, message, name, time⟩
  | _ => none

theorem ofNat_codes (s : Str) : (codes s).map Char.ofNat = s := by
  rw [codes, List.map_map]
  exact (List.map_congr_left fun c _ => Char.ofNat_toNat c).trans (List.map_id s)

theorem textAt_of_lookup {name : String} {members : List (List Nat × Json)} {s : Str}
    (h : members.lookup (codes name.toList) = some (.string (codes s))) :
    textAt name members = some s := by
  rw [textAt, h]
  exact congrArg some (ofNat_codes s)

theorem receive_eq {payload level message name time : Str} {members : List (List Nat × Json)}
    {levelno : Int} (hread : Json.read payload = some (.object members))
    (hlevel : textAt "level" members = some level) (hnumber : levelNumber level = some levelno)
    (hmessage : textAt "message" members = some message) (hname : textAt "name" members = some name)
    (htime : textAt "time" members = some time) :
    receive payload = some ⟨levelno, message, name, time⟩ := by
  simp only [receive, hread, hlevel, hnumber, hmessage, hname, htime, Option.bind_eq_bind,
    Option.bind_some]
  rfl

/-- The publication has the record's fields, and goes where the handler publishes. -/
structure Carries (h : AsyncMqttHandler) (x : LogRecord) (p : Publication) : Prop where
  settings : p.topic = h.topic ∧ p.qos = h.qos ∧ p.retain = h.retain ∧ p.messageExpiry = h.messageExpiry
  printable : Printable p.payload
  received : ∃ message time, x.message = .ok message ∧ x.time = .ok time ∧
    receive p.payload = some ⟨x.levelno, message.toList, x.name.toList, time.toList⟩

/-- **A payload, read back.** -/
theorem receive_sendMessage (h : AsyncMqttHandler) {c : Nat} {x : LogRecord} {entry : LogEntry}
    (hentry : logEntry x = .ok entry) :
    ∃ p, h.sendMessage (some c) entry = .ok p ∧ Carries h x p := by
  obtain ⟨message, hmessage, hentry⟩ := bind_eq_ok.mp hentry
  obtain ⟨time, htime, hentry⟩ := bind_eq_ok.mp hentry
  obtain rfl := Except.ok.inj hentry
  rw [AsyncMqttHandler.sendMessage, if_neg (by simp)]
  cases hdumps : dumps (LogEntry.value _) with
  | error key =>
    have hnone := json_of_error hdumps
    cases hnone
  | ok payload =>
    obtain ⟨hread, hprintable⟩ := read_dumps hdumps
    refine ⟨_, rfl, ⟨rfl, rfl, rfl, rfl⟩, hprintable, message, time, hmessage, htime, ?_⟩
    have hmembers : Json.read payload = some (.object
        [(codes "level".toList, .string (codes (levelAbbreviation x.levelno).toList)),
         (codes "message".toList, .string (codes message.toList)),
         (codes "name".toList, .string (codes x.name.toList)),
         (codes "time".toList, .string (codes time.toList))]) := hread
    exact receive_eq hmembers (textAt_of_lookup rfl) (levelNumber_abbreviation x.levelno)
      (textAt_of_lookup rfl) (textAt_of_lookup rfl) (textAt_of_lookup rfl)

-- ---------------------------------------------------------------------------
-- Runs
-- ---------------------------------------------------------------------------

/-- What `send_message` is called with, and `self.client` then. -/
def ClientEvent.call? : ClientEvent → Option (LogEntry × Option Nat)
  | .sendCalled _ entry client => some (entry, client)
  | _ => none

/-- The calls of `send_message`, the first one first. -/
def sendCalls (history : List ClientEvent) : List (LogEntry × Option Nat) :=
  (history.filterMap ClientEvent.call?).reverse

theorem sendCalls_append {new history : List ClientEvent} (hnew : ∀ e ∈ new, e.call? = none) :
    sendCalls (new ++ history) = sendCalls history := by
  rw [sendCalls, List.filterMap_append, List.filterMap_eq_nil_iff.mpr hnew, List.nil_append,
    sendCalls]

/-- What the calls publish. -/
def AsyncMqttHandler.published (h : AsyncMqttHandler) (history : List ClientEvent) :
    List (Except PublishError Publication) :=
  (sendCalls history).map fun p => h.sendMessage p.2 p.1

namespace ClientWorker

variable {cls : BrokerClass} {running : Bool} {a : ClientAct} {x y : ClientWorker}

/-- The worker waits for a record with a client only, and an injected client is there. -/
structure Served (x : ClientWorker) : Prop where
  client : x.pc = .getting → x.client ≠ none
  injected : x.ownsClient = false → x.injectedClient ≠ none

theorem Finished.calls {e : TaskEnd} (h : Finished cls x e y) :
    sendCalls y.history = sendCalls x.history ∧ y.pc ≠ .getting := by
  cases h with
  | injected _ | nothing _ _ | custom _ _ _ | closes _ _ => exact ⟨rfl, nofun⟩

theorem Onward.calls (h : Onward cls running x y)
    (hinjected : x.ownsClient = false → x.injectedClient ≠ none) :
    sendCalls y.history = sendCalls x.history ∧ (y.pc = .getting → y.client ≠ none) := by
  cases h with
  | getting client => exact ⟨rfl, fun _ => client⟩
  | connects _ _ => exact ⟨rfl, nofun⟩
  | restored owns _ => exact ⟨rfl, fun _ => hinjected owns⟩
  | returns _ _ finished => exact ⟨finished.calls.1, fun hpc => absurd hpc finished.calls.2⟩

/-- **What a segment sends**: nothing, or the entry of the record it takes. -/
theorem Segment.calls (h : Segment cls running a x y) (hs : x.Served) :
    (y.pc = .getting → y.client ≠ none) ∧
    (sendCalls y.history = sendCalls x.history ∨
      ∃ n record entry l c, x.ledger.get = some ((n, record), l) ∧ y.ledger = l ∧
        logEntry record = .ok entry ∧
        sendCalls y.history = sendCalls x.history ++ [(entry, some c)]) := by
  cases h with
  | start _ _ on | wakes _ _ on | idles _ _ on | sent _ _ on | torn _ _ on =>
    obtain ⟨hcalls, hclient⟩ := on.calls hs.injected
    exact ⟨hclient, .inl hcalls⟩
  | fails _ why _ on =>
    obtain ⟨hcalls, hclient⟩ := on.calls hs.injected
    refine ⟨hclient, .inl (hcalls.trans ?_)⟩
    rcases why with ⟨-, rfl⟩ | ⟨-, -, rfl⟩ <;> rfl
  | probes _ _ | silent _ | raises _ _ | abandoned _ _ _ => exact ⟨nofun, .inl rfl⟩
  | connects _ _ | answers _ => exact ⟨fun _ => nofun, .inl rfl⟩
  | @sends n record entry l pc get rendered =>
    obtain ⟨c, hc⟩ := Option.ne_none_iff_exists'.mp (hs.client pc)
    refine ⟨nofun, .inr ⟨n, record, entry, l, c, get, rfl, rendered, ?_⟩⟩
    rw [hc]
    exact List.reverse_cons
  | spoils _ _ _ _ finished | interrupted _ _ _ finished | interruptedSend _ _ _ finished =>
    exact ⟨fun hpc => absurd hpc finished.calls.2, .inl finished.calls.1⟩
  | tears _ _ _ =>
    refine ⟨nofun, .inl (sendCalls_append fun e he => ?_)⟩
    obtain ⟨c, -, rfl⟩ := List.mem_map.mp he
    rfl
  | closed _ said =>
    refine ⟨nofun, .inl (sendCalls_append fun e he => ?_)⟩
    rcases said with rfl | ⟨exc, rfl⟩
    · cases he
    · rw [List.mem_singleton.mp he]
      rfl

theorem Segment.owner (h : Segment cls running a x y) :
    y.ownsClient = x.ownsClient ∧ y.injectedClient = x.injectedClient := by
  cases h with
  | start _ _ on | wakes _ _ on | idles _ _ on | sent _ _ on | fails _ _ _ on | torn _ _ on =>
    exact ⟨on.frame.ownsClient, on.frame.injectedClient⟩
  | spoils _ _ _ _ finished | interrupted _ _ _ finished | interruptedSend _ _ _ finished =>
    exact ⟨finished.frame.ownsClient, finished.frame.injectedClient⟩
  | _ => exact ⟨rfl, rfl⟩

end ClientWorker

namespace ClientRun

variable {cls : BrokerClass} {injected : Option Nat} {s t : ClientRun}

/-- The calls are those of records taken from the queue, in their order. -/
structure InOrder (s : ClientRun) : Prop where
  served : s.worker.Served
  calls : ∃ records, records.Sublist (s.worker.ledger.log.take s.worker.ledger.taken) ∧
    List.Forall₂ (fun x (p : LogEntry × Option Nat) => logEntry x = .ok p.1 ∧ ∃ c, p.2 = some c)
      records (sendCalls s.worker.history)

theorem InOrder.step {act : Act} (hs : s.Sound) (hi : s.InOrder) (h : s.step cls act = some t) :
    t.InOrder := by
  obtain ⟨records, hsub, hcalls⟩ := hi.calls
  cases hs.stepped h with
  | @enqueue record l _ put eq =>
    obtain ⟨-, hlog, htaken, -, -, -⟩ := Ledger.put_eq_some put
    subst eq
    refine ⟨⟨hi.served.client, hi.served.injected⟩, records, ?_, hcalls⟩
    show records.Sublist (l.log.take l.taken)
    rw [hlog, htaken, List.take_append_of_le_length hs.ledger.taken_le]
    exact hsub
  | other _ _ eq =>
    refine ⟨⟨?_, ?_⟩, records, ?_, ?_⟩
    all_goals rw [eq]
    · exact hi.served.client
    · exact hi.served.injected
    · exact hsub
    · exact hcalls
  | clear _ _ cleared eq =>
    obtain ⟨l, hl, hsound, -, hlog, -⟩ := hs.ledger.clear (f := .dropped)
    obtain rfl := Option.some.inj (hl.symm.trans cleared)
    subst eq
    refine ⟨⟨hi.served.client, hi.served.injected⟩, records, ?_, hcalls⟩
    -- what is thrown away comes after all that was taken
    show records.Sublist (l.log.take l.taken)
    rw [hlog]
    exact hsub.trans (List.take_sublist_take_left (Ledger.clear_taken cleared))
  | restart _ _ eq =>
    subst eq
    exact ⟨⟨nofun, hi.served.injected⟩, records, hsub, hcalls⟩
  | worker _ _ segment =>
    obtain ⟨howns, hinjected⟩ := segment.owner
    obtain ⟨hclient, hsent⟩ := segment.calls hi.served
    have hlog : t.worker.ledger.log = s.worker.ledger.log := segment.moves.log_eq
    have hserved : t.worker.Served := ⟨hclient, by rw [howns, hinjected]; exact hi.served.injected⟩
    rcases hsent with hsent | ⟨n, record, entry, l, c, hget, hl, hentry, hsent⟩
    · have htaken : s.worker.ledger.taken ≤ t.worker.ledger.taken := segment.moves.taken_le
      refine ⟨hserved, records, ?_, by rw [hsent]; exact hcalls⟩
      rw [hlog]
      exact hsub.trans (List.take_sublist_take_left htaken)
    · -- the record taken is the next of the log
      obtain ⟨rfl, -, htaken, -, -, -⟩ := Ledger.get_eq_some hget
      have hnext := (hs.ledger.get hget).2.2.2
      rw [← hl] at hnext htaken
      rw [hlog] at hnext
      refine ⟨hserved, records ++ [record], ?_, ?_⟩
      · rw [hlog, htaken, List.take_add_one, hnext]
        exact hsub.append (List.Sublist.refl _)
      · rw [hsent]
        exact List.rel_append hcalls (.cons ⟨hentry, c, rfl⟩ .nil)

theorem inOrder {ok : ClientRun → Act → Prop} (h : (machine cls injected).Reachable ok s) :
    s.InOrder := by
  refine Machine.invariant_with (J := Sound) (I := InOrder) (fun _ => sound) ?_
    (fun s a t hs hi _ hstep => hi.step hs hstep) h
  rintro s ⟨maxsize, running, rfl⟩
  refine ⟨⟨nofun, fun howns => ?_⟩, [], List.nil_sublist _, .nil⟩
  exact Option.isNone_eq_false_iff.mp howns |> Option.isSome_iff_ne_none.mp

/-- **A subscriber reads the log.** Whatever becomes of connections, sends and workers, on any
client: each call of `send_message` publishes, and the publications are read, in their order,
as records of the queue, in their order and each at most once, with the level number, the
message, the name and the time they have. -/
theorem subscriber_reads (h : (machine .mqtt injected).Reachable Machine.Always s)
    (handler : AsyncMqttHandler) :
    ∃ records publications, records.Sublist s.worker.ledger.log ∧
      handler.published s.worker.history = publications.map .ok ∧
      List.Forall₂ (Carries handler) records publications := by
  obtain ⟨records, hsub, hcalls⟩ := (inOrder h).calls
  suffices hall : ∃ publications, handler.published s.worker.history = publications.map .ok ∧
      List.Forall₂ (Carries handler) records publications by
    obtain ⟨publications, hpublished, hcarries⟩ := hall
    exact ⟨records, publications, hsub.trans (List.take_sublist _ _), hpublished, hcarries⟩
  unfold AsyncMqttHandler.published
  generalize sendCalls s.worker.history = calls at hcalls
  clear hsub
  induction hcalls with
  | nil => exact ⟨[], rfl, .nil⟩
  | @cons x p _ _ hp _ ih =>
    obtain ⟨publications, hpublished, hcarries⟩ := ih
    obtain ⟨hentry, c, hc⟩ := hp
    obtain ⟨publication, hsend, hcarry⟩ := receive_sendMessage handler (c := c) hentry
    refine ⟨publication :: publications, ?_, .cons hcarry hcarries⟩
    rw [List.map_cons, List.map_cons, hc, hsend, hpublished]

/-- The first send raises, the second is made on another client. -/
def twoPublications : List Act :=
  [.enqueue ⟨20, "app", .ok "a \"quoted\" line\n", .ok "1970-01-01T00:00:00+00:00"⟩,
    .enqueue ⟨-7, "app", .ok "café", .ok "1970-01-01T00:00:01+00:00"⟩,
    .worker .start, .worker .built, .worker .get, .worker (.sendFail "broken"), .worker .closeOk,
    .worker .built, .worker .get, .worker .sendOk]

theorem subscriber_reads_two : ∃ s : ClientRun,
    (sendCalls s.worker.history).map Prod.snd = [some 0, some 1] ∧
    ∃ records publications, records.Sublist s.worker.ledger.log ∧
      (AsyncMqttHandler.mk "logs" 1 false (some 60)).published s.worker.history =
        publications.map .ok ∧
      List.Forall₂ (Carries ⟨"logs", 1, false, some 60⟩) records publications := by
  have hrun : ∃ s, (machine .mqtt none).run Machine.Always (initial none 8 true) twoPublications = some s ∧
      (sendCalls s.worker.history).map Prod.snd = [some 0, some 1] :=
    ⟨_, rfl, rfl⟩
  obtain ⟨s, hs, hclients⟩ := hrun
  exact ⟨s, hclients, subscriber_reads (.of_run ⟨8, true, rfl⟩ hs) _⟩

end ClientRun

end ScietexLogging
