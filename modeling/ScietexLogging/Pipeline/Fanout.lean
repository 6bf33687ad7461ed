import Mathlib.Data.List.Nodup
import ScietexLogging.Pipeline.Control

/-!
# Pipeline — every record goes to every backend once

The bridge and the flush of `stop_logging` move records out of the same ingress,
one after the other, while other threads keep putting records in.

`Accounts` keeps the books: what entered an ingress was taken out of it, in
order, or is still in it; what was taken out and offered was put into every
backend queue that did not refuse it, in order; and every refusal was reported.

Main result: `flush_delivers` — when the flush of a stop sees the ingress empty,
every backend queue was given, since the start, exactly what entered the ingress,
in order and without repetition, less the records it refused, each of which was
reported once for it; and an `emit` of a first cycle that returns without its
record being among them, and without a report, finds the accept event clear.
-/

namespace ScietexLogging

open Asyncio

variable {k : Nat}

/-- The ingress a call of `emit` has read and will put its record into. -/
def EmitPc.ingress? : EmitPc → Option Nat
  | .readLoop _ g | .readEvent _ g _ => g
  | .put _ g _ => some g
  | _ => none

/-- The ingress the call's record goes, or has gone, into. -/
def EmitPc.target? : EmitPc → Option Nat
  | .wake g _ => some g
  | pc => pc.ingress?

/-- The call is past its put. -/
def EmitPc.IsPut : EmitPc → Prop
  | .wake _ _ | .done _ => True
  | _ => False

/-- The call has not passed its check of the accept event, or has returned. -/
def EmitPc.Outside : EmitPc → Prop
  | .idle | .called _ | .done _ => True
  | _ => False

/-- No reference the call has read is `None`. -/
def EmitPc.Clear : EmitPc → Prop
  | .readLoop _ g => g ≠ none
  | .readEvent _ g l => g ≠ none ∧ l = true
  | _ => True

theorem EmitPc.Outside.clear {pc : EmitPc} (h : pc.Outside) : pc.Clear := by
  cases pc with
  | readLoop _ _ | readEvent _ _ _ => exact h.elim
  | _ => trivial

/-- The call, where backend `i` was given its record. -/
def Taken.givenTo (i : Fin k) (o : Taken k) : Option Nat :=
  match o.refusedBy with
  | some refused => if refused i then none else some o.call
  | none => none

/-- Backend `i` refused the record of call `n`. -/
def Taken.refusal (i : Fin k) (n : Nat) (o : Taken k) : Bool :=
  match o.refusedBy with
  | some refused => refused i && (o.call == n)
  | none => false

-- ---------------------------------------------------------------------------
-- The books of the intake
-- ---------------------------------------------------------------------------

namespace Intake

variable {x y : Intake k} {born : Nat → Prop}

/-- What was taken out of ingress `g`. -/
def takenFrom (x : Intake k) (g : Nat) : List (Taken k) :=
  x.taken.filter fun o => o.ingress == g

/-- Backend `i` refused the record of call `n`, when it was offered to it. -/
def Refused (x : Intake k) (i : Fin k) (n : Nat) : Prop :=
  ∃ o ∈ x.taken, o.refusal i n = true

instance (x : Intake k) (i : Fin k) (n : Nat) : Decidable (x.Refused i n) :=
  inferInstanceAs (Decidable (∃ o ∈ x.taken, o.refusal i n = true))

/-- `born` are the ingresses that have been made. -/
structure Accounts (x : Intake k) (born : Nat → Prop) : Prop where
  fresh : ∀ n, x.calls ≤ n → x.emits n = .idle
  held : ∀ n g, (x.emits n).ingress? = some g → born g
  unborn : ∀ g, ¬ born g → x.entered g = []
  seen : ∀ n g, n ∈ x.entered g → (x.emits n).IsPut
  woken : ∀ n g e, x.emits n = .wake g e → n ∈ x.entered g
  once : ∀ g, (x.entered g).Nodup
  apart : ∀ n g g', n ∈ x.entered g → n ∈ x.entered g' → g = g'
  /-- What entered an ingress was taken out of it, in order, or is still in it. -/
  fifo : ∀ g, x.entered g =
    (x.takenFrom g).map Taken.call ++ (x.ingress g).items.map Emitted.call
  takenOnce : (x.taken.map Taken.call).Nodup

theorem takenFrom_addTaken (x : Intake k) (o : Taken k) (g : Nat) :
    (x.addTaken o).takenFrom g = x.takenFrom g ++ if o.ingress = g then [o] else [] := by
  show (x.taken ++ [o]).filter _ = x.taken.filter _ ++ _
  rw [List.filter_append, List.filter_cons, List.filter_nil]
  by_cases h : o.ingress = g
  · rw [if_pos h, if_pos (by simpa using h)]
  · rw [if_neg h, if_neg (by simpa using h)]

namespace Accounts

/-- A record taken out of an ingress had entered it. -/
theorem entered_of_taken (ha : x.Accounts born) {o : Taken k} (ho : o ∈ x.taken) :
    o.call ∈ x.entered o.ingress := by
  rw [ha.fifo, List.mem_append]
  refine .inl (List.mem_map.mpr ⟨o, ?_, rfl⟩)
  exact List.mem_filter.mpr ⟨ho, by simp⟩

/-- The head of an ingress has not been taken out of any. -/
theorem head_not_taken (ha : x.Accounts born) {g : Nat} {e : Emitted} {es : List Emitted}
    (hitems : (x.ingress g).items = e :: es) : e.call ∉ x.taken.map Taken.call := by
  intro hmem
  obtain ⟨o, ho, heq⟩ := List.mem_map.mp hmem
  have hfifo := ha.fifo g
  rw [hitems, List.map_cons] at hfifo
  have hin : e.call ∈ x.entered g := by
    rw [hfifo]
    simp
  have hg : o.ingress = g := ha.apart e.call _ _ (heq ▸ ha.entered_of_taken ho) hin
  -- within one ingress, the records taken and those still in it are different
  have honce := ha.once g
  rw [hfifo, List.nodup_append] at honce
  refine honce.2.2 e.call ?_ e.call List.mem_cons_self rfl
  exact List.mem_map.mpr ⟨o, List.mem_filter.mpr ⟨ho, by simp [hg]⟩, heq⟩

theorem mono {born' : Nat → Prop} (ha : x.Accounts born) (hb : ∀ g, born g → born' g) :
    x.Accounts born' :=
  ⟨ha.fresh, fun n g h => hb g (ha.held n g h), fun g h => ha.unborn g fun hg => h (hb g hg),
    ha.seen, ha.woken, ha.once, ha.apart, ha.fifo, ha.takenOnce⟩

/-- A call goes on, without touching an ingress. -/
theorem setEmit (ha : x.Accounts born) {n : Nat} {pc : EmitPc} (hn : x.emits n ≠ .idle)
    (hheld : ∀ g, pc.ingress? = some g → born g) (hput : (x.emits n).IsPut → pc.IsPut)
    (hwake : ∀ g e, pc ≠ .wake g e) : (x.setEmit n pc).Accounts born := by
  refine ⟨fun m hm => ?_, fun m g h => ?_, ha.unborn, fun m g h => ?_, fun m g e h => ?_, ha.once,
    ha.apart, ha.fifo, ha.takenOnce⟩
  · have hmn : m ≠ n := fun heq => hn (by rw [← heq, ha.fresh m hm])
    rw [setEmit_ne x pc hmn]
    exact ha.fresh m hm
  · by_cases hmn : m = n
    · rw [hmn, setEmit_self] at h
      exact hheld g h
    · rw [setEmit_ne x pc hmn] at h
      exact ha.held m g h
  · by_cases hmn : m = n
    · rw [hmn, setEmit_self]
      exact hput (hmn ▸ ha.seen m g h)
    · rw [setEmit_ne x pc hmn]
      exact ha.seen m g h
  · by_cases hmn : m = n
    · rw [hmn, setEmit_self] at h
      exact absurd h (hwake g e)
    · rw [setEmit_ne x pc hmn] at h
      exact ha.woken m g e h

/-- Call `n` puts its record into ingress `g`. -/
theorem put (ha : x.Accounts born) {n g e starts : Nat} {r : LogRecord} {q : BoundedQueue Emitted}
    (hpc : x.emits n = .put r g e) (hput : (x.ingress g).putNowait ⟨n, starts, r⟩ = some q) :
    ({ x with
      ingress := Function.update x.ingress g q
      entered := Function.update x.entered g (x.entered g ++ [n]) }.setEmit n (.wake g e)).Accounts
        born := by
  obtain ⟨-, -, hitems⟩ := BoundedQueue.putNowait_eq_some.mp hput
  have hborn : born g := ha.held n g (by rw [hpc]; rfl)
  have hnew : ∀ g', n ∉ x.entered g' := by
    intro g' hmem
    have := ha.seen n g' hmem
    rw [hpc] at this
    exact this.elim
  -- what each ingress was given, and by whom
  have hent : ∀ g', Function.update x.entered g (x.entered g ++ [n]) g' =
      x.entered g' ++ if g' = g then [n] else [] := by
    intro g'
    by_cases hg : g' = g
    · rw [hg, Function.update_self, if_pos rfl]
    · rw [Function.update_of_ne hg, if_neg hg, List.append_nil]
  have hmem : ∀ m g', m ∈ Function.update x.entered g (x.entered g ++ [n]) g' →
      m ∈ x.entered g' ∨ (m = n ∧ g' = g) := by
    intro m g' h
    rw [hent, List.mem_append] at h
    rcases h with h | h
    · exact .inl h
    · split at h
      · rename_i hg
        exact .inr ⟨List.mem_singleton.mp h, hg⟩
      · exact absurd h (by simp)
  refine ⟨fun m hm => ?_, fun m g' h => ?_, fun g' h => ?_, fun m g' h => ?_, fun m g' e' h => ?_,
    fun g' => ?_, fun m g₁ g₂ h₁ h₂ => ?_, fun g' => ?_, ha.takenOnce⟩
  · refine (setEmit_ne _ _ ?_).trans (ha.fresh m hm)
    rintro rfl
    exact absurd ((ha.fresh m hm).symm.trans hpc) (by simp)
  · by_cases hmn : m = n
    · rw [hmn, setEmit_self] at h
      exact absurd h (by simp [EmitPc.ingress?])
    · rw [setEmit_ne _ _ hmn] at h
      exact ha.held m g' h
  · refine (hent g').trans ?_
    rw [ha.unborn g' h, if_neg]
    · rfl
    · rintro rfl
      exact h hborn
  · by_cases hmn : m = n
    · rw [hmn, setEmit_self]
      trivial
    · rw [setEmit_ne _ _ hmn]
      exact ha.seen m g' ((hmem m g' h).resolve_right fun h => hmn h.1)
  · show m ∈ Function.update x.entered g (x.entered g ++ [n]) g'
    rw [hent, List.mem_append]
    by_cases hmn : m = n
    · rw [hmn, setEmit_self] at h
      rw [if_pos (EmitPc.wake.inj h).1.symm]
      exact .inr (List.mem_singleton.mpr hmn)
    · rw [setEmit_ne _ _ hmn] at h
      exact .inl (ha.woken m g' e' h)
  · show (Function.update x.entered g (x.entered g ++ [n]) g').Nodup
    rw [hent]
    split
    · exact List.nodup_append.mpr ⟨ha.once g', List.nodup_singleton n, fun m hm m' hm' heq =>
        hnew g' (List.mem_singleton.mp hm' ▸ heq ▸ hm)⟩
    · rw [List.append_nil]
      exact ha.once g'
  · rcases hmem m g₁ h₁ with hm₁ | ⟨hm, hg₁⟩
    · rcases hmem m g₂ h₂ with hm₂ | ⟨hm, -⟩
      · exact ha.apart m g₁ g₂ hm₁ hm₂
      · exact absurd (hm ▸ hm₁) (hnew g₁)
    · rcases hmem m g₂ h₂ with hm₂ | ⟨-, hg₂⟩
      · exact absurd (hm ▸ hm₂) (hnew g₂)
      · rw [hg₁, hg₂]
  · show Function.update x.entered g (x.entered g ++ [n]) g' =
      (x.takenFrom g').map Taken.call ++ (Function.update x.ingress g q g').items.map Emitted.call
    rw [hent]
    by_cases hg : g' = g
    · rw [hg, if_pos rfl, Function.update_self, hitems, ha.fifo g, List.append_assoc,
        List.map_append]
      rfl
    · rw [if_neg hg, Function.update_of_ne hg, ← ha.fifo g', List.append_nil]

/-- The head of ingress `g` is taken out. -/
theorem take (ha : x.Accounts born) {g : Nat} {e : Emitted} {q : BoundedQueue Emitted}
    (hget : (x.ingress g).getNowait = some (e, q)) (refusedBy : Option (Fin k → Bool)) :
    ({ x with ingress := Function.update x.ingress g q }.addTaken ⟨g, e.call, refusedBy⟩).Accounts
      born := by
  obtain ⟨-, hitems⟩ := BoundedQueue.getNowait_eq_some.mp hget
  refine ⟨ha.fresh, ha.held, ha.unborn, ha.seen, ha.woken, ha.once, ha.apart, fun g' => ?_, ?_⟩
  · rw [takenFrom_addTaken]
    show x.entered g' = (x.takenFrom g' ++ if g = g' then _ else []).map Taken.call ++
      (Function.update x.ingress g q g').items.map Emitted.call
    by_cases hg : g = g'
    · rw [if_pos hg, ← hg, Function.update_self, ha.fifo g, hitems, List.map_append,
        List.append_assoc]
      rfl
    · rw [if_neg hg, List.append_nil, Function.update_of_ne (Ne.symm hg)]
      exact ha.fifo g'
  · show ((x.taken ++ [_]).map Taken.call).Nodup
    rw [List.map_append, List.nodup_append]
    refine ⟨ha.takenOnce, List.nodup_singleton _, fun m hm m' hm' heq => ?_⟩
    have hcall : m = e.call := by rw [heq, List.mem_singleton.mp hm']
    rw [hcall] at hm
    exact ha.head_not_taken hitems hm

/-- A new ingress replaces one that was not there. -/
theorem renew (ha : x.Accounts born) {g : Nat} (hg : ¬ born g) (m : Nat) :
    { x with ingress := Function.update x.ingress g (.new m) }.Accounts born := by
  refine ⟨ha.fresh, ha.held, ha.unborn, ha.seen, ha.woken, ha.once, ha.apart, fun g' => ?_, ha.takenOnce⟩
  show x.entered g' =
    (x.takenFrom g').map Taken.call ++ (Function.update x.ingress g (.new m) g').items.map _
  by_cases hgg : g' = g
  · have hfifo := ha.fifo g
    rw [ha.unborn g hg] at hfifo
    rw [hgg, Function.update_self, ha.unborn g hg, (List.append_eq_nil_iff.mp hfifo.symm).1]
    rfl
  · rw [Function.update_of_ne hgg]
    exact ha.fifo g'

theorem call (ha : x.Accounts born) (r : LogRecord) :
    ({ x with calls := x.calls + 1 }.setEmit x.calls (.called r)).Accounts born := by
  have hidle := ha.fresh x.calls (Nat.le_refl _)
  refine ⟨fun m hm => ?_, fun m g h => ?_, ha.unborn, fun m g h => ?_, fun m g e h => ?_, ha.once,
    ha.apart, ha.fifo, ha.takenOnce⟩
  · have hlt : x.calls + 1 ≤ m := hm
    exact (setEmit_ne _ _ (by omega)).trans (ha.fresh m (by omega))
  · by_cases hm : m = x.calls
    · rw [hm, setEmit_self] at h
      exact absurd h (by simp [EmitPc.ingress?])
    · rw [setEmit_ne _ _ hm] at h
      exact ha.held m g h
  · have hput := ha.seen m g h
    by_cases hm : m = x.calls
    · rw [hm, hidle] at hput
      exact hput.elim
    · rw [setEmit_ne _ _ hm]
      exact hput
  · by_cases hm : m = x.calls
    · rw [hm, setEmit_self] at h
      exact absurd h (by simp)
    · rw [setEmit_ne _ _ hm] at h
      exact ha.woken m g e h

theorem emitStep (ha : x.Accounts born) {h : Handler k} {starts n : Nat}
    (hborn : ∀ g, h.ingress = some g → born g) (hstep : EmitStep x h starts n y) :
    y.Accounts born := by
  cases hstep with
  | accepted pc accept =>
    exact ha.setEmit (by rw [pc]; simp) (by simp [EmitPc.ingress?]) (by rw [pc]; exact False.elim)
      (by simp)
  | ignored pc accept =>
    exact ha.setEmit (by rw [pc]; simp) (by simp [EmitPc.ingress?]) (fun _ => trivial) (by simp)
  | ingress pc =>
    exact ha.setEmit (by rw [pc]; simp) hborn (by rw [pc]; exact False.elim) (by simp)
  | loop pc | event pc _ =>
    refine ha.setEmit (by rw [pc]; simp) (fun g' hg => ha.held n g' ?_) (by rw [pc]; exact False.elim)
      (by simp)
    rw [pc]
    exact hg
  | released pc unset =>
    exact ha.setEmit (by rw [pc]; simp) (by simp [EmitPc.ingress?]) (fun _ => trivial) (by simp)
  | entered pc put => exact ha.put pc put
  | full pc =>
    have hrep : (x.addReports [.ingressFull n]).Accounts born :=
      ⟨ha.fresh, ha.held, ha.unborn, ha.seen, ha.woken, ha.once, ha.apart, ha.fifo, ha.takenOnce⟩
    exact hrep.setEmit (by show x.emits n ≠ _; rw [pc]; simp) (by simp [EmitPc.ingress?])
      (fun _ => trivial) (by simp)
  | @delivered g e pc =>
    have hev : (x.schedule e).Accounts born :=
      ⟨ha.fresh, ha.held, ha.unborn, ha.seen, ha.woken, ha.once, ha.apart, ha.fifo, ha.takenOnce⟩
    exact hev.setEmit (by show x.emits n ≠ _; rw [pc]; simp) (by simp [EmitPc.ingress?])
      (fun _ => trivial) (by simp)

end Accounts

end Intake

theorem EmitStep.taken {x y : Intake k} {h : Handler k} {starts n : Nat}
    (hs : EmitStep x h starts n y) : y.taken = x.taken := by
  cases hs <;> rfl

/-- `emit` reports nothing about a backend. -/
theorem EmitStep.count_queueFull {x y : Intake k} {h : Handler k} {starts n : Nat}
    (hs : EmitStep x h starts n y) (i : Fin k) (m : Nat) :
    y.reports.count (.queueFull i m) = x.reports.count (.queueFull i m) := by
  cases hs with
  | full pc =>
    have hnone : [Report.ingressFull n].count (.queueFull i m) = 0 :=
      List.count_eq_zero_of_not_mem (by simp)
    show (x.reports ++ [Report.ingressFull n]).count _ = _
    rw [List.count_append, hnone, Nat.add_zero]
  | _ => rfl

-- ---------------------------------------------------------------------------
-- The books of the backends
-- ---------------------------------------------------------------------------

/-- The calls whose records were put into the queue since the last start, in
order. -/
def Desk.delivered {C : Consumer Item Outcome} (d : Desk C) : List Nat :=
  (d.ledger.log.drop d.base).filterMap Item.call?

namespace Pipeline

variable {cfg : Config k} {s t : Pipeline cfg} {a : PipelineAct cfg}

/-- Ingress `g` has been made. -/
def Born (s : Pipeline cfg) (g : Nat) : Prop :=
  g < s.starts ∨ (g = s.starts ∧ ∀ m, s.life ≠ .startIngress m)

theorem Born.step {g : Nat} (hb : s.Born g) (h : s.step a = some t) : t.Born g := by
  rcases step_starts h with ⟨hs, hl⟩ | ⟨m, -, -, rfl⟩
  · rcases hb with hlt | ⟨heq, hlife⟩
    · exact .inl (by rw [hs]; exact hlt)
    · exact .inr ⟨by rw [hs]; exact heq, fun m hm => hlife m (hl m hm)⟩
  · refine .inl ?_
    show g < s.starts + 1
    rcases hb with hlt | ⟨heq, -⟩ <;> omega

structure Accounts (s : Pipeline cfg) : Prop where
  intake : s.intake.Accounts s.Born
  based : ∀ i, (s.desks i).base ≤ (s.desks i).ledger.log.length
  /-- What was offered was put in, unless it was refused. -/
  given : ∀ i, (s.desks i).delivered = (s.intake.takenFrom s.starts).filterMap (Taken.givenTo i)
  /-- Every refusal was reported. -/
  reported : ∀ i n, s.intake.reports.count (.queueFull i n) =
    s.intake.taken.countP (Taken.refusal i n)

theorem Accounts.init : Accounts (init cfg) := by
  refine ⟨⟨fun _ _ => rfl, ?_, fun _ _ => rfl, ?_, fun _ _ _ => nofun, fun _ => List.nodup_nil, ?_,
    fun _ => rfl, List.nodup_nil⟩, fun _ => Nat.le_refl _, fun _ => rfl, fun _ _ => rfl⟩
  · intro n g h
    exact absurd h (by simp [Pipeline.init, EmitPc.ingress?])
  · intro n g h
    exact absurd h (by simp [Pipeline.init])
  · intro n g g' h
    exact absurd h (by simp [Pipeline.init])

/-- Items put in after the base. -/
private theorem delivered_append {C : Consumer Item Outcome} {d d' : Desk C} {xs : List Item}
    (hb : d.base ≤ d.ledger.log.length) (hbase : d'.base = d.base)
    (hlog : d'.ledger.log = d.ledger.log ++ xs) :
    d'.base ≤ d'.ledger.log.length ∧ d'.delivered = d.delivered ++ xs.filterMap Item.call? := by
  refine ⟨?_, ?_⟩
  · rw [hbase, hlog, List.length_append]
    omega
  · rw [Desk.delivered, Desk.delivered, hbase, hlog, List.drop_append_of_le_length hb,
      List.filterMap_append]

/-- A step that moves no record gives none to a backend. -/
private theorem DeskChange.delivered {i : Fin k} (h : DeskChange s t a i)
    (hsound : (s.desks i).Sound) (hb : (s.desks i).base ≤ (s.desks i).ledger.log.length)
    (hstarts : t.starts = s.starts) :
    (t.desks i).base ≤ (t.desks i).ledger.log.length ∧
      (t.desks i).delivered = (s.desks i).delivered := by
  have hsame : ∀ d : Desk (cfg.worker i), d.base = (s.desks i).base →
      d.ledger.log = (s.desks i).ledger.log →
      d.base ≤ d.ledger.log.length ∧ d.delivered = (s.desks i).delivered := by
    intro d hbase hlog
    rw [Desk.delivered, Desk.delivered, hbase, hlog]
    exact ⟨hb, rfl⟩
  cases h with
  | keep desk => rw [desk]; exact ⟨hb, rfl⟩
  | work _ desk =>
    exact hsame _ (Desk.work_spec desk).base (Desk.work_hand desk hsound).log_eq
  | cancel _ desk => rw [desk]; exact hsame _ rfl rfl
  | hire _ _ desk => rw [desk]; exact hsame _ rfl rfl
  | rebase _ starts _ =>
    rw [starts] at hstarts
    omega
  | @status xs _ _ items desk =>
    rw [desk]
    have hspec := Desk.offerAll_spec (s.desks i) xs
    obtain ⟨hb', hdel⟩ := delivered_append hb hspec.base hspec.log
    refine ⟨hb', ?_⟩
    rw [hdel, List.filterMap_eq_nil_iff.mpr, List.append_nil]
    intro y hy
    obtain ⟨r, rfl⟩ := items y ((BoundedQueue.admits_sublist _ _).subset hy)
    rfl
  | clear _ cleared desk =>
    obtain ⟨l, hl, hc⟩ := hsound.clear
    obtain rfl := Option.some.inj (hl.symm.trans cleared)
    rw [desk]
    exact hsame _ rfl hc.log

/-- What a step that moves no record does to the intake's books, to what was
taken out for the backends, and to the reports about them. -/
private theorem IntakeChange.accounts (h : IntakeChange s t a) (ha : s.intake.Accounts s.Born)
    (hc : Control s) (hb : ∀ g, s.Born g → t.Born g) :
    t.intake.Accounts t.Born ∧
      (∀ i n, t.intake.reports.count (.queueFull i n) = s.intake.reports.count (.queueFull i n)) ∧
      (t.intake.taken = s.intake.taken ∨
        ∃ g n, t.intake.taken = s.intake.taken ++ [⟨g, n, none⟩]) := by
  have hborn : ∀ g, s.handler.ingress = some g → s.Born g := fun g hg => hc.stage.ingress hg
  cases h with
  | keep intake =>
    rw [intake]
    exact ⟨ha.mono hb, fun _ _ => rfl, .inl rfl⟩
  | call intake =>
    rw [intake]
    exact ⟨(ha.call _).mono hb, fun _ _ => rfl, .inl rfl⟩
  | event intake =>
    rw [intake]
    refine ⟨Intake.Accounts.mono ?_ hb, fun _ _ => rfl, .inl rfl⟩
    exact ⟨ha.fresh, ha.held, ha.unborn, ha.seen, ha.woken, ha.once, ha.apart, ha.fifo, ha.takenOnce⟩
  | discard _ _ get intake =>
    rw [intake]
    exact ⟨(ha.take get none).mono hb, fun _ _ => rfl, .inr ⟨_, _, rfl⟩⟩
  | renew life intake =>
    rw [intake]
    refine ⟨(ha.renew ?_ _).mono hb, fun _ _ => rfl, .inl rfl⟩
    rintro (hlt | ⟨-, hne⟩)
    · omega
    · exact hne _ life
  | emit is step =>
    exact ⟨(ha.emitStep hborn step).mono hb, fun i n => step.count_queueFull i n, .inl step.taken⟩

/-- A backend is reported once among those that refused a record. -/
private theorem count_refusals (refused : Fin k → Bool) (c : Nat) (i : Fin k) (n : Nat) :
    (((List.finRange k).filter refused).map (Report.queueFull · c)).count (.queueFull i n) =
      if refused i && (c == n) then 1 else 0 := by
  by_cases hn : c = n
  · subst hn
    have hinj : Function.Injective fun j : Fin k => Report.queueFull j c :=
      fun j j' h => (Report.queueFull.inj h).1
    rw [List.count_map_of_injective _ _ hinj]
    by_cases hr : refused i = true
    · rw [List.count_filter hr, List.count_eq_one_of_mem (List.nodup_finRange k)
        (List.mem_finRange i), if_pos (by simp [hr])]
    · rw [List.count_eq_zero_of_not_mem (fun h => hr (List.mem_filter.mp h).2),
        if_neg (by simp [hr])]
  · rw [if_neg (by simp [hn])]
    refine List.count_eq_zero_of_not_mem fun h => ?_
    obtain ⟨j, -, heq⟩ := List.mem_map.mp h
    exact hn (Report.queueFull.inj heq).2

theorem Accounts.step (ha : Accounts s) (hc : Control s) (hsound : ∀ i, (s.desks i).Sound)
    (h : s.step a = some t) : Accounts t := by
  have hborn : ∀ g, s.Born g → t.Born g := fun g hg => hg.step h
  cases step_changed h with
  | @moved g e q mover get _ _ starts intake desks =>
    have hg : g = s.starts := hc.mover mover
    have htake := ha.intake.take get (some fun i => (s.desks i).refuses (.emitted e))
    have hfrom : t.intake.takenFrom t.starts = s.intake.takenFrom s.starts ++
        [⟨g, e.call, some fun i => (s.desks i).refuses (.emitted e)⟩] := by
      rw [starts, intake]
      exact (Intake.takenFrom_addTaken _ _ _).trans (by rw [if_pos hg]; rfl)
    have hdel : ∀ i, (t.desks i).base ≤ (t.desks i).ledger.log.length ∧
        (t.desks i).delivered = (s.desks i).delivered ++
          if (s.desks i).refuses (.emitted e) then [] else [e.call] := by
      intro i
      have hspec := Desk.offer_spec (s.desks i) (.emitted e)
      have hlog : ((s.desks i).offer (.emitted e)).ledger.log = (s.desks i).ledger.log ++
          if (s.desks i).refuses (.emitted e) then [] else [.emitted e] := by
        rw [hspec.log]
        split <;> simp
      rw [desks i]
      obtain ⟨hb, hd⟩ := delivered_append (ha.based i) hspec.base hlog
      refine ⟨hb, hd.trans ?_⟩
      split <;> rfl
    refine ⟨?_, fun i => (hdel i).1, fun i => ?_, fun i n => ?_⟩
    · rw [intake]
      exact Intake.Accounts.mono ⟨htake.fresh, htake.held, htake.unborn, htake.seen, htake.woken, htake.once,
        htake.apart, htake.fifo, htake.takenOnce⟩ hborn
    · rw [(hdel i).2, hfrom, ha.given i, List.filterMap_append]
      congr 1
      show _ = List.filterMap (Taken.givenTo i) [_]
      by_cases hr : (s.desks i).refuses (.emitted e) = true
      · rw [if_pos hr]
        simp [Taken.givenTo, hr]
      · rw [if_neg hr]
        simp [Taken.givenTo, hr]
    · rw [intake]
      show (s.intake.reports ++ _).count _ = (s.intake.taken ++ [_]).countP _
      rw [List.count_append, ha.reported i n, count_refusals, List.countP_append,
        List.countP_singleton]
      rfl
  | other hintake desk =>
    obtain ⟨hint, hrep, htaken⟩ := hintake.accounts ha.intake hc hborn
    -- a record the teardown throws away was offered to nobody
    have hfrom : ∀ g i, (t.intake.takenFrom g).filterMap (Taken.givenTo i) =
        (s.intake.takenFrom g).filterMap (Taken.givenTo i) := by
      intro g i
      rcases htaken with htaken | ⟨g', n, htaken⟩
      · rw [Intake.takenFrom, Intake.takenFrom, htaken]
      · have hnil : (([⟨g', n, none⟩] : List (Taken k)).filter fun o => o.ingress == g).filterMap
            (Taken.givenTo i) = [] := by
          refine List.filterMap_eq_nil_iff.mpr fun o ho => ?_
          rw [List.mem_singleton.mp (List.mem_filter.mp ho).1]
          rfl
        rw [Intake.takenFrom, Intake.takenFrom, htaken, List.filter_append,
          List.filterMap_append, hnil, List.append_nil]
    have hcount : ∀ i n, t.intake.taken.countP (Taken.refusal i n) =
        s.intake.taken.countP (Taken.refusal i n) := by
      intro i n
      rcases htaken with htaken | ⟨g', m, htaken⟩
      · rw [htaken]
      · rw [htaken, List.countP_append]
        rfl
    have hdesks : ∀ i, (t.desks i).base ≤ (t.desks i).ledger.log.length ∧
        (t.desks i).delivered = (t.intake.takenFrom t.starts).filterMap (Taken.givenTo i) := by
      intro i
      rcases step_starts h with ⟨hs, -⟩ | ⟨m, -, -, rfl⟩
      · obtain ⟨hb, hd⟩ := (desk i).delivered (hsound i) (ha.based i) hs
        rw [hfrom, hs]
        exact ⟨hb, hd.trans (ha.given i)⟩
      · -- nothing has been taken out of an ingress that is not there
        refine ⟨Nat.le_refl _, ?_⟩
        have hun : s.intake.entered (s.starts + 1) = [] := by
          refine ha.intake.unborn _ ?_
          rintro (hlt | ⟨heq, -⟩) <;> omega
        have hfifo := ha.intake.fifo (s.starts + 1)
        rw [hun] at hfifo
        have hnil := List.map_eq_nil_iff.mp (List.append_eq_nil_iff.mp hfifo.symm).1
        show ((s.desks i).ledger.log.drop (s.desks i).ledger.log.length).filterMap _ =
          (s.intake.takenFrom (s.starts + 1)).filterMap _
        rw [hnil, List.drop_length]
        rfl
    refine ⟨hint, fun i => (hdesks i).1, fun i => (hdesks i).2, fun i n => ?_⟩
    rw [hrep, hcount]
    exact ha.reported i n

theorem accounts {ok : Pipeline cfg → PipelineAct cfg → Prop}
    (h : (pipeline cfg).Reachable ok s) : Accounts s := by
  refine Machine.invariant_with (J := fun s => Control s ∧ ∀ i, (s.desks i).Sound)
    (I := Accounts) (fun s hs => ⟨control hs, fun i => desks_sound hs i⟩) ?_ ?_ h
  · rintro s rfl
    exact .init
  · exact fun s a t hj ha _ hstep => ha.step hj.1 hj.2 hstep

-- ---------------------------------------------------------------------------
-- What the teardown throws away
-- ---------------------------------------------------------------------------

/-- The teardown of the cycle is past its backends. -/
def Past (s : Pipeline cfg) : Prop :=
  s.life = .clearingIngress ∨ s.life = .releaseLoop ∨ s.life = .releaseIngress ∨
    s.life = .releaseEvent ∨ (s.life = .idle ∧ s.handler.Stopped)

/-- Only a new start leads on from there. -/
theorem Past.step (hp : s.Past) (hc : Control s) (h : s.step a = some t)
    (hstarts : t.starts = s.starts) : t.Past := by
  have hst := hc.stage
  cases step_hosted h with
  | same handler life _ _ =>
    rw [Past, handler, life]
    exact hp
  | start life may eq =>
    rw [eq] at hstarts
    exact absurd hstarts (by simp [startLogging])
  | host step _ _ =>
    rw [Past]
    generalize t.handler = h' at step
    generalize t.life = l' at step
    rcases hp with hl | hl | hl | hl | ⟨hl, hstop⟩
    · cases step with
      | close => exact .inl hl
      | emptied _ => exact .inr (.inl rfl)
      | _ => simp_all
    · cases step with
      | close => exact .inr (.inl hl)
      | releaseLoop _ => exact .inr (.inr (.inl rfl))
      | _ => simp_all
    · cases step with
      | close => exact .inr (.inr (.inl hl))
      | releaseIngress _ => exact .inr (.inr (.inr (.inl rfl)))
      | _ => simp_all
    · cases step with
      | close => exact .inr (.inr (.inr (.inl hl)))
      | releaseEvent _ =>
        rw [hl] at hst
        obtain ⟨hoff, hloop, hing, -, htasks, -⟩ := hst
        exact .inr (.inr (.inr (.inr ⟨rfl, hoff.accept, hoff.running, hloop, hing, rfl, rfl,
          htasks⟩)))
      | _ => simp_all
    · cases step with
      | close =>
        exact .inr (.inr (.inr (.inr ⟨hl, rfl, hstop.running, hstop.loop, hstop.ingress,
          hstop.ingressEvent, hstop.bridgeTask, hstop.tasks⟩)))
      | stop _ busy =>
        rw [hstop.stopIgnored] at busy
        exact absurd busy (by simp)
      | _ => simp_all

/-- Until then, what is taken out of the cycle's ingress is offered to the
backends. -/
theorem offered {ok : Pipeline cfg → PipelineAct cfg → Prop} (h : (pipeline cfg).Reachable ok s) :
    ∀ o ∈ s.intake.takenFrom s.starts, o.refusedBy = none → s.Past := by
  refine Machine.invariant_with (J := fun s => Control s ∧ Accounts s)
    (I := fun s => ∀ o ∈ s.intake.takenFrom s.starts, o.refusedBy = none → s.Past)
    (fun s hs => ⟨control hs, accounts hs⟩) ?_ ?_ h
  · rintro s rfl o ho
    exact absurd ho (by simp [Pipeline.init, Intake.takenFrom])
  · rintro s a t ⟨hc, ha⟩ hi - hstep o ho hnone
    rcases step_starts hstep with ⟨hs, -⟩ | ⟨m, -, -, rfl⟩
    · have hpast : s.Past → t.Past := fun hp => hp.step hc hstep hs
      have hold : o ∈ s.intake.taken → t.Past := fun hmem =>
        hpast (hi o (List.mem_filter.mpr ⟨hmem, by rw [← hs]; exact (List.mem_filter.mp ho).2⟩) hnone)
      have hmem := (List.mem_filter.mp ho).1
      cases step_changed hstep with
      | moved _ _ _ _ _ intake _ =>
        rw [intake] at hmem
        rcases List.mem_append.mp hmem with hmem | hmem
        · exact hold hmem
        · rw [List.mem_singleton.mp hmem] at hnone
          exact absurd hnone (by simp)
      | other hintake _ =>
        cases hintake with
        | discard life _ _ _ => exact hpast (.inl life)
        | emit _ step => exact hold (step.taken ▸ hmem)
        | keep intake | call intake | event intake | renew _ intake =>
          rw [intake] at hmem
          exact hold hmem
    · have hent := ha.intake.unborn (s.starts + 1) (by rintro (hlt | ⟨heq, -⟩) <;> omega)
      have hmem := (List.mem_filter.mp ho).1
      have hin := ha.intake.entered_of_taken hmem
      have hg : o.ingress = s.starts + 1 := eq_of_beq (List.mem_filter.mp ho).2
      rw [hg, hent] at hin
      exact absurd hin (by simp)

-- ---------------------------------------------------------------------------
-- The first cycle
-- ---------------------------------------------------------------------------

/-- No start has got as far as setting the accept event. -/
def BeforeAccept (s : Pipeline cfg) : Prop :=
  s.starts = 0 ∨ (∃ m, s.life = .startIngress m) ∨ s.life = .startEvent ∨ s.life = .startBridge

/-- Up to the end of the first cycle, a call of `emit` finds a reference `None`
only after the accept event was cleared. -/
structure First (s : Pipeline cfg) : Prop where
  unstarted : s.starts = 0 → s.life = .idle ∧ s.handler.Stopped
  ingress : ∀ g, s.handler.ingress = some g → 0 < g
  target : ∀ n g, (s.intake.emits n).target? = some g → 0 < g
  before : s.starts ≤ 1 → s.BeforeAccept →
    (∀ n, (s.intake.emits n).Outside) ∧ ∀ g, s.flushed g = none
  clear : s.starts ≤ 1 → s.handler.loggingAcceptEvent = true →
    (∀ n, (s.intake.emits n).Clear) ∧ ∀ g, s.flushed g = none

theorem First.init : First (init cfg) :=
  ⟨fun _ => ⟨rfl, .fresh⟩, fun _ h => absurd h (by simp [Pipeline.init, Handler.fresh]),
    fun _ _ h => absurd h (by simp [Pipeline.init, EmitPc.target?, EmitPc.ingress?]),
    fun _ _ => ⟨fun _ => trivial, fun _ => rfl⟩, fun _ _ => ⟨fun _ => trivial, fun _ => rfl⟩⟩

/-- While the accept event is clear, nobody passes the check. -/
private theorem outside_step (h : s.step a = some t) (haccept : s.handler.loggingAcceptEvent = false)
    (hout : ∀ n, (s.intake.emits n).Outside) (n : Nat) : (t.intake.emits n).Outside := by
  rcases step_emits h n with heq | ⟨-, r, heq⟩ | hnext
  · rw [heq]
    exact hout n
  · rw [heq]
    trivial
  · have ho := hout n
    generalize s.intake.emits n = pc at hnext ho
    generalize t.intake.emits n = pc' at hnext
    cases hnext with
    | accepted accept =>
      rw [haccept] at accept
      exact absurd accept (by simp)
    | ignored _ | released _ | full | delivered => trivial
    | ingress | loop | event _ | entered => exact ho.elim

/-- While the accept event is set, the references are there. -/
private theorem clear_step_emits (h : s.step a = some t) (hc : Control s)
    (haccept : s.handler.loggingAcceptEvent = true) (hclear : ∀ n, (s.intake.emits n).Clear)
    (n : Nat) : (t.intake.emits n).Clear := by
  have hcur := hc.stage.current_of_accept haccept
  rcases step_emits h n with heq | ⟨-, r, heq⟩ | hnext
  · rw [heq]
    exact hclear n
  · rw [heq]
    trivial
  · have ho := hclear n
    generalize s.intake.emits n = pc at hnext ho
    generalize t.intake.emits n = pc' at hnext
    cases hnext with
    | ingress =>
      show s.handler.ingress ≠ none
      rw [hcur.ingress]
      simp
    | loop => exact ⟨ho, hcur.loop⟩
    | accepted _ | ignored _ | event _ | released _ | entered | full | delivered => trivial

private theorem First.target_step (hf : First s) (h : s.step a = some t) {n g : Nat}
    (hg : (t.intake.emits n).target? = some g) : 0 < g := by
  rcases step_emits h n with heq | ⟨-, r, heq⟩ | hnext
  · rw [heq] at hg
    exact hf.target n g hg
  · rw [heq] at hg
    exact absurd hg (by simp [EmitPc.target?, EmitPc.ingress?])
  · have ho := hf.target n
    generalize s.intake.emits n = pc at hnext ho
    generalize t.intake.emits n = pc' at hnext hg
    cases hnext with
    | ingress => exact hf.ingress g hg
    | loop | event _ | entered => exact ho g hg
    | accepted _ | ignored _ | released _ | full | delivered =>
      exact absurd hg (by simp [EmitPc.target?, EmitPc.ingress?])

private theorem BeforeAccept.accept (hb : s.BeforeAccept) (hf : First s) (hc : Control s) :
    s.handler.loggingAcceptEvent = false ∧ s.life ≠ .flushing := by
  have hst := hc.stage
  rcases hb with h0 | ⟨m, hl⟩ | hl | hl
  · obtain ⟨hl, hstop⟩ := hf.unstarted h0
    exact ⟨hstop.accept, by rw [hl]; simp⟩
  all_goals
    rw [hl] at hst ⊢
    exact ⟨hst.1.accept, by simp⟩

/-- Before the accept event is first set, it was not set either. -/
private theorem BeforeAccept.back (hb : t.BeforeAccept) (hle : t.starts ≤ 1)
    (h : s.step a = some t) : s.BeforeAccept := by
  cases step_hosted h with
  | same _ life starts _ =>
    rw [BeforeAccept, life, starts] at hb
    exact hb
  | @start m _ _ eq =>
    rw [eq] at hle
    have : s.starts + 1 ≤ 1 := hle
    exact .inl (by omega)
  | host step starts _ =>
    rw [BeforeAccept, starts] at hb
    generalize t.handler = h' at step
    generalize t.life = l' at step hb
    rcases hb with h0 | hl
    · exact .inl h0
    · cases step with
      | close => exact .inr hl
      | setIngress life _ => exact .inr (.inl ⟨_, life⟩)
      | setEvent life => exact .inr (.inr (.inl life))
      | _ => simp at hl

private theorem First.unstarted_step (hf : First s) (h : s.step a = some t) (h0 : t.starts = 0) :
    t.life = .idle ∧ t.handler.Stopped := by
  cases step_hosted h with
  | same handler life starts _ =>
    rw [handler, life]
    exact hf.unstarted (starts.symm.trans h0)
  | start _ _ eq =>
    rw [eq] at h0
    exact absurd h0 (Nat.succ_ne_zero _)
  | host step starts _ =>
    obtain ⟨hl, hstop⟩ := hf.unstarted (starts.symm.trans h0)
    generalize t.handler = h' at step
    generalize t.life = l' at step
    cases step with
    | close =>
      exact ⟨hl, rfl, hstop.running, hstop.loop, hstop.ingress, hstop.ingressEvent,
        hstop.bridgeTask, hstop.tasks⟩
    | stop _ busy =>
      rw [hstop.stopIgnored] at busy
      exact absurd busy (by simp)
    | _ => simp_all

private theorem First.ingress_step (hf : First s) (h : s.step a = some t) {g : Nat}
    (hg : t.handler.ingress = some g) : 0 < g := by
  cases step_hosted h with
  | same handler _ _ _ => exact hf.ingress g (handler ▸ hg)
  | start _ _ eq =>
    rw [eq] at hg
    exact hf.ingress g hg
  | host step _ _ =>
    generalize t.handler = h' at step hg
    generalize t.life = l' at step
    cases step with
    | setIngress life _ =>
      obtain rfl : s.starts = g := Option.some.inj hg
      by_contra hle
      have := (hf.unstarted (by omega)).1
      rw [life] at this
      exact absurd this (by simp)
    | releaseIngress _ => exact absurd hg (by simp)
    | _ => exact hf.ingress g hg

private theorem First.clear_step (hf : First s) (hc : Control s) (h : s.step a = some t)
    (hle : t.starts ≤ 1) (haccept : t.handler.loggingAcceptEvent = true) :
    (∀ n, (t.intake.emits n).Clear) ∧ ∀ g, t.flushed g = none := by
  by_cases hs : s.handler.loggingAcceptEvent = true
  · have hstarts : s.starts ≤ 1 ∧ t.flushed = s.flushed := by
      cases step_hosted h with
      | same _ _ starts flushed => exact ⟨by omega, flushed⟩
      | start _ _ eq =>
        rw [eq] at hle
        have : s.starts + 1 ≤ 1 := hle
        exact ⟨by omega, by rw [eq]; rfl⟩
      | host _ starts flushed =>
        refine ⟨by omega, flushed.resolve_right ?_⟩
        rintro ⟨g, hl, -⟩
        have hst := hc.stage
        rw [hl] at hst
        rw [hst.1] at hs
        exact absurd hs (by simp)
    obtain ⟨hclear, hfl⟩ := hf.clear hstarts.1 hs
    exact ⟨clear_step_emits h hc hs hclear, by rw [hstarts.2]; exact hfl⟩
  · -- the accept event is set by this step
    have hfalse : s.handler.loggingAcceptEvent = false := by simpa using hs
    have hbefore : s.life = .startBridge ∧ t.starts = s.starts ∧ t.flushed = s.flushed := by
      cases step_hosted h with
      | same handler _ _ _ =>
        rw [handler, hfalse] at haccept
        exact absurd haccept (by simp)
      | start _ _ eq =>
        rw [eq] at haccept
        exact absurd (haccept.symm.trans hfalse) (by simp)
      | host step starts flushed =>
        have hl : s.life = .startBridge := by
          generalize t.handler = h' at step haccept
          generalize t.life = l' at step
          cases step with
          | setBridge life => exact life
          | close | stop _ _ => exact absurd haccept (by simp [Handler.close])
          | _ => exact absurd (haccept.symm.trans hfalse) (by simp)
        refine ⟨hl, starts, flushed.resolve_right ?_⟩
        rintro ⟨g, hl', -⟩
        rw [hl] at hl'
        exact absurd hl' (by simp)
    obtain ⟨hl, hstarts, hflushed⟩ := hbefore
    obtain ⟨hout, hfl⟩ := hf.before (by omega) (.inr (.inr (.inr hl)))
    exact ⟨fun n => (outside_step h hfalse hout n).clear, by rw [hflushed]; exact hfl⟩

theorem First.step (hf : First s) (hc : Control s) (h : s.step a = some t) : First t := by
  refine ⟨hf.unstarted_step h, fun g => hf.ingress_step h, fun n g => hf.target_step h, ?_,
    hf.clear_step hc h⟩
  intro hle hb
  have hb' := hb.back hle h
  obtain ⟨haccept, hlife⟩ := hb'.accept hf hc
  have hkeep : s.starts ≤ 1 ∧ t.flushed = s.flushed := by
    cases step_hosted h with
    | same _ _ starts flushed => exact ⟨by omega, flushed⟩
    | start _ _ eq =>
      rw [eq] at hle
      have : s.starts + 1 ≤ 1 := hle
      exact ⟨by omega, by rw [eq]; rfl⟩
    | host _ starts flushed =>
      exact ⟨by omega, flushed.resolve_right fun ⟨_, hl, _⟩ => hlife hl⟩
  obtain ⟨hout, hfl⟩ := hf.before hkeep.1 hb'
  exact ⟨outside_step h haccept hout, by rw [hkeep.2]; exact hfl⟩

theorem first {ok : Pipeline cfg → PipelineAct cfg → Prop} (h : (pipeline cfg).Reachable ok s) :
    First s := by
  refine Machine.invariant_with (J := Control) (I := First) (fun s hs => control hs) ?_ ?_ h
  · rintro s rfl
    exact .init
  · exact fun s a t hc hf _ hstep => hf.step hc hstep

-- ---------------------------------------------------------------------------
-- The main result
-- ---------------------------------------------------------------------------

/-- The calls whose records entered the ingress of the last start before a flush
saw it empty. -/
def accepted (s : Pipeline cfg) : List Nat :=
  (s.flushed s.starts).getD (s.intake.entered s.starts)

/-- A call of `emit` has returned. -/
def Returned (s : Pipeline cfg) (n : Nat) : Prop := ∃ o, s.intake.emits n = .done o

/-- What was accepted was given to every backend, in order and once, less what
the backend refused; and every refusal was reported, once. -/
structure FannedOut (s : Pipeline cfg) : Prop where
  order : ∀ i, (s.desks i).delivered = s.accepted.filter fun n => !decide (s.intake.Refused i n)
  once : s.accepted.Nodup
  reported : ∀ i n, s.intake.reports.count (.queueFull i n) = if s.intake.Refused i n then 1 else 0

end Pipeline

/-- A record offered to backend `i` was given to it or refused by it. -/
theorem givenTo_eq {i : Fin k} {o : Taken k} (h : o.refusedBy ≠ none) :
    o.givenTo i = if o.refusal i o.call then none else some o.call := by
  obtain ⟨refused, hr⟩ := Option.ne_none_iff_exists'.mp h
  rw [Taken.givenTo, Taken.refusal, hr]
  simp

private theorem refusal_call {i : Fin k} {n : Nat} {o : Taken k} (h : o.refusal i n = true) :
    o.call = n := by
  unfold Taken.refusal at h
  split at h
  · simp only [Bool.and_eq_true, beq_iff_eq] at h
    exact h.2
  · exact absurd h (by simp)

namespace Intake.Accounts

variable {x : Intake k} {born : Nat → Prop}

/-- A record is taken out at most once, so it is refused when it is taken out. -/
theorem refused_iff (ha : x.Accounts born) {o : Taken k} (ho : o ∈ x.taken) (i : Fin k) :
    x.Refused i o.call ↔ o.refusal i o.call = true := by
  constructor
  · rintro ⟨o', ho', hr⟩
    have heq : o' = o := List.inj_on_of_nodup_map ha.takenOnce ho' ho (refusal_call hr)
    rw [heq] at hr
    exact hr
  · exact fun hr => ⟨o, ho, hr⟩

/-- A record is refused by a backend at most once. -/
theorem countP_refusal (ha : x.Accounts born) (i : Fin k) (n : Nat) :
    x.taken.countP (Taken.refusal i n) = if x.Refused i n then 1 else 0 := by
  have hle : x.taken.countP (Taken.refusal i n) ≤ 1 := by
    calc x.taken.countP (Taken.refusal i n)
        ≤ x.taken.countP (fun o => o.call == n) :=
          List.countP_mono_left fun o _ hr => by simpa using refusal_call hr
      _ = (x.taken.map Taken.call).count n := by rw [List.count, List.countP_map]; rfl
      _ ≤ 1 := List.nodup_iff_count_le_one.mp ha.takenOnce n
  split
  · rename_i hr
    have hpos : 0 < x.taken.countP (Taken.refusal i n) := List.countP_pos_iff.mpr hr
    omega
  · rename_i hr
    exact List.countP_eq_zero.mpr fun o ho h => hr ⟨o, ho, h⟩

end Intake.Accounts

namespace Pipeline

variable {cfg : Config k} {s t : Pipeline cfg} {a : PipelineAct cfg}

/-- Once the ingress is empty, and unless the teardown threw something away, all
that entered it was offered to the backends. -/
private theorem Accounts.delivered (ha : Accounts s)
    (hempty : (s.intake.ingress s.starts).items = [])
    (hoff : ∀ o ∈ s.intake.takenFrom s.starts, o.refusedBy ≠ none) (i : Fin k) :
    (s.desks i).delivered =
      (s.intake.entered s.starts).filter fun n => !decide (s.intake.Refused i n) := by
  rw [ha.given i, ha.intake.fifo s.starts, hempty, List.map_nil, List.append_nil, List.filter_map,
    ← List.filterMap_eq_map, List.filterMap_filter]
  refine List.filterMap_congr fun o ho => ?_
  have hmem := (List.mem_filter.mp ho).1
  rw [givenTo_eq (hoff o ho)]
  by_cases hr : o.refusal i o.call = true
  · simp [hr, (ha.intake.refused_iff hmem i).mpr hr]
  · have hnot : ¬ s.intake.Refused i o.call := fun h => hr ((ha.intake.refused_iff hmem i).mp h)
    simp [hr, hnot]

/-- The flush ends when it sees the ingress of the cycle empty. -/
theorem flush_ends (hc : Control s) (hlife : s.life = .flushing)
    (h : s.step .advance = some t) (hend : t.life ≠ .flushing) :
    (s.intake.ingress s.starts).items = [] ∧
      t = { s with
        life := .draining fun _ => .joining
        flushed := Function.update s.flushed s.starts (some (s.intake.entered s.starts)) } := by
  have hst := hc.stage
  rw [hlife] at hst
  have hcur : s.handler.ingress = some s.starts := hst.2.1.ingress
  rcases advance_flushing hlife h with ⟨hnone, -⟩ | ⟨g, hg, hm | ⟨hm, ht⟩⟩
  · rw [hnone] at hcur
    exact absurd hcur (by simp)
  · rw [(moveOne_control hm).2.2.1] at hend
    exact absurd hlife hend
  · obtain rfl : g = s.starts := Option.some.inj (hg.symm.trans hcur)
    exact ⟨moveOne_eq_none.mp hm, ht⟩

/-- The flush ends with everything accepted fanned out. -/
private theorem flush_fannedOut {ok : Pipeline cfg → PipelineAct cfg → Prop}
    (hs : (pipeline cfg).Reachable ok s) (hlife : s.life = .flushing)
    (h : s.step .advance = some t) (hend : t.life ≠ .flushing) :
    t.accepted = s.intake.entered s.starts ∧ t.FannedOut := by
  have ha := accounts hs
  obtain ⟨hempty, rfl⟩ := flush_ends (control hs) hlife h hend
  have hacc : accepted { s with
      life := .draining fun _ => .joining
      flushed := Function.update s.flushed s.starts (some (s.intake.entered s.starts)) } =
        s.intake.entered s.starts := by
    show ((Function.update s.flushed s.starts _) s.starts).getD _ = _
    rw [Function.update_self, Option.getD_some]
  refine ⟨hacc, fun i => ?_, ?_, fun i n => ?_⟩
  · rw [hacc]
    refine ha.delivered hempty (fun o ho hnone => ?_) i
    -- the teardown has not come to throwing records away
    rcases offered hs o ho hnone with hl | hl | hl | hl | ⟨hl, -⟩ <;>
    · rw [hlife] at hl
      exact absurd hl (by simp)
  · rw [hacc]
    exact ha.intake.once s.starts
  · exact (ha.reported i n).trans (ha.intake.countP_refusal i n)

/-- In a first cycle, a call of `emit` that returns was accepted, or reported, or
finds the accept event clear. -/
private theorem returned_accounted {ok : Pipeline cfg → PipelineAct cfg → Prop}
    (hs : (pipeline cfg).Reachable ok s) (h : s.step a = some t) (hfirst : s.starts ≤ 1) {n : Nat}
    (hbefore : ¬ s.Returned n) (hafter : t.Returned n) :
    n ∈ t.accepted ∨ .ingressFull n ∈ t.intake.reports ∨
      t.handler.loggingAcceptEvent = false := by
  have ha := accounts hs
  have hf := first hs
  have hstep := step_changed h
  obtain ⟨o, ho⟩ := hafter
  -- only a statement of the call itself makes it return
  have hemit : a = .emit n := by
    by_contra hne
    refine hbefore ⟨o, ?_⟩
    rcases hstep with ⟨-, -, -, -, -, intake, -⟩ | ⟨hintake, -⟩
    · rw [intake] at ho
      exact ho
    · cases hintake with
      | keep intake | event intake | discard _ _ _ intake | renew _ intake =>
        rw [intake] at ho
        exact ho
      | call intake =>
        rw [intake] at ho
        by_cases hn : n = s.intake.calls
        · rw [hn, Intake.setEmit_self] at ho
          exact absurd ho (by simp)
        · rwa [Intake.setEmit_ne _ _ hn] at ho
      | @emit m is step =>
        have hm : n ≠ m := fun heq => hne (by rw [is, heq])
        rwa [step.next.2 n hm] at ho
  subst hemit
  obtain ⟨x, hx, rfl⟩ := Option.map_eq_some_iff.mp h
  show n ∈ (s.flushed s.starts).getD (x.entered s.starts) ∨ .ingressFull n ∈ x.reports ∨
    s.handler.loggingAcceptEvent = false
  have hclear : s.handler.loggingAcceptEvent = true → (s.intake.emits n).Clear :=
    fun haccept => (hf.clear hfirst haccept).1 n
  cases Intake.emitStep_spec hx with
  | ignored _ accept => exact .inr (.inr accept)
  | released pc unset =>
    refine .inr (.inr ?_)
    by_contra haccept
    have haccept : s.handler.loggingAcceptEvent = true := by simpa using haccept
    -- while the accept event is set, the three references are there
    have hcl := hclear haccept
    rw [pc] at hcl
    have hcur := (control hs).stage.current_of_accept haccept
    rcases unset with hg | hl | he
    · exact hcl.1 hg
    · rw [hcl.2] at hl
      exact absurd hl (by simp)
    · rw [hcur.ingressEvent] at he
      exact absurd he (by simp)
  | full pc =>
    refine .inr (.inl ?_)
    show Report.ingressFull n ∈ s.intake.reports ++ [.ingressFull n]
    simp
  | @delivered g e pc =>
    have hin := ha.intake.woken n g e pc
    have hg : g = s.starts := by
      have hpos := hf.target n g (by rw [pc]; rfl)
      by_contra hne
      have hnil : s.intake.entered g = [] := ha.intake.unborn g (by
        rintro (hlt | ⟨heq, -⟩)
        · omega
        · exact hne heq)
      rw [hnil] at hin
      exact absurd hin (by simp)
    by_cases haccept : s.handler.loggingAcceptEvent = true
    · refine .inl ?_
      rw [(hf.clear hfirst haccept).2 s.starts, Option.getD_none, ← hg]
      exact hin
    · exact .inr (.inr (by simpa using haccept))
  | accepted pc _ | ingress pc | loop pc | event pc _ | entered pc _ =>
    have hself : (Intake.setEmit _ n _).emits n = .done o := ho
    rw [Intake.setEmit_self] at hself
    exact absurd hself (by simp)

/-- A backend refuses what finds its own queue full. -/
private theorem refused_full (h : s.step a = some t) {i : Fin k} {n : Nat}
    (hbefore : ¬ s.intake.Refused i n) (hafter : t.intake.Refused i n) :
    (s.desks i).ledger.queue.full = true := by
  obtain ⟨o, ho, hr⟩ := hafter
  have hold : ¬ o ∈ s.intake.taken := fun hmem => hbefore ⟨o, hmem, hr⟩
  have hnew : o.refusedBy = none → False := by
    intro hnone
    rw [Taken.refusal, hnone] at hr
    exact absurd hr (by simp)
  cases step_changed h with
  | @moved g e q _ _ _ _ _ intake _ =>
    rw [intake] at ho
    rcases List.mem_append.mp ho with ho | ho
    · exact absurd ho hold
    · rw [List.mem_singleton.mp ho] at hr
      have hrefuses : (s.desks i).refuses (.emitted e) = true := by
        simp only [Taken.refusal, Bool.and_eq_true] at hr
        exact hr.1
      exact Ledger.put_eq_none.mp (by simpa [Desk.refuses] using hrefuses)
  | other hintake _ =>
    cases hintake with
    | keep intake | call intake | event intake | renew _ intake =>
      rw [intake] at ho
      exact absurd ho hold
    | emit _ step => exact absurd (step.taken ▸ ho) hold
    | discard _ _ _ intake =>
      rw [intake] at ho
      rcases List.mem_append.mp ho with ho | ho
      · exact absurd ho hold
      · rw [List.mem_singleton.mp ho] at hnew
        exact (hnew rfl).elim

/-- **Every record, to every backend, once.** For every interleaving of emitting
threads, bridge, workers, cancellations and starts and stops: when a flush ends,
what entered the ingress before it saw it empty is what every backend queue was
given, in order, less what that queue had no room for, which was reported; and a
call of `emit` in a first cycle is accepted, reported or too late. -/
theorem flush_delivers (hs : (pipeline cfg).Reachable Machine.Always s)
    (h : s.step a = some t) :
    (s.life = .flushing → a = .advance → t.life ≠ .flushing →
      t.accepted = s.intake.entered s.starts ∧ t.FannedOut) ∧
    (∀ i n, ¬ s.intake.Refused i n → t.intake.Refused i n →
      (s.desks i).ledger.queue.full = true) ∧
    (∀ n, s.starts ≤ 1 → ¬ s.Returned n → t.Returned n →
      n ∈ t.accepted ∨ .ingressFull n ∈ t.intake.reports ∨
        t.handler.loggingAcceptEvent = false) := by
  refine ⟨?_, fun i n => refused_full h, fun n hfirst => returned_accounted hs h hfirst⟩
  rintro hlife rfl hend
  exact flush_fannedOut hs hlife h hend

/-- A console backend with room for one record. -/
def oneConsole : Config 1 where
  kind := fun _ => .sink .console
  queueMaxsize := fun _ => 1
  reporter := fun _ => true
  label := fun _ => "Console"

/-- Two records are emitted; logging stops before the bridge has run. -/
def twoRecords : List (PipelineAct oneConsole) :=
  let record : LogRecord := ⟨20, "app", .ok "started", .ok "1970-01-01T00:00:00+00:00"⟩
  [.start 8, .advance, .advance, .advance, .advance,
    .emitCall record, .emit 0, .emit 0, .emit 0, .emit 0, .emit 0, .emit 0,
    .emitCall record, .emit 1, .emit 1, .emit 1, .emit 1, .emit 1, .emit 1,
    .stop, .bridge 1, .bridgeAwaited, .advance, .advance]

theorem flush_delivers_two :
    ∃ s t, (pipeline oneConsole).run Machine.Always (init oneConsole) twoRecords = some s ∧
      s.step .advance = some t ∧ t.accepted = [0, 1] ∧ (t.desks 0).delivered = [0] ∧
      t.intake.reports = [.queueFull 0 1] ∧ t.FannedOut := by
  have hrun : ∃ s t, (pipeline oneConsole).run Machine.Always (init oneConsole) twoRecords = some s ∧
      s.step .advance = some t ∧ s.life = .flushing ∧ t.life = .draining (fun _ => .joining) ∧
      s.intake.entered s.starts = [0, 1] ∧ (t.desks 0).delivered = [0] ∧
      t.intake.reports = [.queueFull 0 1] := ⟨_, _, rfl, rfl, rfl, rfl, rfl, rfl, rfl⟩
  obtain ⟨s, t, hs, ht, hlife, hend, hent, hdel, hrep⟩ := hrun
  obtain ⟨hacc, hfan⟩ := (flush_delivers (.of_run rfl hs) ht).1 hlife rfl (by rw [hend]; simp)
  exact ⟨s, t, hs, ht, hacc.trans hent, hdel, hrep, hfan⟩

end Pipeline

end ScietexLogging
