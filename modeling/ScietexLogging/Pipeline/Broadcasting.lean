import ScietexLogging.Asyncio.Refinement
import ScietexLogging.Channel.Broadcast
import ScietexLogging.Pipeline.Fanout

/-!
# Pipeline — the handler as a lossy broadcast

What the whole handler is for, once its events, references, tasks and queues are left
out: a channel that carries the records of the `emit` calls to the backends. Every start
opens the channel anew, and what the last cycle left in it is lost.

* `Represents`     — the channel that a state of the handler stands for;
* `simulation`     — every step of the handler is a step of the channel, or several, or none;
* `refines`        — every run, over any number of cycles, is a run of the channel;
* `emits_in_order` — a record whose `emit` was called when that of another had returned is
  not put into any backend queue before it.
-/

namespace ScietexLogging

open Asyncio Channel

variable {k : Nat}

/-- Putting an item in. -/
theorem Desk.offer_calls {C : Consumer Item Outcome} (d : Desk C) (e : Emitted) :
    (d.offer (.emitted e)).calls =
      if d.refuses (.emitted e) then d.calls else d.calls ++ [e.call] := by
  rw [calls, calls, (offer_spec d (.emitted e)).log]
  split
  · rfl
  · rw [List.filterMap_append]
    rfl

namespace Pipeline

variable {cfg : Config k} {s t : Pipeline cfg} {a : PipelineAct cfg}

/-- A step that moves no record gives none to a backend. -/
private theorem DeskChange.calls {i : Fin k} (h : DeskChange s t a i) (hsound : (s.desks i).Sound) :
    (t.desks i).calls = (s.desks i).calls := by
  obtain ⟨ys, hlog, hstatus⟩ := h.log hsound
  have hnone : ys.filterMap Item.call? = [] := by
    refine List.filterMap_eq_nil_iff.mpr fun y hy => ?_
    obtain ⟨r, rfl⟩ := hstatus y hy
    rfl
  rw [Desk.calls, hlog, List.filterMap_append, hnone, List.append_nil, Desk.calls]

-- ---------------------------------------------------------------------------
-- The channel
-- ---------------------------------------------------------------------------

/-- The record of call `n` was taken out, and not given to backend `i`. -/
def Withheld (s : Pipeline cfg) (i : Fin k) (n : Nat) : Prop :=
  ∃ o ∈ s.intake.taken, o.call = n ∧ o.givenTo i = none

/-- The record of call `n` is in an ingress that nobody takes anything out of any more. -/
def Stranded (s : Pipeline cfg) (n : Nat) : Prop :=
  ∃ g, g ≠ s.starts ∧ n ∈ (s.intake.ingress g).items.map Emitted.call

/-- The channel that a state stands for: what entered an ingress was sent, and is pending
while it is in the ingress of the last start. -/
structure Represents (s : Pipeline cfg) (c : Broadcast (Fin k) Nat) : Prop where
  sent : ∀ n, n ∈ c.sent ↔ ∃ g, n ∈ s.intake.entered g
  pending : c.pending = (s.intake.ingress s.starts).items.map Emitted.call
  got : ∀ i, c.got i = (s.desks i).calls
  missed : ∀ i n, n ∈ c.missed i ↔ s.Withheld i n ∨ s.Stranded n

namespace Represents

variable {c : Broadcast (Fin k) Nat}

theorem init : (init cfg).Represents .new := by
  refine ⟨fun n => ⟨fun h => absurd h List.not_mem_nil, ?_⟩, rfl, fun i => rfl,
    fun i n => ⟨fun h => absurd h List.not_mem_nil, ?_⟩⟩
  · rintro ⟨g, hg⟩
    exact hg
  · rintro (⟨o, ho, -⟩ | ⟨g, -, hg⟩)
    · exact absurd ho List.not_mem_nil
    · exact absurd hg List.not_mem_nil

/-- A step that moves, adds and loses no record. -/
theorem congr (hr : s.Represents c) (hstarts : t.starts = s.starts)
    (hentered : t.intake.entered = s.intake.entered)
    (hitems : ∀ g, (t.intake.ingress g).items = (s.intake.ingress g).items)
    (htaken : t.intake.taken = s.intake.taken) (hcalls : ∀ i, (t.desks i).calls = (s.desks i).calls) :
    t.Represents c := by
  refine ⟨fun n => ?_, ?_, fun i => (hr.got i).trans (hcalls i).symm, fun i n => ?_⟩
  · rw [hr.sent, hentered]
  · rw [hr.pending, hstarts, hitems]
  · rw [hr.missed, Withheld, Withheld, Stranded, Stranded, htaken, hstarts]
    simp only [hitems]

/-- The head of the current ingress is taken out, for the backends that do not refuse it. -/
theorem take (hr : s.Represents c) {e : Emitted} {q : BoundedQueue Emitted} {o : Taken k}
    (hget : (s.intake.ingress s.starts).getNowait = some (e, q)) (ho : o.call = e.call)
    (hstarts : t.starts = s.starts) (hentered : t.intake.entered = s.intake.entered)
    (hingress : t.intake.ingress = Function.update s.intake.ingress s.starts q)
    (htaken : t.intake.taken = s.intake.taken ++ [o])
    (hcalls : ∀ i, (t.desks i).calls =
      if o.givenTo i = none then (s.desks i).calls else (s.desks i).calls ++ [e.call]) :
    ∃ c', (broadcast (Fin k) Nat).Reaches Machine.Always c c' ∧ t.Represents c' := by
  obtain ⟨-, hitems⟩ := BoundedQueue.getNowait_eq_some.mp hget
  have hpending : c.pending = e.call :: q.items.map Emitted.call := by
    rw [hr.pending, hitems, List.map_cons]
  refine ⟨_, .head (a := .give fun i => decide (o.givenTo i = none)) trivial
    (Broadcast.step_give hpending) (.refl _), ?_⟩
  refine ⟨fun n => ?_, ?_, fun i => ?_, fun i n => ?_⟩
  · rw [hentered]
    exact hr.sent n
  · rw [hingress, hstarts, Function.update_self]
    rfl
  · rw [hcalls i]
    show (if decide _ = true then _ else _) = _
    simp only [decide_eq_true_eq, hr.got i]
  · have hstranded : t.Stranded n ↔ s.Stranded n := by
      refine exists_congr fun g => ?_
      rw [hstarts]
      refine and_congr_right fun hg => ?_
      rw [hingress, Function.update_of_ne hg]
    have hwithheld : t.Withheld i n ↔ s.Withheld i n ∨ (e.call = n ∧ o.givenTo i = none) := by
      rw [Withheld, htaken]
      simp only [List.mem_append, List.mem_singleton, or_and_right, exists_or, exists_eq_left, ho]
      rfl
    rw [hstranded, hwithheld]
    show n ∈ (if decide _ = true then _ else _) ↔ _
    have hmissed := hr.missed i n
    by_cases hnone : o.givenTo i = none
    · rw [if_pos (decide_eq_true hnone), List.mem_append, List.mem_singleton, hmissed]
      constructor
      · rintro ((hw | hs) | rfl)
        · exact .inl (.inl hw)
        · exact .inr hs
        · exact .inl (.inr ⟨rfl, hnone⟩)
      · rintro ((hw | ⟨rfl, -⟩) | hs)
        · exact .inl (.inl hw)
        · exact .inr rfl
        · exact .inl (.inr hs)
    · rw [if_neg (by rw [decide_eq_true_eq]; exact hnone), hmissed]
      simp only [hnone, and_false, or_false]

/-- A call puts its record into an ingress; into any but that of the last start, it is lost. -/
theorem put (hr : s.Represents c) {n g : Nat} {x : Emitted} {q : BoundedQueue Emitted}
    (hnew : ∀ g', n ∉ s.intake.entered g') (hx : x.call = n)
    (hput : (s.intake.ingress g).putNowait x = some q) (hstarts : t.starts = s.starts)
    (hentered : t.intake.entered = Function.update s.intake.entered g (s.intake.entered g ++ [n]))
    (hingress : t.intake.ingress = Function.update s.intake.ingress g q)
    (htaken : t.intake.taken = s.intake.taken) (hcalls : ∀ i, (t.desks i).calls = (s.desks i).calls) :
    ∃ c', (broadcast (Fin k) Nat).Reaches Machine.Always c c' ∧ t.Represents c' := by
  obtain ⟨-, -, hitems⟩ := BoundedQueue.putNowait_eq_some.mp hput
  have hunsent : n ∉ c.sent := by
    rw [hr.sent]
    rintro ⟨g', hg'⟩
    exact hnew g' hg'
  have hsent : ∀ m, m ∈ c.sent ++ [n] ↔ ∃ g', m ∈ t.intake.entered g' := by
    intro m
    rw [List.mem_append, List.mem_singleton, hr.sent, hentered]
    constructor
    · rintro (⟨g', hg'⟩ | rfl)
      · by_cases hgg : g' = g
        · refine ⟨g, ?_⟩
          rw [Function.update_self, List.mem_append, ← hgg]
          exact .inl hg'
        · exact ⟨g', by rwa [Function.update_of_ne hgg]⟩
      · exact ⟨g, by simp⟩
    · rintro ⟨g', hg'⟩
      by_cases hgg : g' = g
      · rw [hgg, Function.update_self, List.mem_append, List.mem_singleton] at hg'
        exact hg'.imp_left fun h => ⟨g, h⟩
      · rw [Function.update_of_ne hgg] at hg'
        exact .inl ⟨g', hg'⟩
  have hwithheld : ∀ i m, t.Withheld i m ↔ s.Withheld i m := fun i m => by
    rw [Withheld, htaken, Withheld]
  have hmap : q.items.map Emitted.call = (s.intake.ingress g).items.map Emitted.call ++ [n] := by
    rw [hitems, List.map_append, List.map_singleton, hx]
  by_cases hg : g = s.starts
  · refine ⟨_, .head trivial (Broadcast.step_send hunsent) (.refl _), hsent, ?_,
      fun i => (hr.got i).trans (hcalls i).symm, fun i m => ?_⟩
    · rw [hingress, hstarts, hg, Function.update_self, hmap, hg]
      exact congrArg (· ++ [n]) hr.pending
    · rw [hwithheld]
      refine (hr.missed i m).trans (or_congr_right (exists_congr fun g' => ?_))
      rw [hstarts]
      refine and_congr_right fun hne => ?_
      rw [hingress, Function.update_of_ne (fun h => hne (h.trans hg))]
  · refine ⟨_, .head trivial (Broadcast.step_lose hunsent) (.refl _), hsent, ?_,
      fun i => (hr.got i).trans (hcalls i).symm, fun i m => ?_⟩
    · rw [hingress, hstarts, Function.update_of_ne (Ne.symm hg)]
      exact hr.pending
    · show m ∈ c.missed i ++ [n] ↔ _
      have hstranded : t.Stranded m ↔ s.Stranded m ∨ m = n := by
        rw [Stranded, hstarts, hingress]
        constructor
        · rintro ⟨g', hne, hmem⟩
          by_cases hgg : g' = g
          · rw [hgg, Function.update_self, hmap, List.mem_append, List.mem_singleton] at hmem
            exact hmem.imp_left fun h => ⟨g, hg, h⟩
          · rw [Function.update_of_ne hgg] at hmem
            exact .inl ⟨g', hne, hmem⟩
        · rintro (⟨g', hne, hmem⟩ | rfl)
          · refine ⟨g', hne, ?_⟩
            by_cases hgg : g' = g
            · rw [hgg, Function.update_self, hmap, List.mem_append, ← hgg]
              exact .inl hmem
            · rwa [Function.update_of_ne hgg]
          · exact ⟨g, hg, by rw [Function.update_self, hmap]; simp⟩
      rw [List.mem_append, List.mem_singleton, hr.missed, hwithheld, hstranded, or_assoc]

/-- A start makes a new ingress; what the last one was left with is lost. -/
theorem start (hr : s.Represents c) (m : Nat) (hempty : (s.intake.ingress (s.starts + 1)).items = []) :
    ∃ c', (broadcast (Fin k) Nat).Reaches Machine.Always c c' ∧ (s.startLogging m).Represents c' := by
  obtain ⟨d, hd, hsent, hpending, hgot, hmissed⟩ := c.lose_pending
  refine ⟨d, hd, fun n => ?_, ?_, fun i => ?_, fun i n => ?_⟩
  · rw [hsent]
    exact hr.sent n
  · rw [hpending]
    show [] = (s.intake.ingress (s.starts + 1)).items.map Emitted.call
    rw [hempty, List.map_nil]
  · rw [hgot, hr.got i]
    rfl
  · rw [hmissed i, List.mem_append, hr.missed, hr.pending, or_assoc]
    refine or_congr_right ⟨?_, ?_⟩
    · rintro (⟨g, -, hg⟩ | hmem)
      · refine ⟨g, ?_, hg⟩
        rintro rfl
        rw [show (s.intake.ingress (s.startLogging m).starts).items = [] from hempty] at hg
        exact absurd hg List.not_mem_nil
      · exact ⟨s.starts, Nat.ne_of_lt (Nat.lt_succ_self _), hmem⟩
    · rintro ⟨g, -, hg⟩
      by_cases hgs : g = s.starts
      · exact .inr (hgs ▸ hg)
      · exact .inl ⟨g, hgs, hg⟩

end Represents

/-- An ingress that has not been made is empty. -/
private theorem unborn_empty (ha : Accounts s) {g : Nat} (hg : ¬ s.Born g) :
    (s.intake.ingress g).items = [] := by
  have hfifo := ha.intake.fifo g
  rw [ha.intake.unborn g hg] at hfifo
  exact List.map_eq_nil_iff.mp (List.append_eq_nil_iff.mp hfifo.symm).2

/-- **What a step is to the channel.** -/
private theorem Represents.step (hc : Control s) (ha : Accounts s) (hsound : ∀ i, (s.desks i).Sound)
    (h : s.step a = some t) {c : Broadcast (Fin k) Nat} (hr : s.Represents c) :
    ∃ c', (broadcast (Fin k) Nat).Reaches Machine.Always c c' ∧ t.Represents c' := by
  rcases step_starts h with ⟨hstarts, -⟩ | ⟨m, -, -, rfl⟩
  · cases step_changed h with
    | @moved g e q mover get _ _ _ intake desks =>
      obtain rfl := hc.mover mover
      refine hr.take get (o := ⟨s.starts, e.call, some fun i => (s.desks i).refuses (.emitted e)⟩) rfl
        hstarts (by rw [intake]; rfl) (by rw [intake]; rfl) (by rw [intake]; rfl) fun i => ?_
      rw [desks i, Desk.offer_calls]
      cases hrefuses : (s.desks i).refuses (.emitted e) <;> simp [Taken.givenTo, hrefuses]
    | other hintake desk =>
      have hcalls := fun i => (desk i).calls (hsound i)
      cases hintake with
      | keep intake | event intake =>
        exact ⟨c, .refl c, hr.congr hstarts (by rw [intake]) (fun g => by rw [intake])
          (by rw [intake]) hcalls⟩
      | call intake =>
        exact ⟨c, .refl c, hr.congr hstarts (by rw [intake]; rfl) (fun g => by rw [intake]; rfl)
          (by rw [intake]; rfl) hcalls⟩
      | discard life ingress get intake =>
        have hst := hc.stage
        rw [life] at hst
        obtain rfl := Option.some.inj (ingress.symm.trans hst.2.1.ingress)
        exact hr.take get rfl hstarts (by rw [intake]; rfl) (by rw [intake]; rfl) (by rw [intake]; rfl)
          fun i => (hcalls i).trans (if_pos rfl).symm
      | @renew m life intake =>
        refine ⟨c, .refl c, hr.congr hstarts (by rw [intake]) (fun g => ?_) (by rw [intake]) hcalls⟩
        rw [intake]
        show (Function.update s.intake.ingress s.starts (.new m) g).items = _
        by_cases hg : g = s.starts
        · have hborn : ¬ s.Born g := by
            rintro (hlt | ⟨-, hne⟩)
            · omega
            · exact hne m life
          rw [unborn_empty ha hborn, hg, Function.update_self]
          rfl
        · rw [Function.update_of_ne hg]
      | @emit n is step =>
        generalize hy : t.intake = y at step
        cases step with
        | entered pc put =>
          have hnew : ∀ g', n ∉ s.intake.entered g' := by
            intro g' hmem
            have hput := ha.intake.seen n g' hmem
            rw [pc] at hput
            exact hput.elim
          exact hr.put hnew rfl put hstarts (by rw [hy]; rfl) (by rw [hy]; rfl) (by rw [hy]; rfl) hcalls
        | _ =>
          exact ⟨c, .refl c, hr.congr hstarts (by rw [hy]; rfl) (fun g => by rw [hy]; rfl)
            (by rw [hy]; rfl) hcalls⟩
  · refine hr.start m (unborn_empty ha ?_)
    rintro (hlt | ⟨heq, -⟩) <;> omega

/-- Along `Represents`, the channel can follow every step of the handler. -/
theorem simulation : Machine.Simulation (pipeline cfg) Machine.Always (broadcast (Fin k) Nat)
    Represents := by
  refine ⟨?_, fun s a t hs _ hstep c hr => ?_⟩
  · rintro s rfl
    exact ⟨.new, rfl, .init⟩
  · exact hr.step (control hs) (accounts hs) (fun i => desks_sound hs i) hstep

/-- **The handler is a lossy broadcast**: whatever is interleaved and however often logging is
started, what the handler has done is what the channel can do, and what it does from there on is
a run of the channel. -/
theorem refines (hs : (pipeline cfg).Reachable Machine.Always s)
    (h : (pipeline cfg).Reaches Machine.Always s t) :
    ∃ c d, (broadcast (Fin k) Nat).Reachable Machine.Always c ∧ s.Represents c ∧
      (broadcast (Fin k) Nat).Reaches Machine.Always c d ∧ t.Represents d := by
  obtain ⟨c, hc, hr⟩ := simulation.abstract hs
  obtain ⟨d, hd, hr'⟩ := simulation.reaches hs h hr
  exact ⟨c, d, hc, hr, hd, hr'⟩

/-- A console backend with room for everything. -/
def roomyConsole : Config 1 where
  kind := fun _ => .sink .console
  queueMaxsize := fun _ => 8
  reporter := fun _ => false
  label := fun _ => "Console"

/-- Logging starts; a record is emitted. -/
def firstEmit : List (PipelineAct roomyConsole) :=
  let record : LogRecord := ⟨20, "app", .ok "first", .ok "1970-01-01T00:00:00+00:00"⟩
  [.start 8, .advance, .advance, .advance, .advance,
    .emitCall record, .emit 0, .emit 0, .emit 0, .emit 0, .emit 0, .emit 0]

/-- Another is emitted; the bridge moves both. -/
def secondEmit : List (PipelineAct roomyConsole) :=
  let record : LogRecord := ⟨20, "app", .ok "second", .ok "1970-01-01T00:00:01+00:00"⟩
  [.emitCall record, .emit 1, .emit 1, .emit 1, .emit 1, .emit 1, .emit 1,
    .runSet 1, .bridge 1, .bridge 1, .bridge 1, .bridge 1]

theorem refines_two :
    ∃ s t c d, (pipeline roomyConsole).run Machine.Always (init roomyConsole) firstEmit = some s ∧
      (pipeline roomyConsole).run Machine.Always s secondEmit = some t ∧
      (broadcast (Fin 1) Nat).Reaches Machine.Always c d ∧ s.Represents c ∧ t.Represents d ∧
      d.got (Fin.last 0) = [0, 1] := by
  have hrun : ∃ s t,
      (pipeline roomyConsole).run Machine.Always (init roomyConsole) firstEmit = some s ∧
      (pipeline roomyConsole).run Machine.Always s secondEmit = some t ∧
      (t.desks (Fin.last 0)).calls = [0, 1] :=
    ⟨_, _, rfl, rfl, rfl⟩
  obtain ⟨s, t, hs, ht, hput⟩ := hrun
  obtain ⟨c, d, -, hc, hcd, hd⟩ := refines (.of_run rfl hs) (.of_run ht)
  exact ⟨s, t, c, d, hs, ht, hcd, hc, hd, (hd.got _).trans hput⟩

end Pipeline

-- ---------------------------------------------------------------------------
-- What the channel says about emit
-- ---------------------------------------------------------------------------

/-- The call has put its record into an ingress. -/
def EmitPc.IsEntered : EmitPc → Prop
  | .wake _ _ | .done .delivered => True
  | _ => False

def EmitPc.isFull : EmitPc → Bool
  | .done .full => true
  | _ => false

namespace Intake

/-- How the calls of `emit` have ended, by what they have done. -/
structure Ended (x : Intake k) : Prop where
  entered : ∀ n, (∃ g, n ∈ x.entered g) ↔ (x.emits n).IsEntered
  full : ∀ n, x.reports.count (.ingressFull n) = if (x.emits n).isFull then 1 else 0

variable {x y : Intake k}

/-- One call goes on, and puts nothing into an ingress. -/
theorem Ended.setEmit (hx : x.Ended) {n : Nat} {pc : EmitPc}
    (hentered : pc.IsEntered ↔ (x.emits n).IsEntered) (hfull : pc.isFull = (x.emits n).isFull) :
    (x.setEmit n pc).Ended := by
  refine ⟨fun m => (hx.entered m).trans ?_, fun m => (hx.full m).trans ?_⟩
  · by_cases hm : m = n
    · rw [hm, setEmit_self]
      exact hentered.symm
    · rw [setEmit_ne _ _ hm]
  · by_cases hm : m = n
    · rw [hm, setEmit_self, hfull]
    · rw [setEmit_ne _ _ hm]

theorem Ended.emitStep (hx : x.Ended) {h : Handler k} {starts n : Nat}
    (hstep : EmitStep x h starts n y) : y.Ended := by
  cases hstep with
  | accepted pc _ | ignored pc _ | ingress pc | loop pc | event pc _ | released pc _ =>
    exact hx.setEmit (by rw [pc]; exact Iff.rfl) (by rw [pc]; rfl)
  | @entered r g e q pc put =>
    refine ⟨fun m => ?_, fun m => (hx.full m).trans ?_⟩
    · show (∃ g', m ∈ Function.update x.entered g (x.entered g ++ [n]) g') ↔ _
      have hother : (∃ g', m ∈ Function.update x.entered g (x.entered g ++ [n]) g') ↔
          (∃ g', m ∈ x.entered g') ∨ m = n := by
        constructor
        · rintro ⟨g', hmem⟩
          by_cases hg : g' = g
          · rw [hg, Function.update_self, List.mem_append, List.mem_singleton] at hmem
            exact hmem.imp_left fun h => ⟨g, h⟩
          · rw [Function.update_of_ne hg] at hmem
            exact .inl ⟨g', hmem⟩
        · rintro (⟨g', hmem⟩ | rfl)
          · by_cases hg : g' = g
            · exact ⟨g, by rw [Function.update_self, ← hg]; exact List.mem_append_left _ hmem⟩
            · exact ⟨g', by rwa [Function.update_of_ne hg]⟩
          · exact ⟨g, by rw [Function.update_self]; exact List.mem_append_right _ List.mem_cons_self⟩
      rw [hother, hx.entered]
      by_cases hm : m = n
      · rw [hm, setEmit_self]
        exact iff_of_true (.inr rfl) trivial
      · rw [setEmit_ne _ _ hm]
        exact or_iff_left hm
    · by_cases hm : m = n
      · rw [hm, pc, setEmit_self]
        rfl
      · rw [setEmit_ne _ _ hm]
  | full pc =>
    refine ⟨fun m => (hx.entered m).trans ?_, fun m => ?_⟩
    · by_cases hm : m = n
      · rw [hm, pc, setEmit_self]
        exact Iff.rfl
      · exact iff_of_eq (congrArg _ (setEmit_ne _ _ hm).symm)
    · show (x.reports ++ [Report.ingressFull n]).count (Report.ingressFull m) = _
      rw [List.count_append, hx.full m]
      by_cases hm : m = n
      · rw [hm, pc, setEmit_self]
        simp [EmitPc.isFull]
      · have hother : [(Report.ingressFull n : Report k)].count (.ingressFull m) = 0 := by
          refine List.count_eq_zero_of_not_mem fun h => hm ?_
          exact Report.ingressFull.inj (List.mem_singleton.mp h)
        rw [setEmit_ne _ _ hm, hother]
        rfl
  | delivered pc =>
    refine ⟨fun m => (hx.entered m).trans ?_, fun m => (hx.full m).trans ?_⟩
    · by_cases hm : m = n
      · rw [hm, pc, setEmit_self]
        exact Iff.rfl
      · exact iff_of_eq (congrArg _ (setEmit_ne _ _ hm).symm)
    · by_cases hm : m = n
      · rw [hm, pc, setEmit_self]
        rfl
      · rw [setEmit_ne _ _ hm]
        rfl

end Intake

namespace Pipeline

variable {cfg : Config k} {s t : Pipeline cfg} {a : PipelineAct cfg}

theorem ended {ok : Pipeline cfg → PipelineAct cfg → Prop} (h : (pipeline cfg).Reachable ok s) :
    s.intake.Ended := by
  refine Machine.invariant_with (J := Accounts) (I := fun s => s.intake.Ended)
    (fun s hs => accounts hs) ?_ ?_ h
  · rintro s rfl
    exact ⟨fun n => ⟨fun ⟨_, h⟩ => absurd h List.not_mem_nil, fun h => h.elim⟩, fun n => rfl⟩
  · rintro s a t ha hx - hstep
    cases step_changed hstep with
    | moved _ _ _ _ _ intake _ =>
      rw [intake]
      refine ⟨hx.entered, fun n => ?_⟩
      show (s.intake.reports ++ _).count _ = _
      rw [List.count_append, hx.full n, List.count_eq_zero_of_not_mem]
      · rfl
      · intro h
        obtain ⟨i, -, heq⟩ := List.mem_map.mp h
        cases heq
    | other hintake _ =>
      cases hintake with
      | keep intake => rw [intake]; exact hx
      | event intake => rw [intake]; exact ⟨hx.entered, hx.full⟩
      | discard _ _ _ intake => rw [intake]; exact ⟨hx.entered, hx.full⟩
      | renew _ intake => rw [intake]; exact ⟨hx.entered, hx.full⟩
      | emit _ step => exact hx.emitStep step
      | call intake =>
        have hidle := ha.intake.fresh _ (Nat.le_refl _)
        rw [intake]
        exact Intake.Ended.setEmit (x := { s.intake with calls := s.intake.calls + 1 })
          ⟨hx.entered, hx.full⟩ (by rw [hidle]; exact Iff.rfl) (by rw [hidle]; rfl)

/-- A call of `emit` that has returned has sent its record into the channel, and one that is yet
to come has not. -/
theorem sent_before (hs : (pipeline cfg).Reachable Machine.Always s)
    (h : (pipeline cfg).Reaches Machine.Always s t) {m n : Nat}
    (hm : s.intake.emits m = .done .delivered) (hn : s.intake.calls ≤ n) :
    ∃ c d, (broadcast (Fin k) Nat).Reachable Machine.Always c ∧
      (broadcast (Fin k) Nat).Reaches Machine.Always c d ∧ t.Represents d ∧ m ∈ c.sent ∧ n ∉ c.sent := by
  obtain ⟨c, hc, hr⟩ := simulation.abstract hs
  obtain ⟨d, hd, hr'⟩ := simulation.reaches hs h hr
  refine ⟨c, d, hc, hd, hr', ?_, ?_⟩
  · rw [hr.sent, (ended hs).entered, hm]
    trivial
  · rw [hr.sent, (ended hs).entered, (accounts hs).intake.fresh n hn]
    exact id

/-- **Calls of `emit` that do not overlap stay in order**, for every backend, over any number
of cycles: a record whose `emit` was called when that of another had returned is not put into
a backend queue before it. -/
theorem emits_in_order (hs : (pipeline cfg).Reachable Machine.Always s)
    (h : (pipeline cfg).Reaches Machine.Always s t) {m n : Nat}
    (hm : s.intake.emits m = .done .delivered) (hn : s.intake.calls ≤ n) (i : Fin k)
    (hmi : m ∈ (t.desks i).calls) (hni : n ∈ (t.desks i).calls) :
    [m, n].Sublist (t.desks i).calls := by
  obtain ⟨c, d, hc, hd, hr, hsent, hunsent⟩ := sent_before hs h hm hn
  rw [← hr.got i] at hmi hni ⊢
  exact Broadcast.in_order hc hd hsent hunsent hmi hni

theorem emits_in_order_two :
    ∃ s t, (pipeline roomyConsole).run Machine.Always (init roomyConsole) firstEmit = some s ∧
      (pipeline roomyConsole).run Machine.Always s secondEmit = some t ∧
      [0, 1].Sublist (t.desks (Fin.last 0)).calls := by
  have hrun : ∃ s t,
      (pipeline roomyConsole).run Machine.Always (init roomyConsole) firstEmit = some s ∧
      (pipeline roomyConsole).run Machine.Always s secondEmit = some t ∧
      s.intake.emits 0 = .done .delivered ∧ s.intake.calls = 1 ∧
      (t.desks (Fin.last 0)).calls = [0, 1] :=
    ⟨_, _, rfl, rfl, rfl, rfl, rfl⟩
  obtain ⟨s, t, hs, ht, hemit, hcalls, hput⟩ := hrun
  refine ⟨s, t, hs, ht, emits_in_order (.of_run rfl hs) (.of_run ht) hemit ?_ _ ?_ ?_⟩
  · rw [hcalls]
  · rw [hput]
    exact List.mem_cons_self
  · rw [hput]
    exact List.mem_cons_of_mem _ List.mem_cons_self

end Pipeline

end ScietexLogging
