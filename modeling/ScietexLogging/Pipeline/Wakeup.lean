import ScietexLogging.Pipeline.Fanout

/-!
# Pipeline — no lost wakeup

The bridge sleeps in `wait()`; `emit` puts its record in and then schedules the
event's `set`. A record in the ingress of a bridge that is not moving records is
followed by something that will rouse it: the event is set, a `set` is scheduled, or
the `emit` that put a record in is about to schedule one.

That rests on `emit` pairing the ingress it reads with the event of the same start.
`start_logging` replaces the two one after the other, and a `stop_logging` that raised
leaves the old event there for an `emit` to find in between.

Main results: `no_lost_wakeup`, for runs in which that does not happen, and
`wakeup_lost`.
-/

namespace ScietexLogging

open Asyncio

variable {k : Nat}

/-- The ingress of a call past its reads, with the event it will set. -/
def EmitPc.pair : EmitPc → Option (Nat × Nat)
  | .put _ g e | .wake g e => some (g, e)
  | _ => none

namespace Intake

variable {x y : Intake k} {g : Nat} {pc : BridgePc}

/-- Something will rouse whoever waits for event `g`. -/
def Rousing (x : Intake k) (g : Nat) : Prop :=
  (x.event g).flag = true ∨ 0 < (x.event g).callbacks ∨ ∃ n, x.emits n = .wake g g

/-- The ingress and the event of start `g`, whose bridge is at `pc`. -/
structure Wakeful (x : Intake k) (g : Nat) (pc : BridgePc) : Prop where
  paired : ∀ n e, (x.emits n).pair = some (g, e) → e = g
  dozing : ∀ g' e, pc = .waiting g' e → (x.event g).flag = false
  woken : ∀ g' e, pc = .woken g' e → (x.event g).flag = true
  roused : (∀ g' e, pc ≠ .moving g' e) → (x.ingress g).items ≠ [] → x.Rousing g

/-- Nobody has put a record into ingress `g`, or is about to. -/
structure Untouched (x : Intake k) (g : Nat) : Prop where
  items : (x.ingress g).items = []
  pair : ∀ n e, (x.emits n).pair ≠ some (g, e)

/-- What is not there needs no one to be roused. -/
theorem Untouched.wakeful (hu : x.Untouched g) (hpc : ¬ pc.Alive) : x.Wakeful g pc :=
  ⟨fun n e h => absurd h (hu.pair n e), fun _ _ h => absurd (by rw [h]; trivial) hpc,
    fun _ _ h => absurd (by rw [h]; trivial) hpc, fun _ h => absurd hu.items h⟩

/-- Before an ingress is made, nobody holds it. -/
theorem Accounts.untouched {born : Nat → Prop} (ha : x.Accounts born) (hg : ¬ born g) :
    x.Untouched g := by
  have hent := ha.unborn g hg
  refine ⟨?_, fun n e h => ?_⟩
  · have hfifo := ha.fifo g
    rw [hent] at hfifo
    exact List.map_eq_nil_iff.mp (List.append_eq_nil_iff.mp hfifo.symm).2
  · cases hpc : x.emits n with
    | put r g' e' =>
      rw [hpc] at h
      obtain ⟨rfl, -⟩ := Prod.mk.inj (Option.some.inj h)
      exact hg (ha.held n g' (by rw [hpc]; rfl))
    | wake g' e' =>
      rw [hpc] at h
      obtain ⟨rfl, -⟩ := Prod.mk.inj (Option.some.inj h)
      have hin := ha.woken n g' e' hpc
      rw [hent] at hin
      exact absurd hin (by simp)
    | _ =>
      rw [hpc] at h
      exact absurd h (by simp [EmitPc.pair])

-- ---------------------------------------------------------------------------
-- A call of emit
-- ---------------------------------------------------------------------------

/-- The call is at none of the statements that rouse event `g`, so it does not matter
to that event where it goes. -/
theorem Rousing.setEmit {n : Nat} (hr : x.Rousing g) (hn : x.emits n ≠ .wake g g) (pc : EmitPc) :
    (x.setEmit n pc).Rousing g := by
  rcases hr with h | h | ⟨m, hm⟩
  · exact .inl h
  · exact .inr (.inl h)
  · refine .inr (.inr ⟨m, ?_⟩)
    have hmn : m ≠ n := by
      rintro rfl
      exact hn hm
    rw [setEmit_ne x pc hmn]
    exact hm

theorem pair_setEmit {n m e : Nat} {p : EmitPc} (h : ((x.setEmit n p).emits m).pair = some (g, e)) :
    (m = n ∧ p.pair = some (g, e)) ∨ (x.emits m).pair = some (g, e) := by
  by_cases hm : m = n
  · subst hm
    rw [setEmit_self] at h
    exact .inl ⟨rfl, h⟩
  · rw [setEmit_ne x p hm] at h
    exact .inr h

/-- A call goes on without touching an ingress or an event. -/
private theorem Wakeful.setEmit {n : Nat} {p : EmitPc} (hw : x.Wakeful g pc)
    (hn : x.emits n ≠ .wake g g) (hp : ∀ e, p.pair = some (g, e) → e = g) :
    (x.setEmit n p).Wakeful g pc := by
  refine ⟨fun m e h => ?_, hw.dozing, hw.woken, fun hpc hne => (hw.roused hpc hne).setEmit hn p⟩
  rcases pair_setEmit h with ⟨-, h⟩ | h
  · exact hp e h
  · exact hw.paired m e h

/-- An `emit` that has read the ingress of the start under way, and would now read the
event of an earlier one. -/
def stale (x : Intake k) (h : Handler k) (starts n : Nat) : Bool :=
  match x.emits n, h.ingressEvent with
  | .readEvent _ (some g) true, some e => decide (g = starts) && decide (e ≠ g)
  | _, _ => false

theorem Wakeful.emit {h : Handler k} {n : Nat} (hw : x.Wakeful g pc)
    (hfresh : x.stale h g n = false) (hstep : EmitStep x h g n y) : y.Wakeful g pc := by
  cases hstep with
  | accepted hpc _ | ignored hpc _ | ingress hpc | loop hpc | released hpc _ =>
    exact hw.setEmit (by rw [hpc]; simp) (by simp [EmitPc.pair])
  | @event r g' e' hpc hev =>
    refine hw.setEmit (by rw [hpc]; simp) fun e he => ?_
    obtain ⟨rfl, rfl⟩ := Prod.mk.inj (Option.some.inj he)
    rw [stale, hpc, hev] at hfresh
    simpa using hfresh
  | full hpc =>
    have hrep : (x.addReports [.ingressFull n]).Wakeful g pc :=
      ⟨hw.paired, hw.dozing, hw.woken, hw.roused⟩
    exact hrep.setEmit (by show x.emits n ≠ _; rw [hpc]; simp) (by simp [EmitPc.pair])
  | @entered r g' e' q hpc hput =>
    -- the call itself is on its way to the event
    refine ⟨fun m e h => ?_, hw.dozing, hw.woken, fun hmove hne => ?_⟩
    · rcases pair_setEmit h with ⟨-, h⟩ | h
      · exact hw.paired n e (by rw [hpc]; exact h)
      · exact hw.paired m e h
    · by_cases hg : g' = g
      · subst hg
        refine .inr (.inr ⟨n, ?_⟩)
        rw [setEmit_self, hw.paired n e' (by rw [hpc]; rfl)]
      · have hne' : (Function.update x.ingress g' q g).items ≠ [] := hne
        rw [Function.update_of_ne (Ne.symm hg)] at hne'
        have hr : Rousing { x with
          ingress := Function.update x.ingress g' q
          entered := Function.update x.entered g' (x.entered g' ++ [n]) } g :=
            hw.roused hmove hne'
        exact hr.setEmit (by show x.emits n ≠ _; rw [hpc]; simp) _
  | @delivered g' e' hpc =>
    have hflag : ((x.schedule e').event g).flag = (x.event g).flag := by
      show (Function.update x.event e' _ g).flag = _
      by_cases he : g = e'
      · rw [he, Function.update_self]
      · rw [Function.update_of_ne he]
    refine ⟨fun m e h => ?_, fun _ _ h => hflag.trans (hw.dozing _ _ h),
      fun _ _ h => hflag.trans (hw.woken _ _ h), fun hmove hne => ?_⟩
    · rcases pair_setEmit h with ⟨-, h⟩ | h
      · exact absurd h (by simp [EmitPc.pair])
      · exact hw.paired m e h
    · by_cases he : g = e'
      · refine .inr (.inl ?_)
        show 0 < (Function.update x.event e' _ g).callbacks
        rw [he, Function.update_self]
        exact Nat.succ_pos _
      · have hev : (x.schedule e').event g = x.event g := Function.update_of_ne he _ _
        have hr : (x.schedule e').Rousing g := by
          have := hw.roused hmove hne
          rwa [Rousing, ← hev] at this
        exact hr.setEmit (by show x.emits n ≠ _; rw [hpc]; rintro ⟨⟩; exact he rfl) _

theorem Untouched.emit {h : Handler k} {n : Nat} (hu : x.Untouched g)
    (hev : ∀ e, h.ingressEvent = some e → e < g) (hfresh : x.stale h g n = false)
    (hstep : EmitStep x h g n y) : y.Untouched g := by
  have hset : ∀ z : Intake k, z.emits = x.emits → z.ingress = x.ingress → ∀ p : EmitPc,
      (∀ e, p.pair ≠ some (g, e)) → (z.setEmit n p).Untouched g := by
    intro z he hi p hp
    refine ⟨by show (z.ingress g).items = []; rw [hi]; exact hu.items, fun m e h => ?_⟩
    rcases pair_setEmit h with ⟨-, h⟩ | h
    · exact hp e h
    · rw [he] at h
      exact hu.pair m e h
  cases hstep with
  | accepted _ _ | ignored _ _ | ingress _ | loop _ | released _ _ =>
    exact hset x rfl rfl _ (by simp [EmitPc.pair])
  | full _ => exact hset (x.addReports _) rfl rfl (.done .full) (by simp [EmitPc.pair])
  | delivered _ => exact hset (x.schedule _) rfl rfl (.done .delivered) (by simp [EmitPc.pair])
  | @event r g' e' hpc hev' =>
    refine hset x rfl rfl _ fun e he => ?_
    obtain ⟨rfl, rfl⟩ := Prod.mk.inj (Option.some.inj he)
    rw [stale, hpc, hev'] at hfresh
    have hlt := hev e' hev'
    have heq : e' = g' := by simpa using hfresh
    omega
  | @entered r g' e' q hpc _ =>
    have hg : g' ≠ g := by
      rintro rfl
      exact hu.pair n e' (by rw [hpc]; rfl)
    refine ⟨?_, fun m e h => ?_⟩
    · show (Function.update x.ingress g' q g).items = []
      rw [Function.update_of_ne (Ne.symm hg)]
      exact hu.items
    · rcases pair_setEmit h with ⟨-, h⟩ | h
      · exact hg (Prod.mk.inj (Option.some.inj h)).1
      · exact hu.pair m e h

-- ---------------------------------------------------------------------------
-- The other steps
-- ---------------------------------------------------------------------------

/-- Nothing is put in, and no event or call changes. -/
theorem Wakeful.congr (hw : x.Wakeful g pc) (hemits : y.emits = x.emits)
    (hevent : y.event g = x.event g)
    (hitems : (x.ingress g).items = [] → (y.ingress g).items = []) : y.Wakeful g pc := by
  refine ⟨fun n e h => hw.paired n e (hemits ▸ h), fun g' e h => ?_, fun g' e h => ?_,
    fun hpc hne => ?_⟩
  · rw [hevent]
    exact hw.dozing g' e h
  · rw [hevent]
    exact hw.woken g' e h
  · have hr := hw.roused hpc fun h => hne (hitems h)
    rw [Rousing, hevent, hemits]
    exact hr

theorem Untouched.congr (hu : x.Untouched g) (hemits : y.emits = x.emits)
    (hitems : (x.ingress g).items = [] → (y.ingress g).items = []) : y.Untouched g :=
  ⟨hitems hu.items, fun n e h => hu.pair n e (hemits ▸ h)⟩

/-- The bridge goes on without having to look at the event. -/
theorem Wakeful.goes {pc' : BridgePc} (hw : x.Wakeful g pc)
    (hwait : ∀ g' e, pc' = .waiting g' e → (x.event g).flag = false)
    (hwoken : ∀ g' e, pc' ≠ .woken g' e)
    (hmoving : ∀ g' e, pc = .moving g' e → (x.ingress g).items = []) : x.Wakeful g pc' := by
  refine ⟨hw.paired, hwait, fun g' e h => absurd h (hwoken g' e), fun _ hne => ?_⟩
  exact hw.roused (fun g' e h => hne (hmoving g' e h)) hne

/-- While it moves records, the bridge will look again. -/
theorem Wakeful.moving {g' e : Nat} (hp : ∀ n e, (x.emits n).pair = some (g, e) → e = g) :
    x.Wakeful g (.moving g' e) :=
  ⟨hp, fun _ _ => nofun, fun _ _ => nofun, fun h => absurd rfl (h g' e)⟩

theorem take_items {e : Emitted} {q : BoundedQueue Emitted} {g' : Nat}
    (hget : (x.ingress g').getNowait = some (e, q)) (h : (x.ingress g).items = []) :
    (Function.update x.ingress g' q g).items = [] := by
  by_cases hg : g = g'
  · rw [hg, (BoundedQueue.getNowait_eq_some.mp hget).2] at h
    exact absurd h (by simp)
  · rw [Function.update_of_ne hg]
    exact h

theorem Wakeful.call (hw : x.Wakeful g pc) (hidle : x.emits x.calls = .idle) (r : LogRecord) :
    ({ x with calls := x.calls + 1 }.setEmit x.calls (.called r)).Wakeful g pc := by
  have hcount : { x with calls := x.calls + 1 }.Wakeful g pc :=
    ⟨hw.paired, hw.dozing, hw.woken, hw.roused⟩
  exact hcount.setEmit (by show x.emits x.calls ≠ _; rw [hidle]; simp) (by simp [EmitPc.pair])

theorem Untouched.call (hu : x.Untouched g) (r : LogRecord) :
    ({ x with calls := x.calls + 1 }.setEmit x.calls (.called r)).Untouched g := by
  refine ⟨hu.items, fun n e h => ?_⟩
  rcases pair_setEmit h with ⟨-, h⟩ | h
  · exact absurd h (by simp [EmitPc.pair])
  · exact hu.pair n e h

/-- The loop runs a `set`. -/
theorem Wakeful.set {b : BridgeTask} (hw : x.Wakeful g b.pc)
    (hrefs : ∀ g' e', b.pc.refs = some (g', e') → e' = g) (e : Nat) :
    { x with event := Function.update x.event e ⟨true, (x.event e).callbacks - 1⟩ }.Wakeful g
      (b.wake e).pc := by
  by_cases he : g = e
  · subst he
    have hflag : (Function.update x.event g ⟨true, (x.event g).callbacks - 1⟩ g).flag = true := by
      rw [Function.update_self]
    refine ⟨hw.paired, fun g' e' h => ?_, fun _ _ _ => hflag, fun _ _ => .inl hflag⟩
    -- whoever waited for this event does no more
    have hrefs' : e' = g := hrefs g' e' ((b.wake_refs g).symm.trans (by rw [h]; rfl))
    subst hrefs'
    rw [BridgeTask.wake] at h
    split at h
    · rename_i g₀ e₀ hpc
      have hself : e₀ = e' := hrefs g₀ e₀ (by rw [hpc]; rfl)
      rw [if_pos hself] at h
      exact absurd h (by simp)
    · rename_i hno
      exact absurd h (hno g' e')
  · have hsame : Function.update x.event e ⟨true, (x.event e).callbacks - 1⟩ g = x.event g :=
      Function.update_of_ne he _ _
    have hpc : (b.wake e).pc = b.pc := by
      rw [BridgeTask.wake]
      split
      · rename_i g₀ e₀ hpc
        have hself : e₀ = g := hrefs g₀ e₀ (by rw [hpc]; rfl)
        rw [if_neg (by omega)]
      · rfl
    rw [hpc]
    exact hw.congr rfl hsame fun h => h

end Intake

namespace Pipeline

variable {cfg : Config k} {s t : Pipeline cfg} {a : PipelineAct cfg}

/-- What the steps of workers, timers and suspended calls leave alone. -/
structure Apart (s t : Pipeline cfg) : Prop where
  intake : t.intake = s.intake
  starts : t.starts = s.starts
  bridge : ∀ b, (t.bridge b).pc = (s.bridge b).pc
  life : t.life = .startEvent → s.life = .startEvent

theorem step_apart (h : s.step a = some t) :
    Apart s t ∨ (∃ r, a = .emitCall r) ∨ (∃ n, a = .emit n) ∨ (∃ e, a = .runSet e) ∨
      (∃ b, a = .bridge b) ∨ a = .advance ∨ ∃ m, a = .start m := by
  have hlife : ∀ {l : Life k}, l ≠ .startEvent → Apart s (s.setLife l) := fun hl =>
    ⟨rfl, rfl, fun _ => rfl, fun h => absurd h hl⟩
  cases a with
  | emitCall r => exact .inr (.inl ⟨r, rfl⟩)
  | emit n => exact .inr (.inr (.inl ⟨n, rfl⟩))
  | runSet e => exact .inr (.inr (.inr (.inl ⟨e, rfl⟩)))
  | bridge b => exact .inr (.inr (.inr (.inr (.inl ⟨b, rfl⟩))))
  | advance => exact .inr (.inr (.inr (.inr (.inr (.inl rfl)))))
  | start m => exact .inr (.inr (.inr (.inr (.inr (.inr ⟨m, rfl⟩)))))
  | worker i c act =>
    obtain ⟨d, -, rfl⟩ := Option.map_eq_some_iff.mp h
    exact .inl ⟨rfl, rfl, fun _ => rfl, id⟩
  | cancelWorker _ _ | close =>
    obtain rfl := Option.some.inj h
    exact .inl ⟨rfl, rfl, fun _ => rfl, id⟩
  | stop =>
    rw [step] at h
    split at h
    · obtain rfl := Option.some.inj h
      refine .inl ?_
      unfold stopLogging
      split
      · exact ⟨rfl, rfl, fun _ => rfl, id⟩
      · refine ⟨rfl, rfl, fun b => ?_, fun hl => absurd hl (by simp)⟩
        cases s.handler.bridgeTask with
        | none => rfl
        | some b' =>
          show (Function.update s.bridge b' (s.bridge b').cancel b).pc = _
          by_cases hb : b = b'
          · rw [hb, Function.update_self, BridgeTask.cancel_pc]
          · rw [Function.update_of_ne hb]
    · exact absurd h (by simp)
  | bridgeAwaited =>
    rw [step] at h
    split at h
    · obtain rfl := Option.some.inj h
      exact .inl (hlife (by simp))
    · split at h
      · obtain rfl := Option.some.inj h
        exact .inl (hlife (by simp))
      · obtain rfl := Option.some.inj h
        exact .inl (hlife (by simp))
      · exact absurd h (by simp)
    · exact absurd h (by simp)
  | joined i | drainReturns i | drainTimesOut i | drainFails i exc =>
    rw [step] at h
    obtain ⟨ds, d, -, -, rfl⟩ := drainStep_eq_some h
    exact .inl (hlife (by simp))
  | report times =>
    rw [step] at h
    split at h
    · obtain ⟨rs, -, rfl⟩ := Option.map_eq_some_iff.mp h
      refine .inl ?_
      unfold reportResults
      split
      · exact ⟨rfl, rfl, fun _ => rfl, fun hl => absurd hl (by simp [forgetTasks])⟩
      · exact ⟨rfl, rfl, fun _ => rfl, fun hl => absurd hl (by simp [setLife])⟩
    · exact absurd h (by simp)
  | deadline =>
    rw [step] at h
    split at h
    · obtain rfl := Option.some.inj h
      exact .inl ⟨rfl, rfl, fun _ => rfl, fun hl => absurd hl (by simp [setLife])⟩
    · exact absurd h (by simp)
  | gatherEnds | gathered | reaped | gatherRaises | gatherEndsRaising =>
    rw [step] at h
    split at h
    · split at h
      · obtain rfl := Option.some.inj h
        exact .inl ⟨rfl, rfl, fun _ => rfl, fun hl => absurd hl (by simp [setLife, forgetTasks])⟩
      · exact absurd h (by simp)
    · exact absurd h (by simp)

-- ---------------------------------------------------------------------------
-- The invariant
-- ---------------------------------------------------------------------------

/-- No `emit` that has read the ingress of the start under way reads the event of an
earlier one. -/
def Fresh (s : Pipeline cfg) : PipelineAct cfg → Prop
  | .emit n => s.intake.stale s.handler s.starts n = false
  | _ => True

instance (s : Pipeline cfg) : (a : PipelineAct cfg) → Decidable (s.Fresh a)
  | .emit _ => inferInstanceAs (Decidable (_ = _))
  | .emitCall _ | .runSet _ | .bridge _ | .worker _ _ _ | .cancelWorker _ _ | .close | .start _
  | .stop | .advance | .bridgeAwaited | .joined _ | .drainReturns _ | .drainTimesOut _
  | .drainFails _ _ | .report _ | .gathered | .gatherRaises | .deadline | .gatherEnds
  | .gatherEndsRaising | .reaped => isTrue trivial

/-- The bridge of the last start is roused for what is in its ingress; nobody has
touched that before the event is there. -/
structure Wakeful (s : Pipeline cfg) : Prop where
  bridge : s.intake.Wakeful s.starts (s.bridge s.starts).pc
  untouched : s.life = .startEvent → s.intake.Untouched s.starts

private theorem bridgeStep_wakeful {b : Nat} (hc : Control s)
    (hw : s.intake.Wakeful s.starts (s.bridge b).pc) (h : s.bridgeStep b = some t) :
    t.intake.Wakeful s.starts (t.bridge b).pc := by
  have hset : ∀ (u : Pipeline cfg) pc, ((u.setBridge b pc).bridge b).pc = pc := fun u pc => by
    show (Function.update u.bridge b _ b).pc = pc
    rw [Function.update_self]
  unfold bridgeStep at h
  split at h
  case h_1 hpc _ | h_2 hpc _ | h_3 hpc _ =>
    obtain rfl := Option.some.inj h
    rw [hset]
    refine hw.goes (fun _ _ => nofun) (fun _ _ => nofun) fun _ _ hm => ?_
    rw [hpc] at hm
    exact absurd hm (by simp)
  case h_4 hpc _ =>
    split at h
    · obtain rfl := Option.some.inj h
      rw [hset]
      refine hw.goes (fun _ _ => nofun) (fun _ _ => nofun) fun _ _ hm => ?_
      rw [hpc] at hm
      exact absurd hm (by simp)
    · obtain rfl := Option.some.inj h
      rw [hset]
      refine hw.goes (fun _ _ => nofun) (fun _ _ => nofun) fun _ _ hm => ?_
      rw [hpc] at hm
      exact absurd hm (by simp)
  case h_5 g e hpc =>
    obtain ⟨rfl, rfl⟩ := hc.refs b g e (by rw [hpc]; rfl)
    split at h
    · obtain rfl := Option.some.inj h
      rw [hset]
      exact .moving hw.paired
    · rename_i hflag
      obtain rfl := Option.some.inj h
      rw [hset]
      refine hw.goes (fun _ _ _ => by simpa using hflag) (fun _ _ => nofun) fun _ _ hm => ?_
      rw [hpc] at hm
      exact absurd hm (by simp)
  case h_6 g e hpc _ =>
    obtain rfl := Option.some.inj h
    rw [hset]
    exact .moving hw.paired
  case h_7 g e hpc =>
    obtain ⟨rfl, -⟩ := hc.refs b g e (by rw [hpc]; rfl)
    split at h
    · rename_i hm
      obtain rfl := Option.some.inj h
      rw [(moveOne_control hm).2.2.2.1, hpc]
      obtain ⟨e', q, -, rfl⟩ := moveOne_eq_some hm
      exact .moving hw.paired
    · rename_i hm
      obtain rfl := Option.some.inj h
      rw [hset]
      exact hw.goes (fun _ _ => nofun) (fun _ _ => nofun) fun _ _ _ => moveOne_eq_none.mp hm
  all_goals exact absurd h (by simp)

private theorem Wakeful.advance (hw : Wakeful s) (hc : Control s) (ha : Accounts s)
    (h : s.advance = some t) : Wakeful t := by
  have hst := hc.stage
  have hnot : ∀ {l : Life k}, s.life = l → l ≠ .startEvent → ∀ {p : Prop}, s.life = .startEvent → p :=
    fun hl hne _ hl' => absurd (hl.symm.trans hl') hne
  cases hlife : s.life with
  | startIngress m =>
    rw [Pipeline.advance, hlife] at h
    obtain rfl := Option.some.inj h
    rw [hlife] at hst
    -- the ingress just made is not known to anybody
    have hu : s.intake.Untouched s.starts := ha.intake.untouched (by
      rintro (hlt | ⟨-, hne⟩)
      · omega
      · exact hne m hlife)
    have hu' : { s.intake with
        ingress := Function.update s.intake.ingress s.starts (.new m) }.Untouched s.starts := by
      refine hu.congr rfl fun _ => ?_
      show (Function.update s.intake.ingress s.starts (.new m) s.starts).items = []
      rw [Function.update_self, BoundedQueue.new_items]
    exact ⟨hu'.wakeful hst.2.2.2, fun _ => hu'⟩
  | startEvent =>
    rw [Pipeline.advance, hlife] at h
    obtain rfl := Option.some.inj h
    rw [hlife] at hst
    have hu := (hw.untouched hlife).congr (y := { s.intake with
      event := Function.update s.intake.event s.starts ⟨false, 0⟩ }) rfl fun h => h
    exact ⟨hu.wakeful hst.2.2.2.2, fun hl => absurd hl (by simp)⟩
  | startBridge =>
    rw [Pipeline.advance, hlife] at h
    obtain rfl := Option.some.inj h
    rw [hlife] at hst
    refine ⟨?_, fun hl => absurd hl (by simp)⟩
    show s.intake.Wakeful s.starts (Function.update s.bridge s.starts _ s.starts).pc
    rw [Function.update_self]
    refine hw.bridge.goes (fun _ _ h => by cases h) (fun _ _ h => by cases h) fun _ _ hm => ?_
    exact absurd (by rw [hm]; trivial) hst.2.2.2.2
  | startWorkers | releaseLoop | releaseIngress | releaseEvent =>
    rw [Pipeline.advance, hlife] at h
    obtain rfl := Option.some.inj h
    exact ⟨hw.bridge, fun hl => absurd hl (by simp)⟩
  | flushing =>
    rcases advance_flushing hlife h with ⟨-, rfl⟩ | ⟨g, -, hm | ⟨-, rfl⟩⟩
    · exact ⟨hw.bridge, fun hl => absurd hl (by simp [setLife])⟩
    · obtain ⟨e, q, hget, rfl⟩ := moveOne_eq_some hm
      exact ⟨hw.bridge.congr rfl rfl (Intake.take_items hget), hnot hlife (by simp)⟩
    · exact ⟨hw.bridge, fun hl => absurd hl (by simp)⟩
  | clearing n =>
    rcases advance_clearing hlife h with ⟨_, l, -, rfl⟩ | ⟨_, -, rfl⟩ | ⟨-, rfl⟩
    · exact ⟨hw.bridge, fun hl => absurd hl (by simp)⟩
    · exact ⟨hw.bridge, fun hl => absurd hl (by simp [setLife])⟩
    · exact ⟨hw.bridge, fun hl => absurd hl (by simp [setLife])⟩
  | clearingIngress =>
    rcases advance_clearingIngress hlife h with rfl | ⟨g, e, q, -, hget, rfl⟩
    · exact ⟨hw.bridge, fun hl => absurd hl (by simp [setLife])⟩
    · exact ⟨hw.bridge.congr rfl rfl (Intake.take_items hget), hnot hlife (by simp)⟩
  | idle | awaitBridge | draining _ | gathering | timedOut | reaping =>
    rw [Pipeline.advance, hlife] at h
    exact absurd h (by simp)

theorem Wakeful.step (hw : Wakeful s) (hc : Control s) (ha : Accounts s) (hok : s.Fresh a)
    (h : s.step a = some t) : Wakeful t := by
  rcases step_apart h with hap | ⟨r, rfl⟩ | ⟨n, rfl⟩ | ⟨e, rfl⟩ | ⟨b, rfl⟩ | rfl | ⟨m, rfl⟩
  · refine ⟨?_, fun hl => ?_⟩
    · rw [hap.intake, hap.starts, hap.bridge]
      exact hw.bridge
    · rw [hap.intake, hap.starts]
      exact hw.untouched (hap.life hl)
  · obtain rfl := Option.some.inj h
    have hidle := ha.intake.fresh s.intake.calls (Nat.le_refl _)
    exact ⟨hw.bridge.call hidle r, fun hl => (hw.untouched hl).call r⟩
  · obtain ⟨x, hx, rfl⟩ := Option.map_eq_some_iff.mp h
    have hstep := Intake.emitStep_spec hx
    refine ⟨hw.bridge.emit hok hstep, fun hl => ?_⟩
    have hst := hc.stage
    rw [show s.life = .startEvent from hl] at hst
    exact (hw.untouched hl).emit hst.2.2.2.1 hok hstep
  · rw [Pipeline.step] at h
    split at h
    · exact absurd h (by simp)
    · obtain rfl := Option.some.inj h
      refine ⟨hw.bridge.set (fun g' e' hr => (hc.refs _ g' e' hr).2) e, fun hl => ?_⟩
      exact (hw.untouched hl).congr rfl fun h => h
  · have hb := bridgeStep_spec h
    obtain rfl : b = s.starts := by
      by_contra hne
      exact hc.old b hne hb.alive
    refine ⟨?_, fun hl => ?_⟩
    · rw [hb.starts]
      exact bridgeStep_wakeful hc hw.bridge h
    · -- the bridge is made after the event
      have hst := hc.stage
      rw [hb.life] at hl
      rw [hl] at hst
      exact absurd hb.alive hst.2.2.2.2
  · exact hw.advance hc ha h
  · rcases step_starts h with ⟨hs, -⟩ | ⟨m', hlife, -, rfl⟩
    · rw [Pipeline.step] at h
      split at h
      · split at h
        · obtain rfl := Option.some.inj h
          exact absurd hs (Nat.succ_ne_self _)
        · exact absurd h (by simp)
      · exact absurd h (by simp)
    · have hu : s.intake.Untouched (s.starts + 1) := ha.intake.untouched (by
        rintro (hlt | ⟨heq, -⟩) <;> omega)
      exact ⟨hu.wakeful (hc.old _ (Nat.succ_ne_self _)), fun hl => absurd hl (by simp [startLogging])⟩

theorem wakeful (h : (pipeline cfg).Reachable Fresh s) : Wakeful s := by
  refine Machine.invariant_with (J := fun s => Control s ∧ Accounts s) (I := Wakeful)
    (fun s hs => ⟨control hs, accounts hs⟩) ?_ ?_ h
  · rintro s rfl
    refine ⟨⟨fun n e h => absurd h (by simp [Pipeline.init, EmitPc.pair]), fun _ _ => nofun,
      fun _ _ => nofun, fun _ h => absurd rfl h⟩, fun hl => absurd hl (by simp [Pipeline.init])⟩
  · exact fun s a t hj hw hok hstep => hw.step hj.1 hj.2 hok hstep

-- ---------------------------------------------------------------------------
-- The main result
-- ---------------------------------------------------------------------------

/-- The bridge is suspended in `wait()`, and nothing is on its way to rouse it. -/
structure Asleep (s : Pipeline cfg) : Prop where
  waiting : ∃ b g e, s.handler.bridgeTask = some b ∧ (s.bridge b).pc = .waiting g e
  unscheduled : ∀ e, s.handler.ingressEvent = some e → (s.intake.event e).callbacks = 0
  between : ∀ n g e, s.intake.emits n ≠ .wake g e

/-- A bridge that sleeps has nothing to do. -/
def NoLostWakeup (s : Pipeline cfg) : Prop :=
  s.handler.loggingRunningEvent = true → s.Asleep →
    ∀ g, s.handler.ingress = some g → (s.intake.ingress g).items = []

/-- **No lost wakeup.** For every interleaving of the statements of emitting threads,
the bridge, and starts and stops, in which no `emit` reads a new ingress with an old
event: while the bridge sleeps and nothing is on its way to rouse it, its ingress is
empty. -/
theorem no_lost_wakeup (hs : (pipeline cfg).Reachable Fresh s) : s.NoLostWakeup := by
  rintro - hsleep g hg
  obtain ⟨b, g', e', -, hpc⟩ := hsleep.waiting
  have hc := control hs
  have hw := (wakeful hs).bridge
  obtain rfl : b = s.starts := by
    by_contra hne
    exact hc.old b hne (by rw [hpc]; trivial)
  have hcur := hc.stage.current_of_alive (by rw [hpc]; trivial)
  obtain rfl : g = s.starts := Option.some.inj (hg.symm.trans hcur.ingress)
  by_contra hne
  rcases hw.roused (by rw [hpc]; exact fun _ _ => nofun) hne with hflag | hcall | ⟨n, hn⟩
  · rw [hw.dozing g' e' hpc] at hflag
    exact absurd hflag (by simp)
  · rw [hsleep.unscheduled _ hcur.ingressEvent] at hcall
    omega
  · exact hsleep.between n _ _ hn

/-- A record is emitted; the bridge moves it and sleeps again. -/
def movedRecord : List (PipelineAct oneConsole) :=
  let record : LogRecord := ⟨20, "app", .ok "started", .ok "1970-01-01T00:00:00+00:00"⟩
  [.start 8, .advance, .advance, .advance, .advance, .bridge 1, .bridge 1,
    .emitCall record, .emit 0, .emit 0, .emit 0, .emit 0, .emit 0, .emit 0,
    .runSet 1, .bridge 1, .bridge 1, .bridge 1, .bridge 1]

theorem no_lost_wakeup_moved :
    ∃ s, (pipeline oneConsole).run Fresh (init oneConsole) movedRecord = some s ∧
      (s.bridge 1).pc = .waiting 1 1 ∧ s.NoLostWakeup := by
  have hrun : ∃ s, (pipeline oneConsole).run Fresh (init oneConsole) movedRecord = some s ∧
      (s.bridge 1).pc = .waiting 1 1 := ⟨_, rfl, rfl⟩
  obtain ⟨s, hs, hpc⟩ := hrun
  exact ⟨s, hs, hpc, no_lost_wakeup (.of_run rfl hs)⟩

/-- A backend whose broker client is injected. -/
def oneBroker : Config 1 where
  kind := fun _ => .broker false
  queueMaxsize := fun _ => 8
  reporter := fun _ => false
  label := fun _ => "Broker"

/-- A record that cannot be formatted ends the worker, so that `stop_logging` raises.
An `emit` that had passed its check goes on while logging starts again: it reads the new
ingress, and the event of before. -/
def staleEvent : List (PipelineAct oneBroker) :=
  let bad : LogRecord := ⟨20, "app", .error "TypeError", .ok "1970-01-01T00:00:00+00:00"⟩
  let record : LogRecord := ⟨20, "app", .ok "started", .ok "1970-01-01T00:00:01+00:00"⟩
  [.start 8, .advance, .advance, .advance, .advance,
    .emitCall bad, .emit 0, .emit 0, .emit 0, .emit 0, .emit 0, .emit 0,
    .runSet 1, .bridge 1, .bridge 1, .bridge 1,
    .worker (Fin.last 0) 1 BrokerAct.start, .worker (Fin.last 0) 1 BrokerAct.get,
    .emitCall record, .emit 1,
    .stop, .bridge 1, .bridge 1, .bridge 1, .bridgeAwaited, .advance, .drainTimesOut (Fin.last 0),
    .report fun _ _ => "1970-01-01T00:00:06+00:00", .gatherRaises,
    .start 8, .advance, .emit 1, .emit 1, .emit 1, .emit 1, .emit 1,
    .advance, .advance, .advance, .bridge 2, .bridge 2]

/-- The record is in the ingress, and the bridge sleeps. -/
theorem wakeup_lost :
    ∃ s, (pipeline oneBroker).run Machine.Always (init oneBroker) staleEvent = some s ∧
      ¬ s.NoLostWakeup := by
  have hrun : ∃ s, (pipeline oneBroker).run Machine.Always (init oneBroker) staleEvent = some s ∧
      s.handler.loggingRunningEvent = true ∧ s.handler.bridgeTask = some 2 ∧
      (s.bridge 2).pc = .waiting 2 2 ∧ s.handler.ingressEvent = some 2 ∧
      (s.intake.event 2).callbacks = 0 ∧ s.intake.calls = 2 ∧
      s.intake.emits 0 = .done .delivered ∧ s.intake.emits 1 = .done .delivered ∧
      s.handler.ingress = some 2 ∧ (s.intake.ingress 2).items.length = 1 :=
    ⟨_, rfl, rfl, rfl, rfl, rfl, rfl, rfl, rfl, rfl, rfl, rfl⟩
  obtain ⟨s, hs, hrunning, hb, hpc, hev, hcall, hcalls, h₀, h₁, hg, hlen⟩ := hrun
  have ha : s.intake.Accounts s.Born := (accounts (.of_run rfl hs)).intake
  refine ⟨s, hs, fun hno => ?_⟩
  have hsleep : s.Asleep := by
    refine ⟨⟨2, 2, 2, hb, hpc⟩, fun e he => ?_, fun n g e hw => ?_⟩
    · obtain rfl := Option.some.inj (hev.symm.trans he)
      exact hcall
    · by_cases hn : 2 ≤ n
      · rw [ha.fresh n (by omega)] at hw
        exact absurd hw (by simp)
      · obtain rfl | rfl : n = 0 ∨ n = 1 := by omega
        · rw [h₀] at hw
          exact absurd hw (by simp)
        · rw [h₁] at hw
          exact absurd hw (by simp)
  rw [hno hrunning hsleep 2 hg] at hlen
  exact absurd hlen (by simp)

end Pipeline

end ScietexLogging
