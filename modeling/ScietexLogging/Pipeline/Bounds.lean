import ScietexLogging.Pipeline.Restart

/-!
# Pipeline — how much is buffered

Every queue of a handler is bounded: its ingress, and the queue of every backend. What
the workers have in hand comes on top.

* `capacity`        — no step changes the capacity of a backend queue;
* `ingressCapacity` — the ingress has the one that `start_logging` gave it;
* `bounded`         — no queue ever holds more, and a backend has all that it has not yet
  acknowledged in its queue, but for one record.
-/

namespace ScietexLogging

open Asyncio

variable {k : Nat}

namespace Desk

variable {C : Consumer Item Outcome} {d d' : Desk C}

theorem offer_maxsize (d : Desk C) (x : Item) :
    (d.offer x).ledger.queue.maxsize = d.ledger.queue.maxsize := by
  rw [offer]
  cases hput : d.ledger.put x with
  | none => rfl
  | some l => exact Ledger.put_maxsize hput

theorem offerAll_maxsize (d : Desk C) (xs : List Item) :
    (d.offerAll xs).ledger.queue.maxsize = d.ledger.queue.maxsize := by
  induction xs generalizing d with
  | nil => rfl
  | cons x xs ih => exact (ih (d.offer x)).trans (offer_maxsize d x)

/-- With one worker, what is unfinished is in the queue or in its hand. -/
theorem Kept.unfinished_le (hk : d.Kept) (hs : d.Sound)
    (hone : ∀ c c', d.Alive c → d.Alive c' → c = c') :
    d.ledger.queue.unfinished ≤ d.ledger.queue.items.length + 1 := by
  by_cases hsome : ∃ c n, d.hand c = some n
  · obtain ⟨c, n, hc⟩ := hsome
    have hkept : ∀ m < d.ledger.taken, d.ledger.acks m = [] → d.hand c = some m := by
      intro m hm ha
      obtain ⟨c', hc'⟩ := hk m hm ha
      rw [hone c c' (alive_of_hand hc) (alive_of_hand hc')]
      exact hc'
    exact hs.ledger.unfinished_le hkept
  · have hkept : ∀ m < d.ledger.taken, d.ledger.acks m = [] → none = some m := by
      intro m hm ha
      obtain ⟨c, hc⟩ := hk m hm ha
      exact absurd ⟨c, m, hc⟩ hsome
    exact hs.ledger.unfinished_le hkept

end Desk

private theorem EmitStep.ingress_maxsize {x y : Intake k} {h : Handler k} {starts n : Nat}
    (hs : EmitStep x h starts n y) (g : Nat) : (y.ingress g).maxsize = (x.ingress g).maxsize := by
  cases hs with
  | @entered r g' e q _ put =>
    show (Function.update x.ingress g' q g).maxsize = _
    by_cases hg : g = g'
    · rw [hg, Function.update_self, (BoundedQueue.putNowait_eq_some.mp put).2.1]
    · rw [Function.update_of_ne hg]
  | _ => rfl

private theorem taken_maxsize {f : Nat → BoundedQueue Emitted} {g' : Nat} {e : Emitted}
    {q : BoundedQueue Emitted} (get : (f g').getNowait = some (e, q)) (g : Nat) :
    (Function.update f g' q g).maxsize = (f g).maxsize := by
  by_cases hg : g = g'
  · rw [hg, Function.update_self, (BoundedQueue.getNowait_eq_some.mp get).1]
  · rw [Function.update_of_ne hg]

namespace Pipeline

variable {cfg : Config k} {s t : Pipeline cfg} {a : PipelineAct cfg}

private theorem DeskChange.maxsize {i : Fin k} (h : DeskChange s t a i) (hsound : (s.desks i).Sound) :
    (t.desks i).ledger.queue.maxsize = (s.desks i).ledger.queue.maxsize := by
  cases h with
  | keep desk => rw [desk]
  | work _ desk => exact (Desk.work_hand desk hsound).maxsize
  | cancel _ desk => rw [desk]; rfl
  | hire _ _ desk => rw [desk]; rfl
  | rebase _ _ desk => rw [desk]
  | status _ _ _ desk => rw [desk, Desk.offerAll_maxsize]
  | clear _ cleared desk =>
    rw [desk]
    exact Ledger.clearLoop_maxsize cleared

/-- The capacity of a backend queue is the one it was made with. -/
theorem capacity {ok : Pipeline cfg → PipelineAct cfg → Prop} (h : (pipeline cfg).Reachable ok s)
    (i : Fin k) : (s.desks i).ledger.queue.maxsize = cfg.queueMaxsize i := by
  refine Machine.invariant_with (J := fun s => ∀ i, (s.desks i).Sound)
    (I := fun s => (s.desks i).ledger.queue.maxsize = cfg.queueMaxsize i)
    (fun s hs i => desks_sound hs i) ?_ ?_ h
  · rintro s rfl
    rfl
  · intro s a t hsound hi _ hstep
    refine Eq.trans ?_ hi
    cases step_changed hstep with
    | moved _ _ _ _ _ _ desks => rw [desks i, Desk.offer_maxsize]
    | other _ desk => exact (desk i).maxsize (hsound i)

/-- Every start gives its ingress room for `m` records. -/
def StartsWith (m : Nat) : PipelineAct cfg → Prop
  | .start n => n = m
  | _ => True

instance (m : Nat) : (a : PipelineAct cfg) → Decidable (StartsWith m a)
  | .start _ => inferInstanceAs (Decidable (_ = _))
  | .emitCall _ | .emit _ | .runSet _ | .bridge _ | .worker _ _ _ | .cancelWorker _ _ | .close | .stop
  | .advance | .bridgeAwaited | .joined _ | .drainReturns _ | .drainTimesOut _ | .drainFails _ _
  | .report _ | .gathered | .gatherRaises | .deadline | .gatherEnds | .gatherEndsRaising | .reaped =>
    isTrue trivial

/-- Only `start_logging` gives an ingress a capacity, which is the new one. -/
private theorem step_ingress_maxsize (h : s.step a = some t) {g : Nat}
    (hold : g = s.starts → ∀ m, s.life ≠ .startIngress m) :
    (t.intake.ingress g).maxsize = (s.intake.ingress g).maxsize := by
  cases step_changed h with
  | moved _ get _ _ _ intake _ =>
    rw [intake]
    exact taken_maxsize get g
  | other hintake _ =>
    cases hintake with
    | keep intake | event intake => rw [intake]
    | call intake _ =>
      rw [intake]
      rfl
    | emit _ step => exact step.ingress_maxsize g
    | discard _ _ get intake =>
      rw [intake]
      exact taken_maxsize get g
    | renew life intake =>
      rw [intake]
      by_cases hg : g = s.starts
      · exact absurd life (hold hg _)
      · exact congrArg BoundedQueue.maxsize (Function.update_of_ne hg _ _)

/-- The ingress of the handler has room for `m`, and so has the one it is about to make. -/
private structure Roomy (m : Nat) (s : Pipeline cfg) : Prop where
  starting : ∀ n, s.life = .startIngress n → n = m
  ingress : ∀ g, s.handler.ingress = some g → (s.intake.ingress g).maxsize = m

private theorem HostStep.keepsIngress {h : Handler k} {l : Life k} (step : HostStep s a h l) {g : Nat}
    (hg : h.ingress = some g) : s.handler.ingress = some g ∨
      (a = .advance ∧ ∃ n, s.life = .startIngress n) := by
  cases step with
  | setIngress life is => exact .inr ⟨is, _, life⟩
  | releaseIngress => cases hg
  | _ => exact .inl hg

/-- An ingress that the handler has is not the one it is about to make. -/
private theorem Control.ingress_old (hc : Control s) {g : Nat} (hg : s.handler.ingress = some g)
    (heq : g = s.starts) (n : Nat) : s.life ≠ .startIngress n := by
  intro hlife
  have hst := hc.stage
  rw [hlife] at hst
  exact Nat.ne_of_lt (hst.2.2.1.ingress g hg) heq

private theorem Roomy.step {m : Nat} (hi : Roomy m s) (hc : Control s) (hok : StartsWith m a)
    (h : s.step a = some t) : Roomy m t := by
  have hkeep : ∀ g, s.handler.ingress = some g → (t.intake.ingress g).maxsize = m := fun g hg =>
    (step_ingress_maxsize h (hc.ingress_old hg)).trans (hi.ingress g hg)
  cases step_hosted h with
  | same handler life _ _ =>
    refine ⟨fun n hn => hi.starting n (life ▸ hn), fun g hg => hkeep g ?_⟩
    rwa [handler] at hg
  | @start n _ _ eq is =>
    have hn : n = m := by
      rw [is] at hok
      exact hok
    rw [eq] at hkeep ⊢
    exact ⟨fun n' hlife => (Life.startIngress.inj hlife).symm.trans hn, hkeep⟩
  | host step _ _ =>
    refine ⟨fun n hn => hi.starting n (step.startIngress hn), fun g hg => ?_⟩
    rcases step.keepsIngress hg with hg | ⟨rfl, n, hlife⟩
    · exact hkeep g hg
    · rw [Pipeline.step, advance, hlife] at h
      obtain rfl := Option.some.inj h
      obtain rfl := Option.some.inj hg
      show (Function.update s.intake.ingress s.starts (.new n) s.starts).maxsize = m
      rw [Function.update_self, hi.starting n hlife]
      rfl

/-- The ingress of the handler has the capacity that every start is given. -/
theorem ingressCapacity {ok : Pipeline cfg → PipelineAct cfg → Prop} {m : Nat}
    (hok : ∀ s a, ok s a → StartsWith m a) (h : (pipeline cfg).Reachable ok s) {g : Nat}
    (hg : s.handler.ingress = some g) : (s.intake.ingress g).maxsize = m := by
  refine (Machine.invariant_with (J := Control) (I := Roomy m) (fun _ hs => control hs) ?_ ?_ h).ingress
    g hg
  · rintro s rfl
    exact ⟨fun n hn => absurd hn nofun, fun g hg => absurd hg nofun⟩
  · intro s a t hc hi hoks hstep
    exact hi.step hc (hok s a hoks) hstep

/-- **The handler buffers no more than its queues hold.** In every run in which every start makes
an ingress with room for `m` records, no `stop_logging` raises and no broker worker is given a
record that it cannot turn into an entry: the ingress never has more than `m` records, and no
queue of a backend more than its `queue_maxsize`; what a backend has not acknowledged is in its
queue, but for one record. -/
theorem bounded {m : Nat} (hs : (pipeline cfg).Reachable (fun s a => s.Orderly a ∧ StartsWith m a) s)
    (hm : 0 < m) (hqueues : ∀ i, 0 < cfg.queueMaxsize i) :
    (∀ g, s.handler.ingress = some g → (s.intake.ingress g).items.length ≤ m) ∧
    ∀ i, (s.desks i).ledger.queue.items.length ≤ cfg.queueMaxsize i ∧
      (s.desks i).ledger.queue.unfinished ≤ (s.desks i).ledger.queue.items.length + 1 := by
  refine ⟨fun g hg => ?_, fun i => ⟨?_, ?_⟩⟩
  · have hcap := ingressCapacity (fun _ _ hok => hok.2) hs hg
    have hroom := (s.intake.ingress g).bounded (by rw [hcap]; exact hm)
    rwa [hcap] at hroom
  · have hcap := capacity hs i
    have hroom := (s.desks i).ledger.queue.bounded (by rw [hcap]; exact hqueues i)
    rwa [hcap] at hroom
  · have horderly : (pipeline cfg).Reachable Orderly s := hs.mono fun _ _ hok => hok.1
    have hc := control hs
    have hi := staffed (fun _ _ => Orderly.returning) horderly
    exact (kept horderly i).unfinished_le (desks_sound hs i) fun c c' h h' =>
      (hi.current hc h).trans (hi.current hc h').symm

/-- A start with room for one record; one is emitted, and another is too much. -/
def fullIngress : List (PipelineAct oneConsole) :=
  let record : LogRecord := ⟨20, "app", .ok "started", .ok "1970-01-01T00:00:00+00:00"⟩
  [.start 1, .advance, .advance, .advance, .advance,
    .emitCall record, .emit 0, .emit 0, .emit 0, .emit 0, .emit 0, .emit 0,
    .emitCall record, .emit 1, .emit 1, .emit 1, .emit 1, .emit 1]

theorem bounded_full :
    ∃ s, (pipeline oneConsole).run (fun s a => s.Orderly a ∧ StartsWith 1 a) (init oneConsole)
        fullIngress = some s ∧
      s.intake.reports = [.ingressFull 1] ∧
      (∀ g, s.handler.ingress = some g → (s.intake.ingress g).items.length ≤ 1) ∧
      ∀ i, (s.desks i).ledger.queue.items.length ≤ oneConsole.queueMaxsize i ∧
        (s.desks i).ledger.queue.unfinished ≤ (s.desks i).ledger.queue.items.length + 1 := by
  have hrun : ∃ s, (pipeline oneConsole).run (fun s a => s.Orderly a ∧ StartsWith 1 a) (init oneConsole)
      fullIngress = some s ∧ s.intake.reports = [.ingressFull 1] := ⟨_, rfl, rfl⟩
  obtain ⟨s, hs, hreports⟩ := hrun
  exact ⟨s, hs, hreports, bounded (.of_run rfl hs) Nat.one_pos fun _ => Nat.one_pos⟩

end Pipeline

end ScietexLogging
