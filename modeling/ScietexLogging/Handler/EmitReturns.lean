import ScietexLogging.Handler.ErrorChannel

/-!
# Handler — when emit returns

`emit` never raises by construction: each failing call it makes is caught and
reported. What can go wrong is the report itself. When the record reaches the
module logger and the logger hands it to a handler that must report in turn,
and that one falls back to the logger as well, the two functions call each
other without end.

Main results:

* `emit_extends`     — nested calls only append: flags and settings stay, the
  ingress queues and the reports grow at their ends;
* `error_iff_canLog` — the module logger returns exactly when everyone it hands
  its record to, and who would fall back to it, has room for every copy;
* `emit_returns_iff` — the exact condition under which a call of `emit` returns
  with the record delivered, reported or ignored.
-/

namespace ScietexLogging

open Asyncio

variable {ι R : Type}

-- ---------------------------------------------------------------------------
-- States of a handler, as emit sees them
-- ---------------------------------------------------------------------------

namespace EmitterState

/-- The accept event is set and the references of the cycle are in place. -/
def Accepting (s : EmitterState R) : Prop :=
  s.loggingAcceptEvent = true ∧ s.ingress.isSome = true ∧ s.loop.isSome = true ∧
    s.ingressEvent.isSome = true

/-- A record emitted now cannot be handed over and is reported. -/
def MustReport (s : EmitterState R) : Prop :=
  s.Accepting ∧ (s.loop = some .closed ∨ ∃ q, s.ingress = some q ∧ q.full = true)

/-- A report of this handler goes on to the module logger. -/
def FallsBack (s : EmitterState R) : Prop := s.errorHandler ≠ .returns

/-- The next `m` records are taken without a report. -/
def CanTake (s : EmitterState R) (m : Nat) : Prop :=
  s.loop = some .live ∧ ∃ q, s.ingress = some q ∧ q.HasRoom m

/-- What nested calls may do to a handler. -/
structure Extends (s s' : EmitterState R) : Prop where
  name : s'.name = s.name
  errorHandler : s'.errorHandler = s.errorHandler
  accept : s'.loggingAcceptEvent = s.loggingAcceptEvent
  loop : s'.loop = s.loop
  event : s'.ingressEvent.isSome = s.ingressEvent.isSome
  none : s.ingress = none → s'.ingress = none
  some : ∀ q, s.ingress = some q →
    ∃ q', s'.ingress = some q' ∧ q'.maxsize = q.maxsize ∧ q.items <+: q'.items

theorem Extends.refl (s : EmitterState R) : s.Extends s :=
  ⟨rfl, rfl, rfl, rfl, rfl, id, fun q hq => ⟨q, hq, rfl, List.prefix_rfl⟩⟩

theorem Extends.trans {s s' s'' : EmitterState R} (h : s.Extends s') (h' : s'.Extends s'') :
    s.Extends s'' := by
  refine ⟨h'.name.trans h.name, h'.errorHandler.trans h.errorHandler, h'.accept.trans h.accept,
    h'.loop.trans h.loop, h'.event.trans h.event, fun hn => h'.none (h.none hn), ?_⟩
  intro q hq
  obtain ⟨q', hq', hm, hp⟩ := h.some q hq
  obtain ⟨q'', hq'', hm', hp'⟩ := h'.some q' hq'
  exact ⟨q'', hq'', hm'.trans hm, hp.trans hp'⟩

theorem Extends.ingress_isSome {s s' : EmitterState R} (h : s.Extends s') :
    s'.ingress.isSome = s.ingress.isSome := by
  cases hq : s.ingress with
  | none => rw [h.none hq]
  | some q =>
    obtain ⟨q', hq', -⟩ := h.some q hq
    rw [hq']
    rfl

theorem Extends.accepting {s s' : EmitterState R} (h : s.Extends s') :
    s'.Accepting ↔ s.Accepting := by
  unfold Accepting
  rw [h.accept, h.ingress_isSome, h.loop, h.event]

theorem Extends.fallsBack {s s' : EmitterState R} (h : s.Extends s') :
    s'.FallsBack ↔ s.FallsBack := by
  rw [FallsBack, FallsBack, h.errorHandler]

theorem CanTake.mono {s : EmitterState R} {m m' : Nat} (h : s.CanTake m) (hle : m' ≤ m) :
    s.CanTake m' := by
  obtain ⟨hl, q, hq, hr⟩ := h
  exact ⟨hl, q, hq, hr.mono hle⟩

/-- What a handler can take after nested calls, it could take before them. -/
theorem Extends.canTake {s s' : EmitterState R} (h : s.Extends s') {m : Nat}
    (hc : s'.CanTake m) : s.CanTake m := by
  obtain ⟨hl, q', hq', hr⟩ := hc
  cases hq : s.ingress with
  | none =>
    rw [h.none hq] at hq'
    exact absurd hq' (by simp)
  | some q =>
    obtain ⟨q'', hq'', hm, hp⟩ := h.some q hq
    rw [hq', Option.some.injEq] at hq''
    subst hq''
    have hlen := hp.length_le
    refine ⟨h.loop ▸ hl, q, hq, ?_⟩
    unfold BoundedQueue.HasRoom at *
    omega

/-- An accepting handler either must report or takes the record. -/
theorem Accepting.mustReport_or {s : EmitterState R} (h : s.Accepting) :
    s.MustReport ∨ s.CanTake 1 := by
  obtain ⟨q, hq⟩ := Option.isSome_iff_exists.mp h.2.1
  obtain ⟨l, hl⟩ := Option.isSome_iff_exists.mp h.2.2.1
  cases hf : q.full with
  | true => exact .inl ⟨h, .inr ⟨q, hq, hf⟩⟩
  | false =>
    cases l with
    | live => exact .inr ⟨hl, q, hq, BoundedQueue.full_eq_false_iff.mp hf⟩
    | closed => exact .inl ⟨h, .inl hl⟩

theorem MustReport.not_canTake {s : EmitterState R} (h : s.MustReport) : ¬ s.CanTake 1 := by
  rintro ⟨hl, q, hq, hr⟩
  rcases h.2 with hc | ⟨q', hq', hf⟩
  · rw [hl] at hc
    exact absurd hc (by simp)
  · rw [hq, Option.some.injEq] at hq'
    subst hq'
    rw [BoundedQueue.full_eq_false_iff.mpr hr] at hf
    exact absurd hf (by simp)

end EmitterState

-- ---------------------------------------------------------------------------
-- Worlds
-- ---------------------------------------------------------------------------

namespace World

@[simp] theorem report_handler (w : World ι R) (h : ι) (r : R) (exc : DeliveryError) :
    (w.report h r exc).handler = w.handler := rfl

structure Extends (w w' : World ι R) : Prop where
  handler : ∀ g, (w.handler g).Extends (w'.handler g)
  reports : w.reports <+: w'.reports

theorem Extends.refl (w : World ι R) : w.Extends w :=
  ⟨fun _ => .refl _, List.prefix_rfl⟩

theorem Extends.trans {w w' w'' : World ι R} (h : w.Extends w') (h' : w'.Extends w'') :
    w.Extends w'' :=
  ⟨fun g => (h.handler g).trans (h'.handler g), h.reports.trans h'.reports⟩

theorem extends_report (w : World ι R) (h : ι) (r : R) (exc : DeliveryError) :
    w.Extends (w.report h r exc) :=
  ⟨fun _ => .refl _, List.prefix_append _ _⟩

variable [DecidableEq ι]

@[simp] theorem modify_handler_self (w : World ι R) (h : ι)
    (f : EmitterState R → EmitterState R) : (w.modify h f).handler h = f (w.handler h) := by
  simp [modify]

theorem modify_handler_ne (w : World ι R) {h g : ι} (f : EmitterState R → EmitterState R)
    (hne : g ≠ h) : (w.modify h f).handler g = w.handler g := by
  simp [modify, hne]

theorem extends_modify (w : World ι R) (h : ι) (f : EmitterState R → EmitterState R)
    (hf : (w.handler h).Extends (f (w.handler h))) : w.Extends (w.modify h f) := by
  refine ⟨fun g => ?_, List.prefix_rfl⟩
  by_cases hg : g = h
  · subst hg
    simpa using hf
  · rw [modify_handler_ne w f hg]
    exact .refl _

theorem extends_setIngress {w : World ι R} {h : ι} {q q' : BoundedQueue R} {r : R}
    (hq : (w.handler h).ingress = some q) (hput : q.putNowait r = some q') :
    w.Extends (w.setIngress h q') := by
  obtain ⟨-, hm, hi⟩ := BoundedQueue.putNowait_eq_some.mp hput
  refine extends_modify w h _ ⟨rfl, rfl, rfl, rfl, rfl, ?_, ?_⟩
  · intro hn
    rw [hn] at hq
    exact absurd hq (by simp)
  · intro p hp
    rw [hq, Option.some.injEq] at hp
    subst hp
    exact ⟨q', rfl, hm, hi ▸ List.prefix_append _ _⟩

theorem extends_scheduleSet (w : World ι R) (h : ι) : w.Extends (w.scheduleSet h) := by
  refine extends_modify w h _ ⟨rfl, rfl, rfl, rfl, by simp, id, ?_⟩
  exact fun q hq => ⟨q, hq, rfl, List.prefix_rfl⟩

end World

-- ---------------------------------------------------------------------------
-- One activation of emit
-- ---------------------------------------------------------------------------

variable {L : ErrorLogger ι R} {f : World ι R × ι × R → Option (World ι R)}

/-- A report that stays with the `error_handler`. -/
theorem reportError_returns {w : World ι R} {h : ι} {r : R} {exc : DeliveryError}
    (hf : ¬ (w.handler h).FallsBack) : reportError L f w h r exc = some (w.report h r exc) := by
  rw [EmitterState.FallsBack, not_not] at hf
  rw [reportError, hf]

/-- A report that goes on to the module logger. -/
theorem reportError_fallsBack {w : World ι R} {h : ι} {r : R} {exc : DeliveryError}
    (hf : (w.handler h).FallsBack) :
    reportError L f w h r exc = L.error f (w.report h r exc) (w.handler h).name exc := by
  unfold EmitterState.FallsBack at hf
  cases he : (w.handler h).errorHandler with
  | returns => exact absurd he hf
  | unset => rw [reportError, he]
  | raises => rw [reportError, he]

variable [DecidableEq ι]

theorem emitBody_ignored {w : World ι R} {h : ι} {r : R} (hna : ¬ (w.handler h).Accepting) :
    emitBody L f (w, h, r) = some w := by
  simp only [emitBody]
  split
  · rename_i hacc
    split
    · rename_i q l e hq hl he
      exact absurd ⟨hacc, by simp [hq], by simp [hl], by simp [he]⟩ hna
    · rfl
  · rfl

theorem emitBody_taken {w : World ι R} {h : ι} {r : R} (hacc : (w.handler h).Accepting)
    (hc : (w.handler h).CanTake 1) :
    ∃ q q', (w.handler h).ingress = some q ∧ q.putNowait r = some q' ∧
      emitBody L f (w, h, r) = some ((w.setIngress h q').scheduleSet h) := by
  obtain ⟨hl, q, hq, hr⟩ := hc
  obtain ⟨e, he⟩ := Option.isSome_iff_exists.mp hacc.2.2.2
  cases hput : q.putNowait r with
  | none =>
    rw [BoundedQueue.putNowait_eq_none, ← Bool.not_eq_false, BoundedQueue.full_eq_false_iff] at hput
    exact absurd hr hput
  | some q' =>
    refine ⟨q, q', hq, hput, ?_⟩
    simp only [emitBody, hacc.1, if_true, hq, hl, he, hput]

/-- An activation that must report does so, from the world the put (if any) has
left. -/
theorem emitBody_mustReport {w : World ι R} {h : ι} {r : R} (hm : (w.handler h).MustReport) :
    ∃ w₁ exc, emitBody L f (w, h, r) = reportError L f w₁ h r exc ∧ w.Extends w₁ ∧
      (∀ g, g ≠ h → w₁.handler g = w.handler g) ∧ w₁.reports = w.reports ∧
      (∀ q, (w.handler h).ingress = some q → q.full = false →
        ∃ q', (w₁.handler h).ingress = some q' ∧ q.items ++ [r] = q'.items) := by
  obtain ⟨hacc, hcase⟩ := hm
  obtain ⟨q, hq⟩ := Option.isSome_iff_exists.mp hacc.2.1
  obtain ⟨l, hl⟩ := Option.isSome_iff_exists.mp hacc.2.2.1
  obtain ⟨e, he⟩ := Option.isSome_iff_exists.mp hacc.2.2.2
  cases hput : q.putNowait r with
  | none =>
    refine ⟨w, .full, ?_, .refl w, fun _ _ => rfl, rfl, ?_⟩
    · simp only [emitBody, hacc.1, if_true, hq, hl, he, hput]
    · intro p hp hf
      rw [hq, Option.some.injEq] at hp
      subst hp
      rw [BoundedQueue.putNowait_eq_none.mp hput] at hf
      exact absurd hf (by simp)
  | some q' =>
    have hclosed : l = .closed := by
      rcases hcase with hc | ⟨p, hp, hf⟩
      · rw [hl, Option.some.injEq] at hc
        exact hc
      · rw [hq, Option.some.injEq] at hp
        subst hp
        rw [BoundedQueue.putNowait_eq_none.mpr hf] at hput
        exact absurd hput (by simp)
    subst hclosed
    obtain ⟨-, -, hi⟩ := BoundedQueue.putNowait_eq_some.mp hput
    refine ⟨w.setIngress h q', .loopClosed, ?_, World.extends_setIngress hq hput,
      fun g hg => World.modify_handler_ne w _ hg, rfl, ?_⟩
    · simp only [emitBody, hacc.1, if_true, hq, hl, he, hput]
    · intro p hp _
      rw [hq, Option.some.injEq] at hp
      subst hp
      exact ⟨q', by simp [World.setIngress], hi.symm⟩

-- ---------------------------------------------------------------------------
-- Nested calls only append
-- ---------------------------------------------------------------------------

omit [DecidableEq ι] in
private theorem foldlM_extends {mk : R} {l : List ι}
    (hf : ∀ x w', f x = some w' → x.1.Extends w') {w w' : World ι R}
    (h : l.foldlM (fun w g => f (w, g, mk)) w = some w') : w.Extends w' := by
  induction l generalizing w with
  | nil =>
    rw [List.foldlM_nil, Option.pure_def, Option.some.injEq] at h
    exact h ▸ .refl w
  | cons a l ih =>
    rw [List.foldlM_cons] at h
    obtain ⟨v, hv, hrest⟩ := Option.bind_eq_some_iff.mp h
    exact (hf _ _ hv).trans (ih hrest)

omit [DecidableEq ι] in
theorem reportError_extends (hf : ∀ x w', f x = some w' → x.1.Extends w')
    {w w' : World ι R} {h : ι} {r : R} {exc : DeliveryError}
    (hr : reportError L f w h r exc = some w') : (w.report h r exc).Extends w' := by
  by_cases hfall : (w.handler h).FallsBack
  · rw [reportError_fallsBack hfall] at hr
    exact foldlM_extends hf hr
  · rw [reportError_returns hfall, Option.some.injEq] at hr
    exact hr ▸ .refl _

/-- One activation only appends, if the calls it makes do. -/
theorem emit_extends_body (hf : ∀ x w', f x = some w' → x.1.Extends w')
    {x : World ι R × ι × R} {w' : World ι R} (hw' : emitBody L f x = some w') :
    x.1.Extends w' := by
  obtain ⟨w, g, r⟩ := x
  by_cases hacc : (w.handler g).Accepting
  · rcases hacc.mustReport_or with hm | hc
    · obtain ⟨w₁, exc, heq, hext, -⟩ := emitBody_mustReport (L := L) (f := f) (r := r) hm
      rw [heq] at hw'
      exact (hext.trans (w₁.extends_report g r exc)).trans (reportError_extends hf hw')
    · obtain ⟨q, q', hq, hput, heq⟩ := emitBody_taken (L := L) (f := f) (r := r) hacc hc
      rw [heq, Option.some.injEq] at hw'
      exact hw' ▸ (World.extends_setIngress hq hput).trans (World.extends_scheduleSet _ g)
  · rw [emitBody_ignored hacc, Option.some.injEq] at hw'
    exact hw' ▸ .refl w

theorem emit_extends (n : Nat) (x : World ι R × ι × R) {w' : World ι R}
    (h : approx (emitBody L) n x = some w') : x.1.Extends w' := by
  refine approx_induct (F := emitBody L) (P := fun f => ∀ x w', f x = some w' → x.1.Extends w')
    ?_ ?_ n x w' h
  · exact fun x w' h => absurd h (by simp)
  · exact fun f hf x w' hw' => emit_extends_body hf hw'

/-- A record emitted on a handler with room is in its ingress afterwards. -/
theorem emit_puts {n : Nat} {w w' : World ι R} {h : ι} {r : R} {q : BoundedQueue R}
    (hacc : (w.handler h).Accepting) (hq : (w.handler h).ingress = some q) (hf : q.full = false)
    (he : approx (emitBody L) n (w, h, r) = some w') :
    ∃ q', (w'.handler h).ingress = some q' ∧ q'.maxsize = q.maxsize ∧
      q.items ++ [r] <+: q'.items := by
  cases n with
  | zero => exact absurd he (by simp [approx])
  | succ n =>
    have hf' := emit_extends (L := L) n
    rw [approx] at he
    rcases hacc.mustReport_or with hm | hc
    · obtain ⟨w₁, exc, heq, hext, -, -, hput⟩ :=
        emitBody_mustReport (L := L) (f := approx (emitBody L) n) (r := r) hm
      rw [heq] at he
      have hext' := (w₁.extends_report h r exc).trans (reportError_extends hf' he)
      obtain ⟨q₁, hq₁, hi₁⟩ := hput q hq hf
      obtain ⟨p₁, hp₁, hm₁, -⟩ := (hext.handler h).some q hq
      rw [hq₁, Option.some.injEq] at hp₁
      subst hp₁
      obtain ⟨q₂, hq₂, hm₂, hi₂⟩ := (hext'.handler h).some q₁ hq₁
      exact ⟨q₂, hq₂, hm₂.trans hm₁, hi₁ ▸ hi₂⟩
    · obtain ⟨p, q', hp, hput, heq⟩ :=
        emitBody_taken (L := L) (f := approx (emitBody L) n) (r := r) hacc hc
      rw [hq, Option.some.injEq] at hp
      subst hp
      rw [heq, Option.some.injEq] at he
      subst he
      obtain ⟨-, hm, hi⟩ := BoundedQueue.putNowait_eq_some.mp hput
      refine ⟨q', ?_, hm, hi ▸ List.prefix_rfl⟩
      simp [World.scheduleSet, World.setIngress]

-- ---------------------------------------------------------------------------
-- The module logger
-- ---------------------------------------------------------------------------

/-- Everyone the module logger hands its records to, and who would come back to
the logger, has room for `m` calls of it. -/
def ErrorLogger.CanLog (L : ErrorLogger ι R) (w : World ι R) (m : Nat) : Prop :=
  ∀ g ∈ L.handed, (w.handler g).Accepting → (w.handler g).FallsBack →
    (w.handler g).CanTake (m * L.handed.count g)

/-- An activation without a report that goes to the logger returns. -/
theorem emit_quiet (n : Nat) {w : World ι R} {h : ι} (r : R)
    (hquiet : (w.handler h).MustReport → ¬ (w.handler h).FallsBack) :
    ∃ w', approx (emitBody L) (n + 1) (w, h, r) = some w' ∧
      (∀ g m, (w.handler g).CanTake (m + if g = h then 1 else 0) → (w'.handler g).CanTake m) ∧
      (∀ g, g ≠ h → w'.handler g = w.handler g) := by
  have hother : ∀ {v : World ι R}, (∀ g, g ≠ h → v.handler g = w.handler g) →
      ((w.handler h).CanTake 1 → ∀ m, (w.handler h).CanTake (m + 1) → (v.handler h).CanTake m) →
      ∀ g m, (w.handler g).CanTake (m + if g = h then 1 else 0) → (v.handler g).CanTake m := by
    intro v hne hself g m hc
    by_cases hg : g = h
    · subst hg
      rw [if_pos rfl] at hc
      exact hself (hc.mono (by omega)) m hc
    · rw [if_neg hg] at hc
      rw [hne g hg]
      exact hc
  rw [approx]
  by_cases hacc : (w.handler h).Accepting
  · rcases hacc.mustReport_or with hm | hc
    · obtain ⟨w₁, exc, heq, hext, hne, -, -⟩ :=
        emitBody_mustReport (L := L) (f := approx (emitBody L) n) (r := r) hm
      have hfall : ¬ (w₁.handler h).FallsBack := by
        rw [(hext.handler h).fallsBack]
        exact hquiet hm
      refine ⟨w₁.report h r exc, by rw [heq, reportError_returns hfall], hother hne ?_, hne⟩
      exact fun hc => absurd hc hm.not_canTake
    · obtain ⟨q, q', hq, hput, heq⟩ :=
        emitBody_taken (L := L) (f := approx (emitBody L) n) (r := r) hacc hc
      have hne : ∀ g, g ≠ h →
          ((w.setIngress h q').scheduleSet h).handler g = w.handler g := fun g hg => by
        rw [World.scheduleSet, World.modify_handler_ne _ _ hg, World.setIngress,
          World.modify_handler_ne _ _ hg]
      refine ⟨_, heq, hother hne ?_, hne⟩
      rintro - m ⟨hl, p, hp, hr⟩
      rw [hq, Option.some.injEq] at hp
      subst hp
      obtain ⟨-, hm, hi⟩ := BoundedQueue.putNowait_eq_some.mp hput
      refine ⟨by simp [World.scheduleSet, World.setIngress, hl], q',
        by simp [World.scheduleSet, World.setIngress], ?_⟩
      have hlen : q'.items.length = q.items.length + 1 := by rw [hi]; simp
      unfold BoundedQueue.HasRoom at *
      omega
  · refine ⟨w, emitBody_ignored hacc, hother (fun _ _ => rfl) ?_, fun _ _ => rfl⟩
    exact fun _ m hc => hc.mono (by omega)

private theorem foldlM_quiet (n : Nat) (mk : R) {l : List ι} {w : World ι R}
    (hl : ∀ g ∈ l, (w.handler g).Accepting → (w.handler g).FallsBack →
      (w.handler g).CanTake (l.count g)) :
    ∃ w', l.foldlM (fun w g => approx (emitBody L) (n + 1) (w, g, mk)) w = some w' ∧
      ∀ g m, (w.handler g).CanTake (m + l.count g) → (w'.handler g).CanTake m := by
  induction l generalizing w with
  | nil => exact ⟨w, rfl, fun g m hc => by simpa using hc⟩
  | cons a l ih =>
    have hquiet : (w.handler a).MustReport → ¬ (w.handler a).FallsBack := by
      intro hm hfall
      have hc := hl a (by simp) hm.1 hfall
      exact hm.not_canTake (hc.mono (by simp))
    obtain ⟨v, hv, hcv, -⟩ := emit_quiet (L := L) n mk hquiet
    have hext := emit_extends (L := L) _ _ hv
    have hcount : ∀ g, (a :: l).count g = l.count g + if g = a then 1 else 0 := by
      intro g
      rw [List.count_cons]
      by_cases hg : g = a
      · simp [hg]
      · simp [hg, Ne.symm hg]
    obtain ⟨w', hw', hcw⟩ := ih (w := v) (by
      intro g hg hacc hfall
      refine hcv g _ ?_
      rw [← hcount]
      exact hl g (by simp [hg]) ((hext.handler g).accepting.mp hacc)
        ((hext.handler g).fallsBack.mp hfall))
    refine ⟨w', ?_, ?_⟩
    · rw [List.foldlM_cons, hv]
      exact hw'
    · intro g m hc
      refine hcw g m (hcv g _ ?_)
      rw [hcount] at hc
      exact hc.mono (by omega)

/-- The calls from which `emit` cannot come back. -/
def ErrorLogger.Stuck (L : ErrorLogger ι R) (x : World ι R × ι × R) : Prop :=
  (x.1.handler x.2.1).MustReport ∧ (x.1.handler x.2.1).FallsBack ∧ ¬ L.CanLog x.1 1

/-- A fold over part of the list that returned has put every copy: whoever
would have had to report one is stuck. -/
private theorem foldlM_took {n : Nat} (hD : ∀ x, L.Stuck x → approx (emitBody L) n x = none)
    {mk : R} {l : List ι} {w w' : World ι R}
    (hfold : l.foldlM (fun w g => approx (emitBody L) n (w, g, mk)) w = some w') {g : ι}
    (hg : g ∈ L.handed) (hacc : (w.handler g).Accepting) (hfall : (w.handler g).FallsBack) :
    (g ∈ l → (w.handler g).loop = some .live) ∧
      ∀ q q', (w.handler g).ingress = some q → (w'.handler g).ingress = some q' →
        q.items.length + l.count g ≤ q'.items.length := by
  induction l generalizing w with
  | nil =>
    rw [List.foldlM_nil, Option.pure_def, Option.some.injEq] at hfold
    subst hfold
    refine ⟨fun h => absurd h (by simp), fun q q' hq hq' => ?_⟩
    rw [hq, Option.some.injEq] at hq'
    simp [hq']
  | cons a l ih =>
    rw [List.foldlM_cons] at hfold
    obtain ⟨v, hv, hrest⟩ := Option.bind_eq_some_iff.mp hfold
    have hext := emit_extends (L := L) _ _ hv
    obtain ⟨hlive, hlen⟩ := ih hrest ((hext.handler g).accepting.mpr hacc)
      ((hext.handler g).fallsBack.mpr hfall)
    rw [(hext.handler g).loop] at hlive
    by_cases ha : a = g
    · subst ha
      have htook : (w.handler a).CanTake 1 := by
        rcases hacc.mustReport_or with hm | hc
        · have hstuck : L.Stuck (w, a, mk) := by
            refine ⟨hm, hfall, fun hlog => hm.not_canTake ((hlog a hg hacc hfall).mono ?_)⟩
            have := List.count_pos_iff.mpr hg
            omega
          rw [hD _ hstuck] at hv
          exact absurd hv (by simp)
        · exact hc
      obtain ⟨hl, p, hp, hr⟩ := htook
      refine ⟨fun _ => hl, fun q q' hq hq' => ?_⟩
      rw [hp, Option.some.injEq] at hq
      subst hq
      obtain ⟨p₁, hp₁, -, hpre⟩ := emit_puts hacc hp (BoundedQueue.full_eq_false_iff.mpr hr) hv
      have h₁ := hpre.length_le
      have h₂ := hlen p₁ q' hp₁ hq'
      rw [List.length_append, List.length_singleton] at h₁
      rw [List.count_cons_self]
      omega
    · refine ⟨fun hmem => ?_, fun q q' hq hq' => ?_⟩
      · rcases List.mem_cons.mp hmem with h | h
        · exact absurd h.symm ha
        · exact hlive h
      · obtain ⟨p₁, hp₁, -, hpre⟩ := (hext.handler g).some q hq
        have h₁ := hpre.length_le
        have h₂ := hlen p₁ q' hp₁ hq'
        rw [List.count_cons_of_ne ha]
        omega

private theorem error_stuck {n : Nat} (hD : ∀ x, L.Stuck x → approx (emitBody L) n x = none)
    {w : World ι R} (name : String) (exc : DeliveryError) (hno : ¬ L.CanLog w 1) :
    L.error (approx (emitBody L) n) w name exc = none := by
  cases he : L.error (approx (emitBody L) n) w name exc with
  | none => rfl
  | some w' =>
    refine absurd (fun g hg hacc hfall => ?_) hno
    obtain ⟨hlive, hlen⟩ := foldlM_took hD he hg hacc hfall
    obtain ⟨q, hq⟩ := Option.isSome_iff_exists.mp hacc.2.1
    obtain ⟨q', hq', hm, -⟩ := ((foldlM_extends (emit_extends (L := L) n) he).handler g).some q hq
    refine ⟨hlive hg, q, hq, ?_⟩
    have h₁ := hlen q q' hq hq'
    have h₂ := q'.bounded
    unfold BoundedQueue.HasRoom
    omega

theorem ErrorLogger.Stuck.none {x : World ι R × ι × R} (hx : L.Stuck x) (n : Nat) :
    approx (emitBody L) n x = .none := by
  have hno : ¬ Terminates (emitBody L) x := by
    refine not_terminates (D := L.Stuck) ?_ hx
    rintro n ⟨w, h, r⟩ hD ⟨hm, hfall, hlog⟩
    obtain ⟨w₁, exc, heq, hext, -, -, -⟩ :=
      emitBody_mustReport (L := L) (f := approx (emitBody L) n) (r := r) hm
    have hfall₁ : (w₁.handler h).FallsBack := (hext.handler h).fallsBack.mpr hfall
    rw [heq, reportError_fallsBack hfall₁]
    refine error_stuck hD _ _ fun hc => hlog ?_
    intro g hg hacc hfb
    exact (hext.handler g).canTake (hc g hg ((hext.handler g).accepting.mpr hacc)
      ((hext.handler g).fallsBack.mpr hfb))
  cases hn : approx (emitBody L) n x with
  | none => rfl
  | some y => exact absurd ⟨n, y, hn⟩ hno

theorem error_extends {n : Nat} {w w' : World ι R} {name : String} {exc : DeliveryError}
    (he : L.error (approx (emitBody L) n) w name exc = some w') : w.Extends w' :=
  foldlM_extends (emit_extends (L := L) n) he

/-- A logger call that returned has put every copy of its record. -/
theorem error_took {n : Nat} {w w' : World ι R} {name : String} {exc : DeliveryError}
    (he : L.error (approx (emitBody L) n) w name exc = some w') {g : ι} (hg : g ∈ L.handed)
    (hacc : (w.handler g).Accepting) (hfall : (w.handler g).FallsBack) :
    (w.handler g).loop = some .live ∧
      ∀ q q', (w.handler g).ingress = some q → (w'.handler g).ingress = some q' →
        q.items.length + L.handed.count g ≤ q'.items.length := by
  obtain ⟨hlive, hlen⟩ := foldlM_took (fun x hx => hx.none n) he hg hacc hfall
  exact ⟨hlive hg, hlen⟩

/-- **The module logger.** A call of the logger returns exactly when nobody it
hands the record to comes back to it without end. -/
theorem error_iff_canLog {n : Nat} {w : World ι R} {name : String} {exc : DeliveryError} :
    (∃ w', L.error (approx (emitBody L) (n + 1)) w name exc = some w') ↔ L.CanLog w 1 := by
  constructor
  · rintro ⟨w', hw'⟩
    by_contra hno
    rw [error_stuck (fun x hx => hx.none _) name exc hno] at hw'
    exact absurd hw' (by simp)
  · intro hlog
    obtain ⟨w', hw', -⟩ := foldlM_quiet (L := L) n (L.makeRecord name exc) (l := L.handed) (w := w)
      (fun g hg hacc hfall => by simpa using hlog g hg hacc hfall)
    exact ⟨w', hw'⟩

/-- One call of the logger uses up the room for one. -/
theorem error_canLog {n m : Nat} {w w' : World ι R} {name : String} {exc : DeliveryError}
    (hlog : L.CanLog w (m + 1)) (he : L.error (approx (emitBody L) (n + 1)) w name exc = some w') :
    L.CanLog w' m := by
  have hone : ∀ g ∈ L.handed, (w.handler g).Accepting → (w.handler g).FallsBack →
      (w.handler g).CanTake (L.handed.count g) := by
    intro g hg hacc hfall
    refine (hlog g hg hacc hfall).mono ?_
    rw [Nat.succ_mul]
    omega
  obtain ⟨v, hv, hcv⟩ := foldlM_quiet (L := L) n (L.makeRecord name exc) hone
  have hsame : v = w' := Option.some.inj (hv.symm.trans he)
  subst hsame
  intro g hg hacc hfall
  have hext := (error_extends he).handler g
  refine hcv g _ ?_
  rw [← Nat.succ_mul]
  exact hlog g hg (hext.accepting.mp hacc) (hext.fallsBack.mp hfall)

-- ---------------------------------------------------------------------------
-- A call of emit
-- ---------------------------------------------------------------------------

/-- How a call of `emit` that returned has disposed of its record. -/
def Disposed (w : World ι R) (h : ι) (r : R) (w' : World ι R) : Prop :=
  (¬ (w.handler h).Accepting ∧ w' = w) ∨
  (∃ q q', (w.handler h).ingress = some q ∧ (w'.handler h).ingress = some q' ∧
    q.items ++ [r] <+: q'.items) ∨
  (∃ exc, w.reports ++ [(h, r, exc)] <+: w'.reports)

theorem emit_disposed {n : Nat} {w w' : World ι R} {h : ι} {r : R}
    (he : emit L n w h r = some w') : Disposed w h r w' := by
  cases n with
  | zero => exact absurd he (by simp [emit, approx])
  | succ n =>
    by_cases hacc : (w.handler h).Accepting
    · rcases hacc.mustReport_or with hm | ⟨-, q, hq, hr⟩
      · obtain ⟨w₁, exc, heq, -, -, hrep, -⟩ :=
          emitBody_mustReport (L := L) (f := approx (emitBody L) n) (r := r) hm
        rw [emit, approx, heq] at he
        have hext := reportError_extends (emit_extends (L := L) n) he
        have hpre := hext.reports
        rw [World.report, hrep] at hpre
        exact .inr (.inr ⟨exc, hpre⟩)
      · obtain ⟨q', hq', -, hp⟩ :=
          emit_puts hacc hq (BoundedQueue.full_eq_false_iff.mpr hr) he
        exact .inr (.inl ⟨q, q', hq, hq', hp⟩)
    · rw [emit, approx, emitBody_ignored hacc, Option.some.injEq] at he
      exact .inl ⟨hacc, he.symm⟩

/-- **When emit returns.** For every record, every handler state and every
topology, a call of `emit` returns after finitely many nested calls, with the
record put, reported or ignored, exactly when it does not have to report, or
the report stays with the `error_handler`, or the module logger can take it. -/
theorem emit_returns_iff (L : ErrorLogger ι R) (w : World ι R) (h : ι) (r : R) :
    (∃ n w', emit L n w h r = some w' ∧ Disposed w h r w') ↔
      ((w.handler h).MustReport → (w.handler h).FallsBack → L.CanLog w 1) := by
  constructor
  · rintro ⟨n, w', he, -⟩ hm hfall
    by_contra hno
    have hstuck : L.Stuck (w, h, r) := ⟨hm, hfall, hno⟩
    rw [emit, hstuck.none n] at he
    exact absurd he (by simp)
  · intro hcond
    by_cases hq : (w.handler h).MustReport ∧ (w.handler h).FallsBack
    · obtain ⟨hm, hfall⟩ := hq
      obtain ⟨w₁, exc, heq, hext, hne, -, -⟩ :=
        emitBody_mustReport (L := L) (f := approx (emitBody L) 1) (r := r) hm
      have hfall₁ : (w₁.handler h).FallsBack := (hext.handler h).fallsBack.mpr hfall
      -- the put before the report does not matter: a handler that must report
      -- has no room, so the logger does not hand it anything
      have hlog : L.CanLog (w₁.report h r exc) 1 := by
        intro g hg hacc hfb
        rw [World.report_handler] at hacc hfb ⊢
        have hc := hcond hm hfall g hg ((hext.handler g).accepting.mp hacc)
          ((hext.handler g).fallsBack.mp hfb)
        by_cases hgh : g = h
        · subst hgh
          refine absurd (hc.mono ?_) hm.not_canTake
          have := List.count_pos_iff.mpr hg
          omega
        · rw [hne g hgh]
          exact hc
      have herr : ∃ w', L.error (approx (emitBody L) 1) (w₁.report h r exc) (w₁.handler h).name exc =
          some w' := error_iff_canLog.mpr hlog
      obtain ⟨w', hw'⟩ := herr
      have he : emit L 2 w h r = some w' := by
        rw [emit, approx, heq, reportError_fallsBack hfall₁]
        exact hw'
      exact ⟨2, w', he, emit_disposed he⟩
    · obtain ⟨w', hw', -⟩ := emit_quiet (L := L) 0 r (w := w) (h := h)
        (fun hm hfall => hq ⟨hm, hfall⟩)
      exact ⟨1, w', hw', emit_disposed hw'⟩

/-- A handler attached to the root logger. -/
def rootAttached : ErrorLogger Unit Nat where
  enabled := true
  chain := [⟨[], true⟩, ⟨[⟨some (), 0, true⟩], true⟩]
  makeRecord := fun _ _ => 0

/-- That handler, running without an `error_handler`, its ingress full. -/
def overloaded : World Unit Nat where
  handler := fun _ => ⟨"ConsoleHandler", .unset, true, some .live, some ⟨1, [7], by simp⟩, some 0⟩
  reports := []

theorem emit_overloaded_never_returns :
    ¬ ∃ n w', emit rootAttached n overloaded () 8 = some w' ∧ Disposed overloaded () 8 w' := by
  have hmust : (overloaded.handler ()).MustReport :=
    ⟨⟨rfl, rfl, rfl, rfl⟩, .inr ⟨_, rfl, by decide⟩⟩
  have hfall : (overloaded.handler ()).FallsBack := by
    rw [EmitterState.FallsBack]
    decide
  have hstuck : rootAttached.Stuck (overloaded, (), 8) := by
    refine ⟨hmust, hfall, fun hlog => ?_⟩
    exact hmust.not_canTake (hlog () (by decide) hmust.1 hfall)
  rintro ⟨n, w', he, -⟩
  rw [emit, hstuck.none n] at he
  exact absurd he (by simp)

end ScietexLogging
