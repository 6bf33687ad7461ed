import Mathlib.Algebra.Order.BigOperators.Group.Finset
import ScietexLogging.Handler.EmitReturns

/-!
# Handler — one pass of the bridge

The inner loop of `_bridge_loop` takes records out of the ingress until it is
empty, offering each to every backend queue and reporting every full one. It
contains no `await`, so it returns control to the event loop only through
`queue.Empty`; and the records it looks at may be its own error records, when
the module logger hands them back to this handler.

`arrivals` is what other threads' `emit` calls put into the ingress before each
`get_nowait`; it is a finite list, as the application emits finitely many
records.

Main result: `bridgePass_returns_iff`. Let `P` be the number of puts into full
backend queues the pass would make if nothing came back to it. The pass returns
exactly when its reports stay with the `error_handler`, or `P = 0`, or the
module logger does not hand records back to this accepting handler and has room
for `P` calls with everyone else.
-/

namespace ScietexLogging

open Asyncio

variable {ι R : Type} {k : Nat}

-- ---------------------------------------------------------------------------
-- The pass
-- ---------------------------------------------------------------------------

/-- Puts by other threads; one that finds the queue full leaves it as it is. -/
def arrive (q : BoundedQueue R) (rs : List R) : BoundedQueue R :=
  rs.foldl (fun q r => (q.putNowait r).getD q) q

section Definitions

variable [DecidableEq ι] (L : ErrorLogger ι R)
  (emit : World ι R × ι × R → Option (World ι R)) (h : ι)

/-- `for backend_queue in self.log_queues.values()`, one turn. -/
def offerTo (r : R) (x : World ι R × (Fin k → AsyncQueue R)) (i : Fin k) :
    Option (World ι R × (Fin k → AsyncQueue R)) :=
  match (x.2 i).putNowait r with
  | some q => some (x.1, Function.update x.2 i q)
  | none => (reportError L emit x.1 h r .queueFull).map fun w => (w, x.2)

def fanOut (r : R) (x : World ι R × (Fin k → AsyncQueue R)) :
    Option (World ι R × (Fin k → AsyncQueue R)) :=
  (List.finRange k).foldlM (offerTo L emit h r) x

def World.arrive (w : World ι R) (rs : List R) : World ι R :=
  w.modify h fun s => { s with ingress := s.ingress.map (ScietexLogging.arrive · rs) }

/-- One iteration of the inner loop of `_bridge_loop`. -/
def passBody (self : World ι R × (Fin k → AsyncQueue R) × List (List R) →
      Option (World ι R × (Fin k → AsyncQueue R))) :
    World ι R × (Fin k → AsyncQueue R) × List (List R) →
      Option (World ι R × (Fin k → AsyncQueue R))
  | (w, backends, arrivals) =>
    let w := w.arrive h (arrivals.headD [])
    match (w.handler h).ingress.bind (·.getNowait) with
    | none => some (w, backends)
    | some (r, ingress) =>
      (fanOut L emit h r (w.setIngress h ingress, backends)).bind fun x =>
        self (x.1, x.2, arrivals.tail)

/-- The inner loop of handler `h`'s bridge, cut off at `n` iterations and `n`
nested calls of `emit`. -/
def bridgePass (n : Nat) (w : World ι R) (backends : Fin k → AsyncQueue R)
    (arrivals : List (List R)) : Option (World ι R × (Fin k → AsyncQueue R)) :=
  approx (passBody L (approx (emitBody L) n) h) n (w, backends, arrivals)

end Definitions

-- ---------------------------------------------------------------------------
-- How much a pass overflows
-- ---------------------------------------------------------------------------

theorem arrive_length_le (q : BoundedQueue R) (rs : List R) :
    (arrive q rs).items.length ≤ q.items.length + rs.length := by
  induction rs generalizing q with
  | nil => simp [arrive]
  | cons r rs ih =>
    have hstep : ((q.putNowait r).getD q).items.length ≤ q.items.length + 1 := by
      cases hp : q.putNowait r with
      | none => simp
      | some q' =>
        obtain ⟨-, -, hi⟩ := BoundedQueue.putNowait_eq_some.mp hp
        simp [hi]
    have := ih ((q.putNowait r).getD q)
    rw [arrive, List.foldl_cons]
    rw [arrive] at this
    rw [List.length_cons]
    omega

/-- The number of records a pass takes out of the ingress when nothing but the
arrivals comes in. -/
def takes (ingress : BoundedQueue R) (arrivals : List (List R)) : Nat :=
  match _h : (arrive ingress (arrivals.headD [])).getNowait with
  | none => 0
  | some (_, q) => takes q arrivals.tail + 1
termination_by ingress.items.length + arrivals.flatten.length
decreasing_by
  obtain ⟨-, hi⟩ := BoundedQueue.getNowait_eq_some.mp _h
  have hle := arrive_length_le ingress (arrivals.headD [])
  rw [hi, List.length_cons] at hle
  cases arrivals with
  | nil =>
    simp only [List.headD_nil, List.tail_nil, List.flatten_nil, List.length_nil] at *
    omega
  | cons rs arrivals =>
    simp only [List.headD_cons, List.tail_cons, List.flatten_cons, List.length_append] at *
    omega

theorem takes_none {q : BoundedQueue R} {arrivals : List (List R)}
    (h : (arrive q (arrivals.headD [])).getNowait = none) : takes q arrivals = 0 := by
  rw [takes]
  split
  · rfl
  · rename_i hg
    rw [h] at hg
    exact absurd hg (by simp)

theorem takes_some {q q' : BoundedQueue R} {r : R} {arrivals : List (List R)}
    (h : (arrive q (arrivals.headD [])).getNowait = some (r, q')) :
    takes q arrivals = takes q' arrivals.tail + 1 := by
  rw [takes]
  split
  · rename_i hg
    rw [h] at hg
    exact absurd hg (by simp)
  · rename_i hg
    rw [h, Option.some.injEq, Prod.mk.injEq] at hg
    rw [hg.2]

theorem takes_pos {q : BoundedQueue R} {arrivals : List (List R)} (h : q.items ≠ []) :
    0 < takes q arrivals := by
  have hne : ∀ rs : List R, ∀ p : BoundedQueue R, p.items ≠ [] → (arrive p rs).items ≠ [] := by
    intro rs
    induction rs with
    | nil => exact fun p hp => hp
    | cons r rs ih =>
      intro p hp
      rw [arrive, List.foldl_cons]
      refine ih _ ?_
      cases hput : p.putNowait r with
      | none => exact hp
      | some p' =>
        obtain ⟨-, -, hi⟩ := BoundedQueue.putNowait_eq_some.mp hput
        simp [hi]
  cases hg : (arrive q (arrivals.headD [])).getNowait with
  | none => exact absurd (BoundedQueue.getNowait_eq_none.mp hg) (hne _ q h)
  | some p =>
    rw [takes_some hg]
    omega

/-- How many of `n` puts a queue refuses when nothing is taken out. -/
def overflow (q : BoundedQueue R) (n : Nat) : Nat :=
  if q.maxsize = 0 then 0 else q.items.length + n - q.maxsize

theorem overflow_zero (q : BoundedQueue R) : overflow q 0 = 0 := by
  have := q.bounded
  unfold overflow
  split <;> omega

theorem overflow_succ (q : AsyncQueue R) (r : R) (n : Nat) :
    overflow q.toBoundedQueue (n + 1) =
      overflow ((q.putNowait r).getD q).toBoundedQueue n + if q.full then 1 else 0 := by
  have hb := q.bounded
  cases hp : q.putNowait r with
  | none =>
    have hf := AsyncQueue.putNowait_eq_none.mp hp
    obtain ⟨h₁, h₂⟩ := BoundedQueue.full_iff.mp hf
    simp only [Option.getD_none, hf, if_true, overflow]
    split <;> omega
  | some q' =>
    obtain ⟨hf, hm, hi, -⟩ := AsyncQueue.putNowait_eq_some.mp hp
    have hr := BoundedQueue.full_eq_false_iff.mp hf
    have hlen : q'.items.length = q.items.length + 1 := by rw [hi]; simp
    simp only [Option.getD_some, hf, Bool.false_eq_true, if_false, overflow, hm, hlen]
    split <;> omega

theorem le_overflow_of_full {q : BoundedQueue R} (hf : q.full = true) (n : Nat) :
    n ≤ overflow q n := by
  obtain ⟨h₁, h₂⟩ := BoundedQueue.full_iff.mp hf
  unfold overflow
  split <;> omega

/-- The puts into full backend queues a pass makes when nothing comes back. -/
def passOverflow (s : EmitterState R) (backends : Fin k → AsyncQueue R)
    (arrivals : List (List R)) : Nat :=
  match s.ingress with
  | none => 0
  | some q => ∑ i, overflow (backends i).toBoundedQueue (takes q arrivals)

/-- The full backend queues. -/
def fullCount (backends : Fin k → AsyncQueue R) : Nat :=
  ∑ i, if (backends i).full then 1 else 0

/-- Every backend queue after a record was offered to it. -/
def offered (backends : Fin k → AsyncQueue R) (r : R) : Fin k → AsyncQueue R :=
  fun i => ((backends i).putNowait r).getD (backends i)

theorem sum_overflow_succ (backends : Fin k → AsyncQueue R) (r : R) (n : Nat) :
    ∑ i, overflow (backends i).toBoundedQueue (n + 1) =
      ∑ i, overflow (offered backends r i).toBoundedQueue n + fullCount backends := by
  rw [fullCount, ← Finset.sum_add_distrib]
  exact Finset.sum_congr rfl fun i _ => overflow_succ (backends i) r n

-- ---------------------------------------------------------------------------
-- The fan-out of one record
-- ---------------------------------------------------------------------------

/-- `p` reports of this handler in a row. -/
def reports (L : ErrorLogger ι R) (emit : World ι R × ι × R → Option (World ι R)) (h : ι) (r : R) :
    Nat → World ι R → Option (World ι R)
  | 0, w => some w
  | p + 1, w => (reportError L emit w h r .queueFull).bind (reports L emit h r p)

variable {L : ErrorLogger ι R} {f : World ι R × ι × R → Option (World ι R)} {h : ι}

private theorem foldlM_offerTo {r : R} {l : List (Fin k)} (hl : l.Nodup) {w : World ι R}
    {b : Fin k → AsyncQueue R} :
    l.foldlM (offerTo L f h r) (w, b) =
      (reports L f h r (l.map fun i => if (b i).full then 1 else 0).sum w).map fun w' =>
        (w', fun i => if i ∈ l then offered b r i else b i) := by
  induction l generalizing w b with
  | nil => simp [reports]
  | cons a l ih =>
    obtain ⟨ha, hl⟩ := List.nodup_cons.mp hl
    rw [List.foldlM_cons, List.map_cons, List.sum_cons]
    cases hp : (b a).putNowait r with
    | none =>
      have hf := AsyncQueue.putNowait_eq_none.mp hp
      have hsame : (fun i => if i ∈ a :: l then offered b r i else b i) =
          fun i => if i ∈ l then offered b r i else b i := by
        funext i
        by_cases hia : i = a
        · subst hia
          simp [ha, offered, hp]
        · simp [hia]
      rw [hf, if_pos rfl, hsame, Nat.add_comm, reports, offerTo]
      simp only [hp]
      cases reportError L f w h r .queueFull with
      | none => rfl
      | some v => exact ih hl
    | some q =>
      obtain ⟨hf, -⟩ := AsyncQueue.putNowait_eq_some.mp hp
      have hother : ∀ i ∈ l, Function.update b a q i = b i := by
        intro i hi
        rw [Function.update_of_ne]
        rintro rfl
        exact ha hi
      have hcount : (l.map fun i => if (Function.update b a q i).full then 1 else 0) =
          l.map fun i => if (b i).full then 1 else 0 :=
        List.map_congr_left fun i hi => by rw [hother i hi]
      have hsame : (fun i => if i ∈ l then offered (Function.update b a q) r i
            else Function.update b a q i) = fun i => if i ∈ a :: l then offered b r i else b i := by
        funext i
        by_cases hia : i = a
        · subst hia
          simp [ha, offered, hp]
        · by_cases hi : i ∈ l
          · simp [hi, offered, hia]
          · simp [hi, hia]
      rw [hf, if_neg (by simp), Nat.zero_add, offerTo]
      simp only [hp]
      show l.foldlM (offerTo L f h r) (w, Function.update b a q) = _
      rw [ih hl, hcount, hsame]

/-- Offering one record: every backend queue gets it or is reported full. -/
theorem fanOut_eq (r : R) (w : World ι R) (b : Fin k → AsyncQueue R) :
    fanOut L f h r (w, b) =
      (reports L f h r (fullCount b) w).map fun w' => (w', offered b r) := by
  rw [fanOut, foldlM_offerTo (List.nodup_finRange k), fullCount, Fin.sum_univ_def]
  simp

-- ---------------------------------------------------------------------------
-- Reports in a row
-- ---------------------------------------------------------------------------

variable [DecidableEq ι]

/-- The module logger does not hand this handler's own records back to it. -/
def ErrorLogger.Apart (L : ErrorLogger ι R) (w : World ι R) (h : ι) : Prop :=
  ∀ g ∈ L.handed, (w.handler g).Accepting → g ≠ h

/-- What `m` reports need in order to return. -/
def CanReport (L : ErrorLogger ι R) (w : World ι R) (h : ι) (m : Nat) : Prop :=
  (w.handler h).FallsBack → m = 0 ∨ (L.Apart w h ∧ L.CanLog w m)

omit [DecidableEq ι] in
theorem ErrorLogger.Apart.congr {w w' : World ι R}
    (hacc : ∀ g, (w'.handler g).Accepting ↔ (w.handler g).Accepting) :
    L.Apart w' h ↔ L.Apart w h :=
  ⟨fun ha g hg hg' => ha g hg ((hacc g).mpr hg'), fun ha g hg hg' => ha g hg ((hacc g).mp hg')⟩

omit [DecidableEq ι] in
/-- A fold over handlers the logger reaches leaves `h` alone, if each call does. -/
private theorem foldlM_apart (hext : ∀ x w', f x = some w' → x.1.Extends w')
    (hf : ∀ x w', L.Apart x.1 h → ((x.1.handler x.2.1).Accepting → x.2.1 ≠ h) → f x = some w' →
      w'.handler h = x.1.handler h)
    {mk : R} {l : List ι} (hl : ∀ g ∈ l, g ∈ L.handed) {v v' : World ι R} (hv : L.Apart v h)
    (hfold : l.foldlM (fun w g => f (w, g, mk)) v = some v') : v'.handler h = v.handler h := by
  induction l generalizing v with
  | nil =>
    rw [List.foldlM_nil, Option.pure_def, Option.some.injEq] at hfold
    rw [hfold]
  | cons a l ih =>
    rw [List.foldlM_cons] at hfold
    obtain ⟨u, hu, hrest⟩ := Option.bind_eq_some_iff.mp hfold
    have hsame : u.handler h = v.handler h := hf (v, a, mk) u hv (hv a (hl a (by simp))) hu
    have hau : L.Apart u h :=
      (ErrorLogger.Apart.congr fun g => ((hext _ _ hu).handler g).accepting).mpr hv
    exact (ih (fun g hg => hl g (by simp [hg])) hau hrest).trans hsame

/-- A handler the logger stays apart from is left alone by nested calls. -/
theorem emit_apart {n : Nat} {x : World ι R × ι × R} {w' : World ι R} (hapart : L.Apart x.1 h)
    (hx : (x.1.handler x.2.1).Accepting → x.2.1 ≠ h)
    (he : approx (emitBody L) n x = some w') : w'.handler h = x.1.handler h := by
  refine approx_induct (F := emitBody L) (P := fun f =>
    (∀ x w', f x = some w' → x.1.Extends w') ∧ ∀ x w', L.Apart x.1 h →
      ((x.1.handler x.2.1).Accepting → x.2.1 ≠ h) → f x = some w' →
        w'.handler h = x.1.handler h) ?_ ?_ n |>.2 x w' hapart hx he
  · exact ⟨fun _ _ hn => absurd hn (by simp), fun _ _ _ _ hn => absurd hn (by simp)⟩
  · rintro f ⟨hext, hf⟩
    refine ⟨fun x w' hw' => emit_extends_body hext hw', ?_⟩
    rintro ⟨w, g, r⟩ w' ha hg hw'
    by_cases hacc : (w.handler g).Accepting
    · have hne := hg hacc
      rcases hacc.mustReport_or with hm | hc
      · obtain ⟨w₁, exc, heq, hext₁, hsame, -, -⟩ :=
          emitBody_mustReport (L := L) (f := f) (r := r) hm
        rw [heq] at hw'
        have ha₁ : L.Apart w₁ h :=
          (ErrorLogger.Apart.congr fun g => (hext₁.handler g).accepting).mpr ha
        by_cases hfall : (w₁.handler g).FallsBack
        · rw [reportError_fallsBack hfall] at hw'
          have hsame' : w'.handler h = (w₁.report g r exc).handler h :=
            foldlM_apart hext hf (fun _ hx => hx) ha₁ hw'
          rw [hsame', World.report_handler]
          exact hsame h (Ne.symm hne)
        · rw [reportError_returns hfall, Option.some.injEq] at hw'
          rw [← hw', World.report_handler]
          exact hsame h (Ne.symm hne)
      · obtain ⟨q, q', hq, hput, heq⟩ := emitBody_taken (L := L) (f := f) (r := r) hacc hc
        rw [heq, Option.some.injEq] at hw'
        rw [← hw', World.scheduleSet, World.modify_handler_ne _ _ (Ne.symm hne), World.setIngress,
          World.modify_handler_ne _ _ (Ne.symm hne)]
    · rw [emitBody_ignored hacc, Option.some.injEq] at hw'
      rw [hw']

theorem error_apart {n : Nat} {w w' : World ι R} {name : String} {exc : DeliveryError}
    (ha : L.Apart w h) (he : L.error (approx (emitBody L) n) w name exc = some w') :
    w'.handler h = w.handler h :=
  foldlM_apart (fun x _ => emit_extends n x) (fun _ _ => emit_apart) (fun _ hx => hx) ha he

/-- A logger call that returned, and left room for `m` more, had room for one
more before. -/
theorem error_canLog_back {n m : Nat} {w w' : World ι R} {name : String} {exc : DeliveryError}
    (he : L.error (approx (emitBody L) n) w name exc = some w') (hm : m = 0 ∨ L.CanLog w' m) :
    L.CanLog w (m + 1) := by
  intro g hg hacc hfall
  have hext := (error_extends he).handler g
  obtain ⟨hlive, hlen⟩ := error_took he hg hacc hfall
  obtain ⟨q, hq⟩ := Option.isSome_iff_exists.mp hacc.2.1
  obtain ⟨q', hq', hmax, -⟩ := hext.some q hq
  have hroom : q'.HasRoom (m * L.handed.count g) := by
    rcases hm with rfl | hlog
    · have hb := q'.bounded
      unfold BoundedQueue.HasRoom
      omega
    · obtain ⟨-, p, hp, hr⟩ := hlog g hg (hext.accepting.mpr hacc) (hext.fallsBack.mpr hfall)
      rw [hq', Option.some.injEq] at hp
      rw [hp]
      exact hr
  refine ⟨hlive, q, hq, ?_⟩
  have h₁ := hlen q q' hq hq'
  rw [Nat.succ_mul]
  unfold BoundedQueue.HasRoom at *
  omega

/-- Reports a handler can make return, and leave it able to make the rest. -/
theorem reports_some {n p m : Nat} {r : R} {w : World ι R} (hc : CanReport L w h (p + m)) :
    ∃ w', reports L (approx (emitBody L) (n + 1)) h r p w = some w' ∧
      w'.handler h = w.handler h ∧ CanReport L w' h m := by
  induction p generalizing w with
  | zero => exact ⟨w, rfl, rfl, by simpa using hc⟩
  | succ p ih =>
    by_cases hfall : (w.handler h).FallsBack
    · rcases hc hfall with h0 | ⟨ha, hlog⟩
      · omega
      · rw [Nat.add_right_comm] at hlog
        have herr : ∃ v, L.error (approx (emitBody L) (n + 1)) (w.report h r .queueFull)
            (w.handler h).name .queueFull = some v := by
          refine error_iff_canLog.mpr fun g hg hacc hfb => (hlog g hg hacc hfb).mono ?_
          exact Nat.mul_le_mul_right _ (by omega)
        obtain ⟨v, hv⟩ := herr
        have hsame : v.handler h = w.handler h := error_apart (w := w.report h r .queueFull) ha hv
        have hext := error_extends hv
        have hrest : CanReport L v h (p + m) := fun _ =>
          .inr ⟨(ErrorLogger.Apart.congr fun g => (hext.handler g).accepting).mpr ha,
            error_canLog (w := w.report h r .queueFull) hlog hv⟩
        obtain ⟨w', hw', hh, hm⟩ := ih hrest
        refine ⟨w', ?_, hh.trans hsame, hm⟩
        rw [reports, reportError_fallsBack hfall, hv]
        exact hw'
    · obtain ⟨w', hw', hh, hm⟩ := ih (w := w.report h r .queueFull) (fun hf => absurd hf hfall)
      refine ⟨w', ?_, hh, hm⟩
      rw [reports, reportError_returns hfall]
      exact hw'

omit [DecidableEq ι] in
private theorem reports_succ {p : Nat} {r : R} {w w' : World ι R}
    (hfall : (w.handler h).FallsBack) (hr : reports L f h r (p + 1) w = some w') :
    ∃ v, L.error f (w.report h r .queueFull) (w.handler h).name .queueFull = some v ∧
      reports L f h r p v = some w' := by
  rw [reports, reportError_fallsBack hfall] at hr
  exact Option.bind_eq_some_iff.mp hr

theorem reports_extends {n p : Nat} {r : R} {w w' : World ι R}
    (hr : reports L (approx (emitBody L) n) h r p w = some w') : w.Extends w' := by
  induction p generalizing w with
  | zero =>
    rw [reports, Option.some.injEq] at hr
    exact hr ▸ .refl w
  | succ p ih =>
    rw [reports] at hr
    obtain ⟨v, hv, hrest⟩ := Option.bind_eq_some_iff.mp hr
    exact ((w.extends_report h r .queueFull).trans
      (reportError_extends (emit_extends (L := L) n) hv)).trans (ih hrest)

/-- Reports that returned had room, for as many more as there is room after. -/
theorem reports_took {n p m : Nat} {r : R} {w w' : World ι R} (ha : L.Apart w h)
    (hfall : (w.handler h).FallsBack) (hr : reports L (approx (emitBody L) n) h r p w = some w')
    (hm : m = 0 ∨ L.CanLog w' m) :
    w'.handler h = w.handler h ∧ (p + m = 0 ∨ L.CanLog w (p + m)) := by
  induction p generalizing w with
  | zero =>
    rw [reports, Option.some.injEq] at hr
    subst hr
    refine ⟨rfl, ?_⟩
    rw [Nat.zero_add]
    exact hm
  | succ p ih =>
    obtain ⟨v, hv, hrest⟩ := reports_succ hfall hr
    have hext := error_extends hv
    have hsame : v.handler h = w.handler h := error_apart (w := w.report h r .queueFull) ha hv
    obtain ⟨hh, hlog⟩ := ih ((ErrorLogger.Apart.congr fun g => (hext.handler g).accepting).mpr ha)
      (by rw [hsame]; exact hfall) hrest
    refine ⟨hh.trans hsame, .inr ?_⟩
    rw [Nat.add_right_comm]
    exact error_canLog_back (w := w.report h r .queueFull) hv hlog

/-- A handler that gets its own error records back has one in its ingress after
a report. -/
theorem reports_come_back {n p : Nat} {r : R} {w w' : World ι R} (hg : h ∈ L.handed)
    (hacc : (w.handler h).Accepting) (hfall : (w.handler h).FallsBack)
    (hr : reports L (approx (emitBody L) n) h r (p + 1) w = some w') :
    ∃ q, (w'.handler h).ingress = some q ∧ q.items ≠ [] := by
  obtain ⟨v, hv, hrest⟩ := reports_succ hfall hr
  obtain ⟨-, hlen⟩ := error_took hv hg hacc hfall
  obtain ⟨q, hq⟩ := Option.isSome_iff_exists.mp hacc.2.1
  obtain ⟨q₁, hq₁, -⟩ := ((error_extends hv).handler h).some q hq
  obtain ⟨q₂, hq₂, -, hp⟩ := ((reports_extends hrest).handler h).some q₁ hq₁
  refine ⟨q₂, hq₂, ?_⟩
  have h₁ := hlen q q₁ hq hq₁
  have h₂ := List.count_pos_iff.mpr hg
  have h₃ := hp.length_le
  rw [← List.length_pos_iff]
  omega

-- ---------------------------------------------------------------------------
-- The pass
-- ---------------------------------------------------------------------------

/-- `h`'s ingress is what the step before the fan-out has made of it; everything
else is as it was. -/
private theorem arrive_setIngress {w : World ι R} (rs : List R) (q' : BoundedQueue R)
    (hs : (w.handler h).ingress.isSome = true) :
    (∀ g, g ≠ h → ((w.arrive h rs).setIngress h q').handler g = w.handler g) ∧
      (((w.arrive h rs).setIngress h q').handler h).ingress = some q' ∧
      (∀ g, (((w.arrive h rs).setIngress h q').handler g).Accepting ↔ (w.handler g).Accepting) ∧
      ((((w.arrive h rs).setIngress h q').handler h).FallsBack ↔ (w.handler h).FallsBack) := by
  have hne : ∀ g, g ≠ h → ((w.arrive h rs).setIngress h q').handler g = w.handler g := by
    intro g hg
    rw [World.setIngress, World.modify_handler_ne _ _ hg, World.arrive,
      World.modify_handler_ne _ _ hg]
  refine ⟨hne, by simp [World.setIngress], fun g => ?_, ?_⟩
  · by_cases hg : g = h
    · subst hg
      simp [EmitterState.Accepting, World.setIngress, World.arrive, hs]
    · rw [hne g hg]
  · simp [EmitterState.FallsBack, World.setIngress, World.arrive]

/-- What a handler can report does not depend on its ingress. -/
private theorem canReport_congr {w v : World ι R} {m : Nat}
    (hne : ∀ g, g ≠ h → v.handler g = w.handler g)
    (hacc : ∀ g, (v.handler g).Accepting ↔ (w.handler g).Accepting)
    (hfall : (v.handler h).FallsBack ↔ (w.handler h).FallsBack) :
    CanReport L v h m ↔ CanReport L w h m := by
  -- handlers the logger reaches are not `h`, and the others are unchanged
  have hlog : L.Apart w h → (L.CanLog v m ↔ L.CanLog w m) := by
    intro ha
    constructor
    · intro hv g hg hg' hf
      have hgh : g ≠ h := ha g hg hg'
      have hc := hv g hg ((hacc g).mpr hg')
      rw [hne g hgh] at hc
      exact hc hf
    · intro hw g hg hg' hf
      have hgh : g ≠ h := ha g hg ((hacc g).mp hg')
      rw [hne g hgh] at hg' hf ⊢
      exact hw g hg hg' hf
  unfold CanReport
  rw [hfall, ErrorLogger.Apart.congr hacc]
  exact imp_congr_right fun _ => or_congr_right (and_congr_right hlog)

@[simp] private theorem arrive_ingress (w : World ι R) (rs : List R) :
    ((w.arrive h rs).handler h).ingress =
      (w.handler h).ingress.map (ScietexLogging.arrive · rs) := by
  simp [World.arrive]

/-- One iteration: nothing to take, or a record that is offered to every
backend, with the full ones reported. -/
private theorem passBody_cases (self : World ι R × (Fin k → AsyncQueue R) × List (List R) →
      Option (World ι R × (Fin k → AsyncQueue R))) (w : World ι R)
    (b : Fin k → AsyncQueue R) (arrivals : List (List R)) :
    (passOverflow (w.handler h) b arrivals = 0 ∧
      passBody L f h self (w, b, arrivals) = some (w.arrive h (arrivals.headD []), b)) ∨
    (∃ v r q p, (∀ g, g ≠ h → v.handler g = w.handler g) ∧
      (∀ g, (v.handler g).Accepting ↔ (w.handler g).Accepting) ∧
      ((v.handler h).FallsBack ↔ (w.handler h).FallsBack) ∧
      (w.handler h).ingress = some p ∧ (v.handler h).ingress = some q ∧
      takes p arrivals = takes q arrivals.tail + 1 ∧
      passBody L f h self (w, b, arrivals) =
        (reports L f h r (fullCount b) v).bind fun u => self (u, offered b r, arrivals.tail)) := by
  cases hq : (w.handler h).ingress with
  | none =>
    refine .inl ⟨by simp [passOverflow, hq], ?_⟩
    simp only [passBody, arrive_ingress, hq, Option.map_none, Option.bind_none]
  | some q =>
    cases hg : (ScietexLogging.arrive q (arrivals.headD [])).getNowait with
    | none =>
      refine .inl ⟨?_, ?_⟩
      · simp only [passOverflow, hq, takes_none hg, overflow_zero, Finset.sum_const_zero]
      · simp only [passBody, arrive_ingress, hq, Option.map_some, Option.bind_some, hg]
    | some p =>
      obtain ⟨r, q'⟩ := p
      obtain ⟨hne, hi, hacc, hfall⟩ :=
        arrive_setIngress (h := h) (w := w) (arrivals.headD []) q' (by simp [hq])
      refine .inr ⟨_, r, q', q, hne, hacc, hfall, rfl, hi, takes_some hg, ?_⟩
      simp only [passBody, arrive_ingress, hq, Option.map_some, Option.bind_some, hg, fanOut_eq,
        Option.bind_map]
      rfl

omit [DecidableEq ι] in
private theorem passOverflow_some {s : EmitterState R} {b : Fin k → AsyncQueue R}
    {q : BoundedQueue R} {arrivals : List (List R)} (hq : s.ingress = some q) :
    passOverflow s b arrivals = ∑ i, overflow (b i).toBoundedQueue (takes q arrivals) := by
  simp only [passOverflow, hq]

/-- The puts that fail, counted from the second record on. -/
private theorem passOverflow_step {s s' : EmitterState R} {b : Fin k → AsyncQueue R} (r : R)
    {p q : BoundedQueue R} {arrivals : List (List R)} (hp : s.ingress = some p)
    (hq : s'.ingress = some q) (ht : takes p arrivals = takes q arrivals.tail + 1) :
    passOverflow s b arrivals = fullCount b + passOverflow s' (offered b r) arrivals.tail := by
  rw [passOverflow_some hp, passOverflow_some hq, ht, sum_overflow_succ b r, Nat.add_comm]

/-- A pass that finds a full backend queue and a record to take overflows. -/
private theorem passOverflow_pos {s : EmitterState R} {b : Fin k → AsyncQueue R} (r : R)
    {q : BoundedQueue R} {arrivals : List (List R)} (hb : fullCount b ≠ 0)
    (hq : s.ingress = some q) (hne : q.items ≠ []) :
    0 < passOverflow s (offered b r) arrivals := by
  obtain ⟨i, hi⟩ : ∃ i, (b i).full = true := by
    by_contra hno
    refine hb (Finset.sum_eq_zero fun i _ => ?_)
    rw [if_neg fun hf => hno ⟨i, hf⟩]
  have hsame : offered b r i = b i := by
    rw [offered, AsyncQueue.putNowait_eq_none.mpr hi, Option.getD_none]
  have hle : takes q arrivals ≤ overflow (offered b r i).toBoundedQueue (takes q arrivals) := by
    rw [hsame]
    exact le_overflow_of_full hi _
  have hpos : 0 < takes q arrivals := takes_pos hne
  rw [passOverflow_some hq]
  calc 0 < overflow (offered b r i).toBoundedQueue (takes q arrivals) := by omega
    _ ≤ _ := Finset.single_le_sum (f := fun i => overflow (offered b r i).toBoundedQueue _)
        (fun _ _ => Nat.zero_le _) (Finset.mem_univ i)

/-- A pass whose reports all return reaches `queue.Empty`. -/
theorem bridgePass_some (n : Nat) {N : Nat} {w : World ι R} {b : Fin k → AsyncQueue R}
    {arrivals : List (List R)}
    (hN : ∀ q, (w.handler h).ingress = some q → takes q arrivals ≤ N)
    (hc : CanReport L w h (passOverflow (w.handler h) b arrivals)) :
    ∃ y, approx (passBody L (approx (emitBody L) (n + 1)) h) (N + 1) (w, b, arrivals) = some y := by
  induction N generalizing w b arrivals with
  | zero =>
    rw [approx]
    rcases passBody_cases (approx (passBody L (approx (emitBody L) (n + 1)) h) 0) w b arrivals
      with ⟨-, heq⟩ | ⟨v, r, q, p, -, -, -, hp, -, ht, -⟩
    · exact ⟨_, heq⟩
    · have := hN p hp
      omega
  | succ N ih =>
    rw [approx]
    rcases passBody_cases (approx (passBody L (approx (emitBody L) (n + 1)) h) (N + 1)) w b arrivals
      with ⟨-, heq⟩ | ⟨v, r, q, p, hne, hacc, hfb, hp, hq, ht, heq⟩
    · exact ⟨_, heq⟩
    · rw [passOverflow_step r hp hq ht, ← canReport_congr hne hacc hfb] at hc
      obtain ⟨u, hu, hsame, hcu⟩ := reports_some (n := n) (r := r) hc
      rw [← hsame] at hcu
      obtain ⟨y, hy⟩ := @ih u (offered b r) arrivals.tail (by
        intro q' hq'
        rw [hsame, hq, Option.some.injEq] at hq'
        have := hN p hp
        rw [← hq']
        omega) hcu
      exact ⟨y, by rw [heq, hu]; exact hy⟩

/-- A pass that returned could make all its reports. -/
theorem canReport_of_bridgePass {n N : Nat} {w : World ι R} {b : Fin k → AsyncQueue R}
    {arrivals : List (List R)} {y : World ι R × (Fin k → AsyncQueue R)}
    (hy : approx (passBody L (approx (emitBody L) n) h) N (w, b, arrivals) = some y) :
    CanReport L w h (passOverflow (w.handler h) b arrivals) := by
  induction N generalizing w b arrivals with
  | zero => exact absurd hy (by simp [approx])
  | succ N ih =>
    rw [approx] at hy
    rcases passBody_cases (approx (passBody L (approx (emitBody L) n) h) N) w b arrivals
      with ⟨h0, -⟩ | ⟨v, r, q, p, hne, hacc, hfb, hp, hq, ht, heq⟩
    · exact fun _ => .inl h0
    · rw [heq] at hy
      obtain ⟨u, hu, hrest⟩ := Option.bind_eq_some_iff.mp hy
      have hext := (reports_extends hu).handler
      rw [passOverflow_step r hp hq ht, ← canReport_congr hne hacc hfb]
      intro hfall
      have hcu := ih hrest ((hext h).fallsBack.mpr hfall)
      by_cases ha : L.Apart v h
      · obtain ⟨hsame, hlog⟩ := reports_took ha hfall hu (hcu.imp_right And.right)
        rw [hsame] at hlog
        exact hlog.imp_right fun hl => ⟨ha, hl⟩
      -- not apart: had this record overflowed, its report would be in the
      -- ingress by now, and would overflow the same queue
      · have hau : ¬ L.Apart u h := by
          rw [ErrorLogger.Apart.congr fun g => (hext g).accepting]
          exact ha
        have hu0 : passOverflow (u.handler h) (offered b r) arrivals.tail = 0 :=
          hcu.resolve_right fun hc => hau hc.1
        have hfull : fullCount b = 0 := by
          by_contra hne0
          obtain ⟨c, hc⟩ := Nat.exists_eq_succ_of_ne_zero hne0
          rw [hc] at hu
          obtain ⟨g, hg, hgacc, rfl⟩ : ∃ g ∈ L.handed, (v.handler g).Accepting ∧ g = h := by
            simpa [ErrorLogger.Apart] using ha
          obtain ⟨q', hq', hne'⟩ := reports_come_back hg hgacc hfall hu
          exact absurd hu0 (passOverflow_pos r hne0 hq' hne').ne'
        rw [hfull, reports, Option.some.injEq] at hu
        subst hu
        exact .inl (by rw [hfull, hu0])

/-- **When a pass ends.** The inner loop of the bridge reaches `queue.Empty`
exactly when the reports of the puts that overflow all return and do not come
back. -/
theorem bridgePass_returns_iff (L : ErrorLogger ι R) (h : ι) (w : World ι R)
    (backends : Fin k → AsyncQueue R) (arrivals : List (List R)) :
    (∃ n y, bridgePass L h n w backends arrivals = some y) ↔
      CanReport L w h (passOverflow (w.handler h) backends arrivals) := by
  constructor
  · rintro ⟨n, y, hy⟩
    exact canReport_of_bridgePass hy
  · intro hc
    cases hq : (w.handler h).ingress with
    | none =>
      obtain ⟨y, hy⟩ := bridgePass_some (N := 0) 0 (fun q hq' => by
        rw [hq] at hq'
        exact absurd hq' (by simp)) hc
      exact ⟨1, y, hy⟩
    | some q =>
      obtain ⟨y, hy⟩ := bridgePass_some (N := takes q arrivals) (takes q arrivals) (fun q' hq' => by
        rw [hq, Option.some.injEq] at hq'
        rw [hq']) hc
      exact ⟨takes q arrivals + 1, y, hy⟩

private theorem one_waiting : 0 < 10 → [7].length ≤ 10 := by simp

private theorem one_queued : 0 < 1 → [6].length ≤ 1 := by simp

/-- The handler attached to the root logger, one record in its ingress and its
one backend queue full. -/
def backlogged : World Unit Nat where
  handler := fun _ =>
    ⟨"ConsoleHandler", .unset, true, some .live, some ⟨10, [7], one_waiting⟩, some 0⟩
  reports := []

theorem bridgePass_backlogged_never_returns :
    ¬ ∃ n y, bridgePass rootAttached () n backlogged
      (fun _ : Fin 1 => ⟨⟨1, [6], one_queued⟩, 1⟩) [] = some y := by
  rintro ⟨n, y, hy⟩
  have hfall : (backlogged.handler ()).FallsBack := by
    rw [EmitterState.FallsBack]
    decide
  have hacc : (backlogged.handler ()).Accepting := ⟨rfl, rfl, rfl, rfl⟩
  rcases canReport_of_bridgePass hy hfall with h0 | ⟨ha, -⟩
  · have htakes : takes (⟨10, [7], by simp⟩ : BoundedQueue Nat) [] =
        takes (⟨10, [], by simp⟩ : BoundedQueue Nat) [] + 1 := takes_some rfl
    rw [passOverflow_some rfl, htakes] at h0
    exact absurd h0 (by simp [overflow])
  · exact ha () (by decide) hacc rfl

end ScietexLogging
