import ScietexLogging.Pipeline.Broadcasting
import ScietexLogging.Pipeline.Drain
import ScietexLogging.Pipeline.Restart

/-!
# Pipeline — what became of a record

A call of `emit` returns nothing, and its record may end in many places: not accepted, too
much for the ingress, refused by a backend, thrown away with an ingress, or taken out by a
worker. Once logging is stopped each record is in one of them, for each backend, and the
error channel was told of it exactly where the record was refused.

* `place`    — a record that entered an ingress is still there, or was withheld from a
  backend, or was put into its queue;
* `one_fate` — when logging is stopped, the record of every call that has returned has one
  fate for each backend.
-/

namespace ScietexLogging

open Asyncio Channel

variable {k : Nat}

/-- What became of the record of a call, for one backend. -/
inductive Fate where
  | ignored                  -- logging was stopped, or a reference already released
  | ingressFull
  | refused                  -- by the queue of the backend
  | discarded                -- with what was left in an ingress
  | handled (o : Outcome)
  deriving DecidableEq, Repr

/-- How often the handler reports a record, for one backend. -/
def Fate.reports : Fate → Nat
  | .ingressFull | .refused => 1
  | .ignored | .discarded | .handled _ => 0

/-- A record was withheld: refused, or thrown away. -/
theorem Taken.givenTo_eq_none {i : Fin k} {o : Taken k} :
    o.givenTo i = none ↔ o.refusedBy = none ∨ o.refusal i o.call = true := by
  unfold Taken.givenTo Taken.refusal
  cases o.refusedBy with
  | none => simp
  | some refused => cases hr : refused i <;> simp [hr]

namespace Intake.Accounts

variable {x : Intake k} {born : Nat → Prop}

/-- What is still in an ingress has not been taken out. -/
theorem not_taken (ha : x.Accounts born) {g n : Nat}
    (hn : n ∈ (x.ingress g).items.map Emitted.call) : ∀ o ∈ x.taken, o.call ≠ n := by
  intro o ho heq
  have hin : n ∈ x.entered g := by
    rw [ha.fifo g]
    exact List.mem_append_right _ hn
  have hg : o.ingress = g := ha.apart n _ _ (heq ▸ ha.entered_of_taken ho) hin
  have honce := ha.once g
  rw [ha.fifo g, List.nodup_append] at honce
  refine honce.2.2 n (List.mem_map.mpr ⟨o, List.mem_filter.mpr ⟨ho, ?_⟩, heq⟩) n hn rfl
  rw [hg]
  exact beq_self_eq_true g

end Intake.Accounts

namespace Pipeline

variable {cfg : Config k} {s : Pipeline cfg} {n : Nat} {i : Fin k}

-- ---------------------------------------------------------------------------
-- Where a record is
-- ---------------------------------------------------------------------------

/-- The record of call `n` is in some ingress. -/
def InIngress (s : Pipeline cfg) (n : Nat) : Prop :=
  ∃ g, n ∈ (s.intake.ingress g).items.map Emitted.call

/-- A queue is given a record once. -/
theorem calls_nodup (hs : (pipeline cfg).Reachable Machine.Always s) (i : Fin k) :
    (s.desks i).calls.Nodup := by
  obtain ⟨c, hc, hr⟩ := simulation.abstract hs
  have hsound := Broadcast.sound hc
  rw [← hr.got i]
  exact ((List.sublist_append_left ..).trans (hsound.fifo i)).nodup hsound.once

/-- **A record that entered an ingress** is still in one, or was withheld from the backend, or
was put into its queue. -/
theorem place (hs : (pipeline cfg).Reachable Machine.Always s) (i : Fin k)
    (hn : ∃ g, n ∈ s.intake.entered g) :
    (n ∈ (s.desks i).calls ∧ ¬ s.Withheld i n ∧ ¬ s.InIngress n) ∨
      (n ∉ (s.desks i).calls ∧ s.Withheld i n ∧ ¬ s.InIngress n) ∨
      (n ∉ (s.desks i).calls ∧ ¬ s.Withheld i n ∧ s.InIngress n) := by
  have ha := (accounts hs).intake
  obtain ⟨c, hc, hr⟩ := simulation.abstract hs
  have hplace := Broadcast.one_place hc ((hr.sent n).mpr hn) i
  have hgot : n ∈ (s.desks i).calls ↔ 0 < (c.got i).count n := by
    rw [List.count_pos_iff, hr.got i]
  have hmissed : s.Withheld i n ∨ s.Stranded n ↔ 0 < (c.missed i).count n := by
    rw [List.count_pos_iff, hr.missed i]
  have hpending : n ∈ (s.intake.ingress s.starts).items.map Emitted.call ↔ 0 < c.pending.count n := by
    rw [List.count_pos_iff, hr.pending]
  have hin : s.InIngress n ↔
      s.Stranded n ∨ n ∈ (s.intake.ingress s.starts).items.map Emitted.call := by
    constructor
    · rintro ⟨g, hg⟩
      by_cases hgs : g = s.starts
      · exact .inr (hgs ▸ hg)
      · exact .inl ⟨g, hgs, hg⟩
    · rintro (⟨g, -, hg⟩ | hg)
      · exact ⟨g, hg⟩
      · exact ⟨_, hg⟩
  have happart : s.Withheld i n → ¬ s.InIngress n := by
    rintro ⟨o, ho, heq, -⟩ ⟨g, hg⟩
    exact ha.not_taken hg o ho heq
  by_cases hcalls : n ∈ (s.desks i).calls
  · have := hgot.mp hcalls
    have hnm : ¬ (s.Withheld i n ∨ s.Stranded n) := fun h => by
      have := hmissed.mp h
      omega
    have hnp : ¬ n ∈ (s.intake.ingress s.starts).items.map Emitted.call := fun h => by
      have := hpending.mp h
      omega
    exact .inl ⟨hcalls, fun h => hnm (.inl h), fun h => (hin.mp h).elim (fun h => hnm (.inr h)) hnp⟩
  · by_cases hw : s.Withheld i n
    · exact .inr (.inl ⟨hcalls, hw, happart hw⟩)
    · refine .inr (.inr ⟨hcalls, hw, hin.mpr ?_⟩)
      by_contra hnone
      rw [not_or, hpending] at hnone
      have hnm : ¬ 0 < (c.missed i).count n := fun h => (hmissed.mpr h).elim hw hnone.1
      rw [hgot] at hcalls
      omega

/-- A record that never entered an ingress is nowhere. -/
theorem nowhere (hs : (pipeline cfg).Reachable Machine.Always s) (i : Fin k)
    (hn : ¬ ∃ g, n ∈ s.intake.entered g) :
    n ∉ (s.desks i).calls ∧ ¬ s.Withheld i n ∧ ¬ s.InIngress n := by
  have ha := (accounts hs).intake
  obtain ⟨c, hc, hr⟩ := simulation.abstract hs
  refine ⟨fun h => hn ?_, ?_, ?_⟩
  · rw [← hr.sent]
    rw [← hr.got i] at h
    exact Broadcast.sent_of_mem hc (.inl h)
  · rintro ⟨o, ho, rfl, -⟩
    exact hn ⟨_, ha.entered_of_taken ho⟩
  · rintro ⟨g, hg⟩
    refine hn ⟨g, ?_⟩
    rw [ha.fifo g]
    exact List.mem_append_right _ hg

-- ---------------------------------------------------------------------------
-- What became of it
-- ---------------------------------------------------------------------------

/-- The record of call `n` was put into the queue of backend `i` as entry `p`. -/
def EntryOf (s : Pipeline cfg) (i : Fin k) (n p : Nat) : Prop :=
  ∃ x, (s.desks i).ledger.log[p]? = some x ∧ x.call? = some n

/-- What became of the record of call `n`, for backend `i`. What was written, sent or reported is
there to show for it. -/
def HasFate (s : Pipeline cfg) (i : Fin k) (n : Nat) : Fate → Prop
  | .ignored => s.intake.emits n = .done .notAccepting ∨ s.intake.emits n = .done .released
  | .ingressFull => s.intake.emits n = .done .full
  | .refused => s.intake.Refused i n
  | .discarded => (∃ o ∈ s.intake.taken, o.call = n ∧ o.refusedBy = none) ∨ s.InIngress n
  | .handled o => ∃ p, s.EntryOf i n p ∧ (s.desks i).ledger.acks p = [o] ∧
      (o = .written ∨ o = .sent ∨ o = .failed → ∃ x, (s.desks i).ledger.log[p]? = some x ∧
        (cfg.kind i).Handles (s.desks i).shared p x o)

/-- The errors the handler reported about the record, for the backend. -/
def reportsAbout (s : Pipeline cfg) (i : Fin k) (n : Nat) : Nat :=
  s.intake.reports.count (.ingressFull n) + s.intake.reports.count (.queueFull i n)

theorem mem_calls {i : Fin k} {n : Nat} : n ∈ (s.desks i).calls ↔ ∃ p, s.EntryOf i n p := by
  rw [Desk.calls, List.mem_filterMap]
  constructor
  · rintro ⟨x, hx, hcall⟩
    obtain ⟨p, hp⟩ := List.mem_iff_getElem?.mp hx
    exact ⟨p, x, hp, hcall⟩
  · rintro ⟨p, x, hp, hcall⟩
    exact ⟨x, List.mem_of_getElem? hp, hcall⟩

/-- It is put in once. -/
theorem EntryOf.unique (hs : (pipeline cfg).Reachable Machine.Always s) {p q : Nat}
    (hp : s.EntryOf i n p) (hq : s.EntryOf i n q) : p = q := by
  have honce := calls_nodup hs i
  rw [Desk.calls, List.Nodup, List.pairwise_filterMap, List.pairwise_iff_getElem] at honce
  obtain ⟨x, hx, hxn⟩ := hp
  obtain ⟨y, hy, hyn⟩ := hq
  obtain ⟨hplt, rfl⟩ := List.getElem?_eq_some_iff.mp hx
  obtain ⟨hqlt, rfl⟩ := List.getElem?_eq_some_iff.mp hy
  rcases Nat.lt_trichotomy p q with hlt | heq | hlt
  · exact absurd rfl (honce p q hplt hqlt hlt n hxn n hyn)
  · exact heq
  · exact absurd rfl (honce q p hqlt hplt hlt n hyn n hxn)

/-- A record withheld was refused, or thrown away, and not both. -/
theorem withheld_iff :
    s.Withheld i n ↔
      s.intake.Refused i n ∨ ∃ o ∈ s.intake.taken, o.call = n ∧ o.refusedBy = none := by
  constructor
  · rintro ⟨o, ho, rfl, hnone⟩
    rcases Taken.givenTo_eq_none.mp hnone with hnone | hrefused
    · exact .inr ⟨o, ho, rfl, hnone⟩
    · exact .inl ⟨o, ho, hrefused⟩
  · rintro (⟨o, ho, hrefused⟩ | ⟨o, ho, hcall, hnone⟩)
    · have hcall : o.call = n := by
        unfold Taken.refusal at hrefused
        split at hrefused
        · simpa using ((Bool.and_eq_true _ _).mp hrefused).2
        · cases hrefused
      exact ⟨o, ho, hcall, Taken.givenTo_eq_none.mpr (.inr (hcall ▸ hrefused))⟩
    · exact ⟨o, ho, hcall, Taken.givenTo_eq_none.mpr (.inl hnone)⟩

/-- Where logging is stopped, every entry has been acknowledged. -/
theorem acked_at_rest (hs : (pipeline cfg).Reachable Orderly s) (hlife : s.life = .idle)
    (hrun : s.handler.loggingRunningEvent = false) (i : Fin k) {p : Nat}
    (hp : p < (s.desks i).ledger.log.length) : ∃ o, (s.desks i).ledger.acks p = [o] := by
  have hi := staffed (fun _ _ => Orderly.returning) hs
  have hsound := desks_sound hs i
  have hnone : ∀ c, ¬ (s.desks i).Alive c := by
    intro c ha
    have hmem := hi.known i c ha
    rw [(hi.stopped hlife hrun).tasks] at hmem
    exact List.not_mem_nil hmem
  have hitems := (clean hs).emptied i (by rw [Emptied, hlife]; exact hrun)
  have hzero := (kept hs i).settled hsound hnone hitems
  exact List.length_eq_one_iff.mp (hsound.ledger.acked_of_unfinished_zero hzero hp)

/-- Where a record is that has one of the fates inside. -/
theorem HasFate.placed {f : Fate} (h : s.HasFate i n f) :
    (f = .ignored ∧ ¬ (s.intake.emits n).IsEntered ∧ (s.intake.emits n).isFull = false) ∨
      (f = .ingressFull ∧ ¬ (s.intake.emits n).IsEntered ∧ (s.intake.emits n).isFull = true) ∨
      (f = .refused ∧ s.Withheld i n) ∨ (f = .discarded ∧ (s.Withheld i n ∨ s.InIngress n)) ∨
      ∃ o, f = .handled o ∧ n ∈ (s.desks i).calls := by
  cases f with
  | ignored =>
    refine .inl ⟨rfl, ?_⟩
    rcases h with h | h
    · rw [h]
      exact ⟨id, rfl⟩
    · rw [h]
      exact ⟨id, rfl⟩
  | ingressFull =>
    refine .inr (.inl ⟨rfl, ?_⟩)
    rw [show s.intake.emits n = _ from h]
    exact ⟨id, rfl⟩
  | refused => exact .inr (.inr (.inl ⟨rfl, withheld_iff.mpr (.inl h)⟩))
  | discarded =>
    exact .inr (.inr (.inr (.inl ⟨rfl, h.imp_left fun h => withheld_iff.mpr (.inr h)⟩)))
  | handled o =>
    obtain ⟨p, hp, -⟩ := h
    exact .inr (.inr (.inr (.inr ⟨o, rfl, mem_calls.mpr ⟨p, hp⟩⟩)))

/-- Refused and thrown away are two fates. -/
theorem not_refused (ha : Accounts s) {o : Taken k} (ho : o ∈ s.intake.taken) (hcall : o.call = n)
    (hnone : o.refusedBy = none) : ¬ s.intake.Refused i n := by
  rw [← hcall, ha.intake.refused_iff ho, Taken.refusal, hnone]
  exact Bool.false_ne_true

/-- **Every record has one fate.** In every run in which no `stop_logging` raises and no broker
worker is given a record that it cannot turn into an entry, whenever logging is stopped: the
record of every call of `emit` that has returned has one fate for each backend, and was reported
as often as that fate says. -/
theorem one_fate (hs : (pipeline cfg).Reachable Orderly s) (hlife : s.life = .idle)
    (hrun : s.handler.loggingRunningEvent = false) (hn : s.Returned n) (i : Fin k) :
    ∃ f, s.HasFate i n f ∧ s.reportsAbout i n = f.reports ∧ ∀ f', s.HasFate i n f' → f' = f := by
  have hall : (pipeline cfg).Reachable Machine.Always s := hs.mono fun _ _ _ => trivial
  have ha := accounts hall
  have hended := ended hall
  obtain ⟨e, he⟩ := hn
  have hreports : s.reportsAbout i n =
      (if (s.intake.emits n).isFull then 1 else 0) + if s.intake.Refused i n then 1 else 0 := by
    rw [reportsAbout, hended.full, ha.reported, ha.intake.countP_refusal]
  by_cases hin : ∃ g, n ∈ s.intake.entered g
  · have hentered := (hended.entered n).mp hin
    have hfull : (s.intake.emits n).isFull = false := by
      cases e with
      | full => rw [he] at hentered; exact hentered.elim
      | _ => rw [he]; rfl
    rw [hfull, if_neg Bool.false_ne_true, Nat.zero_add] at hreports
    rcases place hall i hin with ⟨hcalls, hw, hing⟩ | ⟨hcalls, hw, hing⟩ | ⟨hcalls, hw, hing⟩
    · -- in the queue, and acknowledged
      obtain ⟨p, hp⟩ := mem_calls.mp hcalls
      obtain ⟨x, hx, -⟩ := id hp
      obtain ⟨o, ho⟩ := acked_at_rest hs hlife hrun i (List.getElem?_eq_some_iff.mp hx).1
      have hshown := (accounted hs i).handled p o (by rw [ho]; exact List.mem_singleton_self o)
      refine ⟨.handled o, ⟨p, hp, ho, hshown⟩, ?_, fun f' hf' => ?_⟩
      · rw [hreports, if_neg fun h => hw (withheld_iff.mpr (.inl h))]
        rfl
      · rcases hf'.placed with ⟨-, h, -⟩ | ⟨-, h, -⟩ | ⟨-, h⟩ | ⟨-, h⟩ | ⟨o', rfl, -⟩
        · exact absurd hentered h
        · exact absurd hentered h
        · exact absurd h hw
        · exact (h.elim hw hing).elim
        · obtain ⟨q, hq, ho', -⟩ := hf'
          rw [EntryOf.unique hall hq hp, ho] at ho'
          rw [(List.cons.inj ho').1]
    · -- withheld
      have hother : ∀ f', s.HasFate i n f' → f' = .refused ∨ f' = .discarded := by
        intro f' hf'
        rcases hf'.placed with ⟨-, h, -⟩ | ⟨-, h, -⟩ | ⟨heq, -⟩ | ⟨heq, -⟩ | ⟨o', -, h⟩
        · exact absurd hentered h
        · exact absurd hentered h
        · exact .inl heq
        · exact .inr heq
        · exact absurd h hcalls
      rcases withheld_iff.mp hw with hrefused | hgone
      · refine ⟨.refused, hrefused, by rw [hreports, if_pos hrefused]; rfl, fun f' hf' => ?_⟩
        refine (hother f' hf').resolve_right ?_
        rintro rfl
        rcases hf' with ⟨o, ho, hcall, hnone⟩ | hf'
        · exact not_refused ha ho hcall hnone hrefused
        · exact hing hf'
      · obtain ⟨o, ho, hcall, hnone⟩ := id hgone
        have hnot := not_refused (i := i) ha ho hcall hnone
        refine ⟨.discarded, .inl hgone, by rw [hreports, if_neg hnot]; rfl, fun f' hf' => ?_⟩
        refine (hother f' hf').resolve_left ?_
        rintro rfl
        exact hnot hf'
    · -- left in an ingress
      have hnot : ¬ s.intake.Refused i n := fun h => hw (withheld_iff.mpr (.inl h))
      refine ⟨.discarded, .inr hing, by rw [hreports, if_neg hnot]; rfl, fun f' hf' => ?_⟩
      rcases hf'.placed with ⟨-, h, -⟩ | ⟨-, h, -⟩ | ⟨-, h⟩ | ⟨heq, -⟩ | ⟨o', -, h⟩
      · exact absurd hentered h
      · exact absurd hentered h
      · exact absurd h hw
      · exact heq
      · exact absurd h hcalls
  · obtain ⟨hcalls, hw, hing⟩ := nowhere hall i hin
    have hnot : ¬ s.intake.Refused i n := fun h => hw (withheld_iff.mpr (.inl h))
    rw [if_neg hnot, Nat.add_zero] at hreports
    have hother : ∀ f', s.HasFate i n f' →
        (f' = .ignored ∧ (s.intake.emits n).isFull = false) ∨
          (f' = .ingressFull ∧ (s.intake.emits n).isFull = true) := by
      intro f' hf'
      rcases hf'.placed with ⟨heq, -, h⟩ | ⟨heq, -, h⟩ | ⟨-, h⟩ | ⟨-, h⟩ | ⟨o', -, h⟩
      · exact .inl ⟨heq, h⟩
      · exact .inr ⟨heq, h⟩
      · exact absurd h hw
      · exact (h.elim hw hing).elim
      · exact absurd h hcalls
    have hignored : (s.intake.emits n).isFull = false → s.HasFate i n .ignored →
        ∃ f, s.HasFate i n f ∧ s.reportsAbout i n = f.reports ∧ ∀ f', s.HasFate i n f' → f' = f := by
      intro hfull hfate
      refine ⟨.ignored, hfate, by rw [hreports, hfull]; rfl, fun f' hf' => ?_⟩
      rcases hother f' hf' with ⟨heq, -⟩ | ⟨-, h⟩
      · exact heq
      · rw [hfull] at h
        cases h
    cases e with
    | notAccepting => exact hignored (by rw [he]; rfl) (.inl he)
    | released => exact hignored (by rw [he]; rfl) (.inr he)
    | delivered =>
      refine absurd ((hended.entered n).mpr ?_) hin
      rw [he]
      trivial
    | full =>
      have hfull : (s.intake.emits n).isFull = true := by rw [he]; rfl
      refine ⟨.ingressFull, he, by rw [hreports, hfull]; rfl, fun f' hf' => ?_⟩
      rcases hother f' hf' with ⟨-, h⟩ | ⟨heq, -⟩
      · rw [hfull] at h
        cases h
      · exact heq

theorem one_fate_stalled :
    ∃ s, (pipeline oneConsole).run Orderly (init oneConsole) stalledCycle = some s ∧
      ∃ f, s.HasFate (Fin.last 0) 0 f ∧ s.reportsAbout (Fin.last 0) 0 = f.reports := by
  have hrun : ∃ s, (pipeline oneConsole).run Orderly (init oneConsole) stalledCycle = some s ∧
      s.life = .idle ∧ s.handler.loggingRunningEvent = false ∧
      s.intake.emits 0 = .done .delivered :=
    ⟨_, rfl, rfl, rfl, rfl⟩
  obtain ⟨s, hs, hlife, hrest, hemit⟩ := hrun
  obtain ⟨f, hf, hreports, -⟩ := one_fate (.of_run rfl hs) hlife hrest ⟨_, hemit⟩ (Fin.last 0)
  exact ⟨s, hs, f, hf, hreports⟩

end Pipeline

end ScietexLogging
