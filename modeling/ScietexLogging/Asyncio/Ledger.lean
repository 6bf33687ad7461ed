import Mathlib.Data.Finset.Card
import Mathlib.Data.Finset.Range
import Mathlib.Logic.Relation
import Mathlib.Order.Interval.Finset.Nat
import ScietexLogging.Asyncio.Queue

/-!
# Asyncio — a queue and its history

A `Ledger` is an `asyncio.Queue` together with its history: every item ever put
into it (an *entry*, known by its position), how many were taken out, and the
acknowledgements made for each. The queue is what a program sees; the history
is what statements about the program are about.

* `Ledger.Sound` — the queue holds the entries not yet taken, in order; the
  unfinished counter counts the entries not yet acknowledged; no entry was
  acknowledged twice.
* `Ledger.Move` — what a consumer task does to a ledger between two of its
  suspension points: take the next entry in hand, acknowledge the entry in
  hand, or lose it.
* `Ledger.Move.sound` — such moves keep the ledger sound, however many
  consumers share it.
-/

namespace Asyncio

variable {α φ : Type*}

structure Ledger (α φ : Type*) where
  queue : AsyncQueue α
  log : List α
  taken : Nat
  acks : Nat → List φ

namespace Ledger

def new (maxsize : Nat) : Ledger α φ :=
  { queue := AsyncQueue.new maxsize, log := [], taken := 0, acks := fun _ => [] }

/-- `put_nowait` -/
def put (l : Ledger α φ) (x : α) : Option (Ledger α φ) :=
  (l.queue.putNowait x).map fun q => { l with queue := q, log := l.log ++ [x] }

/-- `get_nowait`, with the position of the entry taken. -/
def get (l : Ledger α φ) : Option ((Nat × α) × Ledger α φ) :=
  l.queue.getNowait.map fun p => ((l.taken, p.1), { l with queue := p.2, taken := l.taken + 1 })

/-- `task_done`, called for entry `n` with outcome `f`. -/
def ack (l : Ledger α φ) (n : Nat) (f : φ) : Option (Ledger α φ) :=
  l.queue.taskDone.map fun q =>
    { l with queue := q, acks := Function.update l.acks n (l.acks n ++ [f]) }

/-- `while not q.empty(): q.get_nowait(); q.task_done()`, at most `n` rounds. -/
def clearLoop (f : φ) : Nat → Ledger α φ → Option (Ledger α φ)
  | 0, l => some l
  | n + 1, l =>
    match l.get with
    | none => some l
    | some ((i, _), l') => (l'.ack i f).bind (clearLoop f n)

/-- The clearing loop, run until the queue is empty. -/
def clear (l : Ledger α φ) (f : φ) : Option (Ledger α φ) :=
  clearLoop f l.queue.items.length l

/-- The entries not yet acknowledged. -/
def unacked (l : Ledger α φ) : Finset Nat :=
  (Finset.range l.log.length).filter fun n => (l.acks n).isEmpty

@[simp] theorem mem_unacked {l : Ledger α φ} {n : Nat} :
    n ∈ l.unacked ↔ n < l.log.length ∧ l.acks n = [] := by
  simp [unacked]

/-- The queue and its history agree. -/
structure Sound (l : Ledger α φ) : Prop where
  taken_le : l.taken ≤ l.log.length
  items : l.queue.items = l.log.drop l.taken
  fresh : ∀ n, l.taken ≤ n → l.acks n = []
  once : ∀ n, (l.acks n).length ≤ 1
  counted : l.queue.unfinished = l.unacked.card

-- ---------------------------------------------------------------------------
-- The operations
-- ---------------------------------------------------------------------------

theorem put_eq_none {l : Ledger α φ} {x : α} : l.put x = none ↔ l.queue.full = true := by
  rw [put, Option.map_eq_none_iff, AsyncQueue.putNowait_eq_none]

theorem put_eq_some {l l' : Ledger α φ} {x : α} (h : l.put x = some l') :
    l.queue.full = false ∧ l'.log = l.log ++ [x] ∧ l'.taken = l.taken ∧ l'.acks = l.acks ∧
      l'.queue.items = l.queue.items ++ [x] ∧ l'.queue.unfinished = l.queue.unfinished + 1 := by
  obtain ⟨q, hq, rfl⟩ := Option.map_eq_some_iff.mp h
  obtain ⟨hf, -, hi, hu⟩ := AsyncQueue.putNowait_eq_some.mp hq
  exact ⟨hf, rfl, rfl, rfl, hi, hu⟩

theorem admits_put {β : Type*} {l l' : Ledger α φ} {x : α} (h : l.put x = some l') (y : β) (ys : List β) :
    l.queue.admits (y :: ys) = y :: l'.queue.admits ys := by
  obtain ⟨q, hq, rfl⟩ := Option.map_eq_some_iff.mp h
  obtain ⟨b, hb, rfl⟩ := Option.map_eq_some_iff.mp hq
  exact BoundedQueue.admits_put hb y ys

theorem get_eq_none {l : Ledger α φ} : l.get = none ↔ l.queue.items = [] := by
  rw [get, Option.map_eq_none_iff, AsyncQueue.getNowait_eq_none]

theorem get_eq_some {l l' : Ledger α φ} {n : Nat} {x : α} (h : l.get = some ((n, x), l')) :
    n = l.taken ∧ l'.log = l.log ∧ l'.taken = l.taken + 1 ∧ l'.acks = l.acks ∧
      l.queue.items = x :: l'.queue.items ∧ l'.queue.unfinished = l.queue.unfinished := by
  obtain ⟨⟨y, q⟩, hq, heq⟩ := Option.map_eq_some_iff.mp h
  obtain ⟨-, hi, hu⟩ := AsyncQueue.getNowait_eq_some.mp hq
  simp only [Prod.mk.injEq] at heq
  obtain ⟨⟨rfl, rfl⟩, rfl⟩ := heq
  exact ⟨rfl, rfl, rfl, rfl, hi, hu⟩

theorem ack_eq_some {l l' : Ledger α φ} {n : Nat} {f : φ} (h : l.ack n f = some l') :
    0 < l.queue.unfinished ∧ l'.log = l.log ∧ l'.taken = l.taken ∧
      l'.acks = Function.update l.acks n (l.acks n ++ [f]) ∧
      l'.queue.items = l.queue.items ∧ l'.queue.unfinished = l.queue.unfinished - 1 := by
  obtain ⟨q, hq, rfl⟩ := Option.map_eq_some_iff.mp h
  obtain ⟨hpos, rfl⟩ := AsyncQueue.taskDone_eq_some.mp hq
  exact ⟨hpos, rfl, rfl, rfl, rfl, rfl⟩

theorem mem_acks_of_ack {l l' : Ledger α φ} {n m : Nat} {f g : φ} (h : l.ack n f = some l')
    (hg : g ∈ l'.acks m) : g ∈ l.acks m ∨ (m = n ∧ g = f) := by
  rw [(ack_eq_some h).2.2.2.1] at hg
  by_cases hm : m = n
  · rw [hm, Function.update_self, List.mem_append, List.mem_singleton] at hg
    rw [hm]
    exact hg.imp id fun hf => ⟨rfl, hf⟩
  · rw [Function.update_of_ne hm] at hg
    exact .inl hg

theorem ack_of_pos {l : Ledger α φ} (h : 0 < l.queue.unfinished) (n : Nat) (f : φ) :
    ∃ l', l.ack n f = some l' := by
  rw [ack, AsyncQueue.taskDone_eq_some.mpr ⟨h, rfl⟩]
  exact ⟨_, rfl⟩

namespace Sound

variable {l l' : Ledger α φ} {n : Nat} {x : α} {f : φ}

theorem new (maxsize : Nat) : (Ledger.new maxsize : Ledger α φ).Sound := by
  refine ⟨Nat.le_refl _, rfl, fun _ _ => rfl, fun _ => by simp [Ledger.new], ?_⟩
  have hnone : (Ledger.new maxsize : Ledger α φ).unacked = ∅ := by
    ext n
    simp [Ledger.new]
  rw [hnone]
  rfl

theorem put (hs : l.Sound) (h : l.put x = some l') : l'.Sound := by
  obtain ⟨-, hlog, htaken, hacks, hitems, hun⟩ := put_eq_some h
  refine ⟨?_, ?_, ?_, ?_, ?_⟩
  · rw [hlog, htaken, List.length_append]
    have := hs.taken_le
    omega
  · rw [hitems, hlog, htaken, hs.items, List.drop_append_of_le_length hs.taken_le]
  · rw [hacks, htaken]
    exact hs.fresh
  · rw [hacks]
    exact hs.once
  · -- the new entry is one more to acknowledge
    have hnew : l'.unacked = insert l.log.length l.unacked := by
      ext n
      rw [Finset.mem_insert, mem_unacked, mem_unacked, hlog, hacks, List.length_append,
        List.length_singleton]
      constructor
      · rintro ⟨hn, ha⟩
        by_cases hlt : n < l.log.length
        · exact .inr ⟨hlt, ha⟩
        · exact .inl (by omega)
      · rintro (rfl | ⟨hn, ha⟩)
        · exact ⟨by omega, hs.fresh _ hs.taken_le⟩
        · exact ⟨by omega, ha⟩
    rw [hun, hnew, Finset.card_insert_of_notMem (by simp), hs.counted]

theorem get (hs : l.Sound) (h : l.get = some ((n, x), l')) :
    l'.Sound ∧ n < l'.taken ∧ l'.acks n = [] ∧ l'.log[n]? = some x := by
  obtain ⟨rfl, hlog, htaken, hacks, hitems, hun⟩ := get_eq_some h
  have hdrop : l.log.drop l.taken = x :: l'.queue.items := by rw [← hs.items, hitems]
  have hlt : l.taken < l.log.length := by
    by_contra hge
    rw [List.drop_eq_nil_of_le (by omega)] at hdrop
    exact absurd hdrop (by simp)
  have hx : l.log[l.taken]? = some x := by
    rw [← List.head?_drop, hdrop, List.head?_cons]
  refine ⟨⟨?_, ?_, ?_, ?_, ?_⟩, by omega, ?_, by rw [hlog, hx]⟩
  · rw [hlog, htaken]
    exact hlt
  · rw [hlog, htaken, ← List.tail_drop, hdrop, List.tail_cons]
  · intro m hm
    rw [hacks]
    exact hs.fresh m (by omega)
  · rw [hacks]
    exact hs.once
  · have hsame : l'.unacked = l.unacked := by rw [unacked, unacked, hlog, hacks]
    rw [hun, hsame, hs.counted]
  · rw [hacks]
    exact hs.fresh _ (Nat.le_refl _)

theorem unfinished_pos (hs : l.Sound) (hn : n < l.taken) (ha : l.acks n = []) :
    0 < l.queue.unfinished := by
  rw [hs.counted, Finset.card_pos]
  exact ⟨n, mem_unacked.mpr ⟨lt_of_lt_of_le hn hs.taken_le, ha⟩⟩

theorem ack (hs : l.Sound) (hn : n < l.taken) (ha : l.acks n = []) (h : l.ack n f = some l') :
    l'.Sound := by
  obtain ⟨-, hlog, htaken, hacks, hitems, hun⟩ := ack_eq_some h
  refine ⟨?_, ?_, ?_, ?_, ?_⟩
  · rw [hlog, htaken]
    exact hs.taken_le
  · rw [hitems, hlog, htaken]
    exact hs.items
  · intro m hm
    rw [hacks, Function.update_of_ne (by omega)]
    exact hs.fresh m (by omega)
  · intro m
    rw [hacks]
    by_cases hm : m = n
    · rw [hm, Function.update_self, ha]
      exact Nat.le_refl 1
    · rw [Function.update_of_ne hm]
      exact hs.once m
  · have hmem : n ∈ l.unacked := mem_unacked.mpr ⟨lt_of_lt_of_le hn hs.taken_le, ha⟩
    have hless : l'.unacked = l.unacked.erase n := by
      ext m
      rw [Finset.mem_erase, mem_unacked, mem_unacked, hlog, hacks]
      by_cases hm : m = n
      · simp [hm]
      · simp [hm]
    rw [hun, hless, Finset.card_erase_of_mem hmem, hs.counted]

/-- When the counter is zero every entry has been acknowledged. -/
theorem acked_of_unfinished_zero (hs : l.Sound) (h0 : l.queue.unfinished = 0)
    (hn : n < l.log.length) : (l.acks n).length = 1 := by
  have hempty : l.unacked = ∅ := by
    rw [← Finset.card_eq_zero, ← hs.counted, h0]
  have hne : l.acks n ≠ [] := by
    intro ha
    have : n ∈ l.unacked := mem_unacked.mpr ⟨hn, ha⟩
    rw [hempty] at this
    exact absurd this (by simp)
  have := hs.once n
  have := List.length_pos_iff.mpr hne
  omega

/-- When every entry taken has been acknowledged, the counter counts the
entries still in the queue. -/
theorem unfinished_eq_length (hs : l.Sound) (hall : ∀ n < l.taken, l.acks n ≠ []) :
    l.queue.unfinished = l.queue.items.length := by
  have hopen : l.unacked = Finset.Ico l.taken l.log.length := by
    ext n
    rw [mem_unacked, Finset.mem_Ico]
    constructor
    · rintro ⟨hn, ha⟩
      refine ⟨?_, hn⟩
      by_contra hlt
      exact hall n (by omega) ha
    · rintro ⟨hn, hlt⟩
      exact ⟨hlt, hs.fresh n hn⟩
  rw [hs.counted, hopen, Nat.card_Ico, hs.items, List.length_drop]

theorem clearLoop (hs : l.Sound) (hn : l.queue.items.length ≤ n) :
    ∃ l', clearLoop f n l = some l' ∧ l'.Sound ∧ l'.queue.items = [] ∧ l'.log = l.log ∧
      (∀ m < l.taken, l'.acks m = l.acks m) ∧
      (∀ m, l.taken ≤ m → m < l.log.length → l'.acks m = [f]) := by
  induction n generalizing l with
  | zero =>
    have hnil : l.queue.items = [] := List.length_eq_zero_iff.mp (by omega)
    refine ⟨l, rfl, hs, hnil, rfl, fun _ _ => rfl, fun m hm hlt => ?_⟩
    rw [hs.items, List.drop_eq_nil_iff] at hnil
    omega
  | succ n ih =>
    cases hget : l.get with
    | none =>
      have hnil := get_eq_none.mp hget
      refine ⟨l, by simp [Ledger.clearLoop, hget], hs, hnil, rfl, fun _ _ => rfl, ?_⟩
      intro m hm hlt
      rw [hs.items, List.drop_eq_nil_iff] at hnil
      omega
    | some p =>
      obtain ⟨⟨i, x⟩, l₁⟩ := p
      obtain ⟨rfl, hlog₁, htaken₁, hacks₁, hitems₁, -⟩ := get_eq_some hget
      obtain ⟨hs₁, hlt₁, ha₁, -⟩ := hs.get hget
      obtain ⟨l₂, hack⟩ := ack_of_pos (hs₁.unfinished_pos hlt₁ ha₁) l.taken f
      obtain ⟨-, hlog₂, htaken₂, hacks₂, hitems₂, -⟩ := ack_eq_some hack
      have hlen : l₂.queue.items.length ≤ n := by
        rw [hitems₁, List.length_cons] at hn
        rw [hitems₂]
        omega
      obtain ⟨l', hloop, hs', hnil, hlog', hold, hdone⟩ := ih (hs₁.ack hlt₁ ha₁ hack) hlen
      refine ⟨l', ?_, hs', hnil, by rw [hlog', hlog₂, hlog₁], ?_, ?_⟩
      · rw [Ledger.clearLoop, hget]
        simp only [hack, Option.bind_some, hloop]
      · intro m hm
        rw [hold m (by omega), hacks₂, Function.update_of_ne (by omega), hacks₁]
      · intro m hm hlt
        by_cases heq : m = l.taken
        · rw [heq, hold _ (by omega), hacks₂, Function.update_self, ha₁, List.nil_append]
        · exact hdone m (by omega) (by rw [hlog₂, hlog₁]; exact hlt)

/-- Clearing a sound ledger empties its queue and acknowledges what was in it. -/
theorem clear (hs : l.Sound) :
    ∃ l', l.clear f = some l' ∧ l'.Sound ∧ l'.queue.items = [] ∧ l'.log = l.log ∧
      (∀ m < l.taken, l'.acks m = l.acks m) ∧
      (∀ m, l.taken ≤ m → m < l.log.length → l'.acks m = [f]) :=
  hs.clearLoop (Nat.le_refl _)

end Sound

-- ---------------------------------------------------------------------------
-- Consumers
-- ---------------------------------------------------------------------------

/-- What a consumer does to a ledger, as far as the entry in its hand is
concerned. `P` says which entries it may acknowledge with which outcomes, `lossy`
whether it may drop the entry without an acknowledgement. -/
inductive Move (P : Nat → φ → Prop) (lossy : Prop) :
    Option Nat × Ledger α φ → Option Nat × Ledger α φ → Prop
  | take {l l' : Ledger α φ} {n : Nat} {x : α} (h : l.get = some ((n, x), l')) :
      Move P lossy (none, l) (some n, l')
  | ack {l l' : Ledger α φ} {n : Nat} {f : φ} (hf : P n f) (h : l.ack n f = some l') :
      Move P lossy (some n, l) (none, l')
  | lose {l : Ledger α φ} {n : Nat} (h : lossy) : Move P lossy (some n, l) (none, l)

/-- A segment of a consumer: a few moves in a row. -/
abbrev Moves (P : Nat → φ → Prop) (lossy : Prop) :
    Option Nat × Ledger α φ → Option Nat × Ledger α φ → Prop :=
  Relation.ReflTransGen (Move P lossy)

/-- The entry in hand is one that was taken and awaits its acknowledgement. -/
def Holds (l : Ledger α φ) (hand : Option Nat) : Prop :=
  ∀ n, hand = some n → n < l.taken ∧ l.acks n = []

variable {P : Nat → φ → Prop} {lossy : Prop} {l l' : Ledger α φ} {hand hand' : Option Nat}

theorem Move.sound (h : Move P lossy (hand, l) (hand', l')) (hs : l.Sound) (hh : l.Holds hand) :
    l'.Sound ∧ l'.Holds hand' := by
  cases h with
  | take hget =>
    obtain ⟨hs', hlt, ha, -⟩ := hs.get hget
    refine ⟨hs', fun m hm => ?_⟩
    rw [Option.some.injEq] at hm
    subst hm
    exact ⟨hlt, ha⟩
  | ack _ hack =>
    obtain ⟨hlt, ha⟩ := hh _ rfl
    exact ⟨hs.ack hlt ha hack, fun _ hm => absurd hm (by simp)⟩
  | lose => exact ⟨hs, fun _ hm => absurd hm (by simp)⟩

/-- Another consumer, holding another entry, is not disturbed. -/
theorem Move.other (h : Move P lossy (hand, l) (hand', l')) {other : Option Nat}
    (ho : l.Holds other) (hne : ∀ n, other = some n → hand ≠ some n) :
    l'.Holds other ∧ ∀ n, other = some n → hand' ≠ some n := by
  cases h with
  | take hget =>
    obtain ⟨rfl, -, htaken, hacks, -, -⟩ := get_eq_some hget
    refine ⟨fun m hm => ?_, fun m hm heq => ?_⟩
    · obtain ⟨hlt, ha⟩ := ho m hm
      exact ⟨by omega, by rw [hacks, ha]⟩
    · rw [Option.some.injEq] at heq
      have := (ho m hm).1
      omega
  | ack _ hack =>
    obtain ⟨-, -, htaken, hacks, -, -⟩ := ack_eq_some hack
    refine ⟨fun m hm => ?_, fun _ _ heq => absurd heq (by simp)⟩
    obtain ⟨hlt, ha⟩ := ho m hm
    have hmn : m ≠ _ := fun heq => hne m hm (by rw [heq])
    exact ⟨by omega, by rw [hacks, Function.update_of_ne hmn, ha]⟩
  | lose => exact ⟨ho, fun _ _ heq => absurd heq (by simp)⟩

theorem Moves.mono {P' : Nat → φ → Prop} {lossy' : Prop} {x y : Option Nat × Ledger α φ}
    (h : Moves P lossy x y) (hP : ∀ n f, P n f → P' n f) (hl : lossy → lossy') : Moves P' lossy' x y := by
  induction h with
  | refl => exact .refl
  | tail _ hmove ih =>
    refine ih.tail ?_
    cases hmove with
    | take hget => exact .take hget
    | ack hf hack => exact .ack (hP _ _ hf) hack
    | lose h => exact .lose (hl h)

theorem Moves.sound (h : Moves P lossy (hand, l) (hand', l')) (hs : l.Sound) (hh : l.Holds hand) :
    l'.Sound ∧ l'.Holds hand' := by
  suffices hall : ∀ x y : Option Nat × Ledger α φ, Moves P lossy x y → x.2.Sound → x.2.Holds x.1 →
      y.2.Sound ∧ y.2.Holds y.1 from hall _ _ h hs hh
  intro x y hxy hsx hhx
  induction hxy with
  | refl => exact ⟨hsx, hhx⟩
  | tail _ hmove ih => exact hmove.sound ih.1 ih.2

theorem Moves.other {x y : Option Nat × Ledger α φ} (h : Moves P lossy x y) {other : Option Nat}
    (ho : x.2.Holds other) (hne : ∀ n, other = some n → x.1 ≠ some n) :
    y.2.Holds other ∧ ∀ n, other = some n → y.1 ≠ some n := by
  induction h with
  | refl => exact ⟨ho, hne⟩
  | tail _ hmove ih => exact hmove.other ih.1 ih.2

/-- A consumer puts nothing in. -/
theorem Moves.log_eq {x y : Option Nat × Ledger α φ} (h : Moves P lossy x y) :
    y.2.log = x.2.log := by
  induction h with
  | refl => rfl
  | tail _ hmove ih =>
    cases hmove with
    | take hget => rw [(get_eq_some hget).2.1, ih]
    | ack _ hack => rw [(ack_eq_some hack).2.1, ih]
    | lose => exact ih

theorem Moves.taken_le {x y : Option Nat × Ledger α φ} (h : Moves P lossy x y) :
    x.2.taken ≤ y.2.taken := by
  induction h with
  | refl => exact Nat.le_refl _
  | tail _ hmove ih =>
    cases hmove with
    | take hget =>
      rw [(get_eq_some hget).2.2.1]
      exact Nat.le_succ_of_le ih
    | ack _ hack => rw [(ack_eq_some hack).2.2.1]; exact ih
    | lose => exact ih

/-- Every acknowledgement a consumer makes is one it may make. -/
theorem Moves.acked {x y : Option Nat × Ledger α φ} (h : Moves P lossy x y) {n : Nat} {f : φ}
    (hf : f ∈ y.2.acks n) : f ∈ x.2.acks n ∨ P n f := by
  induction h with
  | refl => exact .inl hf
  | tail _ hmove ih =>
    cases hmove with
    | take hget =>
      rw [(get_eq_some hget).2.2.2.1] at hf
      exact ih hf
    | ack hP hack =>
      rcases mem_acks_of_ack hack hf with hf | ⟨rfl, rfl⟩
      · exact ih hf
      · exact .inr hP
    | lose => exact ih hf

/-- Acknowledgements are not taken back. -/
theorem Moves.acks_ne_nil {x y : Option Nat × Ledger α φ} (h : Moves P lossy x y) {n : Nat}
    (ha : x.2.acks n ≠ []) : y.2.acks n ≠ [] := by
  induction h with
  | refl => exact ha
  | tail _ hmove ih =>
    cases hmove with
    | take hget =>
      rw [(get_eq_some hget).2.2.2.1]
      exact ih
    | @ack l _ m f _ hack =>
      rw [(ack_eq_some hack).2.2.2.1]
      by_cases hn : n = m
      · rw [hn, Function.update_self]
        exact List.append_ne_nil_of_right_ne_nil _ (List.cons_ne_nil f [])
      · rw [Function.update_of_ne hn]
        exact ih
    | lose => exact ih

theorem Moves.mem_acks {x y : Option Nat × Ledger α φ} (h : Moves P lossy x y) {n : Nat} {f : φ}
    (hf : f ∈ x.2.acks n) : f ∈ y.2.acks n := by
  induction h with
  | refl => exact hf
  | tail _ hmove ih =>
    cases hmove with
    | take hget =>
      rw [(get_eq_some hget).2.2.2.1]
      exact ih
    | @ack l _ m g _ hack =>
      rw [(ack_eq_some hack).2.2.2.1]
      by_cases hn : n = m
      · rw [hn, Function.update_self]
        exact List.mem_append_left [g] (hn ▸ ih)
      · rw [Function.update_of_ne hn]
        exact ih
    | lose => exact ih

/-- A consumer that loses nothing has in hand what it took and did not acknowledge. -/
theorem Moves.kept {x y : Option Nat × Ledger α φ} (h : Moves P lossy x y) (hl : ¬ lossy) {n : Nat}
    (hn : n < y.2.taken) (ha : y.2.acks n = []) :
    y.1 = some n ∨ n < x.2.taken ∧ x.2.acks n = [] ∧ x.1 ≠ some n := by
  induction h with
  | refl =>
    by_cases hx : x.1 = some n
    · exact .inl hx
    · exact .inr ⟨hn, ha, hx⟩
  | @tail y z _ hmove ih =>
    cases hmove with
    | @take l l' m _ hget =>
      obtain ⟨rfl, -, htaken, hacks, -, -⟩ := get_eq_some hget
      by_cases hnt : n = l.taken
      · exact .inl (by rw [hnt])
      · have hlt : n < l.taken := by
          rw [htaken] at hn
          omega
        rcases ih hlt (by rw [← hacks]; exact ha) with h | h
        · exact absurd h (by simp)
        · exact .inr h
    | @ack l l' m f _ hack =>
      obtain ⟨-, -, htaken, hacks, -, -⟩ := ack_eq_some hack
      have hne : n ≠ m := by
        rintro rfl
        rw [hacks, Function.update_self] at ha
        exact absurd ha (by simp)
      rw [hacks, Function.update_of_ne hne] at ha
      rcases ih (by rw [← htaken]; exact hn) ha with h | h
      · exact absurd (Option.some.inj h).symm hne
      · exact .inr h
    | lose h => exact absurd h hl

-- ---------------------------------------------------------------------------
-- Capacity
-- ---------------------------------------------------------------------------

theorem put_maxsize {x : α} (h : l.put x = some l') : l'.queue.maxsize = l.queue.maxsize := by
  obtain ⟨q, hq, rfl⟩ := Option.map_eq_some_iff.mp h
  exact (AsyncQueue.putNowait_eq_some.mp hq).2.1

theorem get_maxsize {n : Nat} {x : α} (h : l.get = some ((n, x), l')) :
    l'.queue.maxsize = l.queue.maxsize := by
  obtain ⟨⟨y, q⟩, hq, heq⟩ := Option.map_eq_some_iff.mp h
  obtain ⟨hm, -, -⟩ := AsyncQueue.getNowait_eq_some.mp hq
  obtain ⟨-, rfl⟩ := Prod.mk.inj heq
  exact hm

theorem ack_maxsize {n : Nat} {f : φ} (h : l.ack n f = some l') :
    l'.queue.maxsize = l.queue.maxsize := by
  obtain ⟨q, hq, rfl⟩ := Option.map_eq_some_iff.mp h
  obtain ⟨-, rfl⟩ := AsyncQueue.taskDone_eq_some.mp hq
  rfl

theorem clearLoop_taken {f : φ} {n : Nat} (h : clearLoop f n l = some l') : l.taken ≤ l'.taken := by
  induction n generalizing l with
  | zero => rw [Option.some.inj h]
  | succ n ih =>
    rw [clearLoop] at h
    split at h
    · rw [Option.some.inj h]
    · rename_i i x l₁ hget
      obtain ⟨l₂, hack, hloop⟩ := Option.bind_eq_some_iff.mp h
      have htaken₁ := (get_eq_some hget).2.2.1
      have htaken₂ := (ack_eq_some hack).2.2.1
      have hle := ih hloop
      omega

/-- Clearing takes nothing back. -/
theorem clear_taken {f : φ} (h : l.clear f = some l') : l.taken ≤ l'.taken := clearLoop_taken h

theorem clearLoop_maxsize {f : φ} {n : Nat} (h : clearLoop f n l = some l') :
    l'.queue.maxsize = l.queue.maxsize := by
  induction n generalizing l with
  | zero => rw [Option.some.inj h]
  | succ n ih =>
    rw [clearLoop] at h
    split at h
    · rw [Option.some.inj h]
    · rename_i i x l₁ hget
      obtain ⟨l₂, hack, hloop⟩ := Option.bind_eq_some_iff.mp h
      rw [ih hloop, ack_maxsize hack, get_maxsize hget]

/-- A consumer leaves the capacity of the queue as it is. -/
theorem Moves.maxsize {x y : Option Nat × Ledger α φ} (h : Moves P lossy x y) :
    y.2.queue.maxsize = x.2.queue.maxsize := by
  induction h with
  | refl => rfl
  | tail _ hmove ih =>
    cases hmove with
    | take hget => rw [get_maxsize hget, ih]
    | ack _ hack => rw [ack_maxsize hack, ih]
    | lose => exact ih

/-- With one consumer, what is unfinished is in the queue or in its hand. -/
theorem Sound.unfinished_le (hs : l.Sound) (hkept : ∀ n < l.taken, l.acks n = [] → hand = some n) :
    l.queue.unfinished ≤ l.queue.items.length + 1 := by
  have hlen : (Finset.Ico l.taken l.log.length).card = l.queue.items.length := by
    rw [Nat.card_Ico, hs.items, List.length_drop]
  have hsub : l.unacked ⊆ hand.elim ∅ ({·} : Nat → Finset Nat) ∪ Finset.Ico l.taken l.log.length := by
    intro n hn
    obtain ⟨hlt, hack⟩ := mem_unacked.mp hn
    rw [Finset.mem_union, Finset.mem_Ico]
    by_cases htaken : n < l.taken
    · rw [hkept n htaken hack]
      exact .inl (Finset.mem_singleton_self n)
    · exact .inr ⟨by omega, hlt⟩
  have hhand : (hand.elim ∅ ({·} : Nat → Finset Nat)).card ≤ 1 := by
    cases hand with
    | none => exact Nat.zero_le 1
    | some n => exact Nat.le_of_eq (Finset.card_singleton n)
  calc l.queue.unfinished = l.unacked.card := hs.counted
    _ ≤ (hand.elim ∅ ({·} : Nat → Finset Nat) ∪ Finset.Ico l.taken l.log.length).card :=
      Finset.card_le_card hsub
    _ ≤ (hand.elim ∅ ({·} : Nat → Finset Nat)).card + (Finset.Ico l.taken l.log.length).card :=
      Finset.card_union_le ..
    _ ≤ l.queue.items.length + 1 := by omega

end Ledger

end Asyncio
