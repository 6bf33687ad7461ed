import ScietexLogging.Pipeline.Model

/-!
# Pipeline — a backend and its operations

What the handler does to a backend: put an item in, make, cancel and run worker
tasks, clear the queue. Each operation has one lemma that says what it changes
and what it leaves alone, and keeps the backend `Sound`: the queue agrees with its
history, and the tasks hold different unacknowledged entries.
-/

namespace ScietexLogging

open Asyncio

variable {k : Nat}

-- ---------------------------------------------------------------------------
-- Desk operations
-- ---------------------------------------------------------------------------

namespace Desk

variable {C : Consumer Item Outcome} {d d' : Desk C}

/-- The record task `c` has in hand. -/
def hand (d : Desk C) (c : Nat) : Option Nat := (d.tasks c).bind C.hand

/-- Task `c` exists and has not ended. -/
def Alive (d : Desk C) (c : Nat) : Prop := (d.tasks c).isSome ∧ d.taskEnd c = none

/-- The queue agrees with its history, and the tasks hold different entries that
were taken and await their acknowledgement. -/
structure Sound (d : Desk C) : Prop where
  ledger : d.ledger.Sound
  holds : ∀ c, d.ledger.Holds (d.hand c)
  apart : ∀ c c' n, d.hand c = some n → d.hand c' = some n → c = c'

theorem hand_of_taskEnd {c : Nat} {e : TaskEnd} (h : d.taskEnd c = some e) : d.hand c = none := by
  obtain ⟨t, ht, he⟩ := Option.bind_eq_some_iff.mp h
  rw [hand, ht, Option.bind_some]
  exact C.ended_hand t e he

/-- What putting an item in does; the tasks do not notice. -/
structure Offered (d d' : Desk C) (x : Item) : Prop where
  tasks : d'.tasks = d.tasks
  shared : d'.shared = d.shared
  base : d'.base = d.base
  taken : d'.ledger.taken = d.ledger.taken
  acks : d'.ledger.acks = d.ledger.acks
  log : d'.ledger.log = if d.refuses x then d.ledger.log else d.ledger.log ++ [x]
  sound : d.ledger.Sound → d'.ledger.Sound

theorem offer_spec (d : Desk C) (x : Item) : Offered d (d.offer x) x := by
  cases hput : d.ledger.put x with
  | none =>
    have heq : d.offer x = d := by rw [offer, hput, Option.getD_none]
    rw [heq]
    exact ⟨rfl, rfl, rfl, rfl, rfl, by simp [refuses, hput], id⟩
  | some l =>
    have heq : d.offer x = { d with ledger := l } := by rw [offer, hput, Option.getD_some]
    obtain ⟨-, hlog, htaken, hacks, -, -⟩ := Ledger.put_eq_some hput
    rw [heq]
    exact ⟨rfl, rfl, rfl, htaken, hacks, by simp [refuses, hput, hlog], fun hs => hs.put hput⟩

/-- Putting several items in; what is let in was put in. -/
structure OfferedAll (d d' : Desk C) (xs : List Item) : Prop where
  tasks : d'.tasks = d.tasks
  shared : d'.shared = d.shared
  base : d'.base = d.base
  taken : d'.ledger.taken = d.ledger.taken
  acks : d'.ledger.acks = d.ledger.acks
  log : d'.ledger.log = d.ledger.log ++ d.ledger.queue.admits xs
  sound : d.ledger.Sound → d'.ledger.Sound

/-- After a put, there is that much less room. -/
theorem offer_admits (d : Desk C) (x : Item) (xs : List Item) :
    d.ledger.queue.admits (x :: xs) =
      (if d.refuses x then [] else [x]) ++ (d.offer x).ledger.queue.admits xs := by
  cases hput : d.ledger.put x with
  | none =>
    have hfull := Ledger.put_eq_none.mp hput
    rw [offer, hput, refuses, hput, Option.getD_none]
    exact (BoundedQueue.admits_full hfull _).trans (BoundedQueue.admits_full hfull _).symm
  | some l =>
    rw [offer, hput, refuses, hput, Option.getD_some]
    exact Ledger.admits_put hput x xs

theorem offerAll_spec (d : Desk C) (xs : List Item) : OfferedAll d (d.offerAll xs) xs := by
  induction xs generalizing d with
  | nil =>
    refine ⟨rfl, rfl, rfl, rfl, rfl, ?_, id⟩
    rw [List.sublist_nil.mp (BoundedQueue.admits_sublist _ _), List.append_nil]
    rfl
  | cons x xs ih =>
    have h₁ := offer_spec d x
    have h₂ := ih (d.offer x)
    refine ⟨h₂.tasks.trans h₁.tasks, h₂.shared.trans h₁.shared, h₂.base.trans h₁.base,
      h₂.taken.trans h₁.taken, h₂.acks.trans h₁.acks, ?_, fun hs => h₂.sound (h₁.sound hs)⟩
    show ((d.offer x).offerAll xs).ledger.log = _
    rw [h₂.log, h₁.log, offer_admits, ← List.append_assoc]
    split
    · rw [List.append_nil]
    · rfl

/-- What a segment of task `c` does. -/
structure Worked (d d' : Desk C) (c : Nat) (a : C.Act) : Prop where
  others : ∀ c', c' ≠ c → d'.tasks c' = d.tasks c'
  base : d'.base = d.base
  exists_task : ∃ t t', d.tasks c = some t ∧ d'.tasks c = some t' ∧
    (C.cancelRequested t' = true → C.cancelRequested t = true ∧ C.hand t' = C.hand t) ∧
    (∀ e, C.ended t = some e → C.ended t' = some e ∧ d'.ledger = d.ledger) ∧
    (d.ledger.Sound → d.ledger.Holds (C.hand t) →
      Ledger.Moves (C.outcome a t) (C.loses a d.ledger = true) (C.hand t, d.ledger)
        (C.hand t', d'.ledger))

theorem work_spec {running : Bool} {c : Nat} {a : C.Act} (h : d.work running c a = some d') :
    Worked d d' c a := by
  obtain ⟨t, ht, hmap⟩ := Option.bind_eq_some_iff.mp h
  obtain ⟨y, hy, rfl⟩ := Option.map_eq_some_iff.mp hmap
  refine ⟨fun c' hc' => Function.update_of_ne hc' _ _, rfl, t, y.2.2, ht,
    Function.update_self .., C.step_quiet running a _ y hy, ?_, ?_⟩
  · exact fun e he => C.ended_step running a _ y e he hy
  · exact fun hs hh => C.step_moves running a _ y hs hh hy

theorem work_hand {running : Bool} {c : Nat} {a : C.Act} (h : d.work running c a = some d')
    (hs : d.Sound) :
    Ledger.Moves (fun n f => ∃ t, d.tasks c = some t ∧ C.outcome a t n f)
      (C.loses a d.ledger = true) (d.hand c, d.ledger) (d'.hand c, d'.ledger) := by
  obtain ⟨-, -, t, t', ht, ht', -, -, hmoves⟩ := work_spec h
  have hh : d.hand c = C.hand t := by rw [hand, ht, Option.bind_some]
  have hh' : d'.hand c = C.hand t' := by rw [hand, ht', Option.bind_some]
  have hholds := hs.holds c
  rw [hh] at hholds ⊢
  rw [hh']
  exact (hmoves hs.ledger hholds).mono (fun n f hf => ⟨t, ht, hf⟩) id

theorem cancelTask_hand (t : C.Task) : C.hand (cancelTask t) = C.hand t := by
  unfold cancelTask
  split
  · rfl
  · exact C.cancel_hand t

theorem cancelTask_ended (t : C.Task) : C.ended (cancelTask t) = C.ended t := by
  unfold cancelTask
  split
  · rfl
  · exact C.cancel_ended t

theorem cancelIf_hand (d : Desk C) (p : Nat → Bool) (c : Nat) : (d.cancelIf p).hand c = d.hand c := by
  show ((if p c then (d.tasks c).map cancelTask else d.tasks c).bind C.hand) = (d.tasks c).bind C.hand
  split
  · cases d.tasks c with
    | none => rfl
    | some t => exact cancelTask_hand t
  · rfl

theorem cancelIf_taskEnd (d : Desk C) (p : Nat → Bool) (c : Nat) :
    (d.cancelIf p).taskEnd c = d.taskEnd c := by
  show ((if p c then (d.tasks c).map cancelTask else d.tasks c).bind C.ended) =
    (d.tasks c).bind C.ended
  split
  · cases d.tasks c with
    | none => rfl
    | some t => exact cancelTask_ended t
  · rfl

theorem cancelIf_isSome (d : Desk C) (p : Nat → Bool) (c : Nat) :
    ((d.cancelIf p).tasks c).isSome = (d.tasks c).isSome := by
  show (if p c then (d.tasks c).map cancelTask else d.tasks c).isSome = (d.tasks c).isSome
  split
  · exact Option.isSome_map
  · rfl

theorem cancelIf_tasks (d : Desk C) (p : Nat → Bool) (c : Nat) :
    (d.cancelIf p).tasks c = d.tasks c ∨ (d.cancelIf p).tasks c = (d.tasks c).map cancelTask := by
  show (if p c then _ else _) = _ ∨ (if p c then _ else _) = _
  split
  · exact .inr rfl
  · exact .inl rfl

theorem hire_hand (d : Desk C) (c c' : Nat) :
    (d.hire c).hand c' = if c' = c then none else d.hand c' := by
  show (Function.update d.tasks c (some C.create) c').bind C.hand = _
  by_cases h : c' = c
  · rw [h, Function.update_self, Option.bind_some, C.create_hand, if_pos rfl]
  · rw [Function.update_of_ne h, if_neg h, hand]

-- ---------------------------------------------------------------------------
-- Soundness
-- ---------------------------------------------------------------------------

theorem Sound.new (C : Consumer Item Outcome) (maxsize : Nat) : (new C maxsize).Sound :=
  ⟨.new maxsize, fun _ _ h => absurd h (by simp [hand, Desk.new]),
    fun _ _ _ h => absurd h (by simp [hand, Desk.new])⟩

/-- Operations that leave the entries taken and acknowledged, and the hands. -/
private theorem Sound.congr (hs : d.Sound) (hl : d'.ledger.Sound)
    (htaken : d'.ledger.taken = d.ledger.taken) (hacks : d'.ledger.acks = d.ledger.acks)
    (hhand : ∀ c, d'.hand c = d.hand c) : d'.Sound := by
  refine ⟨hl, fun c n hn => ?_, fun c c' n hc hc' => ?_⟩
  · rw [hhand] at hn
    rw [htaken, hacks]
    exact hs.holds c n hn
  · rw [hhand] at hc hc'
    exact hs.apart c c' n hc hc'

theorem Sound.offer (hs : d.Sound) (x : Item) : (d.offer x).Sound := by
  have h := offer_spec d x
  exact hs.congr (h.sound hs.ledger) h.taken h.acks fun c => by rw [hand, hand, h.tasks]

theorem Sound.offerAll (hs : d.Sound) (xs : List Item) : (d.offerAll xs).Sound := by
  have h := offerAll_spec d xs
  exact hs.congr (h.sound hs.ledger) h.taken h.acks fun c => by rw [hand, hand, h.tasks]

theorem Sound.cancelIf (hs : d.Sound) (p : Nat → Bool) : (d.cancelIf p).Sound :=
  hs.congr hs.ledger rfl rfl (cancelIf_hand d p)

theorem Sound.hire (hs : d.Sound) (c : Nat) : (d.hire c).Sound := by
  have hle : ∀ c' n, (d.hire c).hand c' = some n → d.hand c' = some n := by
    intro c' n h
    rw [hire_hand] at h
    split at h
    · exact absurd h (by simp)
    · exact h
  exact ⟨hs.ledger, fun c' n hn => hs.holds c' n (hle c' n hn),
    fun c₁ c₂ n h₁ h₂ => hs.apart c₁ c₂ n (hle c₁ n h₁) (hle c₂ n h₂)⟩

theorem Sound.work {running : Bool} {c : Nat} {a : C.Act} (hs : d.Sound)
    (h : d.work running c a = some d') : d'.Sound := by
  have hw := work_spec h
  have hmoves := work_hand h hs
  obtain ⟨hl, hh⟩ := hmoves.sound hs.ledger (hs.holds c)
  have hothers : ∀ c', c' ≠ c → d'.hand c' = d.hand c' :=
    fun c' hc' => by rw [hand, hand, hw.others c' hc']
  -- a task that does not run keeps its entry, and the one that does takes another
  have hother : ∀ c', c' ≠ c →
      d'.ledger.Holds (d'.hand c') ∧ ∀ n, d'.hand c' = some n → d'.hand c ≠ some n := by
    intro c' hc'
    rw [hothers c' hc']
    exact hmoves.other (hs.holds c') fun n hn hn' => hc' (hs.apart c' c n hn hn')
  refine ⟨hl, fun c' => ?_, fun c₁ c₂ n h₁ h₂ => ?_⟩
  · by_cases hc' : c' = c
    · rw [hc']
      exact hh
    · exact (hother c' hc').1
  · by_cases hc₁ : c₁ = c
    · by_cases hc₂ : c₂ = c
      · rw [hc₁, hc₂]
      · rw [hc₁] at h₁
        exact absurd h₁ ((hother c₂ hc₂).2 n h₂)
    · by_cases hc₂ : c₂ = c
      · rw [hc₂] at h₂
        exact absurd h₂ ((hother c₁ hc₁).2 n h₁)
      · rw [hothers c₁ hc₁] at h₁
        rw [hothers c₂ hc₂] at h₂
        exact hs.apart c₁ c₂ n h₁ h₂

/-- What the teardown's clearing loop does. -/
structure Cleared (d d' : Desk C) : Prop where
  tasks : d'.tasks = d.tasks
  shared : d'.shared = d.shared
  base : d'.base = d.base
  log : d'.ledger.log = d.ledger.log
  items : d'.ledger.queue.items = []
  old : ∀ n < d.ledger.taken, d'.ledger.acks n = d.ledger.acks n
  dropped : ∀ n, d.ledger.taken ≤ n → n < d.ledger.log.length → d'.ledger.acks n = [.dropped]
  sound : d'.Sound

theorem Sound.clear (hs : d.Sound) :
    ∃ l, d.ledger.clear .dropped = some l ∧ Cleared d { d with ledger := l } := by
  obtain ⟨l, hl, hsound, hitems, hlog, hold, hdropped⟩ := hs.ledger.clear (f := .dropped)
  refine ⟨l, hl, rfl, rfl, rfl, hlog, hitems, hold, hdropped, hsound, fun c n hn => ?_, hs.apart⟩
  obtain ⟨hlt, ha⟩ := hs.holds c n hn
  -- the queue is empty: everything put in has been taken
  have htaken : l.log.length ≤ l.taken := List.drop_eq_nil_iff.mp (hsound.items.symm.trans hitems)
  have hlen := hs.ledger.taken_le
  refine ⟨?_, by rw [hold n hlt, ha]⟩
  show n < l.taken
  rw [hlog] at htaken
  omega

-- ---------------------------------------------------------------------------
-- What the workers do not do
-- ---------------------------------------------------------------------------

/-- Items are put in, and tasks are asked to end: none is taken or acknowledged. -/
structure Grows (d d' : Desk C) : Prop where
  shared : d'.shared = d.shared
  log : ∃ ys, d'.ledger.log = d.ledger.log ++ ys
  taken : d'.ledger.taken = d.ledger.taken
  acks : d'.ledger.acks = d.ledger.acks
  tasks : ∀ c, d'.tasks c = d.tasks c ∨ d'.tasks c = (d.tasks c).map cancelTask

theorem Grows.hand (h : d.Grows d') (c : Nat) : d'.hand c = d.hand c := by
  rw [Desk.hand, Desk.hand]
  rcases h.tasks c with heq | heq
  · rw [heq]
  · rw [heq]
    cases d.tasks c with
    | none => rfl
    | some t => exact cancelTask_hand t

/-- What was put in stays. -/
theorem Grows.getElem? (h : d.Grows d') {n : Nat} {x : Item} (hx : d.ledger.log[n]? = some x) :
    d'.ledger.log[n]? = some x := by
  obtain ⟨ys, hys⟩ := h.log
  rw [hys, List.getElem?_append_left (List.getElem?_eq_some_iff.mp hx).1, hx]

theorem grows_offer (d : Desk C) (x : Item) : d.Grows (d.offer x) := by
  have h := offer_spec d x
  refine ⟨h.shared, ?_, h.taken, h.acks, fun c => .inl (congrFun h.tasks c)⟩
  rw [h.log]
  split
  · exact ⟨[], (List.append_nil _).symm⟩
  · exact ⟨[x], rfl⟩

theorem grows_offerAll (d : Desk C) (xs : List Item) : d.Grows (d.offerAll xs) := by
  have h := offerAll_spec d xs
  exact ⟨h.shared, ⟨_, h.log⟩, h.taken, h.acks, fun c => .inl (congrFun h.tasks c)⟩

theorem grows_cancelIf (d : Desk C) (p : Nat → Bool) : d.Grows (d.cancelIf p) :=
  ⟨rfl, ⟨[], (List.append_nil _).symm⟩, rfl, rfl, cancelIf_tasks d p⟩

/-- All items have been taken. -/
theorem Cleared.length_le (h : d.Cleared d') : d.ledger.log.length ≤ d'.ledger.taken := by
  rw [← h.log]
  exact List.drop_eq_nil_iff.mp (h.sound.ledger.items.symm.trans h.items)

/-- Every acknowledgement of an item that nobody had taken is that of the teardown. -/
theorem Cleared.acks (h : d.Cleared d') {n : Nat} (hn : d.ledger.taken ≤ n) {f : Outcome}
    (hf : f ∈ d'.ledger.acks n) : f = .dropped := by
  rcases Nat.lt_or_ge n d.ledger.log.length with hlt | hge
  · rw [h.dropped n hn hlt] at hf
    exact List.mem_singleton.mp hf
  · have hle := h.sound.ledger.taken_le
    rw [h.log] at hle
    rw [h.sound.ledger.fresh n (Nat.le_trans hle hge)] at hf
    cases hf

end Desk

end ScietexLogging
