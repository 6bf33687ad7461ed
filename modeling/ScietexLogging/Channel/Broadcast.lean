import Mathlib.Data.List.Nodup
import Mathlib.Data.List.Perm.Basic
import ScietexLogging.Asyncio.Machine

/-!
# Channel — a lossy broadcast

Messages are sent into a channel one by one and given to all its receivers, the first
first. A receiver may refuse a message it is given, and the channel may lose one: it is
then refused by all.

The channel promises every receiver no more than this: each message at most once, in the
order in which they were sent, and nothing that was not sent.

* `Broadcast.Sound`     — what was sent is pending, or was given to a receiver or missed by
  it, each message once;
* `Broadcast.one_place` — each message sent is in one place, for each receiver;
* `Broadcast.in_order`  — a message sent after another is not given to anyone before it.
-/

open Asyncio

namespace Channel

/-- A channel for messages `ρ`, with receivers `ι`. -/
structure Broadcast (ι ρ : Type*) where
  sent : List ρ
  pending : List ρ
  got : ι → List ρ
  missed : ι → List ρ

namespace Broadcast

inductive Act (ι ρ : Type*) where
  | send (m : ρ)
  | lose (m : ρ)                -- sent, and lost at once
  | give (refused : ι → Bool)

section

variable {ι ρ : Type*}

def new : Broadcast ι ρ where
  sent := []
  pending := []
  got := fun _ => []
  missed := fun _ => []

/-- The message `m`, given to the receivers that do not refuse it. -/
def deliver (c : Broadcast ι ρ) (refused : ι → Bool) (m : ρ) (rest : List ρ) : Broadcast ι ρ :=
  { c with
    pending := rest
    got := fun i => if refused i then c.got i else c.got i ++ [m]
    missed := fun i => if refused i then c.missed i ++ [m] else c.missed i }

variable [DecidableEq ρ]

def step (c : Broadcast ι ρ) : Act ι ρ → Option (Broadcast ι ρ)
  | .send m =>
    if m ∈ c.sent then none
    else some { c with sent := c.sent ++ [m], pending := c.pending ++ [m] }
  | .lose m =>
    if m ∈ c.sent then none
    else some { c with sent := c.sent ++ [m], missed := fun i => c.missed i ++ [m] }
  | .give refused =>
    match c.pending with
    | [] => none
    | m :: rest => some (c.deliver refused m rest)

end

end Broadcast

def broadcast (ι ρ : Type*) [DecidableEq ρ] : Machine (Broadcast ι ρ) (Broadcast.Act ι ρ) where
  init := (· = .new)
  step := Broadcast.step

namespace Broadcast

variable {ι ρ : Type*}

section

variable [DecidableEq ρ] {c : Broadcast ι ρ} {m : ρ}

theorem step_send (hm : m ∉ c.sent) : (broadcast ι ρ).step c (.send m) =
    some { c with sent := c.sent ++ [m], pending := c.pending ++ [m] } :=
  if_neg hm

theorem step_lose (hm : m ∉ c.sent) : (broadcast ι ρ).step c (.lose m) =
    some { c with sent := c.sent ++ [m], missed := fun i => c.missed i ++ [m] } :=
  if_neg hm

theorem step_give {refused : ι → Bool} {rest : List ρ} (hpending : c.pending = m :: rest) :
    (broadcast ι ρ).step c (.give refused) = some (c.deliver refused m rest) := by
  simp only [broadcast, step, hpending]

end

/-- Each message sent is pending, or each receiver was given it or missed it. -/
structure Sound (c : Broadcast ι ρ) : Prop where
  once : c.sent.Nodup
  waits : c.pending.Sublist c.sent
  fifo : ∀ i, (c.got i ++ c.pending).Sublist c.sent
  kept : ∀ i, (c.got i ++ c.missed i ++ c.pending).Perm c.sent

namespace Sound

variable {c : Broadcast ι ρ} {m : ρ}

theorem new : (new : Broadcast ι ρ).Sound :=
  ⟨List.nodup_nil, .slnil, fun _ => .slnil, fun _ => .nil⟩

private theorem nodup_sent (hs : c.Sound) (hm : m ∉ c.sent) : (c.sent ++ [m]).Nodup := by
  refine List.nodup_append.mpr ⟨hs.once, List.nodup_singleton m, ?_⟩
  intro x hx y hy heq
  rw [heq, List.mem_singleton.mp hy] at hx
  exact hm hx

theorem send (hs : c.Sound) (hm : m ∉ c.sent) :
    ({ c with sent := c.sent ++ [m], pending := c.pending ++ [m] } : Broadcast ι ρ).Sound := by
  refine ⟨hs.nodup_sent hm, hs.waits.append (.refl _), fun i => ?_, fun i => ?_⟩
  · show (c.got i ++ (c.pending ++ [m])).Sublist (c.sent ++ [m])
    rw [← List.append_assoc]
    exact (hs.fifo i).append (.refl _)
  · show (c.got i ++ c.missed i ++ (c.pending ++ [m])).Perm (c.sent ++ [m])
    rw [← List.append_assoc]
    exact (hs.kept i).append_right [m]

theorem lose (hs : c.Sound) (hm : m ∉ c.sent) :
    ({ c with sent := c.sent ++ [m], missed := fun i => c.missed i ++ [m] } :
      Broadcast ι ρ).Sound := by
  refine ⟨hs.nodup_sent hm, hs.waits.trans (List.sublist_append_left ..),
    fun i => (hs.fifo i).trans (List.sublist_append_left ..), fun i => ?_⟩
  show (c.got i ++ (c.missed i ++ [m]) ++ c.pending).Perm (c.sent ++ [m])
  have hkept := (hs.kept i).append_right [m]
  refine List.Perm.trans ?_ hkept
  rw [List.append_assoc, List.append_assoc, List.append_assoc, List.append_assoc]
  exact ((List.perm_append_comm.append_left (c.missed i)).append_left (c.got i) :)

theorem deliver (hs : c.Sound) (refused : ι → Bool) {rest : List ρ} (hpending : c.pending = m :: rest) :
    (c.deliver refused m rest).Sound := by
  have hrest : rest.Sublist c.pending := by
    rw [hpending]
    exact List.sublist_cons_self m rest
  refine ⟨hs.once, hrest.trans hs.waits, fun i => ?_, fun i => ?_⟩
  · have hfifo := hs.fifo i
    show ((if refused i then c.got i else c.got i ++ [m]) ++ rest).Sublist c.sent
    split
    · exact ((List.Sublist.refl _).append hrest).trans hfifo
    · rw [hpending] at hfifo
      rw [List.append_assoc]
      exact hfifo
  · have hkept := hs.kept i
    rw [hpending] at hkept
    show ((if refused i then c.got i else c.got i ++ [m]) ++
      (if refused i then c.missed i ++ [m] else c.missed i) ++ rest).Perm c.sent
    split
    · rw [List.append_assoc, List.append_assoc, List.singleton_append, ← List.append_assoc]
      exact hkept
    · refine List.Perm.trans ?_ hkept
      rw [List.append_assoc, List.append_assoc, List.append_assoc, List.singleton_append]
      exact List.perm_middle.symm.append_left (c.got i)

variable [DecidableEq ρ]

theorem step {a : Act ι ρ} {d : Broadcast ι ρ} (hs : c.Sound) (h : c.step a = some d) : d.Sound := by
  cases a with
  | send m =>
    simp only [Broadcast.step] at h
    split at h
    · cases h
    · rename_i hm
      exact Option.some.inj h ▸ hs.send hm
  | lose m =>
    simp only [Broadcast.step] at h
    split at h
    · cases h
    · rename_i hm
      exact Option.some.inj h ▸ hs.lose hm
  | give refused =>
    simp only [Broadcast.step] at h
    split at h
    · cases h
    · rename_i m rest hpending
      exact Option.some.inj h ▸ hs.deliver refused hpending

end Sound

section

variable [DecidableEq ρ] {ok : Broadcast ι ρ → Act ι ρ → Prop} {c d : Broadcast ι ρ}

theorem sound (h : (broadcast ι ρ).Reachable ok c) : c.Sound := by
  refine Machine.invariant (I := Sound) ?_ ?_ h
  · rintro c rfl
    exact .new
  · exact fun c a d hs _ hstep => hs.step hstep

/-- What has happened to a message stays so. -/
structure Extends (c d : Broadcast ι ρ) : Prop where
  sent : c.sent <+: d.sent
  got : ∀ i, c.got i <+: d.got i
  missed : ∀ i, c.missed i <+: d.missed i

omit [DecidableEq ρ] in
theorem Extends.trans {e : Broadcast ι ρ} (h : Extends c d) (h' : Extends d e) : Extends c e :=
  ⟨h.sent.trans h'.sent, fun i => (h.got i).trans (h'.got i), fun i => (h.missed i).trans (h'.missed i)⟩

theorem Extends.step {a : Act ι ρ} (h : c.step a = some d) : Extends c d := by
  cases a with
  | send m =>
    simp only [Broadcast.step] at h
    split at h
    · cases h
    · obtain rfl := Option.some.inj h
      exact ⟨List.prefix_append .., fun _ => List.prefix_rfl, fun _ => List.prefix_rfl⟩
  | lose m =>
    simp only [Broadcast.step] at h
    split at h
    · cases h
    · obtain rfl := Option.some.inj h
      exact ⟨List.prefix_append .., fun _ => List.prefix_rfl, fun _ => List.prefix_append ..⟩
  | give refused =>
    simp only [Broadcast.step] at h
    split at h
    · cases h
    · obtain rfl := Option.some.inj h
      refine ⟨List.prefix_rfl, fun i => ?_, fun i => ?_⟩
      · show c.got i <+: if refused i then c.got i else c.got i ++ _
        split
        · exact List.prefix_rfl
        · exact List.prefix_append ..
      · show c.missed i <+: if refused i then c.missed i ++ _ else c.missed i
        split
        · exact List.prefix_append ..
        · exact List.prefix_rfl

theorem Extends.reaches (h : (broadcast ι ρ).Reaches ok c d) : Extends c d := by
  induction h with
  | refl => exact ⟨List.prefix_rfl, fun _ => List.prefix_rfl, fun _ => List.prefix_rfl⟩
  | tail _ _ hstep ih => exact ih.trans (.step hstep)

/-- Whatever is pending may be lost. -/
theorem lose_pending (c : Broadcast ι ρ) :
    ∃ d, (broadcast ι ρ).Reaches Machine.Always c d ∧ d.sent = c.sent ∧ d.pending = [] ∧
      d.got = c.got ∧ ∀ i, d.missed i = c.missed i ++ c.pending := by
  obtain ⟨sent, pending, got, missed⟩ := c
  induction pending generalizing missed with
  | nil => exact ⟨_, .refl _, rfl, rfl, rfl, fun i => (List.append_nil _).symm⟩
  | cons m rest ih =>
    obtain ⟨d, hd, hsent, hpending, hgot, hmissed⟩ := ih fun i => missed i ++ [m]
    refine ⟨d, .head (a := .give fun _ => true) trivial rfl hd, hsent, hpending, hgot, fun i => ?_⟩
    rw [hmissed i, List.append_assoc]
    rfl

/-- **Each message sent is in one place**, for each receiver. -/
theorem one_place (h : (broadcast ι ρ).Reachable ok c) {m : ρ} (hm : m ∈ c.sent) (i : ι) :
    (c.got i).count m + (c.missed i).count m + c.pending.count m = 1 := by
  have hs := sound h
  have hcount := (hs.kept i).count_eq m
  rw [List.count_append, List.count_append] at hcount
  rw [hcount]
  exact List.count_eq_one_of_mem hs.once hm

/-- Nobody is given, or misses, a message that was not sent. -/
theorem sent_of_mem (h : (broadcast ι ρ).Reachable ok c) {m : ρ} {i : ι}
    (hm : m ∈ c.got i ∨ m ∈ c.missed i ∨ m ∈ c.pending) : m ∈ c.sent := by
  refine ((sound h).kept i).subset ?_
  rw [List.mem_append, List.mem_append]
  tauto

/-- **The order of sending** is the order in which a receiver is given the messages. -/
theorem in_order (hc : (broadcast ι ρ).Reachable ok c) (h : (broadcast ι ρ).Reaches ok c d)
    {m n : ρ} (hm : m ∈ c.sent) (hn : n ∉ c.sent) {i : ι} (hgot : m ∈ d.got i) (hgot' : n ∈ d.got i) :
    [m, n].Sublist (d.got i) := by
  obtain ⟨c₀, h₀, hrun⟩ := hc
  have hs : d.Sound := sound ⟨c₀, h₀, hrun.trans h⟩
  obtain ⟨later, hsent⟩ := (Extends.reaches h).sent
  have hsub : (d.got i).Sublist (c.sent ++ later) := by
    rw [hsent]
    exact (List.sublist_append_left ..).trans (hs.fifo i)
  -- what it was given is a part of what was sent by then, and a part of what was sent since
  obtain ⟨before, after, heq, hbefore, hafter⟩ := List.sublist_append_iff.mp hsub
  have honce := hs.once
  rw [← hsent, List.nodup_append] at honce
  rw [heq, List.mem_append] at hgot hgot'
  have hmbefore : m ∈ before :=
    hgot.resolve_right fun hmem => honce.2.2 m hm m (hafter.subset hmem) rfl
  have hnafter : n ∈ after := hgot'.resolve_left fun hmem => hn (hbefore.subset hmem)
  rw [heq]
  exact (List.singleton_sublist.mpr hmbefore).append (List.singleton_sublist.mpr hnafter)

end

end Broadcast

end Channel
