import ScietexLogging.File.Archive
import ScietexLogging.Formatter.Json
import ScietexLogging.Json.Lines

/-!
# File — a log of JSON lines

A rotating backend under `JsonFormatter` keeps newline-delimited JSON: the slots, read from
the highest to the log file, are lines, and each of them is the object of a record that was
written, however often the log was rolled over and the backend stopped and started.

* `written_lines`     — every text written is the line of a record;
* `json_log_readable` — the log, read back.
-/

namespace ScietexLogging

open Asyncio Posix Python

-- ---------------------------------------------------------------------------
-- The line of a record
-- ---------------------------------------------------------------------------

namespace JsonFormatter

/-- The object has the members of the record, each name once. -/
structure Describes (x : Record) (j : Json) : Prop where
  object : ∃ members timestamp message, j = .object members ∧ (members.map Prod.fst).Nodup ∧
    x.isoTimestamp = .ok timestamp ∧ x.getMessage = .ok message ∧
    (codes "timestamp".toList, .string (codes timestamp)) ∈ members ∧
    (codes "level".toList, .string (codes x.levelname)) ∈ members ∧
    (codes "logger".toList, .string (codes x.name)) ∈ members ∧
    (codes "message".toList, .string (codes message)) ∈ members

/-- `formatter.format(record) + "\n"`, of a record whose attributes JSON can hold. -/
structure Prints (x : Record) (out : String) : Prop where
  extras : JsonExtras x
  text : ∃ t, text x = .ok t ∧ out = String.ofList (Json.lineOf t)

/-- The line is ended, and it is the record's object. -/
theorem Prints.line {x : Record} {out : String} (h : Prints x out) :
    ∃ t j, out.toList = Json.lineOf t ∧ '\n' ∉ t ∧ Json.read t = some j ∧ Describes x j := by
  obtain ⟨⟨-, hvalues⟩, t, ht, rfl⟩ := h
  obtain ⟨data, hdata, hout⟩ := bind_eq_ok.mp ht
  obtain ⟨timestamp, htime, hdata⟩ := bind_eq_ok.mp hdata
  obtain ⟨message, hmessage, hdata⟩ := bind_eq_ok.mp hdata
  have hclean := asDict_clean.mpr ((data_clean hdata).mpr hvalues)
  cases hdumps : dumps (asDict data) with
  | error key =>
    rw [hdumps] at hout
    cases hout
  | ok out =>
    rw [hdumps] at hout
    obtain rfl := Except.ok.inj hout
    obtain ⟨hunbroken, members, hread, hnodup, hmembers⟩ := isLine_of_data hdata hdumps hclean
    refine ⟨out, .object members, String.toList_ofList, fun hmem => ?_, hread,
      ⟨members, timestamp, message, rfl, hnodup, htime, hmessage, hmembers⟩⟩
    have hbreak := hunbroken _ hmem
    exact absurd hbreak (by decide)

end JsonFormatter

namespace FileRun

open JsonFormatter

variable {cfg : FileConfig} {s t : FileRun} {a : Archive String}

/-- Only texts of `JsonFormatter` are written. -/
def Act.Json (a : Act) : Prop := ∀ c, a = .write c → ∃ x, Prints x c.text

theorem written_step {act : Act} (h : FileRun.step cfg s act = some t) :
    t.written = s.written ∨
      ∃ c e, act = .write c ∧ t.written = s.written ++ [e] ∧ e.text = c.text := by
  cases act with
  | write c =>
    obtain rfl := Option.some.inj h
    unfold afterWrite
    split
    · exact .inr ⟨c, _, rfl, rfl, rfl⟩
    · exact .inl rfl
  | close | chdir _ =>
    obtain rfl := Option.some.inj h
    exact .inl rfl
  | external e =>
    obtain ⟨fs, -, rfl⟩ := Option.map_eq_some_iff.mp h
    exact .inl rfl

/-- **Every text written is the line of a record.** -/
theorem written_lines {ok : FileRun → Act → Prop} (hok : ∀ s act, ok s act → act.Json)
    {s₀ : FileRun} (h₀ : s₀.written = []) (h : (machine cfg).Reaches ok s₀ s) :
    ∃ xs : List Record, List.Forall₂ (fun x (e : Written) => Prints x e.text) xs s.written := by
  induction h with
  | refl => exact ⟨[], by rw [h₀]; exact .nil⟩
  | tail _ hact hstep ih =>
    obtain ⟨xs, hxs⟩ := ih
    rcases written_step hstep with heq | ⟨c, e, rfl, heq, htext⟩
    · exact ⟨xs, by rw [heq]; exact hxs⟩
    · obtain ⟨x, hx⟩ := hok _ _ hact c rfl
      refine ⟨xs ++ [x], ?_⟩
      rw [heq]
      exact List.rel_append hxs (.cons (by rw [htext]; exact hx) .nil)

/-- What stands in slots `n` to 0. -/
def content (cfg : FileConfig) (s : FileRun) (n : Nat) : List Char :=
  (reading cfg s n).flatMap String.toList

/-- How many of the texts were followed by more rollovers than there are backups. -/
def gone (cfg : FileConfig) (s : FileRun) : Nat :=
  (s.written.filter fun e => cfg.kept < age cfg s e).length

/-- The slots, read from the highest, have what was written but for what is gone. -/
theorem Shelved.reading_eq (hs : Shelved cfg s a) {n : Nat} (hn : cfg.kept ≤ n) :
    reading cfg s n = (s.written.map Written.text).drop (gone cfg s) := by
  have htop : reading cfg s n = reading cfg s cfg.kept := by
    induction hn with
    | refl => rfl
    | @step n hle ih =>
      have hnone : s.world.fs.texts (cfg.slot (n + 1)) = [] := by
        rw [FileSystem.texts, hs.bounded (n + 1) (Nat.lt_succ_of_le hle)]
      rw [← ih, reading, List.range_succ, List.reverse_append, List.reverse_singleton,
        List.singleton_append, List.flatMap_cons, hnone, List.nil_append]
      rfl
  have hrecent : reading cfg s cfg.kept = a.recent cfg.kept := by
    rw [← Archive.reading_eq, reading]
    refine List.flatMap_congr fun k hk => hs.texts k ?_
    rw [List.mem_reverse, List.mem_range] at hk
    omega
  have hgone : gone cfg s = (a.older cfg.kept).length := by
    rw [gone, Archive.older, hs.dated.entries, List.filter_map, List.length_map, List.length_map]
    rfl
  have hall : s.written.map Written.text = a.older cfg.kept ++ a.recent cfg.kept := by
    rw [Archive.older_append, hs.dated.entries, List.map_map]
    rfl
  rw [htop, hrecent, hall, hgone, List.drop_left]

/-- The lines of records, one after the other, are read as their objects. -/
theorem readLines_prints {xs : List Record} {texts : List String}
    (h : List.Forall₂ Prints xs texts) :
    ∃ js, Json.readLines (texts.flatMap String.toList) = some js ∧ List.Forall₂ Describes xs js := by
  suffices hlines : ∃ (ts : List (List Char)) (js : List Json),
      texts.flatMap String.toList = ts.flatMap Json.lineOf ∧ (∀ t ∈ ts, '\n' ∉ t) ∧ ts.mapM Json.read = some js ∧ List.Forall₂ Describes xs js by
    obtain ⟨ts, js, htexts, hunbroken, hread, hjs⟩ := hlines
    exact ⟨js, by rw [htexts, Json.readLines_lines hunbroken, hread], hjs⟩
  induction h with
  | nil => exact ⟨[], [], rfl, fun t ht => absurd ht List.not_mem_nil, rfl, .nil⟩
  | cons hx _ ih =>
    obtain ⟨ts, js, htexts, hunbroken, hread, hjs⟩ := ih
    obtain ⟨t, j, htext, hline, hj, hdescribes⟩ := hx.line
    refine ⟨t :: ts, j :: js, ?_, List.forall_mem_cons.mpr ⟨hline, hunbroken⟩, ?_, .cons hdescribes hjs⟩
    · rw [List.flatMap_cons, List.flatMap_cons, htext, htexts]
    · rw [List.mapM_cons, hj, hread]
      rfl

theorem shelved_of_reaches {ok : FileRun → Act → Prop} (hk : cfg.Numbered) (hmode : cfg.mode = .append)
    (hok : ∀ s act, ok s act → act.Untroubled cfg) {s₀ : FileRun} (h₀ : Fresh cfg s₀)
    (h : (machine cfg).Reaches ok s₀ s) : ∃ a, Shelved cfg s a := by
  have hopen : cfg.openMode = .append := by
    rcases hk with hk | ⟨m, b, hk⟩
    · rw [FileConfig.openMode, hk, hmode]
    · rw [FileConfig.openMode, hk, hmode]
  suffices hboth : Tidy cfg s.world ∧ ∃ a, Shelved cfg s a from hboth.2
  induction h with
  | refl => exact ⟨tidy_init h₀.1, _, h₀.shelved⟩
  | tail _ hact hstep ih =>
    obtain ⟨hw, a, hs⟩ := ih
    exact shelved_step hk hopen hw hs (hok _ _ hact) hstep

/-- **The log is newline-delimited JSON.** Whatever is written to a log in mode `"a"` under
`JsonFormatter`, however often it is rolled over and the backend stopped and started: the
slots, read from the highest to the log file, are lines, the lines are objects, and these
are those of the records that were written, in order and each of them once, but for the
first ones, which are followed by more rollovers than there are backups. -/
theorem json_log_readable (hk : cfg.Numbered) (hmode : cfg.mode = .append) {s₀ : FileRun}
    (h₀ : Fresh cfg s₀)
    (h : (machine cfg).Reaches (fun _ act => act.Untroubled cfg ∧ act.Json) s₀ s) {n : Nat}
    (hn : cfg.kept ≤ n) :
    ∃ xs js, List.Forall₂ (fun x (e : Written) => Prints x e.text) xs s.written ∧
      Json.readLines (content cfg s n) = some js ∧
      List.Forall₂ Describes (xs.drop (gone cfg s)) js := by
  obtain ⟨a, hs⟩ := shelved_of_reaches hk hmode (fun _ _ hok => hok.1) h₀ h
  have hempty : s₀.written = [] := by
    obtain ⟨⟨fs, at₀, -, -, rfl⟩, -⟩ := h₀
    rfl
  obtain ⟨xs, hxs⟩ := written_lines (fun _ _ hok => hok.2) hempty h
  have htexts : List.Forall₂ Prints xs (s.written.map Written.text) :=
    List.forall₂_map_right_iff.mpr hxs
  obtain ⟨js, hread, hjs⟩ := readLines_prints (List.forall₂_drop (gone cfg s) htexts)
  exact ⟨xs, js, hxs, by rw [content, hs.reading_eq hn, hread], hjs⟩

/-- The line of a record whose message is "started". -/
def startedLine : WriteCall :=
  ⟨((text (extraRecord [])).toOption.map fun t => String.ofList (Json.lineOf t)).getD "",
    plainRecord "started", 0, fun _ => true⟩

theorem startedLine_ok (cfg : FileConfig) :
    Act.Untroubled cfg (.write startedLine) ∧ Act.Json (.write startedLine) := by
  refine ⟨⟨trivial, fun c hc op => by rw [← Act.write.inj hc]; rfl⟩, fun c hc => ?_⟩
  rw [← Act.write.inj hc]
  have hsome : (text (extraRecord [])).toOption.isSome = true := by decide +kernel
  refine ⟨extraRecord [], ⟨fun p hp => absurd hp List.not_mem_nil, fun _ _ v hv => by cases hv⟩, ?_⟩
  rw [startedLine]
  cases ht : text (extraRecord []) with
  | error e =>
    rw [ht] at hsome
    cases hsome
  | ok t => exact ⟨t, rfl, rfl⟩

/-- Two rollovers with one backup, and a restart: one object is gone. -/
theorem json_log_readable_thrice : ∃ s : FileRun, s.written.length = 3 ∧ gone smallLog s = 1 ∧
    ∃ xs js, List.Forall₂ (fun x (e : Written) => Prints x e.text) xs s.written ∧
      Json.readLines (content smallLog s 1) = some js ∧
      List.Forall₂ Describes (xs.drop (gone smallLog s)) js := by
  have hrun : ∃ s, (machine smallLog).Reaches
      (fun _ act => act.Untroubled smallLog ∧ act.Json) empty s ∧
      s.written.length = 3 ∧ gone smallLog s = 1 :=
    ⟨_, ((((Machine.Reaches.refl empty).tail (startedLine_ok _) rfl).tail
      (startedLine_ok _) rfl).tail ⟨untroubled_close _, fun _ hc => by cases hc⟩ rfl).tail
      (startedLine_ok _) rfl, by decide +kernel, by decide +kernel⟩
  obtain ⟨s, hrun, hwritten, hgone⟩ := hrun
  exact ⟨s, hwritten, hgone,
    json_log_readable (.inr ⟨_, _, rfl⟩) rfl (fresh_empty _ rfl) hrun (Nat.le_refl 1)⟩

end FileRun

end ScietexLogging
