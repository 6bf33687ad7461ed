import ScietexLogging.Formatter.Scietex
import ScietexLogging.Terminal.Sgr

/-!
# Formatter — coloured and plain output

The coloured output of `ScietexFormatter` is the plain one with SGR sequences in it, up to
the newline that `logging.Formatter` puts before a traceback: it looks at the last
character of the line, which may be the end of a reset.

* `Removable` — without its SGR sequences the coloured output is the plain one, and every
                style in it is closed;
* `ResetBehindNewline` — a traceback or a stack follows a newline with a reset behind it;
* `colored_removable` — the first holds unless the second does.
-/

namespace ScietexLogging

open Posix Python Terminal

-- ---------------------------------------------------------------------------
-- What coloured output should be
-- ---------------------------------------------------------------------------

/-- Literal text without an escape, or a field that the palette knows. -/
def Piece.isPlain : Piece → Bool
  | .literal text => esc ∉ text
  | .field (.other _) => false
  | .field _ => true

abbrev PlainFormat (fmt : List Piece) : Prop := ∀ p ∈ fmt, p.isPlain = true

/-- What stands behind the line of a record. -/
def tailText (x : Record) : Str :=
  match truthy (cacheTraceback x).excText, truthy x.stackInfo with
  | none, none => []
  | some traceback, none => traceback
  | none, some stack => stack
  | some traceback, some stack => onNewLine traceback stack

/-- No escape in what a record says. -/
structure Record.Clean (x : Record) : Prop where
  name : esc ∉ x.name
  message : ∀ s, x.getMessage = .ok s → esc ∉ s
  traceback : ∀ s, truthy (cacheTraceback x).excText = some s → esc ∉ s
  stack : ∀ s, truthy x.stackInfo = some s → esc ∉ s

/-- The message of a record and, where the format has it, its time. -/
def Record.Says (x : Record) (fmt : List Piece) (message time : Str) : Prop :=
  x.getMessage = .ok message ∧ (usesTime fmt = true → x.isoTimestamp = .ok time)

/-- What a piece shows of a record. -/
def Record.shown (x : Record) (message time : Str) : Piece → Str
  | .literal text => text
  | .field .asctime => time
  | .field .levelname => x.levelname
  | .field .name => x.name
  | .field .message => message
  | .field (.other _) => []

/-- The same with the level abbreviated, and no colour. -/
def Record.plain (x : Record) : Str → Str → Piece → Str := (ScietexFormatter.abbreviated x).shown

/-- The text is the pieces, one behind the other, and a tail: literal text as it is, and
no style left on where a piece ends or at the end. -/
def Closed (fmt : List Piece) (x : Record) (message time s : Str) : Prop :=
  ∃ chunks tail, s = chunks.flatten ++ tail ∧
    List.Forall₂ (fun p chunk => stripSgr chunk = x.plain message time p ∧
      ∀ text, p = .literal text → chunk = text) fmt chunks ∧
    (∀ k, isOpen (chunks.take k).flatten = false) ∧ isOpen s = false

/-- The formatter of a theme, with colour or without. -/
def themed (fmt : Option (List Piece)) (theme : LoggingTheme) (color : Bool) : ScietexFormatter :=
  { fmt, theme := some theme, color := some color }

/-- Coloured output is the plain output and removable, closed styling, and the records
that were there are left alone. -/
def Removable (fmt : Option (List Piece)) (theme : LoggingTheme) (h : Records) (r : Nat) : Prop :=
  let colored := ((themed fmt theme true).format r).exec h
  let plain := ((themed fmt theme false).format r).exec h
  colored.1.map stripSgr = plain.1 ∧
    (∀ s, colored.1 = .ok s →
      ∃ message time, (h.record r).Says (themed fmt theme true).pieces message time ∧
        Closed (themed fmt theme true).pieces (h.record r) message time s) ∧
    ∀ i < h.count, colored.2.record i = h.record i ∧ plain.2.record i = h.record i

/-- The palette puts a style on. -/
def Palette.styles (p : Palette) : Piece → Bool
  | .literal _ => false
  | .field .name => p.loggerName.isSome
  | .field _ => true

/-- A traceback or a stack follows, all pieces behind one that ends in a newline are
empty, and that one or one of them is styled. -/
def ResetBehindNewline (fmt : List Piece) (palette : Palette) (x : Record) : Prop :=
  tailText x ≠ [] ∧ ∃ message time, x.Says fmt message time ∧
    ∃ before p after, fmt = before ++ p :: after ∧ (x.plain message time p).getLast? = some '\n' ∧
      (∀ q ∈ after, x.plain message time q = []) ∧ ∃ q ∈ p :: after, palette.styles q = true

-- ---------------------------------------------------------------------------
-- What is painted
-- ---------------------------------------------------------------------------

/-- `c` is the text `t`, with a style around it or as it is. -/
structure Painted (on : Bool) (t c : Str) : Prop where
  reads : ∃ ts, Reads c ts ∧ visible ts = t ∧ ts.foldl Token.style false = false
  plain : on = false → c = t
  ending : on = true → c.getLast? = some 'm'

theorem Painted.text {t : Str} (h : esc ∉ t) : Painted false t t where
  reads := ⟨_, .text h, visible_chars t, style_chars t false⟩
  plain _ := rfl
  ending h := by cases h

theorem Painted.styled {before t : Str} {ts : List Token} (hbefore : Reads before ts)
    (hsgr : visible ts = []) (h : esc ∉ t) : Painted true t (before ++ t ++ reset) where
  reads := by
    refine ⟨ts ++ t.map .char ++ [.sgr ['0']], (hbefore.append (.text h)).append ?_, ?_, ?_⟩
    · exact Reads.sgrSequence (p := ['0']) (List.all_eq_true.mp rfl)
    · rw [visible_append, visible_append, hsgr, visible_chars]
      exact List.append_nil t
    · rw [List.foldl_append]
      rfl
  plain h := by cases h
  ending _ := by rw [List.getLast?_append]; rfl

theorem digit_parameter {n : Nat} {c : Char} (hc : c ∈ Nat.toDigits 10 n) : isParameter c = true := by
  rw [isParameter, Nat.isDigit_of_mem_toDigits (by omega) (by omega) hc]
  rfl

theorem intRepr_parameter {n : Int} (h : 0 ≤ n) : ∀ c ∈ intRepr n, isParameter c = true := by
  intro c hc
  rw [intRepr, if_neg (by omega)] at hc
  exact digit_parameter hc

/-- What stands between `ESC [` and `m` in the sequence of a colour. -/
def colorParameters (layer : String) (rgb : Int × Int × Int) : Str :=
  layer.toList ++ (";2;".toList ++ (intRepr rgb.1 ++ ([';'] ++ (intRepr rgb.2.1 ++
    ([';'] ++ intRepr rgb.2.2)))))

theorem sgrColor_eq (layer : String) (rgb : Int × Int × Int) :
    sgrColor layer rgb = sgrSequence (colorParameters layer rgb) := by
  have hesc : "\x1b[".toList = [esc, '['] := rfl
  unfold sgrColor colorParameters sgrSequence
  rw [hesc]
  simp only [List.append_assoc, List.cons_append, List.nil_append]

theorem colorParameters_parameter {s : Str} {rgb : Int × Int × Int} (h : hexColor s = some rgb)
    {layer : String} (hlayer : ∀ c ∈ layer.toList, isParameter c = true) :
    ∀ c ∈ colorParameters layer rgb, isParameter c = true := by
  obtain ⟨⟨hr, -⟩, ⟨hg, -⟩, hb, -⟩ := hexColor_range h
  have hsep : ∀ c ∈ [';'], isParameter c = true := List.all_eq_true.mp rfl
  have htwo : ∀ c ∈ ";2;".toList, isParameter c = true := List.all_eq_true.mp rfl
  simp only [colorParameters, List.mem_append]
  rintro c (hc | hc | hc | hc | hc | hc | hc)
  · exact hlayer c hc
  · exact htwo c hc
  · exact intRepr_parameter hr c hc
  · exact hsep c hc
  · exact intRepr_parameter hg c hc
  · exact hsep c hc
  · exact intRepr_parameter hb c hc

/-- Sequences that show nothing. -/
def Invisible (s : Str) : Prop := ∃ ts, Reads s ts ∧ visible ts = []

theorem Invisible.nil : Invisible [] := ⟨[], .nil, rfl⟩

theorem Invisible.append {s t : Str} (hs : Invisible s) (ht : Invisible t) : Invisible (s ++ t) := by
  obtain ⟨ts, hts, hs⟩ := hs
  obtain ⟨us, hus, ht⟩ := ht
  exact ⟨ts ++ us, hts.append hus, by rw [visible_append, hs, ht]; rfl⟩

theorem Invisible.sgrSequence {p : Str} (h : ∀ c ∈ p, isParameter c = true) :
    Invisible (sgrSequence p) := ⟨[.sgr p], .sgrSequence h, rfl⟩

/-- The sequence of a colour that is set to a hex colour, or nothing. -/
theorem painting_valid {color : Option Str} (hcolor : ∀ s, color = some s → (hexColor s).isSome = true)
    (layer : String) (hlayer : ∀ c ∈ layer.toList, isParameter c = true) :
    ∃ ps, painting (fun s => (parseHex s).map (sgrColor layer)) color = .ok ps ∧
      Invisible ps.flatten ∧ (ps = [] ↔ color.isSome = false) := by
  cases color with
  | none => exact ⟨[], rfl, .nil, by simp⟩
  | some s =>
    obtain ⟨rgb, hrgb⟩ := Option.isSome_iff_exists.mp (hcolor s rfl)
    refine ⟨[sgrColor layer rgb], ?_, ?_, by simp⟩
    · rw [painting, parseHex_of_hexColor hrgb]
      rfl
    · rw [List.flatten_cons, List.flatten_nil, List.append_nil, sgrColor_eq]
      exact .sgrSequence (colorParameters_parameter hrgb hlayer)

/-- The sequences that valid colours and a bold face put before a text. -/
theorem paint_prefixes {color : Option Str} (hcolor : ∀ s, color = some s → (hexColor s).isSome = true)
    (isBold : Bool) {bg : Option Str} (hbg : ∀ s, bg = some s → (hexColor s).isSome = true) :
    ∃ ps : List Str, (∀ t, paint t color isBold bg =
        .ok (if ps = [] then t else ps.flatten ++ t ++ reset)) ∧
      Invisible ps.flatten ∧ (ps = [] ↔ (isBold || color.isSome || bg.isSome) = false) := by
  obtain ⟨fore, hfore, hforeInv, hforeNil⟩ := painting_valid hcolor "38" (List.all_eq_true.mp rfl)
  obtain ⟨back, hback, hbackInv, hbackNil⟩ := painting_valid hbg "48" (List.all_eq_true.mp rfl)
  have hbold : Invisible bold := Invisible.sgrSequence (p := ['1']) (List.all_eq_true.mp rfl)
  refine ⟨(if isBold then [bold] else []) ++ fore ++ back, fun t => ?_, ?_, ?_⟩
  · unfold paint
    rw [show painting ansiFg color = .ok fore from hfore, show painting ansiBg bg = .ok back from hback]
    rfl
  · rw [List.flatten_append, List.flatten_append]
    refine (Invisible.append ?_ hforeInv).append hbackInv
    cases isBold with
    | false => exact .nil
    | true =>
      show Invisible (bold ++ [])
      exact hbold.append .nil
  · rw [List.append_eq_nil_iff, List.append_eq_nil_iff, hforeNil, hbackNil]
    cases isBold <;> simp

theorem paint_valid {t : Str} (ht : esc ∉ t) {color : Option Str}
    (hcolor : ∀ s, color = some s → (hexColor s).isSome = true) (isBold : Bool) (bg : Option Str)
    (hbg : ∀ s, bg = some s → (hexColor s).isSome = true) :
    ∃ c, paint t color isBold bg = .ok c ∧ Painted (isBold || color.isSome || bg.isSome) t c := by
  obtain ⟨ps, hpaint, ⟨ts, hreads, hvisible⟩, hnil⟩ := paint_prefixes hcolor isBold hbg
  refine ⟨_, hpaint t, ?_⟩
  by_cases hstyle : (isBold || color.isSome || bg.isSome) = false
  · rw [if_pos (hnil.mpr hstyle), hstyle]
    exact .text ht
  · rw [if_neg fun h => hstyle (hnil.mp h), Bool.eq_true_of_not_eq_false hstyle]
    exact .styled hreads hvisible ht

-- ---------------------------------------------------------------------------
-- A line of painted pieces
-- ---------------------------------------------------------------------------

section Line

variable {α : Type} {on : α → Bool} {t c : α → Str}

theorem Painted.stripSgr {on : Bool} {t c : Str} (h : Painted on t c) : stripSgr c = t := by
  obtain ⟨ts, hreads, hvisible, -⟩ := h.reads
  rw [Terminal.stripSgr, hreads.tokens, hvisible]

/-- Pieces one behind the other. -/
theorem Painted.line {ps : List α} (h : ∀ p ∈ ps, Painted (on p) (t p) (c p)) :
    ∃ ts, Reads (ps.flatMap c) ts ∧ visible ts = ps.flatMap t ∧
      ts.foldl Token.style false = false := by
  induction ps with
  | nil => exact ⟨[], .nil, rfl, rfl⟩
  | cons p ps ih =>
    obtain ⟨ts, hreads, hvisible, hstyle⟩ := (h p (List.mem_cons_self ..)).reads
    obtain ⟨us, hreads', hvisible', hstyle'⟩ := ih fun q hq => h q (List.mem_cons_of_mem _ hq)
    refine ⟨ts ++ us, ?_, ?_, ?_⟩
    · rw [List.flatMap_cons]
      exact hreads.append hreads'
    · rw [visible_append, hvisible, hvisible', List.flatMap_cons]
    · rw [List.foldl_append, hstyle, hstyle']

theorem Painted.isOpen_line {ps : List α} (h : ∀ p ∈ ps, Painted (on p) (t p) (c p)) :
    isOpen (ps.flatMap c) = false := by
  obtain ⟨ts, hreads, -, hstyle⟩ := Painted.line h
  rw [isOpen, hreads.tokens, hstyle]

/-- The last character of a line is that of the last piece that is not empty. -/
theorem getLast_flatMap {ps : List α} {a : Char} :
    (ps.flatMap t).getLast? = some a ↔
      ∃ before p after, ps = before ++ p :: after ∧ (t p).getLast? = some a ∧
        ∀ q ∈ after, t q = [] := by
  constructor
  · intro h
    induction ps using List.reverseRecOn with
    | nil => cases h
    | append_singleton ps p ih =>
      rw [List.flatMap_append, List.flatMap_singleton, List.getLast?_append] at h
      cases hp : (t p).getLast? with
      | some b =>
        rw [hp] at h
        exact ⟨ps, p, [], rfl, hp.trans h, fun _ hq => by cases hq⟩
      | none =>
        rw [hp] at h
        obtain ⟨before, q, after, rfl, hq, hafter⟩ := ih h
        refine ⟨before, q, after ++ [p], by simp, hq, fun r hr => ?_⟩
        rcases List.mem_append.mp hr with hr | hr
        · exact hafter r hr
        · rw [List.mem_singleton.mp hr]
          exact List.getLast?_eq_none_iff.mp hp
  · rintro ⟨before, p, after, rfl, hp, hafter⟩
    have hnil : after.flatMap t = [] := List.flatMap_eq_nil_iff.mpr hafter
    rw [List.flatMap_append, List.flatMap_cons, hnil, List.append_nil, List.getLast?_append, hp]
    rfl

/-- Behind a styled piece there is its reset, up to the next text. -/
theorem Painted.getLast_reset {p : α} {after : List α} (h : ∀ q ∈ p :: after, Painted (on q) (t q) (c q))
    (hafter : ∀ q ∈ after, t q = []) (hon : ∃ q ∈ p :: after, on q = true) :
    ((p :: after).flatMap c).getLast? = some 'm' := by
  induction after using List.reverseRecOn with
  | nil =>
    obtain ⟨q, hq, hon⟩ := hon
    rw [List.mem_singleton] at hq
    rw [List.flatMap_singleton]
    exact (h p (List.mem_cons_self ..)).ending (hq ▸ hon)
  | append_singleton after r ih =>
    have hr : r ∈ p :: (after ++ [r]) := by simp
    rw [← List.cons_append, List.flatMap_append, List.flatMap_singleton, List.getLast?_append]
    cases hronr : on r with
    | true => rw [(h r hr).ending hronr]; rfl
    | false =>
      rw [(h r hr).plain hronr, hafter r (by simp)]
      have hin : ∀ q ∈ p :: after, q ∈ p :: (after ++ [r]) := fun q hq => by
        rw [← List.cons_append]
        exact List.mem_append_left _ hq
      refine ih (fun q hq => h q (hin q hq)) (fun q hq => hafter q (List.mem_append_left _ hq)) ?_
      obtain ⟨q, hq, hon⟩ := hon
      rw [← List.cons_append, List.mem_append, List.mem_singleton] at hq
      rcases hq with hq | rfl
      · exact ⟨q, hq, hon⟩
      · exact absurd (hon.symm.trans hronr) (by decide)

/-- The painted line ends in a newline where the plain one does, unless a reset is behind
that newline. -/
theorem Painted.newline_lost {ps : List α} (h : ∀ p ∈ ps, Painted (on p) (t p) (c p)) :
    ¬ ((ps.flatMap c).getLast? = some '\n' ↔ (ps.flatMap t).getLast? = some '\n') ↔
      ∃ before p after, ps = before ++ p :: after ∧ (t p).getLast? = some '\n' ∧
        (∀ q ∈ after, t q = []) ∧ ∃ q ∈ p :: after, on q = true := by
  constructor
  · intro hne
    by_cases ht : (ps.flatMap t).getLast? = some '\n'
    · obtain ⟨before, p, after, rfl, hp, hafter⟩ := getLast_flatMap.mp ht
      refine ⟨before, p, after, rfl, hp, hafter, ?_⟩
      by_contra hon
      have hsame : ∀ q ∈ p :: after, c q = t q := fun q hq =>
        (h q (List.mem_append_right _ hq)).plain (Bool.eq_false_of_not_eq_true fun hq' => hon ⟨q, hq, hq'⟩)
      refine hne (iff_of_true (getLast_flatMap.mpr ⟨before, p, after, rfl, ?_, fun q hq => ?_⟩) ht)
      · rw [hsame p (List.mem_cons_self ..), hp]
      · rw [hsame q (List.mem_cons_of_mem _ hq), hafter q hq]
    · refine absurd (iff_of_false (fun hc => ht ?_) ht) hne
      obtain ⟨before, p, after, rfl, hp, hafter⟩ := getLast_flatMap.mp hc
      have hsame : ∀ q ∈ p :: after, (c q).getLast? ≠ some 'm' → t q = c q := fun q hq hm =>
        ((h q (List.mem_append_right _ hq)).plain
          (Bool.eq_false_of_not_eq_true fun hon => hm
            ((h q (List.mem_append_right _ hq)).ending hon))).symm
      refine getLast_flatMap.mpr ⟨before, p, after, rfl, ?_, fun q hq => ?_⟩
      · rw [hsame p (List.mem_cons_self ..) (by rw [hp]; decide), hp]
      · rw [hsame q (List.mem_cons_of_mem _ hq) (by rw [hafter q hq]; decide), hafter q hq]
  · rintro ⟨before, p, after, rfl, hp, hafter, hon⟩ hiff
    have ht := getLast_flatMap.mpr ⟨before, p, after, rfl, hp, hafter⟩
    have hm := Painted.getLast_reset (fun q hq => h q (List.mem_append_right _ hq)) hafter hon
    have hc := hiff.mpr ht
    rw [List.flatMap_append, List.getLast?_append, hm, Option.some_or] at hc
    exact absurd hc (by decide)

end Line

-- ---------------------------------------------------------------------------
-- The text of a record
-- ---------------------------------------------------------------------------

/-- A format that has the time asks for it. -/
theorem usesTime_of_mem {fmt : List Piece} (h : .field .asctime ∈ fmt) : usesTime fmt = true := by
  obtain ⟨before, after, rfl⟩ := List.append_of_mem h
  refine decide_eq_true ⟨sourceOf before, ['s'] ++ sourceOf after, ?_⟩
  have hsource : (Piece.field .asctime).source = "%(asctime)".toList ++ ['s'] := rfl
  unfold sourceOf
  rw [List.flatMap_append, List.flatMap_cons, hsource]
  simp only [List.append_assoc]

theorem formatMessage_shown {fmt : List Piece} {x : Record} {message time : Str}
    (hfmt : PlainFormat fmt) (hmessage : x.message = some message)
    (htime : .field .asctime ∈ fmt → x.asctime = some time) :
    formatMessage fmt x = .ok (fmt.flatMap (x.shown message time)) := by
  induction fmt with
  | nil => rfl
  | cons p ps ih =>
    have hp : x.piece p = .ok (x.shown message time p) := by
      match p with
      | .literal _ => rfl
      | .field .levelname => rfl
      | .field .name => rfl
      | .field .asctime => rw [Record.piece, Record.field, htime (List.mem_cons_self ..)]; rfl
      | .field .message => rw [Record.piece, Record.field, hmessage]; rfl
      | .field (.other key) => exact absurd (hfmt _ (List.mem_cons_self ..)) Bool.false_ne_true
    have hps := ih (fun q hq => hfmt q (List.mem_cons_of_mem _ hq))
      fun h => htime (List.mem_cons_of_mem _ h)
    rw [formatMessage, hp, hps]
    rfl

theorem superText_getMessage {fmt : List Piece} {x : Record} {e : FormatError}
    {formatTime : Record → Except FormatError Str} (h : x.getMessage = .error e) :
    superText fmt formatTime x = .error e := by
  rw [superText, h]
  rfl

theorem superText_stamped {fmt : List Piece} {x : Record} {message : Str}
    {formatTime : Record → Except FormatError Str} (h : x.getMessage = .ok message) :
    superText fmt formatTime x =
      (stamped fmt formatTime { x with message := some message }).bind fun y =>
        (formatMessage fmt y).map (withTail (cacheTraceback y)) := by
  rw [superText, h]
  show ((stamped fmt formatTime _).bind fun y => _) = _
  congr 1

theorem truthy_ne_nil {o : Option Str} {s : Str} (h : truthy o = some s) : s ≠ [] := by
  simpa using (Option.filter_eq_some_iff.mp h).2

theorem onNewLine_ne_nil {s text : Str} (h : text ≠ []) : onNewLine s text ≠ [] := by
  simp [onNewLine, h]

/-- The stack behind a traceback is where it is behind the traceback alone. -/
theorem onNewLine_onNewLine {s traceback stack : Str} (h : traceback ≠ []) :
    onNewLine (onNewLine s traceback) stack = onNewLine s (onNewLine traceback stack) := by
  have hlast : (onNewLine s traceback).getLast? = traceback.getLast? := by
    rw [onNewLine, List.getLast?_append]
    cases hlast : traceback.getLast? with
    | none => exact absurd (List.getLast?_eq_none_iff.mp hlast) h
    | some c => rfl
  unfold onNewLine at hlast ⊢
  rw [hlast]
  by_cases hnl : traceback.getLast? = some '\n'
  · rw [if_pos hnl, if_pos hnl, List.append_assoc]
  · rw [if_neg hnl, if_neg hnl]
    simp only [List.append_assoc]

theorem withTail_eq (x : Record) (s : Str) :
    withTail (cacheTraceback x) s =
      if tailText x = [] then s else onNewLine s (tailText x) := by
  have hstack : (cacheTraceback x).stackInfo = x.stackInfo := by
    unfold cacheTraceback
    split <;> rfl
  unfold withTail tailText
  rw [hstack]
  cases ht : truthy (cacheTraceback x).excText with
  | none =>
    cases hs : truthy x.stackInfo with
    | none => rfl
    | some stack => exact (if_neg (truthy_ne_nil hs)).symm
  | some traceback =>
    cases hs : truthy x.stackInfo with
    | none => exact (if_neg (truthy_ne_nil ht)).symm
    | some stack =>
      refine Eq.trans ?_ (if_neg (onNewLine_ne_nil (truthy_ne_nil hs))).symm
      exact onNewLine_onNewLine (truthy_ne_nil ht)

theorem tailText_congr {x y : Record} (hinfo : x.excInfo = y.excInfo) (htext : x.excText = y.excText)
    (hstack : x.stackInfo = y.stackInfo) : tailText x = tailText y := by
  unfold tailText cacheTraceback
  rw [hinfo, hstack]
  cases y.excInfo with
  | none => rw [htext]
  | some traceback => simp only [htext]

/-- The text of a record that has a message and a time. -/
theorem superText_shown {fmt : List Piece} {x : Record} {message : Str} (time : Str)
    (formatTime : Record → Except FormatError Str) (hfmt : PlainFormat fmt)
    (hmessage : x.getMessage = .ok message)
    (htime : usesTime fmt = true → formatTime { x with message := some message } = .ok time) :
    superText fmt formatTime x =
      .ok (if tailText x = [] then fmt.flatMap (x.shown message time)
        else onNewLine (fmt.flatMap (x.shown message time)) (tailText x)) := by
  have hbehind : ∀ y : Record, tailText y = tailText x →
      formatMessage fmt y = .ok (fmt.flatMap (x.shown message time)) →
      (formatMessage fmt y).map (withTail (cacheTraceback y)) =
        .ok (if tailText x = [] then fmt.flatMap (x.shown message time)
          else onNewLine (fmt.flatMap (x.shown message time)) (tailText x)) := by
    intro y htail hline
    rw [hline, Except.map, withTail_eq, htail]
  rw [superText_stamped hmessage, stamped]
  by_cases huse : usesTime fmt = true
  · rw [if_pos huse, htime huse]
    exact hbehind { x with message := some message, asctime := some time }
      (tailText_congr rfl rfl rfl) (formatMessage_shown hfmt rfl fun _ => rfl)
  · rw [if_neg huse]
    exact hbehind { x with message := some message } (tailText_congr rfl rfl rfl)
      (formatMessage_shown hfmt rfl fun h => absurd (usesTime_of_mem h) huse)

/-- Without a time that the format asks for there is no text. -/
theorem superText_noTime {fmt : List Piece} {x : Record} {message : Str} {e : FormatError}
    {formatTime : Record → Except FormatError Str} (hmessage : x.getMessage = .ok message)
    (huse : usesTime fmt = true)
    (htime : formatTime { x with message := some message } = .error e) :
    superText fmt formatTime x = .error e := by
  rw [superText_stamped hmessage, stamped, if_pos huse, htime]
  rfl

-- ---------------------------------------------------------------------------
-- No escape in a level or a time
-- ---------------------------------------------------------------------------

theorem esc_not_digits (n : Nat) : esc ∉ Nat.toDigits 10 n := by
  intro h
  exact absurd (digit_parameter h) (by decide)

theorem esc_not_padded (width n : Nat) : esc ∉ padded width n := by
  rw [padded, List.mem_append, not_or]
  refine ⟨fun h => ?_, esc_not_digits n⟩
  exact absurd (List.eq_of_mem_replicate h) (by decide)

theorem esc_not_isoformat (t : UtcTime) : esc ∉ t.isoformat := by
  have hfraction : esc ∉ if t.microsecond = 0 then [] else '.' :: padded 6 t.microsecond := by
    split
    · simp
    · rw [List.mem_cons, not_or]
      exact ⟨by decide, esc_not_padded _ _⟩
  have hdash : esc ∉ ['-'] := by decide
  have hcolon : esc ∉ [':'] := by decide
  have hutc : esc ∉ "+00:00".toList := by decide
  simp only [UtcTime.isoformat, List.mem_append, not_or]
  exact ⟨⟨⟨⟨⟨⟨⟨⟨⟨⟨⟨⟨esc_not_padded _ _, hdash⟩, esc_not_padded _ _⟩, hdash⟩, esc_not_padded _ _⟩,
    by decide⟩, esc_not_padded _ _⟩, hcolon⟩, esc_not_padded _ _⟩, hcolon⟩, esc_not_padded _ _⟩,
    hfraction⟩, hutc⟩

theorem esc_not_levelAbbreviation (n : Int) : esc ∉ (levelAbbreviation n).toList := by
  have hdigits : esc ∉ (toString n.natAbs).toList := by
    rw [show (toString n.natAbs).toList = Nat.toDigits 10 n.natAbs by simp [Nat.toString_eq_repr]]
    exact esc_not_digits _
  have hzeros : ∀ k, esc ∉ List.replicate k '0' := fun k h =>
    absurd (List.eq_of_mem_replicate h) (by decide)
  unfold levelAbbreviation
  repeat' split
  · decide
  · decide
  · decide
  · decide
  · decide
  · unfold threeDigits
    split
    · simp only [String.toList_append, String.toList_ofList, List.mem_append, not_or]
      exact ⟨⟨by decide, hzeros _⟩, hdigits⟩
    · simp only [String.toList_append, String.toList_ofList, List.mem_append, not_or]
      exact ⟨hzeros _, hdigits⟩

-- ---------------------------------------------------------------------------
-- Both texts
-- ---------------------------------------------------------------------------

section Both

variable {fmt : Option (List Piece)} {theme : LoggingTheme} {x : Record} {message time : Str}

/-- What the palette makes of a record. -/
structure PaintedRecord (palette : Palette) (x y : Record) (message colored : Str) : Prop where
  level : Painted true (levelAbbreviation x.levelno).toList y.levelname
  name : Painted palette.loggerName.isSome x.name y.name
  message : Painted true message colored
  getMessage : y.getMessage = .ok colored
  created : y.created = x.created
  tail : tailText y = tailText x

theorem painted_paints {f : ScietexFormatter} {colored level name : Str}
    (hmessage : x.getMessage = .ok message)
    (hpaint : paint message (some f.usedTheme.palette.foreground) false none = .ok colored)
    (hlevel : paint (levelAbbreviation x.levelno).toList (f.usedTheme.palette.levelColor x.levelno)
      true (if x.levelno = 50 then f.usedTheme.palette.criticalBg else none) = .ok level)
    (hname : paint x.name f.usedTheme.palette.loggerName false none = .ok name) :
    f.painted x = .ok { x with levelname := level, name := name, msg := .text colored, args := none } := by
  unfold ScietexFormatter.painted
  rw [hmessage]
  show (do let message ← paint message _ _ _; _ : Except FormatError Record) = _
  rw [hpaint]
  show (do let level ← paint _ _ _ _; _ : Except FormatError Record) = _
  rw [hlevel]
  show (do let name ← paint _ _ _ _; _ : Except FormatError Record) = _
  rw [hname]
  rfl

theorem not_set (s : Str) (h : none = some s) : (hexColor s).isSome = true := by cases h

theorem Palette.Valid.foreground {p : Palette} (h : p.Valid) :
    ∀ s, some p.foreground = some s → (hexColor s).isSome = true := h _ (by simp [Palette.painted])

theorem Palette.Valid.loggerName {p : Palette} (h : p.Valid) :
    ∀ s, p.loggerName = some s → (hexColor s).isSome = true := h _ (by simp [Palette.painted])

theorem Palette.Valid.background {p : Palette} (h : p.Valid) (levelno : Int) :
    ∀ s, (if levelno = 50 then p.criticalBg else none) = some s → (hexColor s).isSome = true := by
  split
  · exact h _ (by simp [Palette.painted])
  · exact not_set

theorem painted_valid {f : ScietexFormatter} (hvalid : f.usedTheme.palette.Valid) (hclean : x.Clean)
    (hmessage : x.getMessage = .ok message) :
    ∃ y colored, f.painted x = .ok y ∧
      PaintedRecord f.usedTheme.palette x y message colored := by
  obtain ⟨colored, hpaint, hcolored⟩ :=
    paint_valid (hclean.message message hmessage) hvalid.foreground false none not_set
  obtain ⟨level, hpaint', hlevel⟩ := paint_valid (esc_not_levelAbbreviation x.levelno)
    (fun s hs => hvalid.levelColor hs) true _ (hvalid.background x.levelno)
  obtain ⟨name, hpaint'', hname⟩ := paint_valid hclean.name hvalid.loggerName false none not_set
  refine ⟨_, colored, painted_paints hmessage hpaint hpaint' hpaint'', ?_, ?_, hcolored, rfl, rfl,
    tailText_congr rfl rfl rfl⟩
  · rwa [Bool.true_or, Bool.true_or] at hlevel
  · rwa [Bool.false_or, Option.isSome_none, Bool.or_false] at hname

theorem PaintedRecord.piece {palette : Palette} {y : Record} {colored : Str}
    (h : PaintedRecord palette x y message colored) (htime : esc ∉ time) {pieces : List Piece}
    (hfmt : PlainFormat pieces) : ∀ p ∈ pieces,
      Painted (palette.styles p) (x.plain message time p) (y.shown colored (dim ++ time ++ reset) p) := by
  intro p hp
  match p with
  | .literal text => exact .text (of_decide_eq_true (hfmt _ hp))
  | .field .asctime =>
    exact .styled (Reads.sgrSequence (p := ['2']) (List.all_eq_true.mp rfl)) rfl htime
  | .field .levelname => exact h.level
  | .field .name => exact h.name
  | .field .message => exact h.message
  | .field (.other key) => exact absurd (hfmt _ hp) Bool.false_ne_true

theorem Record.Clean.tail (h : x.Clean) : esc ∉ tailText x := by
  have hjoin : ∀ {s t : Str}, esc ∉ s → esc ∉ t → esc ∉ onNewLine s t := by
    intro s t hs ht
    rw [onNewLine, List.mem_append, not_or]
    refine ⟨?_, ht⟩
    split
    · exact hs
    · rw [List.mem_append, not_or]
      exact ⟨hs, by decide⟩
  unfold tailText
  split
  · simp
  · exact h.traceback _ ‹_›
  · exact h.stack _ ‹_›
  · exact hjoin (h.traceback _ ‹_›) (h.stack _ ‹_›)

theorem PlainFormat.stylePieces {pieces : List Piece} (h : PlainFormat pieces) :
    PlainFormat (stylePieces pieces) := by
  unfold ScietexLogging.stylePieces
  split
  · intro p hp
    rw [List.mem_singleton.mp hp]
    rfl
  · exact h

/-- A line and the tail behind it, which begins on a new line. -/
def withTailText (x : Record) (line : Str) : Str :=
  if tailText x = [] then line else onNewLine line (tailText x)

theorem PlainFormat.pieces (h : PlainFormat (fmt.getD ScietexFormatter.defaultFmt))
    (theme : LoggingTheme) (color : Bool) :
    PlainFormat (themed fmt theme color).pieces := h.stylePieces

/-- Both texts of a record that has a message and a time. -/
theorem texts_says (hvalid : theme.palette.Valid)
    (hfmt : PlainFormat (fmt.getD ScietexFormatter.defaultFmt)) (hclean : x.Clean)
    (hsaid : x.Says (themed fmt theme true).pieces message time) :
    ∃ y colored, PaintedRecord theme.palette x y message colored ∧
      (themed fmt theme true).text x = .ok (withTailText x ((themed fmt theme true).pieces.flatMap
        (y.shown colored (dim ++ time ++ reset)))) ∧
      (themed fmt theme false).text x = .ok (withTailText x
        ((themed fmt theme true).pieces.flatMap (x.plain message time))) := by
  obtain ⟨hmessage, htime⟩ := hsaid
  obtain ⟨y, colored, hy, hpainted⟩ :=
    painted_valid (f := themed fmt theme true) hvalid hclean hmessage
  refine ⟨y, colored, hpainted, ?_, ?_⟩
  · have htext := superText_shown (dim ++ time ++ reset)
      (fun x => (themed fmt theme true).formatTime x none) (hfmt.pieces theme true)
      hpainted.getMessage fun huse => by
        show (do let t ← (raising y.created).map _; _ : Except FormatError Str) = _
        rw [hpainted.created, show (raising x.created).map _ = _ from htime huse]
        rfl
    rw [hpainted.tail] at htext
    rw [ScietexFormatter.text, show (themed fmt theme true).prepared x = .ok y from hy]
    exact htext
  · have htext := superText_shown (x := ScietexFormatter.abbreviated x) time
      (fun x => (themed fmt theme false).formatTime x none) (hfmt.pieces theme false)
      hmessage fun huse => by
        show (do let t ← x.isoTimestamp; _ : Except FormatError Str) = _
        rw [htime huse]
        rfl
    rw [tailText_congr (x := ScietexFormatter.abbreviated x) (y := x) rfl rfl rfl] at htext
    exact htext

/-- A record that cannot say its message, or its time where the format has it, is refused
alike. -/
theorem texts_refused (hvalid : theme.palette.Valid) (hclean : x.Clean)
    (hsaid : ∀ message time, ¬ x.Says (themed fmt theme true).pieces message time) :
    ∃ e, (themed fmt theme true).text x = .error e ∧ (themed fmt theme false).text x = .error e := by
  cases hmessage : x.getMessage with
  | error e =>
    refine ⟨e, ?_, superText_getMessage hmessage⟩
    have hpainted : (themed fmt theme true).painted x = .error e := by
      rw [ScietexFormatter.painted, hmessage]
      rfl
    rw [ScietexFormatter.text, show (themed fmt theme true).prepared x = .error e from hpainted]
    rfl
  | ok message =>
    cases htime : x.isoTimestamp with
    | ok time => exact absurd ⟨hmessage, fun _ => htime⟩ (hsaid message time)
    | error e =>
      have huse : usesTime (themed fmt theme true).pieces = true := by
        by_contra huse
        exact hsaid message [] ⟨hmessage, fun h => absurd h huse⟩
      obtain ⟨y, colored, hy, hpainted⟩ :=
        painted_valid (f := themed fmt theme true) hvalid hclean hmessage
      refine ⟨e, ?_, ?_⟩
      · rw [ScietexFormatter.text, show (themed fmt theme true).prepared x = .ok y from hy]
        refine superText_noTime hpainted.getMessage huse ?_
        show (do let t ← (raising y.created).map _; _ : Except FormatError Str) = _
        rw [hpainted.created, show (raising x.created).map _ = _ from htime]
        rfl
      · refine superText_noTime (x := ScietexFormatter.abbreviated x) hmessage huse ?_
        show (do let t ← x.isoTimestamp; _ : Except FormatError Str) = _
        rw [htime]
        rfl

/-- The painted line and the tail behind it, without the sequences. -/
theorem withTailText_reads {x : Record} {C : Str} {ts : List Token} (htail : esc ∉ tailText x)
    (hreads : Reads C ts) (hstyle : ts.foldl Token.style false = false) :
    stripSgr (withTailText x C) = visible ts ++ (withTailText x C).drop C.length ∧
      isOpen (withTailText x C) = false := by
  have hsuffix : ∃ s, withTailText x C = C ++ s ∧ esc ∉ s := by
    unfold withTailText onNewLine
    split
    · exact ⟨[], (List.append_nil C).symm, by simp⟩
    · split
      · exact ⟨tailText x, rfl, htail⟩
      · refine ⟨'\n' :: tailText x, by simp, ?_⟩
        rw [List.mem_cons, not_or]
        exact ⟨by decide, htail⟩
  obtain ⟨s, hs, hclean⟩ := hsuffix
  have hall : tokens (withTailText x C) = ts ++ s.map .char := by
    rw [hs]
    exact (hreads.append (.text hclean)).tokens
  rw [stripSgr, isOpen, hall, visible_append, visible_chars, List.foldl_append, hstyle, style_chars, hs,
    List.drop_left]
  exact ⟨rfl, rfl⟩

/-- The tail is put behind the same newline exactly where both lines end in one or neither
does. -/
theorem withTailText_drop_iff {x : Record} {C L : Str} :
    (withTailText x L = L ++ (withTailText x C).drop C.length) ↔
      ¬ (tailText x ≠ [] ∧ ¬ (C.getLast? = some '\n' ↔ L.getLast? = some '\n')) := by
  unfold withTailText onNewLine
  by_cases htail : tailText x = []
  · simp [htail]
  · by_cases hC : C.getLast? = some '\n' <;> by_cases hL : L.getLast? = some '\n' <;>
      simp [htail, hC, hL]

/-- The time of a record has no escape, and a format without the time needs none. -/
theorem Record.Says.clean {pieces : List Piece} (h : x.Says pieces message time) :
    ∃ time', x.Says pieces message time' ∧ esc ∉ time' := by
  by_cases huse : usesTime pieces = true
  · refine ⟨time, h, ?_⟩
    have htime := h.2 huse
    unfold Record.isoTimestamp at htime
    cases hcreated : x.created with
    | error e =>
      rw [hcreated] at htime
      cases htime
    | ok u =>
      rw [hcreated] at htime
      rw [← Except.ok.inj htime]
      exact esc_not_isoformat u
  · exact ⟨[], ⟨h.1, fun huse' => absurd huse' huse⟩, by simp⟩

/-- What a record says is no matter of choice. -/
theorem Record.Says.plain_eq {pieces : List Piece} {message' time' : Str}
    (h : x.Says pieces message time) (h' : x.Says pieces message' time') :
    ∀ p ∈ pieces, x.plain message time p = x.plain message' time' p := by
  have hmessage : message = message' := Except.ok.inj (h.1.symm.trans h'.1)
  intro p hp
  match p with
  | .field .asctime =>
    have huse := usesTime_of_mem hp
    exact Except.ok.inj ((h.2 huse).symm.trans (h'.2 huse))
  | .field .message => exact hmessage
  | .literal _ => rfl
  | .field .levelname => rfl
  | .field .name => rfl
  | .field (.other _) => rfl

/-- The newline of the plain line is lost behind a reset. -/
theorem resetBehindNewline_iff {pieces : List Piece} {palette : Palette} {y : Record} {colored : Str}
    (hfmt : PlainFormat pieces) (hsaid : x.Says pieces message time) (htime : esc ∉ time)
    (h : PaintedRecord palette x y message colored) :
    ResetBehindNewline pieces palette x ↔
      tailText x ≠ [] ∧
        ¬ ((pieces.flatMap (y.shown colored (dim ++ time ++ reset))).getLast? = some '\n' ↔
          (pieces.flatMap (x.plain message time)).getLast? = some '\n') := by
  rw [Painted.newline_lost (h.piece htime hfmt)]
  refine and_congr_right fun _ => ⟨?_, fun hlost => ⟨message, time, hsaid, hlost⟩⟩
  rintro ⟨message', time', hsaid', before, p, after, rfl, hp, hafter, hon⟩
  have hsame := hsaid.plain_eq hsaid'
  refine ⟨before, p, after, rfl, ?_, fun q hq => ?_, hon⟩
  · rw [hsame p (by simp), hp]
  · rw [hsame q (by simp [hq]), hafter q hq]

theorem closed_withTailText {pieces : List Piece} {palette : Palette} {y : Record} {colored : Str}
    (hfmt : PlainFormat pieces) (htime : esc ∉ time) (hclean : x.Clean)
    (h : PaintedRecord palette x y message colored) :
    Closed pieces x message time
      (withTailText x (pieces.flatMap (y.shown colored (dim ++ time ++ reset)))) := by
  have hpiece := h.piece htime hfmt
  obtain ⟨ts, hreads, -, hstyle⟩ := Painted.line hpiece
  refine ⟨pieces.map (y.shown colored (dim ++ time ++ reset)),
    (withTailText x (pieces.flatMap (y.shown colored (dim ++ time ++ reset)))).drop
      (pieces.flatMap (y.shown colored (dim ++ time ++ reset))).length, ?_, ?_, fun k => ?_,
    (withTailText_reads hclean.tail hreads hstyle).2⟩
  · rw [← List.flatMap_def]
    unfold withTailText onNewLine
    split
    · simp
    · split <;> simp
  · rw [List.forall₂_map_right_iff, List.forall₂_same]
    refine fun p hp => ⟨(hpiece p hp).stripSgr, ?_⟩
    rintro text rfl
    rfl
  · rw [← List.map_take, ← List.flatMap_def]
    exact Painted.isOpen_line fun p hp => hpiece p (List.mem_of_mem_take hp)

end Both

/-- **Coloured output is the plain output and removable, closed styling**, and no record
of the caller is changed, for every theme, format and record, unless a traceback or a
stack follows a newline that has a reset behind it. -/
theorem colored_removable (fmt : Option (List Piece)) (theme : LoggingTheme) (h : Records) (r : Nat)
    (hvalid : theme.palette.Valid) (hfmt : PlainFormat (fmt.getD ScietexFormatter.defaultFmt))
    (hclean : (h.record r).Clean) :
    Removable fmt theme h r ↔
      ¬ ResetBehindNewline (themed fmt theme true).pieces theme.palette (h.record r) := by
  obtain ⟨hc, hcolored, hkept⟩ := (themed fmt theme true).exec_format r h
  obtain ⟨hp, hplain, hkept'⟩ := (themed fmt theme false).exec_format r h
  have hleft : ∀ i < h.count, hc.record i = h.record i ∧ hp.record i = h.record i :=
    fun i hi => ⟨hkept i hi, hkept' i hi⟩
  rw [Removable, hcolored, hplain]
  by_cases hsaid : ∃ message time, (h.record r).Says (themed fmt theme true).pieces message time
  · obtain ⟨message, time, hsaid⟩ := hsaid
    obtain ⟨time, hsaid, htime⟩ := hsaid.clean
    obtain ⟨y, colored, hpainted, htext, htext'⟩ := texts_says hvalid hfmt hclean hsaid
    obtain ⟨ts, hreads, hvisible, hstyle⟩ := Painted.line (hpainted.piece htime (hfmt.pieces theme true))
    have hclosed := closed_withTailText (hfmt.pieces theme true) htime hclean hpainted
    rw [resetBehindNewline_iff (hfmt.pieces theme true) hsaid htime hpainted, ← withTailText_drop_iff,
      htext, htext']
    have hstrip := (withTailText_reads hclean.tail hreads hstyle).1
    rw [hvisible] at hstrip
    constructor
    · rintro ⟨heq, -, -⟩
      rw [← hstrip]
      exact (Except.ok.inj heq).symm
    · intro heq
      refine ⟨?_, fun s hs => ⟨message, time, hsaid, Except.ok.inj hs ▸ hclosed⟩, hleft⟩
      rw [Except.map, hstrip, heq]
  · have hnone : ∀ message time, ¬ (h.record r).Says (themed fmt theme true).pieces message time :=
      fun message time hm => hsaid ⟨message, time, hm⟩
    obtain ⟨e, hrefused, hrefused'⟩ := texts_refused hvalid hclean hnone
    refine iff_of_true ⟨?_, ?_, hleft⟩ ?_
    · rw [hrefused, hrefused']
      rfl
    · intro s hs
      rw [hrefused] at hs
      cases hs
    · rintro ⟨-, message, time, hsaid', -⟩
      exact hnone message time hsaid'

/-- A record of one text, with a traceback or without. -/
def textRecord (levelno : Int) (text : Str) (traceback : Option Str) : Record where
  name := "app".toList
  levelno := levelno
  levelname := []
  msg := .text text
  args := none
  created := .ok ⟨2024, 5, 1, 12, 0, 0, 0⟩
  strftime _ := .ok []
  excInfo := traceback
  excText := none
  stackInfo := none
  message := none
  asctime := none
  others _ := none
  extras := []

def Records.one (x : Record) : Records := { record := fun _ => x, count := 1 }

theorem textRecord_clean {levelno : Int} {text : Str} {traceback : Option Str} (htext : esc ∉ text)
    (htraceback : ∀ s, traceback = some s → esc ∉ s) : (textRecord levelno text traceback).Clean where
  name := show esc ∉ "app".toList by decide
  message s hs := by rwa [← Except.ok.inj hs]
  traceback s hs := by
    cases traceback with
    | none => cases hs
    | some t =>
      have ht : truthy (some t) = some s := hs
      rw [← Option.some.inj (Option.filter_eq_some_iff.mp ht).1]
      exact htraceback t rfl
  stack s hs := by cases hs

/-- A critical record on the dark theme. -/
theorem colored_removable_critical :
    Removable none scietexDark (.one (textRecord 50 "disk full".toList none)) 0 ↔
      ¬ ResetBehindNewline (themed none scietexDark true).pieces scietexDark.palette
        (textRecord 50 "disk full".toList none) :=
  colored_removable none scietexDark (.one (textRecord 50 "disk full".toList none)) 0 builtin_valid.2.2
    (by decide) (textRecord_clean (by decide) fun s hs => by cases hs)

/-- A message that ends in a newline, with a traceback behind it: the coloured output has
an empty line between them. -/
theorem colored_empty_line : ¬ ∀ (fmt : Option (List Piece)) (theme : LoggingTheme) (h : Records) (r : Nat),
    theme.palette.Valid → PlainFormat (fmt.getD ScietexFormatter.defaultFmt) →
      (h.record r).Clean → Removable fmt theme h r := by
  intro hall
  have hremovable := (hall (some [.field .message]) scietexDark
    (.one (textRecord 40 "up\n".toList (some "Boom".toList))) 0 builtin_valid.2.2
    (by decide) (textRecord_clean (by decide) (by decide))).1
  have hcolored : (((themed (some [.field .message]) scietexDark true).format 0).exec
      (.one (textRecord 40 "up\n".toList (some "Boom".toList)))).1.map stripSgr =
        .ok "up\n\nBoom".toList := by rfl
  have hplain : (((themed (some [.field .message]) scietexDark false).format 0).exec
      (.one (textRecord 40 "up\n".toList (some "Boom".toList)))).1 = .ok "up\nBoom".toList := by rfl
  rw [hcolored, hplain] at hremovable
  exact absurd (Except.ok.inj hremovable) (by decide)

end ScietexLogging
