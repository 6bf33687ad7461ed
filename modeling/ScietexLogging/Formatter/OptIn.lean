import ScietexLogging.Formatter.Shown

/-!
# Formatter — colour is opted into

`resolve_color` decides on colour by what was asked for, the environment and the stream, and
`ConsoleHandler` asks it for a theme that was given without a decision.

* `escapes_iff_asked` — escapes are written to the console exactly where a theme was given
                        and colour asked for, or found to be fit.
-/

namespace ScietexLogging

open Posix Python Terminal

-- ---------------------------------------------------------------------------
-- resolve_color
-- ---------------------------------------------------------------------------

/-- `os.environ`, as far as it is looked at. -/
structure Environment where
  forceColor : Option Str
  noColor : Option Str

/-- A stream, by its `isatty`: it may have none, and calling it may raise. -/
structure TextStream where
  isatty : Option (Except String Bool)

def TextStream.terminal (stream : TextStream) : Bool :=
  match stream.isatty with
  | some (.ok answer) => answer
  | some (.error _) | none => false

def resolveColor (env : Environment) (stream : Option TextStream) (color forceColor noColor : Option Bool) :
    Bool :=
  if forceColor = some true then true
  else if noColor = some true then false
  else
    match color with
    | some color => color
    | none =>
      if env.forceColor.isSome && env.forceColor ≠ some "0".toList then true
      else if env.noColor.isSome then false
      else
        match stream with
        | none => false
        | some stream => stream.terminal

/-- The formatter that `ConsoleHandler` makes where it was given none. -/
def consoleFormatter (env : Environment) (stdout : Option TextStream) (theme : Option LoggingTheme)
    (color : Option Bool) : ScietexFormatter :=
  match theme with
  | none => {}
  | some theme =>
    { theme := some theme
      color := some (match color with
        | some color => color
        | none => resolveColor env stdout none none none) }

/-- A theme was given, and colour asked for by the caller or by `FORCE_COLOR`; or it was left
to the stream, which is a terminal, and `NO_COLOR` is not there. -/
def AskedFor (env : Environment) (stdout : Option TextStream) (theme : Option LoggingTheme)
    (color : Option Bool) : Prop :=
  theme ≠ none ∧ (color = some true ∨ color = none ∧
    ((∃ v, env.forceColor = some v ∧ v ≠ "0".toList) ∨
      env.noColor = none ∧ ∃ stream, stdout = some stream ∧ stream.isatty = some (.ok true)))

theorem TextStream.terminal_iff (stream : TextStream) :
    stream.terminal = true ↔ stream.isatty = some (.ok true) := by
  unfold TextStream.terminal
  cases stream.isatty with
  | none => simp
  | some answer => cases answer <;> simp

theorem resolveColor_iff (env : Environment) (stdout : Option TextStream) :
    resolveColor env stdout none none none = true ↔
      (∃ v, env.forceColor = some v ∧ v ≠ "0".toList) ∨
        env.noColor = none ∧ ∃ stream, stdout = some stream ∧ stream.isatty = some (.ok true) := by
  have hterminal : ∀ {stream : TextStream}, stream.terminal = true ↔ stream.isatty = some (.ok true) :=
    fun {stream} => stream.terminal_iff
  unfold resolveColor
  cases hforce : env.forceColor with
  | none => cases env.noColor <;> cases stdout <;> simp [hterminal]
  | some v =>
    by_cases hv : v = "0".toList
    · cases env.noColor <;> cases stdout <;> simp [hv, hterminal]
    · exact iff_of_true (by simp [show ¬ v = ['0'] from hv]) (.inl ⟨v, rfl, hv⟩)

theorem inColor_iff (env : Environment) (stdout : Option TextStream) (theme : Option LoggingTheme)
    (color : Option Bool) :
    (consoleFormatter env stdout theme color).inColor = true ↔ AskedFor env stdout theme color := by
  unfold consoleFormatter AskedFor
  cases theme with
  | none => exact iff_of_false Bool.false_ne_true fun h => h.1 rfl
  | some theme =>
    cases color with
    | none => simpa [ScietexFormatter.inColor] using resolveColor_iff env stdout
    | some color => simp [ScietexFormatter.inColor]

-- ---------------------------------------------------------------------------
-- Escapes
-- ---------------------------------------------------------------------------

section Escapes

variable {theme : LoggingTheme} {x : Record} {message time s : Str}

theorem levelAbbreviation_ne_nil (n : Int) : (levelAbbreviation n).toList ≠ [] := by
  have hdigits : (toString n.natAbs).toList ≠ [] := by
    rw [show (toString n.natAbs).toList = Nat.toDigits 10 n.natAbs by simp [Nat.toString_eq_repr]]
    exact Nat.toDigits_ne_nil
  unfold levelAbbreviation
  repeat' split
  · decide
  · decide
  · decide
  · decide
  · decide
  · unfold threeDigits
    split
    · simp
    · rw [String.toList_append]
      exact List.append_ne_nil_of_right_ne_nil _ hdigits

/-- What is shown in a style has an escape before it. -/
theorem esc_mem_of_shown {shown : List (Char × Style)} (hdisplay : display s = shown)
    (hstyled : ∃ p ∈ shown, p.2 ≠ {}) : esc ∈ s := by
  by_contra hesc
  obtain ⟨p, hp, hne⟩ := hstyled
  rw [← hdisplay, (Shows.text hesc).display] at hp
  obtain ⟨c, -, rfl⟩ := List.mem_map.mp hp
  exact hne rfl

/-- In colour, there is the level at least. -/
theorem esc_mem_colored (hshown : ShownIn theme.palette.style ScietexFormatter.defaultFmt x s) : esc ∈ s := by
  obtain ⟨message, time, rest, -, -, hdisplay⟩ := hshown
  refine esc_mem_of_shown hdisplay ?_
  obtain ⟨c, cs, hc⟩ := List.exists_cons_of_ne_nil (levelAbbreviation_ne_nil x.levelno)
  refine ⟨(c, theme.palette.style x.levelno (.field .levelname)),
    List.mem_append_left _ (List.mem_flatMap.mpr ⟨.field .levelname, by decide, ?_⟩), fun heq => ?_⟩
  · refine List.mem_map_of_mem ?_
    show c ∈ (levelAbbreviation x.levelno).toList
    rw [hc]
    exact List.mem_cons_self
  · exact absurd (congrArg Style.bold heq) (by simp [Palette.style])

/-- Without colour, there is none. -/
theorem esc_not_mem_plain {pieces : List Piece} (hfmt : PlainFormat pieces) (hclean : x.Clean)
    (hmessage : x.getMessage = .ok message) (htime : esc ∉ time) :
    esc ∉ withTailText x (pieces.flatMap (x.plain message time)) := by
  have hline : esc ∉ pieces.flatMap (x.plain message time) := by
    intro hmem
    obtain ⟨p, hp, hc⟩ := List.mem_flatMap.mp hmem
    have hplain := hfmt p hp
    match p with
    | .literal text => exact of_decide_eq_true hplain hc
    | .field .asctime => exact htime hc
    | .field .levelname => exact esc_not_levelAbbreviation x.levelno hc
    | .field .name => exact hclean.name hc
    | .field .message => exact hclean.message message hmessage hc
    | .field (.other key) => cases hplain
  unfold withTailText onNewLine
  split
  · exact hline
  · rw [List.mem_append, not_or]
    refine ⟨?_, hclean.tail⟩
    split
    · exact hline
    · rw [List.mem_append, not_or]
      exact ⟨hline, by decide⟩

theorem esc_not_mem_uncolored (hvalid : theme.palette.Valid) (hclean : x.Clean)
    (hok : (themed none theme false).text x = .ok s) : esc ∉ s := by
  have hfmt : PlainFormat ((none : Option (List Piece)).getD ScietexFormatter.defaultFmt) := by decide
  by_cases hsaid : ∃ message time, x.Says (themed none theme true).pieces message time
  · obtain ⟨message, time, hsaid⟩ := hsaid
    obtain ⟨time, hsaid, htime⟩ := hsaid.clean
    obtain ⟨y, colored, -, -, htext⟩ := texts_says hvalid hfmt hclean hsaid
    obtain rfl := Except.ok.inj (htext.symm.trans hok)
    exact esc_not_mem_plain (hfmt.pieces theme true) hclean hsaid.1 htime
  · have hnone : ∀ message time, ¬ x.Says (themed none theme true).pieces message time :=
      fun message time hm => hsaid ⟨message, time, hm⟩
    obtain ⟨e, -, hrefused⟩ := texts_refused hvalid hclean hnone
    exact absurd (hrefused.symm.trans hok) nofun

end Escapes

/-- The formatter of the console is that of a theme, with colour where it is opted into. -/
theorem consoleFormatter_text (env : Environment) (stdout : Option TextStream)
    (theme : Option LoggingTheme) (color : Option Bool)
    (hvalid : ∀ t, theme = some t → t.palette.Valid) :
    ∃ t : LoggingTheme, t.palette.Valid ∧ ∀ x, (consoleFormatter env stdout theme color).text x =
      (themed none t (consoleFormatter env stdout theme color).inColor).text x := by
  cases theme with
  | none => exact ⟨monochrome, builtin_valid.1, fun x => rfl⟩
  | some t => exact ⟨t, hvalid t rfl, fun x => rfl⟩

/-- **Colour is opted into.** Whatever the theme, the decision of the caller, the environment
and `sys.stdout`: what the console's formatter makes of a record without an escape has one
exactly where a theme was given and colour asked for, or found to be fit. -/
theorem escapes_iff_asked (env : Environment) (stdout : Option TextStream) (theme : Option LoggingTheme)
    (color : Option Bool) (h : Records) (r : Nat) (s : Str)
    (hvalid : ∀ t, theme = some t → t.palette.Valid) (hclean : (h.record r).Clean)
    (hok : (((consoleFormatter env stdout theme color).format r).exec h).1 = .ok s) :
    esc ∈ s ↔ AskedFor env stdout theme color := by
  obtain ⟨t, ht, htext⟩ := consoleFormatter_text env stdout theme color hvalid
  obtain ⟨h', hexec, -⟩ := (consoleFormatter env stdout theme color).exec_format r h
  rw [hexec, htext] at hok
  rw [← inColor_iff]
  cases hcolor : (consoleFormatter env stdout theme color).inColor with
  | true =>
    rw [hcolor] at hok
    obtain ⟨h'', hexec', -⟩ := (themed none t true).exec_format r h
    have hformat : (((themed none t true).format r).exec h).1 = .ok s := by
      rw [hexec']
      exact hok
    exact iff_of_true (esc_mem_colored (shownIn_of_format ht (by decide) hclean hformat)) rfl
  | false =>
    rw [hcolor] at hok
    exact iff_of_false (esc_not_mem_uncolored ht hclean hok) Bool.false_ne_true

/-- A theme on a redirected stream, left to the environment. -/
theorem escapes_iff_asked_redirected :
    esc ∈ "2024-05-01T12:00:00+00:00 - INF - [app] - up".toList ↔
      AskedFor ⟨some "0".toList, none⟩ (some ⟨some (.ok false)⟩) (some scietexDark) none :=
  escapes_iff_asked ⟨some "0".toList, none⟩ (some ⟨some (.ok false)⟩) (some scietexDark) none
    (.one (textRecord 20 "up".toList none)) 0 _ (fun t ht => Option.some.inj ht ▸ builtin_valid.2.2)
    (textRecord_clean (by decide) nofun) (by decide +kernel)

end ScietexLogging
