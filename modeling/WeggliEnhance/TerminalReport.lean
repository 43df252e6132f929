import WeggliEnhance.CompletedRuns
import WeggliEnhance.RunAgreement
import WeggliEnhance.TerminalDisplay

/-!
# The report on the terminal

`print_terminal` prints the number of results and for each of them its reason,
issue, path, line and display. The display cuts off a fixed number of bytes,
and the process panics when the cut falls inside a character. It is shown
exactly when this happens. In all other cases a run on the terminal reports the
same results as one that writes SARIF documents.
-/

namespace WeggliEnhance.TerminalReport

open SourceText SyntaxTree ThirdParty QueryResults SourceLines LineMarks LineContext StyledText
  TerminalDisplay PipelineWork PipelineSchedules ChainFilter ReportRegions RuleFiles CompletedRuns

/-- What the `colored` crate makes of the parts of a report. -/
structure Style extends Palette where
  /-- `text.bold().on_blue()`. -/
  reason : String → List Glyph
  /-- `text.bold().on_purple()`. -/
  issue : String → List Glyph
  /-- `text.bold()`. -/
  path : String → List Glyph
  /-- `text.bold().red()`. -/
  total : String → List Glyph

/-- Output that is not a terminal has no colours. -/
def Style.uncoloured : Style where
  toPalette := Palette.uncoloured
  reason text := ofChars text.toList
  issue text := ofChars text.toList
  path text := ofChars text.toList
  total text := ofChars text.toList

/-- The body of the loop of `print_terminal`. Slicing the source and cutting
the display can panic. -/
def printResult (style : Style) (numbers : Bool) (r : ResultsCtx) : Option (List Glyph) :=
  (terminalLine r).bind fun line =>
    (display style.toPalette r.result r.source 5 5 numbers).map fun text =>
      style.reason (" " ++ r.reason ++ " ") ++ ofChars [' ', ':', ' '] ++
        style.issue (" " ++ r.issue ++ " ") ++ [.char '\n'] ++ style.path r.path ++
        ofChars (":" ++ toString line ++ "\n").toList ++ text

/-- `print_terminal`. Everything is formatted before the first line is printed. -/
def printTerminal (style : Style) (numbers : Bool) (results : List ResultsCtx) :
    Option (List Glyph) :=
  (results.mapM (printResult style numbers)).map fun prints =>
    ofChars (toString prints.length ++ " ").toList ++ style.total "matches" ++ [.char '\n'] ++
      prints.flatMap fun text => text ++ [.char '\n']

section Truncation

/-- A text of characters of one byte can be cut anywhere. -/
theorem truncate_ascii {chars : List Char} (h : ∀ c ∈ chars, c.utf8Size = 1) (bytes : ℕ) :
    (truncate bytes (ofChars chars)).isSome = true := by
  induction chars generalizing bytes with
  | nil => rfl
  | cons c chars ih =>
    obtain ⟨hc, hrest⟩ := List.forall_mem_cons.mp h
    change (truncate bytes (.char c :: ofChars chars)).isSome = true
    rw [truncate]
    split_ifs with hzero hfits
    · rfl
    · rw [Option.isSome_map]
      exact ih hrest _
    · rw [Glyph.size_char, hc] at hfits
      omega

/-- Cutting the last byte off a glyph panics exactly for a character of
several bytes. -/
theorem truncate_last_eq_none_iff (glyph : Glyph) (tail : List Glyph) :
    truncate (glyph.size - 1) (glyph :: tail) = none ↔
      ∃ c, glyph = .char c ∧ c.utf8Size ≠ 1 := by
  have hpos := glyph.size_pos
  rw [truncate]
  cases glyph with
  | char c =>
    rw [Glyph.size_char] at hpos ⊢
    split_ifs with hone hfits
    · simp only [Glyph.char.injEq, exists_eq_left', false_iff, not_not]
      omega
    · omega
    · simp only [Glyph.cut, Glyph.char.injEq, exists_eq_left', true_iff]
      omega
  | code parameters =>
    have hbytes : utf8Len ('\x1b' :: '[' :: parameters) = (Glyph.code parameters).size - 1 := by
      have hlast : utf8Len ['m'] = 1 := by decide
      change _ = utf8Len (('\x1b' :: '[' :: parameters) ++ ['m']) - 1
      rw [utf8Len_append, hlast, Nat.add_sub_cancel]
    have hcut : Glyph.cut (.code parameters) ((Glyph.code parameters).size - 1) =
        some (ofChars ('\x1b' :: '[' :: parameters)) := by
      have hsplit : splitBytes ((Glyph.code parameters).size - 1) (Glyph.code parameters).chars =
          some ('\x1b' :: '[' :: parameters, ['m']) := splitBytes_eq_some_iff.mpr ⟨rfl, hbytes⟩
      rw [Glyph.cut, hsplit, Option.map_some]
    refine iff_of_false ?_ ?_
    · split_ifs with hone hfits
      · exact not_false
      · omega
      · rw [hcut]
        exact Option.some_ne_none _
    · rintro ⟨c, hc, -⟩
      cases hc

/-- Cutting behind the front leaves it, and cutting before panics exactly when
the front ends in a character of several bytes. -/
theorem dropBytes_succ_eq_none_iff (front tail : List Glyph) :
    dropBytes (size tail + 1) (front ++ tail) = none ↔
      ∃ c, front.getLast? = some (.char c) ∧ c.utf8Size ≠ 1 := by
  obtain rfl | ⟨text, glyph, rfl⟩ := List.eq_nil_or_concat' front
  · rw [dropBytes, List.nil_append, if_neg (by omega)]
    simp
  · have hpos := glyph.size_pos
    have hsize : size (text ++ [glyph] ++ tail) = size text + glyph.size + size tail := by
      simp only [size_append, size_cons]
      simp only [size]
      omega
    have hbytes : size (text ++ [glyph] ++ tail) - (size tail + 1) =
        size text + (glyph.size - 1) := by omega
    rw [dropBytes, if_pos (by omega), hbytes, List.append_assoc, truncate_append,
      Option.map_eq_none_iff, List.singleton_append, truncate_last_eq_none_iff,
      List.getLast?_concat]
    simp only [Option.some.injEq]

/-- The end of a numbered display consists of characters of one byte. -/
theorem trailer_ascii (numbers : Bool) (total lineNr : ℕ) :
    ∀ c ∈ '\n' :: trailer numbers total lineNr, c.utf8Size = 1 := by
  intro c hc
  have hall : c = '\n' ∨ c = ' ' ∨ c = '.' := by
    unfold trailer ellipsis at hc
    rcases List.mem_cons.mp hc with rfl | hc
    · exact .inl rfl
    split_ifs at hc with hend hnumbers
    · cases hc
    · rcases List.mem_append.mp hc with hc | hc
      · rcases List.mem_append.mp hc with hc | hc
        · exact .inr (.inl (List.mem_replicate.mp hc).2)
        · exact .inr (.inr (List.mem_replicate.mp hc).2)
      · exact .inl (List.mem_singleton.mp hc)
    · simp only [List.cons_append, List.nil_append, List.mem_cons, List.not_mem_nil, or_false] at hc
      rcases hc with rfl | rfl | rfl | rfl
      · exact .inr (.inr rfl)
      · exact .inr (.inr rfl)
      · exact .inr (.inr rfl)
      · exact .inl rfl
  rcases hall with rfl | rfl | rfl
  · decide
  · decide
  · decide

/-- Exactly when cutting off the end of a display panics. -/
theorem dropBytes_eq_none_iff {numbers : Bool} {total lineNr : ℕ} {front : List Glyph} :
    dropBytes (if decide (lineNr + 1 ≠ total) then 6 else 1)
        (front ++ .char '\n' :: ofChars (trailer numbers total lineNr)) = none ↔
      numbers = false ∧ lineNr + 1 ≠ total ∧
        ∃ c, front.getLast? = some (.char c) ∧ c.utf8Size ≠ 1 := by
  have hascii := trailer_ascii numbers total lineNr
  have htail : size (.char '\n' :: ofChars (trailer numbers total lineNr)) =
      utf8Len ('\n' :: trailer numbers total lineNr) := size_ofChars ('\n' :: _)
  have hbreak : utf8Len ['\n'] = 1 := by decide
  by_cases hend : lineNr + 1 = total
  · have hone : size (.char '\n' :: ofChars (trailer numbers total lineNr)) = 1 := by
      rw [htail, trailer, if_pos hend, hbreak]
    have hdrop := dropBytes_append front (.char '\n' :: ofChars (trailer numbers total lineNr))
    rw [hone] at hdrop
    rw [if_neg (by simpa using hend), hdrop]
    simp [hend]
  · have hlength : utf8Len ('\n' :: trailer numbers total lineNr) =
        (if numbers then max 4 (toString lineNr).length else 3) + 2 := by
      have hlast : ('\n' : Char).utf8Size = 1 := by decide
      rw [trailer, if_neg hend, utf8Len_cons, utf8Len_append, utf8Len_ellipsis, hbreak, hlast]
      omega
    rw [if_pos (by simpa using hend)]
    cases numbers with
    | false =>
      have hsize : 6 = size (.char '\n' :: ofChars (trailer false total lineNr)) + 1 := by
        rw [htail, hlength]
        rfl
      rw [hsize, dropBytes_succ_eq_none_iff]
      simp [hend]
    | true =>
      rw [if_pos rfl] at hlength
      have hkept : size (front ++ .char '\n' :: ofChars (trailer true total lineNr)) - 6 =
          size front + (utf8Len ('\n' :: trailer true total lineNr) - 6) := by
        rw [size_append, htail]
        omega
      have hcut := truncate_ascii hascii (utf8Len ('\n' :: trailer true total lineNr) - 6)
      refine iff_of_false ?_ ?_
      · rw [dropBytes, if_pos (by rw [size_append, htail]; omega), hkept, truncate_append,
          Option.map_eq_none_iff]
        intro hnone
        change truncate _ (ofChars ('\n' :: trailer true total lineNr)) = none at hnone
        rw [hnone] at hcut
        cases hcut
      · rintro ⟨hfalse, -⟩
        cases hfalse

end Truncation

section Display

variable {source : String} {result : QueryResult}

/-- The lines that `print_terminal` displays of a result, with their numbers. -/
def shownLines (source : String) (result : QueryResult) : List (ℕ × String) :=
  displayed 0 (showContext (markResult source result).toMarks 5 5)

/-- The last displayed line is followed by another one and ends in a character
of several bytes. -/
def Spoiled (source : String) (result : QueryResult) : Prop :=
  ∃ line, (shownLines source result).getLast? = some line ∧
    line.1 + 1 ≠ (linesOf source).length ∧
    ∃ c, line.2.toList.getLast? = some c ∧ c.utf8Size ≠ 1

/-- Each line of a result that can be sliced is formatted completely. -/
theorem format_of_sliced (h : Sliced source result) (palette : Palette) :
    ∀ line ∈ showContext (markResult source result).toMarks 5 5,
      ∃ front, format palette (markResult source result).highlights line.toLine 0 =
        some (front ++ [.char '\n']) ∧ plain front = line.text.toList := by
  intro line hline
  have hmem : line.toLine ∈ linesOf source := by
    rw [← (valid_markResult source result).lines, ← toLine_showContext _ 5 5]
    exact List.mem_map_of_mem hline
  rw [highlights_markResult]
  refine plain_format (lineOf_linesOf hmem) (pairwise_cleanRanges result) ?_
  intro range hrange
  obtain ⟨c, hc, rfl⟩ := exists_of_mem_cleanRanges hrange
  exact h.captures c hc

theorem length_showContext_markResult (source : String) (result : QueryResult) :
    (showContext (markResult source result).toMarks 5 5).length = (linesOf source).length := by
  rw [← (valid_markResult source result).lines, ← toLine_showContext _ 5 5, List.length_map]

/-- The displayed text before its end is cut off. -/
theorem display_of_sliced (h : Sliced source result) (palette : Palette) (numbers : Bool) :
    shownLines source result = [] ∧
        display palette result source 5 5 numbers = some [] ∨
      ∃ front last, (shownLines source result).getLast? = some last ∧
        render palette (markResult source result).highlights numbers 0 true
          (showContext (markResult source result).toMarks 5 5) =
          some (front ++ .char '\n' :: ofChars (trailer numbers (linesOf source).length last.1),
            decide (last.1 + 1 ≠ (linesOf source).length)) ∧
        plain front = layoutLines numbers (shownLines source result) := by
  obtain ⟨out, hout, hempty, hnonempty⟩ :=
    (render_spec numbers 0 (format_of_sliced h palette)).1
  rw [Nat.zero_add, length_showContext_markResult] at hnonempty
  by_cases hshown : shownLines source result = []
  · refine .inl ⟨hshown, ?_⟩
    rw [display, DisplayHelper.display, hout, hempty hshown]
    rfl
  · obtain ⟨front, last, hlast, hfront, hplain, hskipped⟩ := hnonempty hshown
    refine .inr ⟨front, last, hlast, ?_, hplain⟩
    rw [hout, ← hfront, ← hskipped]

end Display

section Layout

/-- A character of several bytes at the end of the displayed lines is at the
end of the last one. -/
theorem getLast?_layoutLines {shown : List (ℕ × String)} {last : ℕ × String}
    (h : shown.getLast? = some last) {c : Char} (hc : c.utf8Size ≠ 1) :
    (layoutLines false shown).getLast? = some c ↔ last.2.toList.getLast? = some c := by
  induction shown with
  | nil => cases h
  | cons line shown ih =>
    cases shown with
    | nil =>
      cases h
      rfl
    | cons next rest =>
      rw [List.getLast?_cons_cons] at h
      rw [← ih h, layoutLines]
      generalize layoutLines false (next :: rest) = below
      generalize labelText false line.1 ++ line.2.toList = above
      have hgap : ∃ front, above ++ '\n' :: (if next.1 = line.1 + 1 then []
          else ellipsis false (line.1 + 1) ++ ['\n']) = front ++ ['\n'] := by
        split_ifs
        · exact ⟨above, rfl⟩
        · exact ⟨above ++ '\n' :: ellipsis false (line.1 + 1), by simp⟩
      obtain ⟨front, hfront⟩ := hgap
      rw [← List.cons_append, ← List.append_assoc, hfront, List.getLast?_append,
        List.getLast?_concat]
      have hbreak : c ≠ '\n' := by
        rintro rfl
        exact hc (by decide)
      cases below.getLast? with
      | none => simpa using hbreak.symm
      | some other => rw [Option.some_or]

/-- A character at the end of a text is printed last. -/
theorem getLast?_plain {text : List Glyph} {c : Char} (h : text.getLast? = some (.char c)) :
    (plain text).getLast? = some c := by
  obtain ⟨front, rfl⟩ := List.getLast?_eq_some_iff.mp h
  have hlast : plain [.char c] = [c] := rfl
  rw [plain_append, hlast, List.getLast?_concat]

/-- Text without colour codes. -/
def Uncoloured (text : List Glyph) : Prop := ∀ glyph ∈ text, ∃ c, glyph = .char c

theorem getLast?_of_uncoloured {text : List Glyph} (h : Uncoloured text) {c : Char} :
    text.getLast? = some (.char c) ↔ (plain text).getLast? = some c := by
  refine ⟨getLast?_plain, fun hlast => ?_⟩
  obtain rfl | ⟨front, glyph, rfl⟩ := List.eq_nil_or_concat' text
  · cases hlast
  · obtain ⟨d, rfl⟩ := h glyph (List.mem_append_right front (List.mem_singleton_self glyph))
    have hd : (plain (front ++ [.char d])).getLast? = some d := getLast?_plain List.getLast?_concat
    obtain rfl : d = c := Option.some.inj (hd.symm.trans hlast)
    exact List.getLast?_concat

theorem uncoloured_ofChars (chars : List Char) : Uncoloured (ofChars chars) := by
  intro glyph hglyph
  obtain ⟨c, -, rfl⟩ := List.mem_map.mp hglyph
  exact ⟨c, rfl⟩

theorem uncoloured_append {left right : List Glyph} :
    Uncoloured (left ++ right) ↔ Uncoloured left ∧ Uncoloured right := List.forall_mem_append

theorem uncoloured_formatFrom {line : Line} {current : ℕ} {ranges : List Range} {out : List Glyph}
    (h : formatFrom Palette.uncoloured line current ranges = some out) : Uncoloured out := by
  induction ranges generalizing current out with
  | nil =>
    rw [formatFrom] at h
    obtain ⟨rest, -, rfl⟩ := Option.map_eq_some_iff.mp h
    exact uncoloured_append.mpr ⟨uncoloured_ofChars _, uncoloured_ofChars ['\n']⟩
  | cons range ranges ih =>
    rw [formatFrom] at h
    obtain ⟨clear, -, h⟩ := Option.bind_eq_some_iff.mp h
    obtain ⟨marked, -, h⟩ := Option.bind_eq_some_iff.mp h
    obtain ⟨rest, hrest, rfl⟩ := Option.map_eq_some_iff.mp h
    rw [uncoloured_append, uncoloured_append]
    exact ⟨⟨uncoloured_ofChars _, uncoloured_ofChars _⟩, ih hrest⟩

theorem uncoloured_label (numbers : Bool) (lineNr : ℕ) :
    Uncoloured (label Palette.uncoloured numbers lineNr) := by
  have hnumber : ∀ text, Uncoloured (Palette.uncoloured.number text) :=
    fun text => uncoloured_ofChars text.toList
  unfold label
  split_ifs
  · rw [uncoloured_append]
    exact ⟨hnumber _, uncoloured_ofChars [' ']⟩
  · exact uncoloured_ofChars []

theorem uncoloured_render {highlights : List Range} {numbers : Bool} {lineNr : ℕ} {skipped : Bool}
    {lines : List MarkedLine} {out : List Glyph × Bool}
    (h : render Palette.uncoloured highlights numbers lineNr skipped lines = some out) :
    Uncoloured out.1 := by
  induction lines generalizing lineNr skipped out with
  | nil =>
    cases h
    exact uncoloured_ofChars []
  | cons line lines ih =>
    rw [render] at h
    by_cases hprint : line.print = .skipped
    · rw [if_pos hprint] at h
      obtain ⟨rest, hrest, rfl⟩ := Option.map_eq_some_iff.mp h
      refine uncoloured_append.mpr ⟨?_, ih hrest⟩
      cases skipped with
      | true => exact uncoloured_ofChars []
      | false => exact uncoloured_ofChars _
    · rw [if_neg hprint] at h
      obtain ⟨text, htext, h⟩ := Option.bind_eq_some_iff.mp h
      obtain ⟨rest, hrest, rfl⟩ := Option.map_eq_some_iff.mp h
      rw [uncoloured_append, uncoloured_append]
      exact ⟨⟨uncoloured_label numbers lineNr, uncoloured_formatFrom htext⟩, ih hrest⟩

end Layout

section Panics

variable {source : String} {result : QueryResult} {numbers : Bool}

/-- The display of a result panics only if its end is spoiled and lines are not
numbered. -/
theorem spoiled_of_display {palette : Palette} (h : Sliced source result)
    (hnone : display palette result source 5 5 numbers = none) :
    numbers = false ∧ Spoiled source result := by
  rcases display_of_sliced h palette numbers with ⟨-, hsome⟩ | ⟨front, last, hlast, hrender, hplain⟩
  · rw [hsome] at hnone
    cases hnone
  · rw [display, DisplayHelper.display, hrender, Option.bind_some, dropBytes_eq_none_iff] at hnone
    obtain ⟨rfl, hnext, c, hc, hsize⟩ := hnone
    refine ⟨rfl, last, hlast, hnext, c, ?_, hsize⟩
    rw [← getLast?_layoutLines hlast hsize, ← hplain]
    exact getLast?_plain hc

/-- Without colours and line numbers the display of a result with a spoiled
end panics. -/
theorem display_of_spoiled (h : Sliced source result) (hspoiled : Spoiled source result) :
    display Palette.uncoloured result source 5 5 false = none := by
  obtain ⟨line, hline, hnext, c, hc, hsize⟩ := hspoiled
  rcases display_of_sliced h Palette.uncoloured false with
    ⟨hempty, -⟩ | ⟨front, last, hlast, hrender, hplain⟩
  · rw [hempty] at hline
    cases hline
  · cases hline.symm.trans hlast
    have hfront := (uncoloured_append.mp (uncoloured_render hrender)).1
    rw [display, DisplayHelper.display, hrender, Option.bind_some, dropBytes_eq_none_iff]
    refine ⟨rfl, hnext, c, ?_, hsize⟩
    rw [getLast?_of_uncoloured hfront, hplain, getLast?_layoutLines hlast hsize]
    exact hc

theorem mapM_eq_none_iff {α β : Type} {f : α → Option β} {list : List α} :
    list.mapM f = none ↔ ∃ a ∈ list, f a = none := by
  induction list with
  | nil => simp
  | cons a list ih =>
    rw [List.mapM_cons, List.exists_mem_cons_iff, ← ih]
    cases f a with
    | none => simp
    | some b => cases list.mapM f <;> simp

/-- Printing a result panics exactly when its display does. -/
theorem printResult_eq_none_iff (style : Style) {r : ResultsCtx} (h : Sliced r.source r.result) :
    printResult style numbers r = none ↔
      display style.toPalette r.result r.source 5 5 numbers = none := by
  obtain ⟨-, hstart, -⟩ := slice?_isSome_iff.mp h.function
  have hslice : (slice? r.source ⟨0, r.result.startOffset⟩).isSome = true :=
    slice?_isSome_iff.mpr ⟨Nat.zero_le _, isBoundary_zero _, hstart⟩
  obtain ⟨text, htext⟩ := Option.isSome_iff_exists.mp hslice
  rw [printResult, terminalLine, htext, Option.map_some, Option.bind_some, Option.map_eq_none_iff]

theorem printTerminal_eq_none_iff (style : Style) {results : List ResultsCtx}
    (h : ∀ r ∈ results, Sliced r.source r.result) :
    printTerminal style numbers results = none ↔
      ∃ r ∈ results, display style.toPalette r.result r.source 5 5 numbers = none := by
  rw [printTerminal, Option.map_eq_none_iff, mapM_eq_none_iff]
  refine exists_congr fun r => and_congr_right fun hr => ?_
  exact printResult_eq_none_iff style (h r hr)

end Panics

/-- What became of a rule file on the terminal. -/
structure Shown where
  /-- The results that survived the chainability filter. -/
  survived : List ResultsCtx
  /-- What was printed, if printing did not panic. -/
  output : Option (List Glyph)

/-- A run of the loop over rule files without an output path, with what became
of each file. -/
inductive TerminalRun (env : Environment) (style : Style) (numbers : Bool) :
    List Rules → List Shown → Prop
  /-- No rule file is left. -/
  | done : TerminalRun env style numbers [] []
  /-- The process ends because a rule file cannot be compiled. -/
  | exit {file : Rules} {rest : List Rules} {stop : Stop} :
    compileRules env file = .error stop → TerminalRun env style numbers (file :: rest) []
  /-- A rule file without patterns is skipped. -/
  | skip {file : Rules} {rest : List Rules} {shown : List Shown} :
    compileRules env file = .ok [] → TerminalRun env style numbers rest shown →
    TerminalRun env style numbers (file :: rest) shown
  /-- The process ends because a search panics. -/
  | abort {file : Rules} {rest : List Rules} {work : List WorkItem} :
    compileRules env file = .ok work → work ≠ [] →
    ¬Healthy env.externals work env.options (.start env.files) →
    TerminalRun env style numbers (file :: rest) []
  /-- The process ends because printing panics. -/
  | crash {file : Rules} {rest : List Rules} {work : List WorkItem} {pipeline : Pipeline} :
    compileRules env file = .ok work → work ≠ [] →
    Run env.externals work env.options (.start env.files) pipeline → pipeline.Finished →
    printTerminal style numbers (filterChainableResults pipeline.collected) = none →
    TerminalRun env style numbers (file :: rest)
      [⟨filterChainableResults pipeline.collected, none⟩]
  /-- The results of a rule file are printed. -/
  | print {file : Rules} {rest : List Rules} {work : List WorkItem} {pipeline : Pipeline}
    {text : List Glyph} {shown : List Shown} :
    compileRules env file = .ok work → work ≠ [] →
    Run env.externals work env.options (.start env.files) pipeline → pipeline.Finished →
    printTerminal style numbers (filterChainableResults pipeline.collected) = some text →
    TerminalRun env style numbers rest shown →
    TerminalRun env style numbers (file :: rest)
      (⟨filterChainableResults pipeline.collected, some text⟩ :: shown)

/-- Some result of a rule file that is searched has a spoiled end. -/
def SpoiledRules (env : Environment) (rules : List Rules) : Prop :=
  ∃ file ∈ searched env rules, ∃ r ∈ inTurn env file, Spoiled r.source r.result

section Runs

variable {env : Environment} {style : Style} {numbers : Bool} {rules : List Rules}
  {shown : List Shown}

/-- Whatever survives for a rule file can be sliced. -/
theorem sliced_survived (hinside : env.externals.ReportsInside)
    (hboundaries : OnBoundaries env.externals) {work : List WorkItem} {pipeline : Pipeline}
    (hrun : Run env.externals work env.options (.start env.files) pipeline)
    (hfinished : pipeline.Finished) :
    ∀ r ∈ filterChainableResults pipeline.collected, Sliced r.source r.result := by
  intro r hr
  exact sliced_collected hinside hboundaries hrun hfinished r (mem_filterChainableResults.mp hr).1

/-- The loop can always be run. -/
theorem exists_terminalRun (env : Environment) (style : Style) (numbers : Bool)
    (rules : List Rules) : ∃ shown, TerminalRun env style numbers rules shown := by
  induction rules with
  | nil => exact ⟨[], .done⟩
  | cons file rest ih =>
    obtain ⟨shown, hrest⟩ := ih
    cases hcompile : compileRules env file with
    | error stop => exact ⟨[], .exit hcompile⟩
    | ok work =>
      cases work with
      | nil => exact ⟨shown, .skip hcompile hrest⟩
      | cons item work =>
        have hwork : item :: work ≠ [] := List.cons_ne_nil item work
        by_cases hhealthy : Healthy env.externals (item :: work) env.options (.start env.files)
        · obtain ⟨pipeline, hrun, hfinished⟩ := exists_finished_run hhealthy
          cases hprint : printTerminal style numbers
              (filterChainableResults pipeline.collected) with
          | none => exact ⟨_, .crash hcompile hwork hrun hfinished hprint⟩
          | some text => exact ⟨_, .print hcompile hwork hrun hfinished hprint hrest⟩
        · exact ⟨[], .abort hcompile hwork hhealthy⟩

theorem searched_cons {file : Rules} {rest : List Rules} {work : List WorkItem}
    (hcompile : compileRules env file = .ok work) (hwork : work ≠ []) :
    searched env (file :: rest) = file :: searched env rest := by
  cases work with
  | nil => exact absurd rfl hwork
  | cons item work => rw [searched, hcompile]

theorem spoiledRules_cons {file : Rules} {rest : List Rules} {work : List WorkItem}
    (hcompile : compileRules env file = .ok work) (hwork : work ≠ []) :
    SpoiledRules env (file :: rest) ↔
      (∃ r ∈ inTurn env file, Spoiled r.source r.result) ∨ SpoiledRules env rest := by
  rw [SpoiledRules, searched_cons hcompile hwork, List.exists_mem_cons_iff]
  rfl

/-- A run on the terminal panics only at a spoiled end, without line numbers. -/
theorem spoiled_of_panic (hinside : env.externals.ReportsInside)
    (hboundaries : OnBoundaries env.externals) (h : TerminalRun env style numbers rules shown)
    (hpanic : ∃ entry ∈ shown, entry.output = none) :
    numbers = false ∧ SpoiledRules env rules := by
  induction h with
  | done => simp at hpanic
  | exit hcompile => simp at hpanic
  | @skip file rest shown hcompile hrest ih =>
    rw [SpoiledRules, searched, hcompile]
    exact ih hpanic
  | abort hcompile hwork hunhealthy => simp at hpanic
  | crash hcompile hwork hrun hfinished hnone =>
    have hsliced := sliced_survived hinside hboundaries hrun hfinished
    obtain ⟨r, hr, hdisplay⟩ := (printTerminal_eq_none_iff style hsliced).mp hnone
    obtain ⟨hnumbers, hspoiled⟩ := spoiled_of_display (hsliced r hr) hdisplay
    rw [(survived_perm_inTurn hcompile hrun hfinished).mem_iff] at hr
    exact ⟨hnumbers, (spoiledRules_cons hcompile hwork).mpr (.inl ⟨r, hr, hspoiled⟩)⟩
  | print hcompile hwork hrun hfinished hsome hrest ih =>
    rw [List.exists_mem_cons_iff] at hpanic
    obtain ⟨hnumbers, hspoiled⟩ := ih (hpanic.resolve_left (Option.some_ne_none _))
    exact ⟨hnumbers, (spoiledRules_cons hcompile hwork).mpr (.inr hspoiled)⟩

/-- A run without colours and line numbers panics at the first spoiled end. -/
theorem panic_of_spoiled (hreports : env.externals.ReportsCaptures)
    (hinside : env.externals.ReportsInside) (hboundaries : OnBoundaries env.externals)
    (hregex : ∀ file ∈ rules, Evaluates env file)
    (h : TerminalRun env Style.uncoloured false rules shown) (hspoiled : SpoiledRules env rules) :
    ∃ entry ∈ shown, entry.output = none := by
  induction h with
  | done =>
    obtain ⟨file, hfile, -⟩ := hspoiled
    cases hfile
  | exit hcompile =>
    obtain ⟨file, hfile, -⟩ := hspoiled
    rw [searched, hcompile] at hfile
    cases hfile
  | skip hcompile hrest ih =>
    rw [SpoiledRules, searched, hcompile] at hspoiled
    exact ih (fun file hfile => hregex file (List.mem_cons_of_mem _ hfile)) hspoiled
  | abort hcompile hwork hunhealthy =>
    exact absurd (healthy_of_evaluates hreports hinside (hregex _ List.mem_cons_self) hcompile)
      hunhealthy
  | crash hcompile hwork hrun hfinished hnone => exact ⟨_, List.mem_cons_self, rfl⟩
  | print hcompile hwork hrun hfinished hsome hrest ih =>
    rcases (spoiledRules_cons hcompile hwork).mp hspoiled with ⟨r, hr, hend⟩ | hlater
    · have hsliced := sliced_survived hinside hboundaries hrun hfinished
      rw [← (survived_perm_inTurn hcompile hrun hfinished).mem_iff] at hr
      have hnone := (printTerminal_eq_none_iff Style.uncoloured hsliced).mpr
        ⟨r, hr, display_of_spoiled (hsliced r hr) hend⟩
      rw [hsome] at hnone
      cases hnone
    · obtain ⟨entry, hentry, hnone⟩ :=
        ih (fun file hfile => hregex file (List.mem_cons_of_mem _ hfile)) hlater
      exact ⟨entry, List.mem_cons_of_mem _ hentry, hnone⟩

/-- What a rule file shows when its patterns are run over one source file after
the other. -/
structure ShownInTurn (env : Environment) (style : Style) (numbers : Bool) (file : Rules)
    (entry : Shown) : Prop where
  /-- The survivors are printed. -/
  output : entry.output = printTerminal style numbers entry.survived
  /-- They are those of the sequential search, up to order. -/
  survived : entry.survived.Perm (inTurn env file)

/-- A run that does not panic shows every rule file. -/
theorem shown_of_printed (hreports : env.externals.ReportsCaptures)
    (hinside : env.externals.ReportsInside) (hregex : ∀ file ∈ rules, Evaluates env file)
    (h : TerminalRun env style numbers rules shown)
    (hprinted : ∀ entry ∈ shown, entry.output ≠ none) :
    List.Forall₂ (ShownInTurn env style numbers) (searched env rules) shown := by
  induction h with
  | done => exact .nil
  | exit hcompile =>
    rw [searched, hcompile]
    exact .nil
  | skip hcompile hrest ih =>
    rw [searched, hcompile]
    exact ih (fun file hfile => hregex file (List.mem_cons_of_mem _ hfile)) hprinted
  | abort hcompile hwork hunhealthy =>
    exact absurd (healthy_of_evaluates hreports hinside (hregex _ List.mem_cons_self) hcompile)
      hunhealthy
  | crash hcompile hwork hrun hfinished hnone =>
    exact absurd rfl (hprinted _ List.mem_cons_self)
  | print hcompile hwork hrun hfinished hsome hrest ih =>
    rw [searched_cons hcompile hwork]
    refine .cons ⟨hsome.symm, survived_perm_inTurn hcompile hrun hfinished⟩ ?_
    exact ih (fun file hfile => hregex file (List.mem_cons_of_mem _ hfile))
      fun entry hentry => hprinted entry (List.mem_cons_of_mem _ hentry)

end Runs

/-- What a run on the terminal shows. If tree-sitter reports ranges between
characters and the constraints can be evaluated, then in every run, whatever
the schedules are, printing panics only if lines are not numbered and the
display of some result ends, before the last line of its source, in a
character of several bytes; without colours it panics exactly then. A run that
does not panic prints, for each rule file that is searched, the results of a
search that takes the files one after the other. -/
theorem terminalRun_outcome {env : Environment} (hreports : env.externals.ReportsCaptures)
    (hinside : env.externals.ReportsInside) (hboundaries : OnBoundaries env.externals)
    {rules : List Rules} (hregex : ∀ file ∈ rules, Evaluates env file) {style : Style}
    {numbers : Bool} {shown : List Shown} (h : TerminalRun env style numbers rules shown) :
    ((∃ entry ∈ shown, entry.output = none) → numbers = false ∧ SpoiledRules env rules) ∧
      (style = Style.uncoloured → numbers = false → SpoiledRules env rules →
        ∃ entry ∈ shown, entry.output = none) ∧
      ((∀ entry ∈ shown, entry.output ≠ none) →
        List.Forall₂ (ShownInTurn env style numbers) (searched env rules) shown) := by
  refine ⟨spoiled_of_panic hinside hboundaries h, ?_, ?_⟩
  · rintro rfl rfl hspoiled
    exact panic_of_spoiled hreports hinside hboundaries hregex h hspoiled
  · exact shown_of_printed hreports hinside hregex h

/-- The two rule files of the sample run are shown with line numbers. -/
theorem terminalRun_outcome_sample :
    ∃ shown, TerminalRun sampleEnvironment Style.uncoloured true
        [sampleRules "first", sampleRules "second"] shown ∧
      List.Forall₂ (ShownInTurn sampleEnvironment Style.uncoloured true)
        [sampleRules "first", sampleRules "second"] shown := by
  obtain ⟨shown, hrun⟩ := exists_terminalRun sampleEnvironment Style.uncoloured true
    [sampleRules "first", sampleRules "second"]
  obtain ⟨hspoiled, -, hshown⟩ := terminalRun_outcome sampleExternals_reportsMatches.captures
    sampleExternals_reportsInside onBoundaries_sampleEnvironment
    (fun file _ => evaluates_sampleEnvironment file) hrun
  have hprinted : ∀ entry ∈ shown, entry.output ≠ none := by
    intro entry hentry hnone
    cases (hspoiled ⟨entry, hentry, hnone⟩).1
  have hsearched := hshown hprinted
  rw [searched_sampleRules] at hsearched
  exact ⟨shown, hrun, hsearched⟩

end WeggliEnhance.TerminalReport
