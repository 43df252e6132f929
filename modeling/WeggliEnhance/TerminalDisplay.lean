import WeggliEnhance.LineContext
import WeggliEnhance.StyledText

/-!
# Terminal display of a result

`result.rs`: the displayed lines are printed one after the other, every gap is
replaced by an ellipsis line, and the captured ranges are printed in colour.
An ellipsis is also printed for the lines after the last displayed one. At the
end the display removes it again by cutting off a fixed number of bytes.
-/

namespace WeggliEnhance.TerminalDisplay

open SourceText SourceLines QueryResults EnclosedResults LineMarks LineContext StyledText

/-- What the `colored` crate makes of a text. Colouring adds codes only. -/
structure Palette where
  /-- `text.red().bold()`. -/
  highlight : String → List Glyph
  /-- `text.bold().on_white()`. -/
  number : String → List Glyph
  /-- Highlighting keeps the text. -/
  plain_highlight : ∀ text, plain (highlight text) = text.toList
  /-- Numbers keep their text. -/
  plain_number : ∀ text, plain (number text) = text.toList

/-- Output that is not a terminal has no colours. -/
def Palette.uncoloured : Palette where
  highlight text := ofChars text.toList
  number text := ofChars text.toList
  plain_highlight _ := plain_ofChars _
  plain_number _ := plain_ofChars _

/-- First highlighted byte of a line. -/
def clipStart (line : Line) (range : Range) : ℕ := range.start - line.offset

/-- First byte of a line behind its highlighted part. -/
def clipStop (line : Line) (range : Range) : ℕ :=
  if range.stop < line.stop then range.stop - line.offset else utf8Len line.text.toList

/-- The loop of `DisplayHelper::format`. A slice outside the line panics. -/
def formatFrom (palette : Palette) (line : Line) : ℕ → List Range → Option (List Glyph)
  | current, [] =>
    (slice? line.text ⟨current, utf8Len line.text.toList⟩).map fun rest =>
      ofChars rest.toList ++ [.char '\n']
  | current, range :: ranges =>
    (slice? line.text ⟨current, clipStart line range⟩).bind fun clear =>
      (slice? line.text ⟨clipStart line range, clipStop line range⟩).bind fun marked =>
        (formatFrom palette line (clipStop line range) ranges).map fun rest =>
          ofChars clear.toList ++ palette.highlight marked ++ rest

/-- The filter of `DisplayHelper::format`. -/
def meets (line : Line) (range : Range) : Bool :=
  decide (range.start ≤ line.stop ∧ line.offset ≤ range.stop)

/-- `DisplayHelper::format`. -/
def format (palette : Palette) (highlights : List Range) (line : Line) (hindex : ℕ) :
    Option (List Glyph) :=
  formatFrom palette line 0 ((highlights.drop hindex).filter (meets line))

/-- A line number right-aligned in four columns. -/
def padded (number : ℕ) : String :=
  String.ofList (List.replicate (4 - (toString number).length) ' ') ++ toString number

/-- The line number in front of a line. -/
def label (palette : Palette) (numbers : Bool) (lineNr : ℕ) : List Glyph :=
  if numbers then palette.number (padded (lineNr + 1)) ++ [.char ' '] else []

/-- The ellipsis that is printed at the first line of a gap. -/
def ellipsis (numbers : Bool) (lineNr : ℕ) : List Char :=
  if numbers then
    List.replicate (4 - (toString (lineNr - 1)).length) ' ' ++
      List.replicate (toString (lineNr - 1)).length '.'
  else ['.', '.', '.']

/-- The printing loop of `DisplayHelper::display`: the printed text and
whether the last line was left out. -/
def render (palette : Palette) (highlights : List Range) (numbers : Bool) :
    ℕ → Bool → List MarkedLine → Option (List Glyph × Bool)
  | _, skipped, [] => some ([], skipped)
  | lineNr, skipped, line :: rest =>
    if line.print = .skipped then
      (render palette highlights numbers (lineNr + 1) true rest).map fun out =>
        ((if skipped then [] else ofChars (ellipsis numbers lineNr ++ ['\n'])) ++ out.1, out.2)
    else
      (format palette highlights line.toLine 0).bind fun text =>
        (render palette highlights numbers (lineNr + 1) false rest).map fun out =>
          (label palette numbers lineNr ++ text ++ out.1, out.2)

/-- `DisplayHelper::display`. -/
def DisplayHelper.display (self : DisplayHelper) (palette : Palette) (before after : ℕ)
    (numbers : Bool) : Option (List Glyph) :=
  (render palette self.highlights numbers 0 true (showContext self.toMarks before after)).bind
    fun out => dropBytes (if out.2 then 6 else 1) out.1

/-- `QueryResult::display`. -/
def display (palette : Palette) (result : QueryResult) (source : String) (before after : ℕ)
    (numbers : Bool) : Option (List Glyph) :=
  DisplayHelper.display (markResult source result) palette before after numbers

section Format

variable {source : String} {palette : Palette} {line : Line}

theorem isBoundary_clipStart (hline : LineOf source.toList line) {range : Range}
    (hstart : IsBoundary source.toList range.start) (hle : range.start ≤ line.stop) :
    IsBoundary line.text.toList (clipStart line range) := by
  obtain ⟨before, after, htext, hoffset⟩ := hline
  rw [htext] at hstart
  unfold Line.stop at hle
  obtain hlow | hlow := Nat.le_total range.start line.offset
  · rw [clipStart, Nat.sub_eq_zero_of_le hlow]
    exact isBoundary_zero _
  · rw [clipStart, ← hoffset]
    exact isBoundary_middle hstart (by omega) (by omega)

theorem isBoundary_clipStop (hline : LineOf source.toList line) {range : Range}
    (hstop : IsBoundary source.toList range.stop) (hle : line.offset ≤ range.stop) :
    IsBoundary line.text.toList (clipStop line range) := by
  obtain ⟨before, after, htext, hoffset⟩ := hline
  rw [htext] at hstop
  unfold clipStop Line.stop
  split_ifs with hinside
  · rw [← hoffset]
    exact isBoundary_middle hstop (by omega) (by omega)
  · exact isBoundary_utf8Len _

theorem clipStart_le_clipStop {range : Range} (hrange : range.start ≤ range.stop)
    (hstart : range.start ≤ line.stop) : clipStart line range ≤ clipStop line range := by
  unfold clipStart clipStop Line.stop at *
  split_ifs <;> omega

/-- The highlighted part of one range ends before that of the next one. -/
theorem clipStop_le_clipStart {range next : Range} (hordered : range.stop ≤ next.start)
    (hnext : next.start ≤ line.stop) : clipStop line range ≤ clipStart line next := by
  unfold clipStart clipStop Line.stop at *
  split_ifs <;> omega

/-- The text between two boundaries, as the characters between them. -/
theorem exists_slice? {text : String} {before after : List Char} {stop : ℕ}
    (htext : text.toList = before ++ after) (hstop : IsBoundary text.toList stop)
    (hle : utf8Len before ≤ stop) :
    ∃ middle rest, slice? text ⟨utf8Len before, stop⟩ = some middle ∧
      after = middle.toList ++ rest ∧
      text.toList = (before ++ middle.toList) ++ rest ∧
      utf8Len (before ++ middle.toList) = stop := by
  obtain ⟨left, right, hparts, hleft⟩ := hstop
  obtain ⟨middle, hmiddle, hafter⟩ :=
    exists_append_of_utf8Len_le (htext.symm.trans hparts) (by omega)
  have hmiddleText : (String.ofList middle).toList = middle := String.toList_ofList
  have hwhole : text.toList = before ++ (String.ofList middle).toList ++ right := by
    rw [hmiddleText, ← hmiddle, hparts]
  refine ⟨String.ofList middle, right, slice?_eq_some hwhole rfl ?_, ?_, hwhole, ?_⟩
  · rw [hmiddleText, ← utf8Len_append, ← hmiddle, hleft]
  · rw [hmiddleText, hafter]
  · rw [hmiddleText, ← hmiddle, hleft]

/-- The loop prints the rest of the line. -/
theorem plain_formatFrom (hline : LineOf source.toList line) {ranges : List Range}
    (hordered : ranges.Pairwise fun a b => a.stop ≤ b.start)
    (hsliced : ∀ range ∈ ranges, (slice? source range).isSome)
    (hmeets : ∀ range ∈ ranges, meets line range = true) {before after : List Char}
    (htext : line.text.toList = before ++ after)
    (hcurrent : ∀ range ∈ ranges, utf8Len before ≤ clipStart line range) :
    ∃ front, formatFrom palette line (utf8Len before) ranges = some (front ++ [.char '\n']) ∧
      plain front = after := by
  induction ranges generalizing before after with
  | nil =>
    have hend := isBoundary_utf8Len line.text.toList
    have hle : utf8Len before ≤ utf8Len line.text.toList := by
      rw [htext, utf8Len_append]
      omega
    obtain ⟨middle, rest, hslice, hafter, hwhole, hlen⟩ := exists_slice? htext hend hle
    refine ⟨ofChars middle.toList, ?_, ?_⟩
    · rw [formatFrom, hslice, Option.map_some]
    · have htotal := congrArg utf8Len hwhole
      rw [utf8Len_append, hlen] at htotal
      have hrest : utf8Len rest = 0 := by omega
      rw [plain_ofChars, hafter, eq_nil_of_utf8Len_eq_zero hrest, List.append_nil]
  | cons range ranges ih =>
    obtain ⟨hnext, hpairs⟩ := List.pairwise_cons.mp hordered
    obtain ⟨hrange, hstart, hstop⟩ :=
      slice?_isSome_iff.mp (hsliced range (List.mem_cons_self ..))
    have hmeet := hmeets range (List.mem_cons_self ..)
    rw [meets, decide_eq_true_eq] at hmeet
    obtain ⟨clear, rest, hclear, hafter, hsplit, hlen⟩ :=
      exists_slice? htext (isBoundary_clipStart hline hstart hmeet.1)
        (hcurrent range (List.mem_cons_self ..))
    obtain ⟨marked, tail, hmarked, hrest, hsplit, hlen'⟩ :=
      exists_slice? hsplit (isBoundary_clipStop hline hstop hmeet.2)
        (by rw [hlen]; exact clipStart_le_clipStop hrange hmeet.1)
    rw [hlen] at hmarked
    have hlater : ∀ next ∈ ranges, utf8Len (before ++ clear.toList ++ marked.toList) ≤
        clipStart line next := by
      intro next hmem
      have hmeetNext := hmeets next (List.mem_cons_of_mem _ hmem)
      rw [meets, decide_eq_true_eq] at hmeetNext
      rw [hlen']
      exact clipStop_le_clipStart (hnext next hmem) hmeetNext.1
    obtain ⟨front, hfront, hplain⟩ := ih hpairs
      (fun next hmem => hsliced next (List.mem_cons_of_mem _ hmem))
      (fun next hmem => hmeets next (List.mem_cons_of_mem _ hmem)) hsplit hlater
    refine ⟨ofChars clear.toList ++ palette.highlight marked ++ front, ?_, ?_⟩
    · rw [hlen'] at hfront
      rw [formatFrom, hclear, Option.bind_some, hmarked, Option.bind_some, hfront,
        Option.map_some, List.append_assoc _ front]
    · rw [plain_append, plain_append, plain_ofChars, palette.plain_highlight, hplain, hafter,
        hrest, List.append_assoc]

/-- A line is printed completely, whatever is highlighted in it. -/
theorem plain_format (hline : LineOf source.toList line) {highlights : List Range}
    (hordered : highlights.Pairwise fun a b => a.stop ≤ b.start)
    (hsliced : ∀ range ∈ highlights, (slice? source range).isSome) :
    ∃ front, format palette highlights line 0 = some (front ++ [.char '\n']) ∧
      plain front = line.text.toList := by
  have hmem : ∀ range ∈ (highlights.drop 0).filter (meets line), range ∈ highlights :=
    fun range hrange => (List.mem_filter.mp hrange).1
  have htext : line.text.toList = [] ++ line.text.toList := rfl
  refine plain_formatFrom hline (hordered.filter _) ?_ ?_ htext ?_
  · exact fun range hrange => hsliced range (hmem range hrange)
  · exact fun range hrange => (List.mem_filter.mp hrange).2
  · exact fun range hrange => Nat.zero_le _

end Format

/-- The displayed lines with their numbers. -/
def displayed : ℕ → List MarkedLine → List (ℕ × String)
  | _, [] => []
  | lineNr, line :: rest =>
    if line.print = .skipped then displayed (lineNr + 1) rest
    else (lineNr, line.text) :: displayed (lineNr + 1) rest

/-- The line number in front of a line, without its colour. -/
def labelText (numbers : Bool) (lineNr : ℕ) : List Char :=
  if numbers then (padded (lineNr + 1)).toList ++ [' '] else []

/-- Lines on top of each other, with one ellipsis line in every gap. -/
def layoutLines (numbers : Bool) : List (ℕ × String) → List Char
  | [] => []
  | [line] => labelText numbers line.1 ++ line.2.toList
  | line :: next :: rest =>
    labelText numbers line.1 ++ line.2.toList ++ '\n' ::
      ((if next.1 = line.1 + 1 then [] else ellipsis numbers (line.1 + 1) ++ ['\n']) ++
        layoutLines numbers (next :: rest))

/-- What is printed behind the last displayed line. -/
def trailer (numbers : Bool) (total lineNr : ℕ) : List Char :=
  if lineNr + 1 = total then [] else ellipsis numbers (lineNr + 1) ++ ['\n']

/-- The text of the printing loop for some displayed lines: these lines, a line
break and the ellipsis for the lines behind them. -/
def Rendered (numbers : Bool) (total : ℕ) (shown : List (ℕ × String))
    (out : List Glyph × Bool) : Prop :=
  ∃ front last, shown.getLast? = some last ∧
    out.1 = front ++ .char '\n' :: ofChars (trailer numbers total last.1) ∧
    plain front = layoutLines numbers shown ∧ out.2 = decide (last.1 + 1 ≠ total)

section Render

variable {palette : Palette} {highlights : List Range} {numbers : Bool}

theorem plain_label (palette : Palette) (numbers : Bool) (lineNr : ℕ) :
    plain (label palette numbers lineNr) = labelText numbers lineNr := by
  unfold label labelText
  split_ifs
  · rw [plain_append, palette.plain_number]
    rfl
  · rfl

theorem le_of_mem_displayed {lineNr : ℕ} {lines : List MarkedLine} {line : ℕ × String}
    (h : line ∈ displayed lineNr lines) : lineNr ≤ line.1 := by
  induction lines generalizing lineNr with
  | nil => cases h
  | cons first lines ih =>
    rw [displayed] at h
    split_ifs at h
    · have hle := ih h
      omega
    · obtain rfl | h := List.mem_cons.mp h
      · exact le_rfl
      · have hle := ih h
        omega

/-- Lines printed below a displayed line with nothing in between. -/
theorem rendered_cons {total above : ℕ} {text : String} {next : ℕ × String}
    {rest : List (ℕ × String)} {front : List Glyph} {out : List Glyph × Bool} {gap : List Char}
    (hfront : plain front = labelText numbers above ++ text.toList)
    (hgap : gap = if next.1 = above + 1 then [] else ellipsis numbers (above + 1) ++ ['\n'])
    (h : Rendered numbers total (next :: rest) out) :
    Rendered numbers total ((above, text) :: next :: rest)
      (front ++ .char '\n' :: (ofChars gap ++ out.1), out.2) := by
  obtain ⟨below, last, hlast, hout, hbelow, hskipped⟩ := h
  refine ⟨front ++ .char '\n' :: (ofChars gap ++ below), last, ?_, ?_, ?_, hskipped⟩
  · rw [List.getLast?_cons_cons, hlast]
  · simp only [hout, List.append_assoc, List.cons_append]
  · rw [plain_append, plain_cons, plain_append, plain_ofChars, hfront, hbelow, hgap, layoutLines]
    rfl

/-- The printing loop prints the displayed lines, from a gap or directly below
a displayed line. -/
theorem render_spec (numbers : Bool) {lines : List MarkedLine} (lineNr : ℕ)
    (hformat : ∀ line ∈ lines, ∃ front,
      format palette highlights line.toLine 0 = some (front ++ [.char '\n']) ∧
        plain front = line.text.toList) :
    (∃ out, render palette highlights numbers lineNr true lines = some out ∧
      (displayed lineNr lines = [] → out = ([], true)) ∧
      (displayed lineNr lines ≠ [] →
        Rendered numbers (lineNr + lines.length) (displayed lineNr lines) out)) ∧
    ∀ above text front, lineNr = above + 1 → plain front = labelText numbers above ++ text.toList →
      ∃ out, render palette highlights numbers lineNr false lines = some out ∧
        Rendered numbers (lineNr + lines.length) ((above, text) :: displayed lineNr lines)
          (front ++ .char '\n' :: out.1, out.2) := by
  induction lines generalizing lineNr with
  | nil =>
    refine ⟨⟨([], true), rfl, fun _ => rfl, fun h => absurd rfl h⟩, ?_⟩
    intro above text front habove hfront
    refine ⟨([], false), rfl, front, (above, text), rfl, ?_, hfront, ?_⟩
    · simp [trailer, ofChars, habove]
    · simp [habove]
  | cons line lines ih =>
    obtain ⟨⟨out, hout, hempty, hnonempty⟩, hbelow⟩ := ih (lineNr + 1) fun other hother =>
      hformat other (List.mem_cons_of_mem _ hother)
    have htotal : lineNr + (line :: lines).length = lineNr + 1 + lines.length := by
      rw [List.length_cons]
      omega
    rw [htotal]
    by_cases hprint : line.print = .skipped
    · have hdisplayed : displayed lineNr (line :: lines) = displayed (lineNr + 1) lines := by
        rw [displayed, if_pos hprint]
      rw [hdisplayed]
      refine ⟨⟨out, ?_, hempty, hnonempty⟩, ?_⟩
      · rw [render, if_pos hprint, hout, Option.map_some, if_pos rfl, List.nil_append]
      · intro above text front habove hfront
        refine ⟨(ofChars (ellipsis numbers lineNr ++ ['\n']) ++ out.1, out.2), ?_, ?_⟩
        · rw [render, if_pos hprint, hout, Option.map_some, if_neg (by decide)]
        · cases hshown : displayed (lineNr + 1) lines with
          | nil =>
            rw [hempty hshown]
            refine ⟨front, (above, text), rfl, ?_, hfront, ?_⟩
            · have hgap : ¬ above + 1 = lineNr + 1 + lines.length := by omega
              rw [trailer, if_neg hgap, habove, List.append_nil]
            · simp only [habove]
              exact (decide_eq_true (by omega)).symm
          | cons next rest =>
            have hle := le_of_mem_displayed
              (show next ∈ displayed (lineNr + 1) lines by rw [hshown]; exact List.mem_cons_self ..)
            have hrest := hnonempty (by rw [hshown]; exact List.cons_ne_nil _ _)
            rw [hshown] at hrest
            refine rendered_cons hfront ?_ hrest
            rw [if_neg (by omega), habove]
    · obtain ⟨text, htext, hplain⟩ := hformat line (List.mem_cons_self ..)
      have hdisplayed : displayed lineNr (line :: lines) =
          (lineNr, line.text) :: displayed (lineNr + 1) lines := by
        rw [displayed, if_neg hprint]
      have hline : plain (label palette numbers lineNr ++ text) =
          labelText numbers lineNr ++ line.text.toList := by
        rw [plain_append, plain_label, hplain]
      obtain ⟨out, hout, hrendered⟩ := hbelow lineNr line.text _ rfl hline
      have hrender : ∀ skipped, render palette highlights numbers lineNr skipped (line :: lines) =
          some (label palette numbers lineNr ++ text ++ .char '\n' :: out.1, out.2) := by
        intro skipped
        rw [render, if_neg hprint, htext, Option.bind_some, hout, Option.map_some]
        simp
      rw [hdisplayed]
      refine ⟨⟨_, hrender true, fun h => absurd h (List.cons_ne_nil _ _), fun _ => hrendered⟩, ?_⟩
      intro above upper front habove hfront
      refine ⟨_, hrender false, ?_⟩
      exact rendered_cons hfront (if_pos habove).symm hrendered

end Render

section Last

theorem displayed_eq_nil_iff {lineNr : ℕ} {lines : List MarkedLine} :
    displayed lineNr lines = [] ↔ ∀ k, ¬ Shown lines k := by
  induction lines generalizing lineNr with
  | nil =>
    refine ⟨?_, fun _ => rfl⟩
    rintro - k ⟨line, hline, -⟩
    cases hline
  | cons line lines ih =>
    rw [displayed]
    split_ifs with hprint
    · rw [ih]
      constructor
      · rintro hnone k ⟨other, hother, hshown⟩
        cases k with
        | zero => cases hother; exact hshown hprint
        | succ k => exact hnone k ⟨other, hother, hshown⟩
      · rintro hnone k ⟨other, hother, hshown⟩
        exact hnone (k + 1) ⟨other, hother, hshown⟩
    · constructor
      · intro h
        cases h
      · intro hnone
        exact absurd ⟨line, rfl, hprint⟩ (hnone 0)

/-- The last displayed line has the largest number. -/
theorem getLast?_displayed {lineNr : ℕ} {lines : List MarkedLine} {last : ℕ × String}
    (h : (displayed lineNr lines).getLast? = some last) :
    (∃ k, Shown lines k ∧ last.1 = lineNr + k) ∧ ∀ k, Shown lines k → lineNr + k ≤ last.1 := by
  induction lines generalizing lineNr with
  | nil => cases h
  | cons line lines ih =>
    rw [displayed] at h
    have hlater : (displayed (lineNr + 1) lines).getLast? = some last →
        (∃ k, Shown (line :: lines) k ∧ last.1 = lineNr + k) ∧
          ∀ k, Shown (line :: lines) k → lineNr + k ≤ last.1 := by
      intro hrest
      obtain ⟨⟨k, hk, hlast⟩, hbound⟩ := ih hrest
      refine ⟨⟨k + 1, hk, by omega⟩, ?_⟩
      rintro m ⟨other, hother, hshown⟩
      cases m with
      | zero => omega
      | succ m =>
        have hle := hbound m ⟨other, hother, hshown⟩
        omega
    split_ifs at h with hprint
    · exact hlater h
    · cases hrest : displayed (lineNr + 1) lines with
      | nil =>
        rw [hrest] at h
        cases h
        refine ⟨⟨0, ⟨line, rfl, hprint⟩, rfl⟩, ?_⟩
        rintro m ⟨other, hother, hshown⟩
        cases m with
        | zero => exact le_rfl
        | succ m => exact absurd ⟨other, hother, hshown⟩ (displayed_eq_nil_iff.mp hrest m)
      | cons next rest =>
        rw [hrest, List.getLast?_cons_cons, ← hrest] at h
        exact hlater h

end Last

section Truncation

variable {numbers : Bool}

/-- The ellipsis has at least four columns when lines are numbered, and as
many as the number of the line before it. -/
theorem utf8Len_ellipsis (numbers : Bool) (lineNr : ℕ) :
    utf8Len (ellipsis numbers (lineNr + 1)) =
      if numbers then max 4 (toString lineNr).length else 3 := by
  have hspace : (' ' : Char).utf8Size = 1 := by decide
  have hdot : ('.' : Char).utf8Size = 1 := by decide
  unfold ellipsis
  split_ifs
  · rw [Nat.add_sub_cancel, utf8Len_append, utf8Len_replicate _ hspace, utf8Len_replicate _ hdot]
    omega
  · decide

theorem length_toString_le_iff {lineNr : ℕ} : (toString lineNr).length ≤ 4 ↔ lineNr < 10000 :=
  Nat.length_repr_le_iff (by decide)

/-- Cutting off the end leaves the displayed lines exactly when the last one
is the last line of the source or the ellipsis has four columns. -/
theorem plain_dropBytes_iff {total : ℕ} {front : List Glyph} {lineNr : ℕ} :
    (∃ out, dropBytes (if decide (lineNr + 1 ≠ total) then 6 else 1)
        (front ++ .char '\n' :: ofChars (trailer numbers total lineNr)) = some out ∧
      plain out = plain front) ↔
    lineNr + 1 = total ∨ numbers = true ∧ lineNr < 10000 := by
  have hbreak : ('\n' : Char).utf8Size = 1 := by decide
  by_cases hend : lineNr + 1 = total
  · have htail : size (.char '\n' :: ofChars (trailer numbers total lineNr)) = 1 := by
      rw [size_cons, size_ofChars, Glyph.size_char, hbreak, trailer, if_pos hend]
      rfl
    have hdrop := dropBytes_append front (.char '\n' :: ofChars (trailer numbers total lineNr))
    rw [htail] at hdrop
    rw [if_neg (by simpa using hend), hdrop]
    simp [hend]
  · have htail : size (.char '\n' :: ofChars (trailer numbers total lineNr)) =
        (if numbers then max 4 (toString lineNr).length else 3) + 2 := by
      rw [size_cons, size_ofChars, Glyph.size_char, hbreak, trailer, if_neg hend, utf8Len_append,
        utf8Len_ellipsis, utf8Len_cons, hbreak, utf8Len_nil]
      omega
    have hplain : plain (.char '\n' :: ofChars (trailer numbers total lineNr)) ≠ [] := by
      simp [Glyph.plain]
    rw [if_pos (by simpa using hend)]
    cases numbers with
    | false =>
      simp only [hend, Bool.false_eq_true, false_and, or_self, iff_false]
      rintro ⟨out, hout, hsame⟩
      have hsize : 6 = size (.char '\n' :: ofChars (trailer false total lineNr)) + 1 := by
        rw [htail]
        rfl
      rw [hsize] at hout
      exact plain_ne_of_dropBytes_succ hplain hout hsame
    | true =>
      simp only [if_true] at htail
      simp only [hend, true_and, false_or]
      rw [← length_toString_le_iff]
      constructor
      · rintro ⟨out, hout, hsame⟩
        by_contra hlong
        exact plain_ne_of_dropBytes_lt hbreak (by omega) hout hsame
      · intro hshort
        have hdrop := dropBytes_append front (.char '\n' :: ofChars (trailer true total lineNr))
        have hsize : size (.char '\n' :: ofChars (trailer true total lineNr)) = 6 := by omega
        rw [hsize] at hdrop
        exact ⟨front, hdrop, rfl⟩

end Truncation

/-- The text that a display should consist of: the displayed lines. -/
def expectedText (source : String) (result : QueryResult) (before after : ℕ) (numbers : Bool) :
    List Char :=
  layoutLines numbers (displayed 0 (showContext (markResult source result).toMarks before after))

/-- The display without its colours is exactly the displayed lines. -/
def LosesNothing (palette : Palette) (source : String) (result : QueryResult) (before after : ℕ)
    (numbers : Bool) : Prop :=
  ∃ out, display palette result source before after numbers = some out ∧
    plain out = expectedText source result before after numbers

/-- The last line that a range of the result touches, counted from zero. -/
def LastTouched (source : String) (result : QueryResult) (k : ℕ) : Prop :=
  (∃ range ∈ shownRanges source result, TouchedBy source range k) ∧
    ∀ m, (∃ range ∈ shownRanges source result, TouchedBy source range m) → m ≤ k

section Result

variable {source : String} {result : QueryResult}

/-- Some line is displayed exactly when some range touches a line, and then the
last displayed line is the last one touched. -/
theorem lastTouched_iff (h : WellFormedResult source result) {k : ℕ} :
    LastTouched source result k ↔
      (∃ m, Shown (markResult source result).lines m) ∧ k = (markResult source result).last := by
  obtain ⟨hbound, hlast⟩ := (valid_markResult source result).tracks
  unfold LastTouched
  simp only [← shown_markResult h]
  constructor
  · rintro ⟨hk, hmax⟩
    refine ⟨⟨k, hk⟩, ?_⟩
    obtain hlast | ⟨-, hnone⟩ := hlast
    · have hle := hmax _ hlast
      have hge := hbound k hk
      omega
    · exact absurd hk (hnone k)
  · rintro ⟨⟨m, hm⟩, rfl⟩
    obtain hlast | ⟨-, hnone⟩ := hlast
    · exact ⟨hlast, hbound⟩
    · exact absurd hm (hnone m)

theorem format_showContext (h : WellFormedResult source result) (palette : Palette)
    (before after : ℕ) :
    ∀ line ∈ showContext (markResult source result).toMarks before after,
      ∃ front, format palette (markResult source result).highlights line.toLine 0 =
        some (front ++ [.char '\n']) ∧ plain front = line.text.toList := by
  intro line hline
  have hmem : line.toLine ∈ linesOf source := by
    rw [← (valid_markResult source result).lines, ← toLine_showContext _ before after]
    exact List.mem_map_of_mem hline
  rw [highlights_markResult]
  refine plain_format (lineOf_linesOf hmem) (pairwise_cleanRanges result) ?_
  intro range hrange
  obtain ⟨c, hc, rfl⟩ := exists_of_mem_cleanRanges hrange
  exact h.sliced c hc

end Result

/-- The display of a result is exactly its displayed lines if and only if its
last line is the last line of the source, or lines are numbered and it is
among the first ten thousand lines. -/
theorem losesNothing_iff (palette : Palette) {source : String} {result : QueryResult}
    (h : WellFormedResult source result) (before after : ℕ) (numbers : Bool) :
    LosesNothing palette source result before after numbers ↔
      ∀ k, LastTouched source result k →
        k + 1 = (linesOf source).length ∨ numbers = true ∧ k < 10000 := by
  have hvalid := valid_markResult source result
  obtain ⟨hbound, -⟩ := tracks_showContext hvalid.tracks before after
  have htotal : 0 + (showContext (markResult source result).toMarks before after).length =
      (linesOf source).length := by
    rw [← hvalid.lines, ← toLine_showContext _ before after, List.length_map, Nat.zero_add]
  obtain ⟨out, hout, hempty, hnonempty⟩ :=
    (render_spec numbers 0 (format_showContext h palette before after)).1
  have hdisplay : display palette result source before after numbers =
      dropBytes (if out.2 then 6 else 1) out.1 := by
    rw [display, DisplayHelper.display, hout, Option.bind_some]
  unfold LosesNothing expectedText
  rw [hdisplay]
  by_cases hshown : displayed 0 (showContext (markResult source result).toMarks before after) = []
  · rw [hempty hshown, hshown]
    have hnone := displayed_eq_nil_iff.mp hshown
    refine ⟨fun _ k hk => ?_, fun _ => ⟨[], rfl, rfl⟩⟩
    obtain ⟨m, hm⟩ := exists_shown_showContext_iff.mpr ((lastTouched_iff h).mp hk).1
    exact absurd hm (hnone m)
  · obtain ⟨front, last, hlast, hfront, hplain, hskipped⟩ := hnonempty hshown
    obtain ⟨⟨m, hm, hlastEq⟩, hmax⟩ := getLast?_displayed hlast
    have hsome : ∃ k, Shown (markResult source result).lines k :=
      exists_shown_showContext_iff.mp ⟨m, hm⟩
    have hnumber : last.1 = (markResult source result).last := by
      have hle := hbound m hm
      obtain hshownLast | ⟨-, hnone⟩ := (tracks_showContext hvalid.tracks before after).2
      · have hge := hmax _ hshownLast
        omega
      · exact absurd hm (hnone m)
    rw [hfront, hskipped, ← hplain, plain_dropBytes_iff, htotal, hnumber]
    constructor
    · intro hfits k hk
      rwa [((lastTouched_iff h).mp hk).2]
    · intro hfits
      exact hfits _ ((lastTouched_iff h).mpr ⟨hsome, rfl⟩)

/-- A function on the first of two lines. -/
def twoLines : String := "int f()\x7ba;\x7d\nint g;"

/-- The match of a body pattern with the single statement `a;`. -/
def bodyResult : QueryResult where
  captures := [⟨⟨7, 11⟩, 0, 1⟩, ⟨⟨8, 9⟩, 0, 0⟩]
  vars := ∅
  function := ⟨7, 11⟩
  vars_lt := lookup_empty_lt

theorem wellFormedResult_bodyResult : WellFormedResult twoLines bodyResult where
  nonempty := by decide
  inside := by decide
  sliced := by decide
  enclosed := by
    unfold EnclosedBy Encloses
    decide

/-- With line numbers the function is displayed completely. -/
theorem losesNothing_iff_bodyResult :
    WellFormedResult twoLines bodyResult ∧
      LosesNothing Palette.uncoloured twoLines bodyResult 5 5 true := by
  refine ⟨wellFormedResult_bodyResult,
    (losesNothing_iff Palette.uncoloured wellFormedResult_bodyResult 5 5 true).mpr ?_⟩
  rintro k ⟨⟨range, -, line, hline, -⟩, -⟩
  obtain ⟨hlt, -⟩ := List.getElem?_eq_some_iff.mp hline
  have hlength : (linesOf twoLines).length = 2 := by decide
  exact .inr ⟨rfl, by omega⟩

/-- Without line numbers the display of a function that another line follows
loses its last character. -/
theorem not_losesNothing_bodyResult :
    WellFormedResult twoLines bodyResult ∧
      ¬ LosesNothing Palette.uncoloured twoLines bodyResult 5 5 false := by
  refine ⟨wellFormedResult_bodyResult, ?_⟩
  rintro ⟨out, hout, hplain⟩
  have hcut : display Palette.uncoloured bodyResult twoLines 5 5 false =
      some (ofChars "int f()\x7ba;".toList) := by decide
  rw [hcut] at hout
  cases hout
  have hexpected : expectedText twoLines bodyResult 5 5 false = "int f()\x7ba;\x7d".toList := by
    decide
  rw [hexpected, plain_ofChars] at hplain
  revert hplain
  decide

end WeggliEnhance.TerminalDisplay
