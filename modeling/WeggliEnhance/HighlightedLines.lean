import WeggliEnhance.TerminalDisplay

/-!
# Highlighting keeps the lines

Whatever is captured, in any order and with any overlaps, the ranges that the
display keeps for highlighting follow each other. So the parts of a line that
are printed in colour and the parts between them cover the line from left to
right: every slice of it is valid, and without its colours the line is printed
as it stands in the source.
-/

namespace WeggliEnhance.HighlightedLines

open SourceText SourceLines QueryResults LineMarks StyledText TerminalDisplay

/-- Captured ranges that lie between characters of the source. -/
def OnBoundaries (source : String) (result : QueryResult) : Prop :=
  ∀ c ∈ result.captures, c.range.start ≤ c.range.stop ∧
    IsBoundary source.toList c.range.start ∧ IsBoundary source.toList c.range.stop

/-- The slices that highlighting takes of a line: from the end of one range to
the start of the next, and from the start of a range to its end. -/
structure SlicesWithin (line : Line) (ranges : List Range) : Prop where
  /-- One range ends before the next one starts. -/
  ordered : ranges.Pairwise fun a b => clipStop line a ≤ clipStart line b
  /-- A range does not end before the line or before it starts. -/
  forwards : ∀ range ∈ ranges, line.offset ≤ range.stop ∧
    clipStart line range ≤ clipStop line range
  /-- A range does not end behind the line. -/
  within : ∀ range ∈ ranges, clipStop line range ≤ utf8Len line.text.toList

theorem clipStop_le (line : Line) (range : Range) :
    clipStop line range ≤ utf8Len line.text.toList := by
  unfold clipStop Line.stop
  split_ifs <;> omega

section Ranges

variable {source : String} {result : QueryResult}

/-- The kept ranges are sorted and do not overlap. -/
theorem pairwise_sorted_cleanRanges (h : OnBoundaries source result) :
    (cleanRanges result).Pairwise fun a b => a.start ≤ b.start ∧ a.stop ≤ b.start := by
  refine (pairwise_cleanRanges result).imp_of_mem ?_
  intro a b ha _ hordered
  obtain ⟨c, hc, rfl⟩ := exists_of_mem_cleanRanges ha
  exact ⟨(h c hc).1.trans hordered, hordered⟩

theorem slice?_cleanRanges (h : OnBoundaries source result) :
    ∀ range ∈ cleanRanges result, (slice? source range).isSome := by
  intro range hrange
  obtain ⟨c, hc, rfl⟩ := exists_of_mem_cleanRanges hrange
  exact slice?_isSome_iff.mpr (h c hc)

/-- Ranges that follow each other cut a line into slices from left to right. -/
theorem slicesWithin_filter {line : Line} {ranges : List Range}
    (hordered : ranges.Pairwise fun a b => a.stop ≤ b.start)
    (hranges : ∀ range ∈ ranges, range.start ≤ range.stop) :
    SlicesWithin line (ranges.filter (meets line)) := by
  have hmeets : ∀ range ∈ ranges.filter (meets line),
      range ∈ ranges ∧ range.start ≤ line.stop ∧ line.offset ≤ range.stop := by
    intro range hrange
    obtain ⟨hmem, hmeet⟩ := List.mem_filter.mp hrange
    rw [meets, decide_eq_true_eq] at hmeet
    exact ⟨hmem, hmeet⟩
  refine ⟨?_, ?_, fun range _ => clipStop_le line range⟩
  · refine (hordered.filter _).imp_of_mem ?_
    intro a b _ hb hle
    exact clipStop_le_clipStart hle (hmeets b hb).2.1
  · intro range hrange
    obtain ⟨hmem, hstart, hstop⟩ := hmeets range hrange
    exact ⟨hstop, clipStart_le_clipStop (hranges range hmem) hstart⟩

end Ranges

/-- The ranges that the display keeps are sorted and do not overlap, and with
them every line of the source is cut into valid slices and printed, without
its colours, as it stands in the source. -/
theorem format_highlights (palette : Palette) {source : String} {result : QueryResult}
    (h : OnBoundaries source result) :
    ((cleanRanges result).Pairwise fun a b => a.start ≤ b.start ∧ a.stop ≤ b.start) ∧
      (markResult source result).highlights = cleanRanges result ∧
      ∀ line ∈ linesOf source, ∀ hindex,
        SlicesWithin line (((cleanRanges result).drop hindex).filter (meets line)) ∧
        ∃ text, format palette (cleanRanges result) line hindex = some text ∧
          plain text = line.text.toList ++ ['\n'] := by
  refine ⟨pairwise_sorted_cleanRanges h, highlights_markResult source result, ?_⟩
  intro line hline hindex
  have hordered : ((cleanRanges result).drop hindex).Pairwise fun a b => a.stop ≤ b.start :=
    (pairwise_cleanRanges result).sublist (List.drop_sublist _ _)
  have hsliced : ∀ range ∈ (cleanRanges result).drop hindex, (slice? source range).isSome :=
    fun range hrange => slice?_cleanRanges h range (List.mem_of_mem_drop hrange)
  refine ⟨slicesWithin_filter hordered ?_, ?_⟩
  · exact fun range hrange => (slice?_isSome_iff.mp (hsliced range hrange)).1
  · obtain ⟨front, hfront, hplain⟩ := plain_format (lineOf_linesOf hline) hordered hsliced
    refine ⟨front ++ [.char '\n'], hfront, ?_⟩
    rw [plain_append, hplain]
    rfl

/-- A sum on two lines, captured together with both of its operands and with
nothing behind it, in the wrong order. -/
def overlappingResult : QueryResult where
  captures := [⟨⟨0, 7⟩, 0, 0⟩, ⟨⟨4, 5⟩, 0, 1⟩, ⟨⟨5, 5⟩, 0, 2⟩, ⟨⟨1, 5⟩, 0, 3⟩, ⟨⟨1, 2⟩, 0, 4⟩]
  vars := ∅
  function := ⟨0, 7⟩
  vars_lt := lookup_empty_lt

/-- The text of that sum. -/
def overlappingText : String := "\x7ba\n+b;\x7d"

theorem format_highlights_overlapping :
    OnBoundaries overlappingText overlappingResult ∧
      ((cleanRanges overlappingResult).Pairwise fun a b => a.start ≤ b.start ∧ a.stop ≤ b.start) ∧
      (markResult overlappingText overlappingResult).highlights =
        cleanRanges overlappingResult ∧
      ∀ line ∈ linesOf overlappingText, ∀ hindex,
        SlicesWithin line (((cleanRanges overlappingResult).drop hindex).filter (meets line)) ∧
        ∃ text, format Palette.uncoloured (cleanRanges overlappingResult) line hindex =
          some text ∧ plain text = line.text.toList ++ ['\n'] := by
  have hboundaries : OnBoundaries overlappingText overlappingResult := by
    have hsliced : ∀ c ∈ overlappingResult.captures, (slice? overlappingText c.range).isSome := by
      decide
    exact fun c hc => slice?_isSome_iff.mp (hsliced c hc)
  exact ⟨hboundaries, format_highlights Palette.uncoloured hboundaries⟩

end WeggliEnhance.HighlightedLines
