import WeggliEnhance.ReportRegions

/-!
# Lines and columns of byte offsets

The line of an offset is the number of line breaks before it, and its column
is counted from the last of them. The two are computed apart from each other,
and together they determine the offset: the line exists, and the offset lies
in it or directly behind it, as many bytes behind its start as the column
says. Larger offsets have larger lines and columns in lexicographic order.
-/

namespace WeggliEnhance.LineColumns

open SourceText SourceLines SarifReport ReportRegions

/-- The last occurrence in a text lies in its last part that has one. -/
theorem rfind_append_of_some {char : Char} (left : List Char) {right : List Char} {offset : ℕ}
    (h : rfind char right = some offset) :
    rfind char (left ++ right) = some (utf8Len left + offset) := by
  induction left with
  | nil => rw [List.nil_append, h, utf8Len_nil, Nat.zero_add]
  | cons c left ih =>
    rw [List.cons_append, rfind, ih, utf8Len_cons, Nat.add_assoc]

theorem columnOf_of_not_mem {before : List Char} (h : '\n' ∉ before) :
    columnOf before = utf8Len before + 1 := by
  have hcolumn := columnOf_append [] h
  have hstart : columnOf [] = 1 := rfl
  rw [List.nil_append, hstart] at hcolumn
  omega

/-- Columns start again behind a line break. -/
theorem columnOf_append_break (text rest : List Char) :
    columnOf (text ++ '\n' :: rest) = columnOf rest := by
  have hbreak : ('\n' : Char).utf8Size = 1 := by decide
  have hlen : utf8Len (text ++ '\n' :: rest) = utf8Len text + (1 + utf8Len rest) := by
    rw [utf8Len_append, utf8Len_cons, hbreak]
  unfold columnOf
  cases hrest : rfind '\n' rest with
  | some offset =>
    have hfind : rfind '\n' ('\n' :: rest) = some (1 + offset) := by
      rw [rfind, hrest, hbreak]
    rw [rfind_append_of_some text hfind, hlen]
    simp only
    omega
  | none =>
    have hfind : rfind '\n' ('\n' :: rest) = some 0 := by
      rw [rfind, hrest]
      exact if_pos rfl
    rw [rfind_append_of_some text hfind, hlen]
    simp only
    omega

/-- Up to its first line break a text is its first line. -/
theorem exists_first_line {before : List Char} (h : '\n' ∉ before) (after : List Char) :
    ∃ rest lines, (before ++ after).splitOn '\n' = (before ++ rest) :: lines := by
  by_cases hbreak : '\n' ∈ after
  · obtain ⟨rest, tail, rfl, hrest⟩ := List.eq_append_cons_of_mem hbreak
    have hline : '\n' ∉ before ++ rest := by
      rw [List.mem_append]
      exact fun hmem => hmem.elim h hrest
    refine ⟨rest, tail.splitOn '\n', ?_⟩
    rw [← List.append_assoc, List.splitOn_append_cons_self_of_not_mem hline]
  · have hline : '\n' ∉ before ++ after := by
      rw [List.mem_append]
      exact fun hmem => hmem.elim h hbreak
    exact ⟨after, [], List.splitOn_eq_singleton hline⟩

/-- A position lies in the line whose number is the number of line breaks
before it, behind as many bytes of that line as its column says. -/
theorem exists_line (start : ℕ) (before after : List Char) :
    ∃ line, (linesFrom start ((before ++ after).splitOn '\n'))[before.count '\n']? = some line ∧
      line.offset + columnOf before = start + utf8Len before + 1 ∧
      start + utf8Len before ≤ line.stop := by
  induction hlength : before.length using Nat.strong_induction_on generalizing start before with
  | _ length ih =>
    by_cases hbreak : '\n' ∈ before
    · obtain ⟨text, rest, rfl, htext⟩ := List.eq_append_cons_of_mem hbreak
      have hshorter : rest.length < length := by
        rw [← hlength, List.length_append, List.length_cons]
        omega
      obtain ⟨line, hline, hcolumn, hstop⟩ :=
        ih rest.length hshorter (start + utf8Len text + 1) rest rfl
      have hcount : (text ++ '\n' :: rest).count '\n' = rest.count '\n' + 1 := by
        rw [List.count_append, List.count_eq_zero.mpr htext, List.count_cons_self, Nat.zero_add]
      have hlen : utf8Len (text ++ '\n' :: rest) = utf8Len text + (1 + utf8Len rest) := by
        rw [utf8Len_append, utf8Len_cons]
        rfl
      refine ⟨line, ?_, ?_, ?_⟩
      · rw [List.append_assoc, List.cons_append, List.splitOn_append_cons_self_of_not_mem htext,
          linesFrom, hcount, List.getElem?_cons_succ, hline]
      · rw [columnOf_append_break, hcolumn, hlen]
        omega
      · rw [hlen]
        omega
    · obtain ⟨rest, lines, hsplit⟩ := exists_first_line hbreak after
      rw [hsplit, linesFrom, List.count_eq_zero.mpr hbreak]
      refine ⟨_, rfl, ?_, ?_⟩
      · rw [columnOf_of_not_mem hbreak]
        simp only
        omega
      · rw [Line.stop, String.toList_ofList, utf8Len_append]
        simp only
        omega

/-- Later positions have larger lines, or the same line and larger columns. -/
theorem position_lt (before : List Char) {middle : List Char} (h : middle ≠ []) :
    before.count '\n' < (before ++ middle).count '\n' ∨
      before.count '\n' = (before ++ middle).count '\n' ∧
        columnOf before < columnOf (before ++ middle) := by
  rw [List.count_append]
  by_cases hbreak : '\n' ∈ middle
  · have hcount := List.count_pos_iff.mpr hbreak
    left
    omega
  · right
    have hpos : utf8Len middle ≠ 0 := fun hzero => h (eq_nil_of_utf8Len_eq_zero hzero)
    rw [List.count_eq_zero.mpr hbreak, columnOf_append before hbreak]
    exact ⟨rfl, by omega⟩

/-- Every offset between two characters has a line and a column, the line is
one of the lines of the text, and the offset lies one byte less than the
column behind the start of this line, at most directly behind its last byte.
Of two such offsets the larger one has the larger line, or the same line and
the larger column. -/
theorem line_column_invertible (source : String) :
    (∀ offset, IsBoundary source.toList offset → ∃ lineNr column line,
      byteToLine source offset = some lineNr ∧ byteToColumn source offset = some column ∧
      (linesOf source)[lineNr]? = some line ∧ line.offset + (column - 1) = offset ∧
      1 ≤ column ∧ column ≤ utf8Len line.text.toList + 1) ∧
    ∀ offset offset', IsBoundary source.toList offset → IsBoundary source.toList offset' →
      offset < offset' → ∀ lineNr column lineNr' column',
      byteToLine source offset = some lineNr → byteToColumn source offset = some column →
      byteToLine source offset' = some lineNr' → byteToColumn source offset' = some column' →
      lineNr < lineNr' ∨ lineNr = lineNr' ∧ column < column' := by
  constructor
  · rintro offset ⟨before, after, hsource, rfl⟩
    obtain ⟨line, hline, hcolumn, hstop⟩ := exists_line 0 before after
    have hpos := columnOf_pos before
    rw [← hsource] at hline
    unfold Line.stop at hstop
    exact ⟨before.count '\n', columnOf before, line, byteToLine_before hsource,
      byteToColumn_before hsource, hline, by omega, hpos, by omega⟩
  · rintro offset offset' ⟨before, after, hsource, rfl⟩ ⟨upto, rest, hwhole, rfl⟩ hlt
    obtain ⟨middle, rfl, -⟩ :=
      exists_append_of_utf8Len_le (hsource.symm.trans hwhole) hlt.le
    have hmiddle : middle ≠ [] := by
      rintro rfl
      rw [List.append_nil] at hlt
      exact lt_irrefl _ hlt
    intro lineNr column lineNr' column' hline hcolumn hline' hcolumn'
    rw [byteToLine_before hsource] at hline
    rw [byteToColumn_before hsource] at hcolumn
    rw [byteToLine_before hwhole] at hline'
    rw [byteToColumn_before hwhole] at hcolumn'
    cases hline
    cases hcolumn
    cases hline'
    cases hcolumn'
    exact position_lt before hmiddle

end WeggliEnhance.LineColumns
