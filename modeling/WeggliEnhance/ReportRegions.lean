import WeggliEnhance.SarifReport
import WeggliEnhance.SourceLines

/-!
# Regions of the report

The SARIF document and the terminal both say where a finding is. The regions
of the document have columns from one on and end where they start or later,
but their lines are counted from zero, while the terminal counts from one. So
the two never name the same line, and a finding on the first line has a region
that the schema does not allow.
-/

namespace WeggliEnhance.ReportRegions

open SourceText SourceLines ThirdParty QueryResults PipelineWork SarifReport

/-- The line that `print_terminal` prints for a result. There is none where
slicing the source panics. -/
def terminalLine (r : ResultsCtx) : Option ℕ :=
  (slice? r.source ⟨0, r.result.startOffset⟩).map fun text => text.toList.count '\n' + 1

/-- A region that the schema allows and that starts on the line shown on the
terminal. -/
structure RegionAgrees (r : ResultsCtx) (output : OutputResults) : Prop where
  /-- Lines and columns are counted from one. -/
  positive : 1 ≤ output.startLine ∧ 1 ≤ output.startColumn ∧ 1 ≤ output.endLine ∧
    1 ≤ output.endColumn
  /-- The region does not end before it starts. -/
  ordered : output.startLine < output.endLine ∨
    output.startLine = output.endLine ∧ output.startColumn ≤ output.endColumn
  /-- The terminal shows the same line. -/
  sameLine : (terminalLine r).map Int.ofNat = some output.startLine

/-- The parts of a finding that was converted. -/
theorem toOutput_eq_some {r : ResultsCtx} {output : OutputResults} (h : toOutput r = some output) :
    ∃ startLine startColumn endLine endColumn,
      byteToLine r.source r.result.startOffset = some startLine ∧
      byteToColumn r.source r.result.startOffset = some startColumn ∧
      byteToLine r.source r.result.functionRange.stop = some endLine ∧
      byteToColumn r.source r.result.functionRange.stop = some endColumn ∧
      output = ⟨r.queryIndex, r.path, r.reason, r.issue, startLine, startColumn, endLine,
        endColumn⟩ := by
  simp only [toOutput, Option.bind_eq_bind, Option.bind_eq_some_iff] at h
  obtain ⟨startLine, hstart, startColumn, hcolumn, endLine, hend, endColumn, hendColumn, heq⟩ := h
  cases heq
  exact ⟨startLine, startColumn, endLine, endColumn, hstart, hcolumn, hend, hendColumn, rfl⟩

/-- Where the terminal has a line, the document has the one before it. -/
theorem byteToLine_of_terminalLine {r : ResultsCtx} {line : ℕ} (h : terminalLine r = some line) :
    byteToLine r.source r.result.startOffset = some (line - 1) ∧ 1 ≤ line := by
  obtain ⟨text, htext, rfl⟩ := Option.map_eq_some_iff.mp h
  have hslice := (slice?_isSome_iff.mp (Option.isSome_of_eq_some htext)).2.2
  obtain ⟨before, after, hsource, hbefore⟩ := hslice
  have hle : r.result.startOffset ≤ utf8Len r.source.toList := by
    rw [hsource, utf8Len_append]
    simp only at hbefore
    omega
  rw [byteToLine, min_eq_left hle, htext]
  exact ⟨rfl, Nat.le_add_left 1 _⟩

/-- No result has a region that agrees with the terminal. -/
theorem not_regionAgrees (r : ResultsCtx) :
    ¬ ∃ output, toOutput r = some output ∧ RegionAgrees r output := by
  rintro ⟨output, houtput, hagrees⟩
  obtain ⟨startLine, startColumn, endLine, endColumn, hline, -, -, -, heq⟩ :=
    toOutput_eq_some houtput
  obtain ⟨line, hterminal, hsame⟩ := Option.map_eq_some_iff.mp hagrees.sameLine
  obtain ⟨hbefore, hpositive⟩ := byteToLine_of_terminalLine hterminal
  rw [hline] at hbefore
  have hstart : startLine = line - 1 := Option.some.inj hbefore
  have hlines : (line : ℤ) = startLine := by rw [heq] at hsame; exact hsame
  omega

theorem rfind_lt {char : Char} {chars : List Char} {offset : ℕ}
    (h : rfind char chars = some offset) : offset < utf8Len chars := by
  induction chars generalizing offset with
  | nil => cases h
  | cons c chars ih =>
    have hpos := c.utf8Size_pos
    rw [rfind] at h
    rw [utf8Len_cons]
    cases hrest : rfind char chars with
    | some inner =>
      rw [hrest] at h
      have hinner := ih hrest
      cases h
      omega
    | none =>
      rw [hrest] at h
      simp only at h
      split_ifs at h
      cases h
      omega

/-- Characters without an occurrence do not move the last one. -/
theorem rfind_append {char : Char} (left : List Char) {right : List Char} (h : char ∉ right) :
    rfind char (left ++ right) = rfind char left := by
  induction left with
  | nil =>
    induction right with
    | nil => rfl
    | cons c right ih =>
      rw [List.mem_cons, not_or] at h
      have hrest : rfind char right = none := ih h.2
      simp only [List.nil_append, rfind, hrest]
      exact if_neg (Ne.symm h.1)
  | cons c left ih => rw [List.cons_append, rfind, rfind, ih]

section Positions

variable {source : String} {before after : List Char}

theorem slice?_before (h : source.toList = before ++ after) :
    slice? source ⟨0, utf8Len before⟩ = some (String.ofList before) :=
  slice?_eq_some (by rw [String.toList_ofList, List.nil_append, h]) rfl
    (by rw [String.toList_ofList, utf8Len_nil, Nat.zero_add])

theorem min_before (h : source.toList = before ++ after) :
    min (utf8Len before) (utf8Len source.toList) = utf8Len before := by
  rw [h, utf8Len_append]
  omega

/-- The line of a position is the number of line breaks before it. -/
theorem byteToLine_before (h : source.toList = before ++ after) :
    byteToLine source (utf8Len before) = some (before.count '\n') := by
  rw [byteToLine, min_before h, slice?_before h, Option.map_some, String.toList_ofList]

/-- The number of bytes behind the last line break before a position, from one
on. -/
def columnOf (before : List Char) : ℕ :=
  match rfind '\n' before with
  | some lastNewline => utf8Len before - lastNewline
  | none => utf8Len before + 1

theorem byteToColumn_before (h : source.toList = before ++ after) :
    byteToColumn source (utf8Len before) = some (columnOf before) := by
  simp only [byteToColumn, min_before h, slice?_before h, Option.map_some, String.toList_ofList]
  rfl

theorem columnOf_pos (before : List Char) : 1 ≤ columnOf before := by
  unfold columnOf
  cases h : rfind '\n' before with
  | none => exact Nat.le_add_left 1 _
  | some offset =>
    have hlt := rfind_lt h
    simp only
    omega

/-- On the same line, a later position has a larger column. -/
theorem columnOf_append (before : List Char) {middle : List Char} (h : '\n' ∉ middle) :
    columnOf (before ++ middle) = columnOf before + utf8Len middle := by
  unfold columnOf
  rw [rfind_append before h, utf8Len_append]
  cases hfind : rfind '\n' before with
  | none =>
    simp only
    omega
  | some offset =>
    have hlt := rfind_lt hfind
    simp only
    omega

end Positions

/-- A match of the whole sample program. -/
def firstLineResult : ResultsCtx :=
  ⟨0, "f.c", sampleSource, ⟨[⟨⟨0, 11⟩, 0, 0⟩], ∅, ⟨0, 11⟩, lookup_empty_lt⟩, "reason", "issue"⟩

/-- A match on the first line is reported on line zero and printed on line one. -/
theorem not_regionAgrees_firstLine :
    toOutput firstLineResult = some ⟨0, "f.c", "reason", "issue", 0, 1, 0, 12⟩ ∧
      terminalLine firstLineResult = some 1 ∧
      ¬ RegionAgrees firstLineResult ⟨0, "f.c", "reason", "issue", 0, 1, 0, 12⟩ := by
  refine ⟨by decide +kernel, by decide +kernel, ?_⟩
  intro h
  have hpositive : (1 : ℤ) ≤ 0 := h.positive.1
  omega

end WeggliEnhance.ReportRegions
