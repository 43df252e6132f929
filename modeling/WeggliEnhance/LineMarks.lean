import Mathlib.Data.List.Sort
import WeggliEnhance.EnclosedResults
import WeggliEnhance.SourceLines

/-!
# Lines marked for display

`result.rs`: the display helper marks the lines that a range touches. It keeps
a cursor into the list of lines, resumes there with the next range and steps
back by one line when it leaves a range. The ranges come in the order of the
source, so resuming never passes over a line that a range touches, unless an
empty range at either end of the source has carried the cursor away.
-/

namespace WeggliEnhance.LineMarks

open SourceText SourceLines QueryResults EnclosedResults

/-- What is known about the display of a line: the values 0, 1 and 2 of the
source. -/
inductive Mark where
  /-- The line is not displayed. -/
  | skipped
  /-- A range touches the line. -/
  | matched
  /-- The line is displayed together with its neighbours. -/
  | shown
  deriving DecidableEq

/-- One line of the source with its mark. -/
structure MarkedLine extends Line where
  /-- Whether the line is displayed. -/
  print : Mark
  deriving DecidableEq

/-- The lines and the cursor of a `DisplayHelper`. -/
structure Marks where
  /-- All lines of the source. -/
  lines : List MarkedLine
  /-- Line where the next range resumes. There is none once the cursor was
  decremented below zero: a release build wraps it around, far behind the
  last line. -/
  curr : Option ℕ
  /-- Smallest marked line, or a number beyond all lines. -/
  first : ℕ
  /-- Largest marked line, or zero. -/
  last : ℕ
  deriving DecidableEq

/-- `DisplayHelper`. -/
structure DisplayHelper extends Marks where
  /-- Ranges printed in colour. -/
  highlights : List Range

/-- `DisplayHelper::new`. -/
def DisplayHelper.new (source : String) : DisplayHelper where
  lines := (linesOf source).map fun line => ⟨line, .skipped⟩
  curr := some 0
  first := 0xFFFFFFFF
  last := 0
  highlights := []

/-- A range touches a line when it reaches beyond both its ends. -/
def Touches (range : Range) (line : Line) : Prop :=
  range.start < line.stop ∧ line.offset < range.stop

instance (range : Range) (line : Line) : Decidable (Touches range line) :=
  inferInstanceAs (Decidable (_ ∧ _))

/-- The statement `self.curr -= 1`. -/
def decrement : ℕ → Option ℕ
  | 0 => none
  | curr + 1 => some curr

/-- The loop of `DisplayHelper::add` over the lines from the cursor on. The
loop index runs in step with the cursor. -/
def scanLines (range : Range) : ℕ → ℕ → ℕ → List MarkedLine → Marks
  | curr, first, last, [] => ⟨[], some curr, first, last⟩
  | curr, first, last, line :: rest =>
    if line.print = .skipped ∧ Touches range line.toLine then
      let scan := scanLines range (curr + 1) (min curr first) (max curr last) rest
      { scan with lines := { line with print := .matched } :: scan.lines }
    else if range.stop ≤ line.offset then
      ⟨line :: rest, decrement curr, first, last⟩
    else
      let scan := scanLines range (curr + 1) first last rest
      { scan with lines := line :: scan.lines }

/-- `DisplayHelper::add`. -/
def Marks.add (self : Marks) (range : Range) : Marks :=
  match self.curr with
  | none => self
  | some curr =>
    let scan := scanLines range curr self.first self.last (self.lines.drop curr)
    { scan with lines := self.lines.take curr ++ scan.lines }

/-- `DisplayHelper::highlight`. -/
def DisplayHelper.highlight (self : DisplayHelper) (range : Range) : DisplayHelper :=
  { self.toMarks.add range with highlights := self.highlights ++ [range] }

/-- `Range::contains`. -/
def holds (range : Range) (offset : ℕ) : Bool :=
  decide (range.start ≤ offset ∧ offset < range.stop)

/-- The loop that drops every range that starts inside the last kept one. -/
def cleanFrom : Option Range → List Range → List Range
  | _, [] => []
  | kept, range :: ranges =>
    if kept.any fun outer => holds outer range.start then cleanFrom kept ranges
    else range :: cleanFrom (some range) ranges

/-- `clean_ranges`: the captures by their first byte, without the first one
and without those inside another. -/
def cleanRanges (result : QueryResult) : List Range :=
  cleanFrom none
    (((result.captures.insertionSort fun a b => a.range.start ≤ b.range.start).drop 1).map
      CaptureResult.range)

/-- The first byte of the function. -/
def header (result : QueryResult) : Range := ⟨result.function.start, result.function.start + 1⟩

/-- The last byte of the function. -/
def footer (result : QueryResult) : Range := ⟨result.function.stop - 1, result.function.stop⟩

/-- The helper of `QueryResult::display` after all its ranges were added. -/
def markResult (source : String) (result : QueryResult) : DisplayHelper :=
  let opened : DisplayHelper := { DisplayHelper.new source with
    toMarks := (DisplayHelper.new source).toMarks.add (header result) }
  let highlighted := (cleanRanges result).foldl DisplayHelper.highlight opened
  { highlighted with toMarks := highlighted.toMarks.add (footer result) }

/-- All ranges whose lines are marked, in the order they are added. -/
def addedRanges (result : QueryResult) : List Range :=
  header result :: (cleanRanges result ++ [footer result])

theorem toMarks_foldl_highlight (ranges : List Range) (helper : DisplayHelper) :
    (ranges.foldl DisplayHelper.highlight helper).toMarks =
      ranges.foldl Marks.add helper.toMarks := by
  induction ranges generalizing helper with
  | nil => rfl
  | cons range ranges ih => rw [List.foldl_cons, List.foldl_cons, ih]; rfl

theorem highlights_foldl_highlight (ranges : List Range) (helper : DisplayHelper) :
    (ranges.foldl DisplayHelper.highlight helper).highlights = helper.highlights ++ ranges := by
  induction ranges generalizing helper with
  | nil => simp
  | cons range ranges ih => rw [List.foldl_cons, ih]; simp [DisplayHelper.highlight]

theorem toMarks_markResult (source : String) (result : QueryResult) :
    (markResult source result).toMarks =
      (addedRanges result).foldl Marks.add (DisplayHelper.new source).toMarks := by
  unfold markResult addedRanges
  simp only
  rw [toMarks_foldl_highlight, List.foldl_cons, List.foldl_append]
  rfl

theorem highlights_markResult (source : String) (result : QueryResult) :
    (markResult source result).highlights = cleanRanges result := by
  unfold markResult
  simp only
  rw [highlights_foldl_highlight]
  rfl

/-- Effect of one range on one line that the cursor passes. -/
def touch (range : Range) (line : MarkedLine) : MarkedLine :=
  if line.print = .skipped ∧ Touches range line.toLine then { line with print := .matched }
  else line

theorem toLine_touch (range : Range) (line : MarkedLine) :
    (touch range line).toLine = line.toLine := by
  unfold touch
  split_ifs <;> rfl

theorem print_touch_iff {range : Range} {line : MarkedLine} :
    (touch range line).print ≠ .skipped ↔ line.print ≠ .skipped ∨ Touches range line.toLine := by
  unfold touch
  split_ifs with h
  · simp [h.2]
  · by_cases hprint : line.print = .skipped
    · simp [hprint] at h ⊢
      exact h
    · simp [hprint]

/-- The loop passes some of the lines, all of them starting before the end of
the range. It leaves at the first other line and steps back. -/
theorem scanLines_cases (range : Range) (curr first last : ℕ) (rest : List MarkedLine) :
    ∃ passed ≤ rest.length,
      (scanLines range curr first last rest).lines =
        (rest.take passed).map (touch range) ++ rest.drop passed ∧
      (∀ (i : ℕ) line, i < passed → rest[i]? = some line → line.offset < range.stop) ∧
      ((passed = rest.length ∧
          (scanLines range curr first last rest).curr = some (curr + passed)) ∨
        ∃ line, rest[passed]? = some line ∧ range.stop ≤ line.offset ∧
          (scanLines range curr first last rest).curr = decrement (curr + passed)) := by
  induction rest generalizing curr first last with
  | nil => exact ⟨0, le_rfl, rfl, fun i line hi => by omega, .inl ⟨rfl, rfl⟩⟩
  | cons line rest ih =>
    rw [scanLines]
    split_ifs with hmarks hleaves
    · obtain ⟨passed, hle, hlines, hbefore, hcurr⟩ := ih (curr + 1) (min curr first) (max curr last)
      refine ⟨passed + 1, Nat.succ_le_succ hle, ?_, ?_, ?_⟩
      · simp only [hlines, List.take_succ_cons, List.map_cons, List.drop_succ_cons,
          List.cons_append, touch, if_pos hmarks]
      · intro i other hi hother
        cases i with
        | zero => cases hother; exact hmarks.2.2
        | succ i => exact hbefore i other (by omega) hother
      · have hadd : curr + (passed + 1) = curr + 1 + passed := by omega
        simpa only [hadd, List.length_cons, Nat.succ_inj, List.getElem?_cons_succ] using hcurr
    · exact ⟨0, Nat.zero_le _, rfl, fun i line hi => by omega, .inr ⟨line, rfl, hleaves, rfl⟩⟩
    · obtain ⟨passed, hle, hlines, hbefore, hcurr⟩ := ih (curr + 1) first last
      refine ⟨passed + 1, Nat.succ_le_succ hle, ?_, ?_, ?_⟩
      · simp only [hlines, List.take_succ_cons, List.map_cons, List.drop_succ_cons,
          List.cons_append, touch, if_neg hmarks]
      · intro i other hi hother
        cases i with
        | zero => cases hother; omega
        | succ i => exact hbefore i other (by omega) hother
      · have hadd : curr + (passed + 1) = curr + 1 + passed := by omega
        simpa only [hadd, List.length_cons, Nat.succ_inj, List.getElem?_cons_succ] using hcurr

theorem getElem?_splice {α : Type} (f : α → α) (xs : List α) {curr passed : ℕ}
    (hcurr : curr ≤ xs.length) (hpassed : passed ≤ (xs.drop curr).length) (k : ℕ) :
    (xs.take curr ++ (((xs.drop curr).take passed).map f ++ (xs.drop curr).drop passed))[k]? =
      if curr ≤ k ∧ k < curr + passed then xs[k]?.map f else xs[k]? := by
  have hleft : (xs.take curr).length = curr := by rw [List.length_take]; omega
  have hmiddle : (((xs.drop curr).take passed).map f).length = passed := by
    rw [List.length_map, List.length_take]
    omega
  obtain hk | hk := Nat.lt_or_ge k curr
  · rw [List.getElem?_append_left (by omega), List.getElem?_take_of_lt hk, if_neg (by omega)]
  · rw [List.getElem?_append_right (by omega), hleft]
    obtain hp | hp := Nat.lt_or_ge k (curr + passed)
    · have hindex : curr + (k - curr) = k := by omega
      rw [List.getElem?_append_left (by omega), List.getElem?_map,
        List.getElem?_take_of_lt (by omega), List.getElem?_drop, hindex, if_pos ⟨hk, hp⟩]
    · have hindex : curr + (passed + (k - curr - passed)) = k := by omega
      rw [List.getElem?_append_right (by omega), hmiddle, List.getElem?_drop, List.getElem?_drop,
        hindex, if_neg (by omega)]

/-- All that adding a range can do: it touches the lines from the cursor up to
the first one behind the range, and the cursor stops at the end of the lines
or one line before the one behind the range. -/
theorem add_cases (self : Marks) (range : Range) {curr : ℕ} (hcurr : self.curr = some curr)
    (hle : curr ≤ self.lines.length) :
    ∃ reached, curr ≤ reached ∧ reached ≤ self.lines.length ∧
      (∀ k : ℕ, (self.add range).lines[k]? =
        if curr ≤ k ∧ k < reached then self.lines[k]?.map (touch range) else self.lines[k]?) ∧
      (∀ (k : ℕ) line, curr ≤ k → k < reached → self.lines[k]? = some line →
        line.offset < range.stop) ∧
      ((reached = self.lines.length ∧ (self.add range).curr = some reached) ∨
        ∃ line, self.lines[reached]? = some line ∧ range.stop ≤ line.offset ∧
          (self.add range).curr = decrement reached) := by
  obtain ⟨passed, hpassed, hlines, hbefore, hend⟩ :=
    scanLines_cases range curr self.first self.last (self.lines.drop curr)
  have hlength := hpassed
  rw [List.length_drop] at hlength
  refine ⟨curr + passed, Nat.le_add_right _ _, by omega, ?_, ?_, ?_⟩
  · intro k
    rw [Marks.add, hcurr]
    simp only [hlines]
    exact getElem?_splice (touch range) self.lines hle hpassed k
  · intro k line hk hreached hline
    have hindex : curr + (k - curr) = k := by omega
    exact hbefore (k - curr) line (by omega) (by rw [List.getElem?_drop, hindex, hline])
  · rw [Marks.add, hcurr]
    obtain ⟨hall, hstep⟩ | ⟨line, hline, hstop, hstep⟩ := hend
    · rw [List.length_drop] at hall
      exact .inl ⟨by omega, hstep⟩
    · rw [List.getElem?_drop] at hline
      exact .inr ⟨line, hline, hstop, hstep⟩

/-- The line with this number is displayed. -/
def Shown (lines : List MarkedLine) (k : ℕ) : Prop :=
  ∃ line, lines[k]? = some line ∧ line.print ≠ .skipped

/-- `last` is the largest displayed line, or zero while there is none. -/
def Tracks (lines : List MarkedLine) (last : ℕ) : Prop :=
  (∀ k, Shown lines k → k ≤ last) ∧ (Shown lines last ∨ last = 0 ∧ ∀ k, ¬ Shown lines k)

theorem shown_matched {done rest : List MarkedLine} {line : MarkedLine} {k : ℕ} :
    Shown (done ++ { line with print := .matched } :: rest) k ↔
      k = done.length ∨ k ≠ done.length ∧ Shown (done ++ line :: rest) k := by
  unfold Shown
  obtain hlt | heq | hgt := Nat.lt_trichotomy k done.length
  · rw [List.getElem?_append_left hlt, List.getElem?_append_left hlt]
    simp [hlt.ne]
  · subst heq
    simp
  · obtain ⟨m, hm⟩ : ∃ m, k - done.length = m + 1 := ⟨k - done.length - 1, by omega⟩
    rw [List.getElem?_append_right hgt.le, List.getElem?_append_right hgt.le, hm,
      List.getElem?_cons_succ, List.getElem?_cons_succ]
    simp [hgt.ne']

theorem tracks_matched {done rest : List MarkedLine} {line : MarkedLine} {last : ℕ}
    (h : Tracks (done ++ line :: rest) last) :
    Tracks (done ++ { line with print := .matched } :: rest) (max done.length last) := by
  obtain ⟨hbound, hlast⟩ := h
  refine ⟨?_, .inl ?_⟩
  · intro k hk
    obtain rfl | ⟨-, hk⟩ := shown_matched.mp hk
    · exact le_max_left _ _
    · exact (hbound k hk).trans (le_max_right _ _)
  · rw [shown_matched]
    by_cases hle : last ≤ done.length
    · exact .inl (max_eq_left hle)
    · have hmax : max done.length last = last := max_eq_right (by omega)
      rw [hmax]
      obtain hlast | ⟨hzero, -⟩ := hlast
      · exact .inr ⟨by omega, hlast⟩
      · omega

theorem tracks_scanLines (range : Range) (rest : List MarkedLine) {done : List MarkedLine}
    (first : ℕ) {last : ℕ} (h : Tracks (done ++ rest) last) :
    Tracks (done ++ (scanLines range done.length first last rest).lines)
      (scanLines range done.length first last rest).last := by
  induction rest generalizing done first last with
  | nil => exact h
  | cons line rest ih =>
    have happend : ∀ other : MarkedLine, (done ++ [other]).length = done.length + 1 := fun other =>
      List.length_append
    rw [scanLines]
    split_ifs
    · have hrest := tracks_matched h
      rw [List.append_cons] at hrest ⊢
      have hscan := ih (min done.length first) hrest
      rwa [happend] at hscan
    · exact h
    · rw [List.append_cons] at h ⊢
      have hscan := ih first h
      rwa [happend] at hscan

/-- What holds of the helper whatever ranges are added. -/
structure Valid (source : String) (marks : Marks) : Prop where
  /-- The marked lines are the lines of the source. -/
  lines : marks.lines.map MarkedLine.toLine = linesOf source
  /-- The cursor stays within the lines or stops behind the last one. -/
  curr_le : ∀ curr, marks.curr = some curr → curr ≤ marks.lines.length
  /-- The largest displayed line is known. -/
  tracks : Tracks marks.lines marks.last

theorem not_shown_new (source : String) (k : ℕ) : ¬ Shown (DisplayHelper.new source).lines k := by
  rintro ⟨line, hline, hprint⟩
  unfold DisplayHelper.new at hline
  rw [List.getElem?_map] at hline
  obtain ⟨old, -, rfl⟩ := Option.map_eq_some_iff.mp hline
  exact hprint rfl

theorem valid_new (source : String) : Valid source (DisplayHelper.new source).toMarks := by
  have hnone := not_shown_new source
  refine ⟨?_, ?_, fun k hk => absurd hk (hnone k), .inr ⟨rfl, hnone⟩⟩
  · unfold DisplayHelper.new
    rw [List.map_map]
    exact List.map_id _
  · intro curr hcurr
    cases hcurr
    exact Nat.zero_le _

section Step

variable {source : String} {self : Marks} {range : Range}

theorem getElem?_toLine (h : Valid source self) {k : ℕ} {line : MarkedLine}
    (hline : self.lines[k]? = some line) : (linesOf source)[k]? = some line.toLine := by
  rw [← h.lines, List.getElem?_map, hline]
  rfl

theorem exists_of_getElem?_linesOf (h : Valid source self) {k : ℕ} {line : Line}
    (hline : (linesOf source)[k]? = some line) :
    ∃ marked, self.lines[k]? = some marked ∧ marked.toLine = line := by
  rw [← h.lines, List.getElem?_map] at hline
  exact Option.map_eq_some_iff.mp hline

theorem length_lines (h : Valid source self) : self.lines.length = (linesOf source).length := by
  rw [← h.lines, List.length_map]

/-- Adding a range changes the marks of the lines only. -/
theorem valid_add (h : Valid source self) (range : Range) : Valid source (self.add range) := by
  cases hcurr : self.curr with
  | none =>
    have hsame : self.add range = self := by rw [Marks.add, hcurr]
    rwa [hsame]
  | some curr =>
    have hle := h.curr_le curr hcurr
    obtain ⟨reached, -, hbound, hlines, -, hend⟩ := add_cases self range hcurr hle
    have hkept : (self.add range).lines.map MarkedLine.toLine =
        self.lines.map MarkedLine.toLine := by
      apply List.ext_getElem?
      intro k
      rw [List.getElem?_map, List.getElem?_map, hlines]
      split_ifs
      · rw [Option.map_map]
        congr 1
        funext line
        exact toLine_touch range line
      · rfl
    have hlength : (self.add range).lines.length = self.lines.length := by
      rw [← List.length_map MarkedLine.toLine, hkept, List.length_map]
    refine ⟨hkept.trans h.lines, ?_, ?_⟩
    · intro next hnext
      obtain ⟨-, hstep⟩ | ⟨-, -, -, hstep⟩ := hend
      · rw [hstep] at hnext
        cases hnext
        omega
      · cases reached with
        | zero =>
          rw [hstep] at hnext
          cases hnext
        | succ reached =>
          rw [hstep] at hnext
          cases hnext
          omega
    · have htracks := h.tracks
      have hdone : (self.lines.take curr).length = curr := List.length_take_of_le hle
      rw [← List.take_append_drop curr self.lines] at htracks
      have hscan := tracks_scanLines range (self.lines.drop curr) self.first htracks
      rw [hdone] at hscan
      rw [Marks.add, hcurr]
      exact hscan

theorem valid_foldl_add (h : Valid source self) (ranges : List Range) :
    Valid source (ranges.foldl Marks.add self) := by
  induction ranges generalizing self with
  | nil => exact h
  | cons range ranges ih => exact ih (valid_add h range)

/-- The number of a line that the range touches. -/
def TouchedBy (source : String) (range : Range) (k : ℕ) : Prop :=
  ∃ line, (linesOf source)[k]? = some line ∧ Touches range line

/-- A line is displayed afterwards when it was displayed before or when the
cursor passed it and the range touches it. -/
theorem shown_iff_of_cases (h : Valid source self) {curr reached : ℕ}
    (hlines : ∀ k : ℕ, (self.add range).lines[k]? =
      if curr ≤ k ∧ k < reached then self.lines[k]?.map (touch range) else self.lines[k]?)
    (k : ℕ) :
    Shown (self.add range).lines k ↔
      Shown self.lines k ∨ (curr ≤ k ∧ k < reached) ∧ TouchedBy source range k := by
  unfold Shown
  rw [hlines]
  split_ifs with hk
  · simp only [hk, and_self, true_and]
    constructor
    · rintro ⟨line, hline, hprint⟩
      obtain ⟨old, hold, rfl⟩ := Option.map_eq_some_iff.mp hline
      obtain hprint | htouches := print_touch_iff.mp hprint
      · exact .inl ⟨old, hold, hprint⟩
      · exact .inr ⟨old.toLine, getElem?_toLine h hold, htouches⟩
    · rintro (⟨line, hline, hprint⟩ | ⟨line, hline, htouches⟩)
      · exact ⟨touch range line, by rw [hline]; rfl, print_touch_iff.mpr (.inl hprint)⟩
      · obtain ⟨old, hold, rfl⟩ := exists_of_getElem?_linesOf h hline
        exact ⟨touch range old, by rw [hold]; rfl, print_touch_iff.mpr (.inr htouches)⟩
  · simp only [hk, false_and, or_false]

/-- A range that touches no line marks none. -/
theorem shown_add_of_untouched (h : Valid source self)
    (hnothing : ∀ k, ¬ TouchedBy source range k) (k : ℕ) :
    Shown (self.add range).lines k ↔ Shown self.lines k := by
  cases hcurr : self.curr with
  | none => rw [Marks.add, hcurr]
  | some curr =>
    obtain ⟨reached, -, -, hlines, -, -⟩ := add_cases self range hcurr (h.curr_le curr hcurr)
    rw [shown_iff_of_cases h hlines]
    simp [hnothing k]

end Step

/-- The cursor is where the ranges still to come can resume: no line up to it
starts behind the start of one of them, and if it has passed the last line,
that line is displayed already. -/
def Resumes (self : Marks) (todo : List Range) : Prop :=
  ∃ curr, self.curr = some curr ∧
    (∀ (k : ℕ) line, k ≤ curr → self.lines[k]? = some line →
      ∀ range ∈ todo, line.offset ≤ range.start) ∧
    (curr = self.lines.length → ∀ k, k + 1 = self.lines.length → Shown self.lines k)

/-- A range that is not an empty one at either end of the source. -/
def Inside (source : String) (range : Range) : Prop :=
  0 < range.stop ∧ range.start < utf8Len source.toList

instance (source : String) (range : Range) : Decidable (Inside source range) :=
  inferInstanceAs (Decidable (_ ∧ _))

section Run

variable {source : String} {self : Marks} {range : Range} {todo : List Range}

/-- The cursor has not passed over a line that the range touches. -/
theorem shown_of_touchedBy (h : Valid source self) {curr : ℕ}
    (hoffsets : ∀ (k : ℕ) line, k ≤ curr → self.lines[k]? = some line →
      line.offset ≤ range.start)
    (hlast : curr = self.lines.length → ∀ k, k + 1 = self.lines.length → Shown self.lines k)
    {k : ℕ} (hk : k < curr) (hle : curr ≤ self.lines.length)
    (htouched : TouchedBy source range k) : Shown self.lines k := by
  obtain hend | hend : k + 1 = self.lines.length ∨ k + 1 < self.lines.length := by omega
  · exact hlast (by omega) k hend
  · exfalso
    have hnext : self.lines[k + 1]? = some self.lines[k + 1] := List.getElem?_eq_getElem hend
    have hoffset := hoffsets (k + 1) _ (by omega) hnext
    obtain ⟨line, hline, hstart, -⟩ := htouched
    have hstop := stop_lt_offset (layout_linesOf source) (Nat.lt_succ_self k) hline
      (getElem?_toLine h hnext)
    omega

/-- No line from the first one behind the range on is touched. -/
theorem not_touchedBy_of_behind (h : Valid source self) {reached k : ℕ} {behind : MarkedLine}
    (hbehind : self.lines[reached]? = some behind) (hstop : range.stop ≤ behind.offset)
    (hk : reached ≤ k) : ¬ TouchedBy source range k := by
  rintro ⟨line, hline, -, hoffset⟩
  obtain rfl | hlt := Nat.eq_or_lt_of_le hk
  · rw [getElem?_toLine h hbehind] at hline
    cases hline
    omega
  · have hgrows := offset_lt_offset (layout_linesOf source) hlt (getElem?_toLine h hbehind) hline
    omega

/-- A range marks all the lines it touches, and the next one can resume. -/
theorem add_inside (h : Valid source self) (hresumes : Resumes self (range :: todo))
    (hinside : Inside source range) (hordered : ∀ next ∈ todo, range.stop ≤ next.start + 1) :
    (∀ k, Shown (self.add range).lines k ↔ Shown self.lines k ∨ TouchedBy source range k) ∧
      Resumes (self.add range) todo := by
  obtain ⟨curr, hcurr, hoffsets, hlast⟩ := hresumes
  have hle := h.curr_le curr hcurr
  have hvalid := valid_add h range
  obtain ⟨reached, hreached, hbound, hlines, hpassed, hend⟩ := add_cases self range hcurr hle
  have hlength : (self.add range).lines.length = self.lines.length := by
    rw [length_lines hvalid, length_lines h]
  have hshown : ∀ k,
      Shown (self.add range).lines k ↔ Shown self.lines k ∨ TouchedBy source range k := by
    intro k
    rw [shown_iff_of_cases h hlines]
    constructor
    · rintro (hold | ⟨-, htouched⟩)
      · exact .inl hold
      · exact .inr htouched
    · rintro (hold | htouched)
      · exact .inl hold
      · obtain hk | hk := Nat.lt_or_ge k curr
        · exact .inl (shown_of_touchedBy h (fun k line hk hline =>
            hoffsets k line hk hline range (List.mem_cons_self ..)) hlast hk hle htouched)
        · refine .inr ⟨⟨hk, ?_⟩, htouched⟩
          by_contra hge
          obtain ⟨hall, -⟩ | ⟨behind, hbehind, hstop, -⟩ := hend
          · obtain ⟨line, hline, -⟩ := htouched
            obtain ⟨hlt, -⟩ := List.getElem?_eq_some_iff.mp hline
            rw [← length_lines h] at hlt
            omega
          · exact not_touchedBy_of_behind h hbehind hstop (by omega) htouched
  have hstarts : ∀ (k : ℕ) line, k < reached ∨ k < curr →
      (self.add range).lines[k]? = some line → ∀ next ∈ todo, line.offset ≤ next.start := by
    intro k line hk hline next hnext
    obtain ⟨old, hold, hsame⟩ := exists_of_getElem?_linesOf h (getElem?_toLine hvalid hline)
    rw [← hsame]
    obtain hlt | hge := Nat.lt_or_ge k curr
    · exact hoffsets k old (by omega) hold next (List.mem_cons_of_mem _ hnext)
    · have hoffset := hpassed k old hge (by omega) hold
      have hnextStart := hordered next hnext
      omega
  refine ⟨hshown, ?_⟩
  obtain ⟨hall, hstep⟩ | ⟨behind, hbehind, hstop, hstep⟩ := hend
  · refine ⟨reached, hstep, ?_, ?_⟩
    · intro k line hk hline
      obtain ⟨hlt, -⟩ := List.getElem?_eq_some_iff.mp hline
      exact hstarts k line (by omega) hline
    · intro _ k hk
      rw [hlength] at hk
      rw [hshown]
      obtain hlt | hge := Nat.lt_or_ge k curr
      · exact .inl (hlast (by omega) k hk)
      · have hline : self.lines[k]? = some self.lines[k] := List.getElem?_eq_getElem (by omega)
        refine .inr ⟨_, getElem?_toLine h hline, ?_, hpassed k _ hge (by omega) hline⟩
        rw [(layout_linesOf source).last k _ (getElem?_toLine h hline)
          (by rw [← length_lines h]; exact hk)]
        exact hinside.2
  · cases reached with
    | zero =>
      have hoffset := (layout_linesOf source).head _ (getElem?_toLine h hbehind)
      have hpos := hinside.1
      omega
    | succ reached =>
      obtain ⟨hlt, -⟩ := List.getElem?_eq_some_iff.mp hbehind
      exact ⟨reached, hstep, fun k line hk => hstarts k line (by omega), fun hend => by omega⟩

/-- No range still to come can mark a line: the cursor is behind the last
line, or the ranges touch nothing. -/
def Lost (source : String) (self : Marks) (todo : List Range) : Prop :=
  self.curr = none ∨ self.curr = some self.lines.length ∨
    ∀ range ∈ todo, ∀ k, ¬ TouchedBy source range k

theorem lost_add (h : Valid source self) (hlost : Lost source self (range :: todo)) :
    (∀ k, Shown (self.add range).lines k ↔ Shown self.lines k) ∧
      Lost source (self.add range) todo := by
  obtain hcurr | hcurr | hnothing := hlost
  · have hsame : self.add range = self := by rw [Marks.add, hcurr]
    rw [hsame]
    exact ⟨fun k => Iff.rfl, .inl hcurr⟩
  · have hsame : self.add range = self := by
      rw [Marks.add, hcurr]
      simp only [List.drop_length, scanLines, List.take_length, List.append_nil, ← hcurr]
    rw [hsame]
    exact ⟨fun k => Iff.rfl, .inr (.inl hcurr)⟩
  · exact ⟨shown_add_of_untouched h (hnothing range (List.mem_cons_self ..)),
      .inr (.inr fun next hnext => hnothing next (List.mem_cons_of_mem _ hnext))⟩

/-- After an empty range at either end of the source nothing is marked any
more. -/
theorem add_outside (h : Valid source self) (hresumes : Resumes self (range :: todo))
    (houtside : ¬ Inside source range) (hrange : range.start ≤ range.stop)
    (hstop : range.stop ≤ utf8Len source.toList)
    (hordered : ∀ next ∈ todo, range.stop ≤ next.start + 1)
    (hends : ∀ next ∈ todo, next.stop ≤ utf8Len source.toList) :
    (∀ k, Shown (self.add range).lines k ↔ Shown self.lines k) ∧
      Lost source (self.add range) todo := by
  obtain ⟨curr, hcurr, hoffsets, -⟩ := hresumes
  have hlayout := layout_linesOf source
  obtain ⟨reached, hreached, hbound, -, hpassed, hend⟩ :=
    add_cases self range hcurr (h.curr_le curr hcurr)
  have hedge : range.stop = 0 ∨ utf8Len source.toList ≤ range.start := by
    unfold Inside at houtside
    omega
  have hnothing : ∀ k, ¬ TouchedBy source range k := by
    rintro k ⟨line, hline, hstart, hoffset⟩
    have hend := stop_le hlayout hline
    omega
  refine ⟨shown_add_of_untouched h hnothing, ?_⟩
  obtain ⟨hall, hstep⟩ | ⟨behind, hbehind, hbehindStop, hstep⟩ := hend
  · refine .inr (.inl ?_)
    rw [hstep, hall, length_lines (valid_add h range), length_lines h]
  · cases reached with
    | zero => exact .inl hstep
    | succ reached =>
      have hbehindLine := getElem?_toLine h hbehind
      obtain ⟨hlt, -⟩ := List.getElem?_eq_some_iff.mp hbehind
      have hmiddle : self.lines[reached]? = some self.lines[reached] :=
        List.getElem?_eq_getElem (by omega)
      have hgrows := offset_lt_offset hlayout (Nat.lt_succ_self reached)
        (getElem?_toLine h hmiddle) hbehindLine
      obtain hzero | htotal := hedge
      · exfalso
        obtain heq | hgt : curr = reached + 1 ∨ curr ≤ reached := by omega
        · have hoffset := hoffsets (reached + 1) behind (by omega) hbehind range
            (List.mem_cons_self ..)
          omega
        · have hoffset := hpassed reached _ hgt (Nat.lt_succ_self reached) hmiddle
          omega
      · refine .inr (.inr ?_)
        rintro next hnext k ⟨line, hline, hstart, hoffset⟩
        have hnextStart := hordered next hnext
        have hnextStop := hends next hnext
        obtain hlt | hge := Nat.lt_or_ge k (reached + 1)
        · have hstops := stop_lt_offset hlayout hlt hline hbehindLine
          have hbehindEnd := stop_le hlayout hbehindLine
          have hbehindOffset := offset_le_stop behind.toLine
          omega
        · exact not_touchedBy_of_behind h hbehind (by omega) hge ⟨line, hline, hstart, hoffset⟩

/-- Ranges after a lost cursor mark nothing. -/
theorem shown_foldl_lost (h : Valid source self) (hlost : Lost source self todo) (k : ℕ) :
    Shown (todo.foldl Marks.add self).lines k ↔ Shown self.lines k := by
  induction todo generalizing self with
  | nil => exact Iff.rfl
  | cons range todo ih =>
    obtain ⟨hshown, hlost⟩ := lost_add h hlost
    exact (ih (valid_add h range) hlost).trans (hshown k)

/-- The displayed lines after a whole run of ranges in the order of the
source: those touched by the ranges before the first one at an end of the
source. -/
theorem shown_foldl_add (h : Valid source self) (hresumes : Resumes self todo)
    (hordered : todo.Pairwise fun a b => a.stop ≤ b.start + 1)
    (hranges : ∀ range ∈ todo, range.start ≤ range.stop ∧ range.stop ≤ utf8Len source.toList)
    (k : ℕ) :
    Shown (todo.foldl Marks.add self).lines k ↔ Shown self.lines k ∨
      ∃ range ∈ todo.takeWhile fun range => decide (Inside source range),
        TouchedBy source range k := by
  induction todo generalizing self with
  | nil => simp
  | cons range todo ih =>
    obtain ⟨hnext, hpairs⟩ := List.pairwise_cons.mp hordered
    have hrest := fun next hmem => hranges next (List.mem_cons_of_mem _ hmem)
    rw [List.foldl_cons]
    by_cases hinside : Inside source range
    · obtain ⟨hshown, hresumed⟩ := add_inside h hresumes hinside hnext
      rw [ih (valid_add h range) hresumed hpairs hrest, hshown, or_assoc]
      simp only [List.takeWhile_cons, hinside, decide_true, if_true, List.exists_mem_cons_iff]
    · obtain ⟨hstart, hstop⟩ := hranges range (List.mem_cons_self ..)
      obtain ⟨hshown, hlost⟩ := add_outside h hresumes hinside hstart hstop hnext
        fun next hmem => (hrest next hmem).2
      rw [shown_foldl_lost (valid_add h range) hlost, hshown]
      simp [hinside]

end Run

section Ranges

theorem mem_of_mem_cleanFrom {kept : Option Range} {ranges : List Range} {range : Range}
    (h : range ∈ cleanFrom kept ranges) : range ∈ ranges := by
  induction ranges generalizing kept with
  | nil => cases h
  | cons first ranges ih =>
    rw [cleanFrom] at h
    split_ifs at h
    · exact List.mem_cons_of_mem _ (ih h)
    · obtain rfl | h := List.mem_cons.mp h
      · exact List.mem_cons_self ..
      · exact List.mem_cons_of_mem _ (ih h)

/-- Among ranges sorted by their start the kept ones do not overlap. -/
theorem pairwise_cleanFrom {kept : Option Range} {ranges : List Range}
    (hsorted : ranges.Pairwise fun a b => a.start ≤ b.start)
    (hkept : ∀ outer ∈ kept, ∀ range ∈ ranges, outer.start ≤ range.start) :
    (cleanFrom kept ranges).Pairwise (fun a b => a.stop ≤ b.start) ∧
      ∀ outer ∈ kept, ∀ range ∈ cleanFrom kept ranges, outer.stop ≤ range.start := by
  induction ranges generalizing kept with
  | nil => exact ⟨List.Pairwise.nil, fun outer _ range h => by cases h⟩
  | cons first ranges ih =>
    obtain ⟨hfirst, hrest⟩ := List.pairwise_cons.mp hsorted
    rw [cleanFrom]
    split_ifs with hcontains
    · exact ih hrest fun outer houter range hrange =>
        hkept outer houter range (List.mem_cons_of_mem _ hrange)
    · have hnext : ∀ outer ∈ some first, ∀ range ∈ ranges, outer.start ≤ range.start := by
        intro outer houter range hrange
        cases houter
        exact hfirst range hrange
      obtain ⟨hpairs, hbehind⟩ := ih hrest hnext
      refine ⟨List.pairwise_cons.mpr ⟨hbehind first rfl, hpairs⟩, ?_⟩
      intro outer houter range hrange
      have hstart := hkept outer houter first (List.mem_cons_self ..)
      have hclear : outer.stop ≤ first.start := by
        cases houter
        simp only [Option.any_some, holds, decide_eq_true_eq] at hcontains
        omega
      obtain rfl | hrange := List.mem_cons.mp hrange
      · exact hclear
      · exact hclear.trans (hfirst range (mem_of_mem_cleanFrom hrange))

theorem exists_of_mem_cleanRanges {result : QueryResult} {range : Range}
    (h : range ∈ cleanRanges result) : ∃ c ∈ result.captures, c.range = range := by
  obtain ⟨c, hc, rfl⟩ := List.mem_map.mp (mem_of_mem_cleanFrom h)
  exact ⟨c, (List.mem_insertionSort _).mp (List.mem_of_mem_drop hc), rfl⟩

/-- The highlighted ranges are sorted and do not overlap. -/
theorem pairwise_cleanRanges (result : QueryResult) :
    (cleanRanges result).Pairwise fun a b => a.stop ≤ b.start := by
  refine (pairwise_cleanFrom ?_ fun outer houter => by cases houter).1
  rw [List.pairwise_map]
  have htotal : Std.Total fun a b : CaptureResult => a.range.start ≤ b.range.start :=
    ⟨fun a b => Nat.le_total _ _⟩
  have htrans : IsTrans CaptureResult fun a b => a.range.start ≤ b.range.start :=
    ⟨fun a b c => Nat.le_trans⟩
  exact (List.pairwise_insertionSort _ _).sublist (List.drop_sublist _ _)

end Ranges

/-- A result whose captures can be sliced and lie inside a function range that
is not empty. -/
structure WellFormedResult (source : String) (result : QueryResult) : Prop where
  /-- The function has at least one byte. -/
  nonempty : result.function.start < result.function.stop
  /-- The function lies inside the source. -/
  inside : result.function.stop ≤ utf8Len source.toList
  /-- Captured ranges lie on character boundaries. -/
  sliced : ∀ c ∈ result.captures, (slice? source c.range).isSome
  /-- Captured ranges lie inside the function. -/
  enclosed : EnclosedBy result.function result

section Result

variable {source : String} {result : QueryResult}

theorem pairwise_addedRanges (hnonempty : result.function.start < result.function.stop)
    (henclosed : EnclosedBy result.function result) :
    (addedRanges result).Pairwise fun a b => a.stop ≤ b.start + 1 := by
  have hinside : ∀ range ∈ cleanRanges result,
      result.function.start ≤ range.start ∧ range.stop ≤ result.function.stop := by
    intro range hrange
    obtain ⟨c, hc, rfl⟩ := exists_of_mem_cleanRanges hrange
    exact henclosed c hc
  have hclean : (cleanRanges result).Pairwise fun a b => a.stop ≤ b.start + 1 :=
    (pairwise_cleanRanges result).imp fun hle => by omega
  refine List.pairwise_cons.mpr ⟨?_, List.pairwise_append.mpr
    ⟨hclean, List.pairwise_singleton .., ?_⟩⟩
  · intro range hrange
    obtain hrange | hrange := List.mem_append.mp hrange
    · have hstart := (hinside range hrange).1
      simp only [header]
      omega
    · rw [List.mem_singleton.mp hrange]
      simp only [header, footer]
      omega
  · intro range hrange last hlast
    rw [List.mem_singleton.mp hlast]
    have hstop := (hinside range hrange).2
    simp only [footer]
    omega

theorem addedRanges_inside (h : WellFormedResult source result) :
    ∀ range ∈ addedRanges result,
      range.start ≤ range.stop ∧ range.stop ≤ utf8Len source.toList := by
  have hnonempty := h.nonempty
  have hinside := h.inside
  intro range hrange
  obtain rfl | hrange := List.mem_cons.mp hrange
  · simp only [header]
    omega
  · obtain hrange | hrange := List.mem_append.mp hrange
    · obtain ⟨c, hc, rfl⟩ := exists_of_mem_cleanRanges hrange
      have hslice := (slice?_isSome_iff.mp (h.sliced c hc)).1
      have hstop := (h.enclosed c hc).2
      exact ⟨hslice, by omega⟩
    · rw [List.mem_singleton.mp hrange]
      simp only [footer]
      omega

theorem resumes_new (source : String) (todo : List Range) :
    Resumes (DisplayHelper.new source).toMarks todo := by
  have hvalid := valid_new source
  refine ⟨0, rfl, ?_, ?_⟩
  · intro k line hk hline range _
    have hzero : k = 0 := by omega
    rw [hzero] at hline
    have hoffset := (layout_linesOf source).head _ (getElem?_toLine hvalid hline)
    omega
  · intro hempty
    rw [length_lines hvalid] at hempty
    exact absurd (List.eq_nil_of_length_eq_zero hempty.symm) (linesOf_ne_nil source)

/-- The ranges whose lines are displayed: those before the first empty one at
an end of the source. -/
def shownRanges (source : String) (result : QueryResult) : List Range :=
  (addedRanges result).takeWhile fun range => decide (Inside source range)

theorem valid_markResult (source : String) (result : QueryResult) :
    Valid source (markResult source result).toMarks := by
  rw [toMarks_markResult]
  exact valid_foldl_add (valid_new source) _

/-- The lines that a result marks are those its ranges touch. -/
theorem shown_markResult (h : WellFormedResult source result) (k : ℕ) :
    Shown (markResult source result).lines k ↔
      ∃ range ∈ shownRanges source result, TouchedBy source range k := by
  have hvalid := valid_new source
  rw [toMarks_markResult, shown_foldl_add hvalid (resumes_new source _)
    (pairwise_addedRanges h.nonempty h.enclosed) (addedRanges_inside h)]
  simp only [not_shown_new, false_or, shownRanges]

end Result

end WeggliEnhance.LineMarks
