import WeggliEnhance.ContextLines

/-!
# Captured lines are marked

The captures of a result are nodes of one syntax tree: their ranges are not
empty, and two of them are nested or disjoint. The filter of the display then
drops only ranges that lie inside a kept one, and the cursor never leaves the
lines. So the marked lines are those that the first byte of the function, its
last byte or a captured range touches. Tree-sitter keeps the offsets of nodes
in 32 bits, so the number that `first` starts with is larger than that of any
line which a result touches.
-/

namespace WeggliEnhance.CapturedLines

open SourceText SourceLines QueryResults EnclosedResults LineMarks LineContext ContextLines

/-- One range lies inside the other, or they have no byte in common. -/
def NestedOrDisjoint (a b : Range) : Prop :=
  Encloses a b ∨ Encloses b a ∨ a.stop ≤ b.start ∨ b.stop ≤ a.start

/-- Captures as nodes of a syntax tree, with the function as the first one. -/
structure NestedResult (result : QueryResult) : Prop where
  /-- Captured ranges are not empty. -/
  nonempty : ∀ c ∈ result.captures, c.range.start < c.range.stop
  /-- Two captured ranges are nested or disjoint. -/
  nested : result.captures.Pairwise fun a b => NestedOrDisjoint a.range b.range
  /-- Of two ranges with the same start the outer one is captured first. -/
  outerFirst : result.captures.Pairwise fun a b =>
    a.range.start = b.range.start → b.range.stop ≤ a.range.stop
  /-- The function is the first capture. -/
  function : ∃ first, result.captures.head? = some first ∧ first.range = result.function
  /-- The function encloses all captures. -/
  enclosed : EnclosedBy result.function result

/-- A line that intersects the first or the last byte of the function or a
capture other than the function itself. -/
def Intersected (source : String) (result : QueryResult) (k : ℕ) : Prop :=
  TouchedBy source (header result) k ∨ TouchedBy source (footer result) k ∨
    ∃ c ∈ result.captures.tail, TouchedBy source c.range k

/-- What the helper of `QueryResult::display` should know of a result. -/
structure MarksExactly (source : String) (result : QueryResult) : Prop where
  /-- The marked lines are those that the result intersects. -/
  marked : ∀ k, Shown (markResult source result).lines k ↔ Intersected source result k
  /-- `first` is the smallest marked line. -/
  first : ∀ k, IsLeast {k | Shown (markResult source result).lines k} k →
    (markResult source result).first = k
  /-- `last` is the largest marked line. -/
  last : ∀ k, IsGreatest {k | Shown (markResult source result).lines k} k →
    (markResult source result).last = k
  /-- The cursor is never decremented below zero. -/
  cursor : ∀ count, (((addedRanges result).take count).foldl Marks.add
    (DisplayHelper.new source).toMarks).curr ≠ none

section Order

variable {result : QueryResult}

/-- Sorting by the first byte keeps outer ranges before inner ones. -/
theorem outerFirst_insertionSort {captures : List CaptureResult}
    (h : captures.Pairwise fun a b =>
      a.range.start = b.range.start → b.range.stop ≤ a.range.stop) :
    (captures.insertionSort fun a b => a.range.start ≤ b.range.start).Pairwise fun a b =>
      a.range.start ≤ b.range.start ∧
        (a.range.start = b.range.start → b.range.stop ≤ a.range.stop) := by
  have hinsert : ∀ (c : CaptureResult) (sorted : List CaptureResult),
      (∀ d ∈ sorted, c.range.start = d.range.start → d.range.stop ≤ c.range.stop) →
      (sorted.Pairwise fun a b => a.range.start ≤ b.range.start ∧
        (a.range.start = b.range.start → b.range.stop ≤ a.range.stop)) →
      (sorted.orderedInsert (fun a b => a.range.start ≤ b.range.start) c).Pairwise fun a b =>
        a.range.start ≤ b.range.start ∧
          (a.range.start = b.range.start → b.range.stop ≤ a.range.stop) := by
    intro c sorted houter hsorted
    induction sorted with
    | nil => exact List.pairwise_singleton _ _
    | cons d sorted ih =>
      obtain ⟨hd, hrest⟩ := List.pairwise_cons.mp hsorted
      rw [List.orderedInsert_cons]
      split_ifs with hle
      · refine List.pairwise_cons.mpr ⟨?_, hsorted⟩
        intro e he
        refine ⟨?_, houter e he⟩
        obtain rfl | he := List.mem_cons.mp he
        · exact hle
        · exact hle.trans (hd e he).1
      · refine List.pairwise_cons.mpr ⟨?_, ih (fun e he => houter e (List.mem_cons_of_mem d he)) hrest⟩
        intro e he
        obtain rfl | he := (List.mem_orderedInsert _).mp he
        · exact ⟨by omega, fun heq => by omega⟩
        · exact hd e he
  induction captures with
  | nil => exact List.Pairwise.nil
  | cons c captures ih =>
    obtain ⟨hc, hrest⟩ := List.pairwise_cons.mp h
    rw [List.insertionSort_cons]
    refine hinsert c _ ?_ (ih hrest)
    exact fun d hd => hc d ((List.mem_insertionSort _).mp hd)

/-- A range that comes later in the order of the source and starts inside an
earlier one lies inside it. -/
def Follows (a b : Range) : Prop := a.start ≤ b.start ∧ (b.start < a.stop → Encloses a b)

/-- Every range lies inside one that the filter keeps. -/
theorem exists_encloses_cleanFrom {kept : Option Range} {ranges : List Range}
    (hfollows : ranges.Pairwise Follows)
    (hkept : ∀ outer ∈ kept, ∀ range ∈ ranges, Follows outer range) :
    ∀ range ∈ ranges, ∃ outer, (outer ∈ kept ∨ outer ∈ cleanFrom kept ranges) ∧
      Encloses outer range := by
  induction ranges generalizing kept with
  | nil =>
    intro range hrange
    cases hrange
  | cons first ranges ih =>
    obtain ⟨hfirst, hrest⟩ := List.pairwise_cons.mp hfollows
    rw [cleanFrom]
    split_ifs with hholds
    · intro range hrange
      obtain rfl | hrange := List.mem_cons.mp hrange
      · obtain ⟨outer, houter, hinside⟩ := (Option.any_eq_true _ _).mp hholds
        rw [holds, decide_eq_true_eq] at hinside
        exact ⟨outer, .inl houter, (hkept outer houter range List.mem_cons_self).2 hinside.2⟩
      · exact ih hrest (fun outer houter other hother =>
          hkept outer houter other (List.mem_cons_of_mem first hother)) range hrange
    · intro range hrange
      obtain rfl | hrange := List.mem_cons.mp hrange
      · exact ⟨range, .inr List.mem_cons_self, encloses_refl range⟩
      · have hnext : ∀ outer ∈ some first, ∀ range ∈ ranges, Follows outer range := by
          intro outer houter other hother
          cases houter
          exact hfirst other hother
        obtain ⟨outer, hkeeps, hencloses⟩ := ih hrest hnext range hrange
        refine ⟨outer, .inr ?_, hencloses⟩
        obtain hsame | hlater := hkeeps
        · cases hsame
          exact List.mem_cons_self
        · exact List.mem_cons_of_mem first hlater

theorem touches_of_encloses {outer inner : Range} {line : Line} (h : Encloses outer inner)
    (htouches : Touches inner line) : Touches outer line :=
  ⟨h.1.trans_lt htouches.1, htouches.2.trans_le h.2⟩

/-- The sorted captures begin with the function. -/
theorem drop_insertionSort (h : NestedResult result) :
    (result.captures.insertionSort fun a b => a.range.start ≤ b.range.start).drop 1 =
      result.captures.tail.insertionSort fun a b => a.range.start ≤ b.range.start := by
  obtain ⟨first, hhead, hrange⟩ := h.function
  obtain ⟨rest, hcaptures⟩ := List.head?_eq_some_iff.mp hhead
  have hfirst : ∀ c ∈ rest, first.range.start ≤ c.range.start := by
    intro c hc
    rw [hrange]
    refine (h.enclosed c ?_).1
    rw [hcaptures]
    exact List.mem_cons_of_mem first hc
  rw [hcaptures, List.insertionSort_cons_of_forall_rel _ hfirst, List.drop_one, List.tail_cons,
    List.tail_cons]

/-- The captures behind the function, sorted, follow each other or lie inside
each other. -/
theorem follows_sorted (h : NestedResult result) :
    ((result.captures.tail.insertionSort fun a b => a.range.start ≤ b.range.start).map
      CaptureResult.range).Pairwise Follows := by
  have htail := List.tail_sublist result.captures
  have hnested : (result.captures.tail.insertionSort fun a b =>
      a.range.start ≤ b.range.start).Pairwise fun a b => NestedOrDisjoint a.range b.range := by
    refine List.Pairwise.perm (h.nested.sublist htail) (List.perm_insertionSort _ _).symm ?_
    rintro a b (hab | hba | hbefore | hbehind)
    · exact .inr (.inl hab)
    · exact .inl hba
    · exact .inr (.inr (.inr hbefore))
    · exact .inr (.inr (.inl hbehind))
  rw [List.pairwise_map]
  refine (hnested.and (outerFirst_insertionSort (h.outerFirst.sublist htail))).imp_of_mem ?_
  intro a b _ hb hboth
  have hnonempty := h.nonempty b (htail.subset ((List.mem_insertionSort _).mp hb))
  obtain ⟨hcase, hle, houter⟩ := hboth
  refine ⟨hle, fun hinside => ?_⟩
  obtain hab | hba | hbefore | hbehind := hcase
  · exact hab
  · have hstart : a.range.start = b.range.start := Nat.le_antisymm hle hba.1
    exact ⟨hle, houter hstart⟩
  · omega
  · omega

/-- The filter drops only ranges whose lines are marked anyway. -/
theorem exists_touchedBy_cleanRanges_iff (h : NestedResult result) {source : String} {k : ℕ} :
    (∃ range ∈ cleanRanges result, TouchedBy source range k) ↔
      ∃ c ∈ result.captures.tail, TouchedBy source c.range k := by
  have hclean : cleanRanges result = cleanFrom none
      ((result.captures.tail.insertionSort fun a b => a.range.start ≤ b.range.start).map
        CaptureResult.range) := by
    rw [cleanRanges, drop_insertionSort h]
  rw [hclean]
  constructor
  · rintro ⟨range, hrange, htouched⟩
    obtain ⟨c, hc, rfl⟩ := List.mem_map.mp (mem_of_mem_cleanFrom hrange)
    exact ⟨c, (List.mem_insertionSort _).mp hc, htouched⟩
  · rintro ⟨c, hc, line, hline, htouches⟩
    have hmem := List.mem_map_of_mem (f := CaptureResult.range)
      ((List.mem_insertionSort fun a b => a.range.start ≤ b.range.start).mpr hc)
    have hstart : ∀ outer ∈ (none : Option Range), ∀ range ∈
        (result.captures.tail.insertionSort fun a b => a.range.start ≤ b.range.start).map
          CaptureResult.range, Follows outer range := by
      intro outer houter
      cases houter
    obtain ⟨outer, hkept | hkept, hencloses⟩ :=
      exists_encloses_cleanFrom (follows_sorted h) hstart _ hmem
    · cases hkept
    · exact ⟨outer, hkept, line, hline, touches_of_encloses hencloses htouches⟩

end Order

section Run

variable {source : String} {self : Marks} {todo : List Range}

/-- A range behind the source touches no line. -/
theorem not_touchedBy_of_behind_source {range : Range}
    (h : utf8Len source.toList ≤ range.start) (k : ℕ) : ¬ TouchedBy source range k := by
  rintro ⟨line, hline, hstart, -⟩
  have hstop := stop_le (layout_linesOf source) hline
  omega

/-- The marked lines after a whole run of ranges in the order of the source
that are not empty. -/
theorem shown_foldl_nonempty (h : Valid source self) (hresumes : Resumes self todo)
    (hordered : todo.Pairwise fun a b => a.stop ≤ b.start + 1)
    (hnonempty : ∀ range ∈ todo, range.start < range.stop) (k : ℕ) :
    Shown (todo.foldl Marks.add self).lines k ↔
      Shown self.lines k ∨ ∃ range ∈ todo, TouchedBy source range k := by
  induction todo generalizing self with
  | nil => simp
  | cons range todo ih =>
    obtain ⟨hnext, hpairs⟩ := List.pairwise_cons.mp hordered
    obtain ⟨hrange, hrest⟩ := List.forall_mem_cons.mp hnonempty
    by_cases hinside : Inside source range
    · obtain ⟨hshown, hresumed⟩ := add_inside h hresumes hinside hnext
      rw [List.foldl_cons, ih (valid_add h range) hresumed hpairs hrest, hshown, or_assoc,
        List.exists_mem_cons_iff]
    · have hbehind : utf8Len source.toList ≤ range.start := by
        unfold Inside at hinside
        omega
      have hnothing : ∀ other ∈ range :: todo, ∀ k, ¬ TouchedBy source other k := by
        intro other hother
        refine not_touchedBy_of_behind_source ?_
        obtain rfl | hother := List.mem_cons.mp hother
        · exact hbehind
        · have hlater := hnext other hother
          omega
      rw [shown_foldl_lost h (.inr (.inr hnothing))]
      refine (or_iff_left ?_).symm
      rintro ⟨other, hother, htouched⟩
      exact hnothing other hother k htouched

/-- A range that does not end at the start of the source leaves a cursor. -/
theorem curr_add_ne_none (h : Valid source self) (hcurr : self.curr ≠ none) {range : Range}
    (hstop : 0 < range.stop) : (self.add range).curr ≠ none := by
  obtain ⟨curr, hsome⟩ := Option.ne_none_iff_exists'.mp hcurr
  obtain ⟨reached, -, -, -, -, hend⟩ := add_cases self range hsome (h.curr_le curr hsome)
  obtain ⟨-, hstep⟩ | ⟨behind, hbehind, hle, hstep⟩ := hend
  · rw [hstep]
    exact Option.some_ne_none _
  · cases reached with
    | zero =>
      have hoffset := (layout_linesOf source).head _ (getElem?_toLine h hbehind)
      omega
    | succ reached =>
      rw [hstep]
      exact Option.some_ne_none _

theorem curr_foldl_ne_none (h : Valid source self) (hcurr : self.curr ≠ none)
    (hstop : ∀ range ∈ todo, 0 < range.stop) : (todo.foldl Marks.add self).curr ≠ none := by
  induction todo generalizing self with
  | nil => exact hcurr
  | cons range todo ih =>
    obtain ⟨hrange, hrest⟩ := List.forall_mem_cons.mp hstop
    exact ih (valid_add h range) (curr_add_ne_none h hcurr hrange) hrest

end Run

section Result

variable {source : String} {result : QueryResult}

theorem function_nonempty (h : NestedResult result) :
    result.function.start < result.function.stop := by
  obtain ⟨first, hhead, hrange⟩ := h.function
  rw [← hrange]
  exact h.nonempty first (List.mem_of_head? hhead)

theorem addedRanges_nonempty (h : NestedResult result) :
    ∀ range ∈ addedRanges result, range.start < range.stop := by
  have hfunction := function_nonempty h
  intro range hrange
  obtain rfl | hrange := List.mem_cons.mp hrange
  · exact Nat.lt_succ_self _
  · obtain hrange | hrange := List.mem_append.mp hrange
    · obtain ⟨c, hc, rfl⟩ := exists_of_mem_cleanRanges hrange
      exact h.nonempty c hc
    · rw [List.mem_singleton.mp hrange]
      simp only [footer]
      omega

/-- The marked lines are those that the result intersects. -/
theorem shown_iff_intersected (h : NestedResult result) (k : ℕ) :
    Shown (markResult source result).lines k ↔ Intersected source result k := by
  rw [toMarks_markResult, shown_foldl_nonempty (valid_new source) (resumes_new source _)
    (pairwise_addedRanges (function_nonempty h) h.enclosed) (addedRanges_nonempty h)]
  simp only [not_shown_new, false_or, addedRanges, List.exists_mem_cons_iff, List.mem_append,
    or_and_right, exists_or, List.mem_singleton, exists_eq_left, Intersected,
    exists_touchedBy_cleanRanges_iff h]
  exact or_congr_right or_comm

theorem added_markResult (source : String) (result : QueryResult) :
    Added (markResult source result).toMarks := by
  rw [toMarks_markResult]
  exact added_foldl_add (valid_new source) (added_new source) _

/-- `first` is the smallest marked line unless that line lies behind the
number that `first` starts with. -/
theorem first_eq_iff {k : ℕ} (h : IsLeast {k | Shown (markResult source result).lines k} k) :
    (markResult source result).first = k ↔ k ≤ sentinel := by
  obtain heq | ⟨hsentinel, hlate⟩ := first_eq_or (added_markResult source result) h
  · have hle := (added_markResult source result).starts.2.1
    exact iff_of_true heq (heq ▸ hle)
  · exact iff_of_false (by omega) (by omega)

end Result

/-- The marks are exact if and only if the smallest line that the result
intersects has a number up to the one that `first` starts with. -/
theorem marksExactly_iff {source : String} {result : QueryResult} (h : NestedResult result) :
    MarksExactly source result ↔
      ∀ k, IsLeast {k | Intersected source result k} k → k ≤ sentinel := by
  have hmarked : ∀ k, Shown (markResult source result).lines k ↔ Intersected source result k :=
    shown_iff_intersected h
  simp only [← hmarked]
  constructor
  · intro hexact k hk
    exact (first_eq_iff hk).mp (hexact.first k hk)
  · intro hsmall
    refine ⟨hmarked, ?_, ?_, ?_⟩
    · intro k hk
      exact (first_eq_iff hk).mpr (hsmall k hk)
    · intro k hk
      exact (isGreatest_last (valid_markResult source result) hk.1).unique hk
    · intro count
      refine curr_foldl_ne_none (valid_new source) (Option.some_ne_none 0) ?_
      intro range hrange
      have hnonempty := addedRanges_nonempty h range (List.mem_of_mem_take hrange)
      omega

/-- Tree-sitter keeps the offsets of its nodes in 32 bits. -/
def OffsetsFit (result : QueryResult) : Prop := ∀ c ∈ result.captures, c.range.stop < 2 ^ 32

/-- A line that a range touches has no larger number than the offsets of the
range. -/
theorem lt_of_touchedBy {source : String} {range : Range} {k : ℕ} (h : TouchedBy source range k) :
    k < range.stop := by
  obtain ⟨line, hline, -, hstop⟩ := h
  have hle := index_le_offset (layout_linesOf source) hline
  omega

/-- Every line that a result of a syntax tree intersects has a small number. -/
theorem le_sentinel_of_intersected {source : String} {result : QueryResult} (h : NestedResult result)
    (hoffsets : OffsetsFit result) {k : ℕ} (hk : Intersected source result k) : k ≤ sentinel := by
  have hfunction : result.function.stop < 2 ^ 32 := by
    obtain ⟨first, hhead, hrange⟩ := h.function
    rw [← hrange]
    exact hoffsets first (List.mem_of_head? hhead)
  have hnonempty := function_nonempty h
  unfold sentinel
  obtain hheader | hfooter | ⟨c, hc, hcapture⟩ := hk
  · have hlt := lt_of_touchedBy hheader
    simp only [header] at hlt
    omega
  · have hlt := lt_of_touchedBy hfooter
    simp only [footer] at hlt
    omega
  · have hlt := lt_of_touchedBy hcapture
    have hstop := hoffsets c (List.mem_of_mem_tail hc)
    omega

/-- The marks are exact for every result of a syntax tree: a line is marked if
and only if it intersects the first byte of the function, its last byte or a
capture other than the function, `first` and `last` are the smallest and the
largest marked line, and the cursor is never decremented below zero. -/
theorem marksExactly_of_offsetsFit {source : String} {result : QueryResult} (h : NestedResult result)
    (hoffsets : OffsetsFit result) : MarksExactly source result :=
  (marksExactly_iff h).mpr fun _ hk => le_sentinel_of_intersected h hoffsets hk.1

/-- The name `a` in the function `int f(){\na;}`. -/
def nameResult : QueryResult where
  captures := [⟨⟨0, 12⟩, 0, 0⟩, ⟨⟨9, 10⟩, 0, 1⟩]
  vars := ∅
  function := ⟨0, 12⟩
  vars_lt := lookup_empty_lt

theorem nestedResult_nameResult : NestedResult nameResult where
  nonempty := by decide
  nested := List.pairwise_pair.mpr (.inl ⟨by decide, by decide⟩)
  outerFirst := List.pairwise_pair.mpr (by decide)
  function := ⟨_, rfl, rfl⟩
  enclosed c hc := by
    rcases List.mem_cons.mp hc with rfl | hc
    · exact encloses_refl _
    · rw [List.mem_singleton.mp hc]
      exact ⟨by decide, by decide⟩

/-- Both lines of the function are marked. -/
theorem marksExactly_of_offsetsFit_nameResult :
    NestedResult nameResult ∧ OffsetsFit nameResult ∧
      MarksExactly "int f()\x7b\na;\x7d" nameResult := by
  have hoffsets : OffsetsFit nameResult := by
    unfold OffsetsFit
    decide
  exact ⟨nestedResult_nameResult, hoffsets,
    marksExactly_of_offsetsFit nestedResult_nameResult hoffsets⟩

end WeggliEnhance.CapturedLines
