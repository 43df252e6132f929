import WeggliEnhance.GreedyCover
import WeggliEnhance.LineContext

/-!
# Exact context lines

Which lines are displayed in the end, for any ranges that were added and any
number of context lines. The loop widens the lines that lead a greedy sweep
over the marked lines, because it turns every line it shows into context and
never widens context. So context is missing exactly where a gap opens behind a
widened line that has swept over another marked line.
-/

namespace WeggliEnhance.ContextLines

open SourceText SourceLines LineMarks LineContext GreedyCover

/-- The number that `first` starts with. -/
def sentinel : ℕ := 0xFFFFFFFF

/-- `first` is the smallest displayed line, unless there is none up to the
number it starts with. -/
def Starts (lines : List MarkedLine) (first : ℕ) : Prop :=
  (∀ k, Shown lines k → first ≤ k) ∧ first ≤ sentinel ∧ (Shown lines first ∨ first = sentinel)

/-- What adding ranges establishes beyond the validity of the helper. -/
structure Added (marks : Marks) : Prop where
  /-- The smallest marked line is known. -/
  starts : Starts marks.lines marks.first
  /-- No line is context yet. -/
  plain : ∀ line ∈ marks.lines, line.print ≠ .shown

theorem starts_matched {done rest : List MarkedLine} {line : MarkedLine} {first : ℕ}
    (h : Starts (done ++ line :: rest) first) :
    Starts (done ++ { line with print := .matched } :: rest) (min done.length first) := by
  obtain ⟨hbound, hsentinel, hfirst⟩ := h
  refine ⟨?_, by omega, ?_⟩
  · intro k hk
    obtain rfl | ⟨-, hk⟩ := shown_matched.mp hk
    · exact min_le_left _ _
    · exact (min_le_right _ _).trans (hbound k hk)
  · by_cases hle : done.length ≤ first
    · rw [min_eq_left hle, shown_matched]
      exact .inl (.inl rfl)
    · have hmin : min done.length first = first := min_eq_right (by omega)
      rw [hmin, shown_matched]
      obtain hfirst | hfirst := hfirst
      · exact .inl (.inr ⟨by omega, hfirst⟩)
      · exact .inr hfirst

theorem starts_scanLines (range : Range) (rest : List MarkedLine) {done : List MarkedLine}
    {first : ℕ} (last : ℕ) (h : Starts (done ++ rest) first) :
    Starts (done ++ (scanLines range done.length first last rest).lines)
      (scanLines range done.length first last rest).first := by
  induction rest generalizing done first last with
  | nil => exact h
  | cons line rest ih =>
    have happend : ∀ other : MarkedLine, (done ++ [other]).length = done.length + 1 := fun other =>
      List.length_append
    rw [scanLines]
    split_ifs
    · have hrest := starts_matched h
      rw [List.append_cons] at hrest ⊢
      have hscan := ih (max done.length last) hrest
      rwa [happend] at hscan
    · exact h
    · rw [List.append_cons] at h ⊢
      have hscan := ih last h
      rwa [happend] at hscan

theorem plain_scanLines (range : Range) (curr first last : ℕ) {rest : List MarkedLine}
    (h : ∀ line ∈ rest, line.print ≠ .shown) :
    ∀ line ∈ (scanLines range curr first last rest).lines, line.print ≠ .shown := by
  induction rest generalizing curr first last with
  | nil => exact h
  | cons line rest ih =>
    obtain ⟨hline, hrest⟩ := List.forall_mem_cons.mp h
    rw [scanLines]
    split_ifs
    · exact List.forall_mem_cons.mpr ⟨Mark.noConfusion, ih _ _ _ hrest⟩
    · exact h
    · exact List.forall_mem_cons.mpr ⟨hline, ih _ _ _ hrest⟩

theorem added_new (source : String) : Added (DisplayHelper.new source).toMarks := by
  refine ⟨⟨?_, le_rfl, .inr rfl⟩, ?_⟩
  · intro k hk
    exact absurd hk (not_shown_new source k)
  · intro line hline
    obtain ⟨other, -, rfl⟩ := List.mem_map.mp hline
    exact Mark.noConfusion

theorem added_add {source : String} {self : Marks} (hvalid : Valid source self) (h : Added self)
    (range : Range) : Added (self.add range) := by
  cases hcurr : self.curr with
  | none =>
    have hsame : self.add range = self := by rw [Marks.add, hcurr]
    rwa [hsame]
  | some curr =>
    have hdone : (self.lines.take curr).length = curr :=
      List.length_take_of_le (hvalid.curr_le curr hcurr)
    have hstarts := h.starts
    rw [← List.take_append_drop curr self.lines] at hstarts
    have hscan := starts_scanLines range (self.lines.drop curr) self.last hstarts
    rw [hdone] at hscan
    rw [Marks.add, hcurr]
    refine ⟨hscan, ?_⟩
    intro line hline
    obtain hline | hline := List.mem_append.mp hline
    · exact h.plain line (List.mem_of_mem_take hline)
    · refine plain_scanLines range curr self.first self.last ?_ line hline
      intro other hother
      exact h.plain other (List.mem_of_mem_drop hother)

theorem added_foldl_add {source : String} {self : Marks} (hvalid : Valid source self)
    (h : Added self) (ranges : List Range) : Added (ranges.foldl Marks.add self) := by
  induction ranges generalizing self with
  | nil => exact h
  | cons range ranges ih => exact ih (valid_add hvalid range) (added_add hvalid h range)

/-- The mark of the line with a number. -/
def printAt (lines : List MarkedLine) (k : ℕ) : Option Mark := lines[k]?.map MarkedLine.print

theorem shown_iff_printAt {lines : List MarkedLine} {k : ℕ} :
    Shown lines k ↔ k < lines.length ∧ printAt lines k ≠ some .skipped := by
  unfold Shown printAt
  cases hline : lines[k]? with
  | none =>
    have hlength := List.getElem?_eq_none_iff.mp hline
    simp only [reduceCtorEq, false_and, exists_false, false_iff]
    omega
  | some line =>
    obtain ⟨hlength, -⟩ := List.getElem?_eq_some_iff.mp hline
    simp [hlength]

instance (lines : List MarkedLine) (k : ℕ) : Decidable (Shown lines k) :=
  decidable_of_iff _ shown_iff_printAt.symm

theorem printAt_showLines (start stop : ℕ) (lines : List MarkedLine) (k : ℕ) :
    printAt (showLines start stop lines) k =
      if start ≤ k ∧ k < stop then lines[k]?.map fun _ => .shown else printAt lines k := by
  unfold printAt showLines
  rw [List.getElem?_mapIdx, Option.map_map]
  split_ifs with hbetween
  · congr 1
  · congr 1

/-- The context of a line includes a number. -/
def Reaches (self : Marks) (before after p k : ℕ) : Prop :=
  contextStart self before p ≤ k ∧ k ≤ min self.last (p + after)

instance (self : Marks) (before after p k : ℕ) : Decidable (Reaches self before after p k) :=
  inferInstanceAs (Decidable (_ ∧ _))

theorem reaches_iff {self : Marks} {before after p k : ℕ} :
    Reaches self before after p k ↔
      (self.first ≤ k ∧ k ≤ self.last) ∧ p ≤ k + before ∧ k ≤ p + after := by
  unfold Reaches contextStart
  split_ifs <;> omega

/-- The lines after the loop has passed all numbers below a given one: the
leaders below it have shown their context, and the rest is as it was. -/
structure Swept (marks : Marks) (before after i : ℕ) (lines : List MarkedLine) : Prop where
  /-- No line is added or removed. -/
  length : lines.length = marks.lines.length
  /-- What has become context. -/
  context : ∀ k, printAt lines k = some .shown ↔ k < marks.lines.length ∧
    ∃ p < i, Leads (Shown marks.lines) after p ∧ Reaches marks before after p k
  /-- Other marks are those of the ranges. -/
  kept : ∀ k, printAt lines k ≠ some .shown → printAt lines k = printAt marks.lines k

section Loop

variable {source : String} {self : Marks} {before after i : ℕ} {lines : List MarkedLine}

theorem first_le_of_leads (hadded : Added self) {p : ℕ} (hp : Leads (Shown self.lines) after p) :
    self.first ≤ p :=
  hadded.starts.1 p (leads_iff.mp hp).1

/-- The loop widens exactly the leaders. -/
theorem printAt_eq_matched_iff (hadded : Added self) (hswept : Swept self before after i lines)
    (hi : i ≤ self.last) :
    printAt lines i = some .matched ↔ Leads (Shown self.lines) after i := by
  have hreached : (∃ p < i, Leads (Shown self.lines) after p ∧ Reaches self before after p i) ↔
      ∃ p < i, Leads (Shown self.lines) after p ∧ i ≤ p + after := by
    refine exists_congr fun p => and_congr_right fun hlt => and_congr_right fun hp => ?_
    have hfirst := first_le_of_leads hadded hp
    rw [reaches_iff]
    omega
  constructor
  · intro hmatched
    have hother : printAt lines i ≠ some .shown := by
      rw [hmatched]
      simp
    have hkept := hswept.kept i hother
    have hshown : Shown self.lines i := by
      rw [shown_iff_printAt, ← hkept, hmatched]
      refine ⟨?_, by simp⟩
      rw [← hswept.length]
      obtain ⟨line, hline, -⟩ := Option.map_eq_some_iff.mp hmatched
      exact (List.getElem?_eq_some_iff.mp hline).1
    refine leads_iff.mpr ⟨hshown, ?_⟩
    intro p hlt hp
    by_contra hle
    refine hother ((hswept.context i).mpr ⟨(shown_iff_printAt.mp hshown).1, ?_⟩)
    exact hreached.mpr ⟨p, hlt, hp, by omega⟩
  · intro hleads
    obtain ⟨hshown, hfar⟩ := leads_iff.mp hleads
    have hother : printAt lines i ≠ some .shown := by
      intro h
      obtain ⟨p, hlt, hp, hle⟩ := hreached.mp ((hswept.context i).mp h).2
      have hreach := hfar p hlt hp
      omega
    rw [hswept.kept i hother]
    obtain ⟨line, hline, hprint⟩ := hshown
    have hplain := hadded.plain line (List.mem_of_getElem? hline)
    rw [printAt, hline, Option.map_some]
    cases hmark : line.print with
    | skipped => exact absurd hmark hprint
    | matched => rfl
    | shown => exact absurd hmark hplain

/-- The two inner loops show the context of a line. -/
theorem printAt_context (hfirst : self.first ≤ i) (hi : i ≤ self.last) (k : ℕ) :
    printAt (showLines i (min self.last (i + after) + 1)
        (showLines (contextStart self before i) i lines)) k =
      if Reaches self before after i k then lines[k]?.map fun _ => .shown
      else printAt lines k := by
  have hstart : contextStart self before i ≤ i := by
    unfold contextStart
    split_ifs <;> omega
  have hinner : (showLines (contextStart self before i) i lines)[k]?.map
      (fun _ => Mark.shown) = lines[k]?.map fun _ => .shown := by
    rw [showLines, List.getElem?_mapIdx, Option.map_map]
    rfl
  rw [printAt_showLines, printAt_showLines, hinner]
  by_cases hreach : Reaches self before after i k
  · rw [if_pos hreach]
    obtain ⟨hlow, hhigh⟩ := hreach
    split_ifs with hright hleft
    · rfl
    · rfl
    · omega
  · rw [if_neg hreach]
    unfold Reaches at hreach
    rw [if_neg (by omega), if_neg (by omega)]

/-- One step of the loop. -/
theorem swept_widen (hadded : Added self) (hswept : Swept self before after i lines)
    (hi : i ≤ self.last) :
    Swept self before after (i + 1) (widen self before after lines i) := by
  have hlater : ∀ k, (∃ p < i + 1, Leads (Shown self.lines) after p ∧
      Reaches self before after p k) ↔
      (∃ p < i, Leads (Shown self.lines) after p ∧ Reaches self before after p k) ∨
        Leads (Shown self.lines) after i ∧ Reaches self before after i k := by
    intro k
    simp only [Nat.lt_succ_iff_lt_or_eq, or_and_right, exists_or, exists_eq_left]
  have hmatched := printAt_eq_matched_iff hadded hswept hi
  unfold widen
  split_ifs with hline
  · have hleads := hmatched.mp hline
    have hfirst := first_le_of_leads hadded hleads
    refine ⟨?_, ?_, ?_⟩
    · rw [showLines, showLines, List.length_mapIdx, List.length_mapIdx, hswept.length]
    · intro k
      rw [printAt_context hfirst hi, hlater]
      by_cases hreach : Reaches self before after i k
      · rw [if_pos hreach, and_iff_left (.inr ⟨hleads, hreach⟩), ← hswept.length]
        cases hline : lines[k]? with
        | some line => exact iff_of_true rfl (List.getElem?_eq_some_iff.mp hline).1
        | none =>
          have hnone := List.getElem?_eq_none_iff.mp hline
          exact iff_of_false (fun h => by cases h) (by omega)
      · rw [if_neg hreach, hswept.context]
        simp only [hreach, and_false, or_false]
    · intro k hk
      rw [printAt_context hfirst hi] at hk ⊢
      by_cases hreach : Reaches self before after i k
      · rw [if_pos hreach] at hk ⊢
        cases hline : lines[k]? with
        | some line =>
          rw [hline] at hk
          exact absurd rfl hk
        | none =>
          have hnone := List.getElem?_eq_none_iff.mp hline
          rw [hswept.length] at hnone
          rw [printAt, List.getElem?_eq_none_iff.mpr hnone]
          rfl
      · rw [if_neg hreach] at hk ⊢
        exact hswept.kept k hk
  · have hnot : ¬ Leads (Shown self.lines) after i := fun h => hline (hmatched.mpr h)
    refine ⟨hswept.length, ?_, hswept.kept⟩
    intro k
    rw [hlater, hswept.context]
    simp only [hnot, false_and, or_false]

/-- The loop from a number on. -/
theorem swept_foldl (hadded : Added self) {count : ℕ} (hlast : i + count ≤ self.last + 1)
    (hswept : Swept self before after i lines) :
    Swept self before after (i + count)
      ((List.range' i count).foldl (widen self before after) lines) := by
  induction count generalizing i lines with
  | zero => exact hswept
  | succ count ih =>
    have hrest := ih (by omega) (swept_widen hadded hswept (by omega))
    have hindex : i + (count + 1) = i + 1 + count := by omega
    rw [hindex, List.range'_succ, List.foldl_cons]
    exact hrest

/-- Before the loop nothing is context. -/
theorem swept_first (hadded : Added self) (before after : ℕ) :
    Swept self before after self.first self.lines := by
  refine ⟨rfl, ?_, fun k _ => rfl⟩
  intro k
  constructor
  · intro hshown
    obtain ⟨line, hline, hprint⟩ := Option.map_eq_some_iff.mp hshown
    exact absurd hprint (hadded.plain line (List.mem_of_getElem? hline))
  · rintro ⟨-, p, hlt, hp, -⟩
    have hfirst := first_le_of_leads hadded hp
    omega

/-- The displayed lines are the context of the leaders. -/
theorem shown_showContext_iff (hvalid : Valid source self) (hadded : Added self) (k : ℕ) :
    Shown (showContext self before after) k ↔
      (self.first ≤ k ∧ k ≤ self.last) ∧ Covered (Shown self.lines) before after k := by
  by_cases hbounds : self.first ≤ self.last + 1
  · have hend : self.first + (self.last + 1 - self.first) = self.last + 1 := by omega
    have hswept := swept_foldl hadded hend.le (swept_first hadded before after)
    rw [hend] at hswept
    have hcovered : printAt (showContext self before after) k = some .shown ↔
        (self.first ≤ k ∧ k ≤ self.last) ∧ Covered (Shown self.lines) before after k := by
      rw [showContext, hswept.context]
      simp only [reaches_iff, Covered]
      constructor
      · rintro ⟨-, p, -, hp, hwithin, hnear⟩
        exact ⟨hwithin, p, hp, hnear⟩
      · rintro ⟨hwithin, p, hp, hnear⟩
        have hmarked := (leads_iff.mp hp).1
        have hle := hvalid.tracks.1 p hmarked
        obtain hlast | ⟨-, hnone⟩ := hvalid.tracks.2
        · have hlength := (shown_iff_printAt.mp hlast).1
          exact ⟨by omega, p, by omega, hp, hwithin, hnear⟩
        · exact absurd hmarked (hnone p)
    rw [← hcovered, shown_iff_printAt]
    constructor
    · rintro ⟨hlength, hprint⟩
      by_contra hother
      have hkept := hswept.kept k hother
      have hsame : (showContext self before after).length = self.lines.length := hswept.length
      have hmarked : Shown self.lines k := by
        rw [shown_iff_printAt, ← hkept, ← hsame]
        exact ⟨hlength, hprint⟩
      obtain ⟨p, hp, hle, hskipped⟩ := exists_leads after hmarked
      refine hother (hcovered.mpr ⟨⟨hadded.starts.1 k hmarked, hvalid.tracks.1 k hmarked⟩, p, hp, ?_⟩)
      omega
    · intro hshown
      obtain ⟨line, hline, -⟩ := Option.map_eq_some_iff.mp hshown
      refine ⟨(List.getElem?_eq_some_iff.mp hline).1, ?_⟩
      rw [hshown]
      simp
  · have hnone : ∀ j, ¬ Shown self.lines j := by
      intro j hj
      have hlow := hadded.starts.1 j hj
      have hhigh := hvalid.tracks.1 j hj
      omega
    have hempty : self.last + 1 - self.first = 0 := by omega
    rw [showContext, hempty]
    exact iff_of_false (hnone k) fun h => by omega

end Loop

/-- The displayed lines are exactly those between the smallest and the largest
marked line that lie in the context of a marked line. -/
def ExactContext (marks : Marks) (before after : ℕ) : Prop :=
  ∀ j, Shown (showContext marks before after) j ↔
    (∃ first last, IsLeast {k | Shown marks.lines k} first ∧
      IsGreatest {k | Shown marks.lines k} last ∧ first ≤ j ∧ j ≤ last) ∧
    ∃ i, Shown marks.lines i ∧ i ≤ j + before ∧ j ≤ i + after

/-- The smallest marked line is small enough for the number that `first` starts
with, or lines before it are not asked for. -/
def FirstKnown (marks : Marks) (before : ℕ) : Prop :=
  before = 0 ∨ ∀ first, IsLeast {k | Shown marks.lines k} first → first ≤ sentinel

section Exact

variable {source : String} {self : Marks} {before after : ℕ}

/-- Whenever a line is marked, the helper knows the largest one. -/
theorem isGreatest_last (hvalid : Valid source self) {i : ℕ} (hi : Shown self.lines i) :
    IsGreatest {k | Shown self.lines k} self.last := by
  obtain hlast | ⟨-, hnone⟩ := hvalid.tracks.2
  · exact ⟨hlast, fun k hk => hvalid.tracks.1 k hk⟩
  · exact absurd hi (hnone i)

/-- The smallest marked line is `first`, or it lies behind the number that
`first` starts with. -/
theorem first_eq_or (hadded : Added self) {first : ℕ}
    (hfirst : IsLeast {k | Shown self.lines k} first) :
    self.first = first ∨ self.first = sentinel ∧ sentinel < first := by
  have hle := hadded.starts.1 first hfirst.1
  obtain hshown | hsentinel := hadded.starts.2.2
  · have hge := hfirst.2 hshown
    exact .inl (by omega)
  · obtain heq | hlt := Nat.eq_or_lt_of_le hle
    · exact .inl heq
    · exact .inr ⟨hsentinel, by omega⟩

theorem exists_isLeast {i : ℕ} (hi : Shown self.lines i) :
    ∃ first, IsLeast {k | Shown self.lines k} first ∧ first ≤ i :=
  ⟨_, ⟨Nat.sInf_mem ⟨i, hi⟩, fun _ hk => Nat.sInf_le hk⟩, Nat.sInf_le hi⟩

/-- Without an unknown first line and without gaps the context is exact. -/
theorem exactContext_of (hvalid : Valid source self) (hadded : Added self)
    (hfirst : FirstKnown self before) (hgaps : GapsClosed (Shown self.lines) before after) :
    ExactContext self before after := by
  intro j
  rw [shown_showContext_iff hvalid hadded]
  constructor
  · rintro ⟨⟨hlow, hhigh⟩, p, hp, hbefore, hafter⟩
    have hmarked := (leads_iff.mp hp).1
    obtain ⟨first, hleast, hle⟩ := exists_isLeast hmarked
    refine ⟨⟨first, self.last, hleast, isGreatest_last hvalid hmarked, ?_, hhigh⟩, p, hmarked,
      hbefore, hafter⟩
    obtain heq | ⟨-, hlate⟩ := first_eq_or hadded hleast
    · omega
    · have hnone : before = 0 := hfirst.resolve_right fun hknown => by
        have hsmall := hknown first hleast
        omega
      omega
  · rintro ⟨⟨first, last, hleast, hgreatest, hlow, hhigh⟩, i, hi, hbefore, hafter⟩
    have hle := hadded.starts.1 first hleast.1
    have hge := hvalid.tracks.1 last hgreatest.1
    exact ⟨⟨by omega, by omega⟩, covered_of_gapsClosed hgaps hi hbefore hafter hgreatest.1 hhigh⟩

/-- Exact context needs a known first line. -/
theorem firstKnown_of (hvalid : Valid source self) (hadded : Added self)
    (h : ExactContext self before after) : FirstKnown self before := by
  by_contra hunknown
  rw [FirstKnown, not_or] at hunknown
  obtain ⟨hbefore, hlate⟩ := hunknown
  push Not at hlate
  obtain ⟨first, hleast, hlate⟩ := hlate
  obtain ⟨p, hp, hle, hskipped⟩ := exists_leads after hleast.1
  have hge := hleast.2 (leads_iff.mp hp).1
  have hlast := (isGreatest_last hvalid hleast.1).2 hleast.1
  have hsentinel := hadded.starts.2.1
  have hshown : Shown (showContext self before after) (first - 1) :=
    (shown_showContext_iff hvalid hadded _).mpr
      ⟨⟨by omega, by omega⟩, p, hp, by omega, by omega⟩
  obtain ⟨⟨other, last, hother, -, hlow, -⟩, -⟩ := (h (first - 1)).mp hshown
  have hsame := hother.unique hleast
  omega

/-- Exact context leaves no gaps. -/
theorem gapsClosed_of (hvalid : Valid source self) (hadded : Added self)
    (h : ExactContext self before after) : GapsClosed (Shown self.lines) before after := by
  refine gapsClosed_of_covered ?_
  intro i j last hi hbefore hafter hlast hhigh hlow
  obtain ⟨first, hleast, hle⟩ := exists_isLeast hi
  have hge := hvalid.tracks.1 last hlast
  have hshown := (h j).mpr ⟨⟨first, self.last, hleast, isGreatest_last hvalid hi, by omega,
    by omega⟩, i, hi, hbefore, hafter⟩
  exact ((shown_showContext_iff hvalid hadded j).mp hshown).2

end Exact

/-- Exactly when the context is exact. For all ranges that were added and all
numbers of context lines, the display shows the lines in the context of the
marked lines and no others if and only if no gap opens behind a widened line
that has swept over another marked line, and the smallest marked line is below
`0xFFFFFFFF` or no lines before it are asked for. -/
theorem exactContext_iff (source : String) (ranges : List Range) (before after : ℕ) :
    ExactContext (ranges.foldl Marks.add (DisplayHelper.new source).toMarks) before after ↔
      FirstKnown (ranges.foldl Marks.add (DisplayHelper.new source).toMarks) before ∧
      GapsClosed (Shown (ranges.foldl Marks.add (DisplayHelper.new source).toMarks).lines) before
        after := by
  have hvalid := valid_foldl_add (valid_new source) ranges
  have hadded := added_foldl_add (valid_new source) (added_new source) ranges
  constructor
  · intro h
    exact ⟨firstKnown_of hvalid hadded h, gapsClosed_of hvalid hadded h⟩
  · rintro ⟨hfirst, hgaps⟩
    exact exactContext_of hvalid hadded hfirst hgaps

/-- A function whose first, second and last lines are marked. -/
def openedFunction : String := "int f()\x7b\na;\n\n\n\x7d"

/-- The helper after adding the ranges of its header, its name and its end. -/
def openedMarks : Marks :=
  [⟨0, 1⟩, ⟨9, 10⟩, ⟨14, 15⟩].foldl Marks.add (DisplayHelper.new openedFunction).toMarks

/-- With one line of context behind each marked line, the line behind the
second one is missing: the first line has swept over it. -/
theorem not_exactContext_openedMarks : ¬ ExactContext openedMarks 0 1 := by
  intro h
  have hnot : ¬ Shown (showContext openedMarks 0 1) 2 := by decide +kernel
  have hlength : openedMarks.lines.length = 5 := by decide +kernel
  have hfirst : Shown openedMarks.lines 0 := by decide +kernel
  have hsecond : Shown openedMarks.lines 1 := by decide +kernel
  have hlast : Shown openedMarks.lines 4 := by decide +kernel
  have hgreatest : IsGreatest {k | Shown openedMarks.lines k} 4 := by
    refine ⟨hlast, ?_⟩
    intro k hk
    have hlt := (shown_iff_printAt.mp hk).1
    omega
  refine hnot ((h 2).mpr ⟨⟨0, 4, ⟨hfirst, fun k _ => Nat.zero_le k⟩, hgreatest, ?_, ?_⟩, 1, hsecond,
    ?_, ?_⟩) <;> omega

end WeggliEnhance.ContextLines
