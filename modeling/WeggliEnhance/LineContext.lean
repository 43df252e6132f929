import Mathlib.Data.List.Basic
import WeggliEnhance.LineMarks

/-!
# Context lines

`result.rs`: every line that a range touches is displayed with some of the
lines around it, but never with a line before the first marked line or after
the last one. The loop changes the marks it reads: a line that has become
context of an earlier line is not widened again.
-/

namespace WeggliEnhance.LineContext

open SourceText SourceLines LineMarks

/-- The loop that marks the lines of an interval as shown. -/
def showLines (start stop : ℕ) (lines : List MarkedLine) : List MarkedLine :=
  lines.mapIdx fun j line => if start ≤ j ∧ j < stop then { line with print := .shown } else line

/-- First context line of a marked line. -/
def contextStart (self : Marks) (before i : ℕ) : ℕ :=
  if before ≤ i then max self.first (i - before) else self.first

/-- One step of the context loop of `DisplayHelper::display`. The line number
lies between `first` and `last`, which are numbers of lines. -/
def widen (self : Marks) (before after : ℕ) (lines : List MarkedLine) (i : ℕ) :
    List MarkedLine :=
  if lines[i]?.map MarkedLine.print = some .matched then
    showLines i (min self.last (i + after) + 1) (showLines (contextStart self before i) i lines)
  else lines

/-- The context loop of `DisplayHelper::display`. -/
def showContext (self : Marks) (before after : ℕ) : List MarkedLine :=
  (List.range' self.first (self.last + 1 - self.first)).foldl (widen self before after) self.lines

theorem toLine_showLines (start stop : ℕ) (lines : List MarkedLine) :
    (showLines start stop lines).map MarkedLine.toLine = lines.map MarkedLine.toLine := by
  apply List.ext_getElem?
  intro k
  rw [showLines, List.getElem?_map, List.getElem?_map, List.getElem?_mapIdx, Option.map_map]
  congr 1
  funext line
  simp only [Function.comp_apply]
  split_ifs <;> rfl

theorem shown_showLines {start stop : ℕ} {lines : List MarkedLine} {k : ℕ} :
    Shown (showLines start stop lines) k ↔
      Shown lines k ∨ (start ≤ k ∧ k < stop) ∧ k < lines.length := by
  unfold Shown showLines
  rw [List.getElem?_mapIdx]
  cases hline : lines[k]? with
  | none =>
    have hlength := List.getElem?_eq_none_iff.mp hline
    simp only [Option.map_none, reduceCtorEq, false_and, exists_false, false_or, false_iff]
    omega
  | some line =>
    obtain ⟨hlength, -⟩ := List.getElem?_eq_some_iff.mp hline
    by_cases hbetween : start ≤ k ∧ k < stop
    · simp [hbetween, hlength]
    · simp [hbetween]

section Widen

variable {self : Marks} {before after i k : ℕ} {lines : List MarkedLine}

theorem toLine_widen :
    (widen self before after lines i).map MarkedLine.toLine = lines.map MarkedLine.toLine := by
  unfold widen
  split_ifs
  · rw [toLine_showLines, toLine_showLines]
  · rfl

/-- Displayed lines stay displayed. -/
theorem shown_widen (h : Shown lines k) : Shown (widen self before after lines i) k := by
  unfold widen
  split_ifs
  · exact shown_showLines.mpr (.inl (shown_showLines.mpr (.inl h)))
  · exact h

/-- Only a displayed line is widened, and never beyond the last marked one. -/
theorem of_shown_widen (hi : i ≤ self.last) (h : Shown (widen self before after lines i) k) :
    Shown lines k ∨ (∃ m, Shown lines m) ∧ k ≤ self.last := by
  unfold widen at h
  split_ifs at h with hmatched
  · have hsome : ∃ m, Shown lines m := by
      obtain ⟨line, hline, hprint⟩ := Option.map_eq_some_iff.mp hmatched
      exact ⟨i, line, hline, by simp [hprint]⟩
    have hle : min self.last (i + after) ≤ self.last := min_le_left _ _
    obtain h | ⟨⟨-, hstop⟩, -⟩ := shown_showLines.mp h
    · obtain h | ⟨⟨-, hstop⟩, -⟩ := shown_showLines.mp h
      · exact .inl h
      · exact .inr ⟨hsome, by omega⟩
    · exact .inr ⟨hsome, by omega⟩
  · exact .inl h

end Widen

section Context

variable {self : Marks} {before after k : ℕ}

/-- The displayed lines after widening some of the lines up to the last
marked one. -/
theorem foldl_widen (before after : ℕ) {numbers : List ℕ} (hnumbers : ∀ i ∈ numbers, i ≤ self.last)
    (lines : List MarkedLine) :
    (numbers.foldl (widen self before after) lines).map MarkedLine.toLine =
        lines.map MarkedLine.toLine ∧
      (∀ k, Shown lines k → Shown (numbers.foldl (widen self before after) lines) k) ∧
      ∀ k, Shown (numbers.foldl (widen self before after) lines) k →
        Shown lines k ∨ (∃ m, Shown lines m) ∧ k ≤ self.last := by
  induction numbers generalizing lines with
  | nil => exact ⟨rfl, fun k hk => hk, fun k hk => .inl hk⟩
  | cons i numbers ih =>
    have hi := hnumbers i (List.mem_cons_self ..)
    obtain ⟨hlines, hkept, hnew⟩ := ih (fun m hm => hnumbers m (List.mem_cons_of_mem _ hm))
      (widen self before after lines i)
    refine ⟨hlines.trans toLine_widen, fun k hk => hkept k (shown_widen hk), ?_⟩
    intro k hk
    obtain hk | ⟨⟨m, hm⟩, hle⟩ := hnew k hk
    · exact of_shown_widen hi hk
    · obtain hm | ⟨hsome, -⟩ := of_shown_widen hi hm
      · exact .inr ⟨⟨m, hm⟩, hle⟩
      · exact .inr ⟨hsome, hle⟩

theorem mem_contextRange {i : ℕ} (h : i ∈ List.range' self.first (self.last + 1 - self.first)) :
    i ≤ self.last := by
  obtain ⟨hge, hlt⟩ := List.mem_range'_1.mp h
  omega

theorem toLine_showContext (self : Marks) (before after : ℕ) :
    (showContext self before after).map MarkedLine.toLine = self.lines.map MarkedLine.toLine :=
  (foldl_widen before after (fun _ => mem_contextRange) self.lines).1

/-- Context extends the displayed lines, but not beyond the last marked one. -/
theorem tracks_showContext (h : Tracks self.lines self.last) (before after : ℕ) :
    Tracks (showContext self before after) self.last := by
  obtain ⟨-, hkept, hnew⟩ :=
    foldl_widen before after (fun _ hi => mem_contextRange hi) self.lines
  refine ⟨?_, ?_⟩
  · intro k hk
    obtain hk | ⟨-, hle⟩ := hnew k hk
    · exact h.1 k hk
    · exact hle
  · obtain hlast | ⟨hzero, hnone⟩ := h.2
    · exact .inl (hkept _ hlast)
    · refine .inr ⟨hzero, fun k hk => ?_⟩
      obtain hk | ⟨⟨m, hm⟩, -⟩ := hnew k hk
      · exact hnone k hk
      · exact hnone m hm

/-- Some line is displayed with context exactly when some line is marked. -/
theorem exists_shown_showContext_iff :
    (∃ k, Shown (showContext self before after) k) ↔ ∃ k, Shown self.lines k := by
  obtain ⟨-, hkept, hnew⟩ :=
    foldl_widen before after (fun _ hi => mem_contextRange hi) self.lines
  constructor
  · rintro ⟨k, hk⟩
    obtain hk | ⟨hsome, -⟩ := hnew k hk
    · exact ⟨k, hk⟩
    · exact hsome
  · rintro ⟨k, hk⟩
    exact ⟨k, hkept k hk⟩

end Context

end WeggliEnhance.LineContext
