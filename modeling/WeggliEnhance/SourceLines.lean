import Mathlib.Data.List.Infix
import WeggliEnhance.SourceText

/-!
# Lines of a text

A text split at its line breaks, every line with the byte offset of its first
character. The lines follow each other without gaps and the last one ends
with the text. A byte offset of the text that lies between two characters
lies between two characters of its line as well.
-/

namespace WeggliEnhance.SourceLines

open SourceText

@[simp]
theorem utf8Len_nil : utf8Len [] = 0 := rfl

@[simp]
theorem utf8Len_cons (char : Char) (chars : List Char) :
    utf8Len (char :: chars) = char.utf8Size + utf8Len chars := rfl

@[simp]
theorem utf8Len_append (left right : List Char) :
    utf8Len (left ++ right) = utf8Len left + utf8Len right := by
  induction left with
  | nil => simp
  | cons char chars ih => rw [List.cons_append, utf8Len_cons, utf8Len_cons, ih, Nat.add_assoc]

theorem utf8Len_replicate (count : ℕ) {char : Char} (h : char.utf8Size = 1) :
    utf8Len (List.replicate count char) = count := by
  induction count with
  | zero => rfl
  | succ count ih => rw [List.replicate_succ, utf8Len_cons, ih, h, Nat.add_comm]

/-- Only the empty text has no bytes. -/
theorem eq_nil_of_utf8Len_eq_zero {chars : List Char} (h : utf8Len chars = 0) : chars = [] := by
  cases chars with
  | nil => rfl
  | cons char chars =>
    have hpos := char.utf8Size_pos
    rw [utf8Len_cons] at h
    omega

/-- The bytes before a position are exactly the characters before it. -/
theorem splitBytes_eq_some_iff {bytes : ℕ} {chars : List Char} {parts : List Char × List Char} :
    splitBytes bytes chars = some parts ↔
      chars = parts.1 ++ parts.2 ∧ utf8Len parts.1 = bytes := by
  constructor
  · intro h
    refine ⟨splitBytes_append h, ?_⟩
    induction chars generalizing bytes parts with
    | nil =>
      cases bytes with
      | zero => cases h; rfl
      | succ bytes => cases h
    | cons char chars ih =>
      cases bytes with
      | zero => cases h; rfl
      | succ bytes =>
        rw [splitBytes] at h
        split_ifs at h with hfits
        obtain ⟨inner, hinner, rfl⟩ := Option.map_eq_some_iff.mp h
        rw [utf8Len_cons, ih hinner]
        omega
  · rintro ⟨rfl, rfl⟩
    obtain ⟨left, right⟩ := parts
    simp only
    induction left with
    | nil => cases right <;> rfl
    | cons char left ih =>
      have hpos := char.utf8Size_pos
      obtain ⟨bytes, hbytes⟩ : ∃ bytes, utf8Len (char :: left) = bytes + 1 :=
        ⟨char.utf8Size + utf8Len left - 1, by rw [utf8Len_cons]; omega⟩
      rw [utf8Len_cons] at hbytes
      have hrest : bytes + 1 - char.utf8Size = utf8Len left := by omega
      rw [List.cons_append, utf8Len_cons, hbytes, splitBytes, if_pos (by omega), hrest, ih]
      rfl

/-- A byte offset at the start of a character or at the end of the text. -/
def IsBoundary (chars : List Char) (offset : ℕ) : Prop :=
  ∃ before after, chars = before ++ after ∧ utf8Len before = offset

theorem isBoundary_zero (chars : List Char) : IsBoundary chars 0 := ⟨[], chars, rfl, rfl⟩

theorem isBoundary_utf8Len (chars : List Char) : IsBoundary chars (utf8Len chars) :=
  ⟨chars, [], by simp, rfl⟩

/-- A shorter beginning of a text is a beginning of every longer one. -/
theorem exists_append_of_utf8Len_le {left right before after : List Char}
    (h : left ++ right = before ++ after) (hle : utf8Len left ≤ utf8Len before) :
    ∃ middle, before = left ++ middle ∧ right = middle ++ after := by
  obtain ⟨middle, hbefore, hright⟩ | ⟨middle, hleft, hafter⟩ := List.append_eq_append_iff.mp h
  · exact ⟨middle, hbefore, hright⟩
  · have hempty : utf8Len middle = 0 := by
      rw [hleft, utf8Len_append] at hle
      omega
    have hmiddle := eq_nil_of_utf8Len_eq_zero hempty
    rw [hmiddle] at hleft hafter
    exact ⟨[], by simpa using hleft.symm, by simpa using hafter.symm⟩

/-- The boundaries of a text are the boundaries of its parts. -/
theorem isBoundary_middle {before middle after : List Char} {offset : ℕ}
    (h : IsBoundary (before ++ middle ++ after) offset) (hlow : utf8Len before ≤ offset)
    (hhigh : offset ≤ utf8Len before + utf8Len middle) :
    IsBoundary middle (offset - utf8Len before) := by
  obtain ⟨left, right, htext, hleft⟩ := h
  rw [List.append_assoc] at htext
  obtain ⟨inner, hinner, hrest⟩ := exists_append_of_utf8Len_le htext (by omega)
  have hlen : utf8Len before + utf8Len inner = offset := by
    rw [← hleft, hinner, utf8Len_append]
  obtain ⟨outer, houter, -⟩ := exists_append_of_utf8Len_le hrest.symm (by omega)
  exact ⟨inner, outer, houter, by omega⟩

/-- Slicing succeeds exactly between two boundaries in the right order. -/
theorem slice?_isSome_iff {source : String} {range : Range} :
    (slice? source range).isSome ↔ range.start ≤ range.stop ∧
      IsBoundary source.toList range.start ∧ IsBoundary source.toList range.stop := by
  constructor
  · intro h
    obtain ⟨text, htext⟩ := Option.isSome_iff_exists.mp h
    unfold slice? at htext
    split_ifs at htext with hle
    obtain ⟨outer, houter, hrest⟩ := Option.bind_eq_some_iff.mp htext
    obtain ⟨inner, hinner, -⟩ := Option.map_eq_some_iff.mp hrest
    obtain ⟨houter, hstart⟩ := splitBytes_eq_some_iff.mp houter
    obtain ⟨hinner, hstop⟩ := splitBytes_eq_some_iff.mp hinner
    refine ⟨hle, ⟨_, _, houter, hstart⟩, outer.1 ++ inner.1, inner.2, ?_, ?_⟩
    · rw [List.append_assoc, ← hinner, houter]
    · rw [utf8Len_append]
      omega
  · rintro ⟨hle, ⟨before, after, hstart, hbefore⟩, ⟨left, right, hstop, hleft⟩⟩
    have hparts : before ++ after = left ++ right := hstart.symm.trans hstop
    obtain ⟨middle, hmiddle, hafter⟩ := exists_append_of_utf8Len_le hparts (by omega)
    have hlen : utf8Len before + utf8Len middle = utf8Len left := by
      rw [hmiddle, utf8Len_append]
    have hinner : splitBytes (range.stop - range.start) after = some (middle, right) :=
      splitBytes_eq_some_iff.mpr ⟨hafter, by simp only; omega⟩
    have houter : splitBytes range.start source.toList = some (before, after) :=
      splitBytes_eq_some_iff.mpr ⟨hstart, hbefore⟩
    rw [slice?, if_pos hle, houter, Option.bind_some, hinner]
    rfl

/-- The text between two positions of a text given by its parts. -/
theorem slice?_eq_some {source text : String} {range : Range} {before after : List Char}
    (hsource : source.toList = before ++ text.toList ++ after)
    (hstart : utf8Len before = range.start)
    (hstop : utf8Len before + utf8Len text.toList = range.stop) :
    slice? source range = some text := by
  have houter : splitBytes range.start source.toList = some (before, text.toList ++ after) :=
    splitBytes_eq_some_iff.mpr ⟨by rw [hsource, List.append_assoc], hstart⟩
  have hinner : splitBytes (range.stop - range.start) (text.toList ++ after) =
      some (text.toList, after) :=
    splitBytes_eq_some_iff.mpr ⟨rfl, by simp only; omega⟩
  rw [slice?, if_pos (by omega), houter, Option.bind_some, hinner, Option.map_some,
    String.ofList_toList]

/-- One line of a text. -/
structure Line where
  /-- Offset of the first byte of the line. -/
  offset : ℕ
  /-- Characters of the line without its line break. -/
  text : String
  deriving DecidableEq

/-- First byte offset behind the characters of a line. -/
def Line.stop (line : Line) : ℕ := line.offset + utf8Len line.text.toList

/-- Texts laid out as lines, the first one at the given offset. -/
def linesFrom : ℕ → List (List Char) → List Line
  | _, [] => []
  | offset, text :: texts =>
    ⟨offset, String.ofList text⟩ :: linesFrom (offset + utf8Len text + 1) texts

/-- The lines of a text, as `source.split('\n')` gives them. -/
def linesOf (source : String) : List Line := linesFrom 0 (source.toList.splitOn '\n')

/-- Consecutive lines from the given offset up to the given end. -/
structure Layout (start stop : ℕ) (lines : List Line) : Prop where
  /-- The first line starts at the offset. -/
  head : ∀ line, lines[0]? = some line → line.offset = start
  /-- One line break stands between a line and the next one. -/
  next : ∀ (k : ℕ) (line below : Line), lines[k]? = some line → lines[k + 1]? = some below →
    below.offset = line.stop + 1
  /-- The last line ends at the end. -/
  last : ∀ (k : ℕ) (line : Line), lines[k]? = some line → k + 1 = lines.length → line.stop = stop

theorem layout_linesFrom (start : ℕ) (texts : List (List Char)) :
    Layout start (start + utf8Len (['\n'].intercalate texts)) (linesFrom start texts) := by
  induction texts generalizing start with
  | nil =>
    refine ⟨?_, ?_, ?_⟩
    · intro line hline
      cases hline
    · intro k line below hline
      cases hline
    · intro k line hline
      cases hline
  | cons text texts ih =>
    have hrest := ih (start + utf8Len text + 1)
    refine ⟨?_, ?_, ?_⟩
    · intro line h
      cases h
      rfl
    · intro k line below hline hbelow
      cases k with
      | zero =>
        cases hline
        rw [hrest.head below hbelow, Line.stop, String.toList_ofList]
      | succ k => exact hrest.next k line below hline hbelow
    · intro k line hline hlast
      cases texts with
      | nil =>
        cases k with
        | zero =>
          cases hline
          simp [Line.stop]
        | succ k => cases hline
      | cons second rest =>
        cases k with
        | zero =>
          rw [linesFrom, linesFrom] at hlast
          simp at hlast
        | succ k =>
          have hstop := hrest.last k line hline (by simpa [linesFrom] using hlast)
          have hbreak : utf8Len ['\n'] = 1 := by decide
          rw [hstop, List.intercalate_cons_cons, utf8Len_append, utf8Len_append, hbreak]
          omega

/-- The lines of a text cover it from the first byte to the last. -/
theorem layout_linesOf (source : String) :
    Layout 0 (utf8Len source.toList) (linesOf source) := by
  have h := layout_linesFrom 0 (source.toList.splitOn '\n')
  rw [List.intercalate_splitOn, Nat.zero_add] at h
  exact h

theorem linesOf_ne_nil (source : String) : linesOf source ≠ [] := by
  unfold linesOf
  have hne := List.splitOn_ne_nil '\n' source.toList
  cases hsplit : source.toList.splitOn '\n' with
  | nil => exact absurd hsplit hne
  | cons text texts => simp [linesFrom]

section Order

variable {start stop : ℕ} {lines : List Line}

/-- A line ends before every later line starts. -/
theorem stop_lt_offset (h : Layout start stop lines) {k m : ℕ} {line below : Line} (hlt : k < m)
    (hline : lines[k]? = some line) (hbelow : lines[m]? = some below) :
    line.stop < below.offset := by
  induction m generalizing below with
  | zero => omega
  | succ m ih =>
    obtain ⟨hlength, -⟩ := List.getElem?_eq_some_iff.mp hbelow
    have hm : m < lines.length := by omega
    have hmiddle : lines[m]? = some lines[m] := List.getElem?_eq_getElem hm
    have hnext := h.next m lines[m] below hmiddle hbelow
    obtain hlt | rfl := Nat.lt_succ_iff_lt_or_eq.mp hlt
    · have hbefore := ih hlt hmiddle
      have hle : lines[m].offset ≤ lines[m].stop := Nat.le_add_right _ _
      omega
    · rw [hmiddle] at hline
      cases hline
      omega

theorem offset_le_stop (line : Line) : line.offset ≤ line.stop := Nat.le_add_right _ _

/-- Offsets grow from line to line. -/
theorem offset_lt_offset (h : Layout start stop lines) {k m : ℕ} {line below : Line}
    (hlt : k < m) (hline : lines[k]? = some line) (hbelow : lines[m]? = some below) :
    line.offset < below.offset :=
  (offset_le_stop line).trans_lt (stop_lt_offset h hlt hline hbelow)

/-- Every line takes up at least one byte, its line break. -/
theorem index_le_offset (h : Layout start stop lines) {k : ℕ} {line : Line}
    (hline : lines[k]? = some line) : k ≤ line.offset := by
  induction k generalizing line with
  | zero => exact Nat.zero_le _
  | succ k ih =>
    have hk : k < lines.length :=
      (Nat.lt_succ_self k).trans (List.getElem?_eq_some_iff.mp hline).1
    have hbefore := ih (List.getElem?_eq_getElem hk)
    have hlt := offset_lt_offset h (Nat.lt_succ_self k) (List.getElem?_eq_getElem hk) hline
    omega

/-- Every line lies before the end of the text. -/
theorem stop_le (h : Layout start stop lines) {k : ℕ} {line : Line}
    (hline : lines[k]? = some line) : line.stop ≤ stop := by
  obtain ⟨hk, -⟩ := List.getElem?_eq_some_iff.mp hline
  obtain hlast | hlt : k + 1 = lines.length ∨ k < lines.length - 1 := by omega
  · exact (h.last k line hline hlast).le
  · have hm : lines.length - 1 < lines.length := by omega
    have hend : lines[lines.length - 1]? = some lines[lines.length - 1] :=
      List.getElem?_eq_getElem hm
    have hbefore := stop_lt_offset h hlt hline hend
    have hstop := h.last _ _ hend (by omega)
    have hle := offset_le_stop lines[lines.length - 1]
    omega

end Order

/-- A line is the part of the text at its offset. -/
def LineOf (chars : List Char) (line : Line) : Prop :=
  ∃ before after, chars = before ++ line.text.toList ++ after ∧ utf8Len before = line.offset

theorem lineOf_linesFrom (before : List Char) (texts : List (List Char)) {line : Line}
    (hline : line ∈ linesFrom (utf8Len before) texts) :
    LineOf (before ++ ['\n'].intercalate texts) line := by
  induction texts generalizing before with
  | nil => cases hline
  | cons text texts ih =>
    rw [linesFrom, List.mem_cons] at hline
    cases texts with
    | nil =>
      obtain rfl | hline := hline
      · exact ⟨before, [], by simp, rfl⟩
      · cases hline
    | cons second rest =>
      rw [List.intercalate_cons_cons]
      obtain rfl | hline := hline
      · exact ⟨before, ['\n'] ++ ['\n'].intercalate (second :: rest), by simp, rfl⟩
      · have hbreak : utf8Len ['\n'] = 1 := by decide
        have hoffset : utf8Len (before ++ text ++ ['\n']) = utf8Len before + utf8Len text + 1 := by
          rw [utf8Len_append, utf8Len_append, hbreak]
        rw [← hoffset] at hline
        have hrest := ih (before ++ text ++ ['\n']) hline
        simpa using hrest

/-- Every line is a part of the text at its offset. -/
theorem lineOf_linesOf {source : String} {line : Line} (hline : line ∈ linesOf source) :
    LineOf source.toList line := by
  have h := lineOf_linesFrom [] (source.toList.splitOn '\n') hline
  rwa [List.nil_append, List.intercalate_splitOn] at h

end WeggliEnhance.SourceLines
