import WeggliEnhance.SourceLines

/-!
# Text with colour codes

A terminal text is a sequence of characters and of colour codes, each of which
is written as an escape sequence of several bytes. Truncating such a text
counts bytes: it may end inside a character, which is refused, or inside a
code, whose remains then read as text.
-/

namespace WeggliEnhance.StyledText

open SourceText SourceLines

/-- One unit of a terminal text. -/
inductive Glyph where
  /-- A character that is printed. -/
  | char (value : Char)
  /-- The colour code with the given parameters. -/
  | code (parameters : List Char)
  deriving DecidableEq

/-- The characters that are written for a glyph. -/
def Glyph.chars : Glyph → List Char
  | .char value => [value]
  | .code parameters => '\x1b' :: '[' :: (parameters ++ ['m'])

/-- The characters of a glyph that are printed. -/
def Glyph.plain : Glyph → List Char
  | .char value => [value]
  | .code _ => []

/-- Number of bytes written for a glyph. -/
def Glyph.size (glyph : Glyph) : ℕ := utf8Len glyph.chars

theorem Glyph.size_char (value : Char) : (Glyph.char value).size = value.utf8Size := by
  simp [Glyph.size, Glyph.chars]

theorem Glyph.size_pos (glyph : Glyph) : 0 < glyph.size := by
  cases glyph with
  | char value =>
    rw [Glyph.size_char]
    exact value.utf8Size_pos
  | code parameters =>
    have hpos := ('\x1b' : Char).utf8Size_pos
    simp only [Glyph.size, Glyph.chars, utf8Len_cons]
    omega

/-- Characters without colour. -/
def ofChars (chars : List Char) : List Glyph := chars.map .char

/-- The text with its colour codes removed. -/
def plain (text : List Glyph) : List Char := text.flatMap Glyph.plain

/-- Number of bytes of a text. -/
def size : List Glyph → ℕ
  | [] => 0
  | glyph :: text => glyph.size + size text

@[simp]
theorem plain_nil : plain [] = [] := rfl

@[simp]
theorem plain_cons (glyph : Glyph) (text : List Glyph) :
    plain (glyph :: text) = glyph.plain ++ plain text := List.flatMap_cons

@[simp]
theorem plain_append (left right : List Glyph) :
    plain (left ++ right) = plain left ++ plain right := List.flatMap_append

@[simp]
theorem plain_ofChars (chars : List Char) : plain (ofChars chars) = chars := by
  induction chars with
  | nil => rfl
  | cons char chars ih => exact congrArg (List.cons char) ih

@[simp]
theorem size_cons (glyph : Glyph) (text : List Glyph) :
    size (glyph :: text) = glyph.size + size text := rfl

@[simp]
theorem size_append (left right : List Glyph) : size (left ++ right) = size left + size right := by
  induction left with
  | nil => rw [List.nil_append, size, Nat.zero_add]
  | cons glyph left ih => rw [List.cons_append, size, size, ih, Nat.add_assoc]

theorem size_ofChars (chars : List Char) : size (ofChars chars) = utf8Len chars := by
  induction chars with
  | nil => rfl
  | cons char chars ih =>
    rw [utf8Len_cons, ← ih, ← Glyph.size_char]
    rfl

/-- Ending a text inside a glyph. Inside a character this is refused. -/
def Glyph.cut (glyph : Glyph) (bytes : ℕ) : Option (List Glyph) :=
  match glyph with
  | .char _ => none
  | .code _ => (splitBytes bytes glyph.chars).map fun parts => ofChars parts.1

/-- `String::truncate`: the first bytes of a text. It panics when these end
inside a character, and does nothing beyond the end. -/
def truncate : ℕ → List Glyph → Option (List Glyph)
  | _, [] => some []
  | bytes, glyph :: text =>
    if bytes = 0 then some []
    else if glyph.size ≤ bytes then (truncate (bytes - glyph.size) text).map (glyph :: ·)
    else glyph.cut bytes

/-- `text.truncate(text.len() - bytes)`. A difference below zero wraps around
to a length beyond the end. -/
def dropBytes (bytes : ℕ) (text : List Glyph) : Option (List Glyph) :=
  if bytes ≤ size text then truncate (size text - bytes) text else some text

/-- Truncating behind a part of the text keeps that part. -/
theorem truncate_append (left right : List Glyph) (bytes : ℕ) :
    truncate (size left + bytes) (left ++ right) = (truncate bytes right).map (left ++ ·) := by
  induction left with
  | nil => simp [size]
  | cons glyph left ih =>
    have hpos := glyph.size_pos
    have hrest : size (glyph :: left) + bytes - glyph.size = size left + bytes := by
      rw [size_cons]
      omega
    rw [List.cons_append, truncate, if_neg (by rw [size_cons]; omega),
      if_pos (by rw [size_cons]; omega), hrest, ih, Option.map_map]
    rfl

theorem truncate_zero (text : List Glyph) : truncate 0 text = some [] := by
  cases text with
  | nil => rfl
  | cons glyph text => rw [truncate, if_pos rfl]

/-- Dropping the bytes of the end of a text leaves the beginning. -/
theorem dropBytes_append (front tail : List Glyph) :
    dropBytes (size tail) (front ++ tail) = some front := by
  have hbytes : size (front ++ tail) - size tail = size front + 0 := by
    rw [size_append]
    omega
  rw [dropBytes, if_pos (by rw [size_append]; omega), hbytes, truncate_append, truncate_zero,
    Option.map_some, List.append_nil]

/-- Dropping one byte of a glyph at the end of a text never leaves the text
without that glyph and nothing else. -/
theorem plain_ne_of_cut {glyph : Glyph} {text out : List Glyph}
    (h : truncate (glyph.size - 1) (glyph :: text) = some out) : plain out ≠ glyph.plain := by
  have hpos := glyph.size_pos
  rw [truncate] at h
  split_ifs at h with hone hfits
  · cases h
    cases glyph with
    | char value => simp [Glyph.plain]
    | code parameters =>
      simp only [Glyph.size, Glyph.chars, utf8Len_cons] at hone
      have hescape := ('\x1b' : Char).utf8Size_pos
      have hbracket := ('[' : Char).utf8Size_pos
      omega
  · omega
  · cases glyph with
    | char value => cases h
    | code parameters =>
      obtain ⟨parts, hparts, rfl⟩ := Option.map_eq_some_iff.mp h
      obtain ⟨-, hlen⟩ := splitBytes_eq_some_iff.mp hparts
      rw [plain_ofChars]
      intro hempty
      rw [show parts.1 = [] from hempty, utf8Len_nil] at hlen
      exact hone hlen.symm

/-- Dropping one byte more than the end of a text damages the text before it. -/
theorem plain_ne_of_dropBytes_succ {front tail out : List Glyph} (htail : plain tail ≠ [])
    (h : dropBytes (size tail + 1) (front ++ tail) = some out) : plain out ≠ plain front := by
  obtain rfl | ⟨text, glyph, rfl⟩ := List.eq_nil_or_concat' front
  · rw [dropBytes, List.nil_append, if_neg (by omega)] at h
    cases h
    exact htail
  · have hpos := glyph.size_pos
    have hbytes : size (text ++ [glyph] ++ tail) - (size tail + 1) =
        size text + (glyph.size - 1) := by
      simp only [size_append, size_cons]
      simp only [size]
      omega
    rw [dropBytes, if_pos (by simp only [size_append, size_cons]; omega), hbytes,
      List.append_assoc, truncate_append] at h
    obtain ⟨rest, hrest, rfl⟩ := Option.map_eq_some_iff.mp h
    have hne := plain_ne_of_cut hrest
    rw [plain_append, plain_append]
    intro hsame
    exact hne (by simpa using List.append_cancel_left hsame)

/-- Dropping fewer bytes than the end of a text leaves some of that end. -/
theorem plain_ne_of_dropBytes_lt {front tail out : List Glyph} {char : Char} {bytes : ℕ}
    (hchar : char.utf8Size = 1) (hbytes : bytes < size (.char char :: tail))
    (h : dropBytes bytes (front ++ .char char :: tail) = some out) : plain out ≠ plain front := by
  have hkept : size (front ++ .char char :: tail) - bytes =
      size front + (size (.char char :: tail) - bytes) := by
    rw [size_append]
    omega
  have hfits : (Glyph.char char).size ≤ size (.char char :: tail) - bytes := by
    rw [Glyph.size_char]
    omega
  rw [dropBytes, if_pos (by rw [size_append]; omega), hkept, truncate_append, truncate,
    if_neg (by omega), if_pos hfits] at h
  obtain ⟨rest, hrest, rfl⟩ := Option.map_eq_some_iff.mp h
  obtain ⟨more, -, rfl⟩ := Option.map_eq_some_iff.mp hrest
  rw [plain_append, plain_cons]
  simp [Glyph.plain]

end WeggliEnhance.StyledText
