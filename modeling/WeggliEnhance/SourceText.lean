import Mathlib.Algebra.Group.Nat.Defs
import Mathlib.Data.List.Infix
import Mathlib.Data.Nat.Basic

/-!
# Source text addressed by byte offsets

A Rust `str` is a sequence of scalar values addressed by UTF-8 byte offsets.
The model keeps the scalar values as a Lean string and walks them by their
encoded widths. An offset inside a character has no slice; the ranges that
tree-sitter reports for nodes always lie on character boundaries. The integer
literals of `util.rs` are read here as well: digit separators and suffixes are
filtered out, a leading minus is remembered, the radix is read off the first
two bytes and the rest is parsed as a 128-bit signed integer.
-/

namespace WeggliEnhance.SourceText

/-- Half-open interval of byte offsets, the `Range<usize>` of the source. -/
structure Range where
  /-- First byte of the interval. -/
  start : ℕ
  /-- First byte after the interval. -/
  stop : ℕ
  deriving DecidableEq

/-- Number of bytes in the UTF-8 encoding of the characters. -/
def utf8Len (chars : List Char) : ℕ := chars.foldr (fun char bytes => char.utf8Size + bytes) 0

/-- Split after exactly the given number of bytes. There is no split inside
a character or beyond the end, where indexing a Rust string panics. -/
def splitBytes : ℕ → List Char → Option (List Char × List Char)
  | 0, chars => some ([], chars)
  | _ + 1, [] => none
  | bytes + 1, char :: chars =>
    if char.utf8Size ≤ bytes + 1 then
      (splitBytes (bytes + 1 - char.utf8Size) chars).map fun parts => (char :: parts.1, parts.2)
    else none

theorem splitBytes_append {bytes : ℕ} {chars : List Char} {parts : List Char × List Char}
    (h : splitBytes bytes chars = some parts) : chars = parts.1 ++ parts.2 := by
  induction chars generalizing bytes parts with
  | nil =>
    cases bytes with
    | zero => cases h; rfl
    | succ bytes => cases h
  | cons char chars ih =>
    cases bytes with
    | zero => cases h; rfl
    | succ bytes =>
      rw [splitBytes] at h
      split at h
      · obtain ⟨inner, hinner, rfl⟩ := Option.map_eq_some_iff.mp h
        rw [List.cons_append, ← ih hinner]
      · cases h

/-- The checked slice `source.get(range)`: the text between two character
boundaries, or nothing where the indexing operator would panic. -/
def slice? (source : String) (range : Range) : Option String :=
  if range.start ≤ range.stop then
    (splitBytes range.start source.toList).bind fun outer =>
      (splitBytes (range.stop - range.start) outer.2).map fun inner => String.ofList inner.1
  else none

/-- The slice `&source[range]` at a range that tree-sitter reported. -/
def slice (source : String) (range : Range) : String := (slice? source range).getD ""

/-- All bytes of a text are all its characters. -/
theorem splitBytes_utf8Len (chars : List Char) :
    splitBytes (utf8Len chars) chars = some (chars, []) := by
  induction chars with
  | nil => rfl
  | cons char chars ih =>
    have hpos := char.utf8Size_pos
    have hlen : utf8Len (char :: chars) = char.utf8Size + utf8Len chars := rfl
    obtain ⟨bytes, hbytes⟩ : ∃ bytes, char.utf8Size + utf8Len chars = bytes + 1 :=
      ⟨char.utf8Size + utf8Len chars - 1, by omega⟩
    have hrest : bytes + 1 - char.utf8Size = utf8Len chars := by omega
    rw [hlen, hbytes, splitBytes, if_pos (by omega), hrest, ih]
    rfl

/-- The slice over the whole text is the text. -/
theorem slice_whole (text : String) : slice text ⟨0, utf8Len text.toList⟩ = text := by
  have hwhole : slice? text ⟨0, utf8Len text.toList⟩ = some text := by
    rw [slice?, if_pos (Nat.zero_le _), splitBytes, Option.bind_some, Nat.sub_zero,
      splitBytes_utf8Len, Option.map_some, String.ofList_toList]
  rw [slice, hwhole, Option.getD_some]

/-- `source.find(text).is_some()`: the text occurs in the source. -/
def contains (source text : String) : Bool := decide (text.toList <:+: source.toList)

theorem contains_iff {source text : String} :
    contains source text = true ↔ text.toList <:+: source.toList := decide_eq_true_iff

/-- Every slice of a source occurs in that source. -/
theorem contains_slice (source : String) (range : Range) :
    contains source (slice source range) = true := by
  rw [contains_iff, slice]
  cases h : slice? source range with
  | none => exact ⟨[], source.toList, by simp⟩
  | some text =>
    unfold slice? at h
    split_ifs at h
    obtain ⟨outer, houter, hrest⟩ := Option.bind_eq_some_iff.mp h
    obtain ⟨inner, hinner, rfl⟩ := Option.map_eq_some_iff.mp hrest
    refine ⟨outer.1, inner.2, ?_⟩
    rw [Option.getD_some, String.toList_ofList, List.append_assoc, ← splitBytes_append hinner,
      ← splitBytes_append houter]

/-- `text.starts_with(first)` for a single character. -/
def startsWith (text : String) (first : Char) : Bool := text.toList.head? == some first

/-- The characters that `char::to_uppercase` maps into ASCII letters. Every
other character has an uppercase form with some character outside ASCII. -/
def uppercaseChar (char : Char) : List Char :=
  if char = 'ſ' then ['S']
  else if char = 'ı' then ['I']
  else if char = 'ß' then ['S', 'S']
  else if char = 'ﬀ' then ['F', 'F']
  else if char = 'ﬁ' then ['F', 'I']
  else if char = 'ﬂ' then ['F', 'L']
  else if char = 'ﬃ' then ['F', 'F', 'I']
  else if char = 'ﬄ' then ['F', 'F', 'L']
  else if char = 'ﬅ' ∨ char = 'ﬆ' then ['S', 'T']
  else [char.toUpper]

/-- `text.to_uppercase()`, exact where the result is compared with an ASCII
word: characters without an ASCII uppercase form stay outside ASCII. -/
def toUppercase (text : String) : String := String.ofList (text.toList.flatMap uppercaseChar)

/-- The code points of the general categories Nd, Nl and No. -/
def numericRanges : List (ℕ × ℕ) :=
  [
   (48, 57), (178, 179), (185, 185), (188, 190), (1632, 1641), (1776, 1785), (1984, 1993),
    (2406, 2415), (2534, 2543), (2548, 2553), (2662, 2671), (2790, 2799), (2918, 2927), (2930,
    2935), (3046, 3058), (3174, 3183), (3192, 3198), (3302, 3311), (3416, 3422), (3430, 3448),
    (3558, 3567), (3664, 3673), (3792, 3801), (3872, 3891), (4160, 4169), (4240, 4249), (4969,
    4988), (5870, 5872), (6112, 6121), (6128, 6137), (6160, 6169), (6470, 6479), (6608, 6618),
    (6784, 6793), (6800, 6809), (6992, 7001), (7088, 7097), (7232, 7241), (7248, 7257), (8304,
    8304), (8308, 8313), (8320, 8329), (8528, 8578), (8581, 8585), (9312, 9371), (9450, 9471),
    (10102, 10131), (11517, 11517), (12295, 12295), (12321, 12329), (12344, 12346), (12690,
    12693), (12832, 12841), (12872, 12879), (12881, 12895), (12928, 12937), (12977, 12991),
    (42528, 42537), (42726, 42735), (43056, 43061), (43216, 43225), (43264, 43273), (43472,
    43481), (43504, 43513), (43600, 43609), (44016, 44025), (65296, 65305), (65799, 65843),
    (65856, 65912), (65930, 65931), (66273, 66299), (66336, 66339), (66369, 66369), (66378,
    66378), (66513, 66517), (66720, 66729), (67672, 67679), (67705, 67711), (67751, 67759),
    (67835, 67839), (67862, 67867), (68028, 68029), (68032, 68047), (68050, 68095), (68160,
    68168), (68221, 68222), (68253, 68255), (68331, 68335), (68440, 68447), (68472, 68479),
    (68521, 68527), (68858, 68863), (68912, 68921), (69216, 69246), (69405, 69414), (69457,
    69460), (69573, 69579), (69714, 69743), (69872, 69881), (69942, 69951), (70096, 70105),
    (70113, 70132), (70384, 70393), (70736, 70745), (70864, 70873), (71248, 71257), (71360,
    71369), (71472, 71483), (71904, 71922), (72016, 72025), (72784, 72812), (73040, 73049),
    (73120, 73129), (73664, 73684), (74752, 74862), (92768, 92777), (92864, 92873), (93008,
    93017), (93019, 93025), (93824, 93846), (119520, 119539), (119648, 119672), (120782,
    120831), (123200, 123209), (123632, 123641), (125127, 125135), (125264, 125273), (126065,
    126123), (126125, 126127), (126129, 126132), (126209, 126253), (126255, 126269), (127232,
    127244), (130032, 130041)
  ]

/-- `char::is_numeric`. -/
def isNumeric (char : Char) : Bool :=
  numericRanges.any fun range => range.1 ≤ char.toNat && char.toNat ≤ range.2

section Literals

/-- `char::to_digit(radix)`. -/
def toDigit (radix : ℕ) (char : Char) : Option ℕ :=
  let value :=
    if '0' ≤ char ∧ char ≤ '9' then some (char.toNat - '0'.toNat)
    else if 'a' ≤ char ∧ char ≤ 'z' then some (char.toNat - 'a'.toNat + 10)
    else if 'A' ≤ char ∧ char ≤ 'Z' then some (char.toNat - 'A'.toNat + 10)
    else none
  value.filter fun digit => digit < radix

/-- Value of a digit sequence, most significant digit first. -/
def parseDigits (radix : ℕ) : ℕ → List Char → Option ℕ
  | value, [] => some value
  | value, char :: chars =>
    (toDigit radix char).bind fun digit => parseDigits radix (value * radix + digit) chars

/-- `i128::from_str_radix`: an optional sign and at least one digit, with an
error on overflow. -/
def fromStrRadix (chars : List Char) (radix : ℕ) : Option ℤ :=
  match chars with
  | [] => none
  | ['+'] => none
  | ['-'] => none
  | '+' :: digits => ((parseDigits radix 0 digits).filter (· < 2 ^ 127)).map Int.ofNat
  | '-' :: digits => ((parseDigits radix 0 digits).filter (· ≤ 2 ^ 127)).map fun n => -(n : ℤ)
  | digits => ((parseDigits radix 0 digits).filter (· < 2 ^ 127)).map Int.ofNat

/-- Characters removed before parsing: the separator and the suffix letters. -/
def ignoredChars : List Char := ['\'', 'u', 'U', 'l', 'L', 'z', 'Z']

/-- How many bytes of prefix the literal has, and its radix. -/
def literalRadix (chars : List Char) : ℕ × ℕ :=
  match (splitBytes 2 chars).map Prod.fst with
  | some ['0', 'x'] => (2, 16)
  | some ['0', 'X'] => (2, 16)
  | some ['0', 'b'] => (2, 2)
  | some ['0', 'B'] => (2, 2)
  | some ('0' :: _) => (1, 8)
  | _ => (0, 10)

/-- `parse_number_literal`. Negation wraps as 128-bit arithmetic does. -/
def parseNumberLiteral (input : String) : Option ℤ :=
  let filtered := input.toList.filter fun char => !ignoredChars.contains char
  let negative := filtered.head? == some '-'
  let unsigned := if negative then filtered.tail else filtered
  let (offset, radix) := literalRadix unsigned
  (fromStrRadix (unsigned.drop offset) radix).map fun value =>
    if negative then (-value).bmod (2 ^ 128) else value

example : parseNumberLiteral "-0xbeef" = some (-48879) := by decide

example : parseNumberLiteral "100'000ULL" = some 100000 := by decide

end Literals

end WeggliEnhance.SourceText
