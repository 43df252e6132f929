import Mathlib.Data.Nat.Digits.Defs

/-!
# Numeric literals of C

Integer literals in four radices, with digit separators and suffixes, and
floating literals with a decimal point, a decimal exponent or a hexadecimal
exponent. A literal is a record of the parts of its text, so that its
mathematical value is read off the digits and not off the text.
-/

namespace WeggliEnhance.LiteralGrammar

/-- The digits of all radices with their values. -/
def digitTable : List (Char × ℕ) :=
  [('0', 0), ('1', 1), ('2', 2), ('3', 3), ('4', 4), ('5', 5), ('6', 6), ('7', 7), ('8', 8),
    ('9', 9), ('a', 10), ('b', 11), ('c', 12), ('d', 13), ('e', 14), ('f', 15), ('A', 10),
    ('B', 11), ('C', 12), ('D', 13), ('E', 14), ('F', 15)]

/-- Value of a digit. -/
def digitValue (char : Char) : Option ℕ := digitTable.lookup char

/-- The number that a sequence of digits denotes, separators apart. -/
def digitsValue (base : ℕ) (chars : List Char) : ℕ :=
  Nat.ofDigits base (chars.filterMap digitValue).reverse

/-- The character is a digit of the base. -/
def IsDigit (base : ℕ) (char : Char) : Prop := ∃ d, digitValue char = some d ∧ d < base

/-- A sequence of digits with separators. -/
def DigitSequence (base : ℕ) (chars : List Char) : Prop :=
  ∀ char ∈ chars, char = '\'' ∨ IsDigit base char

instance (base : ℕ) (chars : List Char) : Decidable (DigitSequence base chars) :=
  decidable_of_iff
    ((chars.all fun char => char == '\'' || (digitValue char).any fun d => d < base) = true) <| by
    simp only [DigitSequence, IsDigit, List.all_eq_true, Bool.or_eq_true, beq_iff_eq,
      Option.any_eq_true, decide_eq_true_eq]

/-- The forms of an integer literal. -/
inductive Radix where
  /-- Digits behind `0b`. -/
  | binary
  /-- Digits of which the first is `0`. -/
  | octal
  /-- Digits of which the first is not `0`. -/
  | decimal
  /-- Digits behind `0x`. -/
  | hexadecimal
  deriving DecidableEq

/-- The base of a form. -/
def Radix.base : Radix → ℕ
  | .binary => 2
  | .octal => 8
  | .decimal => 10
  | .hexadecimal => 16

/-- What stands before the digits, with a letter in either case. -/
def Radix.marker (upper : Bool) : Radix → List Char
  | .binary => ['0', if upper then 'B' else 'b']
  | .octal => []
  | .decimal => []
  | .hexadecimal => ['0', if upper then 'X' else 'x']

/-- The letters of integer suffixes. -/
def suffixLetters : List Char := ['u', 'U', 'l', 'L', 'z', 'Z']

/-- An unsigned integer literal. -/
structure IntegerLiteral where
  /-- Its form. -/
  radix : Radix
  /-- Whether the letter of the marker is upper case. -/
  upper : Bool
  /-- Digits and separators. -/
  body : List Char
  /-- Letters behind the digits. -/
  suffix : List Char
  /-- The digits belong to the radix. -/
  digits : DigitSequence radix.base body
  /-- The first character is a digit, and `0` exactly in octal form when there
  is no marker. -/
  first : ∃ char rest, body = char :: rest ∧ char ≠ '\'' ∧ (radix = .octal → char = '0') ∧
    (radix = .decimal → char ≠ '0')
  /-- Separators stand between digits. -/
  last : body.getLast? ≠ some '\''
  /-- Any suffix over the letters is allowed. -/
  suffixed : ∀ char ∈ suffix, char ∈ suffixLetters

/-- The characters of a literal. -/
def IntegerLiteral.text (literal : IntegerLiteral) : List Char :=
  literal.radix.marker literal.upper ++ literal.body ++ literal.suffix

/-- The mathematical value of a literal. -/
def IntegerLiteral.value (literal : IntegerLiteral) : ℕ :=
  digitsValue literal.radix.base literal.body

/-- The sign of a literal. -/
def minusSign (negative : Bool) : List Char := if negative then ['-'] else []

/-- The text of a literal with an optional minus sign. -/
def IntegerLiteral.signedText (literal : IntegerLiteral) (negative : Bool) : String :=
  String.ofList (minusSign negative ++ literal.text)

/-- The value of a literal with an optional minus sign. -/
def IntegerLiteral.signedValue (literal : IntegerLiteral) (negative : Bool) : ℤ :=
  if negative then -(literal.value : ℤ) else literal.value

/-- The exponent of a floating literal. -/
structure Exponent where
  /-- Its letter. -/
  letter : Char
  /-- An optional sign. -/
  sign : List Char
  /-- Decimal digits. -/
  digits : List Char
  /-- At most one sign. -/
  signs : sign ∈ [[], ['+'], ['-']]
  /-- There is a digit. -/
  nonempty : digits ≠ []
  /-- Exponents are written in decimal. -/
  decimal : DigitSequence 10 digits

/-- The characters of an exponent. -/
def Exponent.text (exponent : Exponent) : List Char :=
  exponent.letter :: (exponent.sign ++ exponent.digits)

/-- An unsigned floating literal. -/
structure FloatLiteral where
  /-- Whether the literal is hexadecimal. -/
  hexadecimal : Bool
  /-- Whether the letter of the marker is upper case. -/
  upper : Bool
  /-- Digits before the point. -/
  whole : List Char
  /-- Digits behind the point, if there is one. -/
  fraction : Option (List Char)
  /-- The exponent, if there is one. -/
  exponent : Option Exponent
  /-- Letters and digits behind the number. -/
  suffix : List Char
  /-- The digits before the point belong to the radix and start with a digit. -/
  wholeDigits : DigitSequence (if hexadecimal then 16 else 10) whole ∧ whole.head? ≠ some '\''
  /-- The digits behind the point belong to the radix. -/
  fractionDigits : ∀ chars, fraction = some chars →
    DigitSequence (if hexadecimal then 16 else 10) chars
  /-- There is a digit on one side of the point. -/
  nonempty : whole ≠ [] ∨ ∃ chars, fraction = some chars ∧ chars ≠ []
  /-- The letter of the exponent fits the radix. -/
  letter : ∀ e, exponent = some e → e.letter ∈ if hexadecimal then ['p', 'P'] else ['e', 'E']
  /-- A point or an exponent makes a decimal literal floating, an exponent a
  hexadecimal one. -/
  floating : exponent.isSome ∨ hexadecimal = false ∧ fraction.isSome
  /-- Suffixes have letters and digits only. -/
  suffixed : ∀ char ∈ suffix, char.isAlphanum

/-- The characters of a floating literal. -/
def FloatLiteral.text (literal : FloatLiteral) : List Char :=
  (if literal.hexadecimal then Radix.hexadecimal.marker literal.upper else []) ++
    literal.whole ++ (literal.fraction.map ('.' :: ·)).getD [] ++
    (literal.exponent.map Exponent.text).getD [] ++ literal.suffix

/-- The text of a floating literal with an optional minus sign. -/
def FloatLiteral.signedText (literal : FloatLiteral) (negative : Bool) : String :=
  String.ofList (minusSign negative ++ literal.text)

theorem mem_digitTable {char : Char} {d : ℕ} (h : digitValue char = some d) :
    (char, d) ∈ digitTable := by
  rw [digitValue, List.lookup_eq_some_iff] at h
  obtain ⟨before, after, heq, -⟩ := h
  rw [heq]
  exact List.mem_append_right before List.mem_cons_self

/-- An integer literal contains no backslash. -/
theorem IntegerLiteral.plain_signedText (literal : IntegerLiteral) (negative : Bool) :
    '\\' ∉ (literal.signedText negative).toList := by
  rw [IntegerLiteral.signedText, String.toList_ofList, IntegerLiteral.text]
  simp only [List.mem_append, not_or]
  refine ⟨?_, ⟨?_, ?_⟩, ?_⟩
  · cases negative <;> decide
  · cases literal.radix <;> cases literal.upper <;> decide
  · intro hbody
    rcases literal.digits _ hbody with hseparator | ⟨d, hdigit, -⟩
    · exact absurd hseparator (by decide)
    · have hnone : digitValue '\\' = none := by decide
      rw [hnone] at hdigit
      cases hdigit
  · intro hsuffix
    exact absurd (literal.suffixed _ hsuffix) (by decide)

end WeggliEnhance.LiteralGrammar
