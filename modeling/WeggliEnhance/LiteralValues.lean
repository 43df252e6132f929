import WeggliEnhance.LiteralGrammar
import WeggliEnhance.PatternBuilder
import WeggliEnhance.QueryEngine

/-!
# Values of number literals

`parse_number_literal` removes characters from the whole text, guesses the
radix from two bytes and leaves the rest to the standard library. On every
integer literal with an optional minus sign it gives the mathematical value
when the magnitude is below `2 ^ 127`, and on every floating literal nothing,
without a panic. A plus sign hides the radix from the guess.
-/

namespace WeggliEnhance.LiteralValues

open SourceText SyntaxTree ThirdParty QueryText QueryTrees QueryEngine PatternBuilder
  LiteralGrammar

/-- `parse_number_literal` with its panics: nothing when the slice behind the
radix does not start at a character or the negation overflows. -/
def checkedParse (input : String) : Option (Option ℤ) :=
  let filtered := input.toList.filter fun char => !ignoredChars.contains char
  let negative := filtered.head? == some '-'
  let unsigned := if negative then filtered.tail else filtered
  let (offset, radix) := literalRadix unsigned
  (splitBytes offset unsigned).bind fun parts =>
    match fromStrRadix parts.2 radix with
    | none => some none
    | some value =>
      if negative then if value = -2 ^ 127 then none else some (some (-value))
      else some (some value)

/-- What is left of a text when separators and suffixes are removed. -/
def kept (chars : List Char) : List Char := chars.filter fun char => !ignoredChars.contains char

/-- The value read behind the sign. -/
def unsignedParse (chars : List Char) : Option ℤ :=
  fromStrRadix (chars.drop (literalRadix chars).1) (literalRadix chars).2

section Digits

variable {base : ℕ} {char : Char} {chars : List Char}

theorem toDigit_of_digitValue {d : ℕ} (h : digitValue char = some d) (hd : d < base) :
    toDigit base char = some d := by
  have htable : ∀ entry ∈ digitTable, toDigit 36 entry.1 = some entry.2 := by decide
  have hany := htable (char, d) (mem_digitTable h)
  unfold toDigit at hany ⊢
  obtain ⟨hvalue, -⟩ := Option.filter_eq_some_iff.mp hany
  exact Option.filter_eq_some_iff.mpr ⟨hvalue, by simpa using hd⟩

/-- No digit is taken for a separator or a letter of a suffix. -/
theorem not_ignored_of_isDigit (h : IsDigit base char) :
    ignoredChars.contains char = false := by
  have htable : ∀ entry ∈ digitTable, ignoredChars.contains entry.1 = false := by decide
  obtain ⟨d, hd, -⟩ := h
  exact htable (char, d) (mem_digitTable hd)

/-- Digits are parsed from the most significant one on. -/
theorem parseDigits_eq (h : ∀ char ∈ chars, IsDigit base char) (value : ℕ) :
    parseDigits base value chars =
      some ((chars.filterMap digitValue).foldl (fun v d => d + base * v) value) := by
  induction chars generalizing value with
  | nil => rfl
  | cons char chars ih =>
    obtain ⟨d, hd, hlt⟩ := h char List.mem_cons_self
    have hrest := ih fun c hc => h c (List.mem_cons_of_mem char hc)
    rw [parseDigits, toDigit_of_digitValue hd hlt, Option.bind_some, hrest,
      List.filterMap_cons_some hd, List.foldl_cons, Nat.add_comm d, Nat.mul_comm base]

theorem parseDigits_zero_eq (h : ∀ char ∈ chars, IsDigit base char) :
    parseDigits base 0 chars = some (digitsValue base chars) := by
  rw [parseDigits_eq h, digitsValue, Nat.ofDigits_eq_foldr, List.foldr_reverse]
  rfl

/-- One character that is no digit spoils the sequence. -/
theorem parseDigits_eq_none (hmem : char ∈ chars) (hnone : toDigit base char = none) (value : ℕ) :
    parseDigits base value chars = none := by
  induction chars generalizing value with
  | nil => cases hmem
  | cons head chars ih =>
    rw [parseDigits]
    obtain rfl | htail := List.mem_cons.mp hmem
    · rw [hnone, Option.bind_none]
    · cases toDigit base head with
      | none => rfl
      | some digit => exact ih htail _

/-- Digits without a sign are parsed as they stand. -/
theorem fromStrRadix_digits {first : Char} (hplus : first ≠ '+') (hminus : first ≠ '-')
    (base : ℕ) (rest : List Char) :
    fromStrRadix (first :: rest) base =
      ((parseDigits base 0 (first :: rest)).filter (· < 2 ^ 127)).map Int.ofNat := by
  unfold fromStrRadix
  split
  · contradiction
  · rename_i h
    cases h
    exact absurd rfl hplus
  · rename_i h
    cases h
    exact absurd rfl hminus
  · rename_i h
    cases h
    exact absurd rfl hplus
  · rename_i h
    cases h
    exact absurd rfl hminus
  · rfl

theorem fromStrRadix_eq_none (hmem : char ∈ chars) (hnone : toDigit base char = none)
    (hplus : char ≠ '+') (hminus : char ≠ '-') : fromStrRadix chars base = none := by
  unfold fromStrRadix
  split
  · rfl
  · rfl
  · rfl
  · have htail := (List.mem_cons.mp hmem).resolve_left hplus
    rw [parseDigits_eq_none htail hnone]
    rfl
  · have htail := (List.mem_cons.mp hmem).resolve_left hminus
    rw [parseDigits_eq_none htail hnone]
    rfl
  · rw [parseDigits_eq_none hmem hnone]
    rfl

end Digits

section Radix

variable {chars : List Char}

/-- The guess of the radix always drops a marker that is there. -/
theorem literalRadix_cases (chars : List Char) :
    literalRadix chars = (0, 10) ∨
    (∃ rest, chars = '0' :: rest ∧ literalRadix chars = (1, 8)) ∨
    (∃ letter rest, chars = '0' :: letter :: rest ∧ letter ∈ ['x', 'X'] ∧
      literalRadix chars = (2, 16)) ∨
    ∃ letter rest, chars = '0' :: letter :: rest ∧ letter ∈ ['b', 'B'] ∧
      literalRadix chars = (2, 2) := by
  cases hsplit : splitBytes 2 chars with
  | none =>
    left
    rw [literalRadix, hsplit]
    rfl
  | some parts =>
    obtain ⟨front, rest⟩ := parts
    have happend : chars = front ++ rest := splitBytes_append hsplit
    unfold literalRadix
    rw [hsplit, Option.map_some]
    split
    · rename_i h
      cases h
      exact .inr (.inr (.inl ⟨'x', rest, happend, by simp, rfl⟩))
    · rename_i h
      cases h
      exact .inr (.inr (.inl ⟨'X', rest, happend, by simp, rfl⟩))
    · rename_i h
      cases h
      exact .inr (.inr (.inr ⟨'b', rest, happend, by simp, rfl⟩))
    · rename_i h
      cases h
      exact .inr (.inr (.inr ⟨'B', rest, happend, by simp, rfl⟩))
    · rename_i tail _ _ _ _ h
      cases h
      exact .inr (.inl ⟨tail ++ rest, happend, rfl⟩)
    · exact .inl rfl

theorem splitBytes_ascii {char : Char} (h : char.utf8Size = 1) (bytes : ℕ) (chars : List Char) :
    splitBytes (bytes + 1) (char :: chars) =
      (splitBytes bytes chars).map fun parts => (char :: parts.1, parts.2) := by
  rw [splitBytes, h, if_pos (Nat.le_add_left 1 bytes), Nat.add_sub_cancel]

/-- The first two bytes of a text that starts with two ASCII characters. -/
theorem splitBytes_two {first second : Char} (hfirst : first.utf8Size = 1)
    (hsecond : second.utf8Size = 1) (tail : List Char) :
    (splitBytes 2 (first :: second :: tail)).map Prod.fst = some [first, second] := by
  rw [splitBytes_ascii hfirst, splitBytes_ascii hsecond, splitBytes]
  rfl

/-- Only the first two characters matter for the radix. -/
theorem literalRadix_two {first second : Char} (hfirst : first.utf8Size = 1)
    (hsecond : second.utf8Size = 1) (tail : List Char) :
    literalRadix (first :: second :: tail) = literalRadix [first, second] := by
  unfold literalRadix
  rw [splitBytes_two hfirst hsecond, splitBytes_two hfirst hsecond]

theorem literalRadix_binary (upper : Bool) (tail : List Char) :
    literalRadix (Radix.binary.marker upper ++ tail) = (2, 2) := by
  cases upper with
  | false => exact (literalRadix_two rfl rfl tail).trans (by decide)
  | true => exact (literalRadix_two rfl rfl tail).trans (by decide)

theorem literalRadix_hexadecimal (upper : Bool) (tail : List Char) :
    literalRadix (Radix.hexadecimal.marker upper ++ tail) = (2, 16) := by
  cases upper with
  | false => exact (literalRadix_two rfl rfl tail).trans (by decide)
  | true => exact (literalRadix_two rfl rfl tail).trans (by decide)

theorem utf8Size_of_mem_pair {letter lower upper : Char} (hlower : lower.utf8Size = 1)
    (hupper : upper.utf8Size = 1) (h : letter ∈ [lower, upper]) : letter.utf8Size = 1 := by
  rw [List.mem_pair] at h
  obtain rfl | rfl := h
  · exact hlower
  · exact hupper

theorem splitBytes_marker {letter : Char} (h : letter.utf8Size = 1) (rest : List Char) :
    splitBytes 2 ('0' :: letter :: rest) =
      some (['0', letter], ('0' :: letter :: rest).drop 2) := by
  rw [splitBytes_ascii rfl, splitBytes_ascii h, splitBytes]
  rfl

/-- The slice behind the marker starts at a character. -/
theorem splitBytes_literalRadix (chars : List Char) :
    ∃ front, splitBytes (literalRadix chars).1 chars =
      some (front, chars.drop (literalRadix chars).1) := by
  obtain h | ⟨rest, rfl, h⟩ | ⟨letter, rest, rfl, hletter, h⟩ | ⟨letter, rest, rfl, hletter, h⟩ :=
    literalRadix_cases chars
  · rw [h]
    exact ⟨[], by rw [splitBytes, List.drop_zero]⟩
  · rw [h]
    exact ⟨['0'], by rw [splitBytes_ascii rfl, splitBytes]; rfl⟩
  · rw [h]
    exact ⟨['0', letter], splitBytes_marker (utf8Size_of_mem_pair rfl rfl hletter) rest⟩
  · rw [h]
    exact ⟨['0', letter], splitBytes_marker (utf8Size_of_mem_pair rfl rfl hletter) rest⟩

/-- A text whose first character is not `0` is read in decimal. -/
theorem literalRadix_of_ne_zero (h : chars.head? ≠ some '0') : literalRadix chars = (0, 10) := by
  obtain hten | ⟨rest, rfl, -⟩ | ⟨letter, rest, rfl, -⟩ | ⟨letter, rest, rfl, -⟩ :=
    literalRadix_cases chars
  · exact hten
  · exact absurd rfl h
  · exact absurd rfl h
  · exact absurd rfl h

/-- A text that starts with `0` and another digit is read in octal. -/
theorem literalRadix_octal {base : ℕ} {char : Char} (h : IsDigit base char) (hbase : base ≤ 10)
    (rest : List Char) : literalRadix ('0' :: char :: rest) = (1, 8) := by
  have htable : ∀ entry ∈ digitTable, entry.2 < 10 →
      literalRadix ['0', entry.1] = (1, 8) ∧ entry.1.utf8Size = 1 := by decide
  obtain ⟨d, hd, hlt⟩ := h
  obtain ⟨hshort, hsize⟩ := htable (char, d) (mem_digitTable hd) (by omega)
  exact (literalRadix_two rfl hsize rest).trans hshort

end Radix

section Signs

variable {chars : List Char}

theorem kept_minusSign (negative : Bool) (chars : List Char) :
    kept (minusSign negative ++ chars) = minusSign negative ++ kept chars := by
  have hsign : kept (minusSign negative) = minusSign negative := by
    cases negative <;> rfl
  have happend : kept (minusSign negative ++ chars) = kept (minusSign negative) ++ kept chars :=
    List.filter_append ..
  rw [happend, hsign]

/-- Removing the sign leaves the unsigned text. -/
theorem strip_minusSign (negative : Bool) (h : chars.head? ≠ some '-') :
    ((minusSign negative ++ chars).head? == some '-') = negative ∧
      (if negative then (minusSign negative ++ chars).tail else minusSign negative ++ chars) =
        chars := by
  cases negative with
  | true => exact ⟨rfl, rfl⟩
  | false => exact ⟨beq_eq_false_iff_ne.mpr h, rfl⟩

/-- Parsing a signed text is parsing the text without its sign. -/
theorem parseNumberLiteral_signed (negative : Bool) (h : (kept chars).head? ≠ some '-') :
    parseNumberLiteral (String.ofList (minusSign negative ++ chars)) =
      (unsignedParse (kept chars)).map fun value =>
        if negative then (-value).bmod (2 ^ 128) else value := by
  obtain ⟨hnegative, hrest⟩ := strip_minusSign negative h
  have hkept := kept_minusSign negative chars
  rw [kept] at hkept
  simp only [parseNumberLiteral, String.toList_ofList, hkept, hnegative, hrest, unsignedParse]

/-- Reading a number that is not negative never panics. -/
theorem checkedParse_signed (negative : Bool) (h : (kept chars).head? ≠ some '-')
    (hpositive : ∀ value, unsignedParse (kept chars) = some value → 0 ≤ value) :
    checkedParse (String.ofList (minusSign negative ++ chars)) =
      some ((unsignedParse (kept chars)).map fun value => if negative then -value else value) := by
  obtain ⟨hnegative, hrest⟩ := strip_minusSign negative h
  obtain ⟨front, hsplit⟩ := splitBytes_literalRadix (kept chars)
  have hkept := kept_minusSign negative chars
  rw [kept] at hkept
  simp only [checkedParse, String.toList_ofList, hkept, hnegative, hrest, hsplit, Option.bind_some]
  rw [unsignedParse] at hpositive ⊢
  cases hvalue : fromStrRadix ((kept chars).drop (literalRadix (kept chars)).1)
      (literalRadix (kept chars)).2 with
  | none => rfl
  | some value =>
    have hnonneg := hpositive value hvalue
    have hlimit : value ≠ -2 ^ 127 := by omega
    cases negative with
    | false => rfl
    | true => simp only [if_true, hlimit, if_false, Option.map_some]

end Signs

section Integers

variable (literal : IntegerLiteral)

/-- The digits without separators. -/
def plainDigits : List Char := literal.body.filter fun char => char != '\''

theorem isDigit_plainDigits {char : Char} (h : char ∈ plainDigits literal) :
    IsDigit literal.radix.base char := by
  obtain ⟨hmem, hne⟩ := List.mem_filter.mp h
  exact (literal.digits char hmem).resolve_left (bne_iff_ne.mp hne)

theorem filterMap_plainDigits :
    (plainDigits literal).filterMap digitValue = literal.body.filterMap digitValue := by
  rw [plainDigits, List.filterMap_filter]
  refine List.filterMap_congr fun char _ => ?_
  by_cases hsep : char = '\''
  · rw [hsep]
    rfl
  · simp [hsep]

/-- Exactly the marker and the digits survive the filter. -/
theorem kept_text :
    kept literal.text = literal.radix.marker literal.upper ++ plainDigits literal := by
  have hmarker : kept (literal.radix.marker literal.upper) =
      literal.radix.marker literal.upper := by
    cases literal.radix <;> cases literal.upper <;> rfl
  have hbody : kept literal.body = plainDigits literal := by
    refine List.filter_congr fun char hchar => ?_
    obtain hsep | hdigit := literal.digits char hchar
    · rw [hsep]
      rfl
    · have hne : char ≠ '\'' := by
        rintro rfl
        obtain ⟨d, hd, -⟩ := hdigit
        cases hd
      rw [not_ignored_of_isDigit hdigit, bne_iff_ne.mpr hne]
      rfl
  have hsuffix : kept literal.suffix = [] := by
    refine List.filter_eq_nil_iff.mpr fun char hchar => ?_
    have hmem : char ∈ ignoredChars := List.mem_cons_of_mem _ (literal.suffixed char hchar)
    simp [hmem]
  have happend : kept literal.text = kept (literal.radix.marker literal.upper) ++
      kept literal.body ++ kept literal.suffix := by
    simp only [kept, IntegerLiteral.text, List.filter_append]
  rw [happend, hmarker, hbody, hsuffix, List.append_nil]

/-- The digits start with a digit, which is `0` in octal form only, and denote
the value. -/
theorem plainDigits_first :
    ∃ char rest, plainDigits literal = char :: rest ∧
      (∀ c ∈ char :: rest, IsDigit literal.radix.base c) ∧
      literal.value = digitsValue literal.radix.base (char :: rest) ∧
      (literal.radix = .octal → char = '0') ∧ (literal.radix = .decimal → char ≠ '0') := by
  obtain ⟨char, rest, hbody, hne, hoctal, hdecimal⟩ := literal.first
  have hplain : plainDigits literal = char :: rest.filter fun char => char != '\'' := by
    rw [plainDigits, hbody, List.filter_cons, if_pos (bne_iff_ne.mpr hne)]
  refine ⟨char, _, hplain, ?_, ?_, hoctal, hdecimal⟩
  · rw [← hplain]
    exact fun c hc => isDigit_plainDigits literal hc
  · rw [← hplain, digitsValue, filterMap_plainDigits]
    rfl

/-- A leading `0` adds nothing. -/
theorem digitsValue_zero_cons (base : ℕ) (rest : List Char) :
    digitsValue base ('0' :: rest) = digitsValue base rest := by
  have hzero : digitValue '0' = some 0 := rfl
  rw [digitsValue, List.filterMap_cons_some hzero, List.reverse_cons, Nat.ofDigits_append]
  simp [digitsValue]

/-- A digit is no sign. -/
theorem ne_sign_of_isDigit {base : ℕ} {char : Char} (h : IsDigit base char) :
    char ≠ '+' ∧ char ≠ '-' := by
  obtain ⟨d, hd, -⟩ := h
  constructor
  · rintro rfl
    cases hd
  · rintro rfl
    cases hd

/-- The limit of the 128-bit integers cuts off larger values. -/
theorem map_filter_limit (n : ℕ) :
    ((some n).filter (· < 2 ^ 127)).map Int.ofNat = if n < 2 ^ 127 then some (n : ℤ) else none := by
  rw [Option.filter_some]
  by_cases hlt : n < 2 ^ 127
  · rw [if_pos hlt, if_pos (decide_eq_true hlt)]
    rfl
  · rw [if_neg hlt, if_neg fun h => hlt (of_decide_eq_true h)]
    rfl

/-- Digits of the radix are read as their value if it is small enough. -/
theorem fromStrRadix_value {char : Char} {rest : List Char} {base : ℕ}
    (h : ∀ c ∈ char :: rest, IsDigit base c) :
    fromStrRadix (char :: rest) base =
      if digitsValue base (char :: rest) < 2 ^ 127 then some (digitsValue base (char :: rest) : ℤ)
      else none := by
  obtain ⟨hplus, hminus⟩ := ne_sign_of_isDigit (h char List.mem_cons_self)
  rw [fromStrRadix_digits hplus hminus, parseDigits_zero_eq h, map_filter_limit]

/-- A lone `0` is read in decimal, longer octal digits without their first. -/
theorem unsignedParse_octal {rest : List Char} (h : ∀ c ∈ rest, IsDigit 8 c) :
    unsignedParse ('0' :: rest) =
      if digitsValue 8 rest < 2 ^ 127 then some (digitsValue 8 rest : ℤ) else none := by
  cases rest with
  | nil => decide
  | cons char rest =>
    have hfirst := h char List.mem_cons_self
    rw [unsignedParse, literalRadix_octal hfirst (by decide)]
    exact fromStrRadix_value h

/-- The value of a literal is read when it is small enough. -/
theorem unsignedParse_kept_text :
    unsignedParse (kept literal.text) =
      if literal.value < 2 ^ 127 then some (literal.value : ℤ) else none := by
  obtain ⟨char, rest, hplain, hdigits, hvalue, hoctal, hdecimal⟩ := plainDigits_first literal
  rw [kept_text, hplain, hvalue]
  cases hradix : literal.radix with
  | binary =>
    rw [hradix] at hdigits
    rw [unsignedParse, literalRadix_binary]
    exact fromStrRadix_value hdigits
  | hexadecimal =>
    rw [hradix] at hdigits
    rw [unsignedParse, literalRadix_hexadecimal]
    exact fromStrRadix_value hdigits
  | decimal =>
    rw [hradix] at hdigits
    have hten : literalRadix (Radix.decimal.marker literal.upper ++ char :: rest) = (0, 10) :=
      literalRadix_of_ne_zero fun h => hdecimal hradix (Option.some.inj h)
    rw [unsignedParse, hten]
    exact fromStrRadix_value hdigits
  | octal =>
    rw [hradix] at hdigits
    rw [hoctal hradix, digitsValue_zero_cons]
    exact unsignedParse_octal fun c hc => hdigits c (List.mem_cons_of_mem char hc)

/-- The text behind the sign does not start with another one. -/
theorem head_kept_text : (kept literal.text).head? ≠ some '-' := by
  obtain ⟨char, rest, hplain, hdigits, -⟩ := plainDigits_first literal
  have hminus := (ne_sign_of_isDigit (hdigits char List.mem_cons_self)).2
  rw [kept_text, hplain]
  cases literal.radix with
  | binary => exact fun h => absurd (Option.some.inj h) (by decide)
  | hexadecimal => exact fun h => absurd (Option.some.inj h) (by decide)
  | decimal => exact fun h => hminus (Option.some.inj h)
  | octal => exact fun h => hminus (Option.some.inj h)

/-- Integer literals are read by value, without a panic. -/
theorem parseNumberLiteral_signedText (negative : Bool) :
    parseNumberLiteral (literal.signedText negative) =
      if literal.value < 2 ^ 127 then some (literal.signedValue negative) else none := by
  rw [IntegerLiteral.signedText, parseNumberLiteral_signed negative (head_kept_text literal),
    unsignedParse_kept_text]
  by_cases hfits : literal.value < 2 ^ 127
  · rw [if_pos hfits, if_pos hfits]
    cases negative with
    | false => rfl
    | true =>
      have hwrap : (-(literal.value : ℤ)).bmod (2 ^ 128) = -(literal.value : ℤ) :=
        Int.bmod_eq_of_le (by omega) (by omega)
      simp only [Option.map_some, if_true, hwrap, IntegerLiteral.signedValue]
  · rw [if_neg hfits, if_neg hfits]
    rfl

theorem checkedParse_signedText (negative : Bool) :
    checkedParse (literal.signedText negative) =
      some (parseNumberLiteral (literal.signedText negative)) := by
  rw [parseNumberLiteral_signedText, IntegerLiteral.signedText,
    checkedParse_signed negative (head_kept_text literal), unsignedParse_kept_text]
  · by_cases hfits : literal.value < 2 ^ 127
    · rw [if_pos hfits, if_pos hfits]
      cases negative <;> rfl
    · rw [if_neg hfits, if_neg hfits]
      rfl
  · intro value hvalue
    rw [unsignedParse_kept_text] at hvalue
    split_ifs at hvalue with hfits
    rw [← Option.some.inj hvalue]
    exact Int.natCast_nonneg _

end Integers

section Floats

variable (literal : FloatLiteral)

theorem kept_append (left right : List Char) : kept (left ++ right) = kept left ++ kept right :=
  List.filter_append ..

theorem kept_cons {char : Char} (h : ignoredChars.contains char = false) (chars : List Char) :
    kept (char :: chars) = char :: kept chars :=
  List.filter_cons_of_pos (by rw [h]; rfl)

/-- What is kept of a sequence of digits is digits. -/
theorem isDigit_kept {base : ℕ} {chars : List Char} {char : Char} (h : DigitSequence base chars)
    (hmem : char ∈ kept chars) : IsDigit base char := by
  obtain ⟨hchars, hkept⟩ := List.mem_filter.mp hmem
  refine (h char hchars).resolve_left ?_
  rintro rfl
  cases hkept

/-- A point or the letter of an exponent follows the digits of a decimal
floating literal. -/
theorem exists_text_decimal (h : literal.hexadecimal = false) :
    ∃ char tail, literal.text = literal.whole ++ char :: tail ∧ char ∈ ['.', 'e', 'E'] := by
  have hletter := literal.letter
  have hfloating := literal.floating
  rw [h] at hletter
  rw [FloatLiteral.text, if_neg (by rw [h]; exact Bool.false_ne_true), List.nil_append]
  cases hfraction : literal.fraction with
  | some chars =>
    simp only [Option.map_some, Option.getD_some, List.append_assoc, List.cons_append]
    exact ⟨'.', _, rfl, List.mem_cons_self⟩
  | none =>
    rw [hfraction] at hfloating
    obtain ⟨e, hexponent⟩ : ∃ e, literal.exponent = some e :=
      Option.isSome_iff_exists.mp (hfloating.resolve_right fun hpoint => Bool.noConfusion hpoint.2)
    rw [hexponent]
    simp only [Option.map_none, Option.getD_none, Option.map_some, Option.getD_some,
      Exponent.text, List.append_nil, List.append_assoc, List.cons_append]
    exact ⟨e.letter, _, rfl, List.mem_cons_of_mem '.' (hletter e hexponent)⟩

/-- The letter of an exponent stands behind the marker of a hexadecimal
floating literal. -/
theorem exists_text_hexadecimal (h : literal.hexadecimal = true) :
    ∃ front char tail, literal.text =
      Radix.hexadecimal.marker literal.upper ++ (front ++ char :: tail) ∧ char ∈ ['p', 'P'] := by
  have hletter := literal.letter
  have hfloating := literal.floating
  rw [h] at hletter hfloating
  obtain ⟨e, hexponent⟩ : ∃ e, literal.exponent = some e :=
    Option.isSome_iff_exists.mp (hfloating.resolve_right fun hpoint => Bool.noConfusion hpoint.1)
  refine ⟨literal.whole ++ (literal.fraction.map ('.' :: ·)).getD [], e.letter,
    e.sign ++ e.digits ++ literal.suffix, ?_, hletter e hexponent⟩
  rw [FloatLiteral.text, if_pos h, hexponent]
  simp only [Option.map_some, Option.getD_some, Exponent.text, List.append_assoc, List.cons_append]

/-- Digits that run into a point or a decimal exponent are no number. -/
theorem unsignedParse_decimal {digits tail : List Char} {char : Char}
    (hdigits : ∀ c ∈ digits, IsDigit 10 c) (hchar : char ∈ ['.', 'e', 'E']) :
    unsignedParse (digits ++ char :: tail) = none := by
  have hspoils : (toDigit 10 char = none ∧ toDigit 8 char = none) ∧ char ≠ '+' ∧ char ≠ '-' ∧
      char ≠ '0' ∧ char ∉ ['x', 'X', 'b', 'B'] := by
    simp only [List.mem_cons, List.not_mem_nil, or_false] at hchar
    obtain rfl | rfl | rfl := hchar <;> decide
  obtain ⟨⟨hten, height⟩, hplus, hminus, hzero, hmarker⟩ := hspoils
  have hmem : char ∈ digits ++ char :: tail := List.mem_append_right _ List.mem_cons_self
  have hnomarker : ∀ letter rest, digits ++ char :: tail = '0' :: letter :: rest →
      letter ∉ ['x', 'X', 'b', 'B'] := by
    intro letter rest heq hletter
    cases digits with
    | nil => exact hzero (List.cons.inj heq).1
    | cons first digits =>
      obtain ⟨-, heq⟩ := List.cons.inj heq
      cases digits with
      | nil =>
        rw [← (List.cons.inj heq).1] at hletter
        exact hmarker hletter
      | cons second digits =>
        obtain ⟨d, hd, hlt⟩ := hdigits second (by simp)
        rw [(List.cons.inj heq).1] at hd
        simp only [List.mem_cons, List.not_mem_nil, or_false] at hletter
        obtain rfl | rfl | rfl | rfl := hletter
        · cases hd
        · cases hd
        · cases hd
          omega
        · cases hd
          omega
  rw [unsignedParse]
  obtain h | ⟨rest, heq, h⟩ | ⟨letter, rest, heq, hletter, -⟩ | ⟨letter, rest, heq, hletter, -⟩ :=
    literalRadix_cases (digits ++ char :: tail)
  · rw [h]
    exact fromStrRadix_eq_none hmem hten hplus hminus
  · rw [h, heq]
    rw [heq] at hmem
    exact fromStrRadix_eq_none ((List.mem_cons.mp hmem).resolve_left hzero) height hplus hminus
  · refine absurd ?_ (hnomarker letter rest heq)
    exact List.mem_append_left ['b', 'B'] hletter
  · refine absurd ?_ (hnomarker letter rest heq)
    exact List.mem_append_right ['x', 'X'] hletter

/-- Floating literals are no integers. -/
theorem unsignedParse_float :
    unsignedParse (kept literal.text) = none ∧ (kept literal.text).head? ≠ some '-' := by
  cases hform : literal.hexadecimal with
  | false =>
    obtain ⟨char, tail, htext, hchar⟩ := exists_text_decimal literal hform
    have hspecial : ignoredChars.contains char = false ∧ char ≠ '-' := by
      simp only [List.mem_cons, List.not_mem_nil, or_false] at hchar
      obtain rfl | rfl | rfl := hchar <;> decide
    have hdigits : ∀ c ∈ kept literal.whole, IsDigit 10 c := by
      have hwhole := literal.wholeDigits.1
      rw [hform] at hwhole
      exact fun c hc => isDigit_kept hwhole hc
    rw [htext, kept_append, kept_cons hspecial.1]
    refine ⟨unsignedParse_decimal hdigits hchar, ?_⟩
    cases hkept : kept literal.whole with
    | nil => exact fun h => hspecial.2 (Option.some.inj h)
    | cons first rest =>
      have hfirst := hdigits first (by rw [hkept]; exact List.mem_cons_self)
      exact fun h => (ne_sign_of_isDigit hfirst).2 (Option.some.inj h)
  | true =>
    obtain ⟨front, char, tail, htext, hchar⟩ := exists_text_hexadecimal literal hform
    have hspecial : ignoredChars.contains char = false ∧ toDigit 16 char = none ∧ char ≠ '+' ∧
        char ≠ '-' := by
      simp only [List.mem_cons, List.not_mem_nil, or_false] at hchar
      obtain rfl | rfl := hchar <;> decide
    obtain ⟨hkeep, hnone, hplus, hminus⟩ := hspecial
    have hmarker : kept (Radix.hexadecimal.marker literal.upper) =
        Radix.hexadecimal.marker literal.upper := by
      cases literal.upper <;> rfl
    rw [htext, kept_append, kept_append, hmarker, kept_cons hkeep]
    refine ⟨?_, fun h => absurd (Option.some.inj h) (by decide)⟩
    rw [unsignedParse, literalRadix_hexadecimal]
    have hmem : char ∈ kept front ++ char :: kept tail :=
      List.mem_append_right (kept front) List.mem_cons_self
    exact fromStrRadix_eq_none hmem hnone hplus hminus

theorem parseNumberLiteral_float (negative : Bool) :
    parseNumberLiteral (literal.signedText negative) = none ∧
      checkedParse (literal.signedText negative) = some none := by
  obtain ⟨hnone, hhead⟩ := unsignedParse_float literal
  constructor
  · rw [FloatLiteral.signedText, parseNumberLiteral_signed negative hhead, hnone, Option.map_none]
  · rw [FloatLiteral.signedText, checkedParse_signed negative hhead, hnone, Option.map_none]
    intro value hvalue
    rw [hnone] at hvalue
    cases hvalue

end Floats

section Matching

/-- A node of the source passes what the engine and the query text demand of a
captured number: the checks of `process_match`, and the predicate `#eq?` that
`process_captures` writes for a constant. -/
def PassesCapture (externals : Externals) (source : String) (capture : Capture) (node : Node) :
    Prop :=
  accepts externals source capture node = .ok true ∧
    ∀ i text, checkPredicate (capture, i) = some (.tag (.eqString (toString i) text)) →
      slice source node.range = unescape text

theorem passesCapture_number {externals : Externals} {source : String} {value : ℤ} {node : Node} :
    PassesCapture externals source (.number value) node ↔
      parseNumberLiteral (slice source node.range) = some value := by
  have hnone : ∀ i text, checkPredicate (.number value, i) =
      some (.tag (.eqString (toString i) text)) → slice source node.range = unescape text := by
    intro i text h
    cases h
  rw [PassesCapture, and_iff_left hnone, accepts]
  cases parseNumberLiteral (slice source node.range) with
  | none => exact iff_of_false (fun h => by cases h) fun h => by cases h
  | some y =>
    rw [Except.ok.injEq, beq_iff_eq, Option.some.injEq]
    exact eq_comm

theorem passesCapture_check {externals : Externals} {source constant : String} {node : Node} :
    PassesCapture externals source (.check constant) node ↔
      slice source node.range = unescape constant := by
  constructor
  · rintro ⟨-, h⟩
    exact h 0 constant rfl
  · intro hslice
    refine ⟨rfl, ?_⟩
    intro i text h
    cases h
    exact hslice

/-- What the builder makes of a number in the pattern. -/
theorem buildNumber_eq (node : Node) (builder : QueryBuilder) :
    ∃ items, buildNumber node builder =
      .ok (items, builder.push
        (match parseNumberLiteral (slice builder.querySource node.range) with
          | some value => .number value
          | none => .check (slice builder.querySource node.range))) :=
  ⟨_, rfl⟩

/-- The capture for an integer literal compares values if the one of the
pattern fits, and texts otherwise. -/
theorem exists_buildNumber (externals : Externals) (builder : QueryBuilder) {source : String}
    (node found : Node) {query text : IntegerLiteral} {queryNegative negative : Bool}
    (hquery : slice builder.querySource node.range = query.signedText queryNegative)
    (htext : slice source found.range = text.signedText negative) :
    ∃ items capture, buildNumber node builder = .ok (items, builder.push capture) ∧
      (PassesCapture externals source capture found ↔
        if query.value < 2 ^ 127 then
          query.signedValue queryNegative = text.signedValue negative
        else query.signedText queryNegative = text.signedText negative) := by
  obtain ⟨items, hbuild⟩ := buildNumber_eq node builder
  rw [hquery, parseNumberLiteral_signedText] at hbuild
  by_cases hfits : query.value < 2 ^ 127
  · rw [if_pos hfits] at hbuild ⊢
    refine ⟨items, _, hbuild, ?_⟩
    rw [passesCapture_number, htext, parseNumberLiteral_signedText]
    constructor
    · intro h
      split_ifs at h
      exact (Option.some.inj h).symm
    · intro h
      have hmagnitude : text.value = query.value := by
        cases queryNegative <;> cases negative <;>
          simp only [IntegerLiteral.signedValue, if_true, Bool.false_eq_true, if_false] at h <;>
          omega
      rw [if_pos (by omega), h]
  · rw [if_neg hfits] at hbuild ⊢
    refine ⟨items, _, hbuild, ?_⟩
    rw [passesCapture_check, htext, unescape_eq (query.plain_signedText queryNegative)]
    exact eq_comm

/-- Number literals are read by value. Integer literals give their value when
its magnitude fits in 128 bits and nothing otherwise, floating literals give
nothing, and no literal causes a panic. A literal of the pattern whose
magnitude fits matches exactly the literals of the source that denote the same
integer; a larger one is matched as text. -/
theorem parseNumberLiteral_reads_values :
    (∀ (literal : IntegerLiteral) negative,
      parseNumberLiteral (literal.signedText negative) =
        (if literal.value < 2 ^ 127 then some (literal.signedValue negative) else none) ∧
      checkedParse (literal.signedText negative) =
        some (parseNumberLiteral (literal.signedText negative))) ∧
    (∀ (literal : FloatLiteral) negative,
      parseNumberLiteral (literal.signedText negative) = none ∧
      checkedParse (literal.signedText negative) = some none) ∧
    ∀ (externals : Externals) (builder : QueryBuilder) (source : String) (node found : Node)
      (query text : IntegerLiteral) (queryNegative negative : Bool),
      slice builder.querySource node.range = query.signedText queryNegative →
      slice source found.range = text.signedText negative →
      ∃ items capture, buildNumber node builder = .ok (items, builder.push capture) ∧
        (PassesCapture externals source capture found ↔
          if query.value < 2 ^ 127 then
            query.signedValue queryNegative = text.signedValue negative
          else query.signedText queryNegative = text.signedText negative) := by
  refine ⟨?_, ?_, ?_⟩
  · intro literal negative
    exact ⟨parseNumberLiteral_signedText literal negative, checkedParse_signedText literal negative⟩
  · intro literal negative
    exact parseNumberLiteral_float literal negative
  · intro externals builder source node found query text queryNegative negative hquery htext
    exact exists_buildNumber externals builder node found hquery htext

/-- The limit of the 128-bit integers in decimal. -/
def decimalLimit : IntegerLiteral where
  radix := .decimal
  upper := false
  body := "170141183460469231731687303715884105728".toList
  suffix := []
  digits := by decide
  first := ⟨'1', _, rfl, by decide, by decide, by decide⟩
  last := by decide
  suffixed := by simp

/-- The same number in hexadecimal. -/
def hexadecimalLimit : IntegerLiteral where
  radix := .hexadecimal
  upper := false
  body := "80000000000000000000000000000000".toList
  suffix := []
  digits := by decide
  first := ⟨'8', _, rfl, by decide, by decide, by decide⟩
  last := by decide
  suffixed := by simp

/-- A node that is a number at the given bytes. -/
def numberNode (range : Range) : Node := ⟨0, "number_literal", true, none, range, []⟩

/-- A pattern with the decimal literal. -/
def decimalPattern : String := "\x7b170141183460469231731687303715884105728;\x7d"

/-- A program with the hexadecimal literal. -/
def hexadecimalSource : String := "int f()\x7b0x80000000000000000000000000000000;\x7d"

/-- A pattern and a program that hold the same large integer in two radices do
not match. -/
theorem not_passes_equal_integers :
    slice decimalPattern ⟨1, 40⟩ = decimalLimit.signedText false ∧
      slice hexadecimalSource ⟨8, 42⟩ = hexadecimalLimit.signedText false ∧
      decimalLimit.signedValue false = hexadecimalLimit.signedValue false ∧
      ∃ items capture, buildNumber (numberNode ⟨1, 40⟩) (.new decimalPattern 0 ∅) =
          .ok (items, (QueryBuilder.new decimalPattern 0 ∅).push capture) ∧
        ¬ PassesCapture sampleExternals hexadecimalSource capture (numberNode ⟨8, 42⟩) := by
  have hquery : slice decimalPattern ⟨1, 40⟩ = decimalLimit.signedText false := by decide +kernel
  have htext : slice hexadecimalSource ⟨8, 42⟩ = hexadecimalLimit.signedText false := by
    decide +kernel
  refine ⟨hquery, htext, by decide +kernel, ?_⟩
  obtain ⟨items, capture, hbuild, hiff⟩ := exists_buildNumber sampleExternals
    (.new decimalPattern 0 ∅) (numberNode ⟨1, 40⟩) (numberNode ⟨8, 42⟩) hquery htext
  refine ⟨items, capture, hbuild, ?_⟩
  rw [hiff, if_neg (by decide +kernel)]
  decide +kernel

end Matching

section Plus

variable (literal : IntegerLiteral)

/-- The text of a literal behind a plus sign. -/
def plusText : String := String.ofList ('+' :: literal.text)

theorem fromStrRadix_plus {chars : List Char} (h : chars ≠ []) (base : ℕ) :
    fromStrRadix ('+' :: chars) base =
      ((parseDigits base 0 chars).filter (· < 2 ^ 127)).map Int.ofNat := by
  cases chars with
  | nil => exact absurd rfl h
  | cons char chars => rfl

/-- Behind a plus sign every literal is read in decimal, marker included. -/
theorem parseNumberLiteral_plusText :
    parseNumberLiteral (plusText literal) =
      ((parseDigits 10 0 (kept literal.text)).filter (· < 2 ^ 127)).map Int.ofNat := by
  have hnonempty : kept literal.text ≠ [] := by
    obtain ⟨char, rest, hplain, -⟩ := plainDigits_first literal
    rw [kept_text, hplain]
    simp
  have hplus : kept ('+' :: literal.text) = '+' :: kept literal.text := kept_cons rfl _
  have hten : literalRadix ('+' :: kept literal.text) = (0, 10) :=
    literalRadix_of_ne_zero fun h => absurd (Option.some.inj h) (by decide)
  have hhead : (kept ('+' :: literal.text)).head? ≠ some '-' := by
    rw [hplus]
    exact fun h => absurd (Option.some.inj h) (by decide)
  have hsigned := parseNumberLiteral_signed false hhead
  rw [hplus, unsignedParse, hten, List.drop_zero, fromStrRadix_plus hnonempty] at hsigned
  refine hsigned.trans ?_
  simp only [Bool.false_eq_true, if_false, Option.map_id_fun', id]

/-- The letter of a marker is no decimal digit. -/
theorem parseDigits_marker {letter : Char} (h : toDigit 10 letter = none) (digits : List Char) :
    ((parseDigits 10 0 ('0' :: letter :: digits)).filter (· < 2 ^ 127)).map Int.ofNat = none := by
  have hmem : letter ∈ '0' :: letter :: digits := List.mem_cons_of_mem '0' List.mem_cons_self
  rw [parseDigits_eq_none hmem h]
  rfl

/-- So a decimal reading fails behind a binary or a hexadecimal marker. -/
theorem parseDigits_lettered {radix : Radix} (h : radix = .binary ∨ radix = .hexadecimal)
    {upper : Bool} (digits : List Char) :
    ((parseDigits 10 0 (radix.marker upper ++ digits)).filter (· < 2 ^ 127)).map Int.ofNat =
      none := by
  obtain rfl | rfl := h <;> cases upper <;> exact parseDigits_marker (by decide) digits

/-- Digits that denote zero in one base do so in every base. -/
theorem ofDigits_ten_eq_zero {digits : List ℕ} (h : Nat.ofDigits 8 digits = 0) :
    Nat.ofDigits 10 digits = 0 := by
  induction digits with
  | nil => rfl
  | cons d digits ih =>
    rw [Nat.ofDigits_cons] at h ⊢
    have hrest := ih (by omega)
    omega

/-- Octal digits denote more in decimal, unless only the last one counts. -/
theorem ofDigits_octal_eq_iff {digits : List ℕ} (h : ∀ d ∈ digits, d < 8) :
    Nat.ofDigits 10 digits = Nat.ofDigits 8 digits ↔ Nat.ofDigits 8 digits < 8 := by
  cases digits with
  | nil => simp
  | cons d digits =>
    have hd := h d List.mem_cons_self
    have hle : Nat.ofDigits 8 digits ≤ Nat.ofDigits 10 digits :=
      Nat.ofDigits_monotone digits (by decide)
    rw [Nat.ofDigits_cons, Nat.ofDigits_cons]
    constructor
    · intro heq
      omega
    · intro hlt
      have hrest : Nat.ofDigits 8 digits = 0 := by omega
      have hzero := ofDigits_ten_eq_zero hrest
      omega

/-- Octal digits behind a plus sign are read as a decimal number. -/
theorem plus_octal_iff {rest : List Char} (h : ∀ c ∈ '0' :: rest, IsDigit 8 c) :
    ((parseDigits 10 0 ('0' :: rest)).filter (· < 2 ^ 127)).map Int.ofNat =
      (if digitsValue 8 ('0' :: rest) < 2 ^ 127 then some (digitsValue 8 ('0' :: rest) : ℤ)
        else none) ↔
      digitsValue 8 ('0' :: rest) < 8 ∨ 2 ^ 127 ≤ digitsValue 8 ('0' :: rest) := by
  have hten : ∀ c ∈ '0' :: rest, IsDigit 10 c := by
    intro c hc
    obtain ⟨d, hd, hlt⟩ := h c hc
    exact ⟨d, hd, by omega⟩
  have hdigits : ∀ d ∈ (('0' :: rest).filterMap digitValue).reverse, d < 8 := by
    intro d hd
    obtain ⟨c, hc, hvalue⟩ := List.mem_filterMap.mp (List.mem_reverse.mp hd)
    obtain ⟨e, he, hlt⟩ := h c hc
    rw [hvalue] at he
    cases he
    exact hlt
  have heq : digitsValue 10 ('0' :: rest) = digitsValue 8 ('0' :: rest) ↔
      digitsValue 8 ('0' :: rest) < 8 := ofDigits_octal_eq_iff hdigits
  have hle : digitsValue 8 ('0' :: rest) ≤ digitsValue 10 ('0' :: rest) :=
    Nat.ofDigits_monotone _ (by decide)
  rw [parseDigits_zero_eq hten, map_filter_limit]
  generalize digitsValue 10 ('0' :: rest) = ten at heq hle ⊢
  generalize digitsValue 8 ('0' :: rest) = eight at heq hle ⊢
  rw [← heq]
  split_ifs with hfits hsmall hsmall
  · rw [Option.some.injEq, Int.natCast_inj]
    omega
  · omega
  · simp only [false_iff]
    omega
  · simp only [true_iff]
    omega

/-- A plus sign keeps the value of a literal exactly when the literal is
decimal, or octal with one digit that counts, or too large to be read at all. -/
theorem parseNumberLiteral_plusText_eq_iff :
    parseNumberLiteral (plusText literal) = parseNumberLiteral (literal.signedText false) ↔
      literal.radix = .decimal ∨ literal.radix = .octal ∧ literal.value < 8 ∨
        2 ^ 127 ≤ literal.value := by
  rw [parseNumberLiteral_plusText, parseNumberLiteral_signedText, kept_text]
  obtain ⟨char, rest, hplain, hdigits, hvalue, hoctal, -⟩ := plainDigits_first literal
  have hsigned : literal.signedValue false = literal.value := rfl
  rw [hplain, hsigned]
  have hunread : ∀ {answer : Option ℤ}, answer = none →
      (answer = (if literal.value < 2 ^ 127 then some (literal.value : ℤ) else none) ↔
        2 ^ 127 ≤ literal.value) := by
    rintro _ rfl
    split_ifs with hfits
    · simp only [false_iff]
      omega
    · simp only [true_iff]
      omega
  cases hradix : literal.radix with
  | binary => simpa using hunread (parseDigits_lettered (by decide) (char :: rest))
  | hexadecimal => simpa using hunread (parseDigits_lettered (by decide) (char :: rest))
  | decimal =>
    rw [hradix] at hdigits hvalue
    refine iff_of_true ?_ (.inl rfl)
    have hparse : parseDigits 10 0 (char :: rest) = some (digitsValue 10 (char :: rest)) :=
      parseDigits_zero_eq hdigits
    rw [Radix.marker, List.nil_append, hvalue, hparse, map_filter_limit]
    rfl
  | octal =>
    rw [hradix] at hdigits hvalue
    rw [hoctal hradix] at hdigits hvalue ⊢
    rw [hvalue]
    refine (plus_octal_iff hdigits).trans ?_
    simp [Radix.base]

/-- The literal `0x10`. -/
def hexadecimalSixteen : IntegerLiteral where
  radix := .hexadecimal
  upper := false
  body := ['1', '0']
  suffix := []
  digits := by decide
  first := ⟨'1', _, rfl, by decide, by decide, by decide⟩
  last := by decide
  suffixed := by simp

/-- A plus sign before a hexadecimal literal makes it unreadable. -/
theorem plusText_changes_sixteen :
    plusText hexadecimalSixteen = "+0x10" ∧
      parseNumberLiteral (plusText hexadecimalSixteen) ≠
        parseNumberLiteral (hexadecimalSixteen.signedText false) := by
  decide +kernel

example : parseNumberLiteral "+010" = some 10 ∧ parseNumberLiteral "010" = some 8 := by decide

end Plus

end WeggliEnhance.LiteralValues
