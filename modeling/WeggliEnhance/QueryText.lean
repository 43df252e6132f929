import WeggliEnhance.SourceText

/-!
# Tree-sitter query text

The builder assembles an S-expression string. The model keeps the string as
the sequence of its items, with brackets already paired: appending strings is
appending sequences, and the empty string is the empty sequence. Tree-sitter
numbers capture names by their first occurrence in the whole text and every
predicate refers to those numbers. Strings are compared after a backslash in
them has been read as an escape.
-/

namespace WeggliEnhance.QueryText

/-- An item of the text that mentions capture names. -/
inductive Tag where
  /-- The suffix `@name` that captures the preceding pattern. -/
  | capture (name : String)
  /-- The predicate `(#eq? @name "text")`, with the text as it is written. -/
  | eqString (name text : String)
  /-- The predicate `(#eq? @first @second)`. -/
  | eqCapture (first second : String)
  deriving DecidableEq

/-- One item of query text. -/
inductive Item where
  /-- A quoted anonymous token. -/
  | token (kind : String)
  /-- The bare underscore, matching any node. -/
  | wildcard
  /-- A parenthesised pattern headed by a node kind or by an underscore. -/
  | node (kind : String) (items : List Item)
  /-- A parenthesised sequence without a head. -/
  | group (items : List Item)
  /-- A bracketed list of alternatives. -/
  | alternation (items : List Item)
  /-- A field name with its colon, applying to the pattern that follows. -/
  | fieldName (name : String)
  /-- The dot that anchors siblings. -/
  | anchor
  /-- A capture suffix or a predicate. -/
  | tag (tag : Tag)

mutual

/-- Capture suffixes and predicates of an item in textual order. -/
def Item.tags : Item → List Tag
  | .token _ => []
  | .wildcard => []
  | .node _ items => tagsOf items
  | .group items => tagsOf items
  | .alternation items => tagsOf items
  | .fieldName _ => []
  | .anchor => []
  | .tag tag => [tag]

/-- Capture suffixes and predicates of a sequence in textual order. -/
def tagsOf : List Item → List Tag
  | [] => []
  | item :: items => item.tags ++ tagsOf items

end

@[simp]
theorem tagsOf_append (left right : List Item) :
    tagsOf (left ++ right) = tagsOf left ++ tagsOf right := by
  induction left with
  | nil => rfl
  | cons item left ih => simp only [List.cons_append, tagsOf, ih, List.append_assoc]

/-- Different indices are written differently. -/
theorem toString_injective : Function.Injective (toString : ℕ → String) := by
  intro i j h
  have hdigits : Nat.toDigits 10 i = Nat.toDigits 10 j := by
    rw [← Nat.toList_repr, ← Nat.toList_repr]
    exact congrArg String.toList h
  have hvalue := congrArg (fun digits => Nat.ofDigitChars 10 digits 0) hdigits
  simpa only [Nat.ofDigitChars_toDigits (by decide : 1 < 10) (by decide : 10 ≤ 10)] using hvalue

/-- The capture names a tag mentions. -/
def Tag.names : Tag → List String
  | .capture name => [name]
  | .eqString name _ => [name]
  | .eqCapture first second => [first, second]

/-- The name of a capture suffix. -/
def Tag.site : Tag → Option String
  | .capture name => some name
  | _ => none

/-- Every capture name written in the text, in textual order. -/
def captureNames (items : List Item) : List String := (tagsOf items).flatMap Tag.names

/-- The names of the capture suffixes in the text, in textual order. -/
def captureSites (items : List Item) : List String := (tagsOf items).filterMap Tag.site

@[simp]
theorem captureNames_append (left right : List Item) :
    captureNames (left ++ right) = captureNames left ++ captureNames right := by
  simp only [captureNames, tagsOf_append, List.flatMap_append]

/-- What a character behind a backslash stands for. -/
def escapedChar (char : Char) : Char :=
  if char = 'n' then '\n'
  else if char = 'r' then '\r'
  else if char = 't' then '\t'
  else if char = '0' then '\x00'
  else char

/-- The characters that stand between the quotes of a string, read by
tree-sitter: a backslash is dropped and the character behind it is replaced. -/
def unescapeChars : List Char → List Char
  | [] => []
  | '\\' :: char :: rest => escapedChar char :: unescapeChars rest
  | char :: rest => char :: unescapeChars rest

/-- The text that a string of a query stands for. The builder pastes constants
between quotes without escaping them. -/
def unescape (text : String) : String := String.ofList (unescapeChars text.toList)

/-- Without a backslash nothing changes. -/
theorem unescapeChars_eq {chars : List Char} (h : '\\' ∉ chars) : unescapeChars chars = chars := by
  induction chars with
  | nil => rfl
  | cons char chars ih =>
    obtain ⟨hchar, hrest⟩ := not_or.mp (List.mem_cons.not.mp h)
    rw [unescapeChars, ih hrest]
    intro _ _ hescape _
    exact hchar hescape.symm

/-- A text without a backslash stands for itself. -/
theorem unescape_eq {text : String} (h : '\\' ∉ text.toList) : unescape text = text := by
  rw [unescape, unescapeChars_eq h, String.ofList_toList]

/-- An equality predicate over capture indices. -/
inductive Predicate where
  /-- The captured text equals what a string of the query stands for. -/
  | eqString (capture : ℕ) (text : String)
  /-- Two captured texts are equal. -/
  | eqCapture (first second : ℕ)
  deriving DecidableEq

/-- What the engine knows of one top-level pattern of a compiled query. -/
structure Pattern where
  /-- Indices of the captures that occur in the pattern. -/
  captures : List ℕ
  /-- Predicates written inside the pattern. -/
  predicates : List Predicate
  deriving DecidableEq

/-- A compiled query: the list of its top-level patterns. -/
structure Query where
  /-- Text of each top-level pattern in order. -/
  text : List (List Item)

/-- The distinct capture names by first occurrence in the whole text. -/
def Query.captureNames (query : Query) : List String :=
  (QueryText.captureNames query.text.flatten).eraseDups

/-- The index tree-sitter assigns to a capture name. -/
def Query.index (query : Query) (name : String) : ℕ := query.captureNames.idxOf name

/-- A predicate with its names resolved to capture indices. -/
def Query.predicate (query : Query) : Tag → Option Predicate
  | .capture _ => none
  | .eqString name text => some (.eqString (query.index name) text)
  | .eqCapture first second => some (.eqCapture (query.index first) (query.index second))

/-- One top-level pattern with names resolved. -/
def Query.pattern (query : Query) (items : List Item) : Pattern where
  captures := (captureSites items).eraseDups.map query.index
  predicates := (tagsOf items).filterMap query.predicate

/-- All top-level patterns; their number is `pattern_count`. -/
def Query.patterns (query : Query) : List Pattern := query.text.map query.pattern

end WeggliEnhance.QueryText
