import WeggliEnhance.QueryGrammar

/-!
# Survey of a search pattern

Whether the text generated for a search pattern can be read shows in the
syntax tree of the pattern. For every node the builder visits it is enough to
know what its text starts with, whether the quotes of the tokens and constants
copied from it are escaped, and whether every field of it is followed by some
text. The survey collects this, and it is exact for the outline.
-/

namespace WeggliEnhance.PatternSurvey

open SourceText SyntaxTree QueryText PatternBuilder PatternNesting QueryOutline
  QueryGrammar

/-- What the text written for a node starts with. -/
inductive Opening where
  /-- Nothing is written. -/
  | nothing
  /-- The underscore of a wildcard call. -/
  | underscore
  /-- A bracket or a string. -/
  | bracket
  deriving DecidableEq

/-- One call of `build`. -/
structure Visit where
  /-- The parent of the node. -/
  up : Option Node
  /-- The node under the cursor. -/
  node : Node
  /-- The depth in the current query. -/
  depth : ℕ
  /-- Strict mode. -/
  strict : Bool

/-- What a node contributes to the text. -/
structure Survey where
  /-- The start of its text. -/
  opening : Opening
  /-- The text of the node itself can be read, if the text of its parts can. -/
  sound : Bool
  /-- The nodes visited for it. -/
  parts : List Visit

section Body

variable (source : String) (opening : Visit → Opening)

/-- The visit of an optional child. -/
def childVisits (parent : Node) (child : Option Node) (depth : ℕ) (strict : Bool) : List Visit :=
  child.toList.map fun c => ⟨some parent, c, depth, strict⟩

/-- The start of the text of an optional child. -/
def childOpening (parent : Node) (child : Option Node) (depth : ℕ) (strict : Bool) : Opening :=
  match child with
  | some c => opening ⟨some parent, c, depth, strict⟩
  | none => .nothing

/-- Something is written for an optional child. -/
def isChildWritten (parent : Node) (child : Option Node) (depth : ℕ) (strict : Bool) : Bool :=
  childOpening opening parent child depth strict != .nothing

/-- The nodes visited for a query of its own. -/
def treeParts (up : Option Node) (node : Node) (multiPattern strict : Bool) : List Visit :=
  let (up, node) := skipTranslationUnit up node
  if multiPattern then
    node.children.tail.dropLast.map fun child => ⟨some node, child, 0, strict⟩
  else [⟨up, node, 0, strict⟩]

/-- A query with a single pattern is not empty. -/
def treeSound (up : Option Node) (node : Node) (multiPattern strict : Bool) : Bool :=
  let (up, node) := skipTranslationUnit up node
  multiPattern || opening ⟨up, node, 0, strict⟩ != .nothing

/-- Both operands are written. -/
def binarySurvey (node : Node) (depth : ℕ) (strict : Bool) : Survey where
  opening := .bracket
  sound := isChildWritten opening node (node.child 0) (depth + 1) strict &&
    isChildWritten opening node (node.child 2) (depth + 1) strict
  parts := childVisits node (node.child 0) (depth + 1) strict ++
    childVisits node (node.child 2) (depth + 1) strict

/-- The statement behind `not:` is a query, the one behind `strict:` takes the
place of the labelled statement. -/
def labeledSurvey (node : Node) (depth : ℕ) : Option Survey :=
  if label source node = some "NOT" then
    some ⟨.nothing,
      (node.child 2).all fun negated => treeSound opening (some node) negated false false,
      (node.child 2).toList.flatMap fun negated => treeParts (some node) negated false false⟩
  else if label source node = some "STRICT" then
    some ⟨childOpening opening node (node.namedChild 1) depth true, true,
      childVisits node (node.namedChild 1) depth true⟩
  else none

/-- The statements of a block are patterns of their own. -/
def compoundSurvey (up : Option Node) (node : Node) : Survey :=
  ⟨.bracket, true, treeParts up node true false⟩

/-- The quotes of a constant are escaped. -/
def identifierSurvey (node : Node) : Survey :=
  let text := slice source node.range
  ⟨.bracket, text == "_" || startsWith text '$' || isEscaped text.toList, []⟩

/-- Both sides are written; without an identifier on the left the operator
can stand for the left side. -/
def assignmentSurvey (node : Node) (depth : ℕ) (strict : Bool) : Survey :=
  let left := isChildWritten opening node (node.child 0) (depth + 1) strict
  let operator := isChildWritten opening node (node.child 1) (depth + 1) strict
  let right := isChildWritten opening node (node.child 2) (depth + 1) strict
  let leftVisits := childVisits node (node.child 0) (depth + 1) strict
  let operatorVisits := childVisits node (node.child 1) (depth + 1) strict
  let rightVisits := childVisits node (node.child 2) (depth + 1) strict
  if (node.child 1).any (·.kind == "=") && (node.child 0).any (·.kind == "identifier") then
    ⟨.bracket, left && right, leftVisits ++ rightVisits⟩
  else ⟨.bracket, (left || operator) && right, leftVisits ++ operatorVisits ++ rightVisits⟩

/-- The argument of a call of `_` takes the place of the call, or is a query. -/
def wildcardSurvey (node : Node) (depth : ℕ) (strict : Bool) : Option Survey :=
  match node.childByFieldName "arguments" with
  | none => none
  | some arguments =>
    let (up, argument, rest) := wildcardArgument node arguments
    if 2 ≤ rest.length then none
    else if depth = 0 then
      some ⟨opening ⟨some up, argument, depth, strict⟩, true, [⟨some up, argument, depth, strict⟩]⟩
    else
      some ⟨.underscore, treeSound opening (some up) argument false strict,
        treeParts (some up) argument false strict⟩

/-- The name of a called function is a constant, and its arguments are written. -/
def callSurvey (node : Node) (depth : ℕ) (strict : Bool) : Option Survey :=
  if isWildcardCall source node then wildcardSurvey opening node depth strict
  else
    match node.childByFieldName "function" with
    | none => none
    | some function =>
      if function.kind == "identifier" && !startsWith (slice source function.range) '$' then
        let arguments := node.childByFieldName "arguments"
        some ⟨.bracket, isEscaped (slice source function.range).toList &&
            isChildWritten opening node arguments (depth + 1) false,
          childVisits node arguments (depth + 1) false⟩
      else none

/-- The quotes of a number that is compared as text are escaped. -/
def numberSurvey (node : Node) : Survey :=
  let text := slice source node.range
  ⟨.bracket, (parseNumberLiteral text).isSome || isEscaped text.toList, []⟩

/-- The constructs with a rule of their own. -/
def specialSurvey (up : Option Node) (node : Node) (depth : ℕ) (strict : Bool) : Option Survey :=
  if node.kind = "binary_expression" then
    if isTransformableBinaryExp node then some (binarySurvey opening node depth strict) else none
  else if node.kind = "labeled_statement" then labeledSurvey source opening node depth
  else if node.kind = "compound_statement" then
    if 0 < node.namedChildCount then some (compoundSurvey up node) else none
  else if node.kind ∈ identifierKinds then some (identifierSurvey source node)
  else if node.kind = "assignment_expression" then
    some (assignmentSurvey opening node depth strict)
  else if node.kind = "call_expression" then callSurvey source opening node depth strict
  else if node.kind = "expression_statement" then
    if isUnwrapped source up node strict then
      some ⟨childOpening opening node (node.child 0) depth strict, true,
        childVisits node (node.child 0) depth strict⟩
    else none
  else if node.kind = "number_literal" then some (numberSurvey source node)
  else if node.kind = "string_literal" then
    if isVariableString source node then some ⟨.bracket, true, []⟩ else none
  else none

/-- The default case copies the text of a child. -/
def isCopied (node child : Node) : Bool :=
  child.field.isSome ||
    if child.isNamed then !isSkipped source node child else isKeyword child.kind

/-- The children of the default case fill the fields: text follows before the
next field, the next dot or the end. The flag tells whether a field waits. -/
def fills (node : Node) (depth : ℕ) (strict : Bool) : Bool → List Node → Bool
  | waiting, [] => !waiting
  | waiting, child :: children =>
    let start := opening ⟨some node, child, depth + 1, strict⟩
    match child.field with
    | some field =>
      !waiting && isWord field &&
        if field == "declarator" && node.kind == "function_definition" then
          start == .bracket && fills node depth strict false children
        else fills node depth strict (start == .nothing) children
    | none =>
      if isCopied source node child then
        if child.isNamed && isAnchored source node then
          !waiting && fills node depth strict false children
        else fills node depth strict (waiting && start == .nothing) children
      else fills node depth strict waiting children

/-- A node copied with its children. -/
def defaultSurvey (node : Node) (depth : ℕ) (strict : Bool) : Survey where
  opening := .bracket
  sound := isWord node.kind && fills source opening node depth strict false node.children
  parts := (node.children.filter (isCopied source node)).map fun child =>
    ⟨some node, child, depth + 1, strict⟩

/-- The survey of one node. -/
def surveyBody (visit : Visit) : Survey :=
  if !visit.node.isNamed then ⟨.bracket, isEscaped visit.node.kind.toList, []⟩
  else (specialSurvey source opening visit.up visit.node visit.depth visit.strict).getD
    (defaultSurvey source opening visit.node visit.depth visit.strict)

end Body

/-- The start of the text of patterns up to a height. -/
def openingFuel (source : String) : ℕ → Visit → Opening
  | 0 => fun _ => .nothing
  | fuel + 1 => fun visit => (surveyBody source (openingFuel source fuel) visit).opening

/-- A node and all nodes visited below it are sound. -/
def isSound (source : String) : ℕ → Visit → Bool
  | 0 => fun _ => true
  | fuel + 1 => fun visit =>
    (surveyBody source (openingFuel source fuel) visit).sound &&
      (surveyBody source (openingFuel source fuel) visit).parts.all (isSound source fuel)

/-- A whole search pattern is sound. -/
def isPatternSound (source : String) (up : Option Node) (root : Node) : Bool :=
  treeSound (openingFuel source root.height) up root false false &&
    (treeParts up root false false).all (isSound source root.height)

/-- A query whose text can be read, predicates included. -/
structure ReadableQuery (query : Outlined) : Prop where
  /-- The patterns can be read. -/
  text : FitsBetween .openBracket query.text.flatten .closeBracket
  /-- The quotes of all constants are escaped. -/
  checks : ∀ text ∈ query.checks, isEscaped text.toList = true

/-- The outline of a node whose text can be read, with all queries below it. -/
structure Readable (outline : Outline) : Prop where
  /-- The pattern can be read. -/
  item : ∀ item ∈ outline.item, Item.Fits item
  /-- The quotes of all constants are escaped. -/
  checks : ∀ text ∈ outline.checks, isEscaped text.toList = true
  /-- The queries can be read. -/
  opened : ∀ query ∈ outline.opened, ReadableQuery query

/-- The start of an optional pattern. -/
def Opens : Option Item → Opening → Prop
  | none, .nothing => True
  | some .wildcard, .underscore => True
  | some item, .bracket => (Item.first item).isBracketed = true
  | _, _ => False

section Items

variable {item : Option Item} {start : Opening}

/-- A text that opens with a pattern. -/
theorem opens_some {i : Item} (h : Opens (some i) start) :
    start ≠ .nothing ∧ (Item.first i).startsPattern = true ∧ (Item.last i).isSettled = true := by
  cases start with
  | nothing => cases i <;> cases h
  | underscore => cases i <;> first | exact ⟨by decide, rfl, rfl⟩ | cases h
  | bracket =>
    cases i with
    | tag tag => cases tag <;> cases h
    | _ => first | exact ⟨by decide, rfl, rfl⟩ | cases h

/-- A pattern can follow everything but the parenthesis of a group. -/
theorem follows_of_startsPattern {first second : Lexeme} (hfirst : first ≠ .openGroup)
    (hsecond : second.startsPattern = true) : follows first second = true := by
  cases first with
  | openGroup => exact absurd rfl hfirst
  | field name => exact hsecond
  | _ =>
    cases second with
    | capture name => cases hsecond
    | _ => rfl

/-- The text of an optional pattern and what follows it. -/
theorem fitsBetween_item (h : Opens item start) {first : Lexeme} (hfirst : first ≠ .openGroup)
    (rest : List Item) (second : Lexeme) :
    FitsBetween first (item.toList ++ rest) second ↔
      (∀ i ∈ item, Item.Fits i) ∧
        FitsBetween (if start = .nothing then first else .close) rest second := by
  cases item with
  | none =>
    cases start with
    | nothing => exact (and_iff_right (fun _ h => by cases h)).symm
    | underscore => cases h
    | bracket => cases h
  | some i =>
    obtain ⟨hstart, hpattern, hsettled⟩ := opens_some h
    have hfollows := follows_of_startsPattern hfirst hpattern
    rw [Option.toList_some, List.singleton_append, FitsBetween, if_neg hstart,
      fitsBetween_of_isSettled hsettled (show Lexeme.close.isSettled = true from rfl)]
    simp [hfollows]

/-- A field, an optional pattern and another field. -/
theorem fitsBetween_fields (h : Opens item start) (name other : String) (rest : List Item)
    (second : Lexeme) :
    FitsBetween (.field name) (item.toList ++ .fieldName other :: rest) second ↔
      start ≠ .nothing ∧ (∀ i ∈ item, Item.Fits i) ∧ isWord other = true ∧
        FitsBetween (.field other) rest second := by
  rw [fitsBetween_item h (by simp)]
  by_cases hstart : start = .nothing
  · simp [hstart, FitsBetween, follows, Item.first, Lexeme.startsPattern, Lexeme.isBracketed]
  · simp [hstart, FitsBetween, follows, Item.first, Item.last, Item.Fits]

/-- A field and an optional pattern at the end of a node. -/
theorem fitsBetween_last (h : Opens item start) (name : String) :
    FitsBetween (.field name) item.toList .close ↔
      start ≠ .nothing ∧ ∀ i ∈ item, Item.Fits i := by
  have hitem := fitsBetween_item h (show Lexeme.field name ≠ .openGroup by simp) [] .close
  rw [List.append_nil] at hitem
  rw [hitem]
  by_cases hstart : start = .nothing
  · simp [hstart, FitsBetween, follows, Lexeme.startsPattern, Lexeme.isBracketed]
  · simp [hstart, FitsBetween, follows]

/-- Patterns after each other. -/
theorem fitsBetween_patterns {items : List Item} {first : Lexeme} (hfirst : first ≠ .openGroup)
    (hlast : follows first .closeBracket = true)
    (h : ∀ i ∈ items, (Item.first i).startsPattern = true ∧ (Item.last i).isSettled = true) :
    FitsBetween first items .closeBracket ↔ ∀ i ∈ items, Item.Fits i := by
  induction items generalizing first with
  | nil => exact iff_of_true hlast (List.forall_mem_nil _)
  | cons item items ih =>
    obtain ⟨⟨hpattern, hsettled⟩, hitems⟩ := List.forall_mem_cons.mp h
    have hclose : Lexeme.close.isSettled = true := rfl
    rw [FitsBetween, follows_of_startsPattern hfirst hpattern,
      fitsBetween_of_isSettled hsettled hclose, ih (by decide) rfl hitems, List.forall_mem_cons]
    exact and_iff_right rfl

/-- A list of alternatives. -/
theorem fits_alternation {items : List Item}
    (h : ∀ i ∈ items, (Item.first i).startsPattern = true ∧ (Item.last i).isSettled = true) :
    Item.Fits (.alternation items) ↔ ∀ i ∈ items, Item.Fits i :=
  fitsBetween_patterns (by decide) rfl h

/-- The parentheses around an optional pattern. -/
theorem fits_group (h : Opens item start) (hstart : start ≠ .underscore) :
    Item.Fits (.group item.toList) ↔ start ≠ .nothing ∧ ∀ i ∈ item, Item.Fits i := by
  cases item with
  | none =>
    cases start with
    | nothing => simp [Item.Fits, FitsBetween, follows, Lexeme.isBracketed]
    | underscore => cases h
    | bracket => cases h
  | some i =>
    obtain ⟨hne, -, hsettled⟩ := opens_some h
    have hbracket : start = .bracket := by
      cases start with
      | nothing => exact absurd rfl hne
      | underscore => exact absurd rfl hstart
      | bracket => rfl
    subst hbracket
    have hfirst : follows .openGroup (Item.first i) = true := by
      cases i <;> exact h
    have hlast := follows_of_isSettled hsettled .close
    simp [Item.Fits, FitsBetween, hfirst, hlast]

end Items

/-- A function knows the start of the text of every node, and a predicate tells
whether its text can be read. -/
structure Surveys (outline : OutlineFn) (opening : Visit → Opening) (fits : Visit → Prop) :
    Prop where
  /-- Every text starts as expected. -/
  opens : ∀ up node depth strict parent,
    Opens (outline up node depth strict parent).item (opening ⟨up, node, depth, strict⟩)
  /-- The predicate is exact. -/
  fits : ∀ up node depth strict parent,
    Readable (outline up node depth strict parent) ↔ fits ⟨up, node, depth, strict⟩
  /-- No query starts with an underscore. -/
  root : ∀ up node strict, opening ⟨up, node, 0, strict⟩ ≠ .underscore
  /-- Tokens leave neither constants nor queries. -/
  quiet : ∀ up node depth strict parent, node.isNamed = false →
    (outline up node depth strict parent).checks = [] ∧
      (outline up node depth strict parent).opened = []

/-- The survey of a node is exact, if the predicate is exact for its parts. -/
def Surveyed (fits : Visit → Prop) (outline : Outline) (survey : Survey) : Prop :=
  Opens outline.item survey.opening ∧
    (Readable outline ↔ survey.sound = true ∧ ∀ visit ∈ survey.parts, fits visit)

/-- The rules apply to the same nodes. -/
def SurveyedOption (fits : Visit → Prop) : Option Outline → Option Survey → Prop
  | some outline, some survey => Surveyed fits outline survey
  | none, none => True
  | _, _ => False

/-- When everything that a part adds can be read. -/
theorem readable_iff (outline : Outline) :
    Readable outline ↔ (∀ item ∈ outline.item, Item.Fits item) ∧
      (∀ text ∈ outline.checks, isEscaped text.toList = true) ∧
      ∀ query ∈ outline.opened, ReadableQuery query :=
  ⟨fun h => ⟨h.item, h.checks, h.opened⟩, fun h => ⟨h.1, h.2.1, h.2.2⟩⟩

/-- When the text of a query can be read. -/
theorem readableQuery_iff (query : Outlined) :
    ReadableQuery query ↔ FitsBetween .openBracket query.text.flatten .closeBracket ∧
      ∀ text ∈ query.checks, isEscaped text.toList = true :=
  ⟨fun h => ⟨h.text, h.checks⟩, fun h => ⟨h.1, h.2⟩⟩

/-- What adds nothing can be read. -/
theorem readable_nothing : Readable .nothing :=
  ⟨by rintro _ ⟨⟩, List.forall_mem_nil _, List.forall_mem_nil _⟩

section Constructs

variable {source : String} {outline : OutlineFn} {opening : Visit → Opening} {fits : Visit → Prop}
  {node : Node}

/-- How the text of a child opens. -/
theorem opens_childOutline (h : Surveys outline opening fits) (node : Node) (child : Option Node)
    (depth : ℕ) (strict : Bool) (name : String) :
    Opens (childOutline outline node child depth strict name).item
      (childOpening opening node child depth strict) := by
  cases child with
  | none => trivial
  | some c => exact h.opens _ c depth strict name

/-- The text of a child can be read if its parts fit. -/
theorem readable_childOutline (h : Surveys outline opening fits) (node : Node)
    (child : Option Node) (depth : ℕ) (strict : Bool) (name : String) :
    Readable (childOutline outline node child depth strict name) ↔
      ∀ visit ∈ childVisits node child depth strict, fits visit := by
  cases child with
  | none => exact iff_of_true readable_nothing (List.forall_mem_nil _)
  | some c =>
    rw [childVisits, Option.toList_some, List.map_singleton, List.forall_mem_singleton]
    exact h.fits _ c depth strict name

/-- The statements of a block are readable one by one. -/
theorem fitsBetween_statements (outlines : List Outline)
    (h : ∀ o ∈ outlines, ∃ start, Opens o.item start ∧ start ≠ .underscore) :
    FitsBetween .openBracket
        (outlines.filterMap fun o => o.item.map fun item => [Item.group [item]]).flatten
        .closeBracket ↔
      ∀ o ∈ outlines, ∀ i ∈ o.item, Item.Fits i := by
  have hgroups : ∀ i, i ∈ (outlines.filterMap fun o =>
      o.item.map fun item => [Item.group [item]]).flatten ↔
      ∃ o ∈ outlines, ∃ item ∈ o.item, i = Item.group [item] := by
    intro i
    simp only [List.mem_flatten, List.mem_filterMap, Option.map_eq_some_iff]
    constructor
    · rintro ⟨_, ⟨o, ho, item, hitem, rfl⟩, hi⟩
      exact ⟨o, ho, item, hitem, List.mem_singleton.mp hi⟩
    · rintro ⟨o, ho, item, hitem, rfl⟩
      exact ⟨_, ⟨o, ho, item, hitem, rfl⟩, List.mem_singleton_self _⟩
  have hfits : ∀ o ∈ outlines, ∀ item ∈ o.item,
      (Item.Fits (.group [item]) ↔ Item.Fits item) := by
    intro o ho item hitem
    obtain ⟨start, hopens, hstart⟩ := h o ho
    rw [Option.mem_def.mp hitem] at hopens
    have hgroup := fits_group hopens hstart
    simpa [(opens_some hopens).1] using hgroup
  rw [fitsBetween_patterns (by decide) rfl]
  · constructor
    · intro hall o ho item hitem
      exact (hfits o ho item hitem).mp (hall _ ((hgroups _).mpr ⟨o, ho, item, hitem, rfl⟩))
    · intro hall i hi
      obtain ⟨o, ho, item, hitem, rfl⟩ := (hgroups i).mp hi
      exact (hfits o ho item hitem).mpr (hall o ho item hitem)
  · intro i hi
    obtain ⟨o, -, item, -, rfl⟩ := (hgroups i).mp hi
    exact ⟨rfl, rfl⟩

/-- A query is readable when it is not empty and its parts are. -/
theorem readable_treeOutline (h : Surveys outline opening fits) (up : Option Node) (node : Node)
    (multiPattern strict isRoot : Bool) :
    (∀ query ∈ treeOutline outline up node multiPattern strict isRoot, ReadableQuery query) ↔
      treeSound opening up node multiPattern strict = true ∧
        ∀ visit ∈ treeParts up node multiPattern strict, fits visit := by
  unfold treeOutline treeSound treeParts
  rcases skipTranslationUnit up node with ⟨up, node⟩
  cases multiPattern with
  | true =>
    have hopens : ∀ o ∈ node.children.tail.dropLast.map fun child =>
        outline (some node) child 0 strict node.kind,
        ∃ start, Opens o.item start ∧ start ≠ .underscore := by
      intro o ho
      obtain ⟨child, -, rfl⟩ := List.mem_map.mp ho
      exact ⟨_, h.opens _ child 0 strict node.kind, h.root _ child strict⟩
    have htext := fitsBetween_statements _ hopens
    simp only [if_true, List.forall_mem_cons, readableQuery_iff, htext, Bool.true_or, true_and,
      List.forall_mem_map, ← h.fits _ _ _ _ node.kind, readable_iff, List.forall_mem_flatMap]
    constructor
    · rintro ⟨⟨hitems, hchecks⟩, hopened⟩ child hchild
      exact ⟨hitems child hchild, hchecks child hchild, hopened child hchild⟩
    · intro hall
      exact ⟨⟨fun child hchild => (hall child hchild).1, fun child hchild => (hall child hchild).2.1⟩,
        fun child hchild => (hall child hchild).2.2⟩
  | false =>
    have hopens := h.opens up node 0 strict node.kind
    have hroot := h.root up node strict
    simp only [Bool.false_eq_true, if_false, Bool.false_or, bne_iff_ne, List.forall_mem_singleton,
      ← h.fits _ _ _ _ node.kind, readable_iff]
    split_ifs
    · have hwords : isWord "function_definition" = true ∧ isWord "body" = true := by decide
      rw [List.forall_mem_cons, readableQuery_iff]
      simp only [List.flatten_singleton, FitsBetween, Item.Fits, fitsBetween_last hopens,
        Item.last, Item.first, follows, hwords, true_and, and_true]
      tauto
    · rw [List.forall_mem_cons, readableQuery_iff]
      simp only [List.flatten_singleton, FitsBetween, fits_group hopens hroot, Item.last,
        Item.first, follows, true_and, and_true]
      tauto

/-- A pattern with constants and without parts. -/
theorem surveyed_leaf {item : Item} {checks : List String} {sound : Bool}
    (hfirst : (Item.first item).isBracketed = true) (hitem : Item.Fits item)
    (hchecks : (∀ text ∈ checks, isEscaped text.toList = true) ↔ sound = true) :
    Surveyed fits ⟨some item, checks, []⟩ ⟨.bracket, sound, []⟩ := by
  refine ⟨?_, ?_⟩
  · cases item <;> exact hfirst
  · rw [readable_iff, hchecks]
    simp [hitem]

/-- The text for a name can always be read. -/
theorem fits_identifierItem {kind : String} (hkind : kind ∈ identifierKinds)
    (pattern parent : String) :
    (Item.first (identifierItem kind pattern parent)).isBracketed = true ∧
      Item.Fits (identifierItem kind pattern parent) := by
  have hword : isWord kind = true := by
    have hall : ∀ kind ∈ identifierKinds, isWord kind = true := by decide
    exact hall kind hkind
  have hwords : isWord "type_identifier" = true ∧ isWord "sized_type_specifier" = true ∧
      isWord "primitive_type" = true ∧ isWord "number_literal" = true ∧
      isWord "identifier" = true ∧ isWord "field_expression" = true ∧
      isWord "field_identifier" = true := by decide
  unfold identifierItem
  split_ifs <;> simp [Item.Fits, FitsBetween, Item.first, Item.last, follows, Lexeme.isBracketed,
    hwords, hword]

/-- Names. -/
theorem surveyed_identifier (hkind : node.kind ∈ identifierKinds) (parent : String) :
    Surveyed fits (identifierOutline source node parent) (identifierSurvey source node) := by
  unfold identifierOutline identifierSurvey
  by_cases hwildcard : slice source node.range = "_"
  · rw [if_pos hwildcard, hwildcard]
    exact surveyed_leaf rfl ⟨by decide, rfl⟩ (by simp)
  · obtain ⟨hfirst, hitem⟩ := fits_identifierItem hkind (slice source node.range) parent
    rw [if_neg hwildcard]
    refine surveyed_leaf hfirst hitem ?_
    by_cases hvariable : startsWith (slice source node.range) '$' = true
    · simp [hvariable]
    · simp [hvariable, hwildcard]

/-- Numbers. -/
theorem surveyed_number : Surveyed fits (numberOutline source node) (numberSurvey source node) := by
  refine surveyed_leaf rfl ⟨by decide, rfl⟩ ?_
  cases hvalue : parseNumberLiteral (slice source node.range) with
  | some value => simp
  | none => simp

/-- The operators of mirrored expressions have no quotes. -/
theorem isEscaped_operator (h : isTransformableBinaryExp node = true) :
    isEscaped (((node.child 1).map Node.kind).getD "").toList = true ∧
      isEscaped (altOperator (((node.child 1).map Node.kind).getD "")).toList = true := by
  cases hop : node.child 1 with
  | none => decide
  | some op =>
    have hkind : op.kind ∈ [">", "<", "<=", ">=", "+", "*", "&", "|", "==", "!="] := by
      rw [isTransformableBinaryExp, isComparisonBinaryExp, isCommutativeBinaryExp, hop] at h
      simpa [or_assoc] using h
    have hall : ∀ kind ∈ [">", "<", "<=", ">=", "+", "*", "&", "|", "==", "!="],
        isEscaped kind.toList = true ∧ isEscaped (altOperator kind).toList = true := by decide
    exact hall op.kind hkind

/-- One order of the operands. -/
theorem fits_operands {left right : Option Item} {leftStart rightStart : Opening} {op : String}
    (hleft : Opens left leftStart) (hright : Opens right rightStart)
    (hop : isEscaped op.toList = true) :
    Item.Fits (.node "binary_expression" (.fieldName "left" :: left.toList ++
        [.fieldName "operator", .token op, .fieldName "right"] ++ right.toList)) ↔
      (leftStart ≠ .nothing ∧ ∀ i ∈ left, Item.Fits i) ∧
        (rightStart ≠ .nothing ∧ ∀ i ∈ right, Item.Fits i) := by
  have hwords : isWord "binary_expression" = true ∧ isWord "left" = true ∧
      isWord "operator" = true ∧ isWord "right" = true := by decide
  simp only [List.cons_append, List.append_assoc, List.nil_append, Item.Fits, FitsBetween,
    Item.first, Item.last, follows, fitsBetween_fields hleft, fitsBetween_last hright, hwords, hop,
    Lexeme.startsPattern, Lexeme.isBracketed, Bool.true_or, true_and]
  tauto

/-- An expression in both orders. -/
theorem surveyed_binary (h : Surveys outline opening fits)
    (htransformable : isTransformableBinaryExp node = true) (depth : ℕ) (strict : Bool) :
    Surveyed fits (binaryOutline outline node depth strict)
      (binarySurvey opening node depth strict) := by
  obtain ⟨hop, halt⟩ := isEscaped_operator htransformable
  have hleft := opens_childOutline h node (node.child 0) (depth + 1) strict node.kind
  have hright := opens_childOutline h node (node.child 2) (depth + 1) strict node.kind
  refine ⟨rfl, ?_⟩
  unfold binaryOutline binarySurvey
  simp only [readable_iff, Option.mem_some_iff, forall_eq', Bool.and_eq_true, isChildWritten,
    bne_iff_ne, List.forall_mem_append, ← readable_childOutline h _ _ _ _ node.kind]
  rw [fits_alternation (by simp [Item.first, Item.last, Lexeme.startsPattern, Lexeme.isBracketed,
      Lexeme.isSettled]), List.forall_mem_cons, List.forall_mem_singleton,
    fits_operands hleft hright hop, fits_operands hright hleft halt]
  tauto

/-- A node whose text is the text of one of its children. -/
theorem surveyed_child (h : Surveys outline opening fits) (child : Option Node) (depth : ℕ)
    (strict : Bool) (name : String) :
    Surveyed fits (childOutline outline node child depth strict name)
      ⟨childOpening opening node child depth strict, true,
        childVisits node child depth strict⟩ := by
  refine ⟨opens_childOutline h node child depth strict name, ?_⟩
  rw [readable_childOutline h]
  exact (and_iff_right rfl).symm

/-- The labels `not:` and `strict:`. -/
theorem surveyed_labeled (h : Surveys outline opening fits) (depth : ℕ) :
    SurveyedOption fits (labeledOutline source outline node depth)
      (labeledSurvey source opening node depth) := by
  unfold labeledOutline labeledSurvey
  split_ifs
  · refine ⟨trivial, ?_⟩
    rw [readable_iff]
    cases node.child 2 with
    | none => simp
    | some negated =>
      have htree := readable_treeOutline h (some node) negated false false false
      simp only [Option.toList_some, List.flatMap_singleton, Option.all_some, htree]
      simp
  · exact surveyed_child h _ depth true node.kind
  · trivial

/-- Blocks. -/
theorem surveyed_compound (h : Surveys outline opening fits) (up : Option Node) :
    Surveyed fits (compoundOutline outline up node) (compoundSurvey up node) := by
  have htree := readable_treeOutline h up node true false false
  have hword : isWord "compound_statement" = true := by decide
  refine ⟨rfl, ?_⟩
  unfold compoundOutline compoundSurvey
  rw [readable_iff, htree]
  simp [Item.Fits, FitsBetween, follows, hword, treeSound]

/-- The right side of an assignment, with or without a cast. -/
theorem fits_optionalCast {item : Option Item} {start : Opening} (h : Opens item start) :
    (∀ i ∈ optionalCast item.toList, Item.Fits i) ↔
      start ≠ .nothing ∧ ∀ i ∈ item, Item.Fits i := by
  have hwords : isWord "cast_expression" = true ∧ isWord "value" = true := by decide
  have hitem : ∀ i ∈ item, (Item.first i).startsPattern = true ∧
      (Item.last i).isSettled = true := by
    intro i hi
    rw [Option.mem_def.mp hi] at h
    exact (opens_some h).2
  rw [optionalCast, List.forall_mem_singleton, fits_alternation, List.forall_mem_cons]
  · simp only [Item.Fits, FitsBetween, Item.first, Item.last, follows, fitsBetween_last h, hwords,
      true_and, Option.mem_toList]
    tauto
  · rw [List.forall_mem_cons]
    exact ⟨⟨rfl, rfl⟩, fun i hi => hitem i (Option.mem_toList.mp hi)⟩

/-- A field with the right side of an assignment. -/
theorem fitsBetween_cast {item : Option Item} {start : Opening} (h : Opens item start)
    (name : String) :
    FitsBetween (.field name) (optionalCast item.toList) .close ↔
      start ≠ .nothing ∧ ∀ i ∈ item, Item.Fits i := by
  rw [← fits_optionalCast h]
  simp [optionalCast, FitsBetween, follows, Item.first, Item.last, Lexeme.startsPattern,
    Lexeme.isBracketed]

/-- Both sides of an assignment or an initialised declaration. -/
theorem fits_sides {left right : Option Item} {leftStart rightStart : Opening}
    (hleft : Opens left leftStart) (hright : Opens right rightStart) {kind first second : String}
    (hkind : isWord kind = true) (hfirst : isWord first = true) (hsecond : isWord second = true) :
    Item.Fits (.node kind (.fieldName first :: left.toList ++
        .fieldName second :: optionalCast right.toList)) ↔
      (leftStart ≠ .nothing ∧ ∀ i ∈ left, Item.Fits i) ∧
        (rightStart ≠ .nothing ∧ ∀ i ∈ right, Item.Fits i) := by
  simp only [List.cons_append, Item.Fits, FitsBetween, Item.first, Item.last, follows,
    fitsBetween_fields hleft, fitsBetween_cast hright, hkind, hfirst, hsecond, true_and]
  tauto

/-- An initialised declaration of a pointer. -/
theorem fits_pointer {left right : Option Item} {leftStart rightStart : Opening}
    (hleft : Opens left leftStart) (hright : Opens right rightStart) :
    Item.Fits (.node "init_declarator" (.fieldName "declarator" ::
        .node "pointer_declarator" (.fieldName "declarator" :: left.toList) ::
        .fieldName "value" :: optionalCast right.toList)) ↔
      (leftStart ≠ .nothing ∧ ∀ i ∈ left, Item.Fits i) ∧
        (rightStart ≠ .nothing ∧ ∀ i ∈ right, Item.Fits i) := by
  have hwords : isWord "init_declarator" = true ∧ isWord "declarator" = true ∧
      isWord "pointer_declarator" = true ∧ isWord "value" = true := by decide
  simp only [Item.Fits, FitsBetween, Item.first, Item.last, follows, fitsBetween_last hleft,
    fitsBetween_cast hright, hwords, Lexeme.startsPattern, Lexeme.isBracketed, Bool.true_or,
    true_and]

/-- An assignment with its operator between the sides. -/
theorem fits_assignment {left operator right : Option Item}
    {leftStart operatorStart rightStart : Opening} (hleft : Opens left leftStart)
    (hoperator : Opens operator operatorStart) (hright : Opens right rightStart) :
    Item.Fits (.node "assignment_expression" (.fieldName "left" :: left.toList ++
        operator.toList ++ .fieldName "right" :: optionalCast right.toList)) ↔
      (leftStart ≠ .nothing ∨ operatorStart ≠ .nothing) ∧ rightStart ≠ .nothing ∧
        (∀ i ∈ left, Item.Fits i) ∧ (∀ i ∈ operator, Item.Fits i) ∧ ∀ i ∈ right, Item.Fits i := by
  have hwords : isWord "assignment_expression" = true ∧ isWord "left" = true ∧
      isWord "right" = true := by decide
  simp only [List.cons_append, List.append_assoc, Item.Fits, FitsBetween, Item.first, Item.last,
    follows, hwords, true_and]
  rw [fitsBetween_item hleft (by simp), fitsBetween_item hoperator (by split_ifs <;> simp)]
  by_cases hleftStart : leftStart = .nothing
  · by_cases hoperatorStart : operatorStart = .nothing
    · simp [hleftStart, hoperatorStart, FitsBetween, follows, Item.first, Lexeme.startsPattern,
        Lexeme.isBracketed]
    · simp [hoperatorStart, FitsBetween, follows, Item.first, Item.last, Item.Fits, hwords,
        fitsBetween_cast hright]
      tauto
  · simp [hleftStart, FitsBetween, follows, Item.first, Item.last, Item.Fits, hwords,
      fitsBetween_cast hright]
    tauto

/-- Assignments. -/
theorem surveyed_assignment (h : Surveys outline opening fits) (depth : ℕ) (strict : Bool) :
    Surveyed fits (assignmentOutline outline node depth strict)
      (assignmentSurvey opening node depth strict) := by
  have hleft := opens_childOutline h node (node.child 0) (depth + 1) strict node.kind
  have hoperator := opens_childOutline h node (node.child 1) (depth + 1) strict node.kind
  have hright := opens_childOutline h node (node.child 2) (depth + 1) strict node.kind
  unfold assignmentOutline assignmentSurvey
  split_ifs
  · refine ⟨rfl, ?_⟩
    simp only [readable_iff, Option.mem_some_iff, forall_eq', Bool.and_eq_true, isChildWritten,
      bne_iff_ne, List.forall_mem_append, ← readable_childOutline h _ _ _ _ node.kind]
    rw [fits_alternation (by simp [Item.first, Item.last, Lexeme.startsPattern,
        Lexeme.isBracketed, Lexeme.isSettled]), List.forall_mem_cons, List.forall_mem_cons,
      List.forall_mem_singleton, fits_pointer hleft hright,
      fits_sides hleft hright (by decide) (by decide) (by decide),
      fits_sides hleft hright (by decide) (by decide) (by decide)]
    tauto
  · refine ⟨rfl, ?_⟩
    simp only [readable_iff, Option.mem_some_iff, forall_eq', Bool.and_eq_true, Bool.or_eq_true,
      isChildWritten, bne_iff_ne, List.forall_mem_append,
      ← readable_childOutline h _ _ _ _ node.kind, fits_assignment hleft hoperator hright]
    tauto

/-- Calls of the function `_`. -/
theorem surveyed_wildcard (h : Surveys outline opening fits) (depth : ℕ) (strict : Bool) :
    SurveyedOption fits (wildcardOutline outline node depth strict)
      (wildcardSurvey opening node depth strict) := by
  unfold wildcardOutline wildcardSurvey
  cases node.childByFieldName "arguments" with
  | none => trivial
  | some arguments =>
    simp only
    split_ifs
    · trivial
    · refine ⟨h.opens _ _ depth strict node.kind, ?_⟩
      rw [h.fits, List.forall_mem_singleton]
      exact (and_iff_right rfl).symm
    · have htree := readable_treeOutline h (some (wildcardArgument node arguments).1)
        (wildcardArgument node arguments).2.1 false strict false
      refine ⟨trivial, ?_⟩
      rw [readable_iff, htree]
      simp [Item.Fits]

/-- A call of a named function. -/
theorem fits_call {arguments : Option Item} {start : Opening} (h : Opens arguments start)
    (strict : Bool) :
    Item.Fits (.node "call_expression" (.fieldName "function" :: functionOutline strict ++
        .fieldName "arguments" :: arguments.toList)) ↔
      start ≠ .nothing ∧ ∀ i ∈ arguments, Item.Fits i := by
  have hwords : isWord "call_expression" = true ∧ isWord "function" = true ∧
      isWord "arguments" = true ∧ isWord "identifier" = true ∧ isWord "field_expression" = true ∧
      isWord "field" = true ∧ isWord "field_identifier" = true := by decide
  cases strict <;>
    simp [functionOutline, Item.Fits, FitsBetween, Item.first, Item.last, follows,
      fitsBetween_last h, hwords, Lexeme.startsPattern, Lexeme.isBracketed]

/-- Calls. -/
theorem surveyed_call (h : Surveys outline opening fits) (depth : ℕ) (strict : Bool) :
    SurveyedOption fits (callOutline source outline node depth strict)
      (callSurvey source opening node depth strict) := by
  unfold callOutline callSurvey
  split_ifs
  · exact surveyed_wildcard h depth strict
  · cases node.childByFieldName "function" with
    | none => trivial
    | some function =>
      simp only
      split_ifs
      · have harguments := opens_childOutline h node (node.childByFieldName "arguments")
          (depth + 1) false node.kind
        refine ⟨rfl, ?_⟩
        simp only [readable_iff, Option.mem_some_iff, forall_eq', Bool.and_eq_true, isChildWritten,
          bne_iff_ne, List.forall_mem_cons, ← readable_childOutline h _ _ _ _ node.kind,
          fits_call harguments]
        tauto
      · trivial

/-- The rules are chosen by the same test on both sides. -/
theorem surveyed_ite {test : Prop} [Decidable test] {o o' : Option Outline} {s s' : Option Survey}
    (h : test → SurveyedOption fits o s) (h' : SurveyedOption fits o' s') :
    SurveyedOption fits (if test then o else o') (if test then s else s') := by
  by_cases htest : test
  · rw [if_pos htest, if_pos htest]
    exact h htest
  · rw [if_neg htest, if_neg htest]
    exact h'

/-- The rules for single kinds. -/
theorem surveyed_special (h : Surveys outline opening fits) (up : Option Node) (depth : ℕ)
    (strict : Bool) (parent : String) :
    SurveyedOption fits (specialOutline source outline up node depth strict parent)
      (specialSurvey source opening up node depth strict) := by
  unfold specialOutline specialSurvey
  refine surveyed_ite (fun _ => ?_) (surveyed_ite (fun _ => ?_) (surveyed_ite (fun _ => ?_)
    (surveyed_ite (fun hkind => ?_) (surveyed_ite (fun _ => ?_) (surveyed_ite (fun _ => ?_)
    (surveyed_ite (fun _ => ?_) (surveyed_ite (fun _ => ?_) (surveyed_ite (fun _ => ?_)
    trivial))))))))
  · exact surveyed_ite (fun hbinary => surveyed_binary h hbinary depth strict) trivial
  · exact surveyed_labeled h depth
  · exact surveyed_ite (fun _ => surveyed_compound h up) trivial
  · exact surveyed_identifier hkind parent
  · exact surveyed_assignment h depth strict
  · exact surveyed_call h depth strict
  · exact surveyed_ite (fun _ => surveyed_child h _ depth strict node.kind) trivial
  · exact surveyed_number
  · exact surveyed_ite (fun _ => surveyed_leaf rfl ⟨by decide, rfl⟩ (by simp)) trivial

/-- The lexeme before a child tells whether a field waits for a pattern. -/
structure Waits (first : Lexeme) (waiting : Bool) : Prop where
  /-- It does not open a group. -/
  ungrouped : first ≠ .openGroup
  /-- Anything but a pattern and a capture can follow unless a field waits. -/
  follows : ∀ second : Lexeme, second.startsPattern = false → (∀ name, second ≠ .capture name) →
    follows first second = !waiting

/-- Behind a field name a pattern must follow. -/
theorem waits_field (name : String) : Waits (.field name) true := ⟨by simp, fun _ h _ => h⟩

/-- Behind a closing bracket anything may follow. -/
theorem waits_close : Waits .close false where
  ungrouped := by decide
  follows second _ _ := follows_of_isSettled rfl second

/-- Behind an opening node anything may follow. -/
theorem waits_openNode (kind : String) : Waits (.openNode kind) false where
  ungrouped := by simp
  follows second _ hcapture := by
    cases second with
    | capture name => exact absurd rfl (hcapture name)
    | _ => rfl

/-- Behind an anchor anything may follow. -/
theorem waits_anchor : Waits .anchor false where
  ungrouped := by decide
  follows second _ hcapture := by
    cases second with
    | capture name => exact absurd rfl (hcapture name)
    | _ => rfl

/-- A field stops waiting at the first text. -/
theorem waits_item {first : Lexeme} {waiting : Bool} (hfirst : Waits first waiting)
    (start : Opening) :
    Waits (if start = .nothing then first else .close) (waiting && start == .nothing) := by
  by_cases hstart : start = .nothing
  · rw [if_pos hstart, beq_iff_eq.mpr hstart, Bool.and_true]
    exact hfirst
  · rw [if_neg hstart, beq_eq_false_iff_ne.mpr hstart, Bool.and_false]
    exact waits_close

/-- The declarator of a function definition, with or without one more level. -/
theorem fits_declarator {item : Option Item} {start : Opening} (h : Opens item start) :
    Item.Fits (.group [.alternation [.node "_" item.toList, .group item.toList]]) ↔
      start = .bracket ∧ ∀ i ∈ item, Item.Fits i := by
  have hword : isWord "_" = true := by decide
  have hinner := fitsBetween_item h (show Lexeme.openNode "_" ≠ .openGroup by simp) [] .close
  rw [List.append_nil] at hinner
  have hend : FitsBetween (if start = .nothing then .openNode "_" else .close) [] .close := by
    split_ifs <;> rfl
  have halternation : Item.Fits (.alternation [.node "_" item.toList, .group item.toList]) ↔
      (∀ i ∈ item, Item.Fits i) ∧ Item.Fits (.group item.toList) := by
    rw [fits_alternation (by simp [Item.first, Item.last, Lexeme.startsPattern, Lexeme.isBracketed,
      Lexeme.isSettled]), List.forall_mem_cons, List.forall_mem_singleton, Item.Fits, hinner]
    tauto
  have hgroup : Item.Fits (.group item.toList) ↔
      start = .bracket ∧ ∀ i ∈ item, Item.Fits i := by
    cases start with
    | nothing => simp [fits_group h (by decide)]
    | bracket => simp [fits_group h (by decide)]
    | underscore =>
      cases item with
      | none => cases h
      | some i =>
        cases i with
        | wildcard =>
          simp [Item.Fits, FitsBetween, follows, Item.first, Lexeme.isBracketed]
        | _ => cases h
  rw [Item.Fits, FitsBetween, halternation, hgroup]
  simp only [follows, Item.first, Item.last, Lexeme.isBracketed, FitsBetween, true_and, and_true]
  tauto

/-- A child in a field, and what follows it. -/
theorem fitsBetween_fieldMember {child : Node} {field : String} (hfield : child.field = some field)
    {item : Option Item} {start : Opening} (hopens : Opens item start) {first : Lexeme}
    {waiting : Bool} (hfirst : Waits first waiting) (rest : List Item) :
    FitsBetween first (memberItems source node child item ++ rest) .close ↔
      (waiting = false ∧ isWord field = true ∧ ∀ i ∈ item, Item.Fits i) ∧
        if field == "declarator" && node.kind == "function_definition" then
          start = .bracket ∧ FitsBetween .close rest .close
        else FitsBetween (if start = .nothing then .field field else .close) rest .close := by
  have hfollows : follows first (.field field) = true ↔ waiting = false := by
    rw [hfirst.follows (.field field) rfl (by simp), Bool.not_eq_true']
  have hpattern : follows (.field field) .openGroup = true := rfl
  have hitem := fitsBetween_item hopens (waits_field field).ungrouped rest .close
  simp only [memberItems, hfield]
  by_cases hdeclarator : (field == "declarator" && node.kind == "function_definition") = true
  · rw [if_pos hdeclarator, if_pos hdeclarator, List.cons_append, List.cons_append,
      List.nil_append, FitsBetween, FitsBetween, fits_declarator hopens]
    simp only [Item.first, Item.last, Item.Fits, hfollows, hpattern, true_and]
    tauto
  · rw [if_neg hdeclarator, if_neg hdeclarator, List.cons_append, FitsBetween]
    simp only [Item.first, Item.last, Item.Fits, hfollows]
    rw [hitem]
    tauto

/-- A child without a field, and what follows it. -/
theorem fitsBetween_plainMember {child : Node} (hfield : child.field = none) {item : Option Item}
    {start : Opening} (hopens : Opens item start) {first : Lexeme} {waiting : Bool}
    (hfirst : Waits first waiting) (hcopied : isCopied source node child = true)
    (rest : List Item) :
    FitsBetween first (memberItems source node child item ++ rest) .close ↔
      (∀ i ∈ item, Item.Fits i) ∧
        if child.isNamed && isAnchored source node then
          waiting = false ∧ FitsBetween (if start = .nothing then .anchor else .close) rest .close
        else FitsBetween (if start = .nothing then first else .close) rest .close := by
  have hfollows : follows first .anchor = true ↔ waiting = false := by
    rw [hfirst.follows .anchor rfl (by simp), Bool.not_eq_true']
  have hitem := fitsBetween_item hopens hfirst.ungrouped rest .close
  have hanchored := fitsBetween_item hopens waits_anchor.ungrouped rest .close
  rw [isCopied, hfield, Option.isSome_none, Bool.false_or] at hcopied
  simp only [memberItems, hfield]
  cases hnamed : child.isNamed with
  | false =>
    rw [hnamed, if_neg Bool.false_ne_true] at hcopied
    simp only [Bool.false_eq_true, if_false, Bool.false_and, hcopied, if_true]
    exact hitem
  | true =>
    rw [hnamed, if_pos rfl, Bool.not_eq_true'] at hcopied
    simp only [hcopied, Bool.false_eq_true, if_false, if_true, Bool.true_and]
    by_cases hanchor : isAnchored source node = true
    · rw [if_pos hanchor, if_pos hanchor, List.cons_append, FitsBetween]
      simp only [Item.first, Item.last, Item.Fits, hfollows, true_and]
      rw [hanchored]
      tauto
    · rw [if_neg hanchor, if_neg hanchor]
      exact hitem

/-- A child that is not copied writes nothing. -/
theorem memberItems_of_not_copied {child : Node} (hcopied : isCopied source node child = false)
    (item : Option Item) : memberItems source node child item = [] := by
  rw [isCopied, Bool.or_eq_false_iff, Option.isSome_eq_false_iff, Option.isNone_iff_eq_none]
    at hcopied
  obtain ⟨hfield, hplain⟩ := hcopied
  simp only [memberItems, hfield]
  cases hnamed : child.isNamed with
  | false =>
    rw [hnamed, if_neg Bool.false_ne_true] at hplain
    simp [hplain]
  | true =>
    rw [hnamed, if_pos rfl, Bool.not_eq_false'] at hplain
    simp [hplain]

/-- A child that is copied is not skipped. -/
theorem isSkipped_of_copied {child : Node} (hcopied : isCopied source node child = true) :
    isSkipped source node child = false := by
  cases hskipped : isSkipped source node child with
  | false => rfl
  | true =>
    have hparts : child.field = none ∧ child.isNamed = true := by
      simp only [isSkipped, isVariadic, Bool.and_eq_true, Option.isNone_iff_eq_none] at hskipped
      exact ⟨hskipped.1.1, hskipped.2.1.1⟩
    rw [isCopied, hparts.1, hparts.2, hskipped] at hcopied
    cases hcopied

/-- The children of the default case can be read when they fill the fields and
their own texts can be read. -/
theorem fitsBetween_members (h : Surveys outline opening fits) (depth : ℕ) (strict : Bool)
    (children : List Node) {first : Lexeme} {waiting : Bool} (hfirst : Waits first waiting) :
    FitsBetween first (children.flatMap fun child => memberItems source node child
        (memberOutline source outline node depth strict child).item) .close ↔
      fills source opening node depth strict waiting children = true ∧
        ∀ child ∈ children, isCopied source node child = true →
          ∀ i ∈ (memberOutline source outline node depth strict child).item, Item.Fits i := by
  induction children generalizing first waiting with
  | nil =>
    have hclose := hfirst.follows .close rfl (by simp)
    rw [List.flatMap_nil, FitsBetween, hclose, fills]
    exact (and_iff_left (List.forall_mem_nil _)).symm
  | cons child children ih =>
    have hopens := h.opens (some node) child (depth + 1) strict (child.field.getD node.kind)
    rw [List.flatMap_cons, List.forall_mem_cons, fills]
    cases hcopied : isCopied source node child with
    | false =>
      have hnone : child.field = none := by
        rw [isCopied, Bool.or_eq_false_iff, Option.isSome_eq_false_iff,
          Option.isNone_iff_eq_none] at hcopied
        exact hcopied.1
      rw [memberItems_of_not_copied hcopied, List.nil_append, ih hfirst]
      simp [hnone]
    | true =>
      have hmember : memberOutline source outline node depth strict child =
          outline (some node) child (depth + 1) strict (child.field.getD node.kind) := by
        rw [memberOutline, isSkipped_of_copied hcopied, if_neg Bool.false_ne_true]
      rw [hmember]
      cases hfield : child.field with
      | some field =>
        rw [hfield] at hopens
        have hnext := ih (waits_item (waits_field field) (opening ⟨some node, child, depth + 1, strict⟩))
        rw [fitsBetween_fieldMember hfield hopens hfirst, hnext, ih waits_close]
        simp only [Bool.and_eq_true, Bool.not_eq_true', Bool.true_and, Option.getD_some]
        split_ifs
        · simp only [Bool.and_eq_true, beq_iff_eq]
          tauto
        · tauto
      | none =>
        rw [hfield] at hopens
        have hnext := ih (waits_item hfirst (opening ⟨some node, child, depth + 1, strict⟩))
        have hanchored := ih (waits_item waits_anchor (opening ⟨some node, child, depth + 1, strict⟩))
        rw [fitsBetween_plainMember hfield hopens hfirst hcopied, hnext, hanchored]
        simp only [if_true, Bool.false_and, Option.getD_none]
        split_ifs
        · simp only [Bool.and_eq_true, Bool.not_eq_true']
          tauto
        · tauto

/-- A child that is not copied leaves neither constants nor queries. -/
theorem quiet_of_not_copied (h : Surveys outline opening fits) (depth : ℕ) (strict : Bool)
    {child : Node} (hcopied : isCopied source node child = false) :
    (memberOutline source outline node depth strict child).checks = [] ∧
      (memberOutline source outline node depth strict child).opened = [] := by
  unfold memberOutline
  cases hskipped : isSkipped source node child with
  | true => exact ⟨rfl, rfl⟩
  | false =>
    rw [if_neg Bool.false_ne_true]
    refine h.quiet _ child _ _ _ ?_
    rw [isCopied, hskipped, Bool.or_eq_false_iff] at hcopied
    cases hnamed : child.isNamed with
    | false => rfl
    | true =>
      rw [hnamed] at hcopied
      cases hcopied.2

/-- Nodes without a rule of their own. -/
theorem surveyed_default (h : Surveys outline opening fits) (depth : ℕ) (strict : Bool) :
    Surveyed fits (defaultOutline source outline node depth strict)
      (defaultSurvey source opening node depth strict) := by
  have hmembers : FitsBetween (.openNode node.kind) (node.children.flatMap fun child =>
      memberItems source node child (memberOutline source outline node depth strict child).item)
      .close ↔ _ :=
    fitsBetween_members h depth strict node.children (waits_openNode node.kind)
  have hchild : ∀ child, (isCopied source node child = true →
      fits ⟨some node, child, depth + 1, strict⟩) ↔
      (isCopied source node child = true →
        ∀ i ∈ (memberOutline source outline node depth strict child).item, Item.Fits i) ∧
      (∀ text ∈ (memberOutline source outline node depth strict child).checks,
        isEscaped text.toList = true) ∧
      ∀ query ∈ (memberOutline source outline node depth strict child).opened,
        ReadableQuery query := by
    intro child
    cases hcopied : isCopied source node child with
    | false =>
      obtain ⟨hchecks, hopened⟩ := quiet_of_not_copied h depth strict hcopied
      simp [hchecks, hopened]
    | true =>
      rw [memberOutline, isSkipped_of_copied hcopied, if_neg Bool.false_ne_true,
        ← h.fits _ _ _ _ (child.field.getD node.kind), readable_iff]
      simp
  refine ⟨rfl, ?_⟩
  unfold defaultOutline defaultSurvey
  simp only [readable_iff, Option.mem_some_iff, forall_eq', Item.Fits, hmembers, Bool.and_eq_true,
    List.forall_mem_flatMap, List.forall_mem_map, List.mem_filter, and_imp, hchild]
  constructor
  · rintro ⟨⟨hword, hfills, hitems⟩, hchecks, hopened⟩
    exact ⟨⟨hword, hfills⟩, fun child hmem =>
      ⟨hitems child hmem, hchecks child hmem, hopened child hmem⟩⟩
  · rintro ⟨⟨hword, hfills⟩, hall⟩
    exact ⟨⟨hword, hfills, fun child hmem => (hall child hmem).1⟩,
      fun child hmem => (hall child hmem).2.1, fun child hmem => (hall child hmem).2.2⟩

/-- One level of the survey is exact. -/
theorem surveyed_body (h : Surveys outline opening fits) (up : Option Node) (depth : ℕ)
    (strict : Bool) (parent : String) :
    Surveyed fits (outlineBody source outline up node depth strict parent)
      (surveyBody source opening ⟨up, node, depth, strict⟩) := by
  unfold outlineBody surveyBody
  split_ifs
  · refine ⟨rfl, ?_⟩
    rw [readable_iff]
    simp [Outline.pattern, Item.Fits]
  · have hspecial : SurveyedOption fits
        (specialOutline source outline up node depth strict parent) _ :=
      surveyed_special h up depth strict parent
    cases houtline : specialOutline source outline up node depth strict parent with
    | none =>
      cases hsurvey : specialSurvey source opening up node depth strict with
      | none => exact surveyed_default h depth strict
      | some survey =>
        rw [houtline, hsurvey] at hspecial
        cases hspecial
    | some o =>
      cases hsurvey : specialSurvey source opening up node depth strict with
      | none =>
        rw [houtline, hsurvey] at hspecial
        cases hspecial
      | some survey =>
        rw [houtline, hsurvey] at hspecial
        exact hspecial

/-- A rule that applies at the start of a query writes no underscore. -/
def Rooted (survey : Option Survey) : Prop := ∀ s ∈ survey, s.opening ≠ .underscore

/-- A rule that does not apply. -/
theorem rooted_none : Rooted none := by rintro _ ⟨⟩

/-- A text that does not open with the wildcard. -/
theorem rooted_some {survey : Survey} (h : survey.opening ≠ .underscore) : Rooted (some survey) := by
  rintro _ ⟨⟩
  exact h

/-- Both branches of a test. -/
theorem rooted_ite {test : Prop} [Decidable test] {s s' : Option Survey} (h : Rooted s)
    (h' : Rooted s') : Rooted (if test then s else s') := by
  split_ifs
  · exact h
  · exact h'

section Root

variable (hroot : ∀ up node strict, opening ⟨up, node, 0, strict⟩ ≠ .underscore)

include hroot

/-- The root never opens with the wildcard of a call. -/
theorem childOpening_root (child : Option Node) (strict : Bool) :
    childOpening opening node child 0 strict ≠ .underscore := by
  cases child with
  | none => exact Opening.noConfusion
  | some c => exact hroot _ c strict

/-- At the root `_(..)` is replaced by its argument. -/
theorem rooted_wildcardSurvey (strict : Bool) : Rooted (wildcardSurvey opening node 0 strict) := by
  unfold wildcardSurvey
  cases node.childByFieldName "arguments" with
  | none => exact rooted_none
  | some arguments => exact rooted_ite rooted_none (rooted_some (hroot _ _ strict))

/-- Calls at the root. -/
theorem rooted_callSurvey (strict : Bool) :
    Rooted (callSurvey source opening node 0 strict) := by
  unfold callSurvey
  refine rooted_ite (rooted_wildcardSurvey hroot strict) ?_
  cases node.childByFieldName "function" with
  | none => exact rooted_none
  | some function => exact rooted_ite (rooted_some Opening.noConfusion) rooted_none

omit hroot in
/-- An assignment opens with a bracket. -/
theorem opening_assignmentSurvey (depth : ℕ) (strict : Bool) :
    (assignmentSurvey opening node depth strict).opening = .bracket := by
  unfold assignmentSurvey
  split_ifs <;> rfl

/-- The rules for single kinds at the root. -/
theorem rooted_specialSurvey (up : Option Node) (strict : Bool) :
    Rooted (specialSurvey source opening up node 0 strict) := by
  unfold specialSurvey
  refine rooted_ite ?_ (rooted_ite ?_ (rooted_ite ?_ (rooted_ite ?_ (rooted_ite ?_
    (rooted_ite ?_ (rooted_ite ?_ (rooted_ite ?_ (rooted_ite ?_ rooted_none))))))))
  · exact rooted_ite (rooted_some Opening.noConfusion) rooted_none
  · exact rooted_ite (rooted_some Opening.noConfusion)
      (rooted_ite (rooted_some (childOpening_root hroot _ true)) rooted_none)
  · exact rooted_ite (rooted_some Opening.noConfusion) rooted_none
  · exact rooted_some Opening.noConfusion
  · refine rooted_some ?_
    rw [opening_assignmentSurvey]
    exact Opening.noConfusion
  · exact rooted_callSurvey hroot strict
  · exact rooted_ite (rooted_some (childOpening_root hroot _ strict)) rooted_none
  · exact rooted_some Opening.noConfusion
  · exact rooted_ite (rooted_some Opening.noConfusion) rooted_none

/-- At the start of a query no underscore is written. -/
theorem opening_surveyBody (up : Option Node) (node : Node) (strict : Bool) :
    (surveyBody source opening ⟨up, node, 0, strict⟩).opening ≠ .underscore := by
  unfold surveyBody
  split_ifs
  · exact Opening.noConfusion
  · cases hsurvey : specialSurvey source opening up node 0 strict with
    | none => exact Opening.noConfusion
    | some survey => exact rooted_specialSurvey hroot up strict survey hsurvey

end Root

end Constructs

/-- At every height the survey is exact. -/
theorem surveys_outlineFuel (source : String) (fuel : ℕ) :
    Surveys (outlineFuel source fuel) (openingFuel source fuel)
      (fun visit => isSound source fuel visit = true) := by
  induction fuel with
  | zero =>
    exact ⟨fun _ _ _ _ _ => trivial, fun _ _ _ _ _ => iff_of_true readable_nothing rfl,
      fun _ _ _ => Opening.noConfusion, fun _ _ _ _ _ _ => ⟨rfl, rfl⟩⟩
  | succ fuel ih =>
    refine ⟨?_, ?_, ?_, ?_⟩
    · intro up node depth strict parent
      exact (surveyed_body ih up depth strict parent).1
    · intro up node depth strict parent
      refine (surveyed_body ih up depth strict parent).2.trans ?_
      rw [isSound, Bool.and_eq_true, List.all_eq_true]
    · intro up node strict
      exact opening_surveyBody ih.root up node strict
    · intro up node depth strict parent hnamed
      rw [outlineFuel, outlineBody, hnamed]
      exact ⟨rfl, rfl⟩

/-- The outlines of a search pattern can be read exactly when it is sound. -/
theorem readable_patternOutline (source : String) (up : Option Node) (root : Node) :
    (∀ query ∈ patternOutline source up root, ReadableQuery query) ↔
      isPatternSound source up root = true := by
  have htree := readable_treeOutline (surveys_outlineFuel source root.height) up root false false
    true
  rw [patternOutline, htree, isPatternSound, Bool.and_eq_true, List.all_eq_true]

end WeggliEnhance.PatternSurvey
