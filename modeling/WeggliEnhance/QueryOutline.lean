import WeggliEnhance.PatternNesting

/-!
# Outline of the generated text

The structure of the query text is a function of the search pattern alone:
apart from capture names and predicates, the builder writes at most one
pattern for every node it visits. The outline of a node is that pattern,
together with the constants that become predicates and with the outlines of
all queries opened below the node.
-/

namespace WeggliEnhance.QueryOutline

open SourceText SyntaxTree QueryText PatternBuilder PatternNesting

mutual

/-- An item without its capture suffixes and predicates. -/
def Item.strip : Item → List Item
  | .token kind => [.token kind]
  | .wildcard => [.wildcard]
  | .node kind items => [.node kind (stripOf items)]
  | .group items => [.group (stripOf items)]
  | .alternation items => [.alternation (stripOf items)]
  | .fieldName name => [.fieldName name]
  | .anchor => [.anchor]
  | .tag _ => []

/-- A sequence without capture suffixes and predicates. -/
def stripOf : List Item → List Item
  | [] => []
  | item :: items => Item.strip item ++ stripOf items

end

@[simp]
theorem stripOf_append (left right : List Item) :
    stripOf (left ++ right) = stripOf left ++ stripOf right := by
  induction left with
  | nil => rfl
  | cons item left ih => rw [List.cons_append, stripOf, stripOf, ih, List.append_assoc]

/-- A capture suffix or a predicate. -/
def Item.isTag : Item → Bool
  | .tag _ => true
  | _ => false

/-- An item that matches a node by itself. -/
def Item.isPattern : Item → Bool
  | .fieldName _ => false
  | .anchor => false
  | .tag _ => false
  | _ => true

/-- The name of a capture suffix. -/
def Item.suffix? : Item → Option String
  | .tag (.capture name) => some name
  | _ => none

/-- Only patterns, fields and anchors are left in an outline. -/
theorem length_stripOf (items : List Item) :
    (stripOf items).length = (items.filter fun item => !Item.isTag item).length := by
  induction items with
  | nil => rfl
  | cons item items ih =>
    rw [stripOf, List.length_append, ih]
    cases item <;> simp [Item.strip, Item.isTag, Nat.add_comm]

mutual

/-- All captures inside an item follow a pattern. A group may also hold
nothing but captures. -/
def Item.Tidy : Item → Prop
  | .node _ items => Tidy false items
  | .group items => Tidy false items ∨ stripOf items = []
  | .alternation items => Tidy false items
  | _ => True

/-- All captures of a sequence follow a pattern or another capture. The flag
tells whether one of them comes before the sequence. -/
def Tidy : Bool → List Item → Prop
  | _, [] => True
  | settled, item :: items =>
    (Item.isTag item = true → settled = true) ∧ Item.Tidy item ∧
      Tidy (Item.isPattern item || Item.isTag item) items

end

/-- Whether a sequence ends with a pattern or a capture. -/
def settles : Bool → List Item → Bool
  | settled, [] => settled
  | _, item :: items => settles (Item.isPattern item || Item.isTag item) items

theorem tidy_append (settled : Bool) (left right : List Item) :
    Tidy settled (left ++ right) ↔ Tidy settled left ∧ Tidy (settles settled left) right := by
  induction left generalizing settled with
  | nil => exact (and_iff_right trivial).symm
  | cons item left ih =>
    rw [List.cons_append, Tidy, Tidy, settles, ih]
    tauto

/-- Text that is tidy behind anything is tidy behind a pattern. -/
theorem tidy_mono {settled : Bool} {items : List Item} (h : Tidy false items) :
    Tidy settled items := by
  cases items with
  | nil => trivial
  | cons item items =>
    obtain ⟨htag, hitem, hitems⟩ := h
    exact ⟨fun h => absurd (htag h) Bool.false_ne_true, hitem, hitems⟩

/-- What is left of nothing but captures. -/
theorem stripOf_eq_nil (items : List Item) :
    stripOf items = [] ↔ ∀ item ∈ items, Item.isTag item = true := by
  have hlength := length_stripOf items
  rw [← List.length_eq_zero_iff, hlength, List.length_eq_zero_iff, List.filter_eq_nil_iff]
  simp

/-- Captures may follow each other. -/
theorem tidy_tags {tags : List Item} (h : ∀ item ∈ tags, Item.isTag item = true) :
    Tidy true tags ∧ settles true tags = true := by
  induction tags with
  | nil => exact ⟨trivial, rfl⟩
  | cons item tags ih =>
    obtain ⟨hitem, htags⟩ := List.forall_mem_cons.mp h
    obtain ⟨htidy, hsettles⟩ := ih htags
    rw [Tidy, settles, hitem, Bool.or_true]
    refine ⟨⟨fun _ => rfl, ?_, htidy⟩, hsettles⟩
    cases item with
    | tag tag => trivial
    | _ => cases hitem

/-- One query of the tree: its text and the constants of its predicates. -/
structure Outlined where
  /-- The top-level patterns. -/
  text : List (List Item)
  /-- The constants in the order of their captures. -/
  checks : List String

/-- What the builder leaves behind for one node. -/
structure Outline where
  /-- The pattern, unless nothing is written. -/
  item : Option Item
  /-- The constants captured in the same query. -/
  checks : List String
  /-- All queries opened below the node. -/
  opened : List Outlined

/-- A pattern without constants and queries. -/
def Outline.pattern (item : Item) : Outline := ⟨some item, [], []⟩

/-- Nothing at all. -/
def Outline.nothing : Outline := ⟨none, [], []⟩

/-- The outline of a node: its parent, the node, the depth, strict mode and
the name passed for the parent. -/
abbrev OutlineFn := Option Node → Node → ℕ → Bool → String → Outline

section Body

variable (source : String) (outline : OutlineFn)

/-- The outline of an optional child. -/
def childOutline (parent : Node) (child : Option Node) (depth : ℕ) (strict : Bool)
    (name : String) : Outline :=
  match child with
  | some c => outline (some parent) c depth strict name
  | none => .nothing

/-- A query on a node with everything opened inside it. -/
def treeOutline (up : Option Node) (node : Node) (multiPattern strict isRoot : Bool) :
    List Outlined :=
  let (up, node) := skipTranslationUnit up node
  if multiPattern then
    let statements := node.children.tail.dropLast.map fun child =>
      outline (some node) child 0 strict node.kind
    ⟨statements.filterMap fun o => o.item.map fun item => [.group [item]],
      statements.flatMap Outline.checks⟩ :: statements.flatMap Outline.opened
  else
    let inner := outline up node 0 strict node.kind
    if node.kind = "compound_statement" ∧ isRoot = true then
      ⟨[[.node "function_definition" (.fieldName "body" :: inner.item.toList)]], inner.checks⟩ ::
        inner.opened
    else ⟨[[.group inner.item.toList]], inner.checks⟩ :: inner.opened

/-- Both orders of the operands. -/
def binaryOutline (node : Node) (depth : ℕ) (strict : Bool) : Outline :=
  let left := childOutline outline node (node.child 0) (depth + 1) strict node.kind
  let right := childOutline outline node (node.child 2) (depth + 1) strict node.kind
  let op := ((node.child 1).map Node.kind).getD ""
  ⟨some (.alternation
    [.node "binary_expression" (.fieldName "left" :: left.item.toList ++
      [.fieldName "operator", .token op, .fieldName "right"] ++ right.item.toList),
     .node "binary_expression" (.fieldName "left" :: right.item.toList ++
      [.fieldName "operator", .token (altOperator op), .fieldName "right"] ++
        left.item.toList)]),
    left.checks ++ right.checks, left.opened ++ right.opened⟩

/-- A labelled statement: `not:` writes nothing, `strict:` passes on. -/
def labeledOutline (node : Node) (depth : ℕ) : Option Outline :=
  if label source node = some "NOT" then
    some ⟨none, [], (node.child 2).toList.flatMap fun negated =>
      treeOutline outline (some node) negated false false false⟩
  else if label source node = some "STRICT" then
    some (childOutline outline node (node.namedChild 1) depth true node.kind)
  else none

/-- A block that is a query of its own. -/
def compoundOutline (up : Option Node) (node : Node) : Outline :=
  ⟨some (.node "compound_statement" []), [], treeOutline outline up node true false false⟩

/-- Wildcards, variables and constants. -/
def identifierOutline (node : Node) (parent : String) : Outline :=
  let text := slice source node.range
  if text = "_" then .pattern (.node "_" [])
  else ⟨some (identifierItem node.kind text parent), if startsWith text '$' then [] else [text], []⟩

/-- An assignment, or also an initialised declaration. -/
def assignmentOutline (node : Node) (depth : ℕ) (strict : Bool) : Outline :=
  let left := childOutline outline node (node.child 0) (depth + 1) strict node.kind
  let operator := childOutline outline node (node.child 1) (depth + 1) strict node.kind
  let right := childOutline outline node (node.child 2) (depth + 1) strict node.kind
  let cast := optionalCast right.item.toList
  if (node.child 1).any (·.kind == "=") && (node.child 0).any (·.kind == "identifier") then
    ⟨some (.alternation
      [.node "assignment_expression" (.fieldName "left" :: left.item.toList ++
        .fieldName "right" :: cast),
       .node "init_declarator" (.fieldName "declarator" :: left.item.toList ++
        .fieldName "value" :: cast),
       .node "init_declarator"
        (.fieldName "declarator" ::
          .node "pointer_declarator" (.fieldName "declarator" :: left.item.toList) ::
          .fieldName "value" :: cast)]),
      left.checks ++ right.checks, left.opened ++ right.opened⟩
  else
    ⟨some (.node "assignment_expression" (.fieldName "left" :: left.item.toList ++
      operator.item.toList ++ .fieldName "right" :: cast)),
      left.checks ++ operator.checks ++ right.checks,
      left.opened ++ operator.opened ++ right.opened⟩

/-- The argument of a call of `_`. -/
def wildcardOutline (node : Node) (depth : ℕ) (strict : Bool) : Option Outline :=
  match node.childByFieldName "arguments" with
  | none => none
  | some arguments =>
    let (up, argument, rest) := wildcardArgument node arguments
    if 2 ≤ rest.length then none
    else if depth = 0 then some (outline (some up) argument depth strict node.kind)
    else some ⟨some .wildcard, [], treeOutline outline (some up) argument false strict false⟩

/-- The name of a called function. -/
def functionOutline (strict : Bool) : List Item :=
  if strict then [.node "identifier" []]
  else [.alternation [.node "field_expression" [.fieldName "field", .node "field_identifier" []],
    .node "identifier" []]]

/-- Calls of `_` and of named functions. -/
def callOutline (node : Node) (depth : ℕ) (strict : Bool) : Option Outline :=
  if isWildcardCall source node then wildcardOutline outline node depth strict
  else
    match node.childByFieldName "function" with
    | none => none
    | some function =>
      if function.kind == "identifier" && !startsWith (slice source function.range) '$' then
        let arguments :=
          childOutline outline node (node.childByFieldName "arguments") (depth + 1) false node.kind
        some ⟨some (.node "call_expression" (.fieldName "function" :: functionOutline strict ++
          .fieldName "arguments" :: arguments.item.toList)),
          slice source function.range :: arguments.checks, arguments.opened⟩
      else none

/-- Integer literals, and others as constants. -/
def numberOutline (node : Node) : Outline :=
  let text := slice source node.range
  ⟨some (.node "number_literal" []),
    if (parseNumberLiteral text).isSome then [] else [text], []⟩

/-- The constructs with a rule of their own. -/
def specialOutline (up : Option Node) (node : Node) (depth : ℕ) (strict : Bool) (parent : String) :
    Option Outline :=
  if node.kind = "binary_expression" then
    if isTransformableBinaryExp node then some (binaryOutline outline node depth strict) else none
  else if node.kind = "labeled_statement" then labeledOutline source outline node depth
  else if node.kind = "compound_statement" then
    if 0 < node.namedChildCount then some (compoundOutline outline up node) else none
  else if node.kind ∈ identifierKinds then some (identifierOutline source node parent)
  else if node.kind = "assignment_expression" then
    some (assignmentOutline outline node depth strict)
  else if node.kind = "call_expression" then callOutline source outline node depth strict
  else if node.kind = "expression_statement" then
    if isUnwrapped source up node strict then
      some (childOutline outline node (node.child 0) depth strict node.kind)
    else none
  else if node.kind = "number_literal" then some (numberOutline source node)
  else if node.kind = "string_literal" then
    if isVariableString source node then some (.pattern (.node "string_literal" [])) else none
  else none

/-- Arguments are anchored when there are several and no `__`. -/
def isAnchored (node : Node) : Bool :=
  node.kind == "argument_list" && 1 < node.namedChildCount &&
    node.children.countP (isVariadic source) == 0

/-- The outline of a child in the default case. -/
def memberOutline (node : Node) (depth : ℕ) (strict : Bool) (child : Node) : Outline :=
  if isSkipped source node child then .nothing
  else outline (some node) child (depth + 1) strict (child.field.getD node.kind)

/-- What the default case writes for a child with the given pattern. -/
def memberItems (node child : Node) (item : Option Item) : List Item :=
  match child.field with
  | some field =>
    if field == "declarator" && node.kind == "function_definition" then
      [.fieldName field, .group [.alternation [.node "_" item.toList, .group item.toList]]]
    else .fieldName field :: item.toList
  | none =>
    if child.isNamed then
      if isSkipped source node child then []
      else if isAnchored source node then .anchor :: item.toList else item.toList
    else if isKeyword child.kind then item.toList else []

/-- A node copied with all its children. -/
def defaultOutline (node : Node) (depth : ℕ) (strict : Bool) : Outline :=
  let member := memberOutline source outline node depth strict
  ⟨some (.node node.kind (node.children.flatMap fun child =>
      memberItems source node child (member child).item)),
    node.children.flatMap fun child => (member child).checks,
    node.children.flatMap fun child => (member child).opened⟩

/-- One level of the outline. -/
def outlineBody (up : Option Node) (node : Node) (depth : ℕ) (strict : Bool) (parent : String) :
    Outline :=
  if !node.isNamed then .pattern (.token node.kind)
  else (specialOutline source outline up node depth strict parent).getD
    (defaultOutline source outline node depth strict)

end Body

section Rules

variable {source : String} {outline : OutlineFn} {up : Option Node} {node : Node} {depth : ℕ}
  {strict : Bool} {parent : String}

/-- The rule that gives the outline of a construct with a rule of its own. -/
inductive SpecialRule (source : String) (outline : OutlineFn) (up : Option Node) (node : Node)
    (depth : ℕ) (strict : Bool) (parent : String) : Outline → Prop
  /-- Both orders of the operands. -/
  | binary : SpecialRule source outline up node depth strict parent
      (binaryOutline outline node depth strict)
  /-- A label with a meaning. -/
  | labeled {o : Outline} : node.kind = "labeled_statement" →
    labeledOutline source outline node depth = some o →
    SpecialRule source outline up node depth strict parent o
  /-- A block. -/
  | compound : SpecialRule source outline up node depth strict parent
      (compoundOutline outline up node)
  /-- A word. -/
  | identifier : node.kind ∈ identifierKinds →
    SpecialRule source outline up node depth strict parent (identifierOutline source node parent)
  /-- An assignment. -/
  | assignment : SpecialRule source outline up node depth strict parent
      (assignmentOutline outline node depth strict)
  /-- A call of `_` or of a named function. -/
  | call {o : Outline} : callOutline source outline node depth strict = some o →
    SpecialRule source outline up node depth strict parent o
  /-- An expression statement that is unwrapped. -/
  | statement : node.kind = "expression_statement" → isUnwrapped source up node strict = true →
    SpecialRule source outline up node depth strict parent
      (childOutline outline node (node.child 0) depth strict node.kind)
  /-- A number. -/
  | number : SpecialRule source outline up node depth strict parent (numberOutline source node)
  /-- A string literal that holds a variable. -/
  | string : SpecialRule source outline up node depth strict parent
      (.pattern (.node "string_literal" []))

/-- Every special outline comes from one of the rules. -/
theorem specialRule_of_specialOutline {o : Outline}
    (h : specialOutline source outline up node depth strict parent = some o) :
    SpecialRule source outline up node depth strict parent o := by
  unfold specialOutline at h
  by_cases hbinary : node.kind = "binary_expression"
  · rw [if_pos hbinary] at h
    cases (Option.ite_none_right_eq_some.mp h).2
    exact .binary
  rw [if_neg hbinary] at h
  by_cases hlabeled : node.kind = "labeled_statement"
  · rw [if_pos hlabeled] at h
    exact .labeled hlabeled h
  rw [if_neg hlabeled] at h
  by_cases hcompound : node.kind = "compound_statement"
  · rw [if_pos hcompound] at h
    cases (Option.ite_none_right_eq_some.mp h).2
    exact .compound
  rw [if_neg hcompound] at h
  by_cases hidentifier : node.kind ∈ identifierKinds
  · rw [if_pos hidentifier] at h
    cases h
    exact .identifier hidentifier
  rw [if_neg hidentifier] at h
  by_cases hassignment : node.kind = "assignment_expression"
  · rw [if_pos hassignment] at h
    cases h
    exact .assignment
  rw [if_neg hassignment] at h
  by_cases hcall : node.kind = "call_expression"
  · rw [if_pos hcall] at h
    exact .call h
  rw [if_neg hcall] at h
  by_cases hstatement : node.kind = "expression_statement"
  · rw [if_pos hstatement] at h
    obtain ⟨hunwrapped, houtline⟩ := Option.ite_none_right_eq_some.mp h
    cases houtline
    exact .statement hstatement hunwrapped
  rw [if_neg hstatement] at h
  by_cases hnumber : node.kind = "number_literal"
  · rw [if_pos hnumber] at h
    cases h
    exact .number
  rw [if_neg hnumber] at h
  cases (Option.ite_none_right_eq_some.mp (Option.ite_none_right_eq_some.mp h).2).2
  exact .string

end Rules

/-- The outline of patterns up to a height. -/
def outlineFuel (source : String) : ℕ → OutlineFn
  | 0 => fun _ _ _ _ _ => .nothing
  | fuel + 1 => outlineBody source (outlineFuel source fuel)

/-- All queries of a whole search pattern. -/
def patternOutline (source : String) (up : Option Node) (root : Node) : List Outlined :=
  treeOutline (outlineFuel source root.height) up root false false true

end WeggliEnhance.QueryOutline
