import WeggliEnhance.QueryOutline

/-!
# Instances of search patterns

What a search pattern describes, without queries and captures: a node of a
program is an instance of a node of the pattern when it is the same construct
around instances of the same parts, with some text for every variable. `_`
stands for anything, `_(..)` for an expression somewhere inside, a block for
its statements in the same order anywhere below, and a mirrored comparison is
the same comparison.
-/

namespace WeggliEnhance.PatternInstances

open SourceText SyntaxTree PatternBuilder PatternNesting QueryOutline

/-- Where a node of a search pattern stands: what `build` is told beside the
node. -/
structure Place where
  /-- The parent. -/
  up : Option Node
  /-- The depth below the root of the query. -/
  depth : ℕ
  /-- Strict mode. -/
  strict : Bool
  /-- The name passed for the parent. -/
  parent : String

/-- The place of an operand. -/
def Place.operand (place : Place) (node : Node) : Place :=
  ⟨some node, place.depth + 1, place.strict, node.kind⟩

/-- The place of a child that is copied with its parent. -/
def Place.member (place : Place) (node child : Node) : Place :=
  ⟨some node, place.depth + 1, place.strict, child.field.getD node.kind⟩

/-- The place of the expression of a statement. -/
def Place.expression (place : Place) (node : Node) : Place :=
  ⟨some node, place.depth, place.strict, node.kind⟩

/-- The place of a statement behind `strict:`. -/
def Place.labelled (place : Place) (node : Node) : Place :=
  ⟨some node, place.depth, true, node.kind⟩

/-- The place of the arguments of a named function. -/
def Place.arguments (place : Place) (node : Node) : Place :=
  ⟨some node, place.depth + 1, false, node.kind⟩

/-- The place of a statement of a block. -/
def Place.statement (node : Node) : Place := ⟨some node, 0, false, node.kind⟩

/-- The place of the argument of `_(..)` at the root of a query. -/
def Place.wrapped (place : Place) (node up : Node) : Place :=
  ⟨some up, place.depth, place.strict, node.kind⟩

/-- The place of the argument of `_(..)` as a query of its own. -/
def Place.inner (place : Place) (up argument : Node) : Place :=
  ⟨some up, 0, place.strict, argument.kind⟩

/-- A named node of a kind. -/
def IsRule (kind : String) (node : Node) : Prop := node.isNamed = true ∧ node.kind = kind

/-- Some children in their order, each under its field if one is asked for. -/
def InOrder (parts : List (Option String × Node)) (children : List Node) : Prop :=
  (parts.map Prod.snd).Sublist children ∧
    ∀ part ∈ parts, ∀ field ∈ part.1, part.2.field = some field

/-- What a name of the pattern means: variables stand for a text. -/
def meaning (values : String → String) (text : String) : String :=
  if startsWith text '$' then values text else text

/-- The kinds of nodes that a name stands for. -/
def nameKinds (kind text parent : String) : List String :=
  if kind == "type_identifier" then ["type_identifier", "sized_type_specifier", "primitive_type"]
  else if kind == "identifier" && startsWith text '$' then
    if isNumVar text && parent != "declarator" then ["number_literal"]
    else ["identifier", "field_expression", "field_identifier"]
  else [kind]

/-- An expression, or the same expression behind a cast. -/
def UpToCast (value inner : Node) : Prop :=
  inner = value ∨ IsRule "cast_expression" value ∧ inner ∈ value.children ∧
    inner.field = some "value"

/-- A declared name, or a name declared as a pointer. -/
def UpToPointer (declarator inner : Node) : Prop :=
  inner = declarator ∨ IsRule "pointer_declarator" declarator ∧ inner ∈ declarator.children ∧
    inner.field = some "declarator"

/-- The declarator of a function may be wrapped once. -/
def UpToWrapper (node child taken inner : Node) : Prop :=
  inner = taken ∨ (child.field = some "declarator" ∧ node.kind = "function_definition") ∧
    taken.isNamed = true ∧ inner ∈ taken.children

/-- The called function has a name, possibly as a field unless matching is
strict. -/
def IsCalled (source : String) (strict : Bool) (name : String) (function : Node) : Prop :=
  (IsRule "identifier" function ∧ slice source function.range = name) ∨
    strict = false ∧ IsRule "field_expression" function ∧ ∃ field ∈ function.children,
      field.field = some "field" ∧ IsRule "field_identifier" field ∧
      slice source field.range = name

section Pattern

variable (query : String)

/-- A call of a function that the pattern names. -/
def calledName (node : Node) : Option String :=
  (node.childByFieldName "function").bind fun function =>
    if function.kind == "identifier" && !startsWith (slice query function.range) '$' then
      some (slice query function.range)
    else none

/-- The argument of `_(..)` with its parent, unless there are several. -/
def soleArgument (node : Node) : Option (Node × Node) :=
  (node.childByFieldName "arguments").bind fun arguments =>
    let (up, argument, rest) := wildcardArgument node arguments
    if 2 ≤ rest.length then none else some (up, argument)

/-- The node stands for the same construct and nothing else. -/
def IsPlain (place : Place) (node : Node) : Prop :=
  (node.kind = "binary_expression" → isTransformableBinaryExp node = false) ∧
  (node.kind = "labeled_statement" →
    ∃ text, label query node = some text ∧ text ≠ "NOT" ∧ text ≠ "STRICT") ∧
  (node.kind = "compound_statement" → node.namedChildCount = 0) ∧
  node.kind ∉ identifierKinds ∧
  node.kind ≠ "assignment_expression" ∧
  (node.kind = "call_expression" →
    if isWildcardCall query node then soleArgument node = none else calledName query node = none) ∧
  (node.kind = "expression_statement" →
    isUnwrapped query place.up node place.strict = false) ∧
  node.kind ≠ "number_literal" ∧
  (node.kind = "string_literal" → isVariableString query node = false)

/-- The default case writes nothing for a child: `__` among arguments and
punctuation. -/
def IsSilent (node child : Node) : Prop :=
  isSkipped query node child = true ∨
    child.field = none ∧ child.isNamed = false ∧ isKeyword child.kind = false

/-- A list of arguments has as many arguments as the pattern, or at least as
many when the pattern contains `__`. -/
def CountFits (node target : Node) : Prop :=
  if 0 < node.children.countP (isVariadic query) then
    node.namedChildCount - node.children.countP (isVariadic query) ≤ target.namedChildCount
  else target.namedChildCount = node.namedChildCount

/-- The text between the quotes of a string literal of the pattern. -/
def unquoted (node : Node) : Option String :=
  let text := slice query node.range
  slice? text ⟨1, utf8Len text.toList - 1⟩

/-- Integer literals have the same value, others the same text. -/
def NumberFits (source : String) (node target : Node) : Prop :=
  match parseNumberLiteral (slice query node.range) with
  | some value => parseNumberLiteral (slice source target.range) = some value
  | none => slice source target.range = slice query node.range

end Pattern

section Instances

variable (query source : String) (values : String → String) (before : Node → Node → Prop)

mutual

/-- A node of a program is an instance of a node of the pattern. -/
inductive Instance : Place → Node → Node → Prop
  /-- A token stands for itself. -/
  | token {place : Place} {node target : Node} :
    node.isNamed = false → target.isNamed = false → target.kind = node.kind →
    Instance place node target
  /-- `_` stands for any node of the grammar. -/
  | anything {place : Place} {node target : Node} :
    node.isNamed = true → node.kind ∈ identifierKinds → slice query node.range = "_" →
    target.isNamed = true → Instance place node target
  /-- A name stands for itself, a variable for its text. -/
  | name {place : Place} {node target : Node} :
    node.isNamed = true → node.kind ∈ identifierKinds → slice query node.range ≠ "_" →
    target.isNamed = true →
    target.kind ∈ nameKinds node.kind (slice query node.range) place.parent →
    slice source target.range = meaning values (slice query node.range) →
    Instance place node target
  /-- Both operands in their order. -/
  | binary {place : Place} {node target left op right left' op' right' : Node} :
    IsRule "binary_expression" node → isTransformableBinaryExp node = true →
    node.child 0 = some left → node.child 1 = some op → node.child 2 = some right →
    IsRule "binary_expression" target →
    InOrder [(some "left", left'), (some "operator", op'), (some "right", right')]
      target.children →
    op'.isNamed = false → op'.kind = op.kind →
    Instance (place.operand node) left left' → Instance (place.operand node) right right' →
    Instance place node target
  /-- The operands of the mirrored expression. -/
  | mirrored {place : Place} {node target left op right left' op' right' : Node} :
    IsRule "binary_expression" node → isTransformableBinaryExp node = true →
    node.child 0 = some left → node.child 1 = some op → node.child 2 = some right →
    IsRule "binary_expression" target →
    InOrder [(some "left", right'), (some "operator", op'), (some "right", left')]
      target.children →
    op'.isNamed = false → op'.kind = altOperator op.kind →
    Instance (place.operand node) left left' → Instance (place.operand node) right right' →
    Instance place node target
  /-- `strict:` stands for the statement behind it. -/
  | labelled {place : Place} {node target child : Node} :
    IsRule "labeled_statement" node → label query node = some "STRICT" →
    node.namedChild 1 = some child → Instance (place.labelled node) child target →
    Instance place node target
  /-- A block stands for blocks with its statements at any depth. -/
  | block {place : Place} {node target : Node} {found : List Node} :
    IsRule "compound_statement" node → 0 < node.namedChildCount →
    IsRule "compound_statement" target → found ≠ [] → (∀ inner ∈ found, inner ∈ target.nodes) →
    found.Pairwise before →
    Instances node node.children.tail.dropLast found → Instance place node target
  /-- An assignment with any operator but a plain one, or to something that is
  not a name. -/
  | assignment {place : Place} {node target left op right left' op' value right' : Node} :
    IsRule "assignment_expression" node →
    node.child 0 = some left → node.child 1 = some op → node.child 2 = some right →
    op.kind ≠ "=" ∨ left.kind ≠ "identifier" → IsRule "assignment_expression" target →
    InOrder [(some "left", left'), (none, op'), (some "right", value)] target.children →
    UpToCast value right' → Instance (place.operand node) left left' →
    Instance (place.operand node) op op' → Instance (place.operand node) right right' →
    Instance place node target
  /-- A plain assignment to a name. -/
  | assigned {place : Place} {node target left op right left' value right' : Node} :
    IsRule "assignment_expression" node →
    node.child 0 = some left → node.child 1 = some op → node.child 2 = some right →
    op.kind = "=" → left.kind = "identifier" → IsRule "assignment_expression" target →
    InOrder [(some "left", left'), (some "right", value)] target.children →
    UpToCast value right' → Instance (place.operand node) left left' →
    Instance (place.operand node) right right' → Instance place node target
  /-- A declaration that initialises the name. -/
  | initialised {place : Place} {node target left op right declarator left' value right' : Node} :
    IsRule "assignment_expression" node →
    node.child 0 = some left → node.child 1 = some op → node.child 2 = some right →
    op.kind = "=" → left.kind = "identifier" → IsRule "init_declarator" target →
    InOrder [(some "declarator", declarator), (some "value", value)] target.children →
    UpToPointer declarator left' → UpToCast value right' →
    Instance (place.operand node) left left' → Instance (place.operand node) right right' →
    Instance place node target
  /-- At the root of a query `_(..)` stands for its argument. -/
  | wrapped {place : Place} {node target up argument : Node} :
    node.isNamed = true → isWildcardCall query node = true →
    soleArgument node = some (up, argument) → place.depth = 0 →
    Instance (place.wrapped node up) argument target → Instance place node target
  /-- Elsewhere `_(..)` stands for any node that holds its argument. -/
  | within {place : Place} {node target up argument inner : Node} :
    node.isNamed = true → isWildcardCall query node = true →
    soleArgument node = some (up, argument) → place.depth ≠ 0 →
    argument.kind ≠ "translation_unit" → inner ∈ target.nodes →
    Instance (place.inner up argument) argument inner → Instance place node target
  /-- A call of a named function. -/
  | call {place : Place} {node target arguments function' arguments' : Node} {name : String} :
    IsRule "call_expression" node → isWildcardCall query node = false →
    calledName query node = some name → node.childByFieldName "arguments" = some arguments →
    IsRule "call_expression" target →
    InOrder [(some "function", function'), (some "arguments", arguments')] target.children →
    IsCalled source place.strict name function' →
    Instance (place.arguments node) arguments arguments' → Instance place node target
  /-- An expression statement stands for its expression. -/
  | unwrapped {place : Place} {node target first : Node} :
    IsRule "expression_statement" node → isUnwrapped query place.up node place.strict = true →
    node.child 0 = some first → Instance (place.expression node) first target →
    Instance place node target
  /-- Numbers. -/
  | number {place : Place} {node target : Node} :
    IsRule "number_literal" node → IsRule "number_literal" target →
    NumberFits query source node target → Instance place node target
  /-- A variable in quotes stands for any string. -/
  | quoted {place : Place} {node target : Node} {text : String} :
    IsRule "string_literal" node → unquoted query node = some text → startsWith text '$' = true →
    IsRule "string_literal" target → slice source target.range = values text →
    Instance place node target
  /-- Everything else is the same construct around instances of the parts. -/
  | copied {place : Place} {node target : Node} :
    node.isNamed = true → IsPlain query place node → IsRule node.kind target →
    (node.kind = "argument_list" → node.children ≠ [] → CountFits query node target) →
    Members place node node.children target.children → Instance place node target

/-- The children of a node stand for some of the siblings, from left to
right. -/
inductive Members : Place → Node → List Node → List Node → Prop
  /-- No child is left. -/
  | nil {place : Place} {node : Node} {siblings : List Node} : Members place node [] siblings
  /-- A child stands for nothing. -/
  | silent {place : Place} {node child : Node} {children siblings : List Node} :
    IsSilent query node child → Members place node children siblings →
    Members place node (child :: children) siblings
  /-- A child stands for a sibling; only tokens are skipped among several
  arguments. -/
  | next {place : Place} {node child taken inner : Node}
    {children skipped siblings : List Node} :
    ¬IsSilent query node child → (∀ field ∈ child.field, taken.field = some field) →
    (isAnchored query node = true → child.field = none → child.isNamed = true →
      ∀ sibling ∈ skipped, sibling.isNamed = false) →
    UpToWrapper node child taken inner → Instance (place.member node child) child inner →
    Members place node children siblings →
    Members place node (child :: children) (skipped ++ taken :: siblings)

/-- The statements of a block stand for some nodes. -/
inductive Instances : Node → List Node → List Node → Prop
  /-- No statement is left. -/
  | nil {node : Node} : Instances node [] []
  /-- A statement stands for a node. -/
  | cons {node statement inner : Node} {statements found : List Node} :
    Instance (Place.statement node) statement inner → Instances node statements found →
    Instances node (statement :: statements) (inner :: found)

end

end Instances

end WeggliEnhance.PatternInstances
