import Mathlib.Data.Finmap
import WeggliEnhance.QueryTrees

/-!
# The query builder

`builder.rs`: the syntax tree of a search pattern becomes a query tree. The
recursive function `build` is written with its own recursive calls as a
parameter and then closed by a bound on the height of the pattern, so that
every helper of the source can be read and reasoned about on its own. A
failed `unwrap` or `assert` is an explicit error.
-/

namespace WeggliEnhance.PatternBuilder

open SourceText SyntaxTree QueryText ThirdParty QueryTrees

/-- The ways building can fail. -/
inductive BuildError where
  /-- A failed `unwrap` or `assert`. -/
  | panic
  /-- Tree-sitter rejected the generated query text. -/
  | query (message : String)
  /-- The bound on the height of the pattern was too small. -/
  | outOfFuel
  deriving DecidableEq

/-- Map from variable names to a (negative, regex) constraint. -/
abbrev RegexMap := Finmap fun _ : String => Bool × Regex

/-- The state of a builder. -/
structure QueryBuilder where
  /-- Text of the search pattern. -/
  querySource : String
  /-- Captures allocated so far. -/
  captures : List Capture
  /-- Negative sub-queries met so far. -/
  negations : List NegativeQuery
  /-- The id given last. -/
  id : ℕ
  /-- Constraints on variables. -/
  regexConstraints : RegexMap
  /-- History variable, not in the source: how many captures were allocated
  when each negation was met. Nothing reads it. -/
  negationSites : List ℕ

/-- Builder computations. -/
abbrev BuildM := StateT QueryBuilder (Except BuildError)

/-- A builder that has allocated nothing. -/
def QueryBuilder.new (source : String) (id : ℕ) (constraints : RegexMap) : QueryBuilder :=
  ⟨source, [], [], id, constraints, []⟩

/-- The builder after allocating a capture. -/
def QueryBuilder.push (builder : QueryBuilder) (capture : Capture) : QueryBuilder :=
  { builder with captures := builder.captures ++ [capture] }

/-- `add_capture`: allocate a capture and return its name. -/
def addCapture (capture : Capture) : BuildM String :=
  fun builder => .ok (toString builder.captures.length, builder.push capture)

/-- The item that captures the pattern before it. -/
def captureItem (name : String) : Item := .tag (.capture name)

/-- `get_text`: the pattern text of a node. -/
def getText (node : Node) : BuildM String := do return slice (← get).querySource node.range

/-- `unwrap`. -/
def unwrap {α : Type} : Option α → BuildM α
  | some a => pure a
  | none => throw .panic

/-- `is_subexpr_wildcard`: a call of the function `_`. -/
def isSubexprWildcard (query : Node) : BuildM Bool := do
  if query.kind != "call_expression" then return false
  let f ← unwrap (query.childByFieldName "function")
  return (← getText f) == "_"

/-- `is_comparison_binary_exp`. -/
def isComparisonBinaryExp (node : Node) : Bool :=
  (node.child 1).any fun op => [">", "<", "<=", ">="].contains op.kind

/-- `is_commutative_binary_exp`. -/
def isCommutativeBinaryExp (node : Node) : Bool :=
  (node.child 1).any fun op => ["+", "*", "&", "|", "==", "!="].contains op.kind

/-- `is_transformable_binary_exp`. -/
def isTransformableBinaryExp (node : Node) : Bool :=
  isComparisonBinaryExp node || isCommutativeBinaryExp node

/-- The operator of the mirrored expression. -/
def altOperator (op : String) : String :=
  match op with
  | ">" => "<"
  | "<" => ">"
  | "<=" => ">="
  | ">=" => "<="
  | _ => op

/-- The recursive call of `build`: the parent node, the node under the cursor,
the depth, strict mode and the name passed for the parent. -/
abbrev BuildFn := Option Node → Node → ℕ → Bool → String → BuildM (List Item)

/-- The call of `_build_query_tree` from a builder: the parent node, the node,
the id, whether it is a multi-pattern query and strict mode. -/
abbrev TreeFn := Option Node → Node → ℕ → Bool → Bool → BuildM QueryTree

/-- An index into the captures, as a variable occurrence. -/
def variableIndices (captures : List (Capture × ℕ)) : List (String × ℕ) :=
  captures.filterMap fun entry => entry.1.name?.map fun name => (name, entry.2)

/-- The equality predicate of a constant. -/
def checkPredicate (entry : Capture × ℕ) : Option Item :=
  match entry.1 with
  | .check text => some (.tag (.eqString (toString entry.2) text))
  | _ => none

/-- The predicates that tie all occurrences of one variable to its first. -/
def starPredicates (indices : List ℕ) : List Item :=
  match indices with
  | [] => []
  | first :: rest => rest.map fun i => .tag (.eqCapture (toString first) (toString i))

/-- `process_captures`: predicates for the captures from an offset on, and the
variables among them. The hash map of variables is walked in the order of
their first occurrence. -/
def processCaptures (captures : List Capture) (offset : ℕ) : List Item × Finset String :=
  let entries := (captures.drop offset).zipIdx offset
  let vars := variableIndices entries
  let names := (vars.map Prod.fst).eraseDups
  (entries.filterMap checkPredicate ++
      names.flatMap fun name =>
        starPredicates ((vars.filter fun entry => entry.1 == name).map Prod.snd),
    names.toFinset)

/-- The kinds handled by `build_identifier`. -/
def identifierKinds : List String :=
  ["identifier", "type_identifier", "field_identifier", "sized_type_specifier", "primitive_type",
    "namespace_identifier"]

/-- A variable whose name is a number. -/
def isNumVar (pattern : String) : Bool :=
  startsWith pattern '$' && (pattern.toList.drop 1).all isNumeric

/-- The query for an identifier before its capture. -/
def identifierItem (kind pattern parent : String) : Item :=
  if kind == "type_identifier" then
    .alternation [.node "type_identifier" [], .node "sized_type_specifier" [],
      .node "primitive_type" []]
  else if kind == "identifier" && startsWith pattern '$' then
    if isNumVar pattern && parent != "declarator" then .node "number_literal" []
    else .alternation [.node "identifier" [], .node "field_expression" [],
      .node "field_identifier" []]
  else .node kind []

/-- `build_identifier`: variables, `_`, constants, types and fields. -/
def buildIdentifier (node : Node) (parent : String) : BuildM (List Item) := do
  let pattern ← getText node
  if pattern == "_" then return [.node "_" []]
  let constraints := (← get).regexConstraints
  let capture : Capture :=
    if startsWith pattern '$' then .variable pattern (constraints.lookup pattern)
    else .check pattern
  let name ← addCapture capture
  return [identifierItem node.kind pattern parent, captureItem name]

/-- Index of the last recorded capture, or minus one. -/
def lastRecorded (captures : List Capture) : ℤ :=
  match captures.zipIdx.reverse.find? fun entry => entry.1.isRecorded with
  | some entry => entry.2
  | none => -1

section Helpers

variable (build : BuildFn) (queryTree : TreeFn)

/-- A mirrored binary expression: both orders of the operands. -/
def buildBinary (node : Node) (depth : ℕ) (strict : Bool) : BuildM (List Item) := do
  let first ← unwrap (node.child 0)
  let left ← build (some node) first (depth + 1) strict node.kind
  let op ← unwrap (node.child 1)
  let second ← unwrap (node.child 2)
  let right ← build (some node) second (depth + 1) strict node.kind
  return [.alternation
    [.node "binary_expression" (.fieldName "left" :: left ++
      [.fieldName "operator", .token op.kind, .fieldName "right"] ++ right),
     .node "binary_expression" (.fieldName "left" :: right ++
      [.fieldName "operator", .token (altOperator op.kind), .fieldName "right"] ++ left)]]

/-- `build_negative_query`: the statement after a `not:` label. -/
def buildNegativeQuery (node : Node) : BuildM Unit := do
  let negated ← unwrap (node.child 2)
  let before := lastRecorded (← get).captures
  modify fun builder => { builder with id := builder.id + 1 }
  let qt ← queryTree (some node) negated (← get).id false false
  modify fun builder =>
    { builder with
      negations := builder.negations ++ [⟨qt, before⟩]
      negationSites := builder.negationSites ++ [builder.captures.length] }

/-- The labels `not:` and `strict:`; other labels fall through. -/
def buildLabeled (node : Node) (depth : ℕ) : BuildM (Option (List Item)) := do
  let label ← unwrap (node.child 0)
  let text ← getText label
  if toUppercase text == "NOT" then
    buildNegativeQuery queryTree node
    return some []
  else if toUppercase text == "STRICT" then
    match node.namedChild 1 with
    | some child => return some (← build (some node) child depth true node.kind)
    | none => return some []
  else return none

/-- A block becomes a multi-pattern sub-query. -/
def buildCompound (up : Option Node) (node : Node) : BuildM (List Item) := do
  modify fun builder => { builder with id := builder.id + 1 }
  let qt ← queryTree up node (← get).id true false
  let name ← addCapture (.subMultiQuery qt)
  return [.node "compound_statement" [], captureItem name]

/-- Match assignments even if they include a cast. -/
def optionalCast (items : List Item) : List Item :=
  [.alternation (.node "cast_expression" (.fieldName "value" :: items) :: items)]

/-- `build_assignment`: also matches initialised declarations. -/
def buildAssignment (node : Node) (depth : ℕ) (strict : Bool) : BuildM (List Item) := do
  let first ← unwrap (node.child 0)
  let left ← build (some node) first (depth + 1) strict node.kind
  let op ← unwrap (node.child 1)
  if op.kind != "=" || first.kind != "identifier" then
    let operator ← build (some node) op (depth + 1) strict node.kind
    let second ← unwrap (node.child 2)
    let right ← build (some node) second (depth + 1) strict node.kind
    return [.node "assignment_expression" (.fieldName "left" :: left ++ operator ++
      .fieldName "right" :: optionalCast right)]
  else
    let second ← unwrap (node.child 2)
    let right ← build (some node) second (depth + 1) strict node.kind
    return [.alternation
      [.node "assignment_expression" (.fieldName "left" :: left ++
        .fieldName "right" :: optionalCast right),
       .node "init_declarator" (.fieldName "declarator" :: left ++
        .fieldName "value" :: optionalCast right),
       .node "init_declarator"
        (.fieldName "declarator" ::
          .node "pointer_declarator" (.fieldName "declarator" :: left) ::
          .fieldName "value" :: optionalCast right)]]

/-- The cursor of `build_call_expr` on the only argument, with its parent and
the siblings after it. An empty list leaves the cursor on the list itself. -/
def wildcardArgument (node arguments : Node) : Node × Node × List Node :=
  match arguments.children with
  | [] => (node, arguments, [])
  | [only] => (arguments, only, [])
  | _ :: argument :: rest => (arguments, argument, rest)

/-- The function name of a call: fields too, unless strict mode is on. -/
def functionItems (strict : Bool) (name : String) : List Item :=
  if strict then [.node "identifier" [], captureItem name]
  else [.alternation [.node "field_expression"
      [.fieldName "field", .node "field_identifier" [], captureItem name],
    .node "identifier" [], captureItem name]]

/-- `build_call_expr`: `_(..)` and calls of named functions; other calls fall
through. -/
def buildCallExpr (node : Node) (depth : ℕ) (strict : Bool) (parent : String) :
    BuildM (Option (List Item)) := do
  if ← isSubexprWildcard node then
    let arguments ← unwrap (node.childByFieldName "arguments")
    let (up, argument, rest) := wildcardArgument node arguments
    if 2 ≤ rest.length then return none
    if depth = 0 then return some (← build (some up) argument depth strict parent)
    modify fun builder => { builder with id := builder.id + 1 }
    let qt ← queryTree (some up) argument (← get).id false strict
    let name ← addCapture (.subWildQuery qt)
    return some [.wildcard, captureItem name]
  else
    let function ← unwrap (node.childByFieldName "function")
    let arguments ← unwrap (node.childByFieldName "arguments")
    if function.kind != "identifier" then return none
    let pattern ← getText function
    if startsWith pattern '$' then return none
    let name ← addCapture (.check pattern)
    let items ← build (some node) arguments (depth + 1) false parent
    return some [.node "call_expression" (.fieldName "function" :: functionItems strict name ++
      .fieldName "arguments" :: items)]

/-- Matching is greedy, or the expression is a wildcard call. -/
def isGreedy (child : Node) (strict : Bool) : BuildM Bool :=
  if strict then isSubexprWildcard child else pure true

/-- A labelled parent carries one of the two labels with a meaning. -/
def hasMagicLabel (up : Node) : BuildM Bool :=
  if up.kind == "labeled_statement" then do
    let label ← unwrap (up.child 0)
    let text ← getText label
    return toUppercase text == "NOT" || toUppercase text == "STRICT"
  else pure true

/-- Whether an expression statement under this parent is replaced by its
expression. -/
def shouldUnwrap (child up : Node) (strict : Bool) : BuildM Bool := do
  let greedy ← isGreedy child strict
  let labelled ← hasMagicLabel up
  let text ← getText child
  return greedy && labelled && text != "_"

/-- Expression statements; those that are not unwrapped fall through. -/
def buildExpressionStatement (up : Option Node) (node : Node) (depth : ℕ) (strict : Bool) :
    BuildM (Option (List Item)) := do
  match node.namedChild 0, up with
  | some child, some p =>
    if ["compound_statement", "labeled_statement", "translation_unit"].contains p.kind then
      if ← shouldUnwrap child p strict then
        let first ← unwrap (node.child 0)
        return some (← build (some node) first depth strict node.kind)
      else return none
    else return none
  | _, _ => return none

/-- Integer literals are compared by value, others as text. -/
def buildNumber (node : Node) : BuildM (List Item) := do
  let pattern ← getText node
  let capture : Capture :=
    match parseNumberLiteral pattern with
    | some value => .number value
    | none => .check pattern
  let name ← addCapture capture
  return [.node "number_literal" [], captureItem name]

/-- String literals holding a variable; others fall through. -/
def buildString (node : Node) : BuildM (Option (List Item)) := do
  let pattern ← getText node
  let unquoted ← unwrap (slice? pattern ⟨1, utf8Len pattern.toList - 1⟩)
  if startsWith unquoted '$' then
    let constraints := (← get).regexConstraints
    let name ← addCapture (.variable unquoted (constraints.lookup unquoted))
    return some [.node "string_literal" [], captureItem name]
  else return none

/-- The special cases of `build`; nothing means the default case applies. -/
def buildSpecial (up : Option Node) (node : Node) (depth : ℕ) (strict : Bool) (parent : String) :
    BuildM (Option (List Item)) :=
  if node.kind = "binary_expression" then
    if isTransformableBinaryExp node then some <$> buildBinary build node depth strict
    else pure none
  else if node.kind = "labeled_statement" then buildLabeled build queryTree node depth
  else if node.kind = "compound_statement" then
    if 0 < node.namedChildCount then some <$> buildCompound queryTree up node else pure none
  else if node.kind ∈ identifierKinds then some <$> buildIdentifier node parent
  else if node.kind = "assignment_expression" then some <$> buildAssignment build node depth strict
  else if node.kind = "call_expression" then
    buildCallExpr build queryTree node depth strict node.kind
  else if node.kind = "expression_statement" then
    buildExpressionStatement build up node depth strict
  else if node.kind = "number_literal" then some <$> buildNumber node
  else if node.kind = "string_literal" then buildString node
  else pure none

/-- The variadic wildcard `__` in the query text. -/
def isVariadic (source : String) (node : Node) : Bool :=
  node.isNamed && node.kind == "identifier" && slice source node.range == "__"

/-- Keywords, which are highlighted in results. The test of the source looks
at the quoted token; the tokens of the grammar are ASCII. -/
def isKeyword (kind : String) : Bool :=
  (kind.toList.all fun c => c.isAlphanum || c == '"') && kind != "\""

/-- One round of the default loop: what a child adds to the query. -/
def buildChild (node : Node) (anchoring : Bool) (depth : ℕ) (strict : Bool) (child : Node) :
    BuildM (List Item) := do
  match child.field with
  | some field =>
    let items ← build (some node) child (depth + 1) strict field
    if field == "declarator" && node.kind == "function_definition" then
      return [.fieldName field, .group [.alternation [.node "_" items, .group items]]]
    else return .fieldName field :: items
  | none =>
    if child.isNamed then
      let source := (← get).querySource
      if node.kind == "argument_list" && isVariadic source child then return []
      let items ← build (some node) child (depth + 1) strict node.kind
      return if anchoring then .anchor :: items else items
    else
      let items ← build (some node) child (depth + 1) strict node.kind
      if isKeyword child.kind then
        let name ← addCapture .display
        return items ++ [captureItem name]
      else return []

/-- The default loop over all children. -/
def buildChildren (node : Node) (anchoring : Bool) (depth : ℕ) (strict : Bool) :
    List Node → BuildM (List Item)
  | [] => pure []
  | child :: children => do
    let items ← buildChild build node anchoring depth strict child
    let rest ← buildChildren node anchoring depth strict children
    return items ++ rest

/-- The default case of `build`: copy the node with all its children. -/
def buildDefault (node : Node) (depth : ℕ) (strict : Bool) : BuildM (List Item) := do
  let source := (← get).querySource
  let variadicCount :=
    if node.kind == "argument_list" then node.children.countP (isVariadic source) else 0
  let anchoring :=
    node.kind == "argument_list" && 1 < node.namedChildCount && variadicCount == 0
  if node.children.isEmpty then return [.node node.kind []]
  let items ← buildChildren build node anchoring depth strict node.children
  if node.kind == "argument_list" then
    let name ← addCapture (.callExpQuery (node.namedChildCount - variadicCount)
      (0 < variadicCount))
    return [.node node.kind items, captureItem name]
  else return [.node node.kind items]

/-- The body of `build`. -/
def buildBody (up : Option Node) (node : Node) (depth : ℕ) (strict : Bool) (parent : String) :
    BuildM (List Item) := do
  if !node.isNamed then return [.token node.kind]
  match ← buildSpecial build queryTree up node depth strict parent with
  | some items => return items
  | none => buildDefault build node depth strict

/-- A translation unit is skipped in favour of its first child. -/
def skipTranslationUnit (up : Option Node) (node : Node) : Option Node × Node :=
  if node.kind = "translation_unit" then
    match node.children with
    | [] => (up, node)
    | child :: _ => (some node, child)
  else (up, node)

/-- The text of a query before tree-sitter compiles it. -/
structure BuiltText where
  /-- Top-level patterns. -/
  text : List (List Item)
  /-- Variables of the captures. -/
  «variables» : Finset String
  /-- The builder at the end. -/
  builder : QueryBuilder

/-- A query with a single root pattern. Blocks at the root of the whole search
pattern are wrapped into a function definition. -/
def buildSinglePattern (up : Option Node) (node : Node) (strict : Bool) (start : QueryBuilder) :
    Except BuildError BuiltText := do
  let (items, builder) ← (build up node 0 strict node.kind).run start
  let final := builder.push .display
  let name := captureItem (toString builder.captures.length)
  if node.kind = "compound_statement" ∧ start.id = 0 then
    let (predicates, vars) := processCaptures builder.captures 0
    return ⟨[[.node "function_definition" (.fieldName "body" :: items ++ predicates), name]],
      vars, final⟩
  else
    let (predicates, vars) := processCaptures final.captures 0
    return ⟨[[.group (items ++ [name] ++ predicates)]], vars, final⟩

/-- The loop over the statements of a block, one root pattern for each
statement that leaves any text. -/
def buildPatterns (node : Node) (strict : Bool) :
    List Node → QueryBuilder → Except BuildError BuiltText
  | [], builder => .ok ⟨[], ∅, builder⟩
  | child :: children, builder => do
    let (items, next) ← (build (some node) child 0 strict node.kind).run builder
    let (predicates, vars) := processCaptures next.captures builder.captures.length
    let rest ← buildPatterns node strict children next
    let text := if items.isEmpty then rest.text else [.group (items ++ predicates)] :: rest.text
    return ⟨text, vars ∪ rest.variables, rest.builder⟩

/-- The text that `_build_query_tree` generates. The loop over a block skips
the first and the last child, its braces. -/
def buildText (up : Option Node) (node : Node) (multiPattern strict : Bool)
    (start : QueryBuilder) : Except BuildError BuiltText :=
  let (up, node) := skipTranslationUnit up node
  if multiPattern then
    if 2 ≤ node.children.length then
      buildPatterns build node strict node.children.tail.dropLast start
    else .error .panic
  else buildSinglePattern build up node strict start

/-- `ts_query`: compile the text. -/
def tsQuery (externals : Externals) (text : List (List Item)) : Except BuildError Query :=
  match externals.queryError text with
  | none => .ok ⟨text⟩
  | some message => .error (.query message)

/-- `_build_query_tree`. -/
def buildTree (externals : Externals) (up : Option Node) (node : Node)
    (multiPattern strict : Bool) (start : QueryBuilder) : Except BuildError QueryTree := do
  let built ← buildText build up node multiPattern strict start
  let query ← tsQuery externals built.text
  return ⟨query, built.builder.captures, built.builder.negations, built.variables, start.id⟩

/-- `_build_query_tree` with the source and the constraints of a builder. -/
def nestedTree (externals : Externals) : TreeFn := fun up node id multiPattern strict builder => do
  let start := QueryBuilder.new builder.querySource id builder.regexConstraints
  let tree ← buildTree build externals up node multiPattern strict start
  return (tree, builder)

end Helpers

/-- `build` for patterns up to a height. -/
def buildFuel (externals : Externals) : ℕ → BuildFn
  | 0 => fun _ _ _ _ _ => throw .outOfFuel
  | fuel + 1 => buildBody (buildFuel externals fuel) (nestedTree (buildFuel externals fuel) externals)

/-- `build_query_tree`: the cursor stands on a node below an optional parent. -/
def buildQueryTree (externals : Externals) (source : String) (up : Option Node) (root : Node)
    (constraints : RegexMap) : Except BuildError QueryTree :=
  buildTree (buildFuel externals root.height) externals up root false false
    (.new source 0 constraints)

end WeggliEnhance.PatternBuilder
