import WeggliEnhance.NestedCounters
import WeggliEnhance.PatternBuilder

/-!
# Nesting of sub-queries in a search pattern

Blocks, negated statements and wildcard arguments open a query of their own.
The nesting of a pattern lists the queries that it opens, each with the
queries opened inside it, as a function of the syntax tree alone: no capture
is allocated and no query is built.
-/

namespace WeggliEnhance.PatternNesting

open SourceText SyntaxTree PatternBuilder NestedCounters

/-- The nesting below a node: its parent, the node, the depth and strict mode. -/
abbrev NestingFn := Option Node → Node → ℕ → Bool → List Shape

/-- A call of the function `_`. -/
def isWildcardCall (source : String) (node : Node) : Bool :=
  node.kind == "call_expression" &&
    (node.childByFieldName "function").any fun f => slice source f.range == "_"

/-- The label of a statement in capital letters. -/
def label (source : String) (node : Node) : Option String :=
  (node.child 0).map fun l => toUppercase (slice source l.range)

/-- An expression statement that is replaced by its expression. -/
def isUnwrapped (source : String) (up : Option Node) (node : Node) (strict : Bool) : Bool :=
  (node.namedChild 0).any fun child => up.any fun p =>
    ["compound_statement", "labeled_statement", "translation_unit"].contains p.kind &&
      ((!strict || isWildcardCall source child) &&
        (p.kind != "labeled_statement" ||
          (label source p == some "NOT" || label source p == some "STRICT")) &&
        slice source child.range != "_")

section Body

variable (source : String) (nesting : NestingFn)

/-- The queries opened below an optional child. -/
def childNesting (parent : Node) (child : Option Node) (depth : ℕ) (strict : Bool) : List Shape :=
  child.toList.flatMap fun c => nesting (some parent) c depth strict

/-- The queries opened directly inside a query on a node. -/
def treeNesting (up : Option Node) (node : Node) (multiPattern strict : Bool) : List Shape :=
  let (up, node) := skipTranslationUnit up node
  if multiPattern then
    node.children.tail.dropLast.flatMap fun child => nesting (some node) child 0 strict
  else nesting up node 0 strict

/-- A labelled statement: `not:` opens a query, `strict:` passes on. -/
def labeledNesting (node : Node) (depth : ℕ) : Option (List Shape) :=
  if label source node = some "NOT" then
    some ((node.child 2).toList.map fun negated =>
      .node (treeNesting nesting (some node) negated false false))
  else if label source node = some "STRICT" then
    some (childNesting nesting node (node.namedChild 1) depth true)
  else none

/-- An assignment: its left side, its operator unless that is a plain one
after an identifier, and its right side. -/
def assignmentNesting (node : Node) (depth : ℕ) (strict : Bool) : List Shape :=
  let plain := (node.child 1).any (·.kind == "=") && (node.child 0).any (·.kind == "identifier")
  childNesting nesting node (node.child 0) (depth + 1) strict ++
    ((if plain then [] else childNesting nesting node (node.child 1) (depth + 1) strict) ++
      childNesting nesting node (node.child 2) (depth + 1) strict)

/-- The argument of a call of `_`: below the root of a query it opens a query
of its own. Several arguments make it an ordinary call. -/
def wildcardNesting (node : Node) (depth : ℕ) (strict : Bool) : Option (List Shape) :=
  match node.childByFieldName "arguments" with
  | none => none
  | some arguments =>
    let (up, argument, rest) := wildcardArgument node arguments
    if 2 ≤ rest.length then none
    else if depth = 0 then some (nesting (some up) argument depth strict)
    else some [.node (treeNesting nesting (some up) argument false strict)]

/-- A call: only its arguments when the function is a plain name. -/
def callNesting (node : Node) (depth : ℕ) (strict : Bool) : Option (List Shape) :=
  if isWildcardCall source node then wildcardNesting nesting node depth strict
  else if (node.childByFieldName "function").any fun f =>
      f.kind == "identifier" && !startsWith (slice source f.range) '$' then
    some (childNesting nesting node (node.childByFieldName "arguments") (depth + 1) false)
  else none

/-- A string literal that holds a variable. -/
def isVariableString (source : String) (node : Node) : Bool :=
  let text := slice source node.range
  (slice? text ⟨1, utf8Len text.toList - 1⟩).any fun unquoted => startsWith unquoted '$'

/-- The constructs with a rule of their own. -/
def specialNesting (up : Option Node) (node : Node) (depth : ℕ) (strict : Bool) :
    Option (List Shape) :=
  if node.kind = "binary_expression" then
    if isTransformableBinaryExp node then
      some (childNesting nesting node (node.child 0) (depth + 1) strict ++
        childNesting nesting node (node.child 2) (depth + 1) strict)
    else none
  else if node.kind = "labeled_statement" then labeledNesting source nesting node depth
  else if node.kind = "compound_statement" then
    if 0 < node.namedChildCount then some [.node (treeNesting nesting up node true false)] else none
  else if node.kind ∈ identifierKinds then some []
  else if node.kind = "assignment_expression" then
    some (assignmentNesting nesting node depth strict)
  else if node.kind = "call_expression" then callNesting source nesting node depth strict
  else if node.kind = "expression_statement" then
    if isUnwrapped source up node strict then
      some (childNesting nesting node (node.child 0) depth strict)
    else none
  else if node.kind = "number_literal" then some []
  else if node.kind = "string_literal" then
    if isVariableString source node then some [] else none
  else none

/-- A child that the default case leaves out: `__` among arguments. -/
def isSkipped (source : String) (node child : Node) : Bool :=
  child.field.isNone && node.kind == "argument_list" && isVariadic source child

/-- All children of any other node. -/
def defaultNesting (node : Node) (depth : ℕ) (strict : Bool) : List Shape :=
  node.children.flatMap fun child =>
    if isSkipped source node child then [] else nesting (some node) child (depth + 1) strict

/-- One level of the nesting. -/
def nestingBody (up : Option Node) (node : Node) (depth : ℕ) (strict : Bool) : List Shape :=
  if !node.isNamed then []
  else (specialNesting source nesting up node depth strict).getD
    (defaultNesting source nesting node depth strict)

end Body

/-- The nesting of patterns up to a height. -/
def nestingFuel (source : String) : ℕ → NestingFn
  | 0 => fun _ _ _ _ => []
  | fuel + 1 => nestingBody source (nestingFuel source fuel)

/-- The query of a whole search pattern with the queries opened inside it. -/
def patternShape (source : String) (up : Option Node) (root : Node) : Shape :=
  .node (treeNesting (nestingFuel source root.height) up root false false)

end WeggliEnhance.PatternNesting
