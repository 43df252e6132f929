import WeggliEnhance.FallibleState
import WeggliEnhance.QueryOutline

/-!
# The steps of the builder

What a call of the builder has done when it returns: which nodes it has built
one after the other, which captures and queries it has added, and what it has
written around the texts of its parts. The text of the builder is read once
for all properties of single runs, which follow from the steps. The recursive
calls are parameters, so every call is described by calls on smaller nodes.
-/

namespace WeggliEnhance.BuilderSteps

open SourceText SyntaxTree QueryText QueryTrees PatternBuilder PatternNesting QueryOutline
  FallibleState

/-- A failed `unwrap` is allowed, and so is a failed call on a smaller node. -/
structure AllowsParts (allowed : BuildError → Prop) (build : BuildFn) (node : Node) : Prop where
  /-- A failed `unwrap`. -/
  panic : allowed .panic
  /-- A failed call on a smaller node. -/
  part : ∀ {up child depth strict parent s error}, child.height < node.height →
    build up child depth strict parent s = .error error → allowed error

/-- A failed query for a smaller node, or for the statements of the node, is
allowed. -/
def AllowsQueries (allowed : BuildError → Prop) (queryTree : TreeFn) (node : Node) : Prop :=
  ∀ up inner id multiPattern strict s error,
    inner.height < (if multiPattern then node.height + 1 else node.height) →
    queryTree up inner id multiPattern strict s = .error error → allowed error

/-- Every failed call may be allowed. -/
theorem allowsParts (build : BuildFn) (node : Node) : AllowsParts (fun _ => True) build node :=
  ⟨trivial, fun _ _ => trivial⟩

/-- Every failed query may be allowed. -/
theorem allowsQueries (queryTree : TreeFn) (node : Node) :
    AllowsQueries (fun _ => True) queryTree node := fun _ _ _ _ _ _ _ _ _ => trivial

section Steps

variable (build : BuildFn) (queryTree : TreeFn) (up : Option Node) (node : Node) (depth : ℕ)
  (strict : Bool) (parent : String) (s : QueryBuilder)

/-- The steps of `build_identifier`. -/
inductive IdentifierStep : List Item → QueryBuilder → Prop
  /-- The wildcard is not captured. -/
  | anything (htext : slice s.querySource node.range = "_") : IdentifierStep [.node "_" []] s
  /-- A variable with its constraint. -/
  | held (htext : slice s.querySource node.range ≠ "_")
    (hvariable : startsWith (slice s.querySource node.range) '$' = true) :
    IdentifierStep
      [identifierItem node.kind (slice s.querySource node.range) parent,
        captureItem (toString s.captures.length)]
      (s.push (.variable (slice s.querySource node.range)
        (s.regexConstraints.lookup (slice s.querySource node.range))))
  /-- A constant. -/
  | constant (htext : slice s.querySource node.range ≠ "_")
    (hconstant : startsWith (slice s.querySource node.range) '$' = false) :
    IdentifierStep
      [identifierItem node.kind (slice s.querySource node.range) parent,
        captureItem (toString s.captures.length)]
      (s.push (.check (slice s.querySource node.range)))

/-- The steps for a number. -/
inductive NumberStep : List Item → QueryBuilder → Prop
  /-- An integer literal. -/
  | value {value : ℤ}
    (hvalue : parseNumberLiteral (slice s.querySource node.range) = some value) :
    NumberStep [.node "number_literal" [], captureItem (toString s.captures.length)]
      (s.push (.number value))
  /-- Any other literal. -/
  | text (hvalue : parseNumberLiteral (slice s.querySource node.range) = none) :
    NumberStep [.node "number_literal" [], captureItem (toString s.captures.length)]
      (s.push (.check (slice s.querySource node.range)))

/-- The steps for a string. -/
inductive StringStep : Option (List Item) → QueryBuilder → Prop
  /-- A string that holds a variable. -/
  | held {text : String}
    (htext : slice? (slice s.querySource node.range)
      ⟨1, utf8Len (slice s.querySource node.range).toList - 1⟩ = some text)
    (hvariable : startsWith text '$' = true) :
    StringStep (some [.node "string_literal" [], captureItem (toString s.captures.length)])
      (s.push (.variable text (s.regexConstraints.lookup text)))
  /-- Any other string. -/
  | other {text : String}
    (htext : slice? (slice s.querySource node.range)
      ⟨1, utf8Len (slice s.querySource node.range).toList - 1⟩ = some text)
    (hconstant : startsWith text '$' = false) : StringStep none s

/-- The steps of a mirrored expression. -/
inductive BinaryStep : List Item → QueryBuilder → Prop
  /-- Both operands are built. -/
  | operands {first op second : Node} {left right : List Item} {s₁ s₂ : QueryBuilder}
    (hfirst : node.child 0 = some first)
    (hleft : build (some node) first (depth + 1) strict node.kind s = .ok (left, s₁))
    (hop : node.child 1 = some op) (hsecond : node.child 2 = some second)
    (hright : build (some node) second (depth + 1) strict node.kind s₁ = .ok (right, s₂)) :
    BinaryStep
      [.alternation
        [.node "binary_expression" (.fieldName "left" :: left ++
          [.fieldName "operator", .token op.kind, .fieldName "right"] ++ right),
         .node "binary_expression" (.fieldName "left" :: right ++
          [.fieldName "operator", .token (altOperator op.kind), .fieldName "right"] ++ left)]] s₂

/-- The steps of a labelled statement. -/
inductive LabeledStep : Option (List Item) → QueryBuilder → Prop
  /-- The statement behind `not:` becomes a query. -/
  | negative {negated : Node} {tree : QueryTree} {s' : QueryBuilder}
    (hlabel : label s.querySource node = some "NOT") (hnegated : node.child 2 = some negated)
    (htree : queryTree (some node) negated (s.id + 1) false false { s with id := s.id + 1 } =
      .ok (tree, s')) :
    LabeledStep (some [])
      { s' with
        negations := s'.negations ++ [⟨tree, lastRecorded s.captures⟩]
        negationSites := s'.negationSites ++ [s'.captures.length] }
  /-- The statement behind `strict:` takes the place of the labelled one. -/
  | passed {child : Node} {items : List Item} {s' : QueryBuilder}
    (hlabel : label s.querySource node = some "STRICT") (hchild : node.namedChild 1 = some child)
    (hitems : build (some node) child depth true node.kind s = .ok (items, s')) :
    LabeledStep (some items) s'
  /-- There is no statement behind `strict:`. -/
  | empty (hlabel : label s.querySource node = some "STRICT") (hchild : node.namedChild 1 = none) :
    LabeledStep (some []) s
  /-- The label has no meaning. -/
  | other {text : String} (hlabel : label s.querySource node = some text) (hnot : text ≠ "NOT")
    (hstrict : text ≠ "STRICT") : LabeledStep none s

/-- The steps of a block. -/
inductive CompoundStep : List Item → QueryBuilder → Prop
  /-- The statements become a query. -/
  | opened {tree : QueryTree} {s' : QueryBuilder}
    (htree : queryTree up node (s.id + 1) true false { s with id := s.id + 1 } = .ok (tree, s')) :
    CompoundStep [.node "compound_statement" [], captureItem (toString s'.captures.length)]
      (s'.push (.subMultiQuery tree))

/-- The steps of `build_assignment`. -/
inductive AssignmentStep : List Item → QueryBuilder → Prop
  /-- Another operator, or another left side than a name. -/
  | other {first op second : Node} {left operator right : List Item} {s₁ s₂ s₃ : QueryBuilder}
    (hfirst : node.child 0 = some first)
    (hleft : build (some node) first (depth + 1) strict node.kind s = .ok (left, s₁))
    (hop : node.child 1 = some op) (hother : op.kind ≠ "=" ∨ first.kind ≠ "identifier")
    (hoperator : build (some node) op (depth + 1) strict node.kind s₁ = .ok (operator, s₂))
    (hsecond : node.child 2 = some second)
    (hright : build (some node) second (depth + 1) strict node.kind s₂ = .ok (right, s₃)) :
    AssignmentStep
      [.node "assignment_expression" (.fieldName "left" :: left ++ operator ++
        .fieldName "right" :: optionalCast right)] s₃
  /-- A name gets a value. -/
  | plain {first op second : Node} {left right : List Item} {s₁ s₂ : QueryBuilder}
    (hfirst : node.child 0 = some first)
    (hleft : build (some node) first (depth + 1) strict node.kind s = .ok (left, s₁))
    (hop : node.child 1 = some op) (hplain : op.kind = "=" ∧ first.kind = "identifier")
    (hsecond : node.child 2 = some second)
    (hright : build (some node) second (depth + 1) strict node.kind s₁ = .ok (right, s₂)) :
    AssignmentStep
      [.alternation
        [.node "assignment_expression" (.fieldName "left" :: left ++
          .fieldName "right" :: optionalCast right),
         .node "init_declarator" (.fieldName "declarator" :: left ++
          .fieldName "value" :: optionalCast right),
         .node "init_declarator"
          (.fieldName "declarator" ::
            .node "pointer_declarator" (.fieldName "declarator" :: left) ::
            .fieldName "value" :: optionalCast right)]] s₂

/-- The steps of `build_call_expr`. -/
inductive CallStep : Option (List Item) → QueryBuilder → Prop
  /-- At the root of a query the argument of `_` takes the place of the call. -/
  | wrapped {arguments argument : Node} {above : Node} {rest : List Node} {items : List Item}
    {s' : QueryBuilder} (hwildcard : isWildcardCall s.querySource node = true)
    (harguments : node.childByFieldName "arguments" = some arguments)
    (hcursor : wildcardArgument node arguments = (above, argument, rest))
    (hfew : ¬2 ≤ rest.length) (hdepth : depth = 0)
    (hitems : build (some above) argument depth strict parent s = .ok (items, s')) :
    CallStep (some items) s'
  /-- Below the root it becomes a query. -/
  | within {arguments argument : Node} {above : Node} {rest : List Node} {tree : QueryTree}
    {s' : QueryBuilder} (hwildcard : isWildcardCall s.querySource node = true)
    (harguments : node.childByFieldName "arguments" = some arguments)
    (hcursor : wildcardArgument node arguments = (above, argument, rest))
    (hfew : ¬2 ≤ rest.length) (hdepth : depth ≠ 0)
    (htree : queryTree (some above) argument (s.id + 1) false strict { s with id := s.id + 1 } =
      .ok (tree, s')) :
    CallStep (some [.wildcard, captureItem (toString s'.captures.length)])
      (s'.push (.subWildQuery tree))
  /-- A wildcard call with several arguments. -/
  | several {arguments argument : Node} {above : Node} {rest : List Node}
    (hwildcard : isWildcardCall s.querySource node = true)
    (harguments : node.childByFieldName "arguments" = some arguments)
    (hcursor : wildcardArgument node arguments = (above, argument, rest))
    (hmany : 2 ≤ rest.length) : CallStep none s
  /-- A named function is captured before its arguments are built. -/
  | named {function arguments : Node} {items : List Item} {s' : QueryBuilder}
    (hwildcard : ¬isWildcardCall s.querySource node = true)
    (hfunction : node.childByFieldName "function" = some function)
    (harguments : node.childByFieldName "arguments" = some arguments)
    (hname : (function.kind == "identifier" &&
      !startsWith (slice s.querySource function.range) '$') = true)
    (hitems : build (some node) arguments (depth + 1) false parent
      (s.push (.check (slice s.querySource function.range))) = .ok (items, s')) :
    CallStep
      (some [.node "call_expression" (.fieldName "function" ::
        functionItems strict (toString s.captures.length) ++ .fieldName "arguments" :: items)]) s'
  /-- The function is no constant. -/
  | nameless {function arguments : Node} (hwildcard : ¬isWildcardCall s.querySource node = true)
    (hfunction : node.childByFieldName "function" = some function)
    (harguments : node.childByFieldName "arguments" = some arguments)
    (hname : ¬(function.kind == "identifier" &&
      !startsWith (slice s.querySource function.range) '$') = true) : CallStep none s

/-- The steps of an expression statement. -/
inductive StatementStep : Option (List Item) → QueryBuilder → Prop
  /-- The expression takes the place of the statement. -/
  | replaced {first : Node} {items : List Item} {s' : QueryBuilder}
    (hunwrapped : isUnwrapped s.querySource up node strict = true)
    (hfirst : node.child 0 = some first)
    (hitems : build (some node) first depth strict node.kind s = .ok (items, s')) :
    StatementStep (some items) s'
  /-- The statement stays. -/
  | kept (hunwrapped : isUnwrapped s.querySource up node strict = false) : StatementStep none s

/-- The steps of one round of the default loop. -/
inductive ChildStep (anchoring : Bool) (child : Node) : List Item → QueryBuilder → Prop
  /-- A child with a field. -/
  | field {field : String} {items : List Item} {s' : QueryBuilder}
    (hfield : child.field = some field)
    (hitems : build (some node) child (depth + 1) strict field s = .ok (items, s')) :
    ChildStep anchoring child
      (if field == "declarator" && node.kind == "function_definition" then
        [.fieldName field, .group [.alternation [.node "_" items, .group items]]]
      else .fieldName field :: items) s'
  /-- A variadic wildcard among arguments. -/
  | skipped (hfield : child.field = none) (hnamed : child.isNamed = true)
    (hskipped : isSkipped s.querySource node child = true) :
    ChildStep anchoring child [] s
  /-- Any other named child. -/
  | named {items : List Item} {s' : QueryBuilder} (hfield : child.field = none)
    (hnamed : child.isNamed = true) (hskipped : isSkipped s.querySource node child = false)
    (hitems : build (some node) child (depth + 1) strict node.kind s = .ok (items, s')) :
    ChildStep anchoring child (if anchoring then .anchor :: items else items) s'
  /-- A keyword is captured. -/
  | keyword {items : List Item} {s' : QueryBuilder} (hfield : child.field = none)
    (htoken : child.isNamed = false) (hkeyword : isKeyword child.kind = true)
    (hitems : build (some node) child (depth + 1) strict node.kind s = .ok (items, s')) :
    ChildStep anchoring child (items ++ [captureItem (toString s'.captures.length)])
      (s'.push .display)
  /-- Any other token is left out. -/
  | silent {items : List Item} {s' : QueryBuilder} (hfield : child.field = none)
    (htoken : child.isNamed = false) (hkeyword : isKeyword child.kind = false)
    (hitems : build (some node) child (depth + 1) strict node.kind s = .ok (items, s')) :
    ChildStep anchoring child [] s'

/-- The rounds of the default loop, one for each child. -/
inductive ChildrenStep (anchoring : Bool) :
    QueryBuilder → List Node → List Item → QueryBuilder → Prop
  /-- No child is left. -/
  | nil (s : QueryBuilder) : ChildrenStep anchoring s [] [] s
  /-- One round, and the rest of the loop. -/
  | cons {child : Node} {children : List Node} {items rest : List Item} {s s₁ s₂ : QueryBuilder}
    (hchild : ChildStep build node depth strict s anchoring child items s₁)
    (hrest : ChildrenStep anchoring s₁ children rest s₂) :
    ChildrenStep anchoring s (child :: children) (items ++ rest) s₂

/-- The number of variadic wildcards among arguments. -/
def variadicCount : ℕ :=
  if node.kind == "argument_list" then node.children.countP (isVariadic s.querySource) else 0

/-- The steps of the default case. -/
inductive DefaultStep : List Item → QueryBuilder → Prop
  /-- A node without children. -/
  | leaf (hempty : node.children = []) : DefaultStep [.node node.kind []] s
  /-- The arguments are counted. -/
  | counted {items : List Item} {s' : QueryBuilder} (hne : node.children ≠ [])
    (hkind : node.kind = "argument_list")
    (hitems : ChildrenStep build node depth strict (isAnchored s.querySource node) s node.children
      items s') :
    DefaultStep [.node node.kind items, captureItem (toString s'.captures.length)]
      (s'.push (.callExpQuery (node.namedChildCount - variadicCount node s)
        (0 < variadicCount node s)))
  /-- Any other node. -/
  | copied {items : List Item} {s' : QueryBuilder} (hother : node.kind ≠ "argument_list")
    (hitems : ChildrenStep build node depth strict (isAnchored s.querySource node) s node.children
      items s') :
    DefaultStep [.node node.kind items] s'

end Steps

section Tests

variable {source : String} {node first op child : Node}

/-- The test for a plain assignment to a name succeeds. -/
theorem isPlain (hfirst : node.child 0 = some first) (hop : node.child 1 = some op)
    (h : op.kind = "=" ∧ first.kind = "identifier") :
    ((node.child 1).any (·.kind == "=") && (node.child 0).any (·.kind == "identifier")) =
      true := by
  rw [hop, hfirst]
  simpa using h

/-- The test for a plain assignment to a name fails. -/
theorem not_isPlain (hfirst : node.child 0 = some first) (hop : node.child 1 = some op)
    (h : op.kind ≠ "=" ∨ first.kind ≠ "identifier") :
    ¬((node.child 1).any (·.kind == "=") && (node.child 0).any (·.kind == "identifier")) =
      true := by
  rw [hop, hfirst]
  simpa [← not_and_or] using h

/-- Tokens are never left out as variadic wildcards. -/
theorem not_isSkipped (htoken : child.isNamed = false) : isSkipped source node child = false := by
  rw [isSkipped, isVariadic, htoken, Bool.false_and, Bool.false_and, Bool.and_false]

end Tests

section Elementary

variable {allowed : BuildError → Prop} {s : QueryBuilder}

/-- Unwrapping returns the value and changes nothing. -/
theorem ensures_unwrap {α : Type} (hpanic : allowed .panic) (a : Option α) :
    Ensures allowed (unwrap a) s fun value next => a = some value ∧ next = s := by
  cases a with
  | none => exact hpanic
  | some value => exact ⟨rfl, rfl⟩

/-- The text of a node in the pattern. -/
theorem ensures_getText (node : Node) :
    Ensures allowed (getText node) s fun text next =>
      text = slice s.querySource node.range ∧ next = s := ⟨rfl, rfl⟩

/-- A capture is added and named by its number. -/
theorem ensures_addCapture (capture : Capture) :
    Ensures allowed (addCapture capture) s fun name next =>
      name = toString s.captures.length ∧ next = s.push capture := ⟨rfl, rfl⟩

/-- Calls of the function `_` are recognised. -/
theorem ensures_isSubexprWildcard (hpanic : allowed .panic) (node : Node) :
    Ensures allowed (isSubexprWildcard node) s fun found next =>
      found = isWildcardCall s.querySource node ∧ next = s := by
  unfold isSubexprWildcard isWildcardCall
  by_cases hkind : node.kind = "call_expression"
  · simp only [hkind, bne_self_eq_false, Bool.false_eq_true, if_false, beq_self_eq_true,
      Bool.true_and]
    refine ensures_bind (ensures_unwrap hpanic _) ?_
    rintro f s ⟨hf, rfl⟩
    refine ensures_bind (ensures_getText f) ?_
    rintro text s ⟨rfl, rfl⟩
    rw [hf]
    exact ⟨rfl, rfl⟩
  · have hbeq : (node.kind == "call_expression") = false := beq_eq_false_iff_ne.mpr hkind
    simp only [bne, hbeq, Bool.not_false, if_true, Bool.false_and]
    exact ⟨rfl, rfl⟩

/-- Which expressions may be taken out of their statements. -/
theorem ensures_isGreedy (hpanic : allowed .panic) (child : Node) (strict : Bool) :
    Ensures allowed (isGreedy child strict) s fun greedy next =>
      greedy = (!strict || isWildcardCall s.querySource child) ∧ next = s := by
  cases strict with
  | true => exact ensures_isSubexprWildcard hpanic child
  | false => exact ⟨rfl, rfl⟩

/-- Which labels are special. -/
theorem ensures_hasMagicLabel (hpanic : allowed .panic) (up : Node) :
    Ensures allowed (hasMagicLabel up) s fun labelled next =>
      labelled = (up.kind != "labeled_statement" ||
        (label s.querySource up == some "NOT" || label s.querySource up == some "STRICT")) ∧
        next = s := by
  unfold hasMagicLabel
  by_cases hkind : up.kind = "labeled_statement"
  · have hbeq : (up.kind == "labeled_statement") = true := beq_iff_eq.mpr hkind
    rw [if_pos hbeq]
    refine ensures_bind (ensures_unwrap hpanic _) ?_
    rintro first s ⟨hfirst, rfl⟩
    refine ensures_bind (ensures_getText first) ?_
    rintro text s ⟨rfl, rfl⟩
    refine ⟨?_, rfl⟩
    rw [bne, hbeq, label, hfirst, Option.map_some]
    rfl
  · have hbeq : (up.kind == "labeled_statement") = false := beq_eq_false_iff_ne.mpr hkind
    rw [if_neg (Bool.eq_false_iff.mp hbeq), bne, hbeq]
    exact ⟨rfl, rfl⟩

/-- Which statements are replaced by their expressions. -/
theorem ensures_shouldUnwrap (hpanic : allowed .panic) (child up : Node) (strict : Bool) :
    Ensures allowed (shouldUnwrap child up strict) s fun found next =>
      found = ((!strict || isWildcardCall s.querySource child) &&
        (up.kind != "labeled_statement" ||
          (label s.querySource up == some "NOT" || label s.querySource up == some "STRICT")) &&
        slice s.querySource child.range != "_") ∧ next = s := by
  unfold shouldUnwrap
  refine ensures_bind (ensures_isGreedy hpanic child strict) ?_
  rintro greedy s ⟨rfl, rfl⟩
  refine ensures_bind (ensures_hasMagicLabel hpanic up) ?_
  rintro labelled s ⟨rfl, rfl⟩
  refine ensures_bind (ensures_getText child) ?_
  rintro text s ⟨rfl, rfl⟩
  exact ⟨rfl, rfl⟩

end Elementary

section Leaves

variable {allowed : BuildError → Prop} {s : QueryBuilder}

/-- A name. -/
theorem steps_buildIdentifier (node : Node) (parent : String) :
    Ensures allowed (buildIdentifier node parent) s (IdentifierStep node parent s) := by
  unfold buildIdentifier
  refine ensures_bind (ensures_getText node) ?_
  rintro text s ⟨rfl, rfl⟩
  by_cases htext : slice s.querySource node.range = "_"
  · rw [if_pos (beq_iff_eq.mpr htext)]
    exact ensures_pure (.anything htext)
  · rw [if_neg (by simpa using htext)]
    refine ensures_get ?_
    refine ensures_bind (ensures_addCapture _) ?_
    rintro name next ⟨rfl, rfl⟩
    refine ensures_pure ?_
    by_cases hvariable : startsWith (slice s.querySource node.range) '$' = true
    · rw [if_pos hvariable]
      exact .held htext hvariable
    · rw [if_neg hvariable]
      exact .constant htext (Bool.eq_false_iff.mpr hvariable)

/-- A number. -/
theorem steps_buildNumber (node : Node) :
    Ensures allowed (buildNumber node) s (NumberStep node s) := by
  unfold buildNumber
  refine ensures_bind (ensures_getText node) ?_
  rintro text s ⟨rfl, rfl⟩
  refine ensures_bind (ensures_addCapture _) ?_
  rintro name next ⟨rfl, rfl⟩
  refine ensures_pure ?_
  cases hvalue : parseNumberLiteral (slice s.querySource node.range) with
  | some value => exact .value hvalue
  | none => exact .text hvalue

/-- A string. -/
theorem steps_buildString (hpanic : allowed .panic) (node : Node) :
    Ensures allowed (buildString node) s (StringStep node s) := by
  unfold buildString
  refine ensures_bind (ensures_getText node) ?_
  rintro pattern s ⟨rfl, rfl⟩
  refine ensures_bind (ensures_unwrap hpanic _) ?_
  rintro text s ⟨htext, rfl⟩
  by_cases hvariable : startsWith text '$' = true
  · rw [if_pos hvariable]
    refine ensures_get ?_
    refine ensures_bind (ensures_addCapture _) ?_
    rintro name next ⟨rfl, rfl⟩
    exact ensures_pure (.held htext hvariable)
  · rw [if_neg hvariable]
    exact ensures_pure (.other htext (Bool.eq_false_iff.mpr hvariable))

end Leaves

section Recursive

variable {allowed : BuildError → Prop} {build : BuildFn} {queryTree : TreeFn} {up : Option Node}
  {node : Node} {depth : ℕ} {strict : Bool} {parent : String} {s : QueryBuilder}

/-- A call on a smaller node. -/
theorem ensures_part (h : AllowsParts allowed build node) {child : Node}
    (hheight : child.height < node.height) :
    Ensures allowed (build up child depth strict parent) s fun items next =>
      build up child depth strict parent s = .ok (items, next) :=
  ensures_self fun _ hrun => h.part hheight hrun

/-- A query for a node. -/
theorem ensures_query (h : AllowsQueries allowed queryTree node) {inner : Node}
    {multiPattern : Bool}
    (hheight : inner.height < (if multiPattern then node.height + 1 else node.height)) (id : ℕ) :
    Ensures allowed (queryTree up inner id multiPattern strict) s fun tree next =>
      queryTree up inner id multiPattern strict s = .ok (tree, next) :=
  ensures_self fun error hrun => h up inner id multiPattern strict s error hheight hrun

/-- An expression in both orders. -/
theorem steps_buildBinary (h : AllowsParts allowed build node) :
    Ensures allowed (buildBinary build node depth strict) s
      (BinaryStep build node depth strict s) := by
  unfold buildBinary
  refine ensures_bind (ensures_unwrap h.panic _) ?_
  rintro first s ⟨hfirst, rfl⟩
  refine ensures_bind (ensures_part h (height_lt_of_mem (child_mem hfirst))) ?_
  intro left s₁ hleft
  refine ensures_bind (ensures_unwrap h.panic _) ?_
  rintro op s₁ ⟨hop, rfl⟩
  refine ensures_bind (ensures_unwrap h.panic _) ?_
  rintro second s₁ ⟨hsecond, rfl⟩
  refine ensures_bind (ensures_part h (height_lt_of_mem (child_mem hsecond))) ?_
  intro right s₂ hright
  exact ensures_pure (.operands hfirst hleft hop hsecond hright)

/-- A labelled statement. -/
theorem steps_buildLabeled (h : AllowsParts allowed build node)
    (hqueries : AllowsQueries allowed queryTree node) :
    Ensures allowed (buildLabeled build queryTree node depth) s
      (LabeledStep build queryTree node depth s) := by
  unfold buildLabeled
  refine ensures_bind (ensures_unwrap h.panic _) ?_
  rintro first s ⟨hfirst, rfl⟩
  refine ensures_bind (ensures_getText first) ?_
  rintro text s ⟨rfl, rfl⟩
  have hlabel : label s.querySource node =
      some (toUppercase (slice s.querySource first.range)) := by
    rw [label, hfirst, Option.map_some]
  generalize toUppercase (slice s.querySource first.range) = text at hlabel ⊢
  by_cases hnot : text = "NOT"
  · subst hnot
    rw [if_pos (beq_self_eq_true _)]
    unfold buildNegativeQuery
    refine ensures_bind (ensures_bind (ensures_unwrap h.panic _) ?_) fun _ _ hstep => hstep
    rintro negated s ⟨hnegated, rfl⟩
    refine ensures_get (ensures_modify (ensures_get ?_))
    refine ensures_bind (ensures_query hqueries (height_lt_of_mem (child_mem hnegated)) _) ?_
    intro tree s' htree
    exact .negative hlabel hnegated htree
  rw [if_neg (by simpa using hnot)]
  by_cases hstrict : text = "STRICT"
  · subst hstrict
    rw [if_pos (beq_self_eq_true _)]
    cases hchild : node.namedChild 1 with
    | none => exact ensures_pure (.empty hlabel hchild)
    | some child =>
      refine ensures_bind (ensures_part h (height_lt_of_mem (namedChild_mem hchild))) ?_
      intro items s' hitems
      exact ensures_pure (.passed hlabel hchild hitems)
  · rw [if_neg (by simpa using hstrict)]
    exact ensures_pure (.other hlabel hnot hstrict)

/-- A block. -/
theorem steps_buildCompound (h : AllowsQueries allowed queryTree node) :
    Ensures allowed (buildCompound queryTree up node) s (CompoundStep queryTree up node s) := by
  unfold buildCompound
  refine ensures_modify (ensures_get ?_)
  refine ensures_bind (ensures_query h (Nat.lt_succ_self _) _) ?_
  intro tree s' htree
  refine ensures_bind (ensures_addCapture _) ?_
  rintro name next ⟨rfl, rfl⟩
  exact ensures_pure (.opened htree)

/-- An assignment. -/
theorem steps_buildAssignment (h : AllowsParts allowed build node) :
    Ensures allowed (buildAssignment build node depth strict) s
      (AssignmentStep build node depth strict s) := by
  unfold buildAssignment
  refine ensures_bind (ensures_unwrap h.panic _) ?_
  rintro first s ⟨hfirst, rfl⟩
  refine ensures_bind (ensures_part h (height_lt_of_mem (child_mem hfirst))) ?_
  intro left s₁ hleft
  refine ensures_bind (ensures_unwrap h.panic _) ?_
  rintro op s₁ ⟨hop, rfl⟩
  by_cases hother : (op.kind != "=" || first.kind != "identifier") = true
  · rw [if_pos hother]
    refine ensures_bind (ensures_part h (height_lt_of_mem (child_mem hop))) ?_
    intro operator s₂ hoperator
    refine ensures_bind (ensures_unwrap h.panic _) ?_
    rintro second s₂ ⟨hsecond, rfl⟩
    refine ensures_bind (ensures_part h (height_lt_of_mem (child_mem hsecond))) ?_
    intro right s₃ hright
    exact ensures_pure
      (.other hfirst hleft hop (by simpa using hother) hoperator hsecond hright)
  · rw [if_neg hother]
    refine ensures_bind (ensures_unwrap h.panic _) ?_
    rintro second s₁ ⟨hsecond, rfl⟩
    refine ensures_bind (ensures_part h (height_lt_of_mem (child_mem hsecond))) ?_
    intro right s₂ hright
    exact ensures_pure (.plain hfirst hleft hop (by simpa using hother) hsecond hright)

/-- The cursor on the argument of a wildcard call stays below the call. -/
theorem height_wildcardArgument {arguments : Node} (hmem : arguments ∈ node.children) :
    (wildcardArgument node arguments).2.1.height < node.height := by
  have harguments := height_lt_of_mem hmem
  unfold wildcardArgument
  split
  · exact harguments
  · rename_i only hchildren
    have honly : only ∈ arguments.children := by simp [hchildren]
    exact (height_lt_of_mem honly).trans harguments
  · rename_i first argument rest hchildren
    have hargument : argument ∈ arguments.children := by simp [hchildren]
    exact (height_lt_of_mem hargument).trans harguments

/-- A call. -/
theorem steps_buildCallExpr (h : AllowsParts allowed build node)
    (hqueries : AllowsQueries allowed queryTree node) :
    Ensures allowed (buildCallExpr build queryTree node depth strict parent) s
      (CallStep build queryTree node depth strict parent s) := by
  unfold buildCallExpr
  refine ensures_bind (ensures_isSubexprWildcard h.panic node) ?_
  rintro found s ⟨rfl, rfl⟩
  by_cases hwildcard : isWildcardCall s.querySource node = true
  · rw [if_pos hwildcard]
    refine ensures_bind (ensures_unwrap h.panic _) ?_
    rintro arguments s ⟨harguments, rfl⟩
    rcases hcursor : wildcardArgument node arguments with ⟨above, argument, rest⟩
    have hheight : argument.height < node.height := by
      have hbelow := height_wildcardArgument (childByFieldName_mem harguments)
      rwa [hcursor] at hbelow
    dsimp only
    by_cases hmany : 2 ≤ rest.length
    · rw [if_pos hmany]
      exact ensures_pure (.several hwildcard harguments hcursor hmany)
    rw [if_neg hmany]
    by_cases hdepth : depth = 0
    · rw [if_pos hdepth]
      refine ensures_bind (ensures_part h hheight) ?_
      intro items s' hitems
      exact ensures_pure (.wrapped hwildcard harguments hcursor hmany hdepth hitems)
    · rw [if_neg hdepth]
      refine ensures_modify (ensures_get ?_)
      refine ensures_bind (ensures_query hqueries hheight _) ?_
      intro tree s' htree
      refine ensures_bind (ensures_addCapture _) ?_
      rintro name next ⟨rfl, rfl⟩
      exact ensures_pure (.within hwildcard harguments hcursor hmany hdepth htree)
  · rw [if_neg hwildcard]
    refine ensures_bind (ensures_unwrap h.panic _) ?_
    rintro function s ⟨hfunction, rfl⟩
    refine ensures_bind (ensures_unwrap h.panic _) ?_
    rintro arguments s ⟨harguments, rfl⟩
    by_cases hidentifier : (function.kind == "identifier") = true
    · rw [bne, hidentifier, if_neg (by decide)]
      refine ensures_bind (ensures_getText function) ?_
      rintro text s ⟨rfl, rfl⟩
      by_cases hvariable : startsWith (slice s.querySource function.range) '$' = true
      · rw [if_pos hvariable]
        exact ensures_pure (.nameless hwildcard hfunction harguments (by simp [hvariable]))
      · rw [if_neg hvariable]
        refine ensures_bind (ensures_addCapture _) ?_
        rintro name next ⟨rfl, rfl⟩
        refine ensures_bind
          (ensures_part h (height_lt_of_mem (childByFieldName_mem harguments))) ?_
        intro items s' hitems
        exact ensures_pure
          (.named hwildcard hfunction harguments (by simp [hidentifier, hvariable]) hitems)
    · rw [bne, Bool.eq_false_iff.mpr hidentifier, if_pos (by decide)]
      exact ensures_pure (.nameless hwildcard hfunction harguments (by simp [hidentifier]))

/-- An expression statement. -/
theorem steps_buildExpressionStatement (h : AllowsParts allowed build node) :
    Ensures allowed (buildExpressionStatement build up node depth strict) s
      (StatementStep build up node depth strict s) := by
  unfold buildExpressionStatement
  cases hchild : node.namedChild 0 with
  | none => exact ensures_pure (.kept (by rw [isUnwrapped, hchild, Option.any_none]))
  | some child =>
    cases up with
    | none =>
      have hkept : isUnwrapped s.querySource none node strict = false := by
        rw [isUnwrapped, hchild, Option.any_some, Option.any_none]
      exact ensures_pure (.kept hkept)
    | some p =>
      have hunwrapped : isUnwrapped s.querySource (some p) node strict =
          (["compound_statement", "labeled_statement", "translation_unit"].contains p.kind &&
            ((!strict || isWildcardCall s.querySource child) &&
              (p.kind != "labeled_statement" ||
                (label s.querySource p == some "NOT" || label s.querySource p == some "STRICT")) &&
              slice s.querySource child.range != "_")) := by
        rw [isUnwrapped, hchild, Option.any_some, Option.any_some]
      dsimp only
      by_cases hkind : ["compound_statement", "labeled_statement", "translation_unit"].contains
          p.kind = true
      · rw [if_pos hkind]
        rw [hkind, Bool.true_and] at hunwrapped
        refine ensures_bind (ensures_shouldUnwrap h.panic child p strict) ?_
        rintro found s ⟨rfl, rfl⟩
        rw [← hunwrapped]
        by_cases hreplaced : isUnwrapped s.querySource (some p) node strict = true
        · rw [if_pos hreplaced]
          refine ensures_bind (ensures_unwrap h.panic _) ?_
          rintro first s ⟨hfirst, rfl⟩
          refine ensures_bind (ensures_part h (height_lt_of_mem (child_mem hfirst))) ?_
          intro items s' hitems
          exact ensures_pure (.replaced hreplaced hfirst hitems)
        · rw [if_neg hreplaced]
          exact ensures_pure (.kept (Bool.eq_false_iff.mpr hreplaced))
      · rw [if_neg hkind]
        rw [Bool.eq_false_iff.mpr hkind, Bool.false_and] at hunwrapped
        exact ensures_pure (.kept hunwrapped)

/-- One round of the default loop. -/
theorem steps_buildChild (h : AllowsParts allowed build node) {child : Node}
    (hchild : child ∈ node.children) (anchoring : Bool) :
    Ensures allowed (buildChild build node anchoring depth strict child) s
      (ChildStep build node depth strict s anchoring child) := by
  have hheight := height_lt_of_mem hchild
  unfold buildChild
  cases hfield : child.field with
  | some field =>
    refine ensures_bind (ensures_part h hheight) ?_
    intro items s' hitems
    have hstep : ChildStep build node depth strict s anchoring child _ s' := .field hfield hitems
    split_ifs at hstep ⊢
    · exact ensures_pure hstep
    · exact ensures_pure hstep
  | none =>
    have hskip : isSkipped s.querySource node child =
        (node.kind == "argument_list" && isVariadic s.querySource child) := by
      rw [isSkipped, hfield, Option.isNone_none, Bool.true_and]
    by_cases hnamed : child.isNamed = true
    · simp only [hnamed, if_true]
      refine ensures_get ?_
      rw [← hskip]
      by_cases hskipped : isSkipped s.querySource node child = true
      · rw [if_pos hskipped]
        exact ensures_pure (.skipped hfield hnamed hskipped)
      · rw [if_neg hskipped]
        refine ensures_bind (ensures_part h hheight) ?_
        intro items s' hitems
        exact ensures_pure (.named hfield hnamed (Bool.eq_false_iff.mpr hskipped) hitems)
    · have htoken : child.isNamed = false := Bool.eq_false_iff.mpr hnamed
      simp only [htoken, Bool.false_eq_true, if_false]
      refine ensures_bind (ensures_part h hheight) ?_
      intro items s' hitems
      by_cases hkeyword : isKeyword child.kind = true
      · rw [if_pos hkeyword]
        refine ensures_bind (ensures_addCapture _) ?_
        rintro name next ⟨rfl, rfl⟩
        exact ensures_pure (.keyword hfield htoken hkeyword hitems)
      · rw [if_neg hkeyword]
        exact ensures_pure (.silent hfield htoken (Bool.eq_false_iff.mpr hkeyword) hitems)

/-- The default loop. -/
theorem steps_buildChildren (h : AllowsParts allowed build node) (anchoring : Bool)
    {children : List Node} (hchildren : children ⊆ node.children) :
    Ensures allowed (buildChildren build node anchoring depth strict children) s
      (ChildrenStep build node depth strict anchoring s children) := by
  induction children generalizing s with
  | nil => exact ensures_pure (.nil s)
  | cons child children ih =>
    obtain ⟨hchild, hrest⟩ := List.cons_subset.mp hchildren
    rw [buildChildren]
    refine ensures_bind (steps_buildChild h hchild anchoring) ?_
    intro items s₁ hfirst
    refine ensures_bind (ih hrest) ?_
    intro rest s₂ hsecond
    exact ensures_pure (.cons hfirst hsecond)

/-- The default case. -/
theorem steps_buildDefault (h : AllowsParts allowed build node) :
    Ensures allowed (buildDefault build node depth strict) s
      (DefaultStep build node depth strict s) := by
  unfold buildDefault
  refine ensures_get ?_
  have hanchored : (node.kind == "argument_list" && decide (1 < node.namedChildCount) &&
      variadicCount node s == 0) = isAnchored s.querySource node := by
    rw [isAnchored, variadicCount]
    by_cases hkind : (node.kind == "argument_list") = true
    · rw [if_pos hkind]
    · simp only [Bool.eq_false_iff.mpr hkind, Bool.false_and]
  rw [variadicCount] at hanchored
  simp only [hanchored]
  by_cases hempty : node.children = []
  · simp only [hempty, List.isEmpty_nil, if_true]
    exact ensures_pure (.leaf hempty)
  · have hnonempty : node.children.isEmpty = false := by simpa using hempty
    simp only [hnonempty, Bool.false_eq_true, if_false]
    refine ensures_bind (steps_buildChildren h _ (List.Subset.refl _)) ?_
    intro items s' hitems
    by_cases hkind : (node.kind == "argument_list") = true
    · rw [if_pos hkind]
      refine ensures_bind (ensures_addCapture _) ?_
      rintro name next ⟨rfl, rfl⟩
      exact ensures_pure (.counted hempty (beq_iff_eq.mp hkind) hitems)
    · rw [if_neg hkind]
      exact ensures_pure (.copied (by simpa using hkind) hitems)

end Recursive

end WeggliEnhance.BuilderSteps
