import WeggliEnhance.BuilderSpecification
import WeggliEnhance.PatternHits

/-!
# The text for a pattern matches its instances

Whatever `build` writes for a node of a search pattern matches every instance
of the node, all captures allocated by the call are made, and the captured
nodes pass the checks attached to the captures. Each rule is read off the
steps of one helper of the source. How sub-queries are answered is a
parameter.
-/

namespace WeggliEnhance.InstanceBuilding

open SourceText SyntaxTree QueryText ThirdParty QueryTrees PatternBuilder
  PatternNesting BuilderSteps BuilderSpecification QueryOutline ArgumentMatching PatternSemantics
  PatternInstances PatternHits FallibleState

/-- What the instances of a pattern are taken in. -/
structure Setting where
  /-- Text of the search pattern. -/
  query : String
  /-- Text of the program. -/
  source : String
  /-- The texts of the variables. -/
  values : String → String
  /-- The order of statements. -/
  before : Node → Node → Prop
  /-- Constraints on variables. -/
  constraints : RegexMap
  /-- The sub-query has an answer on the node. -/
  delivers : QueryTree → Node → Prop

/-- Instances in a setting. -/
abbrev Setting.Instance (s : Setting) : Place → Node → Node → Prop :=
  PatternInstances.Instance s.query s.source s.values s.before

/-- Instances of all statements in a setting. -/
abbrev Setting.Instances (s : Setting) : Node → List Node → List Node → Prop :=
  PatternInstances.Instances s.query s.source s.values s.before

variable {s : Setting}

/-- A captured node is what its capture asks for. -/
def Suits (s : Setting) (capture : Capture) (node : Node) : Prop :=
  match capture with
  | .display => True
  | .variable name constraint =>
    constraint = s.constraints.lookup name ∧ slice s.source node.range = s.values name
  | .check text => slice s.source node.range = text
  | .number value => parseNumberLiteral (slice s.source node.range) = some value
  | .callExpQuery count minimum =>
    if minimum then count ≤ node.namedChildCount else node.namedChildCount = count
  | .subWildQuery tree => s.delivers tree node
  | .subMultiQuery tree => s.delivers tree node

/-- A call of the builder whose captures are made below a node. -/
structure Grown (s : Setting) (builder : QueryBuilder) (captured : List Named) (target : Node)
    (next : QueryBuilder) : Prop where
  /-- The pattern text stays. -/
  querySource : next.querySource = builder.querySource
  /-- The constraints stay. -/
  regexConstraints : next.regexConstraints = builder.regexConstraints
  /-- No negation is met. -/
  negations : next.negations = builder.negations
  /-- Captures are only added. -/
  captures : builder.captures <+: next.captures
  /-- Captured nodes are what their captures ask for. -/
  suits : ∀ c ∈ captured, ∃ (i : ℕ) (capture : Capture), c.1 = toString i ∧
    next.captures[i]? = some capture ∧ Suits s capture c.2
  /-- Captured nodes lie below the node. -/
  below : ∀ c ∈ captured, c.2 ∈ target.nodes
  /-- All added captures are made. -/
  covers : ∀ i : ℕ, builder.captures.length ≤ i → i < next.captures.length →
    ∃ node, (toString i, node) ∈ captured

section Growth

variable {builder middle next : QueryBuilder} {captured captured' : List Named} {target : Node}

/-- Nothing is added. -/
theorem grown_refl (builder : QueryBuilder) (target : Node) :
    Grown s builder [] target builder where
  querySource := rfl
  regexConstraints := rfl
  negations := rfl
  captures := List.prefix_refl _
  suits := List.forall_mem_nil _
  below := List.forall_mem_nil _
  covers i hle hlt := by omega

/-- What a capture holds does not change when captures are added. -/
theorem getElem?_of_prefix {captures more : List Capture} (h : captures <+: more) {i : ℕ}
    {capture : Capture} (hget : captures[i]? = some capture) : more[i]? = some capture := by
  obtain ⟨extra, rfl⟩ := h
  have hlt := (List.getElem?_eq_some_iff.mp hget).1
  rw [List.getElem?_append_left hlt, hget]

/-- One call after the other. -/
theorem grown_trans (first : Grown s builder captured target middle)
    (second : Grown s middle captured' target next) :
    Grown s builder (captured ++ captured') target next where
  querySource := second.querySource.trans first.querySource
  regexConstraints := second.regexConstraints.trans first.regexConstraints
  negations := second.negations.trans first.negations
  captures := first.captures.trans second.captures
  suits := by
    refine List.forall_mem_append.mpr ⟨?_, second.suits⟩
    intro c hc
    obtain ⟨i, capture, hname, hget, hsuits⟩ := first.suits c hc
    exact ⟨i, capture, hname, getElem?_of_prefix second.captures hget, hsuits⟩
  below := List.forall_mem_append.mpr ⟨first.below, second.below⟩
  covers i hle hlt := by
    by_cases hmiddle : i < middle.captures.length
    · obtain ⟨node, hnode⟩ := first.covers i hle hmiddle
      exact ⟨node, List.mem_append_left _ hnode⟩
    · obtain ⟨node, hnode⟩ := second.covers i (by omega) hlt
      exact ⟨node, List.mem_append_right _ hnode⟩

/-- Giving out an id changes nothing else. -/
theorem grown_id {id : ℕ} (h : Grown s { builder with id := id } captured target next) :
    Grown s builder captured target next :=
  ⟨h.querySource, h.regexConstraints, h.negations, h.captures, h.suits, h.below, h.covers⟩

/-- Adding a capture for a node. -/
theorem grown_push (builder : QueryBuilder) {capture : Capture} {node : Node}
    (hsuits : Suits s capture node) (hnode : node ∈ target.nodes) :
    Grown s builder [(toString builder.captures.length, node)] target (builder.push capture) where
  querySource := rfl
  regexConstraints := rfl
  negations := rfl
  captures := List.prefix_append _ _
  suits := by
    intro c hc
    rw [List.mem_singleton.mp hc]
    exact ⟨_, capture, rfl, List.getElem?_concat_length, hsuits⟩
  below := by
    intro c hc
    rw [List.mem_singleton.mp hc]
    exact hnode
  covers i hle hlt := by
    rw [QueryBuilder.push, List.length_append, List.length_singleton] at hlt
    obtain rfl : i = builder.captures.length := by omega
    exact ⟨node, List.mem_singleton_self _⟩

end Growth

/-- A builder works on the pattern of the setting. -/
structure Fits (s : Setting) (builder : QueryBuilder) : Prop where
  /-- The text of the pattern. -/
  querySource : builder.querySource = s.query
  /-- The constraints. -/
  regexConstraints : builder.regexConstraints = s.constraints

section Leaves

variable {node target : Node}

/-- The text for a name is a pattern. -/
theorem isPattern_identifierItem (kind text parent : String) :
    Item.isPattern (identifierItem kind text parent) = true := by
  unfold identifierItem
  split_ifs <;> rfl

end Leaves

section Recursive

variable {build : BuildFn} {queryTree : TreeFn} {place : Place} {node target : Node}

section Cursor

variable {up arguments argument : Node} {rest : List Node}

end Cursor

section Dispatch

variable {up : Option Node} {depth : ℕ} {strict : Bool} {parent : String}

end Dispatch

end Recursive

end WeggliEnhance.InstanceBuilding
