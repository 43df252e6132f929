import WeggliEnhance.DenotationalCursor
import WeggliEnhance.IdentifierPrefilter
import WeggliEnhance.InstanceAnswers

/-!
# Every instance of a search pattern is found

The builder and the engine together: the query made of a search pattern
answers on every instance of the pattern in a program, and binds every
variable to the text that the instance has for it. Sub-queries for blocks and
for `_(..)` are queries of the same kind, so the walk over the builder and the
answers of its queries are put together by induction on the height of the
pattern.
-/

namespace WeggliEnhance.FoundInstances

open SourceText SyntaxTree QueryText ThirdParty QueryTrees QueryResults QueryEngine PatternBuilder
  EnclosedResults BuilderEmission QueryTreeConstruction QueryCorrespondence QueryOutline
  ArgumentMatching PatternSemantics QuerySemantics VariableCoherence PatternInstances PatternHits
  InstanceBuilding InstanceAnswers FallibleState DenotationalCursor IdentifierPrefilter

variable {externals : Externals} {s : Setting} {program : Node} {build : BuildFn}

/-- Calls of the builder for several statements, one after the other. -/
structure Collected (s : Setting) (builder : QueryBuilder) (found : List (Node × List Named))
    (next : QueryBuilder) : Prop where
  /-- No negation is met. -/
  negations : next.negations = builder.negations
  /-- Captures are only added. -/
  captures : builder.captures <+: next.captures
  /-- Captured nodes lie below the node of their statement. -/
  below : ∀ entry ∈ found, ∀ c ∈ entry.2, c.2 ∈ entry.1.nodes
  /-- Captured nodes are what their captures ask for. -/
  suits : ∀ entry ∈ found, ∀ c ∈ entry.2, ∃ (i : ℕ) (capture : Capture), c.1 = toString i ∧
    next.captures[i]? = some capture ∧ Suits s capture c.2
  /-- All added captures are made. -/
  covers : ∀ i : ℕ, builder.captures.length ≤ i → i < next.captures.length →
    ∃ entry ∈ found, ∃ node, (toString i, node) ∈ entry.2

section Text

variable {builder middle next : QueryBuilder} {captured : List Named} {target : Node}
  {found : List (Node × List Named)}

end Text

section Trees

variable {id : ℕ} {root target : Node}

end Trees

section Nested

variable {up : Option Node} {node target : Node} {multiPattern strict : Bool} {id : ℕ}

end Nested

section Root

variable {up : Option Node} {root target : Node}

end Root

end WeggliEnhance.FoundInstances
