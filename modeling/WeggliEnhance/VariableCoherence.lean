import WeggliEnhance.CaptureNumbering
import WeggliEnhance.MatchCaptures
import WeggliEnhance.QueryIds

/-!
# Coherence of variables

Three mechanisms bind variables: equality predicates inside one pattern, the
last binding inside one match, and merging across patterns and sub-queries.
Together they bind every variable of a query and of its sub-queries, and give
all occurrences of a variable the same text.
-/

namespace WeggliEnhance.VariableCoherence

open SourceText SyntaxTree QueryText ThirdParty QueryTrees QueryResults QueryEngine PartialJoin
  CompoundJoin EngineInvariant MatchCaptures PatternBuilder BuilderEmission CaptureNumbering
  QueryTreeConstruction FallibleState QueryIds

/-- A variable occurs in the query or in one of its sub-queries. -/
def Binds (tree : QueryTree) (name : String) : Prop :=
  ∃ t ∈ tree.positives, ∃ constraint, .variable name constraint ∈ t.captures

/-- Every capture was made by one of the trees, and where it stands for a
variable it covers the text the variable is bound to. -/
def TextsAgree (source : String) (trees : List QueryTree) (result : QueryResult) : Prop :=
  ∀ c ∈ result.captures, ∃ t ∈ trees, t.id = c.queryId ∧
    ∀ name constraint, t.captures[c.captureIdx]? = some (.variable name constraint) →
      result.value name source = some (slice source c.range)

/-- A result that binds all variables of its query coherently. -/
structure Coherent (source : String) (tree : QueryTree) (result : QueryResult) : Prop where
  /-- Exactly the variables of the query are bound. -/
  domain : ∀ name, name ∈ result.vars ↔ Binds tree name
  /-- Occurrences of a variable have its text. -/
  texts : TextsAgree source tree.positives result

section Append

variable {source : String} {trees : List QueryTree}

end Append

section Match

variable {externals : Externals} {source : String} {constraints : RegexMap} {tree : QueryTree}

end Match

section Tree

variable {externals : Externals} {source : String} {constraints : RegexMap} {tree : QueryTree}

/-- The sub-queries of a match stand in its captures. -/
theorem mem_subqueries_iff {cs : List QueryCapture} {state : MatchState}
    (hgathered : Gathered tree cs state) {sub : QueryTree} :
    (∃ node, (sub, node) ∈ state.subqueries) ↔
      ∃ c ∈ cs, ∃ capture, tree.captures[c.index]? = some capture ∧ capture.tree? = some sub := by
  rw [hgathered.subqueries]
  constructor
  · rintro ⟨node, hmem⟩
    obtain ⟨c, hc, hdefer⟩ := List.mem_filterMap.mp hmem
    obtain ⟨capture, hcapture, htree⟩ := Option.bind_eq_some_iff.mp hdefer
    obtain ⟨sub', htree', heq⟩ := Option.map_eq_some_iff.mp htree
    cases heq
    exact ⟨c, hc, capture, hcapture, htree'⟩
  · rintro ⟨c, hc, capture, hcapture, htree⟩
    refine ⟨c.node, List.mem_filterMap.mpr ⟨c, hc, ?_⟩⟩
    rw [deferOf, hcapture, Option.bind_some, htree, Option.map_some]

end Tree

end WeggliEnhance.VariableCoherence
