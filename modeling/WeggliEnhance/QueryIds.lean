import WeggliEnhance.EngineInvariant
import WeggliEnhance.QueryTreeConstruction

/-!
# Query ids

Results are cached by the id of a query, and captures are found by it. The
ids of a query tree are the numbers that nested counters give out: they are
all different exactly when in every query only the last query opened inside
it opens queries of its own.
-/

namespace WeggliEnhance.QueryIds

open SourceText SyntaxTree QueryText ThirdParty QueryTrees NestedCounters PatternBuilder
  PatternNesting BuilderEmission QueryTreeConstruction FallibleState EngineInvariant

/-- The trees strictly below a query. -/
def below (tree : QueryTree) : List QueryTree :=
  tree.children.flatMap QueryTree.trees ++ tree.negatives.flatMap QueryTree.trees

/-- The ids of all query trees made for a search pattern, the root, the
sub-queries and the negations at every depth, are pairwise distinct exactly
when in every query of the pattern only the last query opened inside it opens
queries of its own. -/
theorem ids_nodup_iff {externals : Externals} {source : String} {up : Option Node} {root : Node}
    {constraints : RegexMap} {tree : QueryTree}
    (hbuild : buildQueryTree externals source up root constraints = .ok tree) :
    (tree.trees.map QueryTree.id).Nodup ↔ (patternShape source up root).onlyLastNests = true := by
  have hfinished := outcome_ok (finished_buildQueryTree externals source up root constraints) hbuild
  rw [hfinished.ids.nodup_iff, labels_nodup_iff]

/-- In the sample pattern a single block is opened, and the ids differ. -/
theorem ids_nodup_iff_sample :
    (sampleTree.trees.map QueryTree.id).Nodup ↔
      (patternShape samplePatternText (some samplePatternRoot) samplePattern).onlyLastNests =
        true := by
  have hbuild : buildQueryTree sampleExternals samplePatternText (some samplePatternRoot)
      samplePattern ∅ = .ok sampleTree := by rfl
  exact ids_nodup_iff hbuild

/-- A block of two blocks, the first of which holds a block again. -/
def nestedBlocks : Node :=
  rule 1 "compound_statement" 0 12
    [token 2 "\x7b" 0 1,
     rule 3 "compound_statement" 1 7
      [token 4 "\x7b" 1 2,
       rule 5 "compound_statement" 2 6
        [token 6 "\x7b" 2 3, nameStatement 7 3 4, token 10 "\x7d" 5 6],
       token 11 "\x7d" 6 7],
     rule 12 "compound_statement" 7 11
      [token 13 "\x7b" 7 8, nameStatement 14 8 9, token 17 "\x7d" 10 11],
     token 18 "\x7d" 11 12]

/-- The innermost block and the second block get the same id. -/
theorem nestedBlocks_share_id :
    ∃ tree, buildQueryTree sampleExternals "\x7b\x7b\x7ba;\x7d\x7d\x7bb;\x7d\x7d"
        (some (rule 0 "translation_unit" 0 12 [nestedBlocks])) nestedBlocks ∅ = .ok tree ∧
      ¬(tree.trees.map QueryTree.id).Nodup := by
  have hids : (buildQueryTree sampleExternals "\x7b\x7b\x7ba;\x7d\x7d\x7bb;\x7d\x7d"
      (some (rule 0 "translation_unit" 0 12 [nestedBlocks])) nestedBlocks ∅).map
        (fun tree => tree.trees.map QueryTree.id) = .ok [0, 1, 2, 3, 3] := by
    decide +kernel
  obtain ⟨tree, hbuild, heq⟩ := exists_of_map_eq_ok hids
  refine ⟨tree, hbuild, ?_⟩
  rw [heq]
  decide

end WeggliEnhance.QueryIds
