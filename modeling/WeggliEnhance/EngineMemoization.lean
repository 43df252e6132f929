import WeggliEnhance.QueryEngine

/-!
# The result cache is transparent

The cache is shared by nested and repeated runs of all sub-queries of one
query, negations included. Its invariant names the cache-free result of every
entry; with distinct query ids and distinct node ids a key determines the run
that it stands for, so the invariant survives every lookup and insertion.
-/

namespace WeggliEnhance.EngineMemoization

open SourceText SyntaxTree QueryText ThirdParty QueryTrees QueryResults QueryEngine Memoization
  

/-- An entry holds the cache-free result of a sub-query of the query on a
node of the syntax tree. -/
def GoodEntry (externals : Externals) (source : String) (tree : QueryTree) (root : Node)
    (key : CacheKey) (results : List QueryResult) : Prop :=
  ∃ sub ∈ tree.subQueries, ∃ node ∈ root.nodes, key = ⟨sub.id, node.id⟩ ∧
    matchUncached externals source sub node = .ok results

theorem children_subset {tree : QueryTree} : tree.children ⊆ tree.subQueries := by
  rw [subQueries_eq]
  exact List.subset_append_left _ _

section Transparency

variable {externals : Externals} {source : String} {tree : QueryTree} {root : Node}

/-- A key that belongs to a sub-query and a node has only their result. -/
theorem goodEntry_iff (hids : (tree.subQueries.map QueryTree.id).Nodup)
    (hnodes : (root.nodes.map Node.id).Nodup) {sub : QueryTree} {node : Node}
    (hsub : sub ∈ tree.subQueries) (hnode : node ∈ root.nodes) {results : List QueryResult} :
    GoodEntry externals source tree root ⟨sub.id, node.id⟩ results ↔
      matchUncached externals source sub node = .ok results := by
  constructor
  · rintro ⟨sub', hsub', node', hnode', hkey, hresults⟩
    obtain ⟨hid, hnid⟩ := CacheKey.mk.inj hkey
    rw [List.inj_on_of_nodup_map hids hsub hsub' hid,
      List.inj_on_of_nodup_map hnodes hnode hnode' hnid]
    exact hresults
  · intro hresults
    exact ⟨sub, hsub, node, hnode, rfl, hresults⟩

/-- From a sound cache every query below the given one runs as without a
cache and leaves a sound cache. -/
theorem matchInternal_returns (hinside : externals.ReportsInside)
    (hids : (tree.subQueries.map QueryTree.id).Nodup) (hnodes : (root.nodes.map Node.id).Nodup)
    (query : QueryTree) (hquery : query.subQueries ⊆ tree.subQueries) {node : Node}
    (hnode : node ∈ root.nodes) :
    Returns (GoodEntry externals source tree root) (matchInternal externals source query node)
      fun result => result = matchUncached externals source query node := by
  induction query using tree_induction generalizing node with
  | step query ihsub ihneg =>
    rw [matchInternal, matchUncached, search_eq, search_eq]
    refine rel_matchBody (tableRelation (GoodEntry externals source tree root)) ?_ ?_
    · rintro child hchild inner ⟨queryMatch, hmatch, c, hc, rfl⟩
      have hinner : c.node ∈ root.nodes := nodes_trans hnode (hinside _ _ _ _ hmatch c hc)
      have hsub : child ∈ tree.subQueries := hquery (children_subset hchild)
      have hbelow : child.subQueries ⊆ tree.subQueries :=
        List.Subset.trans (child_subQueries (List.mem_append_left _ hchild)) hquery
      refine returns_memoise (ihsub child hchild hbelow hinner) ?_ ?_
      · intro results hresults
        exact (goodEntry_iff hids hnodes hsub hinner).mpr hresults.symm
      · intro results hgood
        exact ((goodEntry_iff hids hnodes hsub hinner).mp hgood).symm
    · intro negative hnegative
      have hbelow : negative.subQueries ⊆ tree.subQueries :=
        List.Subset.trans (child_subQueries (List.mem_append_right _ hnegative)) hquery
      exact ihneg negative hnegative hbelow hnode

end Transparency

/-- Memoisation is transparent: `matches` returns what the algorithm returns
without a cache, and in every table that existed during the run, each of them
a suffix of the last one, every entry is the cache-free result of a sub-query
with that id on the node with that id. -/
theorem matches_eq_uncached {externals : Externals} (hinside : externals.ReportsInside)
    (tree : QueryTree) (hids : (tree.subQueries.map QueryTree.id).Nodup) (source : String)
    (root : Node) (hnodes : (root.nodes.map Node.id).Nodup) :
    QueryTree.matches externals tree root source =
        (matchUncached externals source tree root).map dedup ∧
      ∀ moment, moment <:+ (runFrom (matchInternal externals source tree root) []).2 →
        ∀ key results, Table.get moment key = some results →
          ∃ sub ∈ tree.subQueries, ∃ node ∈ root.nodes, key = ⟨sub.id, node.id⟩ ∧
            matchUncached externals source sub node = .ok results := by
  have hempty : Sound (GoodEntry externals source tree root) [] := fun entry h => by cases h
  obtain ⟨hout, hsound, -⟩ := matchInternal_returns hinside hids hnodes tree (List.Subset.refl _)
    (mem_nodes_self root) [] hempty
  refine ⟨by rw [QueryTree.matches, hout], ?_⟩
  intro moment hmoment key results hget
  have hsoundMoment : Sound (GoodEntry externals source tree root) moment :=
    fun entry hentry => hsound entry (hmoment.subset hentry)
  exact sound_get hsoundMoment hget

/-- The query for a block that holds a name, run on the sample program. -/
theorem matches_eq_uncached_sample :
    QueryTree.matches sampleExternals sampleTree sampleRoot sampleSource =
        (matchUncached sampleExternals sampleSource sampleTree sampleRoot).map dedup ∧
      ∀ moment, moment <:+
          (runFrom (matchInternal sampleExternals sampleSource sampleTree sampleRoot) []).2 →
        ∀ key results, Table.get moment key = some results →
          ∃ sub ∈ sampleTree.subQueries, ∃ node ∈ sampleRoot.nodes, key = ⟨sub.id, node.id⟩ ∧
            matchUncached sampleExternals sampleSource sub node = .ok results :=
  matches_eq_uncached sampleExternals_reportsInside sampleTree (by decide) sampleSource sampleRoot
    (by decide)

end WeggliEnhance.EngineMemoization
