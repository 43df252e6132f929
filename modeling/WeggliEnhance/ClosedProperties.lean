import WeggliEnhance.EnclosedResults

/-!
# Properties that survive appending

The engine makes results from the captures of a match and by appending one
result to another; merging, the compound join and the cache add nothing of
their own. So a property that matches have and that appending keeps is a
property of all results of a search.
-/

namespace WeggliEnhance.ClosedProperties

open SourceText SyntaxTree ThirdParty QueryTrees QueryResults QueryEngine Memoization MatchCaptures
  FallibleState CompoundJoin PartialJoin EngineInvariant EnclosedResults

variable {externals : Externals} {source : String} {top : Node} {property : QueryResult → Prop}
  {runSub : QueryTree → Node → EngineM (List QueryResult)}
  {entry : CacheKey → List QueryResult → Prop}

/-- Appending results keeps the property. -/
def KeptByAppend (property : QueryResult → Prop) : Prop :=
  ∀ left right, property left → property right → property (left.append right)

/-- The results of matches have the property if only nodes below the given one
are captured. -/
def HeldByMatches (externals : Externals) (source : String) (top : Node)
    (property : QueryResult → Prop) : Prop :=
  ∀ tree cs state, (∀ c ∈ cs, c.node ∈ top.nodes) →
    collect externals source tree .start cs = .ok (some state) → property state.result

/-- Joining the results of sub-queries keeps the property. -/
theorem subJoin_closed (happend : KeptByAppend property) {subs : List (QueryTree × Node)}
    {base result : QueryResult} (hbase : property base)
    (hjoin : SubJoin source (fun _ => property) subs base result) : property result := by
  induction subs generalizing base with
  | nil =>
    cases hjoin
    exact hbase
  | cons sub subs ih =>
    obtain ⟨found, hfound, -, hrest⟩ := hjoin
    exact ih (happend base found hbase hfound) hrest

/-- Merging the results of the patterns keeps the property. -/
theorem mergePatterns_closed (happend : KeptByAppend property)
    {collected : List (List QueryResult)}
    (h : ∀ results ∈ collected, ∀ result ∈ results, property result) {result : QueryResult}
    (hresult : result ∈ mergePatterns source collected) : property result := by
  obtain ⟨parts, hchoice, hpairwise, hconcatenate⟩ := exists_choice_of_mem_mergePatterns hresult
  have hforall := mem_choices.mp hchoice
  have hparts : ∀ part ∈ parts, property part := by
    intro part hpart
    obtain ⟨i, hlt, rfl⟩ := List.mem_iff_getElem.mp hpart
    have hlt' : i < collected.length := hforall.length_eq ▸ hlt
    have hmem := (List.forall₂_iff_get.mp hforall).2 i hlt hlt'
    exact h _ (List.getElem_mem hlt') _ hmem
  cases parts with
  | nil => cases hconcatenate
  | cons first rest =>
    cases hconcatenate
    exact foldl_join_induction (joinable_splits source)
      (fun left right hleft hright _ => happend left right hleft hright) hpairwise hparts

/-- The results of one match have the property. -/
theorem returns_processMatch_closed (happend : KeptByAppend property)
    (hheld : HeldByMatches externals source top property) {tree : QueryTree}
    {queryMatch : QueryMatch} (hinside : ∀ c ∈ queryMatch.captures, c.node ∈ top.nodes)
    (hsub : ∀ child ∈ tree.children, ∀ node ∈ top.nodes,
      Returns entry (runSub child node) (All property)) :
    Returns entry (processMatch externals source runSub tree queryMatch) (All property) := by
  unfold processMatch
  cases hcollect : collect externals source tree .start queryMatch.captures with
  | error panic => exact returns_throw (all_error panic)
  | ok found =>
    cases found with
    | none => exact returns_all_pure fun result hresult => by cases hresult
    | some state =>
      have hsubs : ∀ sub ∈ state.subqueries,
          Returns entry (runSub sub.1 sub.2) (All property) := by
        intro sub hmem
        rcases collect_subqueries hcollect sub hmem with hstart | ⟨hchild, c, hc, hnode⟩
        · cases hstart
        · exact hsub sub.1 hchild sub.2 (hnode ▸ hinside c hc)
      have hmerged : Returns entry (mergeSubqueries source runSub state.subqueries [state.result])
          (All fun result => ∃ base ∈ [state.result],
            SubJoin source (fun _ => property) state.subqueries base result) :=
        returns_mergeSubqueries hsubs [state.result]
      refine returns_mono hmerged ?_
      intro outcome hall results hresults result hresult
      obtain ⟨base, hmem, hjoin⟩ := hall results hresults result hresult
      rw [List.mem_singleton.mp hmem] at hjoin
      exact subJoin_closed happend (hheld tree _ state hinside hcollect) hjoin

/-- The rule for properties that survive appending: if matches below a node
have the property, so have all results of a search below it. The induction is
on the query. -/
theorem returns_closed (hreported : externals.ReportsInside) (happend : KeptByAppend property)
    (hheld : HeldByMatches externals source top property) (tree : QueryTree) {node : Node}
    (hnode : node ∈ top.nodes) :
    Returns (fun _ results => ∀ result ∈ results, property result)
      (matchInternal externals source tree node) (All property) := by
  induction tree using tree_induction generalizing node with
  | step tree ihsub ihneg =>
    rw [matchInternal, search_eq]
    unfold matchBody
    have hmatch : ∀ queryMatch ∈ externals.cursorMatches tree.query node source,
        Returns (fun _ results => ∀ result ∈ results, property result)
          (processMatch externals source (fun tree node =>
            memoise ⟨tree.id, node.id⟩ (search externals source memoise tree node)) tree queryMatch)
          (All property) := by
      intro queryMatch hmem
      refine returns_processMatch_closed happend hheld ?_ ?_
      · intro c hc
        exact nodes_trans hnode (hreported _ _ _ _ hmem c hc)
      · intro child hchild inner hinner
        refine returns_memoise (ihsub child hchild hinner) ?_ ?_
        · exact fun results hall => hall results rfl
        · intro results hentry results' heq
          cases heq
          exact hentry
    refine returns_bind (returns_patternResults_all hmatch) ?_ fun panic _ => all_error panic
    intro collected hcollected
    refine returns_filterNegations ?_ ?_
    · intro negative hnegative
      exact returns_mono (ihneg negative hnegative hnode) fun _ _ => trivial
    · intro result hresult
      exact mergePatterns_closed happend (hcollected collected rfl).2 hresult

/-- All results have the property. -/
theorem matches_closed (hreported : externals.ReportsInside) (happend : KeptByAppend property)
    (hheld : HeldByMatches externals source top property) {tree : QueryTree}
    {results : List QueryResult} (h : QueryTree.matches externals tree top source = .ok results) :
    ∀ result ∈ results, property result := by
  have hreturns : Returns (fun _ results => ∀ result ∈ results, property result)
      (matchInternal externals source tree top) (All property) :=
    returns_closed hreported happend hheld tree (mem_nodes_self top)
  obtain ⟨hall, -, -⟩ := hreturns [] fun entry hentry => by cases hentry
  unfold QueryTree.matches at h
  obtain ⟨found, hrun, rfl⟩ := exists_of_map_eq_ok h
  intro result hresult
  exact hall found hrun result ((List.destutter_sublist _ _).subset hresult)

end WeggliEnhance.ClosedProperties
