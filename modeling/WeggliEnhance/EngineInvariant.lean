import WeggliEnhance.CompoundJoin
import WeggliEnhance.EngineMemoization
import WeggliEnhance.FallibleState

/-!
# Invariants of engine results

What a result of a query is made of: one part for each pattern, joined in
order, and each part made of the captures of one match and of results of its
sub-queries. A property that passes from the sub-results to the result holds
of everything the engine returns, with its cache and its negation filter. No
assumption on node ids is needed, since a cache entry only has to belong to
some run of the sub-query with its id.
-/

namespace WeggliEnhance.EngineInvariant

open SourceText SyntaxTree ThirdParty QueryTrees QueryResults QueryEngine Memoization
  EngineMemoization CompoundJoin PartialJoin FallibleState

/-- A result joined with one good result of each sub-query in turn. -/
def SubJoin (source : String) (good : QueryTree → QueryResult → Prop) :
    List (QueryTree × Node) → QueryResult → QueryResult → Prop
  | [], base, result => result = base
  | sub :: subs, base, result =>
    ∃ found, good sub.1 found ∧ Agree base source found source ∧
      SubJoin source good subs (base.append found) result

/-- What one match of a pattern yields: its captures pass their checks and
are joined with good results of the sub-queries. -/
def MatchResult (externals : Externals) (source : String) (good : QueryTree → QueryResult → Prop)
    (tree : QueryTree) (queryMatch : QueryMatch) (result : QueryResult) : Prop :=
  ∃ state, collect externals source tree .start queryMatch.captures = .ok (some state) ∧
    SubJoin source good state.subqueries state.result result

/-- What a query yields on a node: the joined parts of all its patterns. -/
def TreeResult (externals : Externals) (source : String) (good : QueryTree → QueryResult → Prop)
    (tree : QueryTree) (root : Node) (result : QueryResult) : Prop :=
  ∃ parts : List QueryResult, concatenate parts = some result ∧
    parts.length = tree.query.patterns.length ∧ parts.Pairwise (Joinable source) ∧
    ∀ i part, parts[i]? = some part → ∃ queryMatch ∈ externals.cursorMatches tree.query root source,
      queryMatch.patternIndex = i ∧ MatchResult externals source good tree queryMatch part

section Steps

variable {externals : Externals} {source : String} {good : QueryTree → QueryResult → Prop}
  {entry : CacheKey → List QueryResult → Prop}

/-- All results of a successful run have a property. -/
def All (property : QueryResult → Prop) (outcome : Except Panic (List QueryResult)) : Prop :=
  ∀ results, outcome = .ok results → ∀ result ∈ results, property result

theorem returns_all_pure {property : QueryResult → Prop} {results : List QueryResult}
    (h : ∀ result ∈ results, property result) :
    Returns entry (pure results : EngineM (List QueryResult)) (All property) :=
  returns_pure fun _ heq => Except.ok.inj heq ▸ h

theorem all_error {property : QueryResult → Prop} (panic : Panic) :
    All property (.error panic) := fun _ heq => by cases heq

theorem mem_mergeQueryResults {results subResults : List QueryResult} {result : QueryResult}
    (h : result ∈ mergeQueryResults results subResults source false) :
    ∃ base ∈ results, ∃ found ∈ subResults, Agree base source found source ∧
      result = base.append found := by
  obtain ⟨base, hbase, hmem⟩ := List.mem_flatMap.mp h
  obtain ⟨found, hfound, hmerge⟩ := List.mem_filterMap.mp hmem
  obtain ⟨-, hagree, rfl⟩ := merge_eq_some_iff.mp hmerge
  exact ⟨base, hbase, found, hfound, hagree, rfl⟩

variable {runSub run : QueryTree → Node → EngineM (List QueryResult)}

theorem returns_mergeSubqueries {subs : List (QueryTree × Node)}
    (hsub : ∀ sub ∈ subs, Returns entry (runSub sub.1 sub.2) (All (good sub.1)))
    (results : List QueryResult) :
    Returns entry (mergeSubqueries source runSub subs results)
      (All fun result => ∃ base ∈ results, SubJoin source good subs base result) := by
  induction subs generalizing results with
  | nil => exact returns_all_pure fun result hresult => ⟨result, hresult, rfl⟩
  | cons sub subs ih =>
    have hrest := ih fun s hs => hsub s (List.mem_cons_of_mem sub hs)
    have hhead : Returns entry
        (do
          if results.isEmpty then pure results
          else
            let subResults ← runSub sub.1 sub.2
            pure (mergeQueryResults results subResults source false) : EngineM (List QueryResult))
        (All fun result => ∃ base ∈ results, ∃ found, good sub.1 found ∧
          Agree base source found source ∧ result = base.append found) := by
      by_cases hempty : results = []
      · subst hempty
        exact returns_all_pure fun result hresult => by cases hresult
      · have hnonempty : results.isEmpty = false := by simpa using hempty
        simp only [hnonempty, Bool.false_eq_true, if_false]
        refine returns_bind (hsub sub List.mem_cons_self) ?_ fun panic _ => all_error panic
        intro subResults hgood
        refine returns_all_pure ?_
        intro result hresult
        obtain ⟨base, hbase, found, hfound, hagree, heq⟩ := mem_mergeQueryResults hresult
        exact ⟨base, hbase, found, hgood subResults rfl found hfound, hagree, heq⟩
    rw [mergeSubqueries, List.foldlM_cons]
    refine returns_bind hhead ?_ fun panic _ => all_error panic
    intro merged hmerged
    refine returns_mono (hrest merged) ?_
    intro outcome hall out hout result hresult
    obtain ⟨joined, hjoined, hsubjoin⟩ := hall out hout result hresult
    obtain ⟨base, hbase, found, hfound, hagree, rfl⟩ := hmerged merged rfl joined hjoined
    exact ⟨base, hbase, found, hfound, hagree, hsubjoin⟩

theorem returns_processMatch {tree : QueryTree} {queryMatch : QueryMatch}
    (hsub : ∀ child ∈ tree.children, ∀ node, Returns entry (runSub child node) (All (good child))) :
    Returns entry (processMatch externals source runSub tree queryMatch)
      (All (MatchResult externals source good tree queryMatch)) := by
  unfold processMatch
  cases hcollect : collect externals source tree .start queryMatch.captures with
  | error panic => exact returns_throw (all_error panic)
  | ok found =>
    cases found with
    | none => exact returns_all_pure fun result hresult => by cases hresult
    | some state =>
      have hsubs : ∀ sub ∈ state.subqueries,
          Returns entry (runSub sub.1 sub.2) (All (good sub.1)) := by
        intro sub hmem
        rcases collect_subqueries hcollect sub hmem with hstart | ⟨hchild, -⟩
        · cases hstart
        · exact hsub sub.1 hchild sub.2
      refine returns_mono (returns_mergeSubqueries hsubs [state.result]) ?_
      intro outcome hall out hout result hresult
      obtain ⟨base, hbase, hjoin⟩ := hall out hout result hresult
      rw [List.mem_singleton.mp hbase] at hjoin
      exact ⟨state, hcollect, hjoin⟩

/-- The lists collected so far hold results of matches of their patterns. -/
def Collected (externals : Externals) (source : String) (good : QueryTree → QueryResult → Prop)
    (tree : QueryTree) (root : Node) (collected : List (List QueryResult)) : Prop :=
  collected.length = tree.query.patterns.length ∧
    ∀ i results, collected[i]? = some results → ∀ result ∈ results,
      ∃ queryMatch ∈ externals.cursorMatches tree.query root source,
        queryMatch.patternIndex = i ∧ MatchResult externals source good tree queryMatch result

theorem collected_start (tree : QueryTree) (root : Node) :
    Collected externals source good tree root
      (List.replicate tree.query.patterns.length []) := by
  refine ⟨List.length_replicate, ?_⟩
  intro i results hget result hresult
  rw [(List.mem_replicate.mp (List.mem_of_getElem? hget)).2] at hresult
  cases hresult

theorem collected_extendAt {tree : QueryTree} {root : Node} {collected next : List (List QueryResult)}
    (h : Collected externals source good tree root collected) {queryMatch : QueryMatch}
    (hmatch : queryMatch ∈ externals.cursorMatches tree.query root source)
    {results : List QueryResult}
    (hresults : ∀ result ∈ results, MatchResult externals source good tree queryMatch result)
    (hextend : extendAt collected queryMatch.patternIndex results = .ok next) :
    Collected externals source good tree root next := by
  unfold extendAt at hextend
  split_ifs at hextend
  cases hextend
  refine ⟨(List.length_modify _ _ _).trans h.1, ?_⟩
  intro i list hget result hresult
  rw [List.getElem?_modify] at hget
  obtain ⟨old, hold, hnew⟩ := Option.map_eq_some_iff.mp hget
  split_ifs at hnew with hindex
  · subst hnew
    rcases List.mem_append.mp hresult with hbefore | hadded
    · exact h.2 i old hold result hbefore
    · exact ⟨queryMatch, hmatch, hindex, hresults result hadded⟩
  · subst hnew
    exact h.2 i old hold result hresult

theorem returns_patternResults {tree : QueryTree} {root : Node}
    (hsub : ∀ child ∈ tree.children, ∀ node, Returns entry (runSub child node) (All (good child))) :
    Returns entry (patternResults externals source runSub tree root) fun outcome =>
      ∀ collected, outcome = .ok collected →
        Collected externals source good tree root collected := by
  unfold patternResults
  refine returns_foldlM ?_ (collected_start tree root)
  intro collected hcollected queryMatch hmatch
  refine returns_bind (returns_processMatch hsub) ?_ fun panic _ next heq => by cases heq
  intro results hresults
  cases hextend : extendAt collected queryMatch.patternIndex results with
  | error panic => exact returns_throw fun next heq => by cases heq
  | ok next =>
    refine returns_pure ?_
    intro next' heq
    cases heq
    exact collected_extendAt hcollected hmatch (hresults results rfl) hextend

/-- Joining the collected lists yields results of the query. -/
theorem treeResult_of_mem {tree : QueryTree} {root : Node} {collected : List (List QueryResult)}
    (h : Collected externals source good tree root collected) {result : QueryResult}
    (hresult : result ∈ mergePatterns source collected) :
    TreeResult externals source good tree root result := by
  obtain ⟨parts, hchoice, hpairwise, hconcatenate⟩ := exists_choice_of_mem_mergePatterns hresult
  have hforall := mem_choices.mp hchoice
  refine ⟨parts, hconcatenate, hforall.length_eq.trans h.1, hpairwise, ?_⟩
  intro i part hpart
  obtain ⟨hlt, rfl⟩ := List.getElem?_eq_some_iff.mp hpart
  have hlt' : i < collected.length := hforall.length_eq ▸ hlt
  have hmem := (List.forall₂_iff_get.mp hforall).2 i hlt hlt'
  exact h.2 i _ (List.getElem?_eq_getElem hlt') _ hmem

/-- The negation filter only drops results. -/
theorem returns_filterNegations_sublist {tree : QueryTree} {root : Node}
    (hrun : ∀ negative ∈ tree.negatives, Returns entry (run negative root) fun _ => True)
    (results : List QueryResult) :
    Returns entry (filterNegations source run tree root results) fun outcome =>
      ∀ kept, outcome = .ok kept → kept.Sublist results := by
  induction results with
  | nil => exact returns_pure fun kept heq => Except.ok.inj heq ▸ List.Sublist.refl _
  | cons result results ih =>
    have htest : ∀ neg ∈ tree.negations, Returns entry (do
        let negativeResults ← run neg.qt root
        pure (negativeResults.any
          (negationApplies tree.id neg.previousCaptureIndex source result))) fun _ => True := by
      intro neg hneg
      exact returns_bind (hrun neg.qt (List.mem_map_of_mem hneg))
        (fun _ _ => returns_pure trivial) fun _ _ => trivial
    rw [filterNegations]
    refine returns_bind (returns_anyM htest) ?_ fun panic _ kept heq => by cases heq
    intro matched _
    refine returns_bind ih ?_ fun panic _ kept heq => by cases heq
    intro kept hkept
    refine returns_pure ?_
    intro final heq
    cases heq
    have hsublist := hkept kept rfl
    split_ifs
    · exact hsublist.cons result
    · exact hsublist.cons_cons result

/-- What holds of all results holds of those that pass the negation filter. -/
theorem returns_filterNegations {property : QueryResult → Prop} {tree : QueryTree} {root : Node}
    (hrun : ∀ negative ∈ tree.negatives,
      Returns entry (run negative root) fun _ => True)
    {results : List QueryResult} (hresults : ∀ result ∈ results, property result) :
    Returns entry (filterNegations source run tree root results) (All property) := by
  refine returns_mono (returns_filterNegations_sublist hrun results) ?_
  intro outcome hsublist kept heq result hresult
  exact hresults result ((hsublist kept heq).subset hresult)

theorem returns_matchBody {tree : QueryTree} {root : Node}
    (hsub : ∀ child ∈ tree.children, ∀ node, Returns entry (runSub child node) (All (good child)))
    (hrun : ∀ negative ∈ tree.negatives, Returns entry (run negative root) fun _ => True) :
    Returns entry (matchBody externals source runSub run tree root)
      (All (TreeResult externals source good tree root)) := by
  unfold matchBody
  refine returns_bind (returns_patternResults hsub) ?_ fun panic _ => all_error panic
  intro collected hcollected
  exact returns_filterNegations hrun fun result hresult =>
    treeResult_of_mem (hcollected collected rfl) hresult

end Steps

section Rule

variable {externals : Externals} {source : String} {good : QueryTree → QueryResult → Prop}
  {entry : CacheKey → List QueryResult → Prop} {whole : QueryTree}

/-- The cache entries of a sub-query are exactly lists of good results. -/
def Faithful (whole : QueryTree) (good : QueryTree → QueryResult → Prop)
    (entry : CacheKey → List QueryResult → Prop) : Prop :=
  ∀ sub ∈ whole.subQueries, ∀ node results,
    entry ⟨sub.id, node⟩ results ↔ ∀ result ∈ results, good sub result

/-- A cached run of a sub-query returns good results when the run does. -/
theorem returns_cached (hfaithful : Faithful whole good entry) {sub : QueryTree}
    (hsub : sub ∈ whole.subQueries) {node : Node}
    (hrun : Returns entry (matchInternal externals source sub node) (All (good sub))) :
    Returns entry (memoise ⟨sub.id, node.id⟩ (matchInternal externals source sub node))
      (All (good sub)) := by
  refine returns_memoise hrun ?_ ?_
  · intro results hresults
    exact (hfaithful sub hsub node.id results).mpr (hresults results rfl)
  · intro results hentry results' heq
    cases heq
    exact (hfaithful sub hsub node.id results).mp hentry

/-- From a cache of good results, every query below the whole one returns
good results only and leaves a cache of good results. -/
theorem returns_matchInternal (hfaithful : Faithful whole good entry)
    (hclosed : ∀ tree ∈ whole.trees, ∀ root result,
      TreeResult externals source good tree root result → good tree result)
    (tree : QueryTree) (htrees : tree.trees ⊆ whole.trees)
    (hsubQueries : tree.subQueries ⊆ whole.subQueries) (root : Node) :
    Returns entry (matchInternal externals source tree root) (All (good tree)) := by
  induction tree using tree_induction generalizing root with
  | step tree ihsub ihneg =>
    have hsub : ∀ child ∈ tree.children, ∀ node, Returns entry
        (memoise ⟨child.id, node.id⟩ (matchInternal externals source child node))
        (All (good child)) := by
      intro child hchild node
      have hmem := List.mem_append_left tree.negatives hchild
      have hrun := ihsub child hchild (List.Subset.trans (child_trees hmem) htrees)
        (List.Subset.trans (child_subQueries hmem) hsubQueries) node
      exact returns_cached hfaithful (hsubQueries (children_subset hchild)) hrun
    have hrun : ∀ negative ∈ tree.negatives, Returns entry
        (matchInternal externals source negative root) fun _ => True := by
      intro negative hnegative
      have hmem := List.mem_append_right tree.children hnegative
      exact returns_mono (ihneg negative hnegative
        (List.Subset.trans (child_trees hmem) htrees)
        (List.Subset.trans (child_subQueries hmem) hsubQueries) root) fun _ _ => trivial
    rw [matchInternal, search_eq]
    refine returns_mono (returns_matchBody hsub hrun) ?_
    intro outcome hall results hresults result hresult
    exact hclosed tree (htrees (mem_trees_self tree)) root result
      (hall results hresults result hresult)

/-- An entry holds good results of every sub-query with its id. -/
def GoodId (whole : QueryTree) (good : QueryTree → QueryResult → Prop) (key : CacheKey)
    (results : List QueryResult) : Prop :=
  ∀ sub ∈ whole.subQueries, sub.id = key.queryId → ∀ result ∈ results, good sub result

/-- With distinct ids every property of results can be kept in the cache. -/
theorem faithful_goodId (hids : (whole.subQueries.map QueryTree.id).Nodup) :
    Faithful whole good (GoodId whole good) := by
  intro sub hsub node results
  constructor
  · intro h
    exact h sub hsub rfl
  · intro h sub' hsub' hid
    rwa [List.inj_on_of_nodup_map hids hsub' hsub hid]

/-- The induction rule: a property that passes from the results of
sub-queries to the results of their query holds of every result of `matches`. -/
theorem matches_induction (hids : (whole.subQueries.map QueryTree.id).Nodup)
    (hclosed : ∀ tree ∈ whole.trees, ∀ root result,
      TreeResult externals source good tree root result → good tree result)
    {root : Node} {results : List QueryResult}
    (hmatches : QueryTree.matches externals whole root source = .ok results) {result : QueryResult}
    (hresult : result ∈ results) : good whole result := by
  have hempty : Sound (GoodId whole good) [] := fun entry h => by cases h
  obtain ⟨hall, -, -⟩ := returns_matchInternal (faithful_goodId hids) hclosed whole
    (List.Subset.refl _) (List.Subset.refl _) root [] hempty
  unfold QueryTree.matches at hmatches
  obtain ⟨found, hrun, rfl⟩ := exists_of_map_eq_ok hmatches
  have hmem : result ∈ found := (List.destutter_sublist _ _).subset hresult
  exact hall found hrun result hmem

end Rule

end WeggliEnhance.EngineInvariant
