import WeggliEnhance.PositiveCandidates

/-!
# Captures are found by the id of their query

The negation filter looks captures up by the id of a query in a list that also
holds the captures of its sub-queries. Every query inside another one has a
larger id, whatever ids are given out twice, and the results in the cache
belong to the ids of their keys. So in every result that the filter sees, in
any call of `match_internal` during a search, the captures with the id of the
query are those of its own matches.
-/

namespace WeggliEnhance.CaptureLookup

open SourceText SyntaxTree ThirdParty QueryText QueryTrees QueryResults QueryEngine Memoization
  CompoundJoin FallibleState EngineInvariant EngineMemoization MatchCaptures PatternBuilder
  BuilderEmission QueryTreeConstruction QueryIds PositiveCandidates

/-- The result cache of a search. -/
abbrev Cache := Table CacheKey (List QueryResult)

section Calls

variable (externals : Externals) (source : String)

/-- The loop of `match_internal` over some of the matches. -/
def matchLoop (tree : QueryTree) (found : List QueryMatch)
    (collected : List (List QueryResult)) : EngineM (List (List QueryResult)) :=
  found.foldlM (fun collected queryMatch => do
    let results ← processMatch externals source (cachedRun externals source) tree queryMatch
    liftPanic (extendAt collected queryMatch.patternIndex results)) collected

/-- The test of a result against some of the negations. -/
def testNegations (tree : QueryTree) (node : Node) (result : QueryResult)
    (negations : List NegativeQuery) : EngineM Bool :=
  negations.anyM fun neg => do
    let negativeResults ← matchInternal externals source neg.qt node
    pure (negativeResults.any (negationApplies tree.id neg.previousCaptureIndex source result))

/-- The calls of `match_internal` during a search: the query, the node it runs
on and the cache it starts with. -/
inductive Entered (whole : QueryTree) (root : Node) : QueryTree → Node → Cache → Prop
  /-- The call of `matches`. -/
  | start : Entered whole root whole root []
  /-- The call for a sub-query of a match, after the earlier matches and the
  earlier sub-queries of this match, when the cache has no results for it. -/
  | subQuery {tree : QueryTree} {node : Node} {cache : Cache}
      (hentered : Entered whole root tree node cache)
      {before after : List QueryMatch} {queryMatch : QueryMatch}
      (hmatches : externals.cursorMatches tree.query node source = before ++ queryMatch :: after)
      {collected : List (List QueryResult)} {reached : Cache}
      (hbefore : runFrom (matchLoop externals source tree before
        (List.replicate tree.query.patterns.length [])) cache = (.ok collected, reached))
      {state : MatchState}
      (hcollect : collect externals source tree .start queryMatch.captures = .ok (some state))
      {done rest : List (QueryTree × Node)} {sub : QueryTree × Node}
      (hsubs : state.subqueries = done ++ sub :: rest)
      {results : List QueryResult} {current : Cache}
      (hdone : runFrom (mergeSubqueries source (cachedRun externals source) done [state.result])
        reached = (.ok results, current))
      (hresults : results ≠ []) (hmiss : current.get ⟨sub.1.id, sub.2.id⟩ = none) :
      Entered whole root sub.1 sub.2 current
  /-- The call for a negation of a result, after the earlier results and the
  earlier negations of this result. -/
  | negation {tree : QueryTree} {node : Node} {cache : Cache}
      (hentered : Entered whole root tree node cache)
      {collected : List (List QueryResult)} {reached : Cache}
      (hpositive : runFrom (patternResults externals source (cachedRun externals source) tree node)
        cache = (.ok collected, reached))
      {done rest : List QueryResult} {result : QueryResult}
      (hmerged : mergePatterns source collected = done ++ result :: rest)
      {kept : List QueryResult} {filtered : Cache}
      (hdone : runFrom (filterNegations source (matchInternal externals source) tree node done)
        reached = (.ok kept, filtered))
      {earlier later : List NegativeQuery} {neg : NegativeQuery}
      (hnegations : tree.negations = earlier ++ neg :: later) {current : Cache}
      (hearlier : runFrom (testNegations externals source tree node result earlier) filtered =
        (.ok false, current)) :
      Entered whole root neg.qt node current

/-- A result that a call of `match_internal` tests against its negations. -/
def Tested (whole : QueryTree) (root : Node) (tree : QueryTree) (node : Node)
    (result : QueryResult) : Prop :=
  ∃ cache collected, Entered externals source whole root tree node cache ∧
    (runFrom (patternResults externals source (cachedRun externals source) tree node) cache).1 =
      .ok collected ∧
    result ∈ mergePatterns source collected

end Calls

section Ids

variable {externals : Externals} {constraints : RegexMap} {tree : QueryTree}

theorem mem_below_iff {inner : QueryTree} :
    inner ∈ below tree ↔ ∃ next ∈ tree.children ++ tree.negatives, inner ∈ next.trees := by
  simp only [below, List.mem_append, List.mem_flatMap, or_and_right, exists_or]

/-- Every query at any depth below a query has a larger id. -/
theorem id_lt_below (hwell : ∀ t ∈ tree.trees, WellFormed externals constraints t) :
    ∀ inner ∈ below tree, tree.id < inner.id := by
  induction tree using tree_induction with
  | step tree ihsub ihneg =>
    intro inner hinner
    obtain ⟨next, hnext, hmem⟩ := mem_below_iff.mp hinner
    have hrising := (hwell tree (mem_trees_self tree)).rising next hnext
    have hdeeper : ∀ t ∈ next.trees, WellFormed externals constraints t :=
      fun t ht => hwell t (child_trees hnext ht)
    rw [trees_eq] at hmem
    obtain rfl | hbelow := List.mem_cons.mp hmem
    · exact hrising
    · refine hrising.trans ?_
      obtain hchild | hnegative := List.mem_append.mp hnext
      · exact ihsub next hchild hdeeper inner hbelow
      · exact ihneg next hnegative hdeeper inner hbelow

end Ids

section Invariant

variable {externals : Externals} {constraints : RegexMap} {source : String} {whole tree : QueryTree}
  {root node : Node}

theorem returns_matchLoop (hwell : ∀ t ∈ tree.trees, WellFormed externals constraints t)
    (found : List QueryMatch) (collected : List (List QueryResult)) :
    Returns KeyIds (matchLoop externals source tree found collected) fun _ => True := by
  have hstep : ∀ current, True → ∀ queryMatch ∈ found, Returns KeyIds (do
      let results ← processMatch externals source (cachedRun externals source) tree queryMatch
      liftPanic (extendAt current queryMatch.patternIndex results))
        fun outcome => ∀ next : List (List QueryResult), outcome = .ok next → True := by
    intro current _ queryMatch _
    refine returns_bind (returns_processMatch fun child hchild => returns_cachedRun hwell hchild)
      ?_ fun _ _ _ _ => trivial
    intro results _
    cases hextend : extendAt current queryMatch.patternIndex results with
    | error panic => exact returns_throw fun _ _ => trivial
    | ok next => exact returns_pure fun _ _ => trivial
  exact returns_mono (returns_foldlM hstep trivial) fun _ _ => trivial

theorem returns_testNegations (hwell : ∀ t ∈ tree.trees, WellFormed externals constraints t)
    (result : QueryResult) {negations : List NegativeQuery} (hsubset : negations ⊆ tree.negations) :
    Returns KeyIds (testNegations externals source tree node result negations) fun _ => True := by
  refine returns_anyM ?_
  intro neg hneg
  have hmem := List.mem_append_right tree.children
    (List.mem_map_of_mem (f := NegativeQuery.qt) (hsubset hneg))
  exact returns_bind (returns_ownIds hwell hmem node) (fun _ _ => returns_pure trivial)
    fun _ _ => trivial

/-- Every call is for a query of the whole tree and starts with a cache that
respects the ids of its keys. -/
theorem sound_of_entered (hwell : ∀ t ∈ whole.trees, WellFormed externals constraints t)
    {cache : Cache} (h : Entered externals source whole root tree node cache) :
    tree ∈ whole.trees ∧ Sound KeyIds cache := by
  induction h with
  | start => exact ⟨mem_trees_self whole, fun entry hentry => by cases hentry⟩
  | @subQuery tree node cache hentered before after queryMatch hmatches collected reached hbefore
      state hcollect done rest sub hsubs results current hdone hresults hmiss ih =>
    obtain ⟨htree, hsound⟩ := ih
    have hinner : ∀ t ∈ tree.trees, WellFormed externals constraints t :=
      fun t ht => hwell t ((trees_subset htree).1 ht)
    have hchild : ∀ other ∈ done ++ sub :: rest, other.1 ∈ tree.children := by
      intro other hother
      rw [← hsubs] at hother
      obtain hstart | ⟨hchild, -⟩ := collect_subqueries hcollect other hother
      · cases hstart
      · exact hchild
    have hsub := hchild sub (List.mem_append_right done List.mem_cons_self)
    refine ⟨(trees_subset htree).1
      (child_trees (List.mem_append_left _ hsub) (mem_trees_self sub.1)), ?_⟩
    have hreached := sound_of_runFrom (returns_matchLoop hinner before _) hsound hbefore
    have hsubs : ∀ other ∈ done, Returns KeyIds (cachedRun externals source other.1 other.2)
        (All (OwnIds other.1)) := fun other hother =>
      returns_cachedRun hinner (hchild other (List.mem_append_left _ hother)) other.2
    exact sound_of_runFrom (returns_mergeSubqueries hsubs _) hreached hdone
  | @negation tree node cache hentered collected reached hpositive done rest result hmerged kept
      filtered hdone earlier later neg hnegations current hearlier ih =>
    obtain ⟨htree, hsound⟩ := ih
    have hinner : ∀ t ∈ tree.trees, WellFormed externals constraints t :=
      fun t ht => hwell t ((trees_subset htree).1 ht)
    have hneg : neg ∈ tree.negations := by
      rw [hnegations]
      exact List.mem_append_right earlier List.mem_cons_self
    refine ⟨(trees_subset htree).1 (child_trees
      (List.mem_append_right _ (List.mem_map_of_mem hneg)) (mem_trees_self neg.qt)), ?_⟩
    have hchildren : ∀ child ∈ tree.children, ∀ node,
        Returns KeyIds (cachedRun externals source child node) (All (OwnIds child)) :=
      fun child hchild => returns_cachedRun hinner hchild
    have hnegatives : ∀ negative ∈ tree.negatives,
        Returns KeyIds (matchInternal externals source negative node) fun _ => True :=
      fun negative hnegative => returns_mono
        (returns_ownIds hinner (List.mem_append_right _ hnegative) node) fun _ _ => trivial
    have hreached := sound_of_runFrom (returns_patternResults hchildren) hsound hpositive
    have hfiltered :=
      sound_of_runFrom (returns_filterNegations_sublist hnegatives done) hreached hdone
    have hsubset : earlier ⊆ tree.negations := by
      rw [hnegations]
      exact List.subset_append_left _ _
    exact sound_of_runFrom (returns_testNegations hinner result hsubset) hfiltered hearlier

end Invariant

section Own

variable {externals : Externals} {constraints : RegexMap} {source : String} {tree : QueryTree}
  {node : Node}

/-- Captures with the id of a query. -/
def ownCaptures (queryId : ℕ) (result : QueryResult) : List CaptureResult :=
  result.captures.filter fun c => c.queryId == queryId

/-- Results of sub-queries add no captures with the id of the query. -/
theorem ownCaptures_subJoin {subs : List (QueryTree × Node)}
    (hsubs : ∀ sub ∈ subs, tree.id < sub.1.id) {base result : QueryResult}
    (h : SubJoin source OwnIds subs base result) :
    ownCaptures tree.id result = ownCaptures tree.id base := by
  induction subs generalizing base with
  | nil => rw [show result = base from h]
  | cons sub subs ih =>
    obtain ⟨hsub, hrest⟩ := List.forall_mem_cons.mp hsubs
    obtain ⟨found, hfound, -, hjoin⟩ := h
    have hnone : found.captures.filter (fun c => c.queryId == tree.id) = [] := by
      refine List.filter_eq_nil_iff.mpr ?_
      intro c hc
      have hle := hfound c hc
      rw [beq_iff_eq]
      omega
    rw [ih hrest hjoin, ownCaptures, QueryResult.append, List.filter_append, hnone,
      List.append_nil]
    rfl

/-- The captures with the id of the query in one part of a result are those
that `process_match` recorded. -/
theorem ownCaptures_matchResult (hwell : WellFormed externals constraints tree)
    {queryMatch : QueryMatch} {part : QueryResult}
    (h : MatchResult externals source OwnIds tree queryMatch part) :
    ownCaptures tree.id part = queryMatch.captures.filterMap (recordOf tree) := by
  obtain ⟨state, hcollect, hjoin⟩ := h
  have hsubs : ∀ sub ∈ state.subqueries, tree.id < sub.1.id := by
    intro sub hsub
    obtain hstart | ⟨hchild, -⟩ := collect_subqueries hcollect sub hsub
    · cases hstart
    · exact hwell.rising sub.1 (List.mem_append_left _ hchild)
  have hrecorded : state.result.captures = queryMatch.captures.filterMap (recordOf tree) :=
    (gathered_of_collect hcollect).r
  rw [ownCaptures_subJoin hsubs hjoin, ownCaptures, hrecorded]
  refine List.filter_eq_self.mpr ?_
  intro entry hentry
  obtain ⟨c, -, hc⟩ := List.mem_filterMap.mp hentry
  obtain ⟨-, rfl⟩ := recordOf_eq_some_iff.mp hc
  exact beq_self_eq_true _

theorem captures_foldl (first : QueryResult) (rest : List QueryResult) :
    (rest.foldl QueryResult.append first).captures =
      (first :: rest).flatMap QueryResult.captures := by
  induction rest generalizing first with
  | nil => simp
  | cons next rest ih =>
    rw [List.foldl_cons, ih, List.flatMap_cons, List.flatMap_cons, List.flatMap_cons,
      ← List.append_assoc]
    rfl

theorem ownCaptures_concatenate {parts : List QueryResult} {result : QueryResult} {queryId : ℕ}
    (h : concatenate parts = some result) :
    ownCaptures queryId result = parts.flatMap (ownCaptures queryId) := by
  cases parts with
  | nil => cases h
  | cons first rest =>
    cases h
    rw [ownCaptures, captures_foldl, List.filter_flatMap]
    rfl

/-- One match for every pattern of the query, whose recorded captures are the
captures of the result with the id of the query. -/
structure OwnMatches (externals : Externals) (source : String) (tree : QueryTree) (node : Node)
    (result : QueryResult) (found : List QueryMatch) : Prop where
  /-- There is one match for every pattern. -/
  length : found.length = tree.query.patterns.length
  /-- They are matches of the query, in the order of the patterns. -/
  reported : ∀ i queryMatch, found[i]? = some queryMatch →
    queryMatch ∈ externals.cursorMatches tree.query node source ∧ queryMatch.patternIndex = i
  /-- The captures with the id of the query are those they recorded. -/
  captures : ownCaptures tree.id result =
    found.flatMap fun queryMatch => queryMatch.captures.filterMap (recordOf tree)

theorem exists_ownMatches (hwell : WellFormed externals constraints tree) {result : QueryResult}
    (h : TreeResult externals source OwnIds tree node result) :
    ∃ found, OwnMatches externals source tree node result found := by
  obtain ⟨parts, hconcatenate, hlength, -, hparts⟩ := h
  have hnonempty : Nonempty QueryMatch := ⟨⟨0, []⟩⟩
  choose! matchOf hmatchOf using hparts
  refine ⟨parts.mapIdx matchOf, ?_, ?_, ?_⟩
  · rw [List.length_mapIdx, hlength]
  · intro i queryMatch hget
    rw [List.getElem?_mapIdx] at hget
    obtain ⟨part, hpart, rfl⟩ := Option.map_eq_some_iff.mp hget
    obtain ⟨hreported, hindex, -⟩ := hmatchOf i part hpart
    exact ⟨hreported, hindex⟩
  · have hsame : parts.map (ownCaptures tree.id) =
        (parts.mapIdx matchOf).map fun queryMatch =>
          queryMatch.captures.filterMap (recordOf tree) := by
      refine List.ext_getElem? fun i => ?_
      rw [List.getElem?_map, List.getElem?_map, List.getElem?_mapIdx]
      cases hpart : parts[i]? with
      | none => rfl
      | some part =>
        exact congrArg some (ownCaptures_matchResult hwell (hmatchOf i part hpart).2.2)
    rw [ownCaptures_concatenate hconcatenate, List.flatMap_def, List.flatMap_def, hsame]

/-- A capture that is looked up by the id of the query was recorded by one of
its matches, for the capture with that index. -/
theorem lookup_ownMatches {result : QueryResult} {found : List QueryMatch}
    (h : OwnMatches externals source tree node result found) {i : ℕ} {entry : CaptureResult}
    (hlookup : result.getCaptureResult tree.id i = some entry) :
    ∃ queryMatch ∈ found, ∃ c ∈ queryMatch.captures, c.index = i ∧
      recordedAt tree.captures i = true ∧ entry = ⟨c.node.range, tree.id, i⟩ := by
  obtain ⟨hmem, rfl, hid⟩ := mem_of_getCaptureResult hlookup
  have hown : entry ∈ ownCaptures tree.id result :=
    List.mem_filter.mpr ⟨hmem, beq_iff_eq.mpr hid⟩
  rw [h.captures] at hown
  obtain ⟨queryMatch, hfound, hentry⟩ := List.mem_flatMap.mp hown
  obtain ⟨c, hc, hrecord⟩ := List.mem_filterMap.mp hentry
  obtain ⟨hrecorded, rfl⟩ := recordOf_eq_some_iff.mp hrecord
  exact ⟨queryMatch, hfound, c, hc, rfl, hrecorded, rfl⟩

end Own

/-- In every query tree that is built, queries have smaller ids than all
queries below them. In every result that a call of `match_internal` tests
against its negations during a search, whatever the cache holds by then, the
captures with the id of the query are exactly those that its own matches
recorded, and looking a capture up by this id finds one of these or nothing. -/
theorem lookup_finds_own_captures {externals : Externals} {query : String} {up : Option Node}
    {pattern : Node} {constraints : RegexMap} {whole : QueryTree}
    (hbuild : buildQueryTree externals query up pattern constraints = .ok whole) :
    (∀ tree ∈ whole.trees, ∀ inner ∈ below tree, tree.id < inner.id) ∧
    ∀ source root tree node result, Tested externals source whole root tree node result →
      ∃ found, OwnMatches externals source tree node result found ∧
        ∀ i entry, result.getCaptureResult tree.id i = some entry →
          ∃ queryMatch ∈ found, ∃ c ∈ queryMatch.captures, c.index = i ∧
            recordedAt tree.captures i = true ∧ entry = ⟨c.node.range, tree.id, i⟩ := by
  have hfinished :=
    outcome_ok (finished_buildQueryTree externals query up pattern constraints) hbuild
  have hinner : ∀ tree ∈ whole.trees, ∀ t ∈ tree.trees, WellFormed externals constraints t :=
    fun tree htree t ht => hfinished.wellFormed t ((trees_subset htree).1 ht)
  constructor
  · intro tree htree
    exact id_lt_below (hinner tree htree)
  · rintro source root tree node result ⟨cache, collected, hentered, hrun, hresult⟩
    obtain ⟨htree, hsound⟩ := sound_of_entered hfinished.wellFormed hentered
    have htreeResult :=
      treeResult_of_mem_mergePatterns (hinner tree htree) hsound hrun hresult
    obtain ⟨found, hfound⟩ := exists_ownMatches (hfinished.wellFormed tree htree) htreeResult
    exact ⟨found, hfound, fun i entry hlookup => lookup_ownMatches hfound hlookup⟩

/-- This holds although two blocks of this pattern share an id. -/
theorem lookup_finds_own_captures_nestedBlocks :
    ∃ whole, buildQueryTree sampleExternals "\x7b\x7b\x7ba;\x7d\x7d\x7bb;\x7d\x7d"
        (some (rule 0 "translation_unit" 0 12 [nestedBlocks])) nestedBlocks ∅ = .ok whole ∧
      whole.trees.map QueryTree.id = [0, 1, 2, 3, 3] ∧
      (∀ tree ∈ whole.trees, ∀ inner ∈ below tree, tree.id < inner.id) ∧
      ∀ source root tree node result, Tested sampleExternals source whole root tree node result →
        ∃ found, OwnMatches sampleExternals source tree node result found ∧
          ∀ i entry, result.getCaptureResult tree.id i = some entry →
            ∃ queryMatch ∈ found, ∃ c ∈ queryMatch.captures, c.index = i ∧
              recordedAt tree.captures i = true ∧ entry = ⟨c.node.range, tree.id, i⟩ := by
  have hids : (buildQueryTree sampleExternals "\x7b\x7b\x7ba;\x7d\x7d\x7bb;\x7d\x7d"
      (some (rule 0 "translation_unit" 0 12 [nestedBlocks])) nestedBlocks ∅).map
        (fun tree => tree.trees.map QueryTree.id) = .ok [0, 1, 2, 3, 3] := by
    decide +kernel
  obtain ⟨whole, hbuild, heq⟩ := exists_of_map_eq_ok hids
  exact ⟨whole, hbuild, heq, lookup_finds_own_captures hbuild⟩

end WeggliEnhance.CaptureLookup
