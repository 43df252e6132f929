import WeggliEnhance.DuplicateRemoval
import WeggliEnhance.EngineInvariant
import WeggliEnhance.MatchCaptures
import WeggliEnhance.PatternBuilder

/-!
# Findings that are reported twice

`matches` removes equal neighbours from the results of `match_internal`, so
it reports no result twice exactly when equal results stand together. They do
when different matches of a pattern that pass their checks always record
different captures: then no result begins with the captures of another one, at
any depth and with any cache.
-/

namespace WeggliEnhance.DuplicateFindings

open SourceText SyntaxTree QueryText ThirdParty QueryTrees QueryResults QueryEngine Memoization
  FallibleState EngineMemoization EngineInvariant MatchCaptures DuplicateRemoval PatternBuilder

/-- The entries that a match records. -/
def recorded (tree : QueryTree) (queryMatch : QueryMatch) : List CaptureResult :=
  queryMatch.captures.filterMap (recordOf tree)

/-- All captured nodes of a match pass the checks of `process_match`. -/
def PassesChecks (externals : Externals) (source : String) (tree : QueryTree)
    (queryMatch : QueryMatch) : Prop :=
  ∀ c ∈ queryMatch.captures, ∀ capture, tree.captures[c.index]? = some capture →
    accepts externals source capture c.node = .ok true

/-- Different matches of one pattern that pass their checks record different
captures, in all searches that the search for a query below a node leads to. -/
def RecordsApart (externals : Externals) (source : String) (whole : QueryTree) (top : Node) :
    Prop :=
  ∀ tree root, LeadsTo externals source whole top tree root →
    (externals.cursorMatches tree.query root source).Pairwise fun m m' =>
      m.patternIndex = m'.patternIndex → PassesChecks externals source tree m →
        PassesChecks externals source tree m' → recorded tree m ≠ recorded tree m'

/-- No result of a list begins with the captures of another. -/
abbrev Free (results : List QueryResult) : Prop := PrefixFree QueryResult.captures results

/-- What holds of the results of a successful run. -/
def Yields (property : List QueryResult → Prop) (outcome : Except Panic (List QueryResult)) :
    Prop :=
  ∀ results, outcome = .ok results → property results

/-- A free list of results that all begin with the same captures. -/
structure FreeFrom (base : List CaptureResult) (results : List QueryResult) : Prop where
  /-- No result begins with another. -/
  free : Free results
  /-- All results begin with the base. -/
  based : ∀ result ∈ results, base <+: result.captures

/-- A cache entry without such results. -/
def FreeEntry (_ : CacheKey) (results : List QueryResult) : Prop := Free results

section Records

variable {externals : Externals} {source : String} {tree : QueryTree} {root : Node}

/-- How much a match records depends on its pattern only. -/
theorem length_recorded (tree : QueryTree) (queryMatch : QueryMatch) :
    (recorded tree queryMatch).length =
      (queryMatch.captures.map QueryCapture.index).countP fun i =>
        (tree.captures[i]?).any Capture.isRecorded := by
  unfold recorded
  induction queryMatch.captures with
  | nil => rfl
  | cons c cs ih =>
    rw [List.map_cons, List.countP_cons, ← ih]
    cases hcapture : tree.captures[c.index]? with
    | none =>
      rw [List.filterMap_cons_none (recordOf_of_no_capture hcapture)]
      simp
    | some capture =>
      by_cases hrecorded : capture.isRecorded = true
      · rw [List.filterMap_cons_some (recordOf_of_isRecorded hcapture hrecorded)]
        simp [hrecorded]
      · rw [List.filterMap_cons_none (recordOf_of_not_isRecorded hcapture hrecorded)]
        simp [hrecorded]

/-- Matches of one pattern record the same number of entries. -/
theorem length_recorded_eq (hreports : externals.ReportsCaptures) {m m' : QueryMatch}
    (hm : m ∈ externals.cursorMatches tree.query root source)
    (hm' : m' ∈ externals.cursorMatches tree.query root source)
    (hindex : m.patternIndex = m'.patternIndex) :
    (recorded tree m).length = (recorded tree m').length := by
  obtain ⟨pattern, hpattern, hperm, -⟩ := hreports _ _ _ _ hm
  obtain ⟨pattern', hpattern', hperm', -⟩ := hreports _ _ _ _ hm'
  rw [hindex, hpattern'] at hpattern
  cases hpattern
  rw [length_recorded, length_recorded, hperm.countP_eq, hperm'.countP_eq]

end Records

section Steps

variable {externals : Externals} {source : String} {entry : CacheKey → List QueryResult → Prop}
  {runSub : QueryTree → Node → EngineM (List QueryResult)}

theorem free_mergeQueryResults {results subResults : List QueryResult} (ordered : Bool)
    (hresults : Free results) (hsubResults : Free subResults) :
    Free (mergeQueryResults results subResults source ordered) := by
  refine prefixFree_join ?_ hresults hsubResults
  intro left right merged hmerge
  obtain ⟨-, -, rfl⟩ := merge_eq_some_iff.mp hmerge
  rfl

/-- The fold over the sub-queries of a match extends the captures. -/
theorem returns_mergeSubqueries_free {subs : List (QueryTree × Node)}
    (hsub : ∀ sub ∈ subs, Returns entry (runSub sub.1 sub.2) (Yields Free))
    {base : List CaptureResult} {results : List QueryResult} (hresults : FreeFrom base results) :
    Returns entry (mergeSubqueries source runSub subs results) (Yields (FreeFrom base)) := by
  unfold mergeSubqueries
  refine returns_foldlM ?_ hresults
  intro results hresults sub hmem
  by_cases hempty : results = []
  · subst hempty
    exact returns_pure fun out heq => Except.ok.inj heq ▸ hresults
  · have hnonempty : results.isEmpty = false := by simpa using hempty
    simp only [hnonempty, Bool.false_eq_true, if_false]
    refine returns_bind (hsub sub hmem) ?_ fun panic _ out heq => by cases heq
    intro subResults hfree
    refine returns_pure ?_
    intro out heq
    cases heq
    refine ⟨free_mergeQueryResults false hresults.free (hfree subResults rfl), ?_⟩
    intro result hresult
    obtain ⟨left, hleft, found, -, -, rfl⟩ := mem_mergeQueryResults hresult
    exact (hresults.based left hleft).trans (List.prefix_append _ _)

/-- The results of a match: free, all begin with what it records, and there are
none if a check fails. -/
structure ComesFrom (externals : Externals) (source : String) (tree : QueryTree)
    (queryMatch : QueryMatch) (results : List QueryResult) : Prop where
  /-- They begin with the entries of the match. -/
  freeFrom : FreeFrom (recorded tree queryMatch) results
  /-- All checks are passed. -/
  passes : results ≠ [] → PassesChecks externals source tree queryMatch

/-- All results of one match begin with what it records. -/
theorem returns_processMatch_free {tree : QueryTree} {queryMatch : QueryMatch}
    (hsub : ∀ c ∈ queryMatch.captures, ∀ child, deferOf tree c = some child →
      Returns entry (runSub child.1 child.2) (Yields Free)) :
    Returns entry (processMatch externals source runSub tree queryMatch)
      (Yields (ComesFrom externals source tree queryMatch)) := by
  unfold processMatch
  cases hcollect : collect externals source tree .start queryMatch.captures with
  | error panic => exact returns_throw fun out heq => by cases heq
  | ok found =>
    cases found with
    | none =>
      refine returns_pure ?_
      intro out heq
      cases heq
      exact ⟨⟨List.Pairwise.nil, fun result hresult => by cases hresult⟩,
        fun hsome => absurd rfl hsome⟩
    | some state =>
      have hpasses : PassesChecks externals source tree queryMatch :=
        fun c hc capture hcapture => accepts_of_collect hcollect hc hcapture
      have hmerged : Returns entry (mergeSubqueries source runSub state.subqueries [state.result])
          (Yields (FreeFrom (recorded tree queryMatch))) := by
        refine returns_mergeSubqueries_free ?_ ⟨List.pairwise_singleton _ _, ?_⟩
        · intro child hmem
          rw [(gathered_of_collect hcollect).subqueries] at hmem
          obtain ⟨c, hc, hdefer⟩ := List.mem_filterMap.mp hmem
          exact hsub c hc child hdefer
        · intro result hresult
          have hrecorded : state.result.captures = recorded tree queryMatch :=
            (gathered_of_collect hcollect).r
          rw [List.mem_singleton.mp hresult, hrecorded]
      exact returns_mono hmerged fun outcome hfree out heq => ⟨hfree out heq, fun _ => hpasses⟩

/-- The lists collected so far hold no results that begin with each other, or
with what a match that is still to come and passes its checks records. -/
def Clear (externals : Externals) (source : String) (tree : QueryTree)
    (collected : List (List QueryResult)) (rest : List QueryMatch) : Prop :=
  ∀ i results, collected[i]? = some results → Free results ∧
    ∀ m ∈ rest, m.patternIndex = i → PassesChecks externals source tree m →
      ∀ result ∈ results, ∃ base, base <+: result.captures ∧
        base ≠ recorded tree m ∧ base.length = (recorded tree m).length

/-- Before the first match all lists are empty. -/
theorem clear_start (tree : QueryTree) (n : ℕ) (rest : List QueryMatch) :
    Clear externals source tree (List.replicate n []) rest := by
  intro i results hget
  rw [(List.mem_replicate.mp (List.mem_of_getElem? hget)).2]
  exact ⟨List.Pairwise.nil, fun m _ _ _ result hresult => by cases hresult⟩

/-- The lists stay clear when the results of the next match are added. -/
theorem clear_extendAt {tree : QueryTree} {collected next : List (List QueryResult)}
    {m : QueryMatch} {rest : List QueryMatch} (h : Clear externals source tree collected (m :: rest))
    (hrest : ∀ m' ∈ rest, m.patternIndex = m'.patternIndex → PassesChecks externals source tree m →
      PassesChecks externals source tree m' → recorded tree m ≠ recorded tree m')
    (hlength : ∀ m' ∈ rest, m.patternIndex = m'.patternIndex →
      (recorded tree m).length = (recorded tree m').length)
    {results : List QueryResult} (hresults : ComesFrom externals source tree m results)
    (hextend : extendAt collected m.patternIndex results = .ok next) :
    Clear externals source tree next rest := by
  unfold extendAt at hextend
  split_ifs at hextend
  cases hextend
  intro i list hget
  rw [List.getElem?_modify] at hget
  obtain ⟨old, hold, hnew⟩ := Option.map_eq_some_iff.mp hget
  obtain ⟨holdFree, holdClear⟩ := h i old hold
  split_ifs at hnew with hindex
  · subst hnew
    refine ⟨List.pairwise_append.mpr ⟨holdFree, hresults.freeFrom.free, ?_⟩, ?_⟩
    · intro left hleft right hright
      have hpasses := hresults.passes (List.ne_nil_of_mem hright)
      obtain ⟨base, hprefix, hne, hsame⟩ :=
        holdClear m List.mem_cons_self hindex hpasses left hleft
      exact apart_of_prefix (not_prefix_of_length hne hsame) hprefix
        (hresults.freeFrom.based right hright)
    · intro m' hm' hindex' hpasses' result hresult
      rcases List.mem_append.mp hresult with hbefore | hadded
      · exact holdClear m' (List.mem_cons_of_mem _ hm') hindex' hpasses' result hbefore
      · have hsame := hindex.trans hindex'.symm
        have hpasses := hresults.passes (List.ne_nil_of_mem hadded)
        exact ⟨_, hresults.freeFrom.based result hadded, hrest m' hm' hsame hpasses hpasses',
          hlength m' hm' hsame⟩
  · subst hnew
    exact ⟨holdFree, fun m' hm' => holdClear m' (List.mem_cons_of_mem _ hm')⟩

/-- The loop over all matches. -/
theorem returns_patternResults_free {tree : QueryTree} {rest : List QueryMatch}
    (happart : rest.Pairwise fun m m' =>
      m.patternIndex = m'.patternIndex → PassesChecks externals source tree m →
        PassesChecks externals source tree m' → recorded tree m ≠ recorded tree m')
    (hlength : ∀ m ∈ rest, ∀ m' ∈ rest, m.patternIndex = m'.patternIndex →
      (recorded tree m).length = (recorded tree m').length)
    (hmatch : ∀ m ∈ rest, Returns entry (processMatch externals source runSub tree m)
      (Yields (ComesFrom externals source tree m)))
    {collected : List (List QueryResult)} (h : Clear externals source tree collected rest) :
    Returns entry (rest.foldlM (fun collected queryMatch => do
      let results ← processMatch externals source runSub tree queryMatch
      liftPanic (extendAt collected queryMatch.patternIndex results)) collected) fun outcome =>
        ∀ final, outcome = .ok final → ∀ results ∈ final, Free results := by
  induction rest generalizing collected with
  | nil =>
    refine returns_pure ?_
    intro final heq results hresults
    cases heq
    obtain ⟨i, hget⟩ := List.mem_iff_getElem?.mp hresults
    exact (h i results hget).1
  | cons m rest ih =>
    rw [List.foldlM_cons]
    obtain ⟨hfirst, hlater⟩ := List.pairwise_cons.mp happart
    have hstep : Returns entry (do
        let results ← processMatch externals source runSub tree m
        liftPanic (extendAt collected m.patternIndex results) : EngineM (List (List QueryResult)))
        fun outcome => ∀ next, outcome = .ok next → Clear externals source tree next rest := by
      refine returns_bind (hmatch m List.mem_cons_self) ?_ fun panic _ next heq => by cases heq
      intro results hresults
      cases hextend : extendAt collected m.patternIndex results with
      | error panic => exact returns_throw fun next heq => by cases heq
      | ok next =>
        refine returns_pure ?_
        intro next' heq
        cases heq
        exact clear_extendAt h hfirst
          (fun m' hm' => hlength m List.mem_cons_self m' (List.mem_cons_of_mem _ hm'))
          (hresults results rfl) hextend
    refine returns_bind hstep ?_ fun panic _ final heq => by cases heq
    intro next hnext
    exact ih hlater
      (fun a ha b hb => hlength a (List.mem_cons_of_mem _ ha) b (List.mem_cons_of_mem _ hb))
      (fun a ha => hmatch a (List.mem_cons_of_mem _ ha)) (hnext next rfl)

theorem free_mergeLoop {merged : List QueryResult} (hmerged : Free merged)
    {rest : List (List QueryResult)} (hrest : ∀ results ∈ rest, Free results) :
    Free (mergeLoop source merged rest) := by
  induction rest generalizing merged with
  | nil => exact hmerged
  | cons results rest ih =>
    have hresults := hrest results List.mem_cons_self
    have hlater := fun r hr => hrest r (List.mem_cons_of_mem results hr)
    have hnext : Free (mergeQueryResults merged results source true) :=
      free_mergeQueryResults true hmerged hresults
    rw [mergeLoop]
    simp only
    split_ifs with hempty
    · rw [List.isEmpty_iff.mp hempty, List.nil_append]
      exact ih hresults hlater
    · exact hnext
    · exact ih hnext hlater

theorem free_mergePatterns {collected : List (List QueryResult)}
    (h : ∀ results ∈ collected, Free results) : Free (mergePatterns source collected) := by
  unfold mergePatterns
  split_ifs
  · exact List.Pairwise.nil
  · exact free_mergeLoop List.Pairwise.nil h

end Steps

section Engine

variable {externals : Externals} {source : String} {root : Node}

theorem returns_cached_free {tree : QueryTree} {node : Node}
    (hrun : Returns FreeEntry (matchInternal externals source tree node) (Yields Free)) :
    Returns FreeEntry (memoise ⟨tree.id, node.id⟩ (matchInternal externals source tree node))
      (Yields Free) := by
  refine returns_memoise hrun ?_ ?_
  · intro results hfree
    exact hfree results rfl
  · intro results hentry results' heq
    cases heq
    exact hentry

/-- When different matches record different captures, no search that a search
leads to returns a result that begins with the captures of another. The
induction is on the query. -/
theorem returns_free (hreports : externals.ReportsCaptures) {whole : QueryTree} {top : Node}
    (hrecords : RecordsApart externals source whole top) (tree : QueryTree) {node : Node}
    (hleads : LeadsTo externals source whole top tree node) :
    Returns FreeEntry (matchInternal externals source tree node) (Yields Free) := by
  induction tree using tree_induction generalizing node with
  | step tree ihsub ihneg =>
    have hmatch : ∀ m ∈ externals.cursorMatches tree.query node source,
        Returns FreeEntry (processMatch externals source
          (fun tree node => memoise ⟨tree.id, node.id⟩ (search externals source memoise tree node))
          tree m) (Yields (ComesFrom externals source tree m)) := by
      intro m hm
      refine returns_processMatch_free ?_
      intro c hc child hdefer
      exact returns_cached_free (ihsub child.1 (child_of_deferOf hdefer).1
        (.sub hleads hm hc hdefer))
    have hpatterns : Returns FreeEntry (patternResults externals source
        (fun tree node => memoise ⟨tree.id, node.id⟩ (search externals source memoise tree node))
        tree node) fun outcome =>
          ∀ final, outcome = .ok final → ∀ results ∈ final, Free results :=
      returns_patternResults_free (hrecords tree node hleads)
        (fun m hm m' hm' => length_recorded_eq hreports hm hm') hmatch (clear_start tree _ _)
    rw [matchInternal, search_eq]
    unfold matchBody
    refine returns_bind hpatterns ?_ fun panic _ results heq => by cases heq
    intro collected hcollected
    have hnegations : ∀ negative ∈ tree.negatives, Returns FreeEntry
        (matchInternal externals source negative node) fun _ => True := by
      intro negative hnegative
      exact returns_mono (ihneg negative hnegative (.negative hleads hnegative)) fun _ _ => trivial
    refine returns_mono (returns_filterNegations_sublist hnegations _) ?_
    intro outcome hsublist kept heq
    exact prefixFree_sublist (free_mergePatterns (hcollected collected rfl)) (hsublist kept heq)

end Engine

/-- What `match_internal` finds is reported without duplicates if and only if
equal results stand together in it. -/
theorem nodup_matches_iff {externals : Externals} {source : String} {tree : QueryTree} {root : Node}
    {found results : List QueryResult}
    (hfound : (runFrom (matchInternal externals source tree root) []).1 = .ok found)
    (hmatches : QueryTree.matches externals tree root source = .ok results) :
    results.Nodup ↔ StandTogether found := by
  rw [QueryTree.matches, hfound] at hmatches
  cases hmatches
  exact nodup_destutter_iff

/-- When no finding is reported twice. Whatever the query is and whatever ids
its sub-queries have, if different matches of a pattern that pass their checks
record different captures in all searches that the search leads to, `matches`
returns no two equal results at any two positions. -/
theorem nodup_matches {externals : Externals} (hreports : externals.ReportsCaptures)
    {source : String} {tree : QueryTree} {root : Node}
    (hrecords : RecordsApart externals source tree root) {results : List QueryResult}
    (hmatches : QueryTree.matches externals tree root source = .ok results) : results.Nodup := by
  obtain ⟨found, hfound, hdedup⟩ := exists_of_map_eq_ok hmatches
  have hempty : Sound FreeEntry [] := fun entry h => by cases h
  obtain ⟨hfree, -, -⟩ := returns_free hreports hrecords tree .start [] hempty
  have hnodup := nodup_of_prefixFree (hfree found hfound)
  rw [← hdedup]
  exact hnodup.sublist (List.destutter_sublist _ _)

/-- Matches of the sample pattern on the program with two names record
different captures. -/
theorem recordsApart_sampleTree : RecordsApart sampleExternals pairSource sampleTree pairRoot := by
  have hall : ∀ t ∈ sampleTree.trees, ∀ node ∈ pairRoot.nodes,
      (sampleExternals.cursorMatches t.query node pairSource).Pairwise fun m m' =>
        m.patternIndex = m'.patternIndex → recorded t m ≠ recorded t m' := by
    decide +kernel
  intro tree root hleads
  have happart := hall tree (trees_of_leadsTo hleads) root
    (nodes_of_leadsTo sampleExternals_reportsInside hleads)
  exact happart.imp fun h hindex _ _ => h hindex

/-- The two names are reported once each. -/
theorem nodup_matches_sample :
    ∃ results, QueryTree.matches sampleExternals sampleTree pairRoot pairSource = .ok results ∧
      results.length = 2 ∧ results.Nodup := by
  have hrun : (QueryTree.matches sampleExternals sampleTree pairRoot pairSource).map
      List.length = .ok 2 := by decide +kernel
  obtain ⟨results, hmatches, htwo⟩ := exists_of_map_eq_ok hrun
  exact ⟨results, hmatches, htwo, nodup_matches sampleExternals_reportsMatches.captures
    recordsApart_sampleTree hmatches⟩

section Sample

/-- The search pattern `{{$y;}}`, a block inside a block that holds a name. -/
def blockPattern : Node :=
  rule 1 "compound_statement" 0 7
    [token 2 "\x7b" 0 1,
     rule 3 "compound_statement" 1 6
      [token 4 "\x7b" 1 2, nameStatement 5 2 4, token 8 "\x7d" 5 6],
     token 9 "\x7d" 6 7]

/-- The text of that pattern. -/
def blockPatternText : String := "\x7b\x7b$y;\x7d\x7d"

/-- The query for the name. -/
def nameTree : QueryTree :=
  ⟨⟨[[.group [.alternation [.node "identifier" [], .node "field_expression" [],
    .node "field_identifier" []], .tag (.capture "0")]]]⟩, [.variable "$y" none], [], {"$y"}, 1⟩

/-- The query for the pattern. -/
def blockTree : QueryTree :=
  ⟨⟨[[.node "function_definition" [.fieldName "body", .node "compound_statement" [],
      .tag (.capture "0")], .tag (.capture "1")]]⟩,
    [.subMultiQuery ⟨⟨[[.group [.node "compound_statement" [], .tag (.capture "0")]]]⟩,
      [.subMultiQuery { nameTree with id := 2 }], [], ∅, 1⟩, .display], [], ∅, 0⟩

/-- A program with a name in a block before another name. -/
def blockSource : String := "int f(){{a;}b;}"

/-- The syntax tree of that program. -/
def blockRoot : Node :=
  functionRoot 15
    [rule 20 "compound_statement" 8 12
      [token 21 "\x7b" 8 9, nameStatement 22 9 10, token 25 "\x7d" 11 12],
     nameStatement 11 12 13]

theorem build_blockPattern :
    buildQueryTree sampleExternals blockPatternText
      (some (rule 0 "translation_unit" 0 7 [blockPattern])) blockPattern ∅ = .ok blockTree := by rfl

/-- What tells the matches of the sample cursor apart. -/
def matchKey (queryMatch : QueryMatch) : ℕ × List (ℕ × ℕ) :=
  (queryMatch.patternIndex, queryMatch.captures.map fun c => (c.node.id, c.index))

/-- The name `a` is found in the body of the function and in the block inside
it, and `b` in between. The cursor reports distinct matches only. -/
theorem not_nodup_matches :
    buildQueryTree sampleExternals blockPatternText
      (some (rule 0 "translation_unit" 0 7 [blockPattern])) blockPattern ∅ = .ok blockTree ∧
    (∀ t ∈ blockTree.trees, ∀ node ∈ blockRoot.nodes,
      (sampleExternals.cursorMatches t.query node blockSource).Nodup) ∧
    ∃ results, QueryTree.matches sampleExternals blockTree blockRoot blockSource = .ok results ∧
      ¬ results.Nodup := by
  have hrun : (QueryTree.matches sampleExternals blockTree blockRoot blockSource).map
      (fun results => decide results.Nodup) = .ok false := by decide +kernel
  have hkeys : ∀ t ∈ blockTree.trees, ∀ node ∈ blockRoot.nodes,
      ((sampleExternals.cursorMatches t.query node blockSource).map matchKey).Nodup := by
    decide +kernel
  obtain ⟨results, hmatches, hnodup⟩ := exists_of_map_eq_ok hrun
  refine ⟨build_blockPattern, ?_, results, hmatches, of_decide_eq_false hnodup⟩
  intro t ht node hnode
  exact List.Nodup.of_map matchKey (hkeys t ht node hnode)

end Sample

end WeggliEnhance.DuplicateFindings
