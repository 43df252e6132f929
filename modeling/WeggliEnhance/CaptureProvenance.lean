import WeggliEnhance.MatchCaptures
import WeggliEnhance.QueryTreeConstruction
import WeggliEnhance.RegexRules

/-!
# Where captures of results come from

Every result is put together from the recorded captures of matches that
passed their checks. A trace names, for each entry of a result, the capture
of the search pattern it was recorded for. Traces grow with results: a match
gives the trace of its own captures, and merging appends traces. Nothing is
assumed about ids, since a cached result carries its own trace.
-/

namespace WeggliEnhance.CaptureProvenance

open SourceText SyntaxTree ThirdParty QueryTrees QueryResults QueryEngine Memoization PartialJoin
  CompoundJoin EngineInvariant EngineMemoization MatchCaptures PatternBuilder BuilderEmission
  QueryTreeConstruction FallibleState RegexRules

/-- The capture that a node is recorded for, unless it is a block. -/
def originOf (tree : QueryTree) (c : QueryCapture) : Option Capture :=
  (tree.captures[c.index]?).bind fun capture => if capture.isRecorded then some capture else none

/-- A result that `process_match` or `merge` produces while a query runs,
with the capture that each of its entries was recorded for. -/
inductive Traced (externals : Externals) (source : String) (whole : QueryTree) :
    QueryResult → List Capture → Prop
  /-- A match of some query of the tree that passed all checks. -/
  | found {tree : QueryTree} {root : Node} {queryMatch : QueryMatch} {state : MatchState} :
    tree ∈ whole.trees → queryMatch ∈ externals.cursorMatches tree.query root source →
    collect externals source tree .start queryMatch.captures = .ok (some state) →
    Traced externals source whole state.result (queryMatch.captures.filterMap (originOf tree))
  /-- Two results merged into one. -/
  | merged {left right result : QueryResult} {origins origins' : List Capture} {ordered : Bool} :
    Traced externals source whole left origins → Traced externals source whole right origins' →
    left.merge right source ordered = some result →
    Traced externals source whole result (origins ++ origins')

section Traces

variable {externals : Externals} {source : String} {whole : QueryTree}

/-- A constrained variable is accepted on texts that match, or on texts that
do not match if the constraint is negative. -/
theorem isMatch_of_accepts {name : String} {negative : Bool} {regex : Regex} {node : Node}
    (h : accepts externals source (.variable name (some (negative, regex))) node = .ok true) :
    externals.isMatch regex (slice source node.range) = some !negative := by
  rw [accepts] at h
  split at h
  · rename_i found hfound
    rw [hfound]
    have hkept := Except.ok.inj h
    cases found <;> cases negative <;> simp at hkept ⊢
  · cases h

/-- An entry recorded for a capture of one of the queries, on a node that
passed the check of the capture. -/
def Recorded (externals : Externals) (source : String) (whole : QueryTree) (entry : CaptureResult)
    (capture : Capture) : Prop :=
  ∃ tree ∈ whole.trees, ∃ c : QueryCapture, tree.captures[c.index]? = some capture ∧
    entry = ⟨c.node.range, tree.id, c.index⟩ ∧ accepts externals source capture c.node = .ok true

/-- The recorded entries of captured nodes stand beside their captures. -/
theorem forall₂_recorded {tree : QueryTree} {cs : List QueryCapture}
    {related : CaptureResult → Capture → Prop}
    (h : ∀ c ∈ cs, ∀ capture, tree.captures[c.index]? = some capture →
      related ⟨c.node.range, tree.id, c.index⟩ capture) :
    List.Forall₂ related (cs.filterMap (recordOf tree)) (cs.filterMap (originOf tree)) := by
  induction cs with
  | nil => exact List.Forall₂.nil
  | cons c cs ih =>
    have hrest := ih fun d hd => h d (List.mem_cons_of_mem c hd)
    cases hcapture : tree.captures[c.index]? with
    | none =>
      have hrecord := recordOf_of_no_capture hcapture
      have horigin : originOf tree c = none := by rw [originOf, hcapture, Option.bind_none]
      rwa [List.filterMap_cons_none hrecord, List.filterMap_cons_none horigin]
    | some capture =>
      by_cases hrecorded : capture.isRecorded = true
      · have hrecord := recordOf_of_isRecorded hcapture hrecorded
        have horigin : originOf tree c = some capture := by
          rw [originOf, hcapture, Option.bind_some, if_pos hrecorded]
        rw [List.filterMap_cons_some hrecord, List.filterMap_cons_some horigin]
        exact List.Forall₂.cons (h c List.mem_cons_self capture hcapture) hrest
      · have hrecord := recordOf_of_not_isRecorded hcapture hrecorded
        have horigin : originOf tree c = none := by
          rw [originOf, hcapture, Option.bind_some, if_neg hrecorded]
        rwa [List.filterMap_cons_none hrecord, List.filterMap_cons_none horigin]

/-- Every entry of a traced result was recorded for its capture. -/
theorem recorded_traced {result : QueryResult} {origins : List Capture}
    (h : Traced externals source whole result origins) :
    List.Forall₂ (Recorded externals source whole) result.captures origins := by
  induction h with
  | @found tree root queryMatch state htree hmatch hcollect =>
    have hentries : state.result.captures = queryMatch.captures.filterMap (recordOf tree) :=
      (gathered_of_collect hcollect).r
    rw [hentries]
    refine forall₂_recorded ?_
    intro c hc capture hcapture
    exact ⟨tree, htree, c, hcapture, rfl, accepts_of_collect hcollect hc hcapture⟩
  | merged hleft hright hmerge ihleft ihright =>
    obtain ⟨-, -, rfl⟩ := merge_eq_some_iff.mp hmerge
    exact List.rel_append ihleft ihright

/-- A result has a trace. -/
def HasTrace (externals : Externals) (source : String) (whole : QueryTree) (result : QueryResult) :
    Prop :=
  ∃ origins, Traced externals source whole result origins

theorem hasTrace_append {left right : QueryResult} (ordered : Bool)
    (hleft : HasTrace externals source whole left) (hright : HasTrace externals source whole right)
    (hordered : ordered = true → Precedes left right) (hagree : Agree left source right source) :
    HasTrace externals source whole (left.append right) := by
  obtain ⟨origins, htraced⟩ := hleft
  obtain ⟨origins', htraced'⟩ := hright
  exact ⟨origins ++ origins', .merged htraced htraced'
    (merge_eq_some_iff.mpr ⟨hordered, hagree, rfl⟩)⟩

theorem hasTrace_subJoin {subs : List (QueryTree × Node)} {base result : QueryResult}
    (hbase : HasTrace externals source whole base)
    (hjoin : SubJoin source (fun _ => HasTrace externals source whole) subs base result) :
    HasTrace externals source whole result := by
  induction subs generalizing base with
  | nil =>
    cases hjoin
    exact hbase
  | cons sub subs ih =>
    obtain ⟨found, hfound, hagree, hrest⟩ := hjoin
    have hnext : HasTrace externals source whole (base.append found) :=
      hasTrace_append false hbase hfound (fun h => by cases h) hagree
    exact ih hnext hrest

/-- A result of a query over traced results of its sub-queries has a trace. -/
theorem hasTrace_treeResult {tree : QueryTree} (htree : tree ∈ whole.trees) {root : Node}
    {result : QueryResult}
    (h : TreeResult externals source (fun _ => HasTrace externals source whole) tree root result) :
    HasTrace externals source whole result := by
  obtain ⟨parts, hconcatenate, -, hpairwise, hparts⟩ := h
  have hmem : ∀ part ∈ parts, HasTrace externals source whole part := by
    intro part hin
    obtain ⟨i, hget⟩ := List.mem_iff_getElem?.mp hin
    obtain ⟨queryMatch, hmatch, -, state, hcollect, hjoin⟩ := hparts i part hget
    exact hasTrace_subJoin ⟨_, .found htree hmatch hcollect⟩ hjoin
  cases parts with
  | nil => cases hconcatenate
  | cons first rest =>
    cases hconcatenate
    refine foldl_join_induction (joinable_splits source) ?_ hpairwise hmem
    intro left right hleft hright hjoinable
    exact hasTrace_append true hleft hright (fun _ => hjoinable.1) hjoinable.2

/-- A cache entry whose results all have traces. -/
def TracedEntry (externals : Externals) (source : String) (whole : QueryTree) (_ : CacheKey)
    (results : List QueryResult) : Prop :=
  ∀ result ∈ results, HasTrace externals source whole result

/-- From a cache of traced results, `match_internal` returns traced results
and leaves a cache of traced results. -/
theorem returns_hasTrace (whole : QueryTree) {tree : QueryTree} (htrees : tree.trees ⊆ whole.trees)
    (hsubQueries : tree.subQueries ⊆ whole.subQueries) (root : Node) :
    Returns (TracedEntry externals source whole) (matchInternal externals source tree root)
      (All (HasTrace externals source whole)) :=
  returns_matchInternal (fun _ _ _ _ => Iff.rfl)
    (fun _ htree _ _ hresult => hasTrace_treeResult htree hresult) tree htrees hsubQueries root

/-- Every result of `matches` has a trace. -/
theorem hasTrace_matches {root : Node} {results : List QueryResult}
    (hmatches : QueryTree.matches externals whole root source = .ok results)
    {result : QueryResult} (hresult : result ∈ results) :
    HasTrace externals source whole result := by
  have hempty : Sound (TracedEntry externals source whole) [] := fun entry h => by cases h
  obtain ⟨hall, -, -⟩ := returns_hasTrace whole (List.Subset.refl _) (List.Subset.refl _) root []
    hempty
  unfold QueryTree.matches at hmatches
  obtain ⟨found, hrun, rfl⟩ := exists_of_map_eq_ok hmatches
  exact hall found hrun result ((List.destutter_sublist _ _).subset hresult)

end Traces

/-- Regex constraints hold of every reported binding. For a query tree made by
`build_query_tree` with a map of constraints, every result of `matches` has a
trace, and an entry recorded for a variable with a constraint, at any depth,
covers a text that matches the expression unless the constraint is negative. -/
theorem matches_constrained {externals : Externals} {query : String} {up : Option Node}
    {pattern : Node} {constraints : RegexMap} {tree : QueryTree}
    (hbuild : buildQueryTree externals query up pattern constraints = .ok tree) {source : String}
    {root : Node} {results : List QueryResult}
    (hmatches : QueryTree.matches externals tree root source = .ok results)
    {result : QueryResult} (hresult : result ∈ results) :
    (∃ origins, Traced externals source tree result origins) ∧
    ∀ origins, Traced externals source tree result origins →
      origins.length = result.captures.length ∧
      ∀ (i : ℕ) entry name constraint negative regex, result.captures[i]? = some entry →
        origins[i]? = some (.variable name constraint) →
        constraints.lookup name = some (negative, regex) →
        externals.isMatch regex (slice source entry.range) = some !negative := by
  have hfinished := outcome_ok (finished_buildQueryTree externals query up pattern constraints) hbuild
  refine ⟨hasTrace_matches hmatches hresult, ?_⟩
  intro origins htraced
  have hrecorded := recorded_traced htraced
  refine ⟨hrecorded.length_eq.symm, ?_⟩
  intro i entry name constraint negative regex hentry horigin hlookup
  obtain ⟨hlt, rfl⟩ := List.getElem?_eq_some_iff.mp hentry
  obtain ⟨hlt', horigin⟩ := List.getElem?_eq_some_iff.mp horigin
  have hpair := (List.forall₂_iff_get.mp hrecorded).2 i hlt hlt'
  rw [List.get_eq_getElem, List.get_eq_getElem, horigin] at hpair
  obtain ⟨t, ht, c, hcapture, heq, haccepts⟩ := hpair
  have hconstraint : constraint = some (negative, regex) := by
    rw [← hlookup]
    exact (hfinished.wellFormed t ht).constrained name constraint (List.mem_of_getElem? hcapture)
  rw [hconstraint] at haccepts
  rw [heq]
  exact isMatch_of_accepts haccepts

/-- The constraint that the variable of the sample pattern contains an `a`. -/
def sampleConstraints : RegexMap := Finmap.singleton "$x" (false, ⟨"a"⟩)

/-- Of the two names of the program only the one with an `a` is reported. -/
theorem matches_constrained_sample :
    ∃ (tree : QueryTree) (results : List QueryResult) (result : QueryResult),
      buildQueryTree literalExternals samplePatternText (some samplePatternRoot) samplePattern
        sampleConstraints = .ok tree ∧
      QueryTree.matches literalExternals tree pairRoot pairSource = .ok results ∧
      result ∈ results ∧
      ((∃ origins, Traced literalExternals pairSource tree result origins) ∧
      ∀ origins, Traced literalExternals pairSource tree result origins →
        origins.length = result.captures.length ∧
        ∀ (i : ℕ) entry name constraint negative regex, result.captures[i]? = some entry →
          origins[i]? = some (.variable name constraint) →
          sampleConstraints.lookup name = some (negative, regex) →
          literalExternals.isMatch regex (slice pairSource entry.range) = some !negative) := by
  have hrun : (buildQueryTree literalExternals samplePatternText (some samplePatternRoot)
      samplePattern sampleConstraints).toOption.bind (fun tree =>
        (QueryTree.matches literalExternals tree pairRoot pairSource).toOption.map List.length) =
      some 1 := by decide +kernel
  obtain ⟨tree, hbuild, hlength⟩ := Option.bind_eq_some_iff.mp hrun
  obtain ⟨results, hmatches, hone⟩ := Option.map_eq_some_iff.mp hlength
  obtain ⟨result, rfl⟩ := List.length_eq_one_iff.mp hone
  have hmem := List.mem_singleton_self result
  have hbuilt := eq_ok_of_toOption hbuild
  have hreported := eq_ok_of_toOption hmatches
  exact ⟨tree, [result], result, hbuilt, hreported, hmem,
    matches_constrained hbuilt hreported hmem⟩

end WeggliEnhance.CaptureProvenance
