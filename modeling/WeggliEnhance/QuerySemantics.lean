import WeggliEnhance.DuplicateRemoval
import WeggliEnhance.EngineMemoization
import WeggliEnhance.NarrowedQueries

/-!
# What a query means

The meaning of a query tree without its algorithm. An answer on a node takes
one match of every pattern, in source order, and one answer of every
sub-query on the node it is attached to; all of them agree on the variables
they share, and no answer of a negative query opposes the result. The engine
with its cache, its early exits and its loops returns exactly the answers.
-/

namespace WeggliEnhance.QuerySemantics

open SourceText SyntaxTree ThirdParty QueryTrees QueryResults QueryEngine FallibleState Memoization
  PartialJoin CompoundJoin EngineMemoization NarrowedQueries DuplicateRemoval

/-- What each query answers on each node. -/
abbrev Reading := QueryTree → Node → QueryResult → Prop

section Meaning

variable (externals : Externals) (source : String)

/-- The results bind their common variables to the same texts. -/
abbrev Coherent (first second : QueryResult) : Prop := Agree first source second source

/-- What one match yields: its captures pass their checks, and one answer of
each sub-query is added that agrees with all others. -/
def MatchAnswer (answers : Reading) (tree : QueryTree) (queryMatch : QueryMatch)
    (result : QueryResult) : Prop :=
  ∃ state founds, collect externals source tree .start queryMatch.captures = .ok (some state) ∧
    List.Forall₂ (fun sub found => answers sub.1 sub.2 found) state.subqueries founds ∧
    (state.result :: founds).Pairwise (Coherent source) ∧
    result = founds.foldl QueryResult.append state.result

/-- One match of every pattern, each behind the one before. -/
def Composed (answers : Reading) (tree : QueryTree) (root : Node) (result : QueryResult) : Prop :=
  ∃ parts : List QueryResult, parts.length = tree.query.patterns.length ∧
    parts.Pairwise (Joinable source) ∧ concatenate parts = some result ∧
    ∀ i part, parts[i]? = some part → ∃ queryMatch ∈ externals.cursorMatches tree.query root source,
      queryMatch.patternIndex = i ∧ MatchAnswer externals source answers tree queryMatch part

/-- No answer of a negative query rules the result out. -/
def Unopposed (answers : Reading) (tree : QueryTree) (root : Node) (result : QueryResult) : Prop :=
  ∀ neg ∈ tree.negations, ∀ n, answers neg.qt root n →
    negationApplies tree.id neg.previousCaptureIndex source result n = false

/-- The meaning of queries up to a nesting depth. -/
def answersUpTo : ℕ → Reading
  | 0 => fun _ _ _ => False
  | depth + 1 => fun tree root result =>
    Composed externals source (answersUpTo depth) tree root result ∧
      Unopposed source (answersUpTo depth) tree root result

/-- The meaning of a query. -/
def Answer (tree : QueryTree) (root : Node) (result : QueryResult) : Prop :=
  answersUpTo externals source tree.depth tree root result

end Meaning

section Congruence

variable {externals : Externals} {source : String} {answers answers' : Reading} {tree : QueryTree}
  {root : Node}

theorem forall₂_congr_mem {α β : Type*} {P Q : α → β → Prop} {first : List α} {second : List β}
    (h : ∀ a ∈ first, ∀ b, P a b ↔ Q a b) :
    List.Forall₂ P first second ↔ List.Forall₂ Q first second :=
  ⟨fun hP => MirroredPatterns.forall₂_imp_of_mem hP fun a ha b _ => (h a ha b).mp,
    fun hQ => MirroredPatterns.forall₂_imp_of_mem hQ fun a ha b _ => (h a ha b).mpr⟩

/-- A match depends on the answers of the children of its tree. -/
theorem matchAnswer_congr (h : ∀ child ∈ tree.children, ∀ node result,
      answers child node result ↔ answers' child node result) {queryMatch : QueryMatch}
    {result : QueryResult} :
    MatchAnswer externals source answers tree queryMatch result ↔
      MatchAnswer externals source answers' tree queryMatch result := by
  unfold MatchAnswer
  refine exists_congr fun state => exists_congr fun founds => and_congr_right ?_
  intro hcollect
  refine and_congr_left fun _ => forall₂_congr_mem ?_
  intro sub hsub found
  rcases collect_subqueries hcollect sub hsub with hstart | ⟨hchild, -⟩
  · cases hstart
  · exact h sub.1 hchild sub.2 found

theorem composed_congr (h : ∀ child ∈ tree.children, ∀ node result,
      answers child node result ↔ answers' child node result) {result : QueryResult} :
    Composed externals source answers tree root result ↔
      Composed externals source answers' tree root result := by
  unfold Composed
  simp only [matchAnswer_congr h]

theorem unopposed_congr (h : ∀ negative ∈ tree.negatives, ∀ node result,
      answers negative node result ↔ answers' negative node result) {result : QueryResult} :
    Unopposed source answers tree root result ↔ Unopposed source answers' tree root result := by
  unfold Unopposed
  refine forall₂_congr fun neg hneg => forall_congr' fun n => ?_
  rw [h neg.qt (List.mem_map_of_mem hneg)]

/-- All bounds that reach the depth of a tree give it the same meaning. -/
theorem answersUpTo_congr {depth depth' : ℕ} {tree : QueryTree} (h : tree.depth ≤ depth)
    (h' : tree.depth ≤ depth') (root : Node) (result : QueryResult) :
    answersUpTo externals source depth tree root result ↔
      answersUpTo externals source depth' tree root result := by
  have hpos := depth_pos tree
  induction depth generalizing tree depth' root result with
  | zero => omega
  | succ depth ih =>
    cases depth' with
    | zero => omega
    | succ depth' =>
      have hbelow : ∀ child ∈ tree.children ++ tree.negatives, ∀ node result,
          answersUpTo externals source depth child node result ↔
            answersUpTo externals source depth' child node result := by
        intro child hmem node result
        have hlt := depth_lt_of_mem hmem
        exact ih (by omega) (by omega) node result (depth_pos child)
      exact and_congr
        (composed_congr fun child hchild => hbelow child (List.mem_append_left _ hchild))
        (unopposed_congr fun child hchild => hbelow child (List.mem_append_right _ hchild))

/-- The meaning of a query in terms of the meanings of its sub-queries and
negations. -/
theorem answer_iff {result : QueryResult} :
    Answer externals source tree root result ↔
      Composed externals source (Answer externals source) tree root result ∧
        Unopposed source (Answer externals source) tree root result := by
  obtain ⟨depth, hdepth⟩ := Nat.exists_eq_succ_of_ne_zero (depth_pos tree).ne'
  have hbelow : ∀ child ∈ tree.children ++ tree.negatives, ∀ node result,
      answersUpTo externals source depth child node result ↔
        Answer externals source child node result := by
    intro child hmem node result
    have hlt := depth_lt_of_mem hmem
    exact answersUpTo_congr (by omega) le_rfl node result
  rw [Answer, hdepth]
  exact and_congr
    (composed_congr fun child hchild => hbelow child (List.mem_append_left _ hchild))
    (unopposed_congr fun child hchild => hbelow child (List.mem_append_right _ hchild))

end Congruence

section Engine

variable {externals : Externals} {source : String} {answers : Reading} {tree : QueryTree}
  {root : Node} {run : QueryTree → Node → Except Panic (List QueryResult)}

/-- A run that returns lists the answers of a reading. -/
def Lists (outcome : Except Panic (List QueryResult)) (property : QueryResult → Prop) : Prop :=
  ∀ results, outcome = .ok results → ∀ result, result ∈ results ↔ property result

theorem coherent_splits (source : String) : SplitsJoin QueryResult.append (Coherent source) :=
  fun _ _ _ hab => agree_append_iff hab

theorem mem_mergeQueryResults_iff {results subResults : List QueryResult} {result : QueryResult} :
    result ∈ mergeQueryResults results subResults source false ↔
      ∃ base ∈ results, ∃ found ∈ subResults, Coherent source base found ∧
        base.append found = result := by
  simp only [mergeQueryResults, List.mem_flatMap, List.mem_filterMap, merge_eq_some_iff,
    Bool.false_eq_true, false_implies, true_and, eq_comm (a := result)]

/-- Without results nothing is run and nothing is merged. -/
theorem mergeSubqueries_nil (subs : List (QueryTree × Node)) :
    mergeSubqueries source run subs [] = .ok [] := by
  induction subs with
  | nil => rfl
  | cons sub subs ih =>
    rw [mergeSubqueries, List.foldlM_cons]
    exact ih

theorem mergeSubqueries_cons {sub : QueryTree × Node} {subs : List (QueryTree × Node)}
    {results final : List QueryResult} (hresults : results ≠ [])
    (h : mergeSubqueries source run (sub :: subs) results = .ok final) :
    ∃ subResults, run sub.1 sub.2 = .ok subResults ∧
      mergeSubqueries source run subs (mergeQueryResults results subResults source false) =
        .ok final := by
  have hnonempty : results.isEmpty = false := by simpa using hresults
  rw [mergeSubqueries, List.foldlM_cons] at h
  simp only [hnonempty, Bool.false_eq_true, if_false] at h
  obtain ⟨next, hstep, hrest⟩ := exists_of_bind_eq_ok h
  obtain ⟨subResults, hrun, hmerged⟩ := exists_of_bind_eq_ok hstep
  cases hmerged
  exact ⟨subResults, hrun, hrest⟩

/-- Merging in the sub-queries joins every result with each coherent choice of
one answer for every sub-query. -/
theorem mem_mergeSubqueries {subs : List (QueryTree × Node)}
    (hsubs : ∀ sub ∈ subs, Lists (run sub.1 sub.2) (answers sub.1 sub.2))
    {results final : List QueryResult}
    (h : mergeSubqueries source run subs results = .ok final) (result : QueryResult) :
    result ∈ final ↔ ∃ base ∈ results, ∃ founds,
      List.Forall₂ (fun sub found => answers sub.1 sub.2 found) subs founds ∧
        (base :: founds).Pairwise (Coherent source) ∧
        result = founds.foldl QueryResult.append base := by
  induction subs generalizing results with
  | nil =>
    cases h
    simp only [List.forall₂_nil_left_iff, exists_eq_left, List.pairwise_singleton, true_and,
      List.foldl_nil, exists_eq_right']
  | cons sub subs ih =>
    by_cases hresults : results = []
    · subst hresults
      rw [mergeSubqueries_nil] at h
      cases h
      simp
    · obtain ⟨subResults, hrun, hrest⟩ := mergeSubqueries_cons hresults h
      have hfound := hsubs sub List.mem_cons_self subResults hrun
      rw [ih (fun other hother => hsubs other (List.mem_cons_of_mem _ hother)) hrest]
      constructor
      · rintro ⟨joined, hjoined, founds, hfounds, hpairwise, rfl⟩
        obtain ⟨base, hbase, found, hmem, hcoherent, rfl⟩ := mem_mergeQueryResults_iff.mp hjoined
        exact ⟨base, hbase, found :: founds, .cons ((hfound found).mp hmem) hfounds,
          (pairwise_join_iff (coherent_splits source) hcoherent founds).mpr hpairwise, rfl⟩
      · rintro ⟨base, hbase, _, hfounds, hpairwise, rfl⟩
        cases hfounds with
        | @cons _ found _ founds hanswer hfounds =>
          have hcoherent : Coherent source base found :=
            (List.pairwise_cons.mp hpairwise).1 found List.mem_cons_self
          exact ⟨base.append found, mem_mergeQueryResults_iff.mpr
              ⟨base, hbase, found, (hfound found).mpr hanswer, hcoherent, rfl⟩, founds, hfounds,
            (pairwise_join_iff (coherent_splits source) hcoherent founds).mp hpairwise, rfl⟩

theorem lists_processMatch
    (hchildren : ∀ child ∈ tree.children, ∀ node, Lists (run child node) (answers child node))
    (queryMatch : QueryMatch) :
    Lists (processMatch externals source run tree queryMatch)
      (MatchAnswer externals source answers tree queryMatch) := by
  intro results hresults result
  unfold processMatch at hresults
  unfold MatchAnswer
  cases hcollect : collect externals source tree .start queryMatch.captures with
  | error panic =>
    rw [hcollect] at hresults
    cases hresults
  | ok found =>
    rw [hcollect] at hresults
    cases found with
    | none =>
      cases hresults
      simp
    | some state =>
      have hsubs : ∀ sub ∈ state.subqueries, Lists (run sub.1 sub.2) (answers sub.1 sub.2) := by
        intro sub hsub
        rcases collect_subqueries hcollect sub hsub with hstart | ⟨hchild, -⟩
        · cases hstart
        · exact hchildren sub.1 hchild sub.2
      rw [mem_mergeSubqueries hsubs hresults]
      constructor
      · rintro ⟨base, hbase, founds, hfounds, hpairwise, hresult⟩
        rw [List.mem_singleton.mp hbase] at hpairwise hresult
        exact ⟨state, founds, rfl, hfounds, hpairwise, hresult⟩
      · rintro ⟨state', founds, hstate, hfounds, hpairwise, hresult⟩
        cases hstate
        exact ⟨state.result, List.mem_singleton_self _, founds, hfounds, hpairwise, hresult⟩

/-- A result lies in the list of its pattern if some match of the pattern
yields it. -/
theorem mem_patternResults
    (hchildren : ∀ child ∈ tree.children, ∀ node, Lists (run child node) (answers child node))
    {collected : List (List QueryResult)}
    (h : patternResults externals source run tree root = .ok collected) :
    collected.length = tree.query.patterns.length ∧ ∀ i results, collected[i]? = some results →
      ∀ result, result ∈ results ↔ ∃ queryMatch ∈ externals.cursorMatches tree.query root source,
        queryMatch.patternIndex = i ∧ MatchAnswer externals source answers tree queryMatch result := by
  have hprocessed := processed_of_gather h
  obtain ⟨final, hfinal, hlength, hmem⟩ := gather_ok _ _ hprocessed
  cases h.symm.trans hfinal
  refine ⟨hlength.trans List.length_replicate, ?_⟩
  intro i results hresults result
  have hat : resultsAt collected i = results := by
    rw [resultsAt, List.getD_eq_getElem?_getD, hresults, Option.getD_some]
  have hstart : result ∉ resultsAt (List.replicate tree.query.patterns.length []) i := by
    rw [resultsAt, List.getD_eq_getElem?_getD, List.getElem?_replicate]
    split_ifs <;> exact List.not_mem_nil
  rw [← hat, hmem, or_iff_right hstart]
  refine exists_congr fun queryMatch => and_congr_right fun hmatch => and_congr_right fun _ => ?_
  obtain ⟨-, found, hfound⟩ := hprocessed queryMatch hmatch
  have hlists := lists_processMatch hchildren queryMatch found hfound result
  constructor
  · rintro ⟨others, hothers, hresult⟩
    cases hfound.symm.trans hothers
    exact hlists.mp hresult
  · intro hanswer
    exact ⟨found, hfound, hlists.mpr hanswer⟩

/-- The merged lists of all patterns hold the composed results. -/
theorem mem_mergePatterns_iff {collected : List (List QueryResult)} {result : QueryResult} :
    result ∈ mergePatterns source collected ↔ ∃ parts : List QueryResult,
      List.Forall₂ (· ∈ ·) parts collected ∧ parts.Pairwise (Joinable source) ∧
        concatenate parts = some result := by
  rw [mergePatterns_eq_filterMap, List.mem_filterMap]
  refine exists_congr fun parts => ?_
  rw [mem_choices]
  refine and_congr_right fun _ => ?_
  by_cases hpairwise : parts.Pairwise (Joinable source)
  · rw [if_pos hpairwise, and_iff_right hpairwise]
  · rw [if_neg hpairwise]
    exact iff_of_false (by simp) fun h => hpairwise h.1

theorem mem_mergePatterns_composed
    (hchildren : ∀ child ∈ tree.children, ∀ node, Lists (run child node) (answers child node))
    {collected : List (List QueryResult)}
    (h : patternResults externals source run tree root = .ok collected) {result : QueryResult} :
    result ∈ mergePatterns source collected ↔
      Composed externals source answers tree root result := by
  obtain ⟨hlength, hmem⟩ := mem_patternResults hchildren h
  rw [mem_mergePatterns_iff]
  constructor
  · rintro ⟨parts, hparts, hpairwise, hconcatenate⟩
    refine ⟨parts, hparts.length_eq.trans hlength, hpairwise, hconcatenate, ?_⟩
    intro i part hpart
    obtain ⟨hlt, rfl⟩ := List.getElem?_eq_some_iff.mp hpart
    have hlt' : i < collected.length := hparts.length_eq ▸ hlt
    exact (hmem i _ (List.getElem?_eq_getElem hlt') _).mp
      ((List.forall₂_iff_get.mp hparts).2 i hlt hlt')
  · rintro ⟨parts, hcount, hpairwise, hconcatenate, hfrom⟩
    refine ⟨parts, List.forall₂_iff_get.mpr ⟨hcount.trans hlength.symm, ?_⟩, hpairwise,
      hconcatenate⟩
    intro i hlt hlt'
    exact (hmem i _ (List.getElem?_eq_getElem hlt') _).mpr
      (hfrom i _ (List.getElem?_eq_getElem hlt))

/-- A tested candidate is ruled out if a negative query opposes it. -/
theorem ruledOut_eq_false_iff
    (hnegatives : ∀ negative ∈ tree.negatives, Lists (run negative root) (answers negative root))
    {result : QueryResult} {out : Bool} (h : ruledOut source run tree root result = .ok out) :
    out = false ↔ Unopposed source answers tree root result := by
  constructor
  · rintro rfl neg hneg n hn
    obtain ⟨found, hfound, htest⟩ := exists_of_bind_eq_ok (anyM_eq_false h neg hneg)
    have hmem := (hnegatives neg.qt (List.mem_map_of_mem hneg) found hfound n).mpr hn
    exact Bool.eq_false_iff.mpr (List.any_eq_false.mp (Except.ok.inj htest) n hmem)
  · intro hunopposed
    by_contra hout
    obtain ⟨neg, hneg, htest⟩ := (anyM_eq_ok h).mp (Bool.not_eq_false _ ▸ hout)
    obtain ⟨found, hfound, hany⟩ := exists_of_bind_eq_ok htest
    obtain ⟨n, hn, happlies⟩ := List.any_eq_true.mp (Except.ok.inj hany)
    have hanswer := (hnegatives neg.qt (List.mem_map_of_mem hneg) found hfound n).mp hn
    rw [hunopposed neg hneg n hanswer] at happlies
    cases happlies

theorem mem_filterNegations
    (hnegatives : ∀ negative ∈ tree.negatives, Lists (run negative root) (answers negative root))
    {results kept : List QueryResult} (h : filterNegations source run tree root results = .ok kept)
    (result : QueryResult) :
    result ∈ kept ↔ result ∈ results ∧ Unopposed source answers tree root result := by
  have htested := tested_of_filterNegations h
  obtain ⟨final, hfinal, hkept⟩ := filterNegations_ok fun result hresult => by
    obtain ⟨out, hout, -⟩ := htested result hresult
    exact ⟨out, hout⟩
  cases h.symm.trans hfinal
  constructor
  · intro hresult
    obtain ⟨hmem, hout⟩ := hkept result hresult
    exact ⟨hmem, (ruledOut_eq_false_iff hnegatives hout).mp rfl⟩
  · rintro ⟨hmem, hunopposed⟩
    obtain ⟨out, hout, hkeeps⟩ := htested result hmem
    exact hkeeps ((ruledOut_eq_false_iff hnegatives hout).mpr hunopposed)

/-- The algorithm without a cache lists the answers. -/
theorem lists_matchUncached (externals : Externals) (source : String) (tree : QueryTree)
    (root : Node) :
    Lists (matchUncached externals source tree root) (Answer externals source tree root) := by
  induction tree using tree_induction generalizing root with
  | step tree ihsub ihneg =>
    intro results hresults result
    rw [matchUncached, search_eq] at hresults
    obtain ⟨collected, hcollected, hkept⟩ := exists_of_bind_eq_ok hresults
    rw [answer_iff, mem_filterNegations (fun negative hneg => ihneg negative hneg root) hkept,
      mem_mergePatterns_composed ihsub hcollected]

theorem mem_dedup {results : List QueryResult} {result : QueryResult} :
    result ∈ dedup results ↔ result ∈ results := by
  cases results with
  | nil => exact Iff.rfl
  | cons first results => exact mem_destutter'_ne

end Engine

/-- `matches` with its cache lists the answers. -/
theorem lists_matches {externals : Externals} (hinside : externals.ReportsInside)
    {tree : QueryTree} (hids : (tree.subQueries.map QueryTree.id).Nodup) {source : String}
    {root : Node} (hnodes : (root.nodes.map Node.id).Nodup) :
    Lists (QueryTree.matches externals tree root source) (Answer externals source tree root) := by
  intro results h result
  have hempty : Sound (GoodEntry externals source tree root) [] := fun entry h => by cases h
  obtain ⟨hout, -⟩ := matchInternal_returns hinside hids hnodes tree (List.Subset.refl _)
    (mem_nodes_self root) [] hempty
  rw [QueryTree.matches, hout] at h
  obtain ⟨found, hfound, rfl⟩ := exists_of_map_eq_ok h
  rw [mem_dedup, lists_matchUncached externals source tree root found hfound]

/-- A reading gives every query its meaning. -/
def Means (externals : Externals) (source : String) (reading : Reading) : Prop :=
  ∀ tree root result, reading tree root result ↔
    Composed externals source reading tree root result ∧
      Unopposed source reading tree root result

theorem means_answer (externals : Externals) (source : String) :
    Means externals source (Answer externals source) := fun _ _ _ => answer_iff

/-- There is only one meaning. -/
theorem means_unique {externals : Externals} {source : String} {reading : Reading}
    (h : Means externals source reading) (tree : QueryTree) (root : Node) (result : QueryResult) :
    reading tree root result ↔ Answer externals source tree root result := by
  induction tree using tree_induction generalizing root result with
  | step tree ihsub ihneg =>
    rw [h, answer_iff]
    exact and_congr (composed_congr ihsub) (unopposed_congr ihneg)

/-- The engine returns exactly what the query means. For every query tree
whose sub-queries carry distinct ids and every syntax tree with distinct node
ids, whenever `matches` returns, a result is returned if and only if it is
composed of one match for each pattern and one coherent answer for each
sub-query and no answer of a negative query opposes it. -/
theorem mem_matches_iff_meaning {externals : Externals} (hinside : externals.ReportsInside)
    {tree : QueryTree} (hids : (tree.subQueries.map QueryTree.id).Nodup) {source : String}
    {root : Node} (hnodes : (root.nodes.map Node.id).Nodup) {results : List QueryResult}
    (h : QueryTree.matches externals tree root source = .ok results) {reading : Reading}
    (hmeans : Means externals source reading) (result : QueryResult) :
    result ∈ results ↔ reading tree root result :=
  (lists_matches hinside hids hnodes results h result).trans
    (means_unique hmeans tree root result).symm

/-- The query for a block that holds a name, on the sample program. -/
theorem mem_matches_iff_meaning_sample :
    ∃ results, QueryTree.matches sampleExternals sampleTree sampleRoot sampleSource = .ok results ∧
      results.length = 1 ∧ ∀ result, result ∈ results ↔
        Answer sampleExternals sampleSource sampleTree sampleRoot result := by
  have hlength : (QueryTree.matches sampleExternals sampleTree sampleRoot sampleSource).map
      List.length = .ok 1 := by rfl
  obtain ⟨results, hmatches, hone⟩ := exists_of_map_eq_ok hlength
  exact ⟨results, hmatches, hone, mem_matches_iff_meaning sampleExternals_reportsInside (by decide)
    (by decide) hmatches (means_answer sampleExternals sampleSource)⟩

end WeggliEnhance.QuerySemantics
