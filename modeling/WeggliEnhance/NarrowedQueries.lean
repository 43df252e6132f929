import WeggliEnhance.CompoundJoin
import WeggliEnhance.MirroredPatterns
import WeggliEnhance.NarrowedTexts
import WeggliEnhance.PairedRuns

/-!
# Queries that find less

Two query trees of one shape whose patterns are related one by one. Both hold
the same captures, and sub-queries for any sub-expression are related in
turn. When the cursor reads patterns as `PatternSemantics` does and every
match of a pattern of the first tree is one of the second, every result of
the first query is a result of the second.
-/

namespace WeggliEnhance.NarrowedQueries

open SourceText SyntaxTree QueryText ThirdParty QueryTrees QueryResults QueryEngine PatternBuilder
  ArgumentMatching FallibleState PairedRuns PartialJoin CompoundJoin PatternSemantics
  MirroredPatterns NarrowedTexts

mutual

/-- Captures that check the same, with related patterns inside. -/
inductive CapturesNarrow (R : List Item → List Item → Prop) : Capture → Capture → Prop
  /-- The same capture. -/
  | same (capture : Capture) : CapturesNarrow R capture capture
  /-- Sub-queries for any sub-expression. -/
  | wild {tree tree' : QueryTree} :
    TreesNarrow R tree tree' → CapturesNarrow R (.subWildQuery tree) (.subWildQuery tree')

/-- Queries with related patterns and captures and the same negations. -/
inductive TreesNarrow (R : List Item → List Item → Prop) : QueryTree → QueryTree → Prop
  /-- All parts are related one by one. -/
  | intro {text text' : List (List Item)} {captures captures' : List Capture}
    (negations : List NegativeQuery) (vars : Finset String) (id : ℕ) :
    List.Forall₂ R text text' → List.Forall₂ (CapturesNarrow R) captures captures' →
    TreesNarrow R ⟨⟨text⟩, captures, negations, vars, id⟩ ⟨⟨text'⟩, captures', negations, vars, id⟩

end

variable {R R' : List Item → List Item → Prop} {tree tree' : QueryTree}
  {captures captures' : List Capture} {capture capture' : Capture}

section Relations

/-- The query of a wildcard capture is a sub-query. -/
theorem mem_children {query : Query} {negations : List NegativeQuery} {vars : Finset String}
    {id : ℕ} (h : .subWildQuery tree ∈ captures) :
    tree ∈ QueryTree.children ⟨query, captures, negations, vars, id⟩ :=
  List.mem_filterMap.mpr ⟨_, h, rfl⟩

/-- A weaker relation between patterns gives a weaker relation between
queries. -/
theorem treesNarrow_mono (hR : ∀ text text', R text text' → R' text text')
    (h : TreesNarrow R tree tree') : TreesNarrow R' tree tree' := by
  induction tree using tree_induction generalizing tree' with
  | step tree ih _ =>
    cases h with
    | intro negations vars id htext hcaptures =>
      refine .intro negations vars id (htext.imp hR) (forall₂_imp_of_mem hcaptures ?_)
      intro capture hmem capture' _ hcapture
      cases hcapture with
      | same => exact .same capture
      | wild htree => exact .wild (ih _ (mem_children hmem) htree)

/-- Queries whose patterns are equal are equal. -/
theorem eq_of_treesNarrow (hR : ∀ text text', R text text' → text = text')
    (h : TreesNarrow R tree tree') : tree = tree' := by
  induction tree using tree_induction generalizing tree' with
  | step tree ih _ =>
    cases h with
    | @intro text text' captures captures' negations vars id htext hcaptures =>
      have htexts : List.Forall₂ Eq text text' := htext.imp hR
      have hsame : List.Forall₂ Eq captures captures' := by
        refine forall₂_imp_of_mem hcaptures ?_
        intro capture hmem capture' _ hcapture
        cases hcapture with
        | same => rfl
        | wild htree => rw [ih _ (mem_children hmem) htree]
      rw [List.forall₂_eq_eq_eq] at htexts hsame
      rw [htexts, hsame]

/-- Both captures have the same name. -/
theorem name?_of_capturesNarrow (h : CapturesNarrow R capture capture') :
    capture'.name? = capture.name? := by
  cases h with
  | same => rfl
  | wild => rfl

/-- Both captures have the same predicate. -/
theorem checkPredicate_of_capturesNarrow (h : CapturesNarrow R capture capture') (i : ℕ) :
    checkPredicate (capture', i) = checkPredicate (capture, i) := by
  cases h with
  | same => rfl
  | wild => rfl

/-- Predicates and variables depend on what the captures check only. -/
theorem processCaptures_eq {offset : ℕ}
    (h : List.Forall₂ (CapturesNarrow R) (captures.drop offset) (captures'.drop offset)) :
    processCaptures captures' offset = processCaptures captures offset := by
  have hentries : ∀ {added added' : List Capture} (start : ℕ),
      List.Forall₂ (CapturesNarrow R) added added' →
      variableIndices (added'.zipIdx start) = variableIndices (added.zipIdx start) ∧
        (added'.zipIdx start).filterMap checkPredicate =
          (added.zipIdx start).filterMap checkPredicate := by
    intro added added' start hadded
    induction hadded generalizing start with
    | nil => exact ⟨rfl, rfl⟩
    | cons hfirst _ ih =>
      obtain ⟨hvars, hchecks⟩ := ih (start + 1)
      unfold variableIndices at hvars ⊢
      rw [List.zipIdx_cons, List.zipIdx_cons, List.filterMap_cons, List.filterMap_cons,
        List.filterMap_cons, List.filterMap_cons, hvars, hchecks,
        checkPredicate_of_capturesNarrow hfirst, name?_of_capturesNarrow hfirst]
      exact ⟨rfl, rfl⟩
  obtain ⟨hvars, hchecks⟩ := hentries offset h
  simp only [processCaptures, hvars, hchecks]

end Relations

section Collecting

variable {process process' : QueryMatch → Except Panic (List QueryResult)}

/-- The loop over the matches of all patterns. -/
def gather (process : QueryMatch → Except Panic (List QueryResult))
    (collected : List (List QueryResult)) (matched : List QueryMatch) :
    Except Panic (List (List QueryResult)) :=
  matched.foldlM (fun collected queryMatch => do
    let results ← process queryMatch
    liftPanic (extendAt collected queryMatch.patternIndex results)) collected

/-- The results of one pattern. -/
def resultsAt (collected : List (List QueryResult)) (i : ℕ) : List QueryResult := collected.getD i []

/-- Adding results to a pattern that exists. -/
theorem extendAt_ok {collected : List (List QueryResult)} {i : ℕ} (h : i < collected.length)
    (results : List QueryResult) :
    extendAt collected i results = .ok (collected.modify i (· ++ results)) := if_pos h

/-- The results of a pattern after some were added. -/
theorem mem_resultsAt_modify {collected : List (List QueryResult)} {i j : ℕ}
    (h : i < collected.length) {results : List QueryResult} {result : QueryResult} :
    result ∈ resultsAt (collected.modify i (· ++ results)) j ↔
      result ∈ resultsAt collected j ∨ i = j ∧ result ∈ results := by
  rw [resultsAt, resultsAt, List.getD_eq_getElem?_getD, List.getD_eq_getElem?_getD,
    List.getElem?_modify]
  by_cases hij : i = j
  · subst hij
    simp [List.getElem?_eq_getElem h]
  · simp [hij]

/-- The loop succeeds when every match can be processed, and collects the
results of all matches. -/
theorem gather_ok (matched : List QueryMatch) (collected : List (List QueryResult))
    (h : ∀ queryMatch ∈ matched, queryMatch.patternIndex < collected.length ∧
      ∃ results, process queryMatch = .ok results) :
    ∃ final, gather process collected matched = .ok final ∧ final.length = collected.length ∧
      ∀ i result, result ∈ resultsAt final i ↔ result ∈ resultsAt collected i ∨
        ∃ queryMatch ∈ matched, queryMatch.patternIndex = i ∧
          ∃ results, process queryMatch = .ok results ∧ result ∈ results := by
  induction matched generalizing collected with
  | nil =>
    refine ⟨collected, rfl, rfl, ?_⟩
    intro i result
    simp
  | cons queryMatch matched ih =>
    obtain ⟨hindex, results, hresults⟩ := h queryMatch List.mem_cons_self
    have hrest : ∀ other ∈ matched,
        other.patternIndex < (collected.modify queryMatch.patternIndex (· ++ results)).length ∧
          ∃ results, process other = .ok results := by
      intro other hother
      rw [List.length_modify]
      exact h other (List.mem_cons_of_mem _ hother)
    obtain ⟨final, hfinal, hlength, hmem⟩ := ih _ hrest
    refine ⟨final, ?_, hlength.trans (List.length_modify _ _ _), ?_⟩
    · rw [gather, List.foldlM_cons, hresults]
      change (liftPanic (extendAt collected queryMatch.patternIndex results) >>= _) = _
      rw [extendAt_ok hindex]
      exact hfinal
    · intro i result
      rw [hmem, mem_resultsAt_modify hindex]
      constructor
      · rintro ((hold | ⟨hi, hnew⟩) | ⟨other, hother, hlater⟩)
        · exact .inl hold
        · exact .inr ⟨queryMatch, List.mem_cons_self, hi, results, hresults, hnew⟩
        · exact .inr ⟨other, List.mem_cons_of_mem _ hother, hlater⟩
      · rintro (hold | ⟨other, hother, hi, others, hothers, hnew⟩)
        · exact .inl (.inl hold)
        · rcases List.mem_cons.mp hother with rfl | hlater
          · rw [hresults] at hothers
            cases hothers
            exact .inl (.inr ⟨hi, hnew⟩)
          · exact .inr ⟨other, hlater, hi, others, hothers, hnew⟩

/-- When the loop succeeds, every match was processed. -/
theorem processed_of_gather {matched : List QueryMatch} {collected final : List (List QueryResult)}
    (h : gather process collected matched = .ok final) :
    ∀ queryMatch ∈ matched, queryMatch.patternIndex < collected.length ∧
      ∃ results, process queryMatch = .ok results := by
  induction matched generalizing collected with
  | nil => exact List.forall_mem_nil _
  | cons queryMatch matched ih =>
    rw [gather, List.foldlM_cons] at h
    obtain ⟨next, hstep, hrest⟩ := exists_of_bind_eq_ok h
    obtain ⟨results, hresults, hextend⟩ := exists_of_bind_eq_ok hstep
    have hindex : queryMatch.patternIndex < collected.length := by
      by_contra hlarge
      have hpanic : extendAt collected queryMatch.patternIndex results = .error .patternIndex :=
        if_neg hlarge
      rw [hpanic] at hextend
      cases hextend
    rw [extendAt_ok hindex] at hextend
    cases hextend
    rw [List.forall_mem_cons]
    refine ⟨⟨hindex, results, hresults⟩, ?_⟩
    intro other hother
    have hother' := ih hrest other hother
    rw [List.length_modify] at hother'
    exact hother'

/-- A fallible list lies within another one: when the second is computed, so
is the first, and its members are members of the second. -/
def Within (x x' : Except Panic (List QueryResult)) : Prop :=
  ∀ results', x' = .ok results' → ∃ results, x = .ok results ∧ results ⊆ results'

/-- Fewer matches with fewer results each. -/
theorem gather_within {matched matched' : List QueryMatch}
    {collected final' : List (List QueryResult)} (hsubset : matched ⊆ matched')
    (hprocess : ∀ queryMatch ∈ matched, Within (process queryMatch) (process' queryMatch))
    (h : gather process' collected matched' = .ok final') :
    ∃ final, gather process collected matched = .ok final ∧
      List.Forall₂ (· ⊆ ·) final final' := by
  have hprocessed' := processed_of_gather h
  have hprocessed : ∀ queryMatch ∈ matched, queryMatch.patternIndex < collected.length ∧
      ∃ results, process queryMatch = .ok results := by
    intro queryMatch hmem
    obtain ⟨hindex, results', hresults'⟩ := hprocessed' queryMatch (hsubset hmem)
    obtain ⟨results, hresults, -⟩ := hprocess queryMatch hmem results' hresults'
    exact ⟨hindex, results, hresults⟩
  obtain ⟨final, hfinal, hlength, hmem⟩ := gather_ok matched collected hprocessed
  obtain ⟨other, hother, hlength', hmem'⟩ := gather_ok matched' collected hprocessed'
  rw [h] at hother
  cases hother
  refine ⟨final, hfinal, List.forall₂_iff_get.mpr ⟨hlength.trans hlength'.symm, ?_⟩⟩
  intro i hi hi' result hresult
  have hat : ∀ (lists : List (List QueryResult)) (hlt : i < lists.length),
      resultsAt lists i = lists.get ⟨i, hlt⟩ := by
    intro lists hlt
    rw [resultsAt, List.getD_eq_getElem?_getD, List.getElem?_eq_getElem hlt]
    rfl
  rw [← hat final' hi', hmem']
  rw [← hat final hi, hmem] at hresult
  rcases hresult with hold | ⟨queryMatch, hmatch, hindex, results, hresults, hnew⟩
  · exact .inl hold
  · obtain ⟨-, results', hresults'⟩ := hprocessed' queryMatch (hsubset hmatch)
    obtain ⟨less, hless, hwithin⟩ := hprocess queryMatch hmatch results' hresults'
    rw [hresults] at hless
    cases hless
    exact .inr ⟨queryMatch, hsubset hmatch, hindex, results', hresults', hwithin hnew⟩

end Collecting

section Merging

variable {source : String}

/-- Fewer results on both sides merge into fewer. -/
theorem mergeQueryResults_subset {results results' subResults subResults' : List QueryResult}
    (h : results ⊆ results') (hsub : subResults ⊆ subResults') (enforceOrdering : Bool) :
    mergeQueryResults results subResults source enforceOrdering ⊆
      mergeQueryResults results' subResults' source enforceOrdering := by
  intro merged hmerged
  obtain ⟨result, hresult, hmem⟩ := List.mem_flatMap.mp hmerged
  obtain ⟨sub, hsubresult, hmerge⟩ := List.mem_filterMap.mp hmem
  exact List.mem_flatMap.mpr ⟨result, h hresult,
    List.mem_filterMap.mpr ⟨sub, hsub hsubresult, hmerge⟩⟩

/-- Shorter lists leave fewer choices. -/
theorem choices_subset {lists lists' : List (List QueryResult)}
    (h : List.Forall₂ (· ⊆ ·) lists lists') : choices lists ⊆ choices lists' := by
  intro choice hchoice
  rw [mem_choices] at hchoice ⊢
  induction h generalizing choice with
  | nil => exact hchoice
  | cons hfirst _ ih =>
    cases hchoice with
    | cons hmem hrest => exact .cons (hfirst hmem) (ih hrest)

/-- Fewer results for each pattern merge into fewer. -/
theorem mergePatterns_subset {lists lists' : List (List QueryResult)}
    (h : List.Forall₂ (· ⊆ ·) lists lists') :
    mergePatterns source lists ⊆ mergePatterns source lists' := by
  intro result hresult
  rw [mergePatterns_eq_filterMap] at hresult ⊢
  obtain ⟨choice, hchoice, hjoin⟩ := List.mem_filterMap.mp hresult
  exact List.mem_filterMap.mpr ⟨choice, choices_subset h hchoice, hjoin⟩

/-- Fewer results of the sub-queries merge into fewer. -/
theorem mergeSubqueries_within {run : QueryTree → Node → Except Panic (List QueryResult)}
    {subs subs' : List (QueryTree × Node)}
    (h : List.Forall₂ (fun sub sub' => Within (run sub.1 sub.2) (run sub'.1 sub'.2)) subs subs')
    {results results' : List QueryResult} (hresults : results ⊆ results') :
    Within (mergeSubqueries source run subs results) (mergeSubqueries source run subs' results') := by
  induction h generalizing results results' with
  | nil =>
    rintro _ ⟨⟩
    exact ⟨results, rfl, hresults⟩
  | @cons sub sub' subs subs' hsub _ ih =>
    intro final' hfinal'
    unfold mergeSubqueries at ih hfinal' ⊢
    rw [List.foldlM_cons] at hfinal' ⊢
    cases results with
    | nil =>
      obtain ⟨next', -, hrest'⟩ := exists_of_bind_eq_ok hfinal'
      exact ih (List.nil_subset next') final' hrest'
    | cons result results =>
      have hkept' : results'.isEmpty = false := by
        cases results' with
        | nil => cases hresults List.mem_cons_self
        | cons => rfl
      simp only [hkept', Bool.false_eq_true, if_false, List.isEmpty_cons] at hfinal' ⊢
      obtain ⟨next', hstep', hrest'⟩ := exists_of_bind_eq_ok hfinal'
      obtain ⟨subResults', hrun', hmerged'⟩ := exists_of_bind_eq_ok hstep'
      cases hmerged'
      obtain ⟨subResults, hrun, hwithin⟩ := hsub subResults' hrun'
      rw [hrun]
      exact ih (mergeQueryResults_subset hresults hwithin false) final' hrest'

end Merging

section Results

/-- Every match of the first pattern is one of the second, possibly on a node
below, with the same captures. The capture names are numbered alike. -/
structure MatchedBy (text text' : List Item) : Prop where
  /-- The same nodes are captured under the same names in the same order. -/
  matched : ∀ source target captured, Matches source text target captured →
    ∃ target' ∈ target.nodes, Matches source text' target' captured
  /-- The names come in the same order. -/
  names : SameNames (captureNames text) (captureNames text')

/-- The cursor reads patterns denotationally: there is a reported match for
every pattern, every node below the root and all captures the pattern makes
there. They are listed in an order that depends on nothing else. -/
def ReadsPatterns (externals : Externals) : Prop :=
  ∃ arrange : List QueryCapture → List QueryCapture, ∀ query root source queryMatch,
    queryMatch ∈ externals.cursorMatches query root source ↔
      ∃ text target captured, query.text[queryMatch.patternIndex]? = some text ∧
        target ∈ root.nodes ∧ Matches source text target captured ∧
        queryMatch.captures = arrange (captured.map fun c => ⟨c.2, query.index c.1⟩)

/-- Texts that match alike use the same capture names. -/
theorem sameNames_flatten {text text' : List (List Item)} (h : List.Forall₂ MatchedBy text text') :
    SameNames (captureNames text.flatten) (captureNames text'.flatten) := by
  induction h with
  | nil => exact sameNames_refl _
  | cons hfirst _ ih =>
    rw [List.flatten_cons, List.flatten_cons, captureNames_append, captureNames_append]
    exact sameNames_append hfirst.names ih

/-- Both queries number their captures alike. -/
theorem index_eq {text text' : List (List Item)} (h : List.Forall₂ MatchedBy text text')
    (name : String) : (Query.mk text').index name = (Query.mk text).index name := by
  have hnames := sameNames_flatten h [] []
  simp only [List.nil_append, List.append_nil] at hnames
  rw [Query.index, Query.index, Query.captureNames, Query.captureNames, hnames]

variable {externals : Externals} {source : String} {root : Node}

/-- Every reported match of the first query is reported for the second. -/
theorem cursorMatches_subset (hreads : ReadsPatterns externals) {text text' : List (List Item)}
    (h : List.Forall₂ MatchedBy text text') :
    externals.cursorMatches ⟨text⟩ root source ⊆ externals.cursorMatches ⟨text'⟩ root source := by
  obtain ⟨arrange, hreported⟩ := hreads
  intro queryMatch hmem
  rw [hreported] at hmem ⊢
  obtain ⟨pattern, target, captured, hpattern, htarget, hmatch, hcaptures⟩ := hmem
  have hrel := rel_getElem? h queryMatch.patternIndex
  rw [hpattern] at hrel
  obtain ⟨pattern', hpattern', hmatched⟩ : ∃ pattern', text'[queryMatch.patternIndex]? =
      some pattern' ∧ MatchedBy pattern pattern' := by
    cases hget : text'[queryMatch.patternIndex]? with
    | none =>
      rw [hget] at hrel
      cases hrel
    | some pattern' =>
      rw [hget] at hrel
      cases hrel with
      | some hmatched => exact ⟨pattern', rfl, hmatched⟩
  obtain ⟨target', htarget', hmatch'⟩ := hmatched.matched source target captured hmatch
  refine ⟨pattern', target', captured, hpattern', nodes_trans htarget htarget', hmatch', ?_⟩
  simp only [hcaptures, index_eq h]

/-- Sub-queries on the same node. -/
def SubNarrow (R : List Item → List Item → Prop) (sub sub' : QueryTree × Node) : Prop :=
  CapturesNarrow R (.subWildQuery sub.1) (.subWildQuery sub'.1) ∧ sub'.2 = sub.2

/-- States of `process_match` with related sub-queries. -/
structure StatesNarrow (R : List Item → List Item → Prop) (state state' : MatchState) : Prop where
  /-- The same captures are recorded. -/
  r : state'.r = state.r
  /-- The same variables are bound. -/
  vars : state'.vars = state.vars
  /-- The sub-queries are related one by one. -/
  subqueries : List.Forall₂ (SubNarrow R) state.subqueries state'.subqueries

/-- Both states hold the same result. -/
theorem result_of_statesNarrow {state state' : MatchState} (h : StatesNarrow R state state') :
    state'.result = state.result := by
  cases state
  cases state'
  obtain ⟨rfl, rfl, -⟩ := h
  rfl

/-- Both captures check the same. -/
theorem accepts_of_capturesNarrow (h : CapturesNarrow R capture capture') (node : Node) :
    accepts externals source capture' node = accepts externals source capture node := by
  cases h with
  | same => rfl
  | wild => rfl

/-- Both states record the same node. -/
theorem statesNarrow_add {state state' : MatchState} (h : StatesNarrow R state state')
    (hcapture : CapturesNarrow R capture capture') (id : ℕ) (c : QueryCapture) :
    StatesNarrow R (state.add id capture c) (state'.add id capture' c) := by
  have hpush : ∀ entry : CaptureResult, state'.r ++ [entry] = state.r ++ [entry] := by
    intro entry
    rw [h.r]
  have hdefer : ∀ tree tree', CapturesNarrow R (.subWildQuery tree) (.subWildQuery tree') →
      List.Forall₂ (SubNarrow R) (state.subqueries ++ [(tree, c.node)])
        (state'.subqueries ++ [(tree', c.node)]) := by
    intro tree tree' htree
    exact List.rel_append h.subqueries (.cons ⟨htree, rfl⟩ .nil)
  cases hcapture with
  | wild htree => exact ⟨hpush _, h.vars, hdefer _ _ (.wild htree)⟩
  | same =>
    cases capture with
    | subWildQuery tree => exact ⟨hpush _, h.vars, hdefer _ _ (.same _)⟩
    | subMultiQuery tree => exact ⟨h.r, h.vars, hdefer _ _ (.same _)⟩
    | «variable» name constraint =>
      refine ⟨hpush _, ?_, h.subqueries⟩
      change state'.vars.insert name state'.r.length = state.vars.insert name state.r.length
      rw [h.r, h.vars]
    | _ => exact ⟨hpush _, h.vars, h.subqueries⟩

/-- Both loops over the captures of a match end alike. -/
theorem collect_narrow (externals : Externals) (source : String) (h : TreesNarrow R tree tree')
    {state state' : MatchState} (hstate : StatesNarrow R state state') (cs : List QueryCapture) :
    Joint (fun _ => False) (collect externals source tree state cs)
      (collect externals source tree' state' cs) (Option.Rel (StatesNarrow R)) := by
  induction cs generalizing state state' with
  | nil => exact .some hstate
  | cons c cs ih =>
    cases h with
    | @intro text text' captures captures' negations vars id htext hcaptures =>
      rw [collect, collect]
      have hrel := rel_getElem? hcaptures c.index
      dsimp only
      generalize captures[c.index]? = found at hrel ⊢
      generalize captures'[c.index]? = found' at hrel ⊢
      cases hrel with
      | none => exact trivial
      | @some capture capture' hcapture =>
        dsimp only
        rw [accepts_of_capturesNarrow hcapture]
        cases accepts externals source capture c.node with
        | error panic => exact trivial
        | ok passed =>
          cases passed with
          | false => exact .none
          | true => exact ih (statesNarrow_add hstate hcapture id c)

/-- Every outcome lies within itself. -/
theorem within_refl (x : Except Panic (List QueryResult)) : Within x x :=
  fun results h => ⟨results, h, List.Subset.refl results⟩

/-- A match of the narrower query has fewer results. -/
theorem processMatch_within {run : QueryTree → Node → Except Panic (List QueryResult)}
    (hrun : ∀ child ∈ tree.children, ∀ child', TreesNarrow R child child' → ∀ node,
      Within (run child node) (run child' node))
    (h : TreesNarrow R tree tree') (queryMatch : QueryMatch) :
    Within (processMatch externals source run tree queryMatch)
      (processMatch externals source run tree' queryMatch) := by
  have hstart : StatesNarrow R .start .start := ⟨rfl, rfl, .nil⟩
  have hjoint := collect_narrow externals source h hstart queryMatch.captures
  have hchildren := @collect_subqueries externals source tree .start
  unfold processMatch
  cases hcollect : collect externals source tree .start queryMatch.captures with
  | error panic =>
    rw [hcollect] at hjoint
    cases hcollect' : collect externals source tree' .start queryMatch.captures with
    | error panic' =>
      intro results' hresults'
      cases hresults'
    | ok found' =>
      rw [hcollect'] at hjoint
      exact absurd hjoint id
  | ok found =>
    cases hcollect' : collect externals source tree' .start queryMatch.captures with
    | error panic' =>
      intro results' hresults'
      cases hresults'
    | ok found' =>
      have hfound := joint_ok hjoint hcollect hcollect'
      cases hfound with
      | none => exact within_refl _
      | @some state state' hstates =>
        dsimp only
        rw [result_of_statesNarrow hstates]
        refine mergeSubqueries_within (forall₂_imp_of_mem hstates.subqueries ?_)
          (List.Subset.refl _)
        rintro sub hsub sub' - ⟨htree, hnode⟩
        rw [hnode]
        generalize sub'.1 = child' at htree ⊢
        cases htree with
        | same => exact within_refl _
        | wild hnarrow =>
          rcases hchildren hcollect sub hsub with hnone | ⟨hchild, -⟩
          · cases hnone
          · exact hrun sub.1 hchild child' hnarrow sub.2

/-- The test of one candidate in the negation filter. -/
def ruledOut (source : String) (run : QueryTree → Node → Except Panic (List QueryResult))
    (tree : QueryTree) (root : Node) (result : QueryResult) : Except Panic Bool :=
  tree.negations.anyM fun neg => do
    let negativeResults ← run neg.qt root
    pure (negativeResults.any (negationApplies tree.id neg.previousCaptureIndex source result))

variable {run : QueryTree → Node → Except Panic (List QueryResult)}

/-- The filter decides on one result after the other. -/
theorem filterNegations_cons (result : QueryResult) (results : List QueryResult) :
    filterNegations source run tree root (result :: results) = (do
      let negativeQueryMatched ← ruledOut source run tree root result
      let kept ← filterNegations source run tree root results
      pure (if negativeQueryMatched then kept else result :: kept)) := rfl

/-- When the filter succeeds, every candidate was tested. -/
theorem tested_of_filterNegations {results kept : List QueryResult}
    (h : filterNegations source run tree root results = .ok kept) :
    ∀ result ∈ results, ∃ out, ruledOut source run tree root result = .ok out ∧
      (out = false → result ∈ kept) := by
  induction results generalizing kept with
  | nil => exact List.forall_mem_nil _
  | cons result results ih =>
    rw [filterNegations_cons] at h
    obtain ⟨out, hout, hrest⟩ := exists_of_bind_eq_ok h
    obtain ⟨others, hothers, hkept⟩ := exists_of_bind_eq_ok hrest
    cases hkept
    rw [List.forall_mem_cons]
    refine ⟨⟨out, hout, ?_⟩, ?_⟩
    · rintro rfl
      exact List.mem_cons_self
    · intro other hother
      obtain ⟨out', hout', hmem⟩ := ih hothers other hother
      refine ⟨out', hout', ?_⟩
      intro hfalse
      cases out with
      | true => exact hmem hfalse
      | false => exact List.mem_cons_of_mem _ (hmem hfalse)

/-- The filter succeeds when every candidate can be tested. -/
theorem filterNegations_ok {results : List QueryResult}
    (h : ∀ result ∈ results, ∃ out, ruledOut source run tree root result = .ok out) :
    ∃ kept, filterNegations source run tree root results = .ok kept ∧
      ∀ result ∈ kept, result ∈ results ∧ ruledOut source run tree root result = .ok false := by
  induction results with
  | nil => exact ⟨[], rfl, List.forall_mem_nil _⟩
  | cons result results ih =>
    rw [List.forall_mem_cons] at h
    obtain ⟨⟨out, hout⟩, hrest⟩ := h
    obtain ⟨kept, hkept, hmem⟩ := ih hrest
    rw [filterNegations_cons, hout, hkept]
    have hothers : ∀ other ∈ kept, other ∈ result :: results ∧
        ruledOut source run tree root other = .ok false :=
      fun other hother => ⟨List.mem_cons_of_mem _ (hmem other hother).1, (hmem other hother).2⟩
    cases out with
    | true => exact ⟨kept, rfl, hothers⟩
    | false =>
      exact ⟨result :: kept, rfl,
        List.forall_mem_cons.mpr ⟨⟨List.mem_cons_self, hout⟩, hothers⟩⟩

/-- Fewer candidates pass the same negations. -/
theorem filterNegations_within (h : TreesNarrow R tree tree') {results results' : List QueryResult}
    (hresults : results ⊆ results') :
    Within (filterNegations source run tree root results)
      (filterNegations source run tree' root results') := by
  have hsame : ∀ result, ruledOut source run tree' root result =
      ruledOut source run tree root result := by
    cases h with
    | intro => exact fun _ => rfl
  intro kept' hkept'
  have htested := tested_of_filterNegations hkept'
  have hdecided : ∀ result ∈ results, ∃ out, ruledOut source run tree root result = .ok out := by
    intro result hresult
    obtain ⟨out, hout, -⟩ := htested result (hresults hresult)
    exact ⟨out, (hsame result).symm.trans hout⟩
  obtain ⟨kept, hkept, hmem⟩ := filterNegations_ok hdecided
  refine ⟨kept, hkept, ?_⟩
  intro result hresult
  obtain ⟨hcandidate, hfalse⟩ := hmem result hresult
  obtain ⟨out, hout, hkeeps⟩ := htested result (hresults hcandidate)
  rw [hsame, hfalse] at hout
  cases hout
  exact hkeeps rfl

/-- Every result of the narrower query is a result of the other one. -/
theorem matchUncached_within (hreads : ReadsPatterns externals)
    (h : TreesNarrow MatchedBy tree tree') (root : Node) :
    Within (matchUncached externals source tree root)
      (matchUncached externals source tree' root) := by
  induction tree using tree_induction generalizing tree' root with
  | step tree ih _ =>
    have hprocess : ∀ queryMatch, Within
        (processMatch externals source (matchUncached externals source) tree queryMatch)
        (processMatch externals source (matchUncached externals source) tree' queryMatch) :=
      processMatch_within (fun child hchild child' hnarrow node => ih child hchild hnarrow node) h
    rw [matchUncached, matchUncached, search_eq, search_eq]
    intro results' hresults'
    obtain ⟨collected', hcollected', hkept'⟩ := exists_of_bind_eq_ok hresults'
    have hcollected : ∃ collected, patternResults externals source (matchUncached externals source)
        tree root = .ok collected ∧ List.Forall₂ (· ⊆ ·) collected collected' := by
      cases h with
      | @intro text text' captures captures' negations vars id htext hcaptures =>
        have hcount : (Query.mk text').patterns.length = (Query.mk text).patterns.length := by
          rw [Query.patterns, Query.patterns, List.length_map, List.length_map, htext.length_eq]
        unfold patternResults at hcollected' ⊢
        dsimp only at hcollected' ⊢
        rw [hcount] at hcollected'
        exact gather_within (cursorMatches_subset hreads htext)
          (fun queryMatch _ => hprocess queryMatch) hcollected'
    obtain ⟨collected, hcollected, hlists⟩ := hcollected
    obtain ⟨results, hresults, hsubset⟩ :=
      filterNegations_within h (mergePatterns_subset hlists) results' hkept'
    refine ⟨results, ?_, hsubset⟩
    change (patternResults externals source (matchUncached externals source) tree root >>= _) = _
    rw [hcollected]
    exact hresults

end Results

end WeggliEnhance.NarrowedQueries
