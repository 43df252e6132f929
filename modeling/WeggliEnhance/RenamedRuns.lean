import WeggliEnhance.MemoImages
import WeggliEnhance.QuerySemantics
import WeggliEnhance.RelabelledQueries

/-!
# Running a query with renamed variables

The engine compares variables and never reads their names. A query with
renamed variables and the same constraints hits the cache at the same places,
fails at the same places and returns the same results with renamed variables.
-/

namespace WeggliEnhance.RenamedRuns

open SourceText SyntaxTree QueryText ThirdParty QueryTrees QueryResults QueryEngine PatternBuilder
  BuilderEmission QueryTreeConstruction FallibleState Memoization MemoImages PairedRuns
  RelabelledPatterns RelabelledQueries

section Results

variable (ρ : Renaming)

/-- The entries of a map under their new names. -/
def renameEntries (entries : Multiset (Σ _ : String, ℕ)) : Multiset (Σ _ : String, ℕ) :=
  entries.map (.map ρ.word fun _ => id)

/-- The names are renamed one by one. -/
theorem keys_renameEntries (entries : Multiset (Σ _ : String, ℕ)) :
    (renameEntries ρ entries).keys = entries.keys.map ρ.word := by
  simp only [renameEntries, Multiset.keys, Multiset.map_map]
  rfl

/-- A map of variables under their new names. -/
def renameVars (vars : VarMap) : VarMap where
  entries := renameEntries ρ vars.entries
  nodupKeys := by
    have h := vars.nodupKeys
    rw [← Multiset.nodup_keys] at h ⊢
    rw [keys_renameEntries]
    exact h.map ρ.injective

/-- A renamed variable points to the same capture. -/
theorem lookup_renameVars (vars : VarMap) (var : String) :
    (renameVars ρ vars).lookup (ρ.word var) = vars.lookup var := by
  induction vars using Finmap.induction_on with
  | H list => exact List.dlookup_map₁ list.entries ρ.injective var

/-- The variables are the renamed ones. -/
theorem mem_renameVars {vars : VarMap} {var : String} :
    var ∈ renameVars ρ vars ↔ ∃ old ∈ vars, ρ.word old = var := by
  rw [Finmap.mem_def]
  change var ∈ (renameEntries ρ vars.entries).keys ↔ _
  rw [keys_renameEntries, Multiset.mem_map]
  rfl

/-- A map that binds the new names as another map binds the old ones. -/
theorem eq_renameVars {vars vars' : VarMap}
    (h : ∀ var, vars'.lookup (ρ.word var) = vars.lookup var)
    (hrange : ∀ var ∈ vars', ∃ old, ρ.word old = var) : vars' = renameVars ρ vars := by
  refine Finmap.ext_lookup ?_
  intro var
  by_cases hvar : ∃ old, ρ.word old = var
  · obtain ⟨old, rfl⟩ := hvar
    rw [h, lookup_renameVars]
  · have hleft : var ∉ vars' := fun hmem => hvar (hrange var hmem)
    have hright : var ∉ renameVars ρ vars := by
      intro hmem
      obtain ⟨old, -, hold⟩ := (mem_renameVars ρ).mp hmem
      exact hvar ⟨old, hold⟩
    rw [Finmap.lookup_eq_none.mpr hleft, Finmap.lookup_eq_none.mpr hright]

/-- Different variables stay different. -/
theorem renameVars_injective : Function.Injective (renameVars ρ) := by
  intro vars vars' h
  refine Finmap.ext_lookup ?_
  intro var
  rw [← lookup_renameVars ρ, h, lookup_renameVars]

/-- No variable stays none. -/
theorem renameVars_empty : renameVars ρ ∅ = ∅ := by
  refine (eq_renameVars ρ ?_ ?_).symm
  · intro var
    rw [Finmap.lookup_empty, Finmap.lookup_empty]
  · intro var hvar
    exact absurd hvar Finmap.notMem_empty

/-- A new variable gets its new name. -/
theorem renameVars_insert (vars : VarMap) (name : String) (i : ℕ) :
    renameVars ρ (vars.insert name i) = (renameVars ρ vars).insert (ρ.word name) i := by
  refine (eq_renameVars ρ ?_ ?_).symm
  · intro var
    by_cases hvar : var = name
    · rw [hvar, Finmap.lookup_insert, Finmap.lookup_insert]
    · rw [Finmap.lookup_insert_of_ne _ hvar,
        Finmap.lookup_insert_of_ne _ fun h => hvar (ρ.injective h), lookup_renameVars]
  · intro var hvar
    rcases Finmap.mem_insert.mp hvar with rfl | hold
    · exact ⟨name, rfl⟩
    · obtain ⟨old, -, heq⟩ := (mem_renameVars ρ).mp hold
      exact ⟨old, heq⟩

/-- The map of two concatenated results. -/
theorem renameVars_union (vars other : VarMap) (offset : ℕ) :
    renameVars ρ (vars ∪ shiftVars offset other) =
      renameVars ρ vars ∪ shiftVars offset (renameVars ρ other) := by
  refine (eq_renameVars ρ ?_ ?_).symm
  · intro var
    have hmem : ρ.word var ∈ renameVars ρ vars ↔ var ∈ vars := by
      rw [mem_renameVars]
      exact ⟨fun ⟨old, hold, heq⟩ => ρ.injective heq ▸ hold, fun h => ⟨var, h, rfl⟩⟩
    by_cases hvar : var ∈ vars
    · rw [Finmap.lookup_union_left hvar, Finmap.lookup_union_left (hmem.mpr hvar),
        lookup_renameVars]
    · rw [Finmap.lookup_union_right hvar,
        Finmap.lookup_union_right fun h => hvar (hmem.mp h), lookup_shiftVars, lookup_shiftVars,
        lookup_renameVars]
  · intro var hvar
    rw [Finmap.mem_union, mem_shiftVars] at hvar
    rcases hvar with hleft | hright
    · obtain ⟨old, -, heq⟩ := (mem_renameVars ρ).mp hleft
      exact ⟨old, heq⟩
    · obtain ⟨old, -, heq⟩ := (mem_renameVars ρ).mp hright
      exact ⟨old, heq⟩

/-- Renamed variables point to captures of the result. -/
theorem renameVars_lt {vars : VarMap} {bound : ℕ}
    (h : ∀ {var i}, vars.lookup var = some i → i < bound) {var : String} {i : ℕ}
    (hvar : (renameVars ρ vars).lookup var = some i) : i < bound := by
  obtain ⟨old, -, rfl⟩ := (mem_renameVars ρ).mp (Finmap.mem_iff.mpr ⟨i, hvar⟩)
  rw [lookup_renameVars] at hvar
  exact h hvar

/-- A result with renamed variables. -/
def renameResult (result : QueryResult) : QueryResult where
  captures := result.captures
  vars := renameVars ρ result.vars
  function := result.function
  vars_lt := renameVars_lt ρ result.vars_lt

/-- Different results stay different. -/
theorem renameResult_injective : Function.Injective (renameResult ρ) := by
  rintro ⟨captures, vars, function, hlt⟩ ⟨captures', vars', function', hlt'⟩ h
  simp only [renameResult, QueryResult.mk.injEq] at h ⊢
  exact ⟨h.1, renameVars_injective ρ h.2.1, h.2.2⟩

/-- A renamed variable has the same text. -/
theorem value_renameResult (result : QueryResult) (var source : String) :
    (renameResult ρ result).value (ρ.word var) source = result.value var source := by
  simp only [QueryResult.value, renameResult, lookup_renameVars]

/-- Renaming keeps conflicts. -/
theorem agree_renameResult (first second : QueryResult) (source source' : String) :
    Agree (renameResult ρ first) source (renameResult ρ second) source' ↔
      Agree first source second source' := by
  constructor
  · intro h var text text' hfirst hsecond
    refine h (ρ.word var) text text' ?_ ?_
    · rw [value_renameResult, hfirst]
    · rw [value_renameResult, hsecond]
  · intro h var text text' hfirst hsecond
    have hvar : var ∈ (renameResult ρ first).vars :=
      (value_isSome_iff source).mp (Option.isSome_of_eq_some hfirst)
    obtain ⟨old, -, rfl⟩ := (mem_renameVars ρ).mp hvar
    rw [value_renameResult] at hfirst hsecond
    exact h old text text' hfirst hsecond

/-- Appending results and renaming them. -/
theorem append_renameResult (first second : QueryResult) :
    (renameResult ρ first).append (renameResult ρ second) =
      renameResult ρ (first.append second) := by
  simp only [QueryResult.append, renameResult, renameVars_union]

/-- Merging results and renaming them. -/
theorem merge_renameResult (first second : QueryResult) (source : String) (enforceOrder : Bool) :
    (renameResult ρ first).merge (renameResult ρ second) source enforceOrder =
      (first.merge second source enforceOrder).map (renameResult ρ) := by
  have hconflicts : conflicts (renameResult ρ first) source (renameResult ρ second) source =
      conflicts first source second source := by
    rw [Bool.eq_iff_iff, ← not_iff_not, Bool.not_eq_true, Bool.not_eq_true,
      conflicts_eq_false_iff, conflicts_eq_false_iff, agree_renameResult]
  have hcaptures : ∀ result, (renameResult ρ result).captures = result.captures := fun _ => rfl
  unfold QueryResult.merge
  rw [hconflicts, append_renameResult, hcaptures, hcaptures]
  split_ifs <;> rfl

/-- Merging lists of results and renaming them. -/
theorem mergeQueryResults_rename (results subResults : List QueryResult) (source : String)
    (enforceOrdering : Bool) :
    mergeQueryResults (results.map (renameResult ρ)) (subResults.map (renameResult ρ)) source
        enforceOrdering =
      (mergeQueryResults results subResults source enforceOrdering).map (renameResult ρ) := by
  simp only [mergeQueryResults, List.flatMap_map, List.map_flatMap, List.filterMap_map,
    List.map_filterMap, Function.comp_def, merge_renameResult]

/-- The loop over the patterns. -/
theorem mergeLoop_rename (source : String) (merged : List QueryResult)
    (rest : List (List QueryResult)) :
    mergeLoop source (merged.map (renameResult ρ)) (rest.map (List.map (renameResult ρ))) =
      (mergeLoop source merged rest).map (renameResult ρ) := by
  induction rest generalizing merged with
  | nil => rfl
  | cons results rest ih =>
    rw [List.map_cons, mergeLoop, mergeLoop, List.isEmpty_map]
    by_cases hmerged : merged.isEmpty = true
    · rw [if_pos hmerged, if_pos hmerged, ← List.map_append, ih]
    · rw [if_neg hmerged, if_neg hmerged]
      simp only [mergeQueryResults_rename, List.isEmpty_map]
      split_ifs
      · rfl
      · exact ih _

/-- The results of all patterns, merged and renamed. -/
theorem mergePatterns_rename (source : String) (collected : List (List QueryResult)) :
    mergePatterns source (collected.map (List.map (renameResult ρ))) =
      (mergePatterns source collected).map (renameResult ρ) := by
  have hany : (collected.map (List.map (renameResult ρ))).any List.isEmpty =
      collected.any List.isEmpty := by
    simp only [List.any_map, Function.comp_def, List.isEmpty_map]
  unfold mergePatterns
  rw [hany]
  split_ifs
  · rfl
  · exact mergeLoop_rename ρ source [] collected

/-- A negation applies to the renamed results alike. -/
theorem negationApplies_rename (queryId : ℕ) (index : ℤ) (source : String)
    (result n : QueryResult) :
    negationApplies queryId index source (renameResult ρ result) (renameResult ρ n) =
      negationApplies queryId index source result n := by
  have hfound : ∀ captureIdx, (renameResult ρ result).getCaptureResult queryId captureIdx =
      result.getCaptureResult queryId captureIdx := fun _ => rfl
  have hstart : (renameResult ρ n).startOffset = n.startOffset := rfl
  unfold negationApplies
  rw [merge_renameResult, Option.isNone_map, hfound, hfound, hstart]

/-- Equal neighbours stay equal neighbours. -/
theorem dedup_rename (results : List QueryResult) :
    dedup (results.map (renameResult ρ)) = (dedup results).map (renameResult ρ) := by
  exact (List.map_destutter_ne _ (renameResult_injective ρ)).symm

end Results

section Trees

variable (ρ : Renaming) (constraints : RegexMap)

/-- The sub-queries are relabelled. -/
theorem children_relabelTree (tree : QueryTree) :
    (relabelTree ρ constraints tree).children =
      tree.children.map (relabelTree ρ constraints) := by
  rw [relabelTree_eq]
  simp only [QueryTree.children, List.filterMap_map, List.map_filterMap, Function.comp_def,
    tree?_relabelCapture]

/-- The negative queries are relabelled. -/
theorem negatives_relabelTree (tree : QueryTree) :
    (relabelTree ρ constraints tree).negatives =
      tree.negatives.map (relabelTree ρ constraints) := by
  rw [relabelTree_eq]
  simp only [QueryTree.negatives, List.map_map]
  rfl

/-- Relabelling keeps the nesting. -/
theorem depth_relabelTree (tree : QueryTree) :
    (relabelTree ρ constraints tree).depth = tree.depth := by
  induction tree using tree_induction with
  | step tree ihsub ihneg =>
    have hsub : tree.children.map (QueryTree.depth ∘ relabelTree ρ constraints) =
        tree.children.map QueryTree.depth := List.map_congr_left ihsub
    have hneg : tree.negatives.map (QueryTree.depth ∘ relabelTree ρ constraints) =
        tree.negatives.map QueryTree.depth := List.map_congr_left ihneg
    have hdepth : ∀ tree : QueryTree, tree.depth =
        (tree.children.map QueryTree.depth ++ tree.negatives.map QueryTree.depth).foldr max 0 + 1 :=
      fun tree => fold_eq _ tree
    rw [hdepth, hdepth tree, children_relabelTree, negatives_relabelTree, List.map_map,
      List.map_map, hsub, hneg]

/-- The variables of a tree carry the constraints listed under their new
names. -/
def CarriesConstraints (tree : QueryTree) : Prop :=
  ∀ t ∈ tree.trees, ∀ name constraint, .variable name constraint ∈ t.captures →
    constraints.lookup (ρ.word name) = constraint

end Trees

section Engine

variable {ρ : Renaming} {constraints : RegexMap} {externals : Externals} {source : String}
  {tree : QueryTree}

/-- Sub-queries and negative queries carry the same constraints. -/
theorem carriesConstraints_of_mem (h : CarriesConstraints ρ constraints tree) {child : QueryTree}
    (hchild : child ∈ tree.children ++ tree.negatives) : CarriesConstraints ρ constraints child :=
  fun t ht => h t (child_trees hchild ht)

/-- The checks of a capture stay. -/
theorem accepts_relabelCapture {capture : Capture}
    (h : ∀ name constraint, capture = .variable name constraint →
      constraints.lookup (ρ.word name) = constraint) (node : Node) :
    accepts externals source (relabelCapture ρ constraints capture) node =
      accepts externals source capture node := by
  cases capture with
  | «variable» name constraint =>
    rw [relabelCapture, h name constraint rfl]
    cases constraint <;> rfl
  | display => rw [relabelCapture]
  | check text => rw [relabelCapture]
  | number value => rw [relabelCapture]
  | callExpQuery count minimum => rw [relabelCapture]
  | subWildQuery tree =>
    rw [relabelCapture]
    rfl
  | subMultiQuery tree =>
    rw [relabelCapture]
    rfl

/-- A sub-query of the relabelled tree. -/
def relabelSub (ρ : Renaming) (constraints : RegexMap) (sub : QueryTree × Node) :
    QueryTree × Node := (relabelTree ρ constraints sub.1, sub.2)

/-- The state of `process_match` on the relabelled tree. -/
def renameState (ρ : Renaming) (constraints : RegexMap) (state : MatchState) : MatchState where
  r := state.r
  vars := renameVars ρ state.vars
  subqueries := state.subqueries.map (relabelSub ρ constraints)
  vars_lt := renameVars_lt ρ state.vars_lt

/-- A captured node is recorded under the new name. -/
theorem add_renameState (state : MatchState) (id : ℕ) (capture : Capture) (c : QueryCapture) :
    (renameState ρ constraints state).add id (relabelCapture ρ constraints capture) c =
      renameState ρ constraints (state.add id capture c) := by
  cases capture with
  | «variable» name constraint =>
    simp only [relabelCapture, MatchState.add, MatchState.pushVariable, renameState,
      renameVars_insert]
  | subWildQuery tree =>
    simp only [relabelCapture, MatchState.add, MatchState.push, MatchState.defer, renameState,
      List.map_append, List.map_cons, List.map_nil, relabelSub]
  | subMultiQuery tree =>
    simp only [relabelCapture, MatchState.add, MatchState.defer, renameState,
      List.map_append, List.map_cons, List.map_nil, relabelSub]
  | display => simp only [relabelCapture, MatchState.add, MatchState.push, renameState]
  | check text => simp only [relabelCapture, MatchState.add, MatchState.push, renameState]
  | number value => simp only [relabelCapture, MatchState.add, MatchState.push, renameState]
  | callExpQuery count minimum =>
    simp only [relabelCapture, MatchState.add, MatchState.push, renameState]

/-- The captures of a match are collected under the new names. -/
theorem collect_relabelTree
    (h : ∀ name constraint, .variable name constraint ∈ tree.captures →
      constraints.lookup (ρ.word name) = constraint) (state : MatchState)
    (cs : List QueryCapture) :
    collect externals source (relabelTree ρ constraints tree) (renameState ρ constraints state) cs =
      (collect externals source tree state cs).map (Option.map (renameState ρ constraints)) := by
  induction cs generalizing state with
  | nil => rfl
  | cons c cs ih =>
    have hid : (relabelTree ρ constraints tree).id = tree.id := by rw [relabelTree_eq]
    have hfound : (relabelTree ρ constraints tree).captures[c.index]? =
        tree.captures[c.index]?.map (relabelCapture ρ constraints) := by
      rw [relabelTree_eq, List.getElem?_map]
    rw [collect, collect, hfound, hid]
    cases hcapture : tree.captures[c.index]? with
    | none => rfl
    | some capture =>
      have hmem := List.mem_of_getElem? hcapture
      simp only [Option.map_some]
      rw [accepts_relabelCapture fun name constraint heq => h name constraint (heq ▸ hmem)]
      cases accepts externals source capture c.node with
      | error panic => rfl
      | ok passed =>
        cases passed with
        | false => rfl
        | true =>
          dsimp only
          rw [add_renameState, ih]

/-- The loop over captures starts without variables. -/
theorem renameState_start : renameState ρ constraints .start = .start := by
  simp only [renameState, MatchState.start, renameVars_empty, List.map_nil]

variable {runSub run runSub' run' : QueryTree → Node → EngineM (List QueryResult)}

/-- The renamed results of the relabelled query. -/
abbrev RunImages (ρ : Renaming) (x y : EngineM (List QueryResult)) : Prop :=
  Images (List.map (renameResult ρ)) (List.map (renameResult ρ)) x y

/-- The results of the sub-queries are merged alike. -/
theorem images_mergeSubqueries {subs : List (QueryTree × Node)}
    (hsubs : ∀ sub ∈ subs, RunImages ρ (runSub sub.1 sub.2)
      (runSub' (relabelTree ρ constraints sub.1) sub.2)) (results : List QueryResult) :
    RunImages ρ (mergeSubqueries source runSub subs results)
      (mergeSubqueries source runSub' (subs.map (relabelSub ρ constraints))
        (results.map (renameResult ρ))) := by
  refine images_foldlM rfl rfl ?_
  intro results sub hsub
  rw [List.isEmpty_map]
  split_ifs
  · exact images_pure rfl
  · refine images_bind (hsubs sub hsub) ?_
    intro found
    exact images_pure (mergeQueryResults_rename ρ results found source false)

/-- A match of the relabelled query has the renamed results. -/
theorem images_processMatch
    (h : ∀ name constraint, .variable name constraint ∈ tree.captures →
      constraints.lookup (ρ.word name) = constraint)
    (hsubs : ∀ child ∈ tree.children, ∀ node, RunImages ρ (runSub child node)
      (runSub' (relabelTree ρ constraints child) node)) (queryMatch : QueryMatch) :
    RunImages ρ (processMatch externals source runSub tree queryMatch)
      (processMatch externals source runSub' (relabelTree ρ constraints tree) queryMatch) := by
  have hcollected : collect externals source (relabelTree ρ constraints tree)
      (renameState ρ constraints .start) queryMatch.captures = _ :=
    collect_relabelTree h .start queryMatch.captures
  rw [renameState_start] at hcollected
  unfold processMatch
  rw [hcollected]
  cases hcollect : collect externals source tree .start queryMatch.captures with
  | error panic => exact images_throw panic
  | ok found =>
    cases found with
    | none => exact images_pure rfl
    | some state =>
      refine images_mergeSubqueries ?_ [state.result]
      intro sub hsub
      rcases collect_subqueries hcollect sub hsub with hstart | ⟨hchild, -⟩
      · cases hstart
      · exact hsubs sub.1 hchild sub.2

/-- Results are added to those of their pattern. -/
theorem extendAt_rename (collected : List (List QueryResult)) (i : ℕ)
    (results : List QueryResult) :
    extendAt (collected.map (List.map (renameResult ρ))) i (results.map (renameResult ρ)) =
      (extendAt collected i results).map (List.map (List.map (renameResult ρ))) := by
  unfold extendAt
  rw [List.length_map]
  split_ifs
  · refine congrArg Except.ok ?_
    refine List.ext_getElem? ?_
    intro j
    simp only [List.getElem?_modify, List.getElem?_map]
    cases collected[j]? with
    | none => rfl
    | some old =>
      by_cases hj : i = j
      · simp only [hj, if_true, Option.map_some, Option.map_eq_map, List.map_append]
      · simp only [hj, if_false, Option.map_some, Option.map_eq_map]
  · rfl

/-- The results of the patterns are the renamed ones. -/
theorem images_patternResults
    (h : ∀ name constraint, .variable name constraint ∈ tree.captures →
      constraints.lookup (ρ.word name) = constraint)
    (hsubs : ∀ child ∈ tree.children, ∀ node, RunImages ρ (runSub child node)
      (runSub' (relabelTree ρ constraints child) node)) (root : Node) :
    Images (List.map (renameResult ρ)) (List.map (List.map (renameResult ρ)))
      (patternResults externals source runSub tree root)
      (patternResults externals source runSub' (relabelTree ρ constraints tree) root) := by
  have hquery : (relabelTree ρ constraints tree).query = tree.query := by rw [relabelTree_eq]
  unfold patternResults
  rw [hquery]
  refine images_foldlM (List.map_id _).symm ?_ ?_
  · rw [List.map_replicate, List.map_nil]
  · intro collected queryMatch _
    refine images_bind (images_processMatch h hsubs queryMatch) ?_
    intro results
    dsimp only [id]
    rw [extendAt_rename]
    cases extendAt collected queryMatch.patternIndex results with
    | ok collected => exact images_pure rfl
    | error panic => exact images_throw panic

/-- The same results are ruled out. -/
theorem images_filterNegations {root : Node}
    (hrun : ∀ negative ∈ tree.negatives, RunImages ρ (run negative root)
      (run' (relabelTree ρ constraints negative) root)) (results : List QueryResult) :
    RunImages ρ (filterNegations source run tree root results)
      (filterNegations source run' (relabelTree ρ constraints tree) root
        (results.map (renameResult ρ))) := by
  have hid : (relabelTree ρ constraints tree).id = tree.id := by rw [relabelTree_eq]
  have hnegations : (relabelTree ρ constraints tree).negations =
      tree.negations.map (relabelNegation ρ constraints) := by rw [relabelTree_eq]
  induction results with
  | nil => exact images_pure rfl
  | cons result results ih =>
    rw [List.map_cons, filterNegations, filterNegations, hid]
    refine images_bind (images_anyM hnegations ?_) ?_
    · intro neg hneg
      refine images_bind (hrun neg.qt (List.mem_map_of_mem hneg)) ?_
      intro found
      refine images_pure ?_
      simp only [List.any_map, Function.comp_def, negationApplies_rename, relabelNegation, id]
    · intro matched
      refine images_bind ih ?_
      intro kept
      refine images_pure ?_
      cases matched <;> rfl

/-- At every bound on the nesting the relabelled query runs in step. -/
theorem images_matchFuel (externals : Externals) (source : String) (fuel : ℕ) {tree : QueryTree}
    (h : CarriesConstraints ρ constraints tree) (root : Node) :
    RunImages ρ (matchFuel externals source memoise fuel tree root)
      (matchFuel externals source memoise fuel (relabelTree ρ constraints tree) root) := by
  induction fuel generalizing tree root with
  | zero => exact images_pure rfl
  | succ fuel ih =>
    have hid : ∀ tree, (relabelTree ρ constraints tree).id = tree.id := by
      intro tree
      rw [relabelTree_eq]
    refine images_bind (images_patternResults (h tree (mem_trees_self tree)) ?_ root) ?_
    · intro child hchild node
      rw [hid]
      exact images_memoise (ih (carriesConstraints_of_mem h (List.mem_append_left _ hchild)) node) _
    · intro collected
      rw [mergePatterns_rename]
      refine images_filterNegations ?_ _
      intro negative hnegative
      exact ih (carriesConstraints_of_mem h (List.mem_append_right _ hnegative)) root

/-- The relabelled query returns the renamed results, or panics alike. -/
theorem matches_relabelTree (externals : Externals) {tree : QueryTree}
    (h : CarriesConstraints ρ constraints tree) (root : Node) (source : String) :
    QueryTree.matches externals (relabelTree ρ constraints tree) root source =
      (QueryTree.matches externals tree root source).map (List.map (renameResult ρ)) := by
  have hdedup : ∀ outcome : Except Panic (List QueryResult),
      (outcome.map (List.map (renameResult ρ))).map dedup =
        (outcome.map dedup).map (List.map (renameResult ρ)) := by
    intro outcome
    cases outcome with
    | error panic => rfl
    | ok results => exact congrArg Except.ok (dedup_rename ρ results)
  have hrun := images_matchFuel externals source tree.depth h root []
  rw [imageTable, List.map_nil] at hrun
  unfold QueryTree.matches matchInternal search
  rw [depth_relabelTree, hrun, hdedup]

/-- A built query carries the constraints of its search, and under the new
names those of the other search. -/
theorem carriesConstraints_of_built {up : Option Node} {root : Node} {old : RegexMap}
    (hconstraints : ∀ name, constraints.lookup (ρ.word name) = old.lookup name)
    (h : buildQueryTree externals source up root old = .ok tree) :
    CarriesConstraints ρ constraints tree := by
  intro t ht name constraint hmem
  have hfinished := outcome_ok (finished_buildQueryTree externals source up root old) h
  rw [hconstraints, (hfinished.wellFormed t ht).constrained name constraint hmem]

end Engine

/-- Search patterns are read up to the names of their variables. If the
second pattern is the first one with its variables renamed, in any layout,
and the constraints are renamed along, then both patterns are built or both
are rejected, and on every program the second query returns the results of
the first one with renamed variables, or panics alike. -/
theorem matches_of_relabelled (externals : Externals) {ρ : Renaming} {source source' : String}
    {up up' : Option Node} {root root' : Node}
    (hup : Option.Rel (Relabelled ρ source source') up up')
    (hroot : Relabelled ρ source source' root root') {constraints constraints' : RegexMap}
    (hconstraints : ∀ name, constraints'.lookup (ρ.word name) = constraints.lookup name) :
    Joint (fun _ => False) (buildQueryTree externals source up root constraints)
      (buildQueryTree externals source' up' root' constraints') fun tree tree' =>
        ∀ program code, QueryTree.matches externals tree' program code =
          (QueryTree.matches externals tree program code).map (List.map (renameResult ρ)) := by
  have hjoint := joint_buildQueryTree externals hup hroot constraints constraints'
  cases hbuilt : buildQueryTree externals source up root constraints with
  | error e =>
    rw [hbuilt] at hjoint
    cases hbuilt' : buildQueryTree externals source' up' root' constraints' with
    | error e' => exact trivial
    | ok tree' =>
      rw [hbuilt'] at hjoint
      exact hjoint
  | ok tree =>
    rw [hbuilt] at hjoint
    cases hbuilt' : buildQueryTree externals source' up' root' constraints' with
    | error e' =>
      rw [hbuilt'] at hjoint
      exact hjoint
    | ok tree' =>
      rw [hbuilt'] at hjoint
      intro program code
      rw [show tree' = relabelTree ρ constraints' tree from hjoint]
      exact matches_relabelTree externals (carriesConstraints_of_built hconstraints hbuilt)
        program code

/-- The renaming that exchanges `$x` and `$y`. -/
def exchange : Renaming where
  word := Equiv.swap "$x" "$y"
  injective := (Equiv.swap "$x" "$y").injective
  plain text h := by
    refine Equiv.swap_apply_of_ne_of_ne ?_ ?_
    · rintro rfl
      exact absurd h (by decide)
    · rintro rfl
      exact absurd h (by decide)
  dollar text := Equiv.apply_swap_eq_self (v := fun word => startsWith word '$') (by decide) text
  numeric text := Equiv.apply_swap_eq_self (v := isNumVar) (by decide +kernel) text

/-- The search pattern `{ $y;}`. -/
def spacedPattern : Node :=
  rule 1 "compound_statement" 0 6
    [token 2 "\x7b" 0 1, nameStatement 3 2 4, token 6 "\x7d" 5 6]

/-- The root of that search pattern. -/
def spacedPatternRoot : Node := rule 0 "translation_unit" 0 6 [spacedPattern]

/-- The text of that search pattern. -/
def spacedPatternText : String := "\x7b $y;\x7d"

/-- A node whose text is not a name, a number or a string. -/
theorem readAlike_other {ρ : Renaming} {kind text text' : String}
    (hkind : kind ∉ identifierKinds ∧ kind ≠ "number_literal" ∧ kind ≠ "string_literal")
    (htext : text ≠ "_" ∧ toUppercase text ≠ "NOT" ∧ toUppercase text ≠ "STRICT")
    (htext' : text' ≠ "_" ∧ toUppercase text' ≠ "NOT" ∧ toUppercase text' ≠ "STRICT") :
    ReadAlike ρ kind text text' where
  wildcard := iff_of_false htext'.1 htext.1
  negated := iff_of_false htext'.2.1 htext.2.1
  strict := iff_of_false htext'.2.2 htext.2.2
  name h := absurd h hkind.1
  number h := absurd h hkind.2.1
  string h := absurd h hkind.2.2

/-- A name that is renamed. -/
theorem readAlike_name {ρ : Renaming} {kind text text' : String}
    (hkind : kind ≠ "number_literal" ∧ kind ≠ "string_literal") (hname : text' = ρ.word text)
    (htext : text ≠ "_" ∧ toUppercase text ≠ "NOT" ∧ toUppercase text ≠ "STRICT")
    (htext' : text' ≠ "_" ∧ toUppercase text' ≠ "NOT" ∧ toUppercase text' ≠ "STRICT") :
    ReadAlike ρ kind text text' where
  wildcard := iff_of_false htext'.1 htext.1
  negated := iff_of_false htext'.2.1 htext.2.1
  strict := iff_of_false htext'.2.2 htext.2.2
  name _ := hname
  number h := absurd h hkind.1
  string h := absurd h hkind.2

/-- The patterns `{$x;}` and `{ $y;}` differ in the name of their variable. -/
theorem relabelled_spacedPattern :
    Relabelled exchange samplePatternText spacedPatternText samplePattern spacedPattern := by
  refine .intro rfl rfl rfl (readAlike_other (by decide) (by decide +kernel) (by decide +kernel))
    (.cons ?_ (.cons ?_ (.cons ?_ .nil)))
  · exact .intro rfl rfl rfl
      (readAlike_other (by decide) (by decide +kernel) (by decide +kernel)) .nil
  · refine .intro rfl rfl rfl (readAlike_other (by decide) (by decide +kernel) (by decide +kernel))
      (.cons ?_ (.cons ?_ .nil))
    · exact .intro rfl rfl rfl (readAlike_name (by decide) (by decide +kernel) (by decide +kernel)
        (by decide +kernel)) .nil
    · exact .intro rfl rfl rfl
        (readAlike_other (by decide) (by decide +kernel) (by decide +kernel)) .nil
  · exact .intro rfl rfl rfl
      (readAlike_other (by decide) (by decide +kernel) (by decide +kernel)) .nil

/-- The sample pattern with spaces and with its variables exchanged. -/
theorem relabelled_spacedPatternRoot :
    Relabelled exchange samplePatternText spacedPatternText samplePatternRoot spacedPatternRoot :=
  .intro rfl rfl rfl (readAlike_other (by decide) (by decide +kernel) (by decide +kernel))
    (.cons relabelled_spacedPattern .nil)

/-- The constraint on `$x` becomes a constraint on `$y`. -/
theorem lookup_exchange (constraint : Bool × Regex) (name : String) :
    (Finmap.singleton "$y" constraint : RegexMap).lookup (exchange.word name) =
      (Finmap.singleton "$x" constraint : RegexMap).lookup name := by
  have hnew : exchange.word "$x" = "$y" := by decide
  by_cases hname : name = "$x"
  · rw [hname, hnew, Finmap.lookup_singleton_eq, Finmap.lookup_singleton_eq]
  · have hother : exchange.word name ≠ "$y" := fun h => hname (exchange.injective (h.trans hnew.symm))
    rw [Finmap.lookup_eq_none.mpr, Finmap.lookup_eq_none.mpr]
    · simpa [Finmap.mem_singleton] using hname
    · simpa [Finmap.mem_singleton] using hother

/-- Both patterns are built and find the name of the sample program, the
first one for `$x` and the second one for `$y`. -/
theorem matches_of_relabelled_exchange :
    ∃ tree tree', buildQueryTree sampleExternals samplePatternText (some samplePatternRoot)
        samplePattern (Finmap.singleton "$x" (false, ⟨"a"⟩)) = .ok tree ∧
      buildQueryTree sampleExternals spacedPatternText (some spacedPatternRoot) spacedPattern
        (Finmap.singleton "$y" (false, ⟨"a"⟩)) = .ok tree' ∧
      (∀ program code, QueryTree.matches sampleExternals tree' program code =
        (QueryTree.matches sampleExternals tree program code).map
          (List.map (renameResult exchange))) ∧
      (QueryTree.matches sampleExternals tree sampleRoot sampleSource).map
        (List.map fun result => result.value "$x" sampleSource) = .ok [some "a"] := by
  have hbuilt : ∃ tree, buildQueryTree sampleExternals samplePatternText (some samplePatternRoot)
        samplePattern (Finmap.singleton "$x" (false, ⟨"a"⟩)) = .ok tree ∧
      (QueryTree.matches sampleExternals tree sampleRoot sampleSource).map
        (List.map fun result => result.value "$x" sampleSource) = .ok [some "a"] := ⟨_, rfl, rfl⟩
  have hbuilt' : ∃ tree', buildQueryTree sampleExternals spacedPatternText
      (some spacedPatternRoot) spacedPattern (Finmap.singleton "$y" (false, ⟨"a"⟩)) = .ok tree' :=
    ⟨_, rfl⟩
  obtain ⟨tree, htree, hfound⟩ := hbuilt
  obtain ⟨tree', htree'⟩ := hbuilt'
  have hjoint := matches_of_relabelled sampleExternals (.some relabelled_spacedPatternRoot)
    relabelled_spacedPattern (lookup_exchange (false, ⟨"a"⟩))
  exact ⟨tree, tree', htree, htree', joint_ok hjoint htree htree', hfound⟩

end WeggliEnhance.RenamedRuns
