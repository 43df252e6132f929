import WeggliEnhance.MirroredQueries
import WeggliEnhance.RenamedRuns
import WeggliEnhance.StrongerQueries

/-!
# Adding constraints to a search

Regular expressions given with `--regex` reach a query only through the
variables they constrain. A search with more constraints builds the same
query up to these constraints, and without `not:` every result it reports is
also reported by the search with fewer constraints.
-/

namespace WeggliEnhance.ConstrainedSearches

open SourceText SyntaxTree QueryText ThirdParty QueryTrees QueryResults QueryEngine PatternBuilder
  PatternNesting BuilderEmission QueryTreeConstruction FallibleState PairedRuns QueryCorrespondence
  MirroredPatterns MirroredBuilding MirroredQueries RelabelledPatterns RelabelledQueries RenamedRuns
  QuerySemantics
  StrongerQueries

section Reflexivity

variable {source : String}

/-- Every pattern is read as it is. -/
theorem readAlike_refl (kind text : String) : ReadAlike Renaming.id kind text text where
  wildcard := Iff.rfl
  negated := Iff.rfl
  strict := Iff.rfl
  name _ := rfl
  number _ := ⟨rfl, fun _ => rfl⟩
  string _ := by
    cases unquote text with
    | none => exact .none
    | some inside => exact .some ⟨rfl, fun _ => rfl⟩

theorem relabelled_refl (node : Node) : Relabelled Renaming.id source source node node := by
  induction node using node_induction with
  | step node ih => exact .intro rfl rfl rfl (readAlike_refl _ _) (List.forall₂_same.mpr ih)

theorem mirrored_refl (allowed : Node → Prop) (node : Node) :
    Mirrored allowed source source node node := by
  induction node using node_induction with
  | step node ih =>
    exact .keep ⟨rfl, rfl, Iff.rfl, fun _ => rfl, fun _ => rfl⟩ rfl (List.forall₂_same.mpr ih)

end Reflexivity

section Negations

variable {externals : Externals} {source : String} {up : Option Node} {root : Node}
  {constraints : RegexMap} {tree : QueryTree}

/-- Queries that correspond to some query have no negations at any depth. -/
theorem negations_of_queriesAgree {tree' : QueryTree} (h : QueriesAgree tree tree') :
    ∀ t ∈ tree.trees, t.negations = [] := by
  induction tree using tree_induction generalizing tree' with
  | step tree ihsub _ =>
    obtain ⟨rows, hleft, -, hcaptures, -, hnone, -, -⟩ := h
    intro t ht
    rw [trees_eq, QueryTree.negatives, hnone, List.map_nil, List.flatMap_nil, List.append_nil,
      List.mem_cons] at ht
    rcases ht with rfl | hbelow
    · exact hnone
    · obtain ⟨child, hchild, hmem⟩ := List.mem_flatMap.mp hbelow
      obtain ⟨capture, hcapture, htree⟩ := List.mem_filterMap.mp hchild
      obtain ⟨i, hi⟩ := List.getElem?_of_mem hcapture
      have hentry : (capture, i) ∈ tree.captures.zipIdx := List.mem_zipIdx_iff_getElem?.mpr hi
      obtain ⟨row, hrow, heq⟩ := List.mem_map.mp (hleft.mem_iff.mpr hentry)
      have hagree := hcaptures row hrow
      rw [heq] at hagree
      dsimp only at hagree
      generalize row.2.1 = capture' at hagree
      cases hagree with
      | same _ hleaf =>
        rw [hleaf] at htree
        cases htree
      | wild hsub =>
        cases htree
        exact ihsub _ hchild hsub t hmem
      | multi hsub =>
        cases htree
        exact ihsub _ hchild hsub t hmem

/-- A pattern without `not:` gives a query without negations. -/
theorem negations_of_notFree (hnot : NotFree source root)
    (h : buildQueryTree externals source up root constraints = .ok tree) :
    ∀ t ∈ tree.trees, t.negations = [] := by
  have hup : Option.Rel (Alike source source) up up := by
    cases up with
    | none => exact .none
    | some parent => exact .some ⟨rfl, rfl, Iff.rfl, fun _ => rfl, fun _ => rfl⟩
  have hagree : Joint Rejected (buildQueryTree externals source up root constraints)
      (buildQueryTree externals source up root constraints) QueriesAgree :=
    queriesAgree_buildTree externals (buildTwins_buildFuel externals source source root.height)
      hup false ⟨visibly_of_mirrored (mirrored_refl Uncommented root), hnot, le_rfl⟩
      (fun h => absurd h Bool.false_ne_true) false Iff.rfl constraints
  exact negations_of_queriesAgree (joint_ok hagree h h)

end Negations

section Constraints

variable {tree : QueryTree} {constraints : RegexMap}

/-- Constraints that variables have already are kept. -/
theorem stronger_relabelTree (hnone : ∀ t ∈ tree.trees, t.negations = [])
    (hkept : ∀ t ∈ tree.trees, ∀ name constraint, .variable name (some constraint) ∈ t.captures →
      constraints.lookup name = some constraint) :
    Stronger (relabelTree Renaming.id constraints tree) tree := by
  induction tree using tree_induction with
  | step tree ihsub _ =>
    have hself := mem_trees_self tree
    have hcaptures : List.Forall₂ CaptureStronger
        (tree.captures.map (relabelCapture Renaming.id constraints)) tree.captures := by
      rw [List.forall₂_map_left_iff]
      refine List.forall₂_same.mpr ?_
      intro capture hcapture
      have hchild : ∀ child, capture.tree? = some child →
          Stronger (relabelTree Renaming.id constraints child) child := by
        intro child hchild
        have hmem : child ∈ tree.children := List.mem_filterMap.mpr ⟨capture, hcapture, hchild⟩
        have htrees := child_trees (List.mem_append_left tree.negatives hmem)
        exact ihsub child hmem (fun t ht => hnone t (htrees ht)) fun t ht => hkept t (htrees ht)
      cases capture with
      | «variable» name constraint =>
        rw [relabelCapture]
        cases constraint with
        | some constraint =>
          rw [show constraints.lookup (Renaming.id.word name) = some constraint from
            hkept tree hself name constraint hcapture]
          exact .same _
        | none =>
          cases constraints.lookup (Renaming.id.word name) with
          | none => exact .same _
          | some constraint => exact .constrain _ constraint
      | subWildQuery child =>
        rw [relabelCapture]
        exact .wild (hchild child rfl)
      | subMultiQuery child =>
        rw [relabelCapture]
        exact .multi (hchild child rfl)
      | display => rw [relabelCapture]; exact .same _
      | check text => rw [relabelCapture]; exact .same _
      | number value => rw [relabelCapture]; exact .same _
      | callExpQuery count minimum => rw [relabelCapture]; exact .same _
    have hempty := hnone tree hself
    obtain ⟨query, captures, negations, vars, id⟩ := tree
    obtain rfl : negations = [] := hempty
    have hvars : vars.image Renaming.id.word = vars := Finset.image_id
    rw [relabelTree_eq, hvars]
    exact .intro query vars id (fun neg => neg) hcaptures (List.forall_mem_nil _)
      (List.forall_mem_nil _) (List.forall_mem_nil _)

theorem map_id_subQueries_relabelTree (ρ : Renaming) (tree : QueryTree) :
    ((relabelTree ρ constraints tree).subQueries).map QueryTree.id =
      tree.subQueries.map QueryTree.id := by
  induction tree using tree_induction with
  | step tree ihsub ihneg =>
    have hid : ∀ tree, (relabelTree ρ constraints tree).id = tree.id := by
      intro tree
      rw [relabelTree_eq]
    rw [subQueries_eq, subQueries_eq tree, children_relabelTree, negatives_relabelTree]
    simp only [List.map_append, List.map_map, List.map_flatMap, List.flatMap_map,
      Function.comp_def, hid]
    rw [List.flatMap_congr ihsub, List.flatMap_congr ihneg]

end Constraints

/-- Constraints only narrow a search. For a pattern without `not:`, a search
that keeps all constraints and adds others builds a query, and every result
that it reports on a program is reported without the added constraints. -/
theorem matches_subset_of_constrained {externals : Externals} (hinside : externals.ReportsInside)
    {source : String} {up : Option Node} {root : Node} (hnot : NotFree source root)
    {constraints constraints' : RegexMap}
    (hmore : ∀ name constraint, constraints.lookup name = some constraint →
      constraints'.lookup name = some constraint) {tree : QueryTree}
    (hbuilt : buildQueryTree externals source up root constraints = .ok tree)
    (hids : (tree.subQueries.map QueryTree.id).Nodup) {program : Node}
    (hnodes : (program.nodes.map Node.id).Nodup) (code : String) :
    ∃ tree', buildQueryTree externals source up root constraints' = .ok tree' ∧
      ∀ results results', QueryTree.matches externals tree program code = .ok results →
        QueryTree.matches externals tree' program code = .ok results' → results' ⊆ results := by
  have hup : Option.Rel (Relabelled Renaming.id source source) up up := by
    cases up with
    | none => exact .none
    | some parent => exact .some (relabelled_refl parent)
  have hjoint := joint_buildQueryTree externals hup (relabelled_refl root) constraints constraints'
  rw [hbuilt] at hjoint
  cases hbuilt' : buildQueryTree externals source up root constraints' with
  | error e =>
    rw [hbuilt'] at hjoint
    exact hjoint.elim
  | ok tree' =>
    rw [hbuilt'] at hjoint
    obtain rfl : tree' = relabelTree Renaming.id constraints' tree := hjoint
    refine ⟨_, rfl, ?_⟩
    intro results results' h h' result hresult
    have hstronger : Stronger (relabelTree Renaming.id constraints' tree) tree := by
      refine stronger_relabelTree (negations_of_notFree hnot hbuilt) ?_
      intro t ht name constraint hmem
      have hfinished := outcome_ok (finished_buildQueryTree externals source up root constraints)
        hbuilt
      exact hmore name constraint ((hfinished.wellFormed t ht).constrained name _ hmem).symm
    have hids' : (((relabelTree Renaming.id constraints' tree).subQueries).map
        QueryTree.id).Nodup := by
      rw [map_id_subQueries_relabelTree]
      exact hids
    have hanswer := (lists_matches hinside hids' hnodes results' h' result).mp hresult
    exact (lists_matches hinside hids hnodes results h result).mpr
      (answer_of_stronger hstronger hanswer)

/-- The sample parameters with a regular expression engine for constants. -/
def constantExternals : Externals :=
  { sampleExternals with isMatch := fun regex text => some (regex.pattern == text) }

theorem constantExternals_reportsInside : constantExternals.ReportsInside :=
  sampleExternals_reportsInside

/-- The query for the name `b` inside a block. -/
def constrainedBlock : QueryTree :=
  { sampleBlock with captures := [.variable "$x" (some (false, ⟨"b"⟩))] }

/-- The query for a block that holds the name `b`, inside a function. -/
def constrainedTree : QueryTree :=
  { sampleTree with captures := [.subMultiQuery constrainedBlock, .display] }

/-- Of the two names of a program, the search for `{$x;}` with `$x` constrained
to `b` reports the second one. -/
theorem matches_subset_of_constrained_pair :
    ∃ results results',
      buildQueryTree constantExternals samplePatternText (some samplePatternRoot) samplePattern ∅ =
        .ok sampleTree ∧
      buildQueryTree constantExternals samplePatternText (some samplePatternRoot) samplePattern
        (Finmap.singleton "$x" (false, ⟨"b"⟩)) = .ok constrainedTree ∧
      QueryTree.matches constantExternals sampleTree pairRoot pairSource = .ok results ∧
      QueryTree.matches constantExternals constrainedTree pairRoot pairSource = .ok results' ∧
      results.length = 2 ∧ results'.length = 1 ∧ results' ⊆ results := by
  have htree : buildQueryTree constantExternals samplePatternText (some samplePatternRoot)
      samplePattern ∅ = .ok sampleTree := rfl
  have htree' : buildQueryTree constantExternals samplePatternText (some samplePatternRoot)
      samplePattern (Finmap.singleton "$x" (false, ⟨"b"⟩)) = .ok constrainedTree := rfl
  have htwo : (QueryTree.matches constantExternals sampleTree pairRoot pairSource).map
      List.length = .ok 2 := by rfl
  have hone : (QueryTree.matches constantExternals constrainedTree pairRoot pairSource).map
      List.length = .ok 1 := by rfl
  obtain ⟨results, hresults, hlength⟩ := exists_of_map_eq_ok htwo
  obtain ⟨results', hresults', hlength'⟩ := exists_of_map_eq_ok hone
  have hmore : ∀ name constraint, (∅ : RegexMap).lookup name = some constraint →
      (Finmap.singleton "$x" (false, ⟨"b"⟩) : RegexMap).lookup name = some constraint := by
    intro name constraint h
    rw [Finmap.lookup_empty] at h
    cases h
  have hnodes : (pairRoot.nodes.map Node.id).Nodup := by decide
  obtain ⟨other, hother, hsubset⟩ := matches_subset_of_constrained constantExternals_reportsInside
    (by unfold NotFree; decide +kernel) hmore htree (by decide) hnodes pairSource
  obtain rfl : constrainedTree = other := Except.ok.inj (htree'.symm.trans hother)
  exact ⟨results, results', htree, htree', hresults, hresults', hlength, hlength',
    hsubset results results' hresults hresults'⟩

end WeggliEnhance.ConstrainedSearches
