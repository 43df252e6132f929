import WeggliEnhance.MirroredQueries
import WeggliEnhance.StrictBuilding

/-!
# Queries built in both modes

The texts and trees that the builder makes of the same part of two patterns.
A sub-query that is built in strict mode on one side only is narrower; blocks
and negations are the same query on both sides. By induction on the height of
the pattern this holds for `build` itself.
-/

namespace WeggliEnhance.StrictQueries

open SourceText SyntaxTree QueryText ThirdParty QueryTrees PatternBuilder PatternNesting
  BuilderSpecification QueryTreeConstruction FallibleState PairedRuns MirroredPatterns
  MirroredBuilding MirroredQueries MovedPatterns NarrowedTexts NarrowedQueries StrictBuilding

variable {source source' : String} {fuel : ℕ} {build build' : BuildFn} {loose : Bool}
  {p p' node node' : Node}  {s t s' t' : QueryBuilder} {strict strict' : Bool}

/-- The first text is narrower, pattern by pattern. -/
structure TextNarrows (loose : Bool) (s t : QueryBuilder) (built built' : BuiltText) : Prop where
  /-- The patterns. -/
  text : List.Forall₂ (Narrows loose) built.text built'.text
  /-- The variables are the same. -/
  vars : built'.variables = built.variables
  /-- Both builders have grown. -/
  grown : Grown loose s t built.builder built'.builder

/-- The predicates of captures that check the same are the same. -/
theorem processCaptures_of_grown (hset : Paired source source' s t) (h : Grown loose s t s' t') :
    processCaptures t'.captures t.captures.length =
      processCaptures s'.captures s.captures.length := by
  obtain ⟨added, added', found, hleft, hright, hadded, -⟩ := h
  have hcount := count_of_paired hset
  have hdrop : s'.captures.drop s.captures.length = added := by
    rw [hleft.captures, List.drop_left]
  have hdrop' : t'.captures.drop s.captures.length = added' := by
    rw [hright.captures, ← hcount, List.drop_left]
  rw [hcount]
  refine processCaptures_eq (R := Narrows loose) ?_
  rw [hdrop, hdrop']
  exact hadded

/-- The statements of a block. -/
theorem textNarrows_buildPatterns (hbuild : BuildNarrows source source' fuel build build')
    (halike : Alike source source' node node') {children children' : List Node}
    (hheld : List.Forall₂ (Held source source' fuel) children children')
    (hset : Paired source source' s t) (loose : Bool) :
    Joint Rejected (buildPatterns build node false children s)
      (buildPatterns build' node' false children' t) (TextNarrows loose s t) := by
  induction hheld generalizing s t with
  | nil => exact ⟨.nil, rfl, grown_refl hset.ids⟩
  | @cons child child' children children' hfirst _ ih =>
    have hvisits : Visits source source' fuel loose node node' child child' 0 0 false false
        node.kind node.kind :=
      ⟨hfirst.copy, .inl rfl, fun _ => ⟨halike, .inl rfl⟩, .inl Iff.rfl, Iff.rfl⟩
    rw [buildPatterns, buildPatterns, halike.kind]
    refine joint_bind (hbuild.narrows hset hvisits) ?_
    rintro ⟨items, s₁⟩ ⟨items', t₁⟩ ⟨hgrown, hitems⟩
    have hprocessed := processCaptures_of_grown hset hgrown
    simp only at hprocessed ⊢
    rw [hprocessed]
    generalize processCaptures s₁.captures s.captures.length = processed
    refine joint_bind (ih (paired_of_grown hset hgrown)) ?_
    intro rest rest' hrest
    refine ⟨?_, ?_, grown_trans hgrown hrest.grown⟩
    · simp only [isEmpty_of_narrows hitems]
      split_ifs
      · exact hrest.text
      · exact .cons (narrows_group (narrows_append hitems (narrows_refl _))) hrest.text
    · simp only [hrest.vars]

/-- A query with a single root pattern, from a builder without captures. -/
theorem textNarrows_buildSinglePattern (hbuild : BuildNarrows source source' fuel build build')
    (hset : Paired source source' s t) (hs : s.captures = [])
    (h : Visits source source' fuel loose p p' node node' 0 0 strict strict' node.kind node'.kind) :
    Joint Rejected (buildSinglePattern build (some p) node strict s)
      (buildSinglePattern build' (some p') node' strict' t) (TextNarrows loose s t) := by
  have halike := alike_of_copy h.copy
  have ht : t.captures = [] := by
    rw [← List.length_eq_zero_iff, count_of_paired hset, hs]
    rfl
  unfold buildSinglePattern
  refine joint_bind (hbuild.narrows hset h) ?_
  rintro ⟨items, s₁⟩ ⟨items', t₁⟩ ⟨hgrown, hitems⟩
  have hfinal : Grown loose s t (s₁.push .display) (t₁.push .display) :=
    grown_trans hgrown (grown_push (ids_of_grown hgrown) (.same _))
  have hprocessed := processCaptures_of_grown hset hgrown
  have hprocessed' := processCaptures_of_grown hset hfinal
  rw [hs, ht] at hprocessed hprocessed'
  have hcount := count_of_paired (paired_of_grown hset hgrown)
  simp only [halike.kind, hset.ids, hcount]
  simp only [List.length_nil] at hprocessed hprocessed'
  by_cases hroot : node.kind = "compound_statement" ∧ s.id = 0
  · simp only [if_pos hroot, hprocessed]
    refine ⟨.cons ?_ .nil, rfl, hfinal⟩
    exact .node _ (.keep _ (narrows_append hitems (narrows_refl _))) (narrows_refl _)
  · simp only [if_neg hroot, hprocessed']
    refine ⟨.cons ?_ .nil, rfl, hfinal⟩
    exact narrows_group (narrows_append (narrows_append hitems (narrows_refl _)) (narrows_refl _))

/-- Compiled texts of which the first is narrower. -/
theorem treesNarrow_of_text (externals : Externals) (loose : Bool) {id : ℕ}
    {constraints : RegexMap} {up up' : Option Node} {multiPattern : Bool}
    (h : Joint Rejected (buildText build up node multiPattern strict (.new source id constraints))
      (buildText build' up' node' multiPattern strict' (.new source' id constraints))
      (TextNarrows loose (.new source id constraints) (.new source' id constraints))) :
    Joint Rejected
      (buildTree build externals up node multiPattern strict (.new source id constraints))
      (buildTree build' externals up' node' multiPattern strict' (.new source' id constraints))
      (TreesNarrow (Narrows loose)) := by
  unfold buildTree
  refine joint_bind h ?_
  intro built built' hbuilt
  refine joint_bind (joint_tsQuery externals built.text built'.text) ?_
  rintro query query' ⟨rfl, rfl⟩
  obtain ⟨added, added', found, hleft, hright, hadded, -⟩ := hbuilt.grown
  have hcaptures : built.builder.captures = added := hleft.captures
  have hcaptures' : built'.builder.captures = added' := hright.captures
  have hnegations : built.builder.negations = found := hleft.negations
  have hnegations' : built'.builder.negations = found := hright.negations
  rw [hcaptures, hcaptures', hnegations, hnegations', hbuilt.vars]
  exact .intro found built.variables id hbuilt.text hadded

theorem paired_new (source source' : String) (id : ℕ) (constraints : RegexMap) :
    Paired source source' (.new source id constraints) (.new source' id constraints) :=
  ⟨⟨rfl, rfl, rfl⟩, rfl, rfl⟩

theorem skipTranslationUnit_eq (h : Grammatical node) (up : Option Node) :
    skipTranslationUnit up node = (up, node) := if_neg (h.unit node (mem_nodes_self node))

/-- The same part is no translation unit either. -/
theorem skipTranslationUnit_copy (h : Copy source source' fuel node node') (up : Option Node) :
    skipTranslationUnit up node' = (up, node') := by
  refine if_neg ?_
  rw [(alike_of_copy h).kind]
  exact h.grammatical.unit node (mem_nodes_self node)

/-- Sub-queries in both modes, and blocks. -/
theorem treeNarrows_nestedTree (externals : Externals)
    (hbuild : BuildNarrows source source' fuel build build') :
    TreeNarrows source source' fuel (nestedTree build externals) (nestedTree build' externals) where
  single := by
    intro loose p p' node node' strict strict' s t hset h id
    unfold nestedTree Together
    simp only [hset.left, hset.right, hset.constraints]
    refine joint_bind (treesNarrow_of_text externals loose ?_) ?_
    · unfold buildText
      rw [skipTranslationUnit_eq h.copy.grammatical, skipTranslationUnit_copy h.copy]
      exact textNarrows_buildSinglePattern hbuild (paired_new _ _ _ _) rfl h
    · intro tree tree' hnarrow
      exact ⟨rfl, rfl, hnarrow⟩
  block := by
    intro up up' node node' s t hset h hkind id
    unfold nestedTree Together
    simp only [hset.left, hset.right, hset.constraints]
    refine joint_bind (treesNarrow_of_text externals false ?_) ?_
    · unfold buildText
      rw [skipTranslationUnit_eq h.grammatical, skipTranslationUnit_copy h]
      have hchildren := held_children h
      have hstatements : List.Forall₂ (Held source source' fuel) node.children.tail.dropLast
          node'.children.tail.dropLast := by
        have htail := List.forall₂_drop 1 hchildren
        rw [List.drop_one, List.drop_one] at htail
        rw [List.dropLast_eq_take, List.dropLast_eq_take, htail.length_eq]
        exact List.forall₂_take _ htail
      simp only [if_true, ← hchildren.length_eq]
      split_ifs
      · exact textNarrows_buildPatterns hbuild (alike_of_copy h) hstatements (paired_new _ _ _ _)
          false
      · exact trivial
    · intro tree tree' hnarrow
      exact ⟨rfl, rfl, (eq_of_treesNarrow (fun _ _ => eq_of_narrows) hnarrow).symm⟩

/-- `build` in both modes at every height, with any bounds that suffice. -/
theorem buildNarrows_buildFuel (externals : Externals) (source source' : String)
    {fuel bound bound' : ℕ} (h : fuel ≤ bound) (h' : fuel ≤ bound') :
    BuildNarrows source source' fuel (buildFuel externals bound) (buildFuel externals bound') := by
  induction fuel generalizing bound bound' with
  | zero =>
    refine ⟨?_, ?_, ?_⟩
    · intro loose p p' node node' depth depth' strict strict' parent parent' s t _ hvisits
      obtain ⟨bound, hbound⟩ := exists_bound_of_copy hvisits.copy
      omega
    · intro up node depth strict parent hheight
      have hpos := height_pos node
      omega
    · intro up node depth strict parent hheight
      have hpos := height_pos node
      omega
  | succ fuel ih =>
    obtain ⟨bound, rfl⟩ := Nat.exists_eq_succ_of_ne_zero (by omega : bound ≠ 0)
    obtain ⟨bound', rfl⟩ := Nat.exists_eq_succ_of_ne_zero (by omega : bound' ≠ 0)
    have hbuild := ih (Nat.le_of_succ_le_succ h) (Nat.le_of_succ_le_succ h')
    refine ⟨?_, ?_, ?_⟩
    · intro loose p p' node node' depth depth' strict strict' parent parent' s t hset hvisits
      exact written_buildBody hbuild (treeNarrows_nestedTree externals hbuild) hset hvisits
    · intro up node depth strict parent hheight
      exact (buildSpec_buildFuel externals source _).token up node depth strict parent
        (hheight.trans h)
    · intro up node depth strict parent hheight
      exact (buildSpec_buildFuel externals source _).token up node depth strict parent
        (hheight.trans h')

end WeggliEnhance.StrictQueries
