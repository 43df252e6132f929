import WeggliEnhance.MirroredBuilding
import WeggliEnhance.QueryTreeConstruction
import WeggliEnhance.SearchPatterns

/-!
# Queries are invariant under mirroring

The queries built for a search pattern and for its mirror image match the
same nodes with the same bindings, as long as the mirrored expressions that the
builder visits hold no comments. With a comment before its operator an
expression is not recognised and is matched in the written order only.
-/

namespace WeggliEnhance.MirroredQueries

open SourceText SyntaxTree QueryText ThirdParty QueryTrees PatternBuilder PatternNesting
  BuilderEmission BuilderSpecification QueryTreeConstruction QueryOutline CaptureNumbering
  ArgumentMatching FallibleState PairedRuns LabelledMatches PatternSemantics QueryCorrespondence
  MirroredPatterns MirroredBuilding SearchPatterns

variable {source source' : String} {fuel : ℕ} {build : BuildFn} {node node' : Node}
  {s t s' t' : QueryBuilder} {rows : List Row}

/-- The two texts match alike, pattern by pattern. -/
def TextTwins (s t : QueryBuilder) (built built' : BuiltText) : Prop :=
  ∃ rows, Grown s t built.builder built'.builder rows ∧
    List.Forall₂ (SameMatches rows) built.text built'.text ∧ built.variables = built'.variables

theorem sameMatches_mono {text text' : List Item} {more : List Row} (h : SameMatches rows text text')
    (hsubset : rows ⊆ more) : SameMatches more text text' := by
  obtain ⟨own, hown, hagree⟩ := h
  exact ⟨own, List.Subset.trans hown hsubset, hagree⟩

/-- The added captures are those from the old number on. -/
theorem entries_of_extends {builder next : QueryBuilder} {added : List Capture}
    (h : Extends builder added next) :
    entries next.captures builder.captures.length next.captures.length =
      added.zipIdx builder.captures.length := by
  rw [entries, List.take_length, h.captures, List.drop_left]

/-- The rows of two builders pair the captures that both have added. -/
theorem paired_of_grown (h : Grown s t s' t' rows) :
    (rows.map Prod.fst).Perm (entries s'.captures s.captures.length s'.captures.length) ∧
      (rows.map Prod.snd).Perm (entries t'.captures t.captures.length t'.captures.length) ∧
      ∀ row ∈ rows, CapturesAgree row.1.1 row.2.1 := by
  obtain ⟨added, added', hleft, hright, hpaired⟩ := h
  rw [entries_of_extends hleft, entries_of_extends hright]
  exact ⟨hpaired.left, hpaired.right, hpaired.agree⟩

/-- A top-level pattern with the predicates of the captures added for it. -/
theorem sameMatches_of_grown {text text' core core' : List Item} (hgrown : Grown s t s' t' rows)
    (hcore : SameText core core' rows)
    (htext : Checked s'.captures s.captures.length text core)
    (htext' : Checked t'.captures t.captures.length text' core') :
    SameMatches rows text text' := by
  obtain ⟨hleft, hright, hagree⟩ := paired_of_grown hgrown
  exact ⟨rows, List.Subset.refl _, agree_matches hcore htext htext' hleft hright hagree⟩

theorem variables_of_grown (hgrown : Grown s t s' t' rows) :
    (processCaptures s'.captures s.captures.length).2 =
      (processCaptures t'.captures t.captures.length).2 := by
  obtain ⟨hleft, hright, hagree⟩ := paired_of_grown hgrown
  exact variables_eq hleft hright hagree

/-- Parentheses around a pattern with its suffixes. -/
theorem sameText_group {items items' : List Item} (h : SameText items items' rows) :
    SameText [.group items] [.group items'] rows :=
  sameText_of_entry (sameEntry_pattern (samePattern_group h))

theorem isEmpty_of_sameEntry {items items' : List Item} (h : SameEntry items items' rows) :
    items'.isEmpty = items.isEmpty := by
  cases h with
  | nothing => rfl
  | captured marks hpattern => rfl

/-- The statements of a block. -/
theorem textTwins_buildPatterns (hbuild : BuildTwins source source' fuel build)
    (halike : Alike source source' node node') (strict : Bool) {children children' : List Node}
    (hmembers : List.Forall₂ (Member source source' fuel) children children')
    (hset : Setting source source' s t) :
    Joint Rejected (buildPatterns build node strict children s)
      (buildPatterns build node' strict children' t) (TextTwins s t) := by
  induction hmembers generalizing s t with
  | nil => exact ⟨[], grown_refl s t, .nil, rfl⟩
  | @cons child child' children children' hmember _ ih =>
    rw [buildPatterns, buildPatterns, halike.kind]
    refine joint_bind (hbuild.twins _ _ _ _ _ _ _ _ _ hset (.some halike) hmember.twin) ?_
    rintro ⟨items, s₁⟩ ⟨items', t₁⟩ ⟨rows, hgrown, hitems⟩
    refine joint_bind (ih (setting_of_grown hset hgrown)) ?_
    rintro rest rest' ⟨rows', hgrown', htexts, hvariables⟩
    refine ⟨rows ++ rows', grown_trans hgrown hgrown', ?_, ?_⟩
    · have hrest : List.Forall₂ (SameMatches (rows ++ rows')) rest.text rest'.text :=
        htexts.imp fun _ _ h => sameMatches_mono h (List.subset_append_right rows rows')
      have htext := sameText_of_entry hitems
      obtain ⟨hplain, hplain'⟩ := plain_of_sameText htext
      have hfirst := sameMatches_of_grown hgrown (sameText_group htext)
        (checked_group s₁.captures s.captures.length hplain)
        (checked_group t₁.captures t.captures.length hplain')
      simp only [isEmpty_of_sameEntry hitems]
      split_ifs
      · exact hrest
      · exact .cons (sameMatches_mono hfirst (List.subset_append_left rows rows')) hrest
    · exact congrArg₂ (· ∪ ·) (variables_of_grown hgrown) hvariables

/-- A query with a single root pattern, from a builder without captures. -/
theorem textTwins_buildSinglePattern (hbuild : BuildTwins source source' fuel build)
    (htwin : Twin source source' fuel node node') {up up' : Option Node}
    (hup : Option.Rel (Alike source source') up up') (strict : Bool)
    (hset : Setting source source' s t) (hs : s.captures = []) (ht : t.captures = [])
    (hids : s.id = 0 ↔ t.id = 0) :
    Joint Rejected (buildSinglePattern build up node strict s)
      (buildSinglePattern build up' node' strict t) (TextTwins s t) := by
  have halike := alike_of_twin htwin
  unfold buildSinglePattern
  rw [halike.kind]
  refine joint_bind (hbuild.twins _ _ _ _ _ _ _ _ _ hset hup htwin) ?_
  rintro ⟨items, s₁⟩ ⟨items', t₁⟩ ⟨rows, hgrown, hitems⟩
  have hdisplay : CapturesAgree .display .display := .same _ rfl
  have hfinal := grown_trans hgrown (grown_push (s := s₁) (t := t₁) hdisplay)
  have hvariables := variables_of_grown hfinal
  rw [hs, ht] at hvariables
  have htext := sameText_of_entry hitems
  have hsuffix : SameText [captureItem (toString s₁.captures.length)]
      [captureItem (toString t₁.captures.length)] [nextRow s₁ t₁ .display .display] :=
    .suffix (nextRow s₁ t₁ .display .display) .nil
  by_cases hroot : node.kind = "compound_statement" ∧ s.id = 0
  · have hroot' : node.kind = "compound_statement" ∧ t.id = 0 := ⟨hroot.1, hids.mp hroot.2⟩
    simp only [if_pos hroot, if_pos hroot']
    refine ⟨_, hfinal, .cons ?_ .nil, ?_⟩
    · have hbody : SameText (.fieldName "body" :: items) (.fieldName "body" :: items') rows :=
        .mark rfl rfl htext
      obtain ⟨hplain, hplain'⟩ := plain_of_sameText hbody
      have hcore := SameText.pattern (samePattern_node "function_definition" hbody) hsuffix
      refine sameMatches_of_grown hfinal hcore ?_ ?_
      · rw [hs, ← processCaptures_display]
        exact checked_node _ 0 hplain _ _
      · rw [ht, ← processCaptures_display]
        exact checked_node _ 0 hplain' _ _
    · rw [← processCaptures_display, ← processCaptures_display t₁.captures]
      exact hvariables
  · have hroot' : ¬(node.kind = "compound_statement" ∧ t.id = 0) :=
      fun h => hroot ⟨h.1, hids.mpr h.2⟩
    simp only [if_neg hroot, if_neg hroot']
    refine ⟨_, hfinal, .cons ?_ .nil, hvariables⟩
    have hboth := sameText_append htext hsuffix
    obtain ⟨hplain, hplain'⟩ := plain_of_sameText hboth
    refine sameMatches_of_grown hfinal (sameText_group hboth) ?_ ?_
    · rw [hs]
      exact checked_group _ 0 hplain
    · rw [ht]
      exact checked_group _ 0 hplain'

/-- The root of a file is left out on both sides. -/
theorem twin_skipTranslationUnit (htwin : Twin source source' fuel node node')
    {up up' : Option Node} (hup : Option.Rel (Alike source source') up up') :
    Option.Rel (Alike source source') (skipTranslationUnit up node).1
        (skipTranslationUnit up' node').1 ∧
      Twin source source' fuel (skipTranslationUnit up node).2 (skipTranslationUnit up' node').2 := by
  have halike := alike_of_twin htwin
  unfold skipTranslationUnit
  rw [halike.kind]
  by_cases hkind : node.kind = "translation_unit"
  · rw [if_pos hkind, if_pos hkind]
    obtain ⟨bound, rfl⟩ := exists_bound htwin
    rcases kept_or_crossed htwin with hkept | hselected | ⟨_, _, _, _, _, _, hcrossed⟩
    · have hmembers := hkept.members
      generalize node.children = children at hmembers ⊢
      generalize node'.children = children' at hmembers ⊢
      cases hmembers with
      | nil => exact ⟨hup, htwin⟩
      | cons hfirst _ => exact ⟨.some halike, twin_mono hfirst.twin (Nat.le_succ _)⟩
    · have hmem := kind_mem_of_selects hselected.selects
      rw [hkind] at hmem
      exact absurd hmem (by decide)
    · rw [hcrossed.kind] at hkind
      exact absurd hkind (by decide)
  · rw [if_neg hkind, if_neg hkind]
    exact ⟨hup, htwin⟩

theorem textTwins_buildText (hbuild : BuildTwins source source' fuel build)
    {up up' : Option Node} (hup : Option.Rel (Alike source source') up up') (multiPattern : Bool)
    (htwin : Twin source source' (if multiPattern then fuel + 1 else fuel) node node')
    (hkind : multiPattern = true → node.kind = "compound_statement") (strict : Bool)
    (hset : Setting source source' s t) (hs : s.captures = []) (ht : t.captures = [])
    (hids : s.id = 0 ↔ t.id = 0) :
    Joint Rejected (buildText build up node multiPattern strict s)
      (buildText build up' node' multiPattern strict t) (TextTwins s t) := by
  unfold buildText
  cases multiPattern with
  | false =>
    obtain ⟨hup, htwin⟩ := twin_skipTranslationUnit htwin hup
    exact textTwins_buildSinglePattern hbuild htwin hup strict hset hs ht hids
  | true =>
    have hcompound := hkind rfl
    have halike := alike_of_twin htwin
    have hskip : skipTranslationUnit up node = (up, node) :=
      if_neg (by rw [hcompound]; decide)
    have hskip' : skipTranslationUnit up' node' = (up', node') :=
      if_neg (by rw [halike.kind, hcompound]; decide)
    rw [hskip, hskip']
    rcases kept_or_crossed htwin with hkept | hselected | ⟨_, _, _, _, _, _, hcrossed⟩
    · have hlength := hkept.members.length_eq
      have hstatements : List.Forall₂ (Member source source' fuel) node.children.tail.dropLast
          node'.children.tail.dropLast := by
        have htail := List.forall₂_drop 1 hkept.members
        rw [List.drop_one, List.drop_one] at htail
        rw [List.dropLast_eq_take, List.dropLast_eq_take, htail.length_eq]
        exact List.forall₂_take _ htail
      simp only [if_true, ← hlength]
      split_ifs
      · exact textTwins_buildPatterns hbuild halike strict hstatements hset
      · exact trivial
    · have hmem := kind_mem_of_selects hselected.selects
      rw [hcompound] at hmem
      exact absurd hmem (by decide)
    · rw [hcrossed.kind] at hcompound
      exact absurd hcompound (by decide)

/-- Tree-sitter compiles the texts, or rejects one of them. -/
theorem joint_tsQuery (externals : Externals) (text text' : List (List Item)) :
    Joint Rejected (tsQuery externals text) (tsQuery externals text')
      fun query query' => query = ⟨text⟩ ∧ query' = ⟨text'⟩ := by
  unfold tsQuery
  cases externals.queryError text with
  | some message => exact joint_error ⟨message, rfl⟩ _ _
  | none =>
    cases externals.queryError text' with
    | some message => exact joint_error_right ⟨message, rfl⟩ _ _
    | none => exact ⟨rfl, rfl⟩

/-- Compiled texts that match alike are queries that match alike. -/
theorem queriesAgree_buildTree (externals : Externals)
    (hbuild : BuildTwins source source' fuel build) {up up' : Option Node}
    (hup : Option.Rel (Alike source source') up up') (multiPattern : Bool)
    (htwin : Twin source source' (if multiPattern then fuel + 1 else fuel) node node')
    (hkind : multiPattern = true → node.kind = "compound_statement") (strict : Bool)
    {id id' : ℕ} (hids : id = 0 ↔ id' = 0) (constraints : RegexMap) :
    Joint Rejected
      (buildTree build externals up node multiPattern strict (.new source id constraints))
      (buildTree build externals up' node' multiPattern strict (.new source' id' constraints))
      QueriesAgree := by
  unfold buildTree
  refine joint_bind (textTwins_buildText hbuild hup multiPattern htwin hkind strict ⟨rfl, rfl, rfl⟩
    rfl rfl hids) ?_
  rintro built built' ⟨rows, hgrown, htexts, hvariables⟩
  refine joint_bind (joint_tsQuery externals built.text built'.text) ?_
  rintro query query' ⟨rfl, rfl⟩
  obtain ⟨added, added', hleft, hright, hpaired⟩ := hgrown
  have hcaptures : built.builder.captures = added := hleft.captures
  have hcaptures' : built'.builder.captures = added' := hright.captures
  refine QueriesAgree.intro rows ?_ ?_ hpaired.agree htexts hleft.negations hright.negations
    hvariables
  · rw [hcaptures]
    exact hpaired.left
  · rw [hcaptures']
    exact hpaired.right

/-- Sub-queries are built alike. -/
theorem treeTwins_nestedTree (externals : Externals)
    (hbuild : BuildTwins source source' fuel build) :
    TreeTwins source source' fuel (nestedTree build externals) := by
  intro up up' node node' id id' multiPattern strict s t hset hup htwin hkind hids
  unfold nestedTree Together
  simp only [hset.left, hset.right, hset.constraints]
  refine joint_bind (queriesAgree_buildTree externals hbuild hup multiPattern htwin hkind strict hids
    s.regexConstraints) ?_
  intro tree tree' hagree
  exact ⟨rfl, rfl, hagree⟩

/-- The builder treats a pattern and its mirror image alike at every height. -/
theorem buildTwins_buildFuel (externals : Externals) (source source' : String) (fuel : ℕ) :
    BuildTwins source source' fuel (buildFuel externals fuel) := by
  induction fuel with
  | zero =>
    refine ⟨?_, ?_, ?_⟩
    · intro up up' node node' depth strict parent s t _ _ htwin
      obtain ⟨bound, hbound⟩ := exists_bound htwin
      omega
    · intro up node depth strict parent hheight
      have hpos := height_pos node
      omega
    · intro up node depth strict parent s items s' hheight
      have hpos := height_pos node
      omega
  | succ fuel ih =>
    refine ⟨?_, (buildSpec_buildFuel externals source (fuel + 1)).token, ?_⟩
    · intro up up' node node' depth strict parent s t hset hup htwin
      exact twins_buildBody ih (treeTwins_nestedTree externals ih) hset htwin hup depth strict parent
    · intro up node depth strict parent s items s' hheight hrun
      have hemits := outcome_ok ((buildSpec_buildFuel externals s.querySource (fuel + 1)).emits up
        node depth strict parent hheight s rfl) hrun
      exact ⟨hemits.querySource, hemits.regexConstraints⟩

/-- A name held under a field. -/
def operand (id start : ℕ) (field : String) : Node :=
  Node.under (rule id "identifier" start (start + 1) []) field

/-- A node without children that stays. -/
theorem mirrored_leaf {allowed : Node → Prop} (halike : Alike source source' node node')
    (hnode : node.children = []) (hnode' : node'.children = []) :
    Mirrored allowed source source' node node' := by
  refine .keep halike ?_ ?_
  · rw [hnode, hnode']
  · rw [hnode, hnode']
    exact .nil

end WeggliEnhance.MirroredQueries
