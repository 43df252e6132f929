import WeggliEnhance.QueryTreeConstruction
import WeggliEnhance.RelabelledBuilding

/-!
# Queries of relabelled patterns

A pattern and its relabelled copy are built or rejected together, and the
second query tree is the first one relabelled. With a renaming that renames
nothing this says that layout, the text of comments and the spelling of
numbers never reach a query.
-/

namespace WeggliEnhance.RelabelledQueries

open SourceText SyntaxTree QueryText ThirdParty QueryTrees PatternBuilder PatternNesting
  BuilderEmission QueryTreeConstruction FallibleState PairedRuns RelabelledPatterns
  RelabelledBuilding

variable {ρ : Renaming} {source source' : String} {constraints : RegexMap}
  {build build' : BuildFn} {node node' : Node} {s : QueryBuilder}

/-- The same text, the renamed variables and the relabelled captures. -/
structure TextCopied (ρ : Renaming) (source' : String) (constraints : RegexMap)
    (built built' : BuiltText) : Prop where
  /-- The query text is the same. -/
  text : built'.text = built.text
  /-- The variables are renamed. -/
  vars : built'.variables = built.variables.image ρ.word
  /-- The builders correspond. -/
  builder : built'.builder = relabelBuilder ρ source' constraints built.builder

theorem processCaptures_relabelBuilder (s : QueryBuilder) (offset : ℕ) :
    processCaptures (relabelBuilder ρ source' constraints s).captures offset =
      ((processCaptures s.captures offset).1,
        (processCaptures s.captures offset).2.image ρ.word) :=
  processCaptures_relabel ρ constraints s.captures offset

theorem push_relabelBuilder (s : QueryBuilder) (capture : Capture) :
    (relabelBuilder ρ source' constraints s).push (relabelCapture ρ constraints capture) =
      relabelBuilder ρ source' constraints (s.push capture) := by
  simp only [relabelBuilder, QueryBuilder.push, List.map_append, List.map_cons, List.map_nil]

/-- The captures that both builders add last. -/
theorem push_display (s : QueryBuilder) :
    (relabelBuilder ρ source' constraints s).push .display =
      relabelBuilder ρ source' constraints (s.push .display) := by
  rw [← push_relabelBuilder, relabelCapture]

theorem length_relabelBuilder (s : QueryBuilder) :
    (relabelBuilder ρ source' constraints s).captures.length = s.captures.length :=
  List.length_map _

/-- The statements of a block. -/
theorem copied_buildPatterns (hbuild : BuildCopies ρ source source' constraints build build')
    (h : Relabelled ρ source source' node node') (strict : Bool) {children children' : List Node}
    (hchildren : List.Forall₂ (Relabelled ρ source source') children children')
    (hsource : s.querySource = source) :
    Joint (fun _ => False) (buildPatterns build node strict children s)
      (buildPatterns build' node' strict children' (relabelBuilder ρ source' constraints s))
      (TextCopied ρ source' constraints) := by
  induction hchildren generalizing s with
  | nil => exact ⟨rfl, rfl, rfl⟩
  | cons hfirst _ ih =>
    rw [buildPatterns, buildPatterns, kind_of_relabelled h]
    refine joint_bind (copies_below hbuild h hfirst 0 strict _ s hsource) ?_
    rintro ⟨items, next⟩ ⟨items', next'⟩ ⟨rfl, hnext, hkept⟩
    dsimp only at hnext hkept ⊢
    subst hnext
    refine joint_bind (ih hkept) ?_
    rintro rest rest' ⟨htext, hvars, hbuilder⟩
    rw [processCaptures_relabelBuilder, length_relabelBuilder]
    refine ⟨?_, ?_, hbuilder⟩
    · dsimp only
      rw [htext]
    · dsimp only
      rw [hvars, Finset.image_union]

/-- A query with a single root pattern. -/
theorem copied_buildSinglePattern (hbuild : BuildCopies ρ source source' constraints build build')
    {up up' : Option Node} (hup : Option.Rel (Relabelled ρ source source') up up')
    (h : Relabelled ρ source source' node node') (strict : Bool) (hsource : s.querySource = source) :
    Joint (fun _ => False) (buildSinglePattern build up node strict s)
      (buildSinglePattern build' up' node' strict (relabelBuilder ρ source' constraints s))
      (TextCopied ρ source' constraints) := by
  unfold buildSinglePattern
  rw [kind_of_relabelled h]
  refine joint_bind (hbuild 0 strict _ hup h s hsource) ?_
  rintro ⟨items, next⟩ ⟨items', next'⟩ ⟨rfl, hnext, -⟩
  dsimp only at hnext ⊢
  subst hnext
  rw [push_display, processCaptures_relabelBuilder, processCaptures_relabelBuilder,
    length_relabelBuilder]
  have hid : (relabelBuilder ρ source' constraints s).id = s.id := rfl
  rw [hid]
  split_ifs
  · exact ⟨rfl, rfl, rfl⟩
  · exact ⟨rfl, rfl, rfl⟩

/-- The root of a file is left out on both sides. -/
theorem relabelled_skipTranslationUnit (h : Relabelled ρ source source' node node')
    {up up' : Option Node} (hup : Option.Rel (Relabelled ρ source source') up up') :
    Option.Rel (Relabelled ρ source source') (skipTranslationUnit up node).1
        (skipTranslationUnit up' node').1 ∧
      Relabelled ρ source source' (skipTranslationUnit up node).2
        (skipTranslationUnit up' node').2 := by
  unfold skipTranslationUnit
  rw [kind_of_relabelled h]
  by_cases hkind : node.kind = "translation_unit"
  · rw [if_pos hkind, if_pos hkind]
    have hchildren := children_of_relabelled h
    generalize node.children = children at hchildren ⊢
    generalize node'.children = children' at hchildren ⊢
    cases hchildren with
    | nil => exact ⟨hup, h⟩
    | cons hfirst _ => exact ⟨.some h, hfirst⟩
  · rw [if_neg hkind, if_neg hkind]
    exact ⟨hup, h⟩

theorem copied_buildText (hbuild : BuildCopies ρ source source' constraints build build')
    {up up' : Option Node} (hup : Option.Rel (Relabelled ρ source source') up up')
    (h : Relabelled ρ source source' node node') (multiPattern strict : Bool)
    (hsource : s.querySource = source) :
    Joint (fun _ => False) (buildText build up node multiPattern strict s)
      (buildText build' up' node' multiPattern strict (relabelBuilder ρ source' constraints s))
      (TextCopied ρ source' constraints) := by
  obtain ⟨hup, h⟩ := relabelled_skipTranslationUnit h hup
  unfold buildText
  generalize skipTranslationUnit up node = place at hup h ⊢
  generalize skipTranslationUnit up' node' = place' at hup h ⊢
  obtain ⟨up, node⟩ := place
  obtain ⟨up', node'⟩ := place'
  have hchildren := children_of_relabelled h
  cases multiPattern with
  | false => exact copied_buildSinglePattern hbuild hup h strict hsource
  | true =>
    dsimp only
    rw [if_pos rfl, if_pos rfl, ← hchildren.length_eq]
    by_cases hbraces : 2 ≤ node.children.length
    · rw [if_pos hbraces, if_pos hbraces]
      have hinner : List.Forall₂ (Relabelled ρ source source') node.children.tail.dropLast
          node'.children.tail.dropLast := by
        have htail := List.forall₂_drop 1 hchildren
        rw [List.drop_one, List.drop_one] at htail
        rw [List.dropLast_eq_take, List.dropLast_eq_take, ← htail.length_eq]
        exact List.forall₂_take _ htail
      exact copied_buildPatterns hbuild h strict hinner hsource
    · rw [if_neg hbraces, if_neg hbraces]
      exact trivial

theorem copied_buildTree (externals : Externals)
    (hbuild : BuildCopies ρ source source' constraints build build')
    {up up' : Option Node} (hup : Option.Rel (Relabelled ρ source source') up up')
    (h : Relabelled ρ source source' node node') (multiPattern strict : Bool)
    (hsource : s.querySource = source) :
    Joint (fun _ => False) (buildTree build externals up node multiPattern strict s)
      (buildTree build' externals up' node' multiPattern strict
        (relabelBuilder ρ source' constraints s))
      fun tree tree' => tree' = relabelTree ρ constraints tree := by
  unfold buildTree
  refine joint_bind (copied_buildText hbuild hup h multiPattern strict hsource) ?_
  rintro built built' ⟨htext, hvars, hbuilder⟩
  rw [htext, hvars, hbuilder]
  unfold tsQuery
  cases externals.queryError built.text with
  | some message => exact trivial
  | none =>
    change _ = relabelTree ρ constraints _
    rw [relabelTree_eq]
    rfl

theorem treeCopies_nestedTree (externals : Externals)
    (hbuild : BuildCopies ρ source source' constraints build build') :
    TreeCopies ρ source source' constraints (nestedTree build externals)
      (nestedTree build' externals) := by
  intro up up' node node' id multiPattern strict hup h s hsource
  have hbuilt := copied_buildTree externals hbuild hup h multiPattern strict
    (s := .new s.querySource id s.regexConstraints) hsource
  refine joint_bind hbuilt ?_
  rintro tree tree' htree
  exact ⟨htree, rfl, hsource⟩

/-- The builder copies at every height. -/
theorem buildCopies_buildFuel (externals : Externals) (ρ : Renaming) (source source' : String)
    (constraints : RegexMap) (fuel : ℕ) :
    BuildCopies ρ source source' constraints (buildFuel externals fuel)
      (buildFuel externals fuel) := by
  induction fuel with
  | zero =>
    intro up up' node node' depth strict parent _ _
    exact follows_throw _ _
  | succ fuel ih =>
    intro up up' node node' depth strict parent hup h
    exact copies_buildBody ih (treeCopies_nestedTree externals ih) hup h depth strict parent

/-- Both patterns are built or none is, and the second query is the first one
relabelled with the constraints of the second search. -/
theorem joint_buildQueryTree (externals : Externals) {up up' : Option Node} {root root' : Node}
    (hup : Option.Rel (Relabelled ρ source source') up up')
    (h : Relabelled ρ source source' root root') (constraints constraints' : RegexMap) :
    Joint (fun _ => False) (buildQueryTree externals source up root constraints)
      (buildQueryTree externals source' up' root' constraints')
      fun tree tree' => tree' = relabelTree ρ constraints' tree := by
  unfold buildQueryTree
  rw [height_of_relabelled h]
  exact copied_buildTree externals
    (buildCopies_buildFuel externals ρ source source' constraints' root.height) hup h false false
    (s := .new source 0 constraints) rfl

end WeggliEnhance.RelabelledQueries
