import WeggliEnhance.FirstOccurrence
import WeggliEnhance.PatternNesting

/-!
# What a builder step emits

Every call of the builder allocates captures, opens queries and returns text.
The relation below says how these fit together: the text names the captures
allocated by the call in the order of their allocation, and the opened
queries take the ids that the counter gives them. It has one rule for each
elementary action, and rules for doing one thing after the other and for
writing a text again.
-/

namespace WeggliEnhance.BuilderEmission

open SourceText SyntaxTree QueryText ThirdParty QueryTrees PatternBuilder PatternNesting
  NestedCounters FirstOccurrence

/-- The capture suffix for an index. -/
def captureTag (i : ℕ) : Tag := .capture (toString i)

/-- The predicates for the captures of an interval. -/
def predicateTags (captures : List Capture) (lower upper : ℕ) : List Tag :=
  tagsOf (processCaptures (captures.take upper) lower).1

/-- One top-level pattern holds the captures of an interval: suffixes in the
order of the indices, then the predicates, then suffixes that only serve the
output. -/
def PatternLayout (captures : List Capture) (lower upper : ℕ) (items : List Item) : Prop :=
  upper ≤ captures.length ∧ ∃ before after : List ℕ,
    tagsOf items =
      before.map captureTag ++ predicateTags captures lower upper ++ after.map captureTag ∧
    Numbers lower upper (before ++ after) ∧ ∀ i ∈ after, captures[i]? = some .display

/-- The patterns of a query hold consecutive intervals of its captures. -/
def TextLayout (captures : List Capture) : ℕ → List (List Item) → Prop
  | lower, [] => lower = captures.length
  | lower, items :: rest =>
    ∃ upper, PatternLayout captures lower upper items ∧ TextLayout captures upper rest

/-- What the builder guarantees of every query tree it makes. -/
structure WellFormed (externals : Externals) (constraints : RegexMap) (tree : QueryTree) : Prop where
  /-- Tree-sitter compiled the query. -/
  accepted : externals.queryError tree.query.text = none
  /-- The text names all captures in order. -/
  layout : TextLayout tree.captures 0 tree.query.text
  /-- Variables carry the constraint listed for them. -/
  constrained : ∀ name constraint, .variable name constraint ∈ tree.captures →
    constraint = constraints.lookup name
  /-- Queries opened inside have larger ids. -/
  rising : ∀ inner ∈ tree.children ++ tree.negatives, tree.id < inner.id

/-- A finished query tree: it is well-formed at every depth, and its ids are
the ones that a counter started at its own id gives out. -/
structure Finished (externals : Externals) (constraints : RegexMap) (id : ℕ) (shape : Shape)
    (tree : QueryTree) : Prop where
  /-- The tree has the id it was built with. -/
  root : tree.id = id
  /-- All trees are well-formed. -/
  wellFormed : ∀ t ∈ tree.trees, WellFormed externals constraints t
  /-- The ids follow the nesting. -/
  ids : (tree.trees.map QueryTree.id).Perm (shape.labels id)

/-- The query trees that a builder holds. -/
def held (builder : QueryBuilder) : List QueryTree :=
  builder.captures.filterMap Capture.tree? ++ builder.negations.map NegativeQuery.qt

/-- The ids of all trees that a builder holds. -/
def heldIds (builder : QueryBuilder) : List ℕ :=
  ((held builder).flatMap QueryTree.trees).map QueryTree.id

/-- A negation knows the last recorded capture allocated before it. -/
def Placed (captures : List Capture) (negation : NegativeQuery) (site : ℕ) : Prop :=
  site ≤ captures.length ∧ negation.previousCaptureIndex = lastRecorded (captures.take site)

/-- The invariant of a builder. -/
structure Consistent (externals : Externals) (builder : QueryBuilder) : Prop where
  /-- All trees held at any depth are well-formed. -/
  trees : ∀ tree ∈ held builder, ∀ t ∈ tree.trees,
    WellFormed externals builder.regexConstraints t
  /-- Variables carry the constraint listed for them. -/
  constrained : ∀ name constraint, .variable name constraint ∈ builder.captures →
    constraint = builder.regexConstraints.lookup name
  /-- Negations are placed where they were met. -/
  placed : List.Forall₂ (Placed builder.captures) builder.negations builder.negationSites

/-- A call of the builder that writes tags and opens queries. -/
structure Emits (externals : Externals) (builder : QueryBuilder) (tags : List Tag)
    (shapes : List Shape) (next : QueryBuilder) : Prop where
  /-- The pattern text stays. -/
  querySource : next.querySource = builder.querySource
  /-- The constraints stay. -/
  regexConstraints : next.regexConstraints = builder.regexConstraints
  /-- Captures are only added. -/
  captures : builder.captures <+: next.captures
  /-- The tags name the added captures in order. -/
  names : ∃ indices, tags = indices.map captureTag ∧
    Numbers builder.captures.length next.captures.length indices
  /-- The counter moves once for each opened query. -/
  id : next.id = builder.id + shapes.length
  /-- The opened queries have the ids of the counter. -/
  ids : (heldIds next).Perm (heldIds builder ++ labelsFrom builder.id shapes)
  /-- The invariant is kept. -/
  consistent : Consistent externals builder → Consistent externals next

section Rules

variable {externals : Externals} {builder middle next : QueryBuilder} {tags tags' : List Tag}
  {shapes shapes' : List Shape}

/-- Doing nothing emits nothing. -/
theorem emits_refl (builder : QueryBuilder) : Emits externals builder [] [] builder where
  querySource := rfl
  regexConstraints := rfl
  captures := List.prefix_refl _
  names := ⟨[], rfl, numbers_nil _⟩
  id := rfl
  ids := by
    rw [labelsFrom, List.append_nil]
  consistent := id

/-- One call after the other. -/
theorem emits_trans (first : Emits externals builder tags shapes middle)
    (second : Emits externals middle tags' shapes' next) :
    Emits externals builder (tags ++ tags') (shapes ++ shapes') next where
  querySource := second.querySource.trans first.querySource
  regexConstraints := second.regexConstraints.trans first.regexConstraints
  captures := first.captures.trans second.captures
  names := by
    obtain ⟨indices, rfl, hfirst⟩ := first.names
    obtain ⟨indices', rfl, hsecond⟩ := second.names
    exact ⟨indices ++ indices', List.map_append.symm, numbers_append hfirst hsecond⟩
  id := by
    rw [second.id, first.id, List.length_append, Nat.add_assoc]
  ids := by
    rw [labelsFrom_append, ← first.id, ← List.append_assoc]
    exact second.ids.trans (first.ids.append_right _)
  consistent := second.consistent ∘ first.consistent

theorem captureTag_injective : Function.Injective captureTag := by
  intro i j h
  exact toString_injective (Tag.capture.inj h)

/-- Text that names captures of the same call again changes nothing. -/
theorem emits_again (first : Emits externals builder tags shapes next) (hagain : tags' ⊆ tags) :
    Emits externals builder (tags ++ tags') shapes next where
  querySource := first.querySource
  regexConstraints := first.regexConstraints
  captures := first.captures
  names := by
    obtain ⟨indices, rfl, hfirst⟩ := first.names
    obtain ⟨again, rfl⟩ : ∃ again : List ℕ, again.map captureTag = tags' := by
      induction tags' with
      | nil => exact ⟨[], rfl⟩
      | cons tag tags' ih =>
        obtain ⟨hhead, htail⟩ := List.cons_subset.mp hagain
        obtain ⟨i, -, rfl⟩ := List.mem_map.mp hhead
        obtain ⟨again, rfl⟩ := ih htail
        exact ⟨i :: again, rfl⟩
    refine ⟨indices ++ again, List.map_append.symm, numbers_again hfirst ?_⟩
    intro i hi
    obtain ⟨j, hj, heq⟩ := List.mem_map.mp (hagain (List.mem_map_of_mem hi))
    rwa [← captureTag_injective heq]
  id := first.id
  ids := first.ids
  consistent := first.consistent

/-- A placed negation stays placed when captures are added. -/
theorem placed_of_prefix {captures more : List Capture} (h : captures <+: more)
    {negation : NegativeQuery} {site : ℕ} (hplaced : Placed captures negation site) :
    Placed more negation site := by
  obtain ⟨extra, rfl⟩ := h
  obtain ⟨hle, hprevious⟩ := hplaced
  refine ⟨?_, ?_⟩
  · rw [List.length_append]
    omega
  · rw [hprevious, List.take_append_of_le_length hle]

theorem held_push (builder : QueryBuilder) (capture : Capture) :
    (held (builder.push capture)).Perm (held builder ++ capture.tree?.toList) := by
  have hsplit : held (builder.push capture) =
      builder.captures.filterMap Capture.tree? ++
        (capture.tree?.toList ++ builder.negations.map NegativeQuery.qt) := by
    unfold held QueryBuilder.push
    rw [List.filterMap_append, List.append_assoc]
    cases capture <;> rfl
  rw [hsplit, held, List.append_assoc]
  exact List.Perm.append_left _ List.perm_append_comm

/-- Adding one held tree adds its ids. -/
theorem heldIds_perm {trees : List QueryTree} (h : (held next).Perm (held builder ++ trees)) :
    (heldIds next).Perm (heldIds builder ++ (trees.flatMap QueryTree.trees).map QueryTree.id) := by
  have hperm := (h.flatMap_right QueryTree.trees).map QueryTree.id
  rwa [List.flatMap_append, List.map_append] at hperm

/-- The invariant after adding a capture with the tree it holds. -/
theorem consistent_push {capture : Capture} (hconsistent : Consistent externals builder)
    (htrees : ∀ tree, capture.tree? = some tree → ∀ t ∈ tree.trees,
      WellFormed externals builder.regexConstraints t)
    (hvariable : ∀ name constraint, capture = .variable name constraint →
      constraint = builder.regexConstraints.lookup name) :
    Consistent externals (builder.push capture) where
  trees := by
    intro tree htree
    rcases List.mem_append.mp ((held_push builder capture).mem_iff.mp htree) with hold | hnew
    · exact hconsistent.trees tree hold
    · exact htrees tree (Option.mem_toList.mp hnew)
  constrained := by
    intro name constraint hmem
    rcases List.mem_append.mp hmem with hold | hnew
    · exact hconsistent.constrained name constraint hold
    · exact hvariable name constraint (List.mem_singleton.mp hnew).symm
  placed := hconsistent.placed.imp fun _ _ => placed_of_prefix (List.prefix_append _ _)

/-- Adding a capture without a tree. -/
theorem emits_leaf (builder : QueryBuilder) (capture : Capture) (hleaf : capture.tree? = none)
    (hvariable : ∀ name constraint, capture = .variable name constraint →
      constraint = builder.regexConstraints.lookup name) :
    Emits externals builder [captureTag builder.captures.length] [] (builder.push capture) where
  querySource := rfl
  regexConstraints := rfl
  captures := List.prefix_append _ _
  names := by
    refine ⟨[builder.captures.length], rfl, ?_⟩
    rw [QueryBuilder.push, List.length_append]
    exact numbers_single _
  id := rfl
  ids := by
    have hperm := heldIds_perm (held_push builder capture)
    rwa [hleaf] at hperm
  consistent := by
    intro hconsistent
    refine consistent_push hconsistent ?_ hvariable
    intro tree htree
    rw [hleaf] at htree
    cases htree

/-- Opening a query for a capture. -/
theorem emits_open (builder : QueryBuilder) {capture : Capture} {tree : QueryTree} {shape : Shape}
    (htree : capture.tree? = some tree)
    (hfinished : Finished externals builder.regexConstraints (builder.id + 1) shape tree) :
    Emits externals builder [captureTag builder.captures.length] [shape]
      ({ builder with id := builder.id + 1 }.push capture) where
  querySource := rfl
  regexConstraints := rfl
  captures := List.prefix_append _ _
  names := by
    refine ⟨[builder.captures.length], rfl, ?_⟩
    rw [QueryBuilder.push, List.length_append]
    exact numbers_single _
  id := rfl
  ids := by
    have hperm := heldIds_perm (held_push { builder with id := builder.id + 1 } capture)
    rw [htree, Option.toList_some, List.flatMap_singleton] at hperm
    rw [labelsFrom, labelsFrom, List.append_nil]
    exact hperm.trans (hfinished.ids.append_left _)
  consistent := by
    intro hconsistent
    have hsame : Consistent externals { builder with id := builder.id + 1 } :=
      ⟨hconsistent.trees, hconsistent.constrained, hconsistent.placed⟩
    refine consistent_push hsame ?_ ?_
    · intro tree' htree'
      rw [htree] at htree'
      cases htree'
      exact hfinished.wellFormed
    · rintro name constraint rfl
      cases htree

/-- The builder after meeting a negation. -/
def negate (builder : QueryBuilder) (tree : QueryTree) : QueryBuilder :=
  { builder with
    id := builder.id + 1
    negations := builder.negations ++ [⟨tree, lastRecorded builder.captures⟩]
    negationSites := builder.negationSites ++ [builder.captures.length] }

/-- Opening a query for a negation adds no text. -/
theorem emits_negation (builder : QueryBuilder) {tree : QueryTree} {shape : Shape}
    (hfinished : Finished externals builder.regexConstraints (builder.id + 1) shape tree) :
    Emits externals builder [] [shape] (negate builder tree) where
  querySource := rfl
  regexConstraints := rfl
  captures := List.prefix_refl _
  names := ⟨[], rfl, numbers_nil _⟩
  id := rfl
  ids := by
    have hheld : held (negate builder tree) = held builder ++ [tree] := by
      unfold held negate
      rw [List.map_append, ← List.append_assoc, List.map_singleton]
    have hperm := heldIds_perm (List.Perm.of_eq hheld)
    rw [List.flatMap_singleton] at hperm
    rw [labelsFrom, labelsFrom, List.append_nil]
    exact hperm.trans (hfinished.ids.append_left _)
  consistent := by
    intro hconsistent
    refine ⟨?_, hconsistent.constrained, ?_⟩
    · intro tree' htree'
      have hheld : tree' ∈ held builder ∨ tree' = tree := by
        simpa [held, negate, or_assoc] using htree'
      rcases hheld with hold | rfl
      · exact hconsistent.trees tree' hold
      · exact hfinished.wellFormed
    · have hplaced : Placed builder.captures ⟨tree, lastRecorded builder.captures⟩
          builder.captures.length := by
        refine ⟨le_rfl, ?_⟩
        rw [List.take_length]
      exact List.rel_append hconsistent.placed (List.Forall₂.cons hplaced List.Forall₂.nil)

end Rules

end WeggliEnhance.BuilderEmission
