import WeggliEnhance.MirroredPatterns

/-!
# Patterns at another place

The same statement in two search patterns: its nodes have other positions in
another text, but the same kinds, fields and words. The grammar of C and C++
promises some facts about the nodes of a statement, on which the builder
relies. Two visits of the builder correspond when their nodes do and when the
depth, the mode and the parent matter alike for both.
-/

namespace WeggliEnhance.MovedPatterns

open SourceText SyntaxTree PatternBuilder PatternNesting BuilderSpecification MirroredPatterns

/-- The same part of a pattern at another place of another text: nothing is
mirrored. -/
abbrev Moved (source source' : String) : Node → Node → Prop :=
  Mirrored (fun _ => False) source source'

/-- Facts of the grammar about all nodes of a statement or an expression. -/
structure Grammatical (root : Node) : Prop where
  /-- A translation unit is no part of anything. -/
  unit : ∀ node ∈ root.nodes, node.kind ≠ "translation_unit"
  /-- Calls have a callee. -/
  callee : ∀ node ∈ root.nodes, node.kind = "call_expression" →
    (node.childByFieldName "function").isSome = true
  /-- Arguments are no statements. -/
  arguments : ∀ node ∈ root.nodes, node.kind = "call_expression" →
    ∀ list ∈ node.childByFieldName "arguments",
      list.kind ≠ "compound_statement" ∧ list.kind ≠ "labeled_statement"

/-- The same part of two patterns, low enough for a bound on the recursion. -/
structure Copy (source source' : String) (fuel : ℕ) (node node' : Node) : Prop where
  /-- The second part is the first at another place. -/
  moved : Moved source source' node node'
  /-- It follows the grammar. -/
  grammatical : Grammatical node
  /-- The height is within the bound. -/
  height : node.height ≤ fuel

/-- Children that are held under the same field. -/
structure Held (source source' : String) (fuel : ℕ) (child child' : Node) : Prop where
  /-- The field stays. -/
  field : child'.field = child.field
  /-- The children are the same part. -/
  copy : Copy source source' fuel child child'

variable {source source' : String} {fuel : ℕ} {node node' child child' : Node}

/-- A copy has the same kinds and words. -/
theorem alike_of_copy (h : Copy source source' fuel node node') : Alike source source' node node' :=
  alike_of_mirrored h.moved

/-- The bound on the height may be raised. -/
theorem copy_mono {bound : ℕ} (h : Copy source source' fuel node node') (hle : fuel ≤ bound) :
    Copy source source' bound node node' := ⟨h.moved, h.grammatical, h.height.trans hle⟩

/-- Parts of a grammatical pattern are grammatical. -/
theorem grammatical_of_child (h : Grammatical node) (hchild : child ∈ node.children) :
    Grammatical child := by
  have hsubset : ∀ inner ∈ child.nodes, inner ∈ node.nodes :=
    fun inner hinner => nodes_trans (child_mem_nodes hchild) hinner
  exact ⟨fun inner hinner => h.unit inner (hsubset inner hinner),
    fun inner hinner => h.callee inner (hsubset inner hinner),
    fun inner hinner => h.arguments inner (hsubset inner hinner)⟩

/-- The bound on the height is positive. -/
theorem exists_bound_of_copy (h : Copy source source' fuel node node') :
    ∃ bound, fuel = bound + 1 := by
  have hheight := h.height
  rw [height_eq] at hheight
  exact Nat.exists_eq_succ_of_ne_zero (by omega)

/-- Some children of a copy, one by one. -/
theorem forall₂_held (h : Copy source source' (fuel + 1) node node') {nodes nodes' : List Node}
    (hsubset : nodes ⊆ node.children) (hfields : nodes'.map Node.field = nodes.map Node.field)
    (hmoved : List.Forall₂ (Moved source source') nodes nodes') :
    List.Forall₂ (Held source source' fuel) nodes nodes' := by
  induction hmoved with
  | nil => exact .nil
  | @cons child child' nodes nodes' hchild _ ih =>
    obtain ⟨hmem, hrest⟩ := List.cons_subset.mp hsubset
    rw [List.map_cons, List.map_cons, List.cons.injEq] at hfields
    refine .cons ⟨hfields.1, hchild, grammatical_of_child h.grammatical hmem, ?_⟩
      (ih hrest hfields.2)
    exact height_le_of_child h.height hmem

/-- The children of the same part are the same parts. -/
theorem held_children (h : Copy source source' (fuel + 1) node node') :
    List.Forall₂ (Held source source' fuel) node.children node'.children := by
  cases h.moved with
  | keep _ hfields hchildren => exact forall₂_held h (List.Subset.refl _) hfields hchildren
  | swap _ _ _ hnever => exact absurd hnever id

/-- Every node of the second part is a node of the first at another place. -/
theorem exists_moved_of_mem (h : Moved source source' node node') {inner' : Node}
    (hmem : inner' ∈ node'.nodes) : ∃ inner ∈ node.nodes, Moved source source' inner inner' := by
  induction node using node_induction generalizing node' with
  | step node ih =>
    rw [nodes_eq] at hmem
    rcases List.mem_cons.mp hmem with rfl | hbelow
    · exact ⟨node, mem_nodes_self node, h⟩
    · obtain ⟨child', hchild', hinner⟩ := List.mem_flatMap.mp hbelow
      cases h with
      | keep _ _ hchildren =>
        obtain ⟨i, hi⟩ := List.mem_iff_getElem?.mp hchild'
        have hrel := rel_getElem? hchildren i
        rw [hi] at hrel
        cases hget : node.children[i]? with
        | none =>
          rw [hget] at hrel
          cases hrel
        | some child =>
          rw [hget] at hrel
          cases hrel with
          | some hmoved =>
            have hchild := List.mem_of_getElem? hget
            obtain ⟨inner, hnodes, hfound⟩ := ih child hchild hmoved hinner
            exact ⟨inner, nodes_trans (child_mem_nodes hchild) hnodes, hfound⟩
      | swap _ _ _ hnever => exact absurd hnever id

section Lookups

/-- A child at a place. -/
theorem held_child (h : Copy source source' (fuel + 1) node node') (i : ℕ) :
    Option.Rel (Held source source' fuel) (node.child i) (node'.child i) :=
  rel_getElem? (held_children h) i

/-- The child held under a field. -/
theorem held_childByFieldName (h : Copy source source' (fuel + 1) node node') (name : String) :
    Option.Rel (Held source source' fuel) (node.childByFieldName name)
      (node'.childByFieldName name) := by
  refine rel_find? (held_children h) ?_
  intro child child' hheld
  rw [hheld.field]

/-- The named children, one by one. -/
theorem held_namedChildren (h : Copy source source' (fuel + 1) node node') :
    List.Forall₂ (Held source source' fuel) node.namedChildren node'.namedChildren := by
  refine List.rel_filter ?_ (held_children h)
  intro child child' hheld
  change child.isNamed = true ↔ child'.isNamed = true
  rw [(alike_of_copy hheld.copy).isNamed]

/-- A named child at a place. -/
theorem held_namedChild (h : Copy source source' (fuel + 1) node node') (i : ℕ) :
    Option.Rel (Held source source' fuel) (node.namedChild i) (node'.namedChild i) :=
  rel_getElem? (held_namedChildren h) i

/-- A copy has as many named children. -/
theorem namedChildCount_of_copy (h : Copy source source' (fuel + 1) node node') :
    node'.namedChildCount = node.namedChildCount := (held_namedChildren h).length_eq.symm

/-- A copy of a leaf is a leaf. -/
theorem isEmpty_children_of_copy (h : Copy source source' (fuel + 1) node node') :
    node'.children.isEmpty = node.children.isEmpty := by
  rw [Bool.eq_iff_iff, List.isEmpty_iff_length_eq_zero, List.isEmpty_iff_length_eq_zero,
    (held_children h).length_eq]

/-- A copy has as many variadic wildcards. -/
theorem countP_isVariadic_of_copy (h : Copy source source' (fuel + 1) node node') :
    node'.children.countP (isVariadic source') = node.children.countP (isVariadic source) :=
  countP_eq_of_forall₂ (held_children h) fun _ _ hheld =>
    isVariadic_of_alike (alike_of_copy hheld.copy)

/-- A copy calls the function `_` if the original does. -/
theorem isWildcardCall_of_copy (h : Copy source source' (fuel + 1) node node') :
    isWildcardCall source' node' = isWildcardCall source node := by
  unfold isWildcardCall
  have hcallee := held_childByFieldName h "function"
  rw [(alike_of_copy h).kind]
  generalize node.childByFieldName "function" = callee at hcallee ⊢
  generalize node'.childByFieldName "function" = callee' at hcallee ⊢
  cases hcallee with
  | none => rfl
  | some hheld =>
    have hword := (alike_of_copy hheld.copy).wildcard
    simp only [Option.any_some, Bool.beq_eq_decide_eq, hword]

end Lookups

section Visits

/-- Modes of two visits: the same one, or strict mode in the first visit
only, if a difference is allowed. -/
def Modes (loose strict strict' : Bool) : Prop :=
  strict = strict' ∨ loose = true ∧ strict = true ∧ strict' = false

/-- A parent below which no expression statement is unwrapped, whatever the
mode. -/
structure Settled (source : String) (p : Node) : Prop where
  /-- It is no block. -/
  block : p.kind ≠ "compound_statement"
  /-- It is no translation unit. -/
  unit : p.kind ≠ "translation_unit"
  /-- It has no label with a meaning. -/
  label : p.kind = "labeled_statement" →
    ∃ word, label source p = some word ∧ word ≠ "NOT" ∧ word ≠ "STRICT"

/-- Both depths are zero or both are not, or the depth does not matter for
the node. -/
def DepthsAgree (source : String) (node : Node) (depth depth' : ℕ) : Prop :=
  (depth = 0 ↔ depth' = 0) ∨
    node.kind ≠ "labeled_statement" ∧ node.kind ≠ "expression_statement" ∧
      isWildcardCall source node = false

/-- Two visits of the same part, the first in strict mode at most. -/
structure Visits (source source' : String) (fuel : ℕ) (loose : Bool) (p p' node node' : Node)
    (depth depth' : ℕ) (strict strict' : Bool) (parent parent' : String) : Prop where
  /-- The nodes are the same part. -/
  copy : Copy source source' fuel node node'
  /-- The modes are the same, or may differ. -/
  modes : Modes loose strict strict'
  /-- Expression statements are unwrapped in both visits or in none. -/
  steady : node.kind = "expression_statement" →
    Alike source source' p p' ∧ (strict = strict' ∨ Settled source p)
  /-- The depths matter alike. -/
  depths : DepthsAgree source node depth depth'
  /-- The names of the parents matter alike. -/
  parents : parent = "declarator" ↔ parent' = "declarator"

variable {loose : Bool} {p p' : Node} {depth depth' : ℕ} {strict strict' : Bool}
  {parent parent' : String}

/-- Most nodes are read alike in both modes. -/
theorem settled_of_kind (h : p.kind ≠ "compound_statement") (hunit : p.kind ≠ "translation_unit")
    (hlabel : p.kind ≠ "labeled_statement") : Settled source p :=
  ⟨h, hunit, fun hkind => absurd hkind hlabel⟩

/-- A visit one level deeper. -/
theorem visits_below (hheld : Held source source' fuel child child')
    (hmodes : Modes loose strict strict') (halike : Alike source source' node node')
    (hsettled : strict = strict' ∨ Settled source node) (depth depth' : ℕ) (parent : String) :
    Visits source source' fuel loose node node' child child' (depth + 1) (depth' + 1) strict strict'
      parent parent :=
  ⟨hheld.copy, hmodes, fun _ => ⟨halike, hsettled⟩, .inl (by omega), Iff.rfl⟩

/-- The cursor on the argument of a wildcard call. -/
theorem copy_wildcardArgument (h : Copy source source' (fuel + 1) node node')
    (hcall : node.kind = "call_expression") {list list' : Node}
    (hlist : node.childByFieldName "arguments" = some list)
    (hheld : Held source source' fuel list list') :
    Alike source source' (wildcardArgument node list).1 (wildcardArgument node' list').1 ∧
      Settled source (wildcardArgument node list).1 ∧
      Copy source source' fuel (wildcardArgument node list).2.1 (wildcardArgument node' list').2.1 ∧
      (wildcardArgument node' list').2.2.length = (wildcardArgument node list).2.2.length := by
  have hcallSettled : Settled source node := by
    refine settled_of_kind ?_ ?_ ?_
    all_goals
      rw [hcall]
      decide
  have hlistSettled : Settled source list := by
    obtain ⟨hblock, hlabel⟩ := h.grammatical.arguments node (mem_nodes_self node) hcall list hlist
    exact settled_of_kind hblock
      (h.grammatical.unit list (child_mem_nodes (childByFieldName_mem hlist))) hlabel
  obtain ⟨bound, rfl⟩ := exists_bound_of_copy hheld.copy
  have hchildren := held_children hheld.copy
  unfold wildcardArgument
  generalize list.children = children at hchildren ⊢
  generalize list'.children = children' at hchildren ⊢
  cases hchildren with
  | nil => exact ⟨alike_of_copy h, hcallSettled, hheld.copy, rfl⟩
  | cons hfirst hrest =>
    cases hrest with
    | nil =>
      exact ⟨alike_of_copy hheld.copy, hlistSettled, copy_mono hfirst.copy (Nat.le_succ _), rfl⟩
    | cons hsecond hothers =>
      exact ⟨alike_of_copy hheld.copy, hlistSettled, copy_mono hsecond.copy (Nat.le_succ _),
        hothers.length_eq.symm⟩

end Visits

end WeggliEnhance.MovedPatterns
