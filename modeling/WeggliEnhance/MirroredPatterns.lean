import Mathlib.Data.List.Forall2
import WeggliEnhance.BuilderSpecification

/-!
# Mirrored search patterns

A search pattern is mirrored by swapping the operands of some of its binary
expressions, at any depth, and reversing their operators. The two patterns
have texts of their own; what is moved keeps its kinds, its fields and its
words. Comments inside an expression keep their places.
-/

namespace WeggliEnhance.MirroredPatterns

open SourceText SyntaxTree PatternBuilder PatternNesting BuilderSpecification

/-- An operator and the one that takes the operands in the other order. -/
def mirrorPairs : List (String × String) :=
  [("+", "+"), ("*", "*"), ("&", "&"), ("|", "|"), ("==", "=="), ("!=", "!="), ("<", ">"),
    (">", "<"), ("<=", ">="), (">=", "<=")]

/-- Names and literals, whose texts are copied into a query. -/
def wordKinds : List String := identifierKinds ++ ["number_literal", "string_literal"]

/-- A node and what becomes of it in the mirrored pattern. -/
structure Alike (source source' : String) (node node' : Node) : Prop where
  /-- The kind stays. -/
  kind : node'.kind = node.kind
  /-- Rules stay rules and tokens stay tokens. -/
  isNamed : node'.isNamed = node.isNamed
  /-- Wildcards stay wildcards, and nothing else becomes one. -/
  wildcard : slice source' node'.range = "_" ↔ slice source node.range = "_"
  /-- Words stay the same. -/
  word : node.kind ∈ wordKinds → slice source' node'.range = slice source node.range
  /-- Labels stay the same. -/
  label : node.kind = "labeled_statement" → label source' node' = label source node

/-- Whether two nodes are alike can be tested. -/
instance (source source' : String) (node node' : Node) :
    Decidable (Alike source source' node node') :=
  decidable_of_iff
    (node'.kind = node.kind ∧ node'.isNamed = node.isNamed ∧
      (slice source' node'.range = "_" ↔ slice source node.range = "_") ∧
      (node.kind ∈ wordKinds → slice source' node'.range = slice source node.range) ∧
      (node.kind = "labeled_statement" → PatternNesting.label source' node' =
        PatternNesting.label source node))
    ⟨fun h => ⟨h.1, h.2.1, h.2.2.1, h.2.2.2.1, h.2.2.2.2⟩,
      fun h => ⟨h.kind, h.isNamed, h.wildcard, h.word, h.label⟩⟩

/-- The second pattern is obtained from the first by mirroring binary
expressions that are allowed to be mirrored. -/
inductive Mirrored (allowed : Node → Prop) (source source' : String) : Node → Node → Prop
  /-- A node stays, and its children are mirrored. -/
  | keep {node node' : Node} : Alike source source' node node' →
    node'.children.map Node.field = node.children.map Node.field →
    List.Forall₂ (Mirrored allowed source source') node.children node'.children →
    Mirrored allowed source source' node node'
  /-- A binary expression, which is no list of arguments, is mirrored. -/
  | swap {node node' left left' right right' op op' : Node} {before before' after after' : List Node} :
    Alike source source' node node' → node.kind = "binary_expression" →
    node.field ≠ some "arguments" → allowed node →
    (op.kind, op'.kind) ∈ mirrorPairs → op.children = [] → op'.children = [] →
    node.children = left :: (before ++ op :: (after ++ [right])) →
    node'.children = right' :: (before' ++ op' :: (after' ++ [left'])) →
    (∀ comment ∈ before ++ after, comment.kind = "comment") →
    Mirrored allowed source source' left left' → Mirrored allowed source source' right right' →
    List.Forall₂ (Mirrored allowed source source') before before' →
    List.Forall₂ (Mirrored allowed source source') after after' →
    Mirrored allowed source source' node node'

/-- A binary expression that holds its operands and its operator only. -/
def Uncommented (node : Node) : Prop := node.children.length = 3

/-- Assignments and the label `strict:`. The builder looks up their parts by
their places. -/
def Selects (source : String) (node : Node) : Prop :=
  node.kind = "assignment_expression" ∨
    node.kind = "labeled_statement" ∧ label source node = some "STRICT"

/-- The parts that it looks up. A comment in front of a part takes its place,
and what is pushed back is never visited. -/
def visitedParts (node : Node) : List Node :=
  if node.kind = "assignment_expression" then node.children.take 3
  else (node.namedChild 1).toList

/-- The second pattern is obtained from the first by mirroring binary
expressions. Those that the builder visits hold no comments. -/
inductive VisiblyMirrored (source source' : String) : Node → Node → Prop
  /-- A node stays, and its children are mirrored. -/
  | keep {node node' : Node} : Alike source source' node node' →
    node'.children.map Node.field = node.children.map Node.field →
    List.Forall₂ (VisiblyMirrored source source') node.children node'.children →
    VisiblyMirrored source source' node node'
  /-- A node stays, and what the builder does not visit is mirrored anyhow. -/
  | hide {node node' : Node} : Alike source source' node node' → Selects source node →
    node.field ≠ some "arguments" →
    node'.children.map Node.field = node.children.map Node.field →
    List.Forall₂ (Mirrored (fun _ => True) source source') node.children node'.children →
    List.Forall₂ (VisiblyMirrored source source') (visitedParts node) (visitedParts node') →
    VisiblyMirrored source source' node node'
  /-- A binary expression, which is no list of arguments, is mirrored. -/
  | swap {node node' left left' right right' op op' : Node} :
    Alike source source' node node' → node.kind = "binary_expression" →
    node.field ≠ some "arguments" → (op.kind, op'.kind) ∈ mirrorPairs →
    op.children = [] → op'.children = [] →
    node.children = [left, op, right] → node'.children = [right', op', left'] →
    VisiblyMirrored source source' left left' → VisiblyMirrored source source' right right' →
    VisiblyMirrored source source' node node'

/-- No statement is labelled `not:`. -/
def NotFree (source : String) (root : Node) : Prop :=
  ∀ node ∈ root.nodes, node.kind = "labeled_statement" → label source node ≠ some "NOT"

section Heights

/-- The height of a list with a first node. -/
theorem heights_cons (node : Node) (nodes : List Node) :
    heights (node :: nodes) = max node.height (heights nodes) := by
  rw [heights]

/-- The height of two lists in a row. -/
theorem heights_append (first second : List Node) :
    heights (first ++ second) = max (heights first) (heights second) := by
  induction first with
  | nil => rw [List.nil_append, heights, Nat.zero_max]
  | cons node first ih => rw [List.cons_append, heights, heights, ih, Nat.max_assoc]

/-- A node is one higher than its children. -/
theorem height_eq (node : Node) : node.height = heights node.children + 1 := by
  cases node
  rw [Node.height]

/-- Lists whose nodes have the same heights pairwise have the same height. -/
theorem heights_eq_of_forall₂ {R : Node → Node → Prop} {nodes nodes' : List Node}
    (h : List.Forall₂ R nodes nodes')
    (heq : ∀ node ∈ nodes, ∀ node', R node node' → node'.height = node.height) :
    heights nodes' = heights nodes := by
  induction h with
  | nil => rfl
  | @cons node node' nodes nodes' hnode hrest ih =>
    rw [heights_cons, heights_cons, heq node List.mem_cons_self node' hnode,
      ih fun n hn => heq n (List.mem_cons_of_mem node hn)]

variable {allowed : Node → Prop} {source source' : String}

/-- Mirroring keeps the height. -/
theorem height_of_mirrored {node node' : Node} (h : Mirrored allowed source source' node node') :
    node'.height = node.height := by
  induction node using node_induction generalizing node' with
  | step node ih =>
    have hchild : ∀ child ∈ node.children, ∀ child',
        Mirrored allowed source source' child child' → child'.height = child.height :=
      fun child hmem _ hmirrored => ih child hmem hmirrored
    have hsame : heights node'.children = heights node.children := by
      cases h with
      | keep _ _ hchildren => exact heights_eq_of_forall₂ hchildren hchild
      | @swap _ _ left left' right right' op op' before before' after after' _ _ _ _ _ hop hop' hnode
          hnode' _ hleft hright hbefore hafter =>
        rw [hnode] at hchild
        have hoperator : op'.height = op.height := by rw [height_eq, height_eq, hop, hop']
        have hleft' := hchild left List.mem_cons_self left' hleft
        have hright' := hchild right (by simp) right' hright
        have hbefore' := heights_eq_of_forall₂ hbefore fun node hmem => hchild node (by simp [hmem])
        have hafter' := heights_eq_of_forall₂ hafter fun node hmem => hchild node (by simp [hmem])
        rw [hnode, hnode']
        simp only [heights_cons, heights_append, hoperator, hleft', hright', hbefore', hafter']
        rw [heights]
        omega
    rw [height_eq, height_eq, hsame]

end Heights

section Visits

variable {source source' : String} {node node' : Node}

/-- Pairs of members are related otherwise. -/
theorem forall₂_imp_of_mem {α β : Type*} {R S : α → β → Prop} {first : List α} {second : List β}
    (h : List.Forall₂ R first second) (himp : ∀ a ∈ first, ∀ b ∈ second, R a b → S a b) :
    List.Forall₂ S first second := by
  induction h with
  | nil => exact .nil
  | @cons a b first second hfirst _ ih =>
    exact .cons (himp a List.mem_cons_self b List.mem_cons_self hfirst)
      (ih fun c hc d hd => himp c (List.mem_cons_of_mem a hc) d (List.mem_cons_of_mem b hd))

/-- What is mirrored as far as the builder visits it is mirrored. -/
theorem mirrored_of_visibly (h : VisiblyMirrored source source' node node') :
    Mirrored (fun _ => True) source source' node node' := by
  induction node using node_induction generalizing node' with
  | step node ih =>
    have hchild : ∀ child ∈ node.children, ∀ child', VisiblyMirrored source source' child child' →
        Mirrored (fun _ => True) source source' child child' :=
      fun child hmem _ hvisibly => ih child hmem hvisibly
    cases h with
    | keep halike hfields hchildren =>
      exact .keep halike hfields (forall₂_imp_of_mem hchildren fun a ha b _ => hchild a ha b)
    | hide halike _ _ hfields hchildren _ => exact .keep halike hfields hchildren
    | @swap _ _ left left' right right' op op' halike hkind hfield hoperators hop hop' hnode hnode'
        hleft hright =>
      rw [hnode] at hchild
      exact .swap halike hkind hfield trivial hoperators hop hop' hnode hnode'
        (List.forall_mem_nil _) (hchild left (by simp) left' hleft)
        (hchild right (by simp) right' hright) .nil .nil

/-- When no mirrored expression holds a comment, none that is visited does. -/
theorem visibly_of_mirrored (h : Mirrored Uncommented source source' node node') :
    VisiblyMirrored source source' node node' := by
  induction node using node_induction generalizing node' with
  | step node ih =>
    have hchild : ∀ child ∈ node.children, ∀ child',
        Mirrored Uncommented source source' child child' →
          VisiblyMirrored source source' child child' :=
      fun child hmem _ hmirrored => ih child hmem hmirrored
    cases h with
    | keep halike hfields hchildren =>
      exact .keep halike hfields (forall₂_imp_of_mem hchildren fun a ha b _ => hchild a ha b)
    | @swap _ _ left left' right right' op op' before before' after after' halike hkind hfield
        hallowed hoperators hop hop' hnode hnode' _ hleft hright hbefore hafter =>
      have hlength := hallowed
      rw [Uncommented, hnode] at hlength
      simp only [List.length_cons, List.length_append, List.length_nil] at hlength
      obtain rfl : before = [] := List.length_eq_zero_iff.mp (by omega)
      obtain rfl : after = [] := List.length_eq_zero_iff.mp (by omega)
      cases hbefore
      cases hafter
      rw [hnode] at hchild
      exact .swap halike hkind hfield hoperators hop hop' hnode hnode'
        (hchild left (by simp) left' hleft) (hchild right (by simp) right' hright)

/-- The parts that are looked up are children. -/
theorem visitedParts_subset (node : Node) : visitedParts node ⊆ node.children := by
  unfold visitedParts
  split_ifs
  · exact List.take_subset 3 node.children
  · intro part hpart
    have hmem := List.mem_of_getElem? (Option.mem_toList.mp hpart)
    exact (List.mem_filter.mp hmem).1

/-- The two kinds of nodes whose parts are looked up by their places. -/
theorem kind_mem_of_selects (h : Selects source node) :
    node.kind ∈ ["assignment_expression", "labeled_statement"] := by
  obtain hkind | ⟨hkind, -⟩ := h
  · rw [hkind]
    exact List.mem_cons_self
  · rw [hkind]
    exact List.mem_cons_of_mem _ List.mem_cons_self

end Visits

section Parts

variable {source source' : String} {fuel : ℕ} {node node' : Node}

/-- Corresponding parts of a pattern and of its mirror image, low enough for a
bound on the recursion. -/
structure Twin (source source' : String) (fuel : ℕ) (node node' : Node) : Prop where
  /-- The second part is obtained from the first. -/
  mirrored : VisiblyMirrored source source' node node'
  /-- There is no negation inside. -/
  notFree : NotFree source node
  /-- The height is within the bound. -/
  height : node.height ≤ fuel

/-- Corresponding children are held under the same field. -/
structure Member (source source' : String) (fuel : ℕ) (child child' : Node) : Prop where
  /-- The field stays. -/
  field : child'.field = child.field
  /-- The children correspond. -/
  twin : Twin source source' fuel child child'

/-- A node that is not mirrored itself. -/
structure Kept (source source' : String) (fuel : ℕ) (node node' : Node) : Prop where
  /-- The node stays the same. -/
  alike : Alike source source' node node'
  /-- Its children correspond one by one. -/
  members : List.Forall₂ (Member source source' fuel) node.children node'.children
  /-- It is no negation. -/
  notLabel : node.kind = "labeled_statement" → label source node ≠ some "NOT"

/-- A node of which only some parts are visited. -/
structure Selected (source source' : String) (fuel : ℕ) (node node' : Node) : Prop where
  /-- The node stays the same. -/
  alike : Alike source source' node node'
  /-- Its parts are looked up by their places. -/
  selects : Selects source node
  /-- It is no list of arguments. -/
  field : node.field ≠ some "arguments"
  /-- The parts correspond. -/
  parts : List.Forall₂ (Twin source source' fuel) (visitedParts node) (visitedParts node')

/-- A binary expression that is mirrored. -/
structure Crossed (source source' : String) (fuel : ℕ)
    (node node' left left' right right' op op' : Node) :
    Prop where
  /-- It is still the same kind of node. -/
  alike : Alike source source' node node'
  /-- It is a binary expression. -/
  kind : node.kind = "binary_expression"
  /-- It is no list of arguments. -/
  field : node.field ≠ some "arguments"
  /-- Its operands and its operator. -/
  children : node.children = [left, op, right]
  /-- The operands in the other order. -/
  children' : node'.children = [right', op', left']
  /-- The operator is reversed. -/
  operators : (op.kind, op'.kind) ∈ mirrorPairs
  /-- The left operand moves to the right. -/
  left : Twin source source' fuel left left'
  /-- The right operand moves to the left. -/
  right : Twin source source' fuel right right'

/-- The kinds and words of a mirrored node stay. -/
theorem alike_of_mirrored {allowed : Node → Prop} (h : Mirrored allowed source source' node node') :
    Alike source source' node node' := by
  cases h with
  | keep halike _ _ => exact halike
  | swap halike _ _ _ _ _ _ _ _ _ _ _ _ _ => exact halike

/-- Corresponding parts are alike. -/
theorem alike_of_twin (h : Twin source source' fuel node node') : Alike source source' node node' :=
  alike_of_mirrored (mirrored_of_visibly h.mirrored)

/-- Corresponding parts have the same height. -/
theorem height_of_twin (h : Twin source source' fuel node node') : node'.height = node.height :=
  height_of_mirrored (mirrored_of_visibly h.mirrored)

/-- Parts of a pattern without negations have none. -/
theorem notFree_of_child {child : Node} (h : NotFree source node) (hchild : child ∈ node.children) :
    NotFree source child :=
  fun inner hinner => h inner (nodes_trans (child_mem_nodes hchild) hinner)

/-- A child that is mirrored, with the smaller bound. -/
theorem twin_of_child {child child' : Node} (h : Twin source source' (fuel + 1) node node')
    (hchild : child ∈ node.children) (hmirrored : VisiblyMirrored source source' child child') :
    Twin source source' fuel child child' :=
  ⟨hmirrored, notFree_of_child h.notFree hchild, height_le_of_child h.height hchild⟩

/-- The bound on the height may be raised. -/
theorem twin_mono {bound : ℕ} (h : Twin source source' fuel node node') (hle : fuel ≤ bound) :
    Twin source source' bound node node' := ⟨h.mirrored, h.notFree, h.height.trans hle⟩

/-- Every node has a positive height. -/
theorem exists_bound (h : Twin source source' fuel node node') : ∃ bound, fuel = bound + 1 := by
  have hheight := h.height
  rw [height_eq] at hheight
  exact Nat.exists_eq_succ_of_ne_zero (by omega)

/-- Some children, one by one. -/
theorem forall₂_members (h : Twin source source' (fuel + 1) node node') {nodes nodes' : List Node}
    (hsubset : nodes ⊆ node.children) (hfields : nodes'.map Node.field = nodes.map Node.field)
    (hmirrored : List.Forall₂ (VisiblyMirrored source source') nodes nodes') :
    List.Forall₂ (Member source source' fuel) nodes nodes' := by
  induction hmirrored with
  | nil => exact .nil
  | @cons child child' nodes nodes' hchild _ ih =>
    obtain ⟨hmem, hrest⟩ := List.cons_subset.mp hsubset
    rw [List.map_cons, List.map_cons, List.cons.injEq] at hfields
    exact .cons ⟨hfields.1, twin_of_child h hmem hchild⟩ (ih hrest hfields.2)

/-- A node of a pattern is kept as a whole or in parts, or it is mirrored. -/
theorem kept_or_crossed (h : Twin source source' (fuel + 1) node node') :
    Kept source source' fuel node node' ∨ Selected source source' fuel node node' ∨
      ∃ left left' right right' op op',
        Crossed source source' fuel node node' left left' right right' op op' := by
  cases h.mirrored with
  | keep halike hfields hchildren =>
    exact .inl ⟨halike, forall₂_members h (List.Subset.refl _) hfields hchildren,
      h.notFree node (mem_nodes_self node)⟩
  | hide halike hselects hfield _ _ hparts =>
    refine .inr (.inl ⟨halike, hselects, hfield, forall₂_imp_of_mem hparts ?_⟩)
    intro part hpart part' _ hmirrored
    exact twin_of_child h (visitedParts_subset node hpart) hmirrored
  | @swap _ _ left left' right right' op op' halike hkind hfield hoperators _ _ hnode hnode' hleft
      hright =>
    have hl : left ∈ node.children := by simp [hnode]
    have hr : right ∈ node.children := by simp [hnode]
    exact .inr (.inr ⟨left, left', right, right', op, op', halike, hkind, hfield, hnode, hnode',
      hoperators, twin_of_child h hl hleft, twin_of_child h hr hright⟩)

end Parts

section Lookups

/-- Looking up the same place in two lists that correspond. -/
theorem rel_getElem? {α β : Type*} {R : α → β → Prop} {first : List α} {second : List β}
    (h : List.Forall₂ R first second) (i : ℕ) : Option.Rel R first[i]? second[i]? := by
  induction h generalizing i with
  | nil => exact .none
  | cons hfirst _ ih =>
    cases i with
    | zero => exact .some hfirst
    | succ i => exact ih i

variable {R : Node → Node → Prop} {nodes nodes' : List Node}

/-- Searching two lists that correspond with a test that does not tell them
apart. -/
theorem rel_find? (h : List.Forall₂ R nodes nodes') {p : Node → Bool}
    (hp : ∀ node node', R node node' → p node' = p node) :
    Option.Rel R (nodes.find? p) (nodes'.find? p) := by
  induction h with
  | nil => exact .none
  | @cons node node' nodes nodes' hfirst _ ih =>
    rw [List.find?_cons, List.find?_cons, hp node node' hfirst]
    cases p node with
    | true => exact .some hfirst
    | false => exact ih

/-- Counting in two lists that correspond. -/
theorem countP_eq_of_forall₂ (h : List.Forall₂ R nodes nodes') {p q : Node → Bool}
    (hp : ∀ node node', R node node' → q node' = p node) : nodes'.countP q = nodes.countP p := by
  induction h with
  | nil => rfl
  | @cons node node' nodes nodes' hfirst _ ih =>
    rw [List.countP_cons, List.countP_cons, ih, hp node node' hfirst]

variable {source source' : String} {fuel : ℕ} {node node' : Node}

/-- A child at a place. -/
theorem rel_child (h : Kept source source' fuel node node') (i : ℕ) :
    Option.Rel (Member source source' fuel) (node.child i) (node'.child i) :=
  rel_getElem? h.members i

/-- Corresponding children are twins. -/
theorem rel_twin {child child' : Option Node}
    (h : Option.Rel (Member source source' fuel) child child') :
    Option.Rel (Twin source source' fuel) child child' := by
  cases h with
  | none => exact .none
  | some hmember => exact .some hmember.twin

/-- The sides and the operator of an assignment. -/
theorem rel_child_of_selected (h : Selected source source' fuel node node')
    (hkind : node.kind = "assignment_expression") {i : ℕ} (hi : i < 3) :
    Option.Rel (Twin source source' fuel) (node.child i) (node'.child i) := by
  have hparts := rel_getElem? h.parts i
  rw [visitedParts, if_pos hkind, visitedParts, if_pos (h.alike.kind.trans hkind),
    List.getElem?_take_of_lt hi, List.getElem?_take_of_lt hi] at hparts
  exact hparts

/-- The statement of a label. -/
theorem rel_namedChild_of_selected (h : Selected source source' fuel node node')
    (hkind : node.kind = "labeled_statement") :
    Option.Rel (Twin source source' fuel) (node.namedChild 1) (node'.namedChild 1) := by
  have hother : node.kind ≠ "assignment_expression" := by
    rw [hkind]
    decide
  have hparts := rel_getElem? h.parts 0
  rw [visitedParts, if_neg hother, visitedParts, if_neg (h.alike.kind ▸ hother)] at hparts
  cases hchild : node.namedChild 1 with
  | none =>
    cases hchild' : node'.namedChild 1 with
    | none => exact .none
    | some child' =>
      rw [hchild, hchild'] at hparts
      cases hparts
  | some child =>
    cases hchild' : node'.namedChild 1 with
    | none =>
      rw [hchild, hchild'] at hparts
      cases hparts
    | some child' =>
      rw [hchild, hchild'] at hparts
      cases hparts with
      | some htwin => exact .some htwin

/-- The child held under a field. -/
theorem rel_childByFieldName (h : Kept source source' fuel node node') (name : String) :
    Option.Rel (Member source source' fuel) (node.childByFieldName name)
      (node'.childByFieldName name) := by
  refine rel_find? h.members ?_
  intro child child' hmember
  rw [hmember.field]

/-- Labels of corresponding statements read alike. -/
theorem rel_label (h : Alike source source' node node') (hkind : node.kind = "labeled_statement") :
    Option.Rel (fun first first' => toUppercase (slice source' first'.range) =
      toUppercase (slice source first.range)) (node.child 0) (node'.child 0) := by
  have hlabel := h.label hkind
  unfold label at hlabel
  generalize node.child 0 = first at hlabel ⊢
  generalize node'.child 0 = first' at hlabel ⊢
  cases first with
  | none =>
    cases first' with
    | none => exact .none
    | some first' => cases hlabel
  | some first =>
    cases first' with
    | none => cases hlabel
    | some first' => exact .some (Option.some.inj hlabel)

/-- The named children, one by one. -/
theorem forall₂_namedChildren (h : Kept source source' fuel node node') :
    List.Forall₂ (Member source source' fuel) node.namedChildren node'.namedChildren := by
  refine List.rel_filter ?_ h.members
  intro child child' hmember
  change child.isNamed = true ↔ child'.isNamed = true
  rw [(alike_of_twin hmember.twin).isNamed]

/-- A named child at a place. -/
theorem rel_namedChild (h : Kept source source' fuel node node') (i : ℕ) :
    Option.Rel (Member source source' fuel) (node.namedChild i) (node'.namedChild i) :=
  rel_getElem? (forall₂_namedChildren h) i

/-- The variadic wildcard stays one. -/
theorem isVariadic_of_alike (h : Alike source source' node node') :
    isVariadic source' node' = isVariadic source node := by
  rw [isVariadic, isVariadic, h.isNamed, h.kind]
  by_cases hkind : node.kind = "identifier"
  · have hword : node.kind ∈ wordKinds := by
      rw [hkind]
      decide
    rw [h.word hword]
  · have hbeq : (node.kind == "identifier") = false := beq_eq_false_iff_ne.mpr hkind
    rw [hbeq, Bool.and_false, Bool.false_and, Bool.false_and]

/-- There are as many named children. -/
theorem namedChildCount_of_kept (h : Kept source source' fuel node node') :
    node'.namedChildCount = node.namedChildCount :=
  (forall₂_namedChildren h).length_eq.symm

/-- There are as many variadic wildcards. -/
theorem countP_isVariadic_of_kept (h : Kept source source' fuel node node') :
    node'.children.countP (isVariadic source') = node.children.countP (isVariadic source) :=
  countP_eq_of_forall₂ h.members fun _ _ hmember =>
    isVariadic_of_alike (alike_of_twin hmember.twin)

/-- The cursor on the argument of a wildcard call. -/
theorem twin_wildcardArgument (h : Kept source source' fuel node node') {list list' : Node}
    (hlist : node.childByFieldName "arguments" = some list)
    (hmember : Member source source' fuel list list') :
    Alike source source' (wildcardArgument node list).1 (wildcardArgument node' list').1 ∧
      Twin source source' fuel (wildcardArgument node list).2.1 (wildcardArgument node' list').2.1 ∧
      (wildcardArgument node' list').2.2.length = (wildcardArgument node list).2.2.length := by
  have hfield : list.field = some "arguments" := by
    unfold Node.childByFieldName at hlist
    have hfound := List.find?_some hlist
    exact beq_iff_eq.mp hfound
  obtain ⟨bound, rfl⟩ := exists_bound hmember.twin
  rcases kept_or_crossed hmember.twin with hkept | hselected | ⟨_, _, _, _, _, _, hcrossed⟩
  · have hmembers := hkept.members
    unfold wildcardArgument
    generalize list.children = children at hmembers ⊢
    generalize list'.children = children' at hmembers ⊢
    cases hmembers with
    | nil => exact ⟨h.alike, hmember.twin, rfl⟩
    | cons hfirst hrest =>
      cases hrest with
      | nil => exact ⟨hkept.alike, twin_mono hfirst.twin (Nat.le_succ _), rfl⟩
      | cons hsecond hothers =>
        exact ⟨hkept.alike, twin_mono hsecond.twin (Nat.le_succ _), hothers.length_eq.symm⟩
  · exact absurd hfield hselected.field
  · exact absurd hfield hcrossed.field

end Lookups

end WeggliEnhance.MirroredPatterns
