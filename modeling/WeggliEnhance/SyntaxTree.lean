import WeggliEnhance.SourceText

/-!
# Syntax trees

Search patterns and analysed sources are both parsed by tree-sitter, so one
type of nodes serves the builder, which walks the tree of a pattern, and the
engine, which sees captured nodes of a source.
-/

namespace WeggliEnhance.SyntaxTree

open SourceText

/-- A tree-sitter node together with everything below it. -/
structure Node where
  /-- Identity of the node inside its tree, `node.id()`. -/
  id : ℕ
  /-- Grammar symbol, `node.kind()`; for a token this is its text. -/
  kind : String
  /-- Named nodes are grammar rules, the others are literal tokens. -/
  isNamed : Bool
  /-- Name of the field under which the parent holds this node. -/
  field : Option String
  /-- Bytes of the parsed text that the node covers. -/
  range : Range
  /-- All children in source order, named and anonymous. -/
  children : List Node

/-- `node.child(i)`. -/
def Node.child (node : Node) (i : ℕ) : Option Node := node.children[i]?

/-- The named children in source order. -/
def Node.namedChildren (node : Node) : List Node := node.children.filter Node.isNamed

/-- `node.named_child(i)`. -/
def Node.namedChild (node : Node) (i : ℕ) : Option Node := node.namedChildren[i]?

/-- `node.named_child_count()`. -/
def Node.namedChildCount (node : Node) : ℕ := node.namedChildren.length

/-- `node.child_by_field_name(name)`: the first child held under that field. -/
def Node.childByFieldName (node : Node) (name : String) : Option Node :=
  node.children.find? fun child => child.field == some name

mutual

/-- Longest chain of nodes from this one downwards. -/
def Node.height : Node → ℕ
  | ⟨_, _, _, _, _, children⟩ => heights children + 1

/-- Largest height in a list of nodes. -/
def heights : List Node → ℕ
  | [] => 0
  | node :: nodes => max node.height (heights nodes)

end

mutual

/-- All nodes of the tree in pre-order. -/
def Node.nodes : Node → List Node
  | ⟨id, kind, isNamed, field, range, children⟩ =>
    ⟨id, kind, isNamed, field, range, children⟩ :: nodesOf children

/-- All nodes of a list of trees in pre-order. -/
def nodesOf : List Node → List Node
  | [] => []
  | node :: nodes => node.nodes ++ nodesOf nodes

end

theorem height_le_heights {node : Node} {nodes : List Node} (h : node ∈ nodes) :
    node.height ≤ heights nodes := by
  induction nodes with
  | nil => cases h
  | cons head tail ih =>
    rw [heights]
    rcases List.mem_cons.mp h with rfl | htail
    · exact Nat.le_max_left _ _
    · exact (ih htail).trans (Nat.le_max_right _ _)

/-- A child is strictly lower than its parent. -/
theorem height_lt_of_mem {node child : Node} (h : child ∈ node.children) :
    child.height < node.height := by
  have hle := height_le_heights h
  have hparent : node.height = heights node.children + 1 := by
    cases node
    rw [Node.height]
  omega

/-- A property that passes from the children of a node to the node holds of
every node. -/
theorem node_induction {motive : Node → Prop}
    (step : ∀ node, (∀ child ∈ node.children, motive child) → motive node) (node : Node) :
    motive node := by
  induction hheight : node.height using Nat.strong_induction_on generalizing node with
  | _ height ih =>
    refine step node fun child hchild => ?_
    have hlt := height_lt_of_mem hchild
    exact ih child.height (by omega) child rfl

theorem nodesOf_eq (nodes : List Node) : nodesOf nodes = nodes.flatMap Node.nodes := by
  induction nodes with
  | nil => rfl
  | cons node nodes ih => rw [nodesOf, ih, List.flatMap_cons]

theorem nodes_eq (node : Node) : node.nodes = node :: node.children.flatMap Node.nodes := by
  cases node
  rw [Node.nodes, nodesOf_eq]

theorem mem_nodes_self (node : Node) : node ∈ node.nodes := by
  rw [nodes_eq]
  exact List.mem_cons_self

/-- The nodes below a node of a tree belong to the tree. -/
theorem nodes_trans {root node inner : Node} (hnode : node ∈ root.nodes)
    (hinner : inner ∈ node.nodes) : inner ∈ root.nodes := by
  induction root using node_induction with
  | step root ih =>
    rw [nodes_eq] at hnode
    rcases List.mem_cons.mp hnode with rfl | hbelow
    · exact hinner
    · obtain ⟨child, hchild, hmem⟩ := List.mem_flatMap.mp hbelow
      rw [nodes_eq]
      exact List.mem_cons_of_mem _ (List.mem_flatMap.mpr ⟨child, hchild, ih child hchild hmem⟩)

theorem child_mem_nodes {node child : Node} (h : child ∈ node.children) : child ∈ node.nodes := by
  rw [nodes_eq]
  exact List.mem_cons_of_mem _ (List.mem_flatMap.mpr ⟨child, h, mem_nodes_self child⟩)

theorem child_mem {node child : Node} {i : ℕ} (h : node.child i = some child) :
    child ∈ node.children := List.mem_of_getElem? h

theorem namedChild_mem {node child : Node} {i : ℕ} (h : node.namedChild i = some child) :
    child ∈ node.children := (List.mem_filter.mp (List.mem_of_getElem? h)).1

theorem childByFieldName_mem {node child : Node} {name : String}
    (h : node.childByFieldName name = some child) : child ∈ node.children :=
  List.mem_of_find?_eq_some h

end WeggliEnhance.SyntaxTree
