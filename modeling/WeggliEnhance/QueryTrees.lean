import Mathlib.Data.Finset.Basic
import WeggliEnhance.ThirdParty

/-!
# Query trees

`capture.rs` and the data of `query.rs`. One weggli query is a tree of
tree-sitter queries: sub-queries hang off captures, negative queries off the
list of negations. Every collection of trees below a query is a fold whose
one equation speaks of the direct members only.
-/

namespace WeggliEnhance.QueryTrees

open ThirdParty QueryText

mutual

/-- What the builder attaches to a captured node. -/
inductive Capture where
  /-- Only shown in the output. -/
  | display
  /-- A weggli variable with its optional (negative, regex) constraint. -/
  | «variable» (name : String) (constraint : Option (Bool × Regex))
  /-- A constant such as a function or variable name. -/
  | check (text : String)
  /-- An integer literal compared by value. -/
  | number (value : ℤ)
  /-- Number of arguments, and whether it is only a minimum. -/
  | callExpQuery (count : ℕ) (minimum : Bool)
  /-- A query to run on any sub-expression of the captured node. -/
  | subWildQuery (tree : QueryTree)
  /-- A multi-pattern query to run on the captured block. -/
  | subMultiQuery (tree : QueryTree)

/-- A `not:` query with the position it was written at. -/
structure NegativeQuery where
  /-- The query that must not match. -/
  qt : QueryTree
  /-- Index of the previous capture in the parent query, or minus one. -/
  previousCaptureIndex : ℤ

/-- A tree-sitter query with its captures and negations. -/
structure QueryTree where
  /-- The compiled tree-sitter query. -/
  query : Query
  /-- Captures in the order of their allocation. -/
  captures : List Capture
  /-- Negative queries in the order of the pattern. -/
  negations : List NegativeQuery
  /-- Variables of this query alone, without its sub-queries. -/
  «variables» : Finset String
  /-- Key of the query in the result cache. -/
  id : ℕ

end

/-- The sub-query a capture holds. -/
def Capture.tree? : Capture → Option QueryTree
  | .subWildQuery tree => some tree
  | .subMultiQuery tree => some tree
  | _ => none

/-- All captures but `SubMultiQuery` are stored in results. -/
def Capture.isRecorded : Capture → Bool
  | .subMultiQuery _ => false
  | _ => true

/-- The variable a capture stands for. -/
def Capture.name? : Capture → Option String
  | .variable name _ => some name
  | _ => none

/-- The sub-queries run by this query, one for each capture holding one. -/
def QueryTree.children (tree : QueryTree) : List QueryTree := tree.captures.filterMap Capture.tree?

/-- The negative queries without their positions. -/
def QueryTree.negatives (tree : QueryTree) : List QueryTree := tree.negations.map NegativeQuery.qt

mutual

/-- `QueryTree::identifiers`: all constants a query checks, with those of its
sub-queries but not those of negative queries. -/
def QueryTree.identifiers : QueryTree → List String
  | ⟨_, captures, _, _, _⟩ => captureIdentifiers captures

/-- The loop of `identifiers` over the captures. -/
def captureIdentifiers : List Capture → List String
  | [] => []
  | .check text :: captures => text :: captureIdentifiers captures
  | .subMultiQuery tree :: captures => tree.identifiers ++ captureIdentifiers captures
  | .subWildQuery tree :: captures => tree.identifiers ++ captureIdentifiers captures
  | _ :: captures => captureIdentifiers captures

end

section Fold

variable {α : Type*} (combine : QueryTree → List α → List α → α)

mutual

/-- Fold over a query tree: the combining function sees the tree, the values
of its sub-queries and the values of its negative queries. -/
def QueryTree.fold : QueryTree → α
  | ⟨query, captures, negations, vars, id⟩ =>
    combine ⟨query, captures, negations, vars, id⟩ (foldCaptures captures) (foldNegations negations)

/-- Values of the sub-queries held by captures. -/
def foldCaptures : List Capture → List α
  | [] => []
  | .subWildQuery tree :: captures => tree.fold :: foldCaptures captures
  | .subMultiQuery tree :: captures => tree.fold :: foldCaptures captures
  | _ :: captures => foldCaptures captures

/-- Values of the negative queries. -/
def foldNegations : List NegativeQuery → List α
  | [] => []
  | ⟨tree, _⟩ :: negations => tree.fold :: foldNegations negations

end

theorem foldCaptures_eq (captures : List Capture) :
    foldCaptures combine captures =
      (captures.filterMap Capture.tree?).map (QueryTree.fold combine) := by
  induction captures with
  | nil => rfl
  | cons capture captures ih =>
    cases capture <;> simp [foldCaptures, List.filterMap_cons, Capture.tree?, ih]

theorem foldNegations_eq (negations : List NegativeQuery) :
    foldNegations combine negations =
      (negations.map NegativeQuery.qt).map (QueryTree.fold combine) := by
  induction negations with
  | nil => rfl
  | cons negation negations ih => cases negation; simp [foldNegations, ih]

/-- The defining equation of every fold. -/
theorem fold_eq (tree : QueryTree) :
    tree.fold combine =
      combine tree (tree.children.map (QueryTree.fold combine))
        (tree.negatives.map (QueryTree.fold combine)) := by
  cases tree
  rw [QueryTree.fold, foldCaptures_eq, foldNegations_eq]
  rfl

end Fold

/-- Longest chain of queries from this one downwards. -/
def QueryTree.depth (tree : QueryTree) : ℕ :=
  tree.fold fun _ subQueries negatives => (subQueries ++ negatives).foldr max 0 + 1

/-- All query trees of a query: itself, its sub-queries and its negations. -/
def QueryTree.trees (tree : QueryTree) : List QueryTree :=
  tree.fold fun tree subQueries negatives => tree :: (subQueries.flatten ++ negatives.flatten)

/-- The trees whose results are part of a result of this query: itself and,
recursively, its sub-queries. -/
def QueryTree.positives (tree : QueryTree) : List QueryTree :=
  tree.fold fun tree subQueries _ => tree :: subQueries.flatten

/-- The trees held by captures at any depth, also below negations. These are
the trees whose results are cached. -/
def QueryTree.subQueries (tree : QueryTree) : List QueryTree :=
  tree.fold fun tree subQueries negatives =>
    tree.children ++ (subQueries.flatten ++ negatives.flatten)

theorem trees_eq (tree : QueryTree) :
    tree.trees =
      tree :: (tree.children.flatMap QueryTree.trees ++ tree.negatives.flatMap QueryTree.trees) :=
  fold_eq _ tree

theorem child_trees {tree child : QueryTree} (h : child ∈ tree.children ++ tree.negatives) :
    child.trees ⊆ tree.trees := by
  intro t ht
  rw [trees_eq tree]
  rcases List.mem_append.mp h with hchild | hnegative
  · exact List.mem_cons_of_mem _
      (List.mem_append_left _ (List.mem_flatMap.mpr ⟨child, hchild, ht⟩))
  · exact List.mem_cons_of_mem _
      (List.mem_append_right _ (List.mem_flatMap.mpr ⟨child, hnegative, ht⟩))

theorem mem_trees_self (tree : QueryTree) : tree ∈ tree.trees := by
  rw [trees_eq]
  exact List.mem_cons_self

theorem subQueries_eq (tree : QueryTree) :
    tree.subQueries =
      tree.children ++ (tree.children.flatMap QueryTree.subQueries ++
        tree.negatives.flatMap QueryTree.subQueries) := fold_eq _ tree

/-- What is cached below a sub-query or a negative query is cached. -/
theorem child_subQueries {tree child : QueryTree} (h : child ∈ tree.children ++ tree.negatives) :
    child.subQueries ⊆ tree.subQueries := by
  intro sub hsub
  rw [subQueries_eq]
  rcases List.mem_append.mp h with hchild | hnegative
  · exact List.mem_append_right _
      (List.mem_append_left _ (List.mem_flatMap.mpr ⟨child, hchild, hsub⟩))
  · exact List.mem_append_right _
      (List.mem_append_right _ (List.mem_flatMap.mpr ⟨child, hnegative, hsub⟩))

theorem le_foldr_max {values : List ℕ} {value : ℕ} (h : value ∈ values) :
    value ≤ values.foldr max 0 := by
  induction values with
  | nil => cases h
  | cons head tail ih =>
    rcases List.mem_cons.mp h with rfl | htail
    · exact Nat.le_max_left _ _
    · exact (ih htail).trans (Nat.le_max_right _ _)

/-- Sub-queries and negative queries are strictly shallower. -/
theorem depth_lt_of_mem {tree child : QueryTree} (h : child ∈ tree.children ++ tree.negatives) :
    child.depth < tree.depth := by
  have hmem : child.depth ∈ (tree.children ++ tree.negatives).map QueryTree.depth :=
    List.mem_map_of_mem h
  have hle := le_foldr_max hmem
  rw [List.map_append] at hle
  have hdepth := fold_eq (fun _ subQueries negatives => (subQueries ++ negatives).foldr max 0 + 1) tree
  change tree.depth = _ at hdepth
  rw [hdepth]
  exact Nat.lt_succ_of_le hle

theorem depth_pos (tree : QueryTree) : 0 < tree.depth := by
  rw [QueryTree.depth, fold_eq]
  exact Nat.succ_pos _

/-- Induction over query trees: a property passes from the sub-queries and
negations of a tree to the tree. -/
theorem tree_induction {motive : QueryTree → Prop}
    (step : ∀ tree : QueryTree, (∀ child ∈ tree.children, motive child) →
      (∀ negative ∈ tree.negatives, motive negative) → motive tree) (tree : QueryTree) :
    motive tree := by
  suffices h : ∀ depth, ∀ tree : QueryTree, tree.depth < depth → motive tree from
    h (tree.depth + 1) tree (Nat.lt_succ_self _)
  intro depth
  induction depth with
  | zero => intro tree h; cases h
  | succ depth ih =>
    intro tree h
    refine step tree ?_ ?_
    · intro child hchild
      have hlt := depth_lt_of_mem (List.mem_append_left tree.negatives hchild)
      exact ih child (by omega)
    · intro negative hnegative
      have hlt := depth_lt_of_mem (List.mem_append_right tree.children hnegative)
      exact ih negative (by omega)

/-- The queries below a query of a tree are queries of the tree. -/
theorem trees_subset {tree sub : QueryTree} (h : sub ∈ tree.trees) :
    sub.trees ⊆ tree.trees ∧ sub.subQueries ⊆ tree.subQueries := by
  induction tree using tree_induction with
  | step tree ihsub ihneg =>
    rw [trees_eq] at h
    rcases List.mem_cons.mp h with rfl | hbelow
    · exact ⟨List.Subset.refl _, List.Subset.refl _⟩
    have hchild : ∃ child ∈ tree.children ++ tree.negatives,
        sub.trees ⊆ child.trees ∧ sub.subQueries ⊆ child.subQueries := by
      rcases List.mem_append.mp hbelow with hsub | hneg
      · obtain ⟨child, hchild, hmem⟩ := List.mem_flatMap.mp hsub
        exact ⟨child, List.mem_append_left _ hchild, ihsub child hchild hmem⟩
      · obtain ⟨child, hchild, hmem⟩ := List.mem_flatMap.mp hneg
        exact ⟨child, List.mem_append_right _ hchild, ihneg child hchild hmem⟩
    obtain ⟨child, hin, htrees, hsubQueries⟩ := hchild
    exact ⟨List.Subset.trans htrees (child_trees hin),
      List.Subset.trans hsubQueries (child_subQueries hin)⟩

/-- The query for a name inside a block. -/
def sampleBlock : QueryTree where
  query := ⟨[[.group [.alternation [.node "identifier" [], .node "field_expression" [],
    .node "field_identifier" []], .tag (.capture "0")]]]⟩
  captures := [.variable "$x" none]
  negations := []
  «variables» := {"$x"}
  id := 1

/-- The query for a block that holds a name, inside a function. -/
def sampleTree : QueryTree where
  query := ⟨[[.node "function_definition" [.fieldName "body", .node "compound_statement" [],
    .tag (.capture "0")], .tag (.capture "1")]]⟩
  captures := [.subMultiQuery sampleBlock, .display]
  negations := []
  «variables» := ∅
  id := 0

end WeggliEnhance.QueryTrees
