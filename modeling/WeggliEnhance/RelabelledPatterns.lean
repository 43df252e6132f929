import WeggliEnhance.MirroredPatterns

/-!
# Relabelled search patterns

Two search patterns that the builder cannot tell apart but for the names of
their variables. Their nodes have the same kinds and fields; positions,
spaces and the spelling of numbers are free. A renaming of variables keeps
the dollar sign and keeps numbers apart from names. On query trees it acts by
renaming the variables and taking their constraints from another map.
-/

namespace WeggliEnhance.RelabelledPatterns

open SourceText SyntaxTree QueryText ThirdParty QueryTrees PatternBuilder
  PatternNesting MirroredPatterns

/-- A renaming of variables, as a function on words. -/
structure Renaming where
  /-- What becomes of a word. -/
  word : String → String
  /-- Different words stay different. -/
  injective : Function.Injective word
  /-- Only variables change. -/
  plain : ∀ text, startsWith text '$' = false → word text = text
  /-- Variables stay variables. -/
  dollar : ∀ text, startsWith (word text) '$' = startsWith text '$'
  /-- Variables for numbers stay such variables. -/
  numeric : ∀ text, isNumVar (word text) = isNumVar text

/-- The renaming that renames nothing. -/
def Renaming.id : Renaming where
  word text := text
  injective := Function.injective_id
  plain _ _ := rfl
  dollar _ := rfl
  numeric _ := rfl

/-- What stands between the quotes of a string literal. -/
def unquote (text : String) : Option String := slice? text ⟨1, utf8Len text.toList - 1⟩

/-- The builder reads the texts of two nodes of one kind alike. -/
structure ReadAlike (ρ : Renaming) (kind text text' : String) : Prop where
  /-- Both are wildcards or none is. -/
  wildcard : text' = "_" ↔ text = "_"
  /-- Both label a negation or none does. -/
  negated : toUppercase text' = "NOT" ↔ toUppercase text = "NOT"
  /-- Both label a strict statement or none does. -/
  strict : toUppercase text' = "STRICT" ↔ toUppercase text = "STRICT"
  /-- Names are renamed. -/
  name : kind ∈ identifierKinds → text' = ρ.word text
  /-- Numbers have the same value, or the same text if they have none. -/
  number : kind = "number_literal" → parseNumberLiteral text' = parseNumberLiteral text ∧
    (parseNumberLiteral text = none → text' = text)
  /-- Strings for variables are renamed. -/
  string : kind = "string_literal" → Option.Rel (fun inside inside' =>
    startsWith inside' '$' = startsWith inside '$' ∧
      (startsWith inside '$' = true → inside' = ρ.word inside)) (unquote text) (unquote text')

/-- The second pattern is the first one with other variables. -/
inductive Relabelled (ρ : Renaming) (source source' : String) : Node → Node → Prop
  /-- The nodes correspond one by one. -/
  | intro {node node' : Node} : node'.kind = node.kind → node'.isNamed = node.isNamed →
    node'.field = node.field →
    ReadAlike ρ node.kind (slice source node.range) (slice source' node'.range) →
    List.Forall₂ (Relabelled ρ source source') node.children node'.children →
    Relabelled ρ source source' node node'

section Trees

variable (ρ : Renaming) (constraints : RegexMap)

mutual

/-- A query tree with its variables renamed and constrained by a map. -/
def relabelTree : QueryTree → QueryTree
  | ⟨query, captures, negations, vars, id⟩ =>
    ⟨query, relabelCaptures captures, relabelNegations negations, vars.image ρ.word, id⟩

/-- A capture with its variables renamed and constrained. -/
def relabelCapture : Capture → Capture
  | .variable name _ => .variable (ρ.word name) (constraints.lookup (ρ.word name))
  | .subWildQuery tree => .subWildQuery (relabelTree tree)
  | .subMultiQuery tree => .subMultiQuery (relabelTree tree)
  | .display => .display
  | .check text => .check text
  | .number value => .number value
  | .callExpQuery count minimum => .callExpQuery count minimum

/-- All captures of a query. -/
def relabelCaptures : List Capture → List Capture
  | [] => []
  | capture :: captures => relabelCapture capture :: relabelCaptures captures

/-- All negations of a query. -/
def relabelNegations : List NegativeQuery → List NegativeQuery
  | [] => []
  | ⟨tree, previous⟩ :: negations => ⟨relabelTree tree, previous⟩ :: relabelNegations negations

end

/-- A negation with its variables renamed and constrained. -/
def relabelNegation (neg : NegativeQuery) : NegativeQuery :=
  ⟨relabelTree ρ constraints neg.qt, neg.previousCaptureIndex⟩

/-- All captures are relabelled one by one. -/
theorem relabelCaptures_eq (captures : List Capture) :
    relabelCaptures ρ constraints captures = captures.map (relabelCapture ρ constraints) := by
  induction captures with
  | nil => rw [relabelCaptures, List.map_nil]
  | cons capture captures ih => rw [relabelCaptures, List.map_cons, ih]

/-- All negative queries are relabelled one by one. -/
theorem relabelNegations_eq (negations : List NegativeQuery) :
    relabelNegations ρ constraints negations = negations.map (relabelNegation ρ constraints) := by
  induction negations with
  | nil => rw [relabelNegations, List.map_nil]
  | cons neg negations ih =>
    cases neg
    rw [relabelNegations, List.map_cons, ih]
    rfl

/-- The parts of a relabelled query tree. -/
theorem relabelTree_eq (tree : QueryTree) :
    relabelTree ρ constraints tree =
      ⟨tree.query, tree.captures.map (relabelCapture ρ constraints),
        tree.negations.map (relabelNegation ρ constraints), tree.variables.image ρ.word,
        tree.id⟩ := by
  cases tree
  rw [relabelTree, relabelCaptures_eq, relabelNegations_eq]

/-- Relabelling does not change what results record. -/
theorem isRecorded_relabelCapture (capture : Capture) :
    (relabelCapture ρ constraints capture).isRecorded = capture.isRecorded := by
  cases capture <;> rw [relabelCapture] <;> rfl

/-- Only the name of a variable is renamed. -/
theorem name?_relabelCapture (capture : Capture) :
    (relabelCapture ρ constraints capture).name? = capture.name?.map ρ.word := by
  cases capture <;> rw [relabelCapture] <;> rfl

/-- The predicates of constants stay. -/
theorem checkPredicate_relabelCapture (capture : Capture) (i : ℕ) :
    checkPredicate (relabelCapture ρ constraints capture, i) = checkPredicate (capture, i) := by
  cases capture <;> rw [relabelCapture] <;> rfl

/-- The query of a capture is relabelled. -/
theorem tree?_relabelCapture (capture : Capture) :
    (relabelCapture ρ constraints capture).tree? =
      capture.tree?.map (relabelTree ρ constraints) := by
  cases capture <;> rw [relabelCapture] <;> rfl

/-- The last recorded capture stays the same. -/
theorem lastRecorded_relabel (captures : List Capture) :
    lastRecorded (captures.map (relabelCapture ρ constraints)) = lastRecorded captures := by
  unfold lastRecorded
  rw [List.zipIdx_map, ← List.map_reverse, List.find?_map]
  have htest : ((fun entry : Capture × ℕ => entry.1.isRecorded) ∘
      Prod.map (relabelCapture ρ constraints) id) = fun entry => entry.1.isRecorded :=
    funext fun entry => isRecorded_relabelCapture ρ constraints entry.1
  rw [htest]
  cases captures.zipIdx.reverse.find? fun entry => entry.1.isRecorded with
  | none => rfl
  | some entry => rfl

/-- Variables are captured at the same places under their new names. -/
theorem variableIndices_relabel (entries : List (Capture × ℕ)) :
    variableIndices (entries.map (Prod.map (relabelCapture ρ constraints) id)) =
      (variableIndices entries).map (Prod.map ρ.word id) := by
  rw [variableIndices, variableIndices, List.filterMap_map, List.map_filterMap]
  refine List.filterMap_congr ?_
  intro entry _
  rw [Function.comp_apply, Prod.map_fst, name?_relabelCapture, Option.map_map, Option.map_map]
  rfl

/-- The predicates depend on which variables are the same only. -/
theorem processCaptures_relabel (captures : List Capture) (offset : ℕ) :
    processCaptures (captures.map (relabelCapture ρ constraints)) offset =
      ((processCaptures captures offset).1, (processCaptures captures offset).2.image ρ.word) := by
  have hnames : ∀ names : List (String × ℕ),
      ((names.map (Prod.map ρ.word id)).map Prod.fst).eraseDups =
        ((names.map Prod.fst).eraseDups).map ρ.word := by
    intro names
    rw [List.map_map, ← FirstOccurrence.eraseDups_map ρ.injective, List.map_map]
    rfl
  have hindices : ∀ (names : List (String × ℕ)) (name : String),
      ((names.map (Prod.map ρ.word id)).filter fun entry => entry.1 == ρ.word name).map Prod.snd =
        (names.filter fun entry => entry.1 == name).map Prod.snd := by
    intro names name
    rw [List.filter_map, List.map_map]
    refine congrArg₂ _ rfl (List.filter_congr ?_)
    intro entry _
    rw [Function.comp_apply, Prod.map_fst, Bool.eq_iff_iff, beq_iff_eq, beq_iff_eq]
    exact ρ.injective.eq_iff
  simp only [processCaptures]
  rw [← List.map_drop, List.zipIdx_map, variableIndices_relabel, hnames, List.filterMap_map,
    List.flatMap_map]
  refine Prod.ext ?_ ?_
  · refine congrArg₂ _ ?_ ?_
    · refine List.filterMap_congr ?_
      intro entry _
      exact checkPredicate_relabelCapture ρ constraints entry.1 entry.2
    · refine List.flatMap_congr ?_
      intro name _
      rw [hindices]
  · ext name
    simp only [List.mem_toFinset, List.mem_map, Finset.mem_image]

end Trees

section Lookups

variable {ρ : Renaming} {source source' : String} {node node' : Node}

/-- The kind stays. -/
theorem kind_of_relabelled (h : Relabelled ρ source source' node node') :
    node'.kind = node.kind := by
  cases h with
  | intro hkind => exact hkind

/-- Rules stay rules and tokens stay tokens. -/
theorem isNamed_of_relabelled (h : Relabelled ρ source source' node node') :
    node'.isNamed = node.isNamed := by
  cases h with
  | intro _ hnamed => exact hnamed

/-- The field stays. -/
theorem field_of_relabelled (h : Relabelled ρ source source' node node') :
    node'.field = node.field := by
  cases h with
  | intro _ _ hfield => exact hfield

/-- The texts of the two nodes are read alike. -/
theorem read_of_relabelled (h : Relabelled ρ source source' node node') :
    ReadAlike ρ node.kind (slice source node.range) (slice source' node'.range) := by
  cases h with
  | intro _ _ _ hread => exact hread

/-- The children correspond one by one. -/
theorem children_of_relabelled (h : Relabelled ρ source source' node node') :
    List.Forall₂ (Relabelled ρ source source') node.children node'.children := by
  cases h with
  | intro _ _ _ _ hchildren => exact hchildren

/-- Both patterns have the same height. -/
theorem height_of_relabelled (h : Relabelled ρ source source' node node') :
    node'.height = node.height := by
  induction node using node_induction generalizing node' with
  | step node ih =>
    rw [height_eq, height_eq, heights_eq_of_forall₂ (children_of_relabelled h)]
    exact fun child hchild _ hrelabelled => ih child hchild hrelabelled

/-- A child at a place. -/
theorem relabelled_child (h : Relabelled ρ source source' node node') (i : ℕ) :
    Option.Rel (Relabelled ρ source source') (node.child i) (node'.child i) :=
  rel_getElem? (children_of_relabelled h) i

/-- The child held under a field. -/
theorem relabelled_childByFieldName (h : Relabelled ρ source source' node node') (name : String) :
    Option.Rel (Relabelled ρ source source') (node.childByFieldName name)
      (node'.childByFieldName name) := by
  refine rel_find? (children_of_relabelled h) ?_
  intro child child' hchild
  rw [field_of_relabelled hchild]

/-- The named children correspond one by one. -/
theorem relabelled_namedChildren (h : Relabelled ρ source source' node node') :
    List.Forall₂ (Relabelled ρ source source') node.namedChildren node'.namedChildren := by
  refine List.rel_filter ?_ (children_of_relabelled h)
  intro child child' hchild
  change child.isNamed = true ↔ child'.isNamed = true
  rw [isNamed_of_relabelled hchild]

/-- A named child at a place. -/
theorem relabelled_namedChild (h : Relabelled ρ source source' node node') (i : ℕ) :
    Option.Rel (Relabelled ρ source source') (node.namedChild i) (node'.namedChild i) :=
  rel_getElem? (relabelled_namedChildren h) i

/-- There are as many named children. -/
theorem namedChildCount_of_relabelled (h : Relabelled ρ source source' node node') :
    node'.namedChildCount = node.namedChildCount := (relabelled_namedChildren h).length_eq.symm

/-- Leaves stay leaves. -/
theorem isEmpty_children_of_relabelled (h : Relabelled ρ source source' node node') :
    node'.children.isEmpty = node.children.isEmpty := by
  rw [Bool.eq_iff_iff, List.isEmpty_iff_length_eq_zero, List.isEmpty_iff_length_eq_zero,
    (children_of_relabelled h).length_eq]

/-- The variadic wildcard is no variable. -/
theorem isVariadic_of_relabelled (h : Relabelled ρ source source' node node') :
    isVariadic source' node' = isVariadic source node := by
  rw [isVariadic, isVariadic, isNamed_of_relabelled h, kind_of_relabelled h]
  by_cases hkind : node.kind = "identifier"
  · have hname := (read_of_relabelled h).name (by rw [hkind]; decide)
    have hvariadic : ρ.word "__" = "__" := ρ.plain "__" (by decide)
    have hsame : (slice source' node'.range == "__") = (slice source node.range == "__") := by
      rw [Bool.eq_iff_iff, beq_iff_eq, beq_iff_eq, hname]
      constructor
      · intro heq
        exact ρ.injective (heq.trans hvariadic.symm)
      · intro heq
        rw [heq, hvariadic]
    rw [hsame]
  · have hbeq : (node.kind == "identifier") = false := beq_eq_false_iff_ne.mpr hkind
    rw [hbeq, Bool.and_false, Bool.false_and, Bool.false_and]

/-- There are as many variadic wildcards. -/
theorem countP_isVariadic_of_relabelled (h : Relabelled ρ source source' node node') :
    node'.children.countP (isVariadic source') = node.children.countP (isVariadic source) :=
  countP_eq_of_forall₂ (children_of_relabelled h) fun _ _ hchild => isVariadic_of_relabelled hchild

/-- The builder mirrors the same expressions. -/
theorem isTransformable_of_relabelled (h : Relabelled ρ source source' node node') :
    isTransformableBinaryExp node' = isTransformableBinaryExp node := by
  unfold isTransformableBinaryExp isComparisonBinaryExp isCommutativeBinaryExp
  have hop := relabelled_child h 1
  generalize node.child 1 = op at hop ⊢
  generalize node'.child 1 = op' at hop ⊢
  cases hop with
  | none => rfl
  | some hop => rw [Option.any_some, Option.any_some, Option.any_some, Option.any_some,
      kind_of_relabelled hop]

/-- The cursor on the argument of a wildcard call. -/
theorem relabelled_wildcardArgument (h : Relabelled ρ source source' node node')
    {list list' : Node} (hlist : Relabelled ρ source source' list list') :
    Relabelled ρ source source' (wildcardArgument node list).1 (wildcardArgument node' list').1 ∧
      Relabelled ρ source source' (wildcardArgument node list).2.1
        (wildcardArgument node' list').2.1 ∧
      (wildcardArgument node' list').2.2.length = (wildcardArgument node list).2.2.length := by
  have hchildren := children_of_relabelled hlist
  unfold wildcardArgument
  generalize list.children = children at hchildren ⊢
  generalize list'.children = children' at hchildren ⊢
  cases hchildren with
  | nil => exact ⟨h, hlist, rfl⟩
  | cons hfirst hrest =>
    cases hrest with
    | nil => exact ⟨hlist, hfirst, rfl⟩
    | cons hsecond hothers => exact ⟨hlist, hsecond, hothers.length_eq.symm⟩

end Lookups

end WeggliEnhance.RelabelledPatterns
