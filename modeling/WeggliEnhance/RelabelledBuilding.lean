import WeggliEnhance.PairedRuns
import WeggliEnhance.RelabelledPatterns

/-!
# Building a relabelled pattern

One walk over the text of the builder with two runs in lockstep on a pattern
and on its relabelled copy. Both runs write the same query text and allocate
the same captures, up to the names of variables and the constraints listed
for them, so the second query tree is the first one relabelled.
-/

namespace WeggliEnhance.RelabelledBuilding

open SourceText SyntaxTree QueryText ThirdParty QueryTrees PatternBuilder PairedRuns
  MirroredPatterns RelabelledPatterns

/-- The state of the second builder. -/
def relabelBuilder (ρ : Renaming) (source' : String) (constraints : RegexMap) (s : QueryBuilder) :
    QueryBuilder :=
  ⟨source', s.captures.map (relabelCapture ρ constraints),
    s.negations.map (relabelNegation ρ constraints), s.id, constraints, s.negationSites⟩

/-- The second run copies what the first one does. -/
abbrev Copies {α β : Type} (ρ : Renaming) (source source' : String) (constraints : RegexMap)
    (x : BuildM α) (y : BuildM β) (related : α → β → Prop) : Prop :=
  Follows (relabelBuilder ρ source' constraints) (fun s => s.querySource = source) x y related

/-- The recursive calls of `build` on a pattern and its copy. -/
def BuildCopies (ρ : Renaming) (source source' : String) (constraints : RegexMap)
    (build build' : BuildFn) : Prop :=
  ∀ {up up' node node'} depth strict parent, Option.Rel (Relabelled ρ source source') up up' →
    Relabelled ρ source source' node node' →
    Copies ρ source source' constraints (build up node depth strict parent)
      (build' up' node' depth strict parent) Eq

/-- The calls of `_build_query_tree` on a pattern and its copy. -/
def TreeCopies (ρ : Renaming) (source source' : String) (constraints : RegexMap)
    (queryTree queryTree' : TreeFn) : Prop :=
  ∀ {up up' node node'} id multiPattern strict, Option.Rel (Relabelled ρ source source') up up' →
    Relabelled ρ source source' node node' →
    Copies ρ source source' constraints (queryTree up node id multiPattern strict)
      (queryTree' up' node' id multiPattern strict)
      fun tree tree' => tree' = relabelTree ρ constraints tree

variable {ρ : Renaming} {source source' : String} {constraints : RegexMap}
  {build build' : BuildFn} {queryTree queryTree' : TreeFn} {node node' : Node}

section Elementary

/-- Unwrapping panics on both sides or on neither. -/
theorem copies_unwrap {α β : Type} {related : α → β → Prop} {a : Option α} {b : Option β}
    (h : Option.Rel related a b) :
    Copies ρ source source' constraints (unwrap a) (unwrap b) related := by
  cases h with
  | none => exact follows_throw _ _
  | some hvalue => exact follows_pure hvalue

/-- Both builders read the texts of their nodes. -/
theorem copies_getText (node node' : Node) :
    Copies ρ source source' constraints (getText node) (getText node') fun text text' =>
      text = slice source node.range ∧ text' = slice source' node'.range := by
  intro s hsource
  refine ⟨⟨?_, rfl⟩, rfl, hsource⟩
  rw [← hsource]

/-- Both builders allocate a capture under the same name. -/
theorem copies_addCapture {capture capture' : Capture}
    (h : capture' = relabelCapture ρ constraints capture) :
    Copies ρ source source' constraints (addCapture capture) (addCapture capture') Eq := by
  intro s hsource
  refine ⟨?_, ?_, hsource⟩
  · simp only [relabelBuilder, List.length_map]
  · simp only [relabelBuilder, QueryBuilder.push, List.map_append, List.map_cons, List.map_nil, h]

/-- Both builders give a new id. -/
theorem copies_nextId :
    Copies ρ source source' constraints
      (modify fun builder : QueryBuilder => { builder with id := builder.id + 1 })
      (modify fun builder : QueryBuilder => { builder with id := builder.id + 1 })
      fun _ _ => True :=
  follows_modify (fun _ _ => rfl) fun _ hsource => hsource

/-- Calls of the function `_` stay such calls. -/
theorem copies_isSubexprWildcard (h : Relabelled ρ source source' node node') :
    Copies ρ source source' constraints (isSubexprWildcard node) (isSubexprWildcard node') Eq := by
  unfold isSubexprWildcard
  rw [kind_of_relabelled h]
  refine follows_ite Iff.rfl (fun _ => follows_pure rfl) fun _ => ?_
  refine follows_bind (copies_unwrap (relabelled_childByFieldName h "function")) ?_
  intro f f' hf
  refine follows_bind (copies_getText f f') ?_
  rintro text text' ⟨rfl, rfl⟩
  refine follows_pure ?_
  rw [Bool.eq_iff_iff, beq_iff_eq, beq_iff_eq]
  exact (read_of_relabelled hf).wildcard.symm

end Elementary

section Leaves

/-- The text for a name does not depend on its spelling. -/
theorem identifierItem_word (kind text parent : String) :
    identifierItem kind (ρ.word text) parent = identifierItem kind text parent := by
  rw [identifierItem, identifierItem, ρ.dollar, ρ.numeric]

/-- The copy of a name. -/
theorem copies_buildIdentifier (h : Relabelled ρ source source' node node')
    (hkind : node.kind ∈ identifierKinds) (parent : String) :
    Copies ρ source source' constraints (buildIdentifier node parent) (buildIdentifier node' parent)
      Eq := by
  have hread := read_of_relabelled h
  unfold buildIdentifier
  refine follows_bind (copies_getText node node') ?_
  rintro text text' ⟨rfl, rfl⟩
  refine follows_ite (by simpa using hread.wildcard) (fun _ => follows_pure rfl) fun _ => ?_
  refine follows_bind follows_get ?_
  rintro s _ ⟨rfl, -⟩
  rw [hread.name hkind, kind_of_relabelled h]
  simp only [ρ.dollar, identifierItem_word]
  refine follows_bind (copies_addCapture ?_) ?_
  · by_cases hvariable : startsWith (slice source node.range) '$' = true
    · rw [if_pos hvariable, if_pos hvariable, relabelCapture]
      rfl
    · rw [if_neg hvariable, if_neg hvariable, relabelCapture,
        ρ.plain _ (Bool.eq_false_iff.mpr hvariable)]
  · rintro name _ rfl
    exact follows_pure rfl

/-- The copy of a number. -/
theorem copies_buildNumber (h : Relabelled ρ source source' node node')
    (hkind : node.kind = "number_literal") :
    Copies ρ source source' constraints (buildNumber node) (buildNumber node') Eq := by
  obtain ⟨hvalue, htext⟩ := (read_of_relabelled h).number hkind
  unfold buildNumber
  refine follows_bind (copies_getText node node') ?_
  rintro text text' ⟨rfl, rfl⟩
  refine follows_bind (copies_addCapture ?_) ?_
  · rw [hvalue]
    cases hparse : parseNumberLiteral (slice source node.range) with
    | some value => rw [relabelCapture]
    | none => rw [htext hparse, relabelCapture]
  · rintro name _ rfl
    exact follows_pure rfl

/-- The copy of a string. -/
theorem copies_buildString (h : Relabelled ρ source source' node node')
    (hkind : node.kind = "string_literal") :
    Copies ρ source source' constraints (buildString node) (buildString node') Eq := by
  have hread := (read_of_relabelled h).string hkind
  unfold buildString
  refine follows_bind (copies_getText node node') ?_
  rintro text text' ⟨rfl, rfl⟩
  refine follows_bind (copies_unwrap hread) ?_
  rintro inside inside' ⟨hdollar, hinside⟩
  refine follows_ite (by rw [hdollar]) (fun hvariable => ?_) fun _ => follows_pure rfl
  refine follows_bind follows_get ?_
  rintro s _ ⟨rfl, -⟩
  refine follows_bind (copies_addCapture ?_) ?_
  · rw [relabelCapture, hinside hvariable]
    rfl
  · rintro name _ rfl
    exact follows_pure rfl

end Leaves

section Recursive

variable (hbuild : BuildCopies ρ source source' constraints build build')
  (htree : TreeCopies ρ source source' constraints queryTree queryTree')

include hbuild

/-- A child of a node is built below it. -/
theorem copies_below (h : Relabelled ρ source source' node node') {child child' : Node}
    (hchild : Relabelled ρ source source' child child') (depth : ℕ) (strict : Bool)
    (parent : String) :
    Copies ρ source source' constraints (build (some node) child depth strict parent)
      (build' (some node') child' depth strict parent) Eq :=
  hbuild depth strict parent (.some h) hchild

/-- The copy of an expression in both orders. -/
theorem copies_buildBinary (h : Relabelled ρ source source' node node') (depth : ℕ)
    (strict : Bool) :
    Copies ρ source source' constraints (buildBinary build node depth strict)
      (buildBinary build' node' depth strict) Eq := by
  unfold buildBinary
  rw [kind_of_relabelled h]
  refine follows_bind (copies_unwrap (relabelled_child h 0)) ?_
  intro first first' hfirst
  refine follows_bind (copies_below hbuild h hfirst _ _ _) ?_
  rintro left _ rfl
  refine follows_bind (copies_unwrap (relabelled_child h 1)) ?_
  intro op op' hop
  refine follows_bind (copies_unwrap (relabelled_child h 2)) ?_
  intro second second' hsecond
  refine follows_bind (copies_below hbuild h hsecond _ _ _) ?_
  rintro right _ rfl
  rw [kind_of_relabelled hop]
  exact follows_pure rfl

/-- The copy of an assignment. -/
theorem copies_buildAssignment (h : Relabelled ρ source source' node node') (depth : ℕ)
    (strict : Bool) :
    Copies ρ source source' constraints (buildAssignment build node depth strict)
      (buildAssignment build' node' depth strict) Eq := by
  unfold buildAssignment
  rw [kind_of_relabelled h]
  refine follows_bind (copies_unwrap (relabelled_child h 0)) ?_
  intro first first' hfirst
  refine follows_bind (copies_below hbuild h hfirst _ _ _) ?_
  rintro left _ rfl
  refine follows_bind (copies_unwrap (relabelled_child h 1)) ?_
  intro op op' hop
  rw [kind_of_relabelled hop, kind_of_relabelled hfirst]
  refine follows_ite Iff.rfl (fun _ => ?_) fun _ => ?_
  · refine follows_bind (copies_below hbuild h hop _ _ _) ?_
    rintro operator _ rfl
    refine follows_bind (copies_unwrap (relabelled_child h 2)) ?_
    intro second second' hsecond
    refine follows_bind (copies_below hbuild h hsecond _ _ _) ?_
    rintro right _ rfl
    exact follows_pure rfl
  · refine follows_bind (copies_unwrap (relabelled_child h 2)) ?_
    intro second second' hsecond
    refine follows_bind (copies_below hbuild h hsecond _ _ _) ?_
    rintro right _ rfl
    exact follows_pure rfl

omit hbuild in
include htree in
/-- The copy of a negative query. -/
theorem copies_buildNegativeQuery (h : Relabelled ρ source source' node node') :
    Copies ρ source source' constraints (buildNegativeQuery queryTree node)
      (buildNegativeQuery queryTree' node') fun _ _ => True := by
  unfold buildNegativeQuery
  refine follows_bind (copies_unwrap (relabelled_child h 2)) ?_
  intro negated negated' hnegated
  refine follows_bind follows_get ?_
  rintro s _ ⟨rfl, -⟩
  refine follows_bind copies_nextId fun _ _ _ => ?_
  refine follows_bind follows_get ?_
  rintro s' _ ⟨rfl, -⟩
  refine follows_bind (htree s'.id false false (.some h) hnegated) ?_
  rintro tree _ rfl
  refine follows_modify ?_ fun _ hsource => hsource
  intro s'' _
  simp only [relabelBuilder, lastRecorded_relabel, List.map_append, List.map_cons, List.map_nil,
    List.length_map, relabelNegation]

include htree in
/-- The copy of a labelled statement. -/
theorem copies_buildLabeled (h : Relabelled ρ source source' node node') (depth : ℕ) :
    Copies ρ source source' constraints (buildLabeled build queryTree node depth)
      (buildLabeled build' queryTree' node' depth) Eq := by
  unfold buildLabeled
  refine follows_bind (copies_unwrap (relabelled_child h 0)) ?_
  intro label label' hlabel
  have hread := read_of_relabelled hlabel
  refine follows_bind (copies_getText label label') ?_
  rintro text text' ⟨rfl, rfl⟩
  refine follows_ite (by simpa using hread.negated) (fun _ => ?_) fun _ => ?_
  · exact follows_bind (copies_buildNegativeQuery htree h) fun _ _ _ => follows_pure rfl
  · refine follows_ite (by simpa using hread.strict) (fun _ => ?_) fun _ => follows_pure rfl
    have hchild := relabelled_namedChild h 1
    rw [kind_of_relabelled h]
    generalize node.namedChild 1 = child at hchild ⊢
    generalize node'.namedChild 1 = child' at hchild ⊢
    cases hchild with
    | none => exact follows_pure rfl
    | some hchild =>
      refine follows_bind (copies_below hbuild h hchild _ _ _) ?_
      rintro items _ rfl
      exact follows_pure rfl

omit hbuild in
include htree in
/-- The copy of a block. -/
theorem copies_buildCompound {up up' : Option Node}
    (hup : Option.Rel (Relabelled ρ source source') up up')
    (h : Relabelled ρ source source' node node') :
    Copies ρ source source' constraints (buildCompound queryTree up node)
      (buildCompound queryTree' up' node') Eq := by
  unfold buildCompound
  refine follows_bind copies_nextId fun _ _ _ => ?_
  refine follows_bind follows_get ?_
  rintro s _ ⟨rfl, -⟩
  refine follows_bind (htree s.id true false hup h) ?_
  rintro tree _ rfl
  refine follows_bind (copies_addCapture (by rw [relabelCapture])) ?_
  rintro name _ rfl
  exact follows_pure rfl

include htree in
/-- The copy of a call. -/
theorem copies_buildCallExpr (h : Relabelled ρ source source' node node') (depth : ℕ)
    (strict : Bool) (parent : String) :
    Copies ρ source source' constraints (buildCallExpr build queryTree node depth strict parent)
      (buildCallExpr build' queryTree' node' depth strict parent) Eq := by
  unfold buildCallExpr
  refine follows_bind (copies_isSubexprWildcard h) ?_
  rintro found _ rfl
  refine follows_ite Iff.rfl (fun _ => ?_) fun _ => ?_
  · refine follows_bind (copies_unwrap (relabelled_childByFieldName h "arguments")) ?_
    intro list list' hlist
    obtain ⟨hup, hargument, hlength⟩ := relabelled_wildcardArgument h hlist
    dsimp only
    refine follows_ite (by rw [hlength]) (fun _ => follows_pure rfl) fun _ => ?_
    refine follows_ite Iff.rfl (fun _ => ?_) fun _ => ?_
    · refine follows_bind (copies_below hbuild hup hargument _ _ _) ?_
      rintro items _ rfl
      exact follows_pure rfl
    · refine follows_bind copies_nextId fun _ _ _ => ?_
      refine follows_bind follows_get ?_
      rintro s _ ⟨rfl, -⟩
      refine follows_bind (htree s.id false strict (.some hup) hargument) ?_
      rintro tree _ rfl
      refine follows_bind (copies_addCapture (by rw [relabelCapture])) ?_
      rintro name _ rfl
      exact follows_pure rfl
  · refine follows_bind (copies_unwrap (relabelled_childByFieldName h "function")) ?_
    intro function function' hfunction
    refine follows_bind (copies_unwrap (relabelled_childByFieldName h "arguments")) ?_
    intro list list' hlist
    rw [kind_of_relabelled hfunction]
    refine follows_ite Iff.rfl (fun _ => follows_pure rfl) fun hother => ?_
    have hidentifier : function.kind ∈ identifierKinds := by
      have hkind : function.kind = "identifier" := by simpa using hother
      rw [hkind]
      decide
    refine follows_bind (copies_getText function function') ?_
    rintro text text' ⟨rfl, rfl⟩
    rw [(read_of_relabelled hfunction).name hidentifier, ρ.dollar]
    refine follows_ite Iff.rfl (fun _ => follows_pure rfl) fun hplain => ?_
    rw [ρ.plain _ (Bool.eq_false_iff.mpr hplain)]
    refine follows_bind (copies_addCapture (by rw [relabelCapture])) ?_
    rintro name _ rfl
    refine follows_bind (copies_below hbuild h hlist _ _ _) ?_
    rintro items _ rfl
    exact follows_pure rfl

omit hbuild in
/-- The labels of both statements are special or neither is. -/
theorem copies_hasMagicLabel (h : Relabelled ρ source source' node node') :
    Copies ρ source source' constraints (hasMagicLabel node) (hasMagicLabel node') Eq := by
  unfold hasMagicLabel
  rw [kind_of_relabelled h]
  refine follows_ite Iff.rfl (fun _ => ?_) fun _ => follows_pure rfl
  refine follows_bind (copies_unwrap (relabelled_child h 0)) ?_
  intro label label' hlabel
  have hread := read_of_relabelled hlabel
  refine follows_bind (copies_getText label label') ?_
  rintro text text' ⟨rfl, rfl⟩
  refine follows_pure ?_
  rw [Bool.eq_iff_iff]
  simp only [Bool.or_eq_true, beq_iff_eq, hread.negated, hread.strict]

omit hbuild in
/-- Both statements are replaced by their expressions or neither is. -/
theorem copies_shouldUnwrap {p p' : Node} (hup : Relabelled ρ source source' p p')
    (h : Relabelled ρ source source' node node') (strict : Bool) :
    Copies ρ source source' constraints (shouldUnwrap node p strict) (shouldUnwrap node' p' strict)
      Eq := by
  have hgreedy : Copies ρ source source' constraints (isGreedy node strict)
      (isGreedy node' strict) Eq :=
    follows_ite Iff.rfl (fun _ => copies_isSubexprWildcard h) fun _ => follows_pure rfl
  unfold shouldUnwrap
  refine follows_bind hgreedy ?_
  rintro greedy _ rfl
  refine follows_bind (copies_hasMagicLabel hup) ?_
  rintro magic _ rfl
  refine follows_bind (copies_getText node node') ?_
  rintro text text' ⟨rfl, rfl⟩
  refine follows_pure ?_
  have hread := (read_of_relabelled h).wildcard
  rw [Bool.eq_iff_iff]
  simp only [Bool.and_eq_true, bne_iff_ne, ne_eq, hread]

/-- The copy of an expression statement. -/
theorem copies_buildExpressionStatement {up up' : Option Node}
    (hup : Option.Rel (Relabelled ρ source source') up up')
    (h : Relabelled ρ source source' node node') (depth : ℕ) (strict : Bool) :
    Copies ρ source source' constraints (buildExpressionStatement build up node depth strict)
      (buildExpressionStatement build' up' node' depth strict) Eq := by
  unfold buildExpressionStatement
  have hchild := relabelled_namedChild h 0
  generalize node.namedChild 0 = child at hchild ⊢
  generalize node'.namedChild 0 = child' at hchild ⊢
  cases hchild with
  | none => exact follows_pure rfl
  | some hchild =>
    cases hup with
    | none => exact follows_pure rfl
    | some hp =>
      simp only [kind_of_relabelled hp, kind_of_relabelled h]
      refine follows_ite Iff.rfl (fun _ => ?_) fun _ => follows_pure rfl
      refine follows_bind (copies_shouldUnwrap hp hchild strict) ?_
      rintro unwraps _ rfl
      refine follows_ite Iff.rfl (fun _ => ?_) fun _ => follows_pure rfl
      refine follows_bind (copies_unwrap (relabelled_child h 0)) ?_
      intro first first' hfirst
      refine follows_bind (copies_below hbuild h hfirst _ _ _) ?_
      rintro items _ rfl
      exact follows_pure rfl

include htree in
/-- The special cases write the same text, or both fall through. -/
theorem copies_buildSpecial {up up' : Option Node}
    (hup : Option.Rel (Relabelled ρ source source') up up')
    (h : Relabelled ρ source source' node node') (depth : ℕ) (strict : Bool) (parent : String) :
    Copies ρ source source' constraints (buildSpecial build queryTree up node depth strict parent)
      (buildSpecial build' queryTree' up' node' depth strict parent) Eq := by
  have hsome : ∀ {x y : BuildM (List Item)}, Copies ρ source source' constraints x y Eq →
      Copies ρ source source' constraints (some <$> x) (some <$> y) Eq := by
    intro x y hxy
    rw [map_eq_pure_bind, map_eq_pure_bind]
    exact follows_bind hxy fun _ _ heq => follows_pure (congrArg some heq)
  unfold buildSpecial
  rw [kind_of_relabelled h, isTransformable_of_relabelled h, namedChildCount_of_relabelled h]
  refine follows_ite Iff.rfl (fun _ => ?_) fun _ => ?_
  · exact follows_ite Iff.rfl (fun _ => hsome (copies_buildBinary hbuild h depth strict))
      fun _ => follows_pure rfl
  refine follows_ite Iff.rfl (fun _ => copies_buildLabeled hbuild htree h depth) fun _ => ?_
  refine follows_ite Iff.rfl (fun _ => ?_) fun _ => ?_
  · exact follows_ite Iff.rfl (fun _ => hsome (copies_buildCompound htree hup h))
      fun _ => follows_pure rfl
  refine follows_ite Iff.rfl (fun hkind => hsome (copies_buildIdentifier h hkind parent))
    fun _ => ?_
  refine follows_ite Iff.rfl (fun _ => hsome (copies_buildAssignment hbuild h depth strict))
    fun _ => ?_
  refine follows_ite Iff.rfl (fun _ => copies_buildCallExpr hbuild htree h depth strict _)
    fun _ => ?_
  refine follows_ite Iff.rfl
    (fun _ => copies_buildExpressionStatement hbuild hup h depth strict) fun _ => ?_
  refine follows_ite Iff.rfl (fun hkind => hsome (copies_buildNumber h hkind)) fun _ => ?_
  exact follows_ite Iff.rfl (fun hkind => copies_buildString h hkind) fun _ => follows_pure rfl

/-- One round of the default loop. -/
theorem copies_buildChild (h : Relabelled ρ source source' node node') {child child' : Node}
    (hchild : Relabelled ρ source source' child child') (anchoring : Bool) (depth : ℕ)
    (strict : Bool) :
    Copies ρ source source' constraints (buildChild build node anchoring depth strict child)
      (buildChild build' node' anchoring depth strict child') Eq := by
  have hbelow := copies_below hbuild h hchild (depth + 1) strict
  unfold buildChild
  rw [field_of_relabelled hchild, kind_of_relabelled h]
  cases child.field with
  | some field =>
    refine follows_bind (hbelow field) ?_
    rintro items _ rfl
    exact follows_ite Iff.rfl (fun _ => follows_pure rfl) fun _ => follows_pure rfl
  | none =>
    simp only [isNamed_of_relabelled hchild]
    refine follows_ite Iff.rfl (fun _ => ?_) fun _ => ?_
    · refine follows_bind follows_get ?_
      rintro s _ ⟨rfl, hsource⟩
      have hvariadic : isVariadic (relabelBuilder ρ source' constraints s).querySource child' =
          isVariadic s.querySource child := by
        rw [hsource]
        exact isVariadic_of_relabelled hchild
      rw [hvariadic]
      refine follows_ite Iff.rfl (fun _ => follows_pure rfl) fun _ => ?_
      refine follows_bind (hbelow node.kind) ?_
      rintro items _ rfl
      exact follows_pure rfl
    · refine follows_bind (hbelow node.kind) ?_
      rintro items _ rfl
      rw [kind_of_relabelled hchild]
      refine follows_ite Iff.rfl (fun _ => ?_) fun _ => follows_pure rfl
      refine follows_bind (copies_addCapture (by rw [relabelCapture])) ?_
      rintro name _ rfl
      exact follows_pure rfl

/-- The default loop. -/
theorem copies_buildChildren (h : Relabelled ρ source source' node node') (anchoring : Bool)
    (depth : ℕ) (strict : Bool) {children children' : List Node}
    (hchildren : List.Forall₂ (Relabelled ρ source source') children children') :
    Copies ρ source source' constraints (buildChildren build node anchoring depth strict children)
      (buildChildren build' node' anchoring depth strict children') Eq := by
  induction hchildren with
  | nil => exact follows_pure rfl
  | cons hfirst _ ih =>
    rw [buildChildren, buildChildren]
    refine follows_bind (copies_buildChild hbuild h hfirst anchoring depth strict) ?_
    rintro items _ rfl
    refine follows_bind ih ?_
    rintro rest _ rfl
    exact follows_pure rfl

/-- The copy of a node without a rule of its own. -/
theorem copies_buildDefault (h : Relabelled ρ source source' node node') (depth : ℕ)
    (strict : Bool) :
    Copies ρ source source' constraints (buildDefault build node depth strict)
      (buildDefault build' node' depth strict) Eq := by
  unfold buildDefault
  refine follows_bind follows_get ?_
  rintro s _ ⟨rfl, hsource⟩
  have hcount : node'.children.countP
      (isVariadic (relabelBuilder ρ source' constraints s).querySource) =
      node.children.countP (isVariadic s.querySource) := by
    rw [hsource]
    exact countP_isVariadic_of_relabelled h
  simp only [hcount, kind_of_relabelled h, namedChildCount_of_relabelled h,
    isEmpty_children_of_relabelled h]
  refine follows_ite Iff.rfl (fun _ => follows_pure rfl) fun _ => ?_
  refine follows_bind (copies_buildChildren hbuild h _ depth strict (children_of_relabelled h)) ?_
  rintro items _ rfl
  refine follows_ite Iff.rfl (fun _ => ?_) fun _ => follows_pure rfl
  refine follows_bind (copies_addCapture (by rw [relabelCapture])) ?_
  rintro name _ rfl
  exact follows_pure rfl

include htree in
/-- The copy of any node, when its parts are copied. -/
theorem copies_buildBody {up up' : Option Node}
    (hup : Option.Rel (Relabelled ρ source source') up up')
    (h : Relabelled ρ source source' node node') (depth : ℕ) (strict : Bool) (parent : String) :
    Copies ρ source source' constraints (buildBody build queryTree up node depth strict parent)
      (buildBody build' queryTree' up' node' depth strict parent) Eq := by
  unfold buildBody
  rw [isNamed_of_relabelled h, kind_of_relabelled h]
  refine follows_ite Iff.rfl (fun _ => follows_pure rfl) fun _ => ?_
  refine follows_bind (copies_buildSpecial hbuild htree hup h depth strict parent) ?_
  rintro items _ rfl
  cases items with
  | some items => exact follows_pure rfl
  | none => exact copies_buildDefault hbuild h depth strict

end Recursive

end WeggliEnhance.RelabelledBuilding
