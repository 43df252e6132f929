import WeggliEnhance.OutlineSpecification
import WeggliEnhance.StrictQueries

/-!
# Strict statements

A statement with the label `strict:` beside the same statement without it.
In strict mode an expression statement is kept as a statement, function names
allow no fields, and sub-queries are built in the same mode; captures are
allocated alike. A text that asks for a statement around an expression matches
less than the text for the expression.
-/

namespace WeggliEnhance.StrictStatements

open SourceText SyntaxTree QueryText ThirdParty QueryTrees QueryResults QueryEngine PatternBuilder
  PatternNesting BuilderSpecification QueryTreeConstruction QueryOutline OutlineSpecification
  ArgumentMatching FallibleState PairedRuns PatternSemantics QueryCorrespondence MirroredPatterns
  MirroredBuilding MovedPatterns NarrowedTexts NarrowedQueries StrictBuilding StrictQueries

/-- A comment. -/
structure Comment (node : Node) : Prop where
  /-- Comments are named nodes. -/
  named : node.isNamed = true
  /-- Their kind. -/
  kind : node.kind = "comment"
  /-- They have no parts. -/
  children : node.children = []

/-- What the grammar says about the words of a statement. -/
structure Lexical (root : Node) : Prop where
  /-- Comments have no parts. -/
  comments : ∀ node ∈ root.nodes, node.kind = "comment" → node.children = []
  /-- The wildcard of tree-sitter names no kind. -/
  kinds : ∀ node ∈ root.nodes, node.kind ≠ "_"

/-- What the grammar says about a statement. -/
structure Statement (node : Node) : Prop where
  /-- About all its nodes. -/
  grammatical : Grammatical node
  /-- Statements are named nodes. -/
  named : node.isNamed = true
  /-- About its words. -/
  lexical : Lexical node
  /-- An expression statement starts with its expression, which is no
  statement. Comments and punctuation follow. -/
  expression : node.kind = "expression_statement" → ∀ child ∈ node.namedChild 0,
    ∃ rest, node.children = child :: rest ∧ child.field = none ∧
      child.kind ≠ "labeled_statement" ∧ child.kind ≠ "expression_statement" ∧
      ∀ other ∈ rest, other.field = none ∧
        (Comment other ∨ other.isNamed = false ∧ isKeyword other.kind = false)

variable {source source' : String} {fuel : ℕ} {build build' : BuildFn}
  {queryTree queryTree' : TreeFn} {p p' node node' : Node} {s t : QueryBuilder}

section Evaluation

/-- The statement behind a strict label is built in strict mode. -/
theorem buildBody_strict (hnamed : node.isNamed = true) (hkind : node.kind = "labeled_statement")
    (hlabel : label s.querySource node = some "STRICT") {child : Node}
    (hchild : node.namedChild 1 = some child) (up : Option Node) (depth : ℕ) (strict : Bool)
    (parent : String) :
    buildBody build queryTree up node depth strict parent s =
      build (some node) child depth true "labeled_statement" s := by
  unfold label at hlabel
  obtain ⟨first, hfirst, htext⟩ := Option.map_eq_some_iff.mp hlabel
  have hread : ∀ f : String → BuildM (Option (List Item)),
      (unwrap (some first) >>= fun word => getText word >>= f) s =
        f (slice s.querySource first.range) s := fun _ => rfl
  have hlabeled : buildLabeled build queryTree node depth s =
      (some <$> build (some node) child depth true "labeled_statement") s := by
    unfold buildLabeled
    rw [hfirst, hchild, hkind]
    rw [hread, htext]
    rfl
  unfold buildBody
  rw [hnamed]
  change (buildSpecial build queryTree up node depth strict parent s >>= _) = _
  unfold buildSpecial
  rw [hkind]
  change (buildLabeled build queryTree node depth s >>= _) = _
  rw [hlabeled]
  change (build (some node) child depth true "labeled_statement" s >>= _) >>= _ = _
  cases build (some node) child depth true "labeled_statement" s with
  | ok result => rfl
  | error e => rfl

/-- An expression statement is unwrapped or copied. -/
theorem buildBody_statement (hnamed : node.isNamed = true)
    (hkind : node.kind = "expression_statement") (up : Option Node) (depth : ℕ) (strict : Bool)
    (parent : String) :
    buildBody build queryTree up node depth strict parent =
      buildExpressionStatement build up node depth strict >>= fun items =>
        match items with
        | some items => pure items
        | none => buildDefault build node depth strict := by
  unfold buildBody
  rw [hnamed]
  unfold buildSpecial
  rw [hkind]
  rfl

/-- The parents below which expression statements may be unwrapped. -/
def unwrappingKinds : List String := ["compound_statement", "labeled_statement", "translation_unit"]

/-- An expression statement that stays as it is. -/
theorem buildBody_kept (hnamed : node.isNamed = true) (hkind : node.kind = "expression_statement")
    {child : Node} (hchild : node.namedChild 0 = some child) (hp : p.kind ∈ unwrappingKinds)
    {strict : Bool} (hunwrap : shouldUnwrap child p strict s = .ok (false, s)) (depth : ℕ)
    (parent : String) :
    buildBody build queryTree (some p) node depth strict parent s =
      buildDefault build node depth strict s := by
  have hcontains : ["compound_statement", "labeled_statement", "translation_unit"].contains
      p.kind = true := List.contains_iff_mem.mpr hp
  have hnone : buildExpressionStatement build (some p) node depth strict s = .ok (none, s) := by
    unfold buildExpressionStatement
    rw [hchild]
    dsimp only
    rw [if_pos hcontains]
    change (shouldUnwrap child p strict s >>= _) = _
    rw [hunwrap]
    rfl
  rw [buildBody_statement hnamed hkind]
  change (buildExpressionStatement build (some p) node depth strict s >>= _) = _
  rw [hnone]
  rfl

/-- An expression statement that is replaced by its expression. -/
theorem buildBody_unwrapped (hnamed : node.isNamed = true)
    (hkind : node.kind = "expression_statement") {child : Node}
    (hchild : node.namedChild 0 = some child) {first : Node} (hfirst : node.child 0 = some first)
    (hp : p.kind ∈ unwrappingKinds) {strict : Bool}
    (hunwrap : shouldUnwrap child p strict s = .ok (true, s)) (depth : ℕ) (parent : String) :
    buildBody build queryTree (some p) node depth strict parent s =
      build (some node) first depth strict "expression_statement" s := by
  have hcontains : ["compound_statement", "labeled_statement", "translation_unit"].contains
      p.kind = true := List.contains_iff_mem.mpr hp
  have hsome : buildExpressionStatement build (some p) node depth strict s =
      (some <$> build (some node) first depth strict "expression_statement") s := by
    unfold buildExpressionStatement
    rw [hchild]
    dsimp only
    rw [if_pos hcontains]
    change (shouldUnwrap child p strict s >>= _) = _
    rw [hunwrap, hfirst, hkind]
    rfl
  rw [buildBody_statement hnamed hkind]
  change (buildExpressionStatement build (some p) node depth strict s >>= _) = _
  rw [hsome]
  change (build (some node) first depth strict "expression_statement" s >>= _) >>= _ = _
  cases build (some node) first depth strict "expression_statement" s with
  | ok result => rfl
  | error e => rfl

/-- What follows the expression of a statement adds nodes without children
and leaves the builder as it is. -/
theorem buildChildren_trailing {rest : List Node} (hkind : node.kind = "expression_statement")
    (h : ∀ other ∈ rest, other.field = none ∧
      (Comment other ∨ other.isNamed = false ∧ isKeyword other.kind = false))
    (hcomment : ∀ other ∈ rest, Comment other → ∀ depth strict parent s,
      build (some node) other depth strict parent s = .ok ([.node "comment" []], s))
    (htoken : ∀ other ∈ rest, other.isNamed = false → ∀ depth strict parent,
      build (some node) other depth strict parent = pure [.token other.kind])
    (depth : ℕ) (strict : Bool) :
    ∃ others, (∀ s, buildChildren build node false depth strict rest s = .ok (others, s)) ∧
      ∀ other ∈ others, ∃ kind, other = .node kind [] := by
  induction rest with
  | nil => exact ⟨[], fun _ => rfl, List.forall_mem_nil _⟩
  | cons other rest ih =>
    rw [List.forall_mem_cons] at h hcomment htoken
    obtain ⟨others, hothers, hleaves⟩ := ih h.2 hcomment.2 htoken.2
    obtain ⟨hfield, hother⟩ := h.1
    have hchild : ∃ items, (∀ s, buildChild build node false depth strict other s = .ok (items, s)) ∧
        ∀ item ∈ items, ∃ kind, item = .node kind [] := by
      unfold buildChild
      rw [hfield, hkind]
      dsimp only
      rcases hother with hother | ⟨hanonymous, hkeyword⟩
      · refine ⟨[.node "comment" []], ?_, ?_⟩
        · intro s
          rw [if_pos hother.named]
          change (build (some node) other (depth + 1) strict "expression_statement" s >>= _) = _
          rw [hcomment.1 hother]
          rfl
        · intro item hitem
          exact ⟨"comment", List.mem_singleton.mp hitem⟩
      · refine ⟨[], ?_, List.forall_mem_nil _⟩
        intro s
        rw [hanonymous, htoken.1 hanonymous, hkeyword]
        rfl
    obtain ⟨items, hitems, hitemLeaves⟩ := hchild
    refine ⟨items ++ others, fun s => ?_, List.forall_mem_append.mpr ⟨hitemLeaves, hleaves⟩⟩
    rw [buildChildren]
    change (buildChild build node false depth strict other s >>= fun r =>
      buildChildren build node false depth strict rest r.2 >>= _) = _
    rw [hitems]
    change (buildChildren build node false depth strict rest s >>= _) = _
    rw [hothers]
    rfl

/-- An expression statement is copied with its expression in front. -/
theorem buildDefault_statement (hkind : node.kind = "expression_statement") {child : Node}
    {rest : List Node} (hchildren : node.children = child :: rest) (hfield : child.field = none)
    (hnamed : child.isNamed = true) {others : List Item} {depth : ℕ} {strict : Bool}
    (hrest : ∀ s, buildChildren build node false depth strict rest s = .ok (others, s)) :
    buildDefault build node depth strict =
      build (some node) child (depth + 1) strict "expression_statement" >>= fun items =>
        pure [.node "expression_statement" (items ++ others)] := by
  funext s
  have hchild : buildChild build node false depth strict child =
      build (some node) child (depth + 1) strict "expression_statement" := by
    unfold buildChild
    rw [hfield, hkind, hnamed]
    funext s
    change (build (some node) child (depth + 1) strict "expression_statement" s >>= _) = _
    cases build (some node) child (depth + 1) strict "expression_statement" s with
    | ok result => rfl
    | error e => rfl
  unfold buildDefault
  rw [hkind, hchildren]
  change (buildChildren build node false depth strict (child :: rest) s >>= _) = _
  rw [buildChildren, hchild]
  change ((build (some node) child (depth + 1) strict "expression_statement" s >>= fun r =>
    buildChildren build node false depth strict rest r.2 >>= _) >>= _) =
    (build (some node) child (depth + 1) strict "expression_statement" s >>= _)
  cases build (some node) child (depth + 1) strict "expression_statement" s with
  | error e => rfl
  | ok result =>
    change ((buildChildren build node false depth strict rest result.2 >>= _) >>= _) = _
    rw [hrest]
    rfl

/-- Comments are copied. -/
theorem buildBody_comment (h : Comment node) (up : Option Node) (depth : ℕ) (strict : Bool)
    (parent : String) (s : QueryBuilder) :
    buildBody build queryTree up node depth strict parent s = .ok ([.node "comment" []], s) := by
  unfold buildBody
  rw [h.named]
  unfold buildSpecial
  rw [h.kind]
  change buildDefault build node depth strict s = _
  unfold buildDefault
  rw [h.kind, h.children]
  rfl

end Evaluation

section Statements

/-- A pattern with tags behind it. -/
def OnePattern (items : List Item) : Prop :=
  ∃ first tags, items = first :: tags ∧ Item.isPattern first = true ∧
    ∀ tag ∈ tags, Item.isTag tag = true

/-- The first text asks for a statement around what the second asks for. -/
def Enclosed (items items' : List Item) : Prop :=
  ∃ inner others, items = [.node "expression_statement" (inner ++ others)] ∧
    Narrows true inner items' ∧ (∀ other ∈ others, ∃ kind, other = .node kind []) ∧
    OnePattern inner

/-- The texts for a statement in strict mode and for the plain statement. -/
def StatementWritten (s t : QueryBuilder) (items : List Item) (s' : QueryBuilder)
    (items' : List Item) (t' : QueryBuilder) : Prop :=
  Grown true s t s' t' ∧ (Narrows true items items' ∨ Enclosed items items')

/-- The text for an expression below another node is a pattern with tags. -/
theorem onePattern_of_buildFuel {externals : Externals} {bound depth : ℕ} {strict : Bool}
    {up : Option Node} {parent : String} {items : List Item} {s' : QueryBuilder}
    (hdepth : depth ≠ 0) (hlabeled : node.kind ≠ "labeled_statement")
    (hstatement : node.kind ≠ "expression_statement")
    (h : buildFuel externals bound up node depth strict parent s = .ok (items, s')) :
    OnePattern items := by
  cases bound with
  | zero => cases h
  | succ bound =>
    obtain ⟨-, hwrites⟩ := outcome_ok ((buildOutline_buildFuel externals s.querySource
      (bound + 1)).writes up node depth strict parent s rfl) h
    refine exists_pattern_of_writes hwrites ?_
    rintro rfl
    have hnone := Option.toList_eq_nil_iff.mp hwrites.strip.symm
    exact item_outlineBody_below hdepth hlabeled (fun hkind => absurd hkind hstatement) hnone

/-- Without a named child nothing is unwrapped. -/
theorem buildBody_empty (hnamed : node.isNamed = true) (hkind : node.kind = "expression_statement")
    (hchild : node.namedChild 0 = none) (up : Option Node) (depth : ℕ) (strict : Bool)
    (parent : String) :
    buildBody build queryTree up node depth strict parent = buildDefault build node depth strict := by
  rw [buildBody_statement hnamed hkind]
  unfold buildExpressionStatement
  rw [hchild]
  rfl

theorem hasMagicLabel_block (hp : p.kind = "compound_statement") (s : QueryBuilder) :
    hasMagicLabel p s = .ok (true, s) := by
  unfold hasMagicLabel
  rw [hp]
  rfl

/-- Both parents allow to unwrap the expression statement. -/
theorem magicLabels (hkind : p.kind = "labeled_statement")
    (hlabel : label source p = some "STRICT") (hblock : p'.kind = "compound_statement")
    (hsource : s.querySource = source) (t : QueryBuilder) :
    hasMagicLabel p s = .ok (true, s) ∧ hasMagicLabel p' t = .ok (true, t) := by
  rw [hasMagicLabel_eq hsource hkind hlabel, hasMagicLabel_block hblock]
  exact ⟨rfl, rfl⟩

theorem namedChild_zero {child : Node} {rest : List Node} (h : node.children = child :: rest)
    (hnamed : child.isNamed = true) : node.namedChild 0 = some child := by
  rw [Node.namedChild, Node.namedChildren, h, List.filter_cons_of_pos hnamed]
  rfl

theorem child_zero {child : Node} {rest : List Node} (h : node.children = child :: rest) :
    node.child 0 = some child := by
  rw [Node.child, h]
  rfl

/-- The first child of the same part, when it is named. -/
theorem exists_first (h : Copy source source' (fuel + 1) node node') {child : Node}
    {rest : List Node} (hchildren : node.children = child :: rest)
    (hnamed : child.isNamed = true) :
    ∃ child', Held source source' fuel child child' ∧ node'.child 0 = some child' ∧
      node'.namedChild 0 = some child' := by
  have hheld := held_children h
  rw [hchildren] at hheld
  cases hchildren' : node'.children with
  | nil =>
    rw [hchildren'] at hheld
    cases hheld
  | cons child' rest' =>
    rw [hchildren'] at hheld
    cases hheld with
    | cons hfirst _ =>
      exact ⟨child', hfirst, child_zero hchildren',
        namedChild_zero hchildren' ((alike_of_copy hfirst.copy).isNamed.trans hnamed)⟩

/-- An expression that is kept in its statement in the first run only. -/
theorem together_enclosed {x y : BuildM (List Item)} {others : List Item}
    (hwritten : Together Rejected x y s t (Written true s t))
    (hpattern : ∀ items s', x s = .ok (items, s') → OnePattern items)
    (hleaves : ∀ other ∈ others, ∃ kind, other = Item.node kind []) :
    Together Rejected (x >>= fun items => pure [.node "expression_statement" (items ++ others)]) y
      s t (StatementWritten s t) := by
  unfold Together at hwritten ⊢
  change Joint Rejected (x s >>= fun result =>
    .ok ([Item.node "expression_statement" (result.1 ++ others)], result.2)) (y t) _
  cases hrun : x s with
  | error e =>
    rw [hrun] at hwritten
    cases hrun' : y t with
    | error e' => exact trivial
    | ok result' =>
      rw [hrun'] at hwritten
      exact hwritten
  | ok result =>
    rw [hrun] at hwritten
    cases hrun' : y t with
    | error e' =>
      rw [hrun'] at hwritten
      exact hwritten
    | ok result' =>
      rw [hrun'] at hwritten
      exact ⟨hwritten.1, .inr ⟨result.1, others, rfl, hwritten.2, hleaves,
        hpattern result.1 result.2 hrun⟩⟩

/-- An expression statement behind a strict label and the same statement in a
block. -/
structure Beside (source source' : String) (fuel : ℕ) (p p' node node' : Node) : Prop where
  /-- It follows the grammar. -/
  statement : Statement node
  /-- Both are the same part. -/
  copy : Copy source source' (fuel + 1) node node'
  /-- The kind of expression statements. -/
  kind : node.kind = "expression_statement"
  /-- The first has a label. -/
  labelled : p.kind = "labeled_statement"
  /-- The label is `strict:`. -/
  label : label source p = some "STRICT"
  /-- The second stands in a block. -/
  block : p'.kind = "compound_statement"

theorem named_of_beside (h : Beside source source' fuel p p' node node') : node'.isNamed = true :=
  (alike_of_copy h.copy).isNamed.trans h.statement.named

theorem kind_of_beside (h : Beside source source' fuel p p' node node') :
    node'.kind = "expression_statement" := (alike_of_copy h.copy).kind.trans h.kind

theorem settled_of_beside (h : Beside source source' fuel p p' node node') : Settled source node :=
  settled_of_mem (List.mem_singleton.mpr h.kind) (by decide)

/-- Both parents allow to unwrap the statement. -/
theorem unwrappingKinds_of_beside (h : Beside source source' fuel p p' node node') :
    p.kind ∈ unwrappingKinds ∧ p'.kind ∈ unwrappingKinds := by
  rw [h.labelled, h.block]
  decide

/-- Visits of the expressions of both statements. -/
theorem visits_of_beside (h : Beside source source' fuel p p' node node') {child child' : Node}
    (hheld : Held source source' fuel child child') {depth depth' : ℕ}
    (hdepths : DepthsAgree source child depth depth') :
    Visits source source' fuel true node node' child child' depth depth' true false
      "expression_statement" "expression_statement" :=
  ⟨hheld.copy, .inr ⟨rfl, rfl, rfl⟩,
    fun _ => ⟨alike_of_copy h.copy, .inr (settled_of_beside h)⟩, hdepths, Iff.rfl⟩

/-- Which of the two statements are unwrapped. -/
theorem shouldUnwrap_of_beside (h : Beside source source' fuel p p' node node')
    (hset : Paired source source' s t) {child child' : Node}
    (hheld : Held source source' fuel child child') :
    shouldUnwrap child p true s =
        .ok (isWildcardCall source child && slice source child.range != "_", s) ∧
      shouldUnwrap child' p' false t = .ok (slice source child.range != "_", t) := by
  obtain ⟨bound, rfl⟩ := exists_bound_of_copy hheld.copy
  obtain ⟨hmagic, hmagic'⟩ := magicLabels h.labelled h.label h.block hset.left t
  have hunwrap := shouldUnwrap_eq hset.left (hheld.copy.grammatical.callee child
    (mem_nodes_self child)) hmagic true
  have hunwrap' := shouldUnwrap_eq hset.right (callee_of_copy hheld.copy) hmagic' false
  have hword : (slice source' child'.range != "_") = (slice source child.range != "_") := by
    rw [Bool.eq_iff_iff, bne_iff_ne, bne_iff_ne]
    exact not_congr (alike_of_copy hheld.copy).wildcard
  rw [hword] at hunwrap'
  rw [hunwrap, hunwrap']
  simp

/-- A statement that is kept in both runs. -/
theorem together_keptStatement (hbuild : BuildNarrows source source' fuel build build')
    (hset : Paired source source' s t) (h : Beside source source' fuel p p' node node') :
    Together Rejected (buildDefault build node 0 true) (buildDefault build' node' 0 false) s t
      (StatementWritten s t) := by
  refine together_mono (written_buildDefault hbuild hset h.copy (.inr ⟨rfl, rfl, rfl⟩)
    (fun _ _ _ => .inr (settled_of_beside h)) 0 0) ?_
  intro items s' items' t' hwritten
  exact ⟨hwritten.1, .inl hwritten.2⟩

/-- A statement that is kept in the first run only. -/
theorem together_keptOnce (hbuild : BuildNarrows source source' fuel build build')
    (hset : Paired source source' s t) (h : Beside source source' fuel p p' node node')
    {child child' : Node} (hfound : node.namedChild 0 = some child)
    (hheld : Held source source' fuel child child')
    (hcall : isWildcardCall source child = false)
    (hcomment : ∀ other, Comment other → other.height ≤ fuel → ∀ up depth strict parent s,
      build up other depth strict parent s = .ok ([.node "comment" []], s))
    (hpattern : ∀ {child depth strict up parent s items s'}, depth ≠ 0 →
      child.kind ≠ "labeled_statement" → child.kind ≠ "expression_statement" →
      build up child depth strict parent s = .ok (items, s') → OnePattern items) :
    Together Rejected (buildDefault build node 0 true)
      (build' (some node') child' 0 false "expression_statement") s t (StatementWritten s t) := by
  obtain ⟨rest, hchildren, hfield, hlabeled, hexpression, hrest⟩ :=
    h.statement.expression h.kind child hfound
  have hnamed : child.isNamed = true := (List.mem_filter.mp (List.mem_of_getElem? hfound)).2
  have hheight : ∀ other ∈ rest, other.height ≤ fuel := by
    intro other hmem
    refine height_le_of_child h.copy.height ?_
    rw [hchildren]
    exact List.mem_cons_of_mem child hmem
  obtain ⟨others, hothers, hleaves⟩ := buildChildren_trailing h.kind hrest
    (fun other hmem hcommented depth strict parent s =>
      hcomment other hcommented (hheight other hmem) _ depth strict parent s)
    (fun other hmem hanonymous depth strict parent =>
      hbuild.token _ other depth strict parent (hheight other hmem) hanonymous) 0 true
  have hdepths : DepthsAgree source child 1 0 := .inr ⟨hlabeled, hexpression, hcall⟩
  have hvisits := visits_of_beside h hheld hdepths
  rw [buildDefault_statement h.kind hchildren hfield hnamed hothers]
  exact together_enclosed (hbuild.narrows hset hvisits)
    (fun items s' hrun => hpattern one_ne_zero hlabeled hexpression hrun) hleaves

/-- An expression statement in strict mode below its label and in the plain
pattern below a block. -/
theorem together_expressionStatement (hbuild : BuildNarrows source source' fuel build build')
    (hset : Paired source source' s t) (h : Beside source source' fuel p p' node node')
    (hcomment : ∀ other, Comment other → other.height ≤ fuel → ∀ up depth strict parent s,
      build up other depth strict parent s = .ok ([.node "comment" []], s))
    (hpattern : ∀ {child depth strict up parent s items s'}, depth ≠ 0 →
      child.kind ≠ "labeled_statement" → child.kind ≠ "expression_statement" →
      build up child depth strict parent s = .ok (items, s') → OnePattern items) :
    Together Rejected (buildBody build queryTree (some p) node 0 true "labeled_statement")
      (buildBody build' queryTree' (some p') node' 0 false "compound_statement") s t
      (StatementWritten s t) := by
  have hnamed := h.statement.named
  have hnamed' := named_of_beside h
  have hkind' := kind_of_beside h
  have hkept := together_keptStatement hbuild hset h
  obtain ⟨hup, hup'⟩ := unwrappingKinds_of_beside h
  cases hfound : node.namedChild 0 with
  | none =>
    have hchild := held_namedChild h.copy 0
    rw [hfound] at hchild
    cases hfound' : node'.namedChild 0 with
    | none =>
      rw [buildBody_empty hnamed h.kind hfound, buildBody_empty hnamed' hkind' hfound']
      exact hkept
    | some child' =>
      rw [hfound'] at hchild
      cases hchild
  | some child =>
    obtain ⟨rest, hchildren, -⟩ := h.statement.expression h.kind child hfound
    obtain ⟨child', hheld, hfirst', hfound'⟩ := exists_first h.copy hchildren
      (List.mem_filter.mp (List.mem_of_getElem? hfound)).2
    obtain ⟨hunwrap, hunwrap'⟩ := shouldUnwrap_of_beside h hset hheld
    cases hword : slice source child.range != "_" with
    | false =>
      rw [hword, Bool.and_false] at hunwrap
      rw [hword] at hunwrap'
      unfold Together
      rw [buildBody_kept hnamed h.kind hfound hup hunwrap,
        buildBody_kept hnamed' hkind' hfound' hup' hunwrap']
      exact hkept
    | true =>
      rw [hword, Bool.and_true] at hunwrap
      rw [hword] at hunwrap'
      unfold Together
      rw [buildBody_unwrapped hnamed' hkind' hfound' hfirst' hup' hunwrap']
      cases hcall : isWildcardCall source child with
      | true =>
        rw [hcall] at hunwrap
        rw [buildBody_unwrapped hnamed h.kind hfound (child_zero hchildren) hup hunwrap]
        have hdepths : DepthsAgree source child 0 0 := .inl Iff.rfl
        have hwritten := hbuild.narrows hset (visits_of_beside h hheld hdepths)
        exact together_mono hwritten fun _ _ _ _ hpost => ⟨hpost.1, .inl hpost.2⟩
      | false =>
        rw [hcall] at hunwrap
        rw [buildBody_kept hnamed h.kind hfound hup hunwrap]
        exact together_keptOnce hbuild hset h hfound hheld hcall hcomment hpattern

/-- A statement behind a strict label and the plain statement in a block. -/
theorem together_statement (externals : Externals) (hset : Paired source source' s t)
    (hstatement : Statement node) (hmoved : Moved source source' node node')
    (hp : p.kind = "labeled_statement") (hlabel : label source p = some "STRICT")
    (hblock : p'.kind = "compound_statement") {bound bound' : ℕ} (hheight : node.height ≤ bound)
    (hheight' : node.height ≤ bound') :
    Together Rejected (buildFuel externals bound (some p) node 0 true "labeled_statement")
      (buildFuel externals bound' (some p') node' 0 false "compound_statement") s t
      (StatementWritten s t) := by
  obtain ⟨fuel, hfuel⟩ := Nat.exists_eq_succ_of_ne_zero (height_pos node).ne'
  have hcopy : Copy source source' (fuel + 1) node node' :=
    ⟨hmoved, hstatement.grammatical, hfuel.le⟩
  rw [hfuel] at hheight hheight'
  by_cases hkind : node.kind = "expression_statement"
  · obtain ⟨bound, rfl⟩ := Nat.exists_eq_succ_of_ne_zero (Nat.ne_of_gt (Nat.zero_lt_of_lt hheight))
    obtain ⟨bound', rfl⟩ :=
      Nat.exists_eq_succ_of_ne_zero (Nat.ne_of_gt (Nat.zero_lt_of_lt hheight'))
    have hbound := Nat.le_of_succ_le_succ hheight
    refine together_expressionStatement (buildNarrows_buildFuel externals source source' hbound
      (Nat.le_of_succ_le_succ hheight')) hset ⟨hstatement, hcopy, hkind, hp, hlabel, hblock⟩ ?_ ?_
    · intro other hcomment hother up depth strict parent s
      have hpos := height_pos other
      obtain ⟨below, rfl⟩ := Nat.exists_eq_succ_of_ne_zero (by omega : bound ≠ 0)
      exact buildBody_comment hcomment up depth strict parent s
    · intro child depth strict up parent s items s' hdepth hlabeled hexpression hrun
      exact onePattern_of_buildFuel hdepth hlabeled hexpression hrun
  · have hvisits : Visits source source' (fuel + 1) true p p' node node' 0 0 true false
        "labeled_statement" "compound_statement" :=
      ⟨hcopy, .inr ⟨rfl, rfl, rfl⟩, fun h => absurd h hkind, .inl Iff.rfl, by decide⟩
    refine together_mono
      ((buildNarrows_buildFuel externals source source' hheight hheight').narrows hset hvisits) ?_
    intro items s' items' t' hwritten
    exact ⟨hwritten.1, .inl hwritten.2⟩

end Statements

section Patterns

/-- A narrower text is matched on the same node. -/
theorem matchedBy_of_narrows {loose : Bool} {text text' : List Item} (h : Narrows loose text text') :
    MatchedBy text text' where
  matched _ target _ hmatch := ⟨target, mem_nodes_self target, matches_of_narrows h hmatch⟩
  names := sameNames_of_narrows h

theorem captureNames_leaves {others : List Item}
    (h : ∀ other ∈ others, ∃ kind, other = Item.node kind []) : captureNames others = [] := by
  induction others with
  | nil => rfl
  | cons other others ih =>
    rw [List.forall_mem_cons] at h
    obtain ⟨⟨kind, rfl⟩, hrest⟩ := h
    rw [captureNames_cons, ih hrest]
    rfl

theorem captureNames_group (items : List Item) : captureNames [.group items] = captureNames items := by
  rw [captureNames_cons]
  exact List.append_nil _

/-- A statement in parentheses with predicates. -/
theorem sequenceMatch_statement {items predicates : List Item}
    (hpredicates : ∀ item ∈ predicates, ∃ tag : Tag, item = .tag tag ∧ tag.site = none)
    {target : Node} {captured : List Named} :
    SequenceMatch [.group (items ++ predicates)] (.start [target]) captured ↔
      SequenceMatch items (.start [target]) captured := by
  rw [sequenceMatch_singleton rfl, ItemMatch, sequenceMatch_append hpredicates]

/-- A statement around an expression is matched where the expression is
matched inside. -/
theorem matchedBy_of_enclosed {items items' predicates : List Item} (h : Enclosed items items')
    (hpredicates : ∀ item ∈ predicates, ∃ tag : Tag, item = .tag tag ∧ tag.site = none) :
    MatchedBy [.group (items ++ predicates)] [.group (items' ++ predicates)] := by
  obtain ⟨inner, others, rfl, hnarrows, hleaves, first, tags, rfl, hpattern, htags⟩ := h
  refine ⟨?_, ?_⟩
  · rintro source target captured ⟨hsequence, hholds⟩
    rw [sequenceMatch_statement hpredicates, sequenceMatch_singleton rfl, ItemMatch] at hsequence
    obtain ⟨sibling, hsibling, hinner⟩ :=
      exists_sibling hpattern htags (captured_of_leaves hleaves) hsequence.2
    refine ⟨sibling, child_mem_nodes hsibling, ?_, ?_⟩
    · rw [sequenceMatch_statement hpredicates]
      exact (matchesLess_of_narrows hnarrows).sequence _ _ hinner
    · intro tag htag
      refine hholds tag ?_
      have hmem := mem_tagsOf_of_narrows hnarrows tag
      simp only [tagsOf, tagsOf_append, Item.tags, List.append_nil, List.mem_append] at htag hmem ⊢
      tauto
  · rw [captureNames_group, captureNames_group, captureNames_append, captureNames_append]
    have hstatement : captureNames [.node "expression_statement" (first :: tags ++ others)] =
        captureNames (first :: tags) := by
      rw [captureNames_cons]
      change captureNames (first :: tags ++ others) ++ [] = _
      rw [captureNames_append, captureNames_leaves hleaves, List.append_nil, List.append_nil]
    rw [hstatement]
    exact sameNames_append (sameNames_of_narrows hnarrows) (sameNames_refl _)

end Patterns

end WeggliEnhance.StrictStatements
