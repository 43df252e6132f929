import WeggliEnhance.QueryTreeConstruction

/-!
# The builder writes the outline

Whatever the builder allocates, the text it returns for a node is the pattern
of the outline, the constants it adds are those of the outline, and the
queries it opens are written as outlined. Each rule is read off the steps of
one helper of the source.
-/

namespace WeggliEnhance.OutlineSpecification

open SourceText SyntaxTree QueryText ThirdParty QueryTrees PatternBuilder
  PatternNesting BuilderEmission BuilderSteps BuilderSpecification QueryTreeConstruction
  QueryOutline FallibleState

/-- The constant a capture compares with. -/
def Capture.text? : Capture → Option String
  | .check text => some text
  | _ => none

/-- The outline of a finished query. -/
def outlinedOf (tree : QueryTree) : Outlined :=
  ⟨tree.query.text.map stripOf, tree.captures.filterMap Capture.text?⟩

/-- The outlines of all trees that a builder holds. -/
def heldOutlined (builder : QueryBuilder) : List Outlined :=
  ((held builder).flatMap QueryTree.trees).map outlinedOf

/-- A query in which every capture follows a pattern. -/
def TidyTree (tree : QueryTree) : Prop := ∀ pattern ∈ tree.query.text, Tidy false pattern

/-- All trees that a builder holds are tidy. -/
def HeldTidy (builder : QueryBuilder) : Prop :=
  ∀ tree ∈ (held builder).flatMap QueryTree.trees, TidyTree tree

/-- A call of the builder that adds constants and opens queries. -/
structure Grows (builder : QueryBuilder) (checks : List String) (opened : List Outlined)
    (next : QueryBuilder) : Prop where
  /-- The pattern text stays. -/
  querySource : next.querySource = builder.querySource
  /-- The constants are added in order. -/
  checks : next.captures.filterMap Capture.text? =
    builder.captures.filterMap Capture.text? ++ checks
  /-- The opened queries are added. -/
  opened : (heldOutlined next).Perm (heldOutlined builder ++ opened)
  /-- The opened queries are tidy. -/
  tidy : HeldTidy builder → HeldTidy next

/-- The text returned for a pattern, and no text at all for no pattern. -/
structure Writes (items : List Item) (item : Option Item) : Prop where
  /-- The pattern is what is left without captures. -/
  strip : stripOf items = item.toList
  /-- Nothing is written for no pattern. -/
  empty : item = none → items = []
  /-- The pattern comes first and its captures follow. -/
  leads : ∀ first ∈ items.head?, Item.isPattern first = true
  /-- Captures only follow patterns, whatever comes before the text. -/
  tidy : ∀ settled, Tidy settled items

section Rules

variable {builder middle next : QueryBuilder} {checks checks' : List String}
  {opened opened' : List Outlined}

/-- Nothing is added. -/
theorem grows_refl (builder : QueryBuilder) : Grows builder [] [] builder where
  querySource := rfl
  checks := (List.append_nil _).symm
  opened := by rw [List.append_nil]
  tidy := id

/-- What two steps add, one after the other. -/
theorem grows_trans (first : Grows builder checks opened middle)
    (second : Grows middle checks' opened' next) :
    Grows builder (checks ++ checks') (opened ++ opened') next where
  querySource := second.querySource.trans first.querySource
  checks := by rw [second.checks, first.checks, List.append_assoc]
  opened := by
    rw [← List.append_assoc]
    exact second.opened.trans (first.opened.append_right _)
  tidy := second.tidy ∘ first.tidy

/-- Added queries add their outlines. -/
theorem heldOutlined_perm {trees : List QueryTree} (h : (held next).Perm (held builder ++ trees)) :
    (heldOutlined next).Perm
      (heldOutlined builder ++ (trees.flatMap QueryTree.trees).map outlinedOf) := by
  have hperm := (h.flatMap_right QueryTree.trees).map outlinedOf
  rwa [List.flatMap_append, List.map_append] at hperm

/-- Added queries are tidy if the text of each is. -/
theorem heldTidy_perm {trees : List QueryTree} (h : (held next).Perm (held builder ++ trees))
    (htrees : ∀ tree ∈ trees.flatMap QueryTree.trees, TidyTree tree) :
    HeldTidy builder → HeldTidy next := by
  intro hheld tree htree
  have hperm := h.flatMap_right QueryTree.trees
  rw [List.flatMap_append] at hperm
  obtain hbuilder | hnew := List.mem_append.mp (hperm.mem_iff.mp htree)
  · exact hheld tree hbuilder
  · exact htrees tree hnew

/-- Adding a capture with the tree it holds. -/
theorem grows_push (builder : QueryBuilder) (capture : Capture)
    (htidy : ∀ tree ∈ capture.tree?.toList.flatMap QueryTree.trees, TidyTree tree) :
    Grows builder (Capture.text? capture).toList
      ((capture.tree?.toList.flatMap QueryTree.trees).map outlinedOf) (builder.push capture) where
  querySource := rfl
  checks := by
    rw [QueryBuilder.push, List.filterMap_append]
    cases capture <;> rfl
  opened := heldOutlined_perm (held_push builder capture)
  tidy := heldTidy_perm (held_push builder capture) htidy

/-- Adding a capture without a tree. -/
theorem grows_push_leaf (builder : QueryBuilder) (capture : Capture)
    (htree : capture.tree? = none) :
    Grows builder (Capture.text? capture).toList [] (builder.push capture) := by
  have hpush := grows_push builder capture
  rw [htree] at hpush
  exact hpush (List.forall_mem_nil _)

/-- A capture without a constant and a tree adds nothing. -/
theorem grows_leaf (h : Grows builder checks opened next) {capture : Capture}
    (htext : Capture.text? capture = none) (htree : capture.tree? = none) :
    Grows builder checks opened (next.push capture) := by
  have hpush := grows_trans h (grows_push_leaf next capture htree)
  rw [htext] at hpush
  simpa using hpush

/-- Giving out an id changes nothing else. -/
theorem grows_id (h : Grows { builder with id := builder.id + 1 } checks opened next) :
    Grows builder checks opened next :=
  ⟨h.querySource, h.checks, h.opened, h.tidy⟩

/-- Meeting a negation adds its tree. -/
theorem grows_negate (builder : QueryBuilder) (tree : QueryTree)
    (htidy : ∀ t ∈ tree.trees, TidyTree t) :
    Grows builder [] (tree.trees.map outlinedOf) (negate builder tree) := by
  have hheld : held (negate builder tree) = held builder ++ [tree] := by
    unfold held negate
    rw [List.map_append, ← List.append_assoc, List.map_singleton]
  have hperm := heldOutlined_perm (List.Perm.of_eq hheld)
  rw [List.flatMap_singleton] at hperm
  refine ⟨rfl, (List.append_nil _).symm, hperm, heldTidy_perm (List.Perm.of_eq hheld) ?_⟩
  rwa [List.flatMap_singleton]

/-- The order of the queries does not matter. -/
theorem grows_perm (h : Grows builder checks opened next) (hperm : opened.Perm opened') :
    Grows builder checks opened' next :=
  ⟨h.querySource, h.checks, h.opened.trans (hperm.append_left _), h.tidy⟩

end Rules

/-- From every builder over the source, a computation writes the outline. -/
def Outlining (source : String) (x : BuildM (List Item)) (outline : Outline) : Prop :=
  ∀ builder : QueryBuilder, builder.querySource = source →
    Ensures (fun _ => True) x builder fun items next =>
      Grows builder outline.checks outline.opened next ∧ Writes items outline.item

/-- The special cases write their outline, or change nothing. -/
def OutlinesOption (builder : QueryBuilder) (items : Option (List Item))
    (outline : Option Outline) (next : QueryBuilder) : Prop :=
  match items, outline with
  | some items, some outline =>
    Grows builder outline.checks outline.opened next ∧ Writes items outline.item
  | none, none => next = builder
  | _, _ => False

/-- A computation that may fall through to the default case. -/
def OutliningOption (source : String) (x : BuildM (Option (List Item)))
    (outline : Option Outline) : Prop :=
  ∀ builder : QueryBuilder, builder.querySource = source →
    Ensures (fun _ => True) x builder fun items next => OutlinesOption builder items outline next

/-- The recursive calls of `build`. -/
structure BuildOutline (source : String) (build : BuildFn) (outline : OutlineFn) : Prop where
  /-- A call writes the outline of its node. -/
  writes : ∀ up node depth strict parent,
    Outlining source (build up node depth strict parent) (outline up node depth strict parent)
  /-- Something is written for tokens and blocks. -/
  written : ∀ up node depth strict parent (builder : QueryBuilder) items next,
    builder.querySource = source → node.isNamed = false ∨ node.kind = "compound_statement" →
    build up node depth strict parent builder = .ok (items, next) → items ≠ []

/-- The calls of `_build_query_tree`. -/
def TreeOutline (source : String) (queryTree : TreeFn) (outline : OutlineFn) : Prop :=
  ∀ up node id multiPattern strict (builder : QueryBuilder), builder.querySource = source →
    Ensures (fun _ => True) (queryTree up node id multiPattern strict) builder fun tree next =>
      next = builder ∧ (tree.trees.map outlinedOf).Perm
        (treeOutline outline up node multiPattern strict (decide (id = 0))) ∧
        ∀ t ∈ tree.trees, TidyTree t

/-- One pattern with a capture suffix. -/
theorem writes_captured (item : Item) (hitem : Item.strip item = [item])
    (hpattern : Item.isPattern item = true) (htidy : Item.Tidy item) (name : String) :
    Writes [item, captureItem name] (some item) where
  strip := by
    rw [stripOf, hitem, captureItem, stripOf, Item.strip, stripOf]
    rfl
  empty h := by cases h
  leads := by
    rintro _ ⟨⟩
    exact hpattern
  tidy settled := by
    rw [Tidy, hpattern, Bool.true_or]
    refine ⟨?_, htidy, (tidy_tags fun item h => ?_).1⟩
    · intro htag
      cases item with
      | tag tag => cases hpattern
      | _ => cases htag
    · rw [List.mem_singleton.mp h]
      rfl

/-- A node without children. -/
theorem writes_leaf (kind name : String) :
    Writes [.node kind [], captureItem name] (some (.node kind [])) :=
  writes_captured (.node kind []) rfl rfl trivial name

/-- A text that is one pattern without captures. -/
theorem writes_plain {first : Item} {items : List Item} {item : Item}
    (hfirst : Item.isPattern first = true) (h : stripOf (first :: items) = [item])
    (htidy : Tidy false (first :: items)) : Writes (first :: items) (some item) where
  strip := h
  empty h := by cases h
  leads := by
    rintro _ ⟨⟩
    exact hfirst
  tidy _ := tidy_mono htidy

/-- The empty text. -/
theorem writes_nothing : Writes [] none where
  strip := rfl
  empty _ := rfl
  leads := by rintro _ ⟨⟩
  tidy _ := trivial

/-- The text of a pattern is the pattern with tags behind it. -/
theorem exists_pattern_of_writes {items : List Item} {item : Option Item} (h : Writes items item)
    (hne : items ≠ []) :
    ∃ first tags, items = first :: tags ∧ Item.isPattern first = true ∧
      ∀ tag ∈ tags, Item.isTag tag = true := by
  cases items with
  | nil => exact absurd rfl hne
  | cons first rest =>
    have hpattern := h.leads first rfl
    have hrest : stripOf rest = [] := by
      have hlength := congrArg List.length h.strip
      rw [length_stripOf, List.filter_cons_of_pos (by cases first <;> first | rfl | cases hpattern),
        List.length_cons, ← length_stripOf, Option.length_toList] at hlength
      refine List.length_eq_zero_iff.mp ?_
      split at hlength <;> omega
    exact ⟨first, rest, rfl, hpattern, (stripOf_eq_nil rest).mp hrest⟩

/-- The text of a pattern ends with the pattern or a capture. -/
theorem settles_of_writes {items : List Item} {item : Option Item} (h : Writes items item)
    (hne : items ≠ []) (settled : Bool) : settles settled items = true := by
  obtain ⟨first, tags, rfl, hpattern, htags⟩ := exists_pattern_of_writes h hne
  rw [settles, hpattern, Bool.true_or]
  exact (tidy_tags htags).2

/-- Captures and predicates behind the text of a pattern. -/
theorem tidy_append_tags {items tags : List Item} {item : Option Item} (h : Writes items item)
    (hne : items ≠ []) (htags : stripOf tags = []) (settled : Bool) :
    Tidy settled (items ++ tags) := by
  rw [tidy_append, settles_of_writes h hne]
  exact ⟨h.tidy settled, (tidy_tags ((stripOf_eq_nil tags).mp htags)).1⟩

/-- The parentheses around a statement or a whole query. -/
theorem tidy_group {items tags : List Item} {item : Option Item} (h : Writes items item)
    (htags : stripOf tags = []) : Tidy false [.group (items ++ tags)] := by
  refine ⟨(absurd · Bool.false_ne_true), ?_, trivial⟩
  by_cases hne : items = []
  · exact .inr (by rw [hne, List.nil_append, htags])
  · exact .inl (tidy_append_tags h hne htags false)

section Leaves

variable {source : String}

/-- The text for a name holds no captures. -/
theorem strip_identifierItem (kind pattern parent : String) :
    Item.strip (identifierItem kind pattern parent) = [identifierItem kind pattern parent] := by
  unfold identifierItem
  split_ifs <;> rfl

/-- The text for a name is a pattern. -/
theorem isPattern_identifierItem (kind pattern parent : String) :
    Item.isPattern (identifierItem kind pattern parent) = true := by
  unfold identifierItem
  split_ifs <;> rfl

/-- The text for a name is tidy. -/
theorem tidy_identifierItem (kind pattern parent : String) :
    Item.Tidy (identifierItem kind pattern parent) := by
  unfold identifierItem
  split_ifs <;> simp [Item.Tidy, Tidy, Item.isTag]

/-- Names. -/
theorem outlining_buildIdentifier (node : Node) (parent : String) :
    Outlining source (buildIdentifier node parent) (identifierOutline source node parent) := by
  intro builder hsource
  subst hsource
  refine ensures_imp (steps_buildIdentifier node parent) ?_
  intro items next hstep
  have hname : ∀ name, Writes
      [identifierItem node.kind (slice builder.querySource node.range) parent, captureItem name]
      (some (identifierItem node.kind (slice builder.querySource node.range) parent)) :=
    writes_captured _ (strip_identifierItem _ _ _) (isPattern_identifierItem _ _ _)
      (tidy_identifierItem _ _ _)
  unfold identifierOutline
  dsimp only
  cases hstep with
  | anything htext =>
    rw [if_pos htext]
    exact ⟨grows_refl _, writes_plain rfl rfl (by simp [Tidy, Item.Tidy, Item.isTag])⟩
  | held htext hvariable =>
    rw [if_neg htext, if_pos hvariable]
    exact ⟨grows_push_leaf builder (.variable _ _) rfl, hname _⟩
  | constant htext hconstant =>
    rw [if_neg htext, hconstant, if_neg Bool.false_ne_true]
    exact ⟨grows_push_leaf builder (.check _) rfl, hname _⟩

/-- Numbers. -/
theorem outlining_buildNumber (node : Node) :
    Outlining source (buildNumber node) (numberOutline source node) := by
  intro builder hsource
  subst hsource
  refine ensures_imp (steps_buildNumber node) ?_
  intro items next hstep
  unfold numberOutline
  dsimp only
  cases hstep with
  | value hvalue =>
    rw [hvalue]
    exact ⟨grows_push_leaf builder (.number _) rfl, writes_leaf _ _⟩
  | text hvalue =>
    rw [hvalue]
    exact ⟨grows_push_leaf builder (.check _) rfl, writes_leaf _ _⟩

/-- Strings that stand for a variable. -/
theorem outlining_buildString (node : Node) :
    OutliningOption source (buildString node)
      (if isVariableString source node then some (.pattern (.node "string_literal" []))
        else none) := by
  intro builder hsource
  subst hsource
  refine ensures_imp (steps_buildString trivial node) ?_
  intro items next hstep
  cases hstep with
  | held htext hvariable =>
    rw [isVariableString, htext, Option.any_some, hvariable, if_pos rfl]
    exact ⟨grows_push_leaf builder (.variable _ _) rfl, writes_leaf _ _⟩
  | other htext hconstant =>
    rw [isVariableString, htext, Option.any_some, hconstant, if_neg Bool.false_ne_true]
    exact rfl

end Leaves

section Recursive

variable {source : String} {build : BuildFn} {queryTree : TreeFn} {outline : OutlineFn}
  {node : Node}

/-- A call writes the outline of its node. -/
theorem writes_run (hbuild : BuildOutline source build outline) {up : Option Node} {child : Node}
    {depth : ℕ} {strict : Bool} {parent : String} {builder next : QueryBuilder} {items : List Item}
    (hrun : build up child depth strict parent builder = .ok (items, next))
    (hsource : builder.querySource = source) :
    Grows builder (outline up child depth strict parent).checks
        (outline up child depth strict parent).opened next ∧
      Writes items (outline up child depth strict parent).item :=
  (ensures_ok (hbuild.writes up child depth strict parent builder hsource) hrun :)

/-- A query is written as outlined, and the builder stays. -/
theorem outlined_run (htree : TreeOutline source queryTree outline) {up : Option Node}
    {inner : Node} {id : ℕ} {multiPattern strict : Bool} {builder next : QueryBuilder}
    {tree : QueryTree}
    (hrun : queryTree up inner id multiPattern strict builder = .ok (tree, next))
    (hsource : builder.querySource = source) :
    next = builder ∧ (tree.trees.map outlinedOf).Perm
      (treeOutline outline up inner multiPattern strict (decide (id = 0))) ∧
      ∀ t ∈ tree.trees, TidyTree t :=
  (ensures_ok (htree up inner id multiPattern strict builder hsource) hrun :)

/-- The capture of a query adds what is opened by the query. -/
theorem grows_open (builder : QueryBuilder) {capture : Capture} {tree : QueryTree}
    {opened : List Outlined} (htext : Capture.text? capture = none)
    (htree : capture.tree? = some tree) (houtlined : (tree.trees.map outlinedOf).Perm opened)
    (htidy : ∀ t ∈ tree.trees, TidyTree t) :
    Grows builder [] opened ({ builder with id := builder.id + 1 }.push capture) := by
  have hpush := grows_push { builder with id := builder.id + 1 } capture
  rw [htext, htree, Option.toList_some, List.flatMap_singleton] at hpush
  exact grows_id (grows_perm (hpush htidy) houtlined)

/-- An expression in both orders. -/
theorem outlining_buildBinary (hbuild : BuildOutline source build outline) (depth : ℕ)
    (strict : Bool) :
    Outlining source (buildBinary build node depth strict)
      (binaryOutline outline node depth strict) := by
  intro builder hsource
  refine ensures_imp (steps_buildBinary (allowsParts build node)) ?_
  rintro _ _ ⟨hfirst, hleftRun, hop, hsecond, hrightRun⟩
  obtain ⟨hleft, hleftItems⟩ := writes_run hbuild hleftRun hsource
  obtain ⟨hright, hrightItems⟩ := writes_run hbuild hrightRun (hleft.querySource.trans hsource)
  rw [binaryOutline, hfirst, hop, hsecond]
  refine ⟨grows_trans hleft hright, writes_plain rfl ?_ ?_⟩
  · simp [stripOf, Item.strip, hleftItems.strip, hrightItems.strip, childOutline]
  · simp [Tidy, Item.Tidy, Item.isTag, tidy_append, hleftItems.tidy, hrightItems.tidy]

/-- The labels `not:` and `strict:`. -/
theorem outlining_buildLabeled (hbuild : BuildOutline source build outline)
    (htree : TreeOutline source queryTree outline) (depth : ℕ) :
    OutliningOption source (buildLabeled build queryTree node depth)
      (labeledOutline source outline node depth) := by
  intro builder hsource
  refine ensures_imp (steps_buildLabeled (allowsParts build node)
    (allowsQueries queryTree node)) ?_
  intro items next hstep
  subst hsource
  cases hstep with
  | @negative _ tree _ hlabel hnegated hrun =>
    obtain ⟨rfl, houtlined, htidy⟩ := outlined_run htree hrun rfl
    rw [labeledOutline, if_pos hlabel, hnegated, Option.toList_some, List.flatMap_singleton]
    exact ⟨grows_perm (grows_negate builder tree htidy) houtlined, writes_nothing⟩
  | passed hlabel hchild hrun =>
    rw [labeledOutline, if_neg (by rw [hlabel]; decide), if_pos hlabel, hchild]
    exact writes_run hbuild hrun rfl
  | empty hlabel hchild =>
    rw [labeledOutline, if_neg (by rw [hlabel]; decide), if_pos hlabel, hchild]
    exact ⟨grows_refl _, writes_nothing⟩
  | other hlabel hnot hstrict =>
    rw [labeledOutline, hlabel, if_neg (by simpa using hnot), if_neg (by simpa using hstrict)]
    exact rfl

/-- Blocks. -/
theorem outlining_buildCompound (htree : TreeOutline source queryTree outline)
    (up : Option Node) :
    Outlining source (buildCompound queryTree up node) (compoundOutline outline up node) := by
  intro builder hsource
  refine ensures_imp (steps_buildCompound (allowsQueries queryTree node)) ?_
  rintro _ _ ⟨hrun⟩
  obtain ⟨rfl, houtlined, htidy⟩ := outlined_run htree hrun hsource
  exact ⟨grows_open builder rfl rfl houtlined htidy, writes_leaf _ _⟩

/-- A right side without its captures. -/
theorem stripOf_optionalCast (items : List Item) :
    stripOf (optionalCast items) = optionalCast (stripOf items) := by
  simp [optionalCast, stripOf, Item.strip]

/-- A right side with or without a cast is tidy. -/
theorem tidy_optionalCast {items : List Item} (h : ∀ settled, Tidy settled items)
    (settled : Bool) : Tidy settled (optionalCast items) := by
  simp [optionalCast, Tidy, Item.Tidy, Item.isTag, h]

/-- Assignments. -/
theorem outlining_buildAssignment (hbuild : BuildOutline source build outline) (depth : ℕ)
    (strict : Bool) :
    Outlining source (buildAssignment build node depth strict)
      (assignmentOutline outline node depth strict) := by
  intro builder hsource
  refine ensures_imp (steps_buildAssignment (allowsParts build node)) ?_
  intro items next hstep
  unfold assignmentOutline
  dsimp only
  cases hstep with
  | other hfirst hleftRun hop hother hoperatorRun hsecond hrightRun =>
    obtain ⟨hleft, hleftItems⟩ := writes_run hbuild hleftRun hsource
    have hmiddle := hleft.querySource.trans hsource
    obtain ⟨hoperator, hoperatorItems⟩ := writes_run hbuild hoperatorRun hmiddle
    obtain ⟨hright, hrightItems⟩ := writes_run hbuild hrightRun
      (hoperator.querySource.trans hmiddle)
    rw [if_neg (not_isPlain hfirst hop hother), hfirst, hop, hsecond]
    refine ⟨grows_trans (grows_trans hleft hoperator) hright, writes_plain rfl ?_ ?_⟩
    · simp [stripOf, Item.strip, stripOf_optionalCast, hleftItems.strip, hoperatorItems.strip,
        hrightItems.strip, childOutline]
    · simp [Tidy, Item.Tidy, Item.isTag, tidy_append, hleftItems.tidy, hoperatorItems.tidy,
        tidy_optionalCast hrightItems.tidy]
  | plain hfirst hleftRun hop hplain hsecond hrightRun =>
    obtain ⟨hleft, hleftItems⟩ := writes_run hbuild hleftRun hsource
    obtain ⟨hright, hrightItems⟩ := writes_run hbuild hrightRun (hleft.querySource.trans hsource)
    rw [if_pos (isPlain hfirst hop hplain), hfirst, hsecond]
    refine ⟨grows_trans hleft hright, writes_plain rfl ?_ ?_⟩
    · simp [stripOf, Item.strip, stripOf_optionalCast, hleftItems.strip, hrightItems.strip,
        childOutline]
    · simp [Tidy, Item.Tidy, Item.isTag, tidy_append, hleftItems.tidy,
        tidy_optionalCast hrightItems.tidy]

/-- The name of a function without its captures. -/
theorem stripOf_functionItems (strict : Bool) (name : String) :
    stripOf (functionItems strict name) = functionOutline strict := by
  cases strict <;> rfl

/-- The name of a function is tidy. -/
theorem tidy_functionItems (strict : Bool) (name : String) :
    Tidy false (functionItems strict name) := by
  cases strict <;>
    simp [functionItems, captureItem, Tidy, Item.Tidy, Item.isTag, Item.isPattern]

/-- Calls. -/
theorem outlining_buildCallExpr (hbuild : BuildOutline source build outline)
    (htree : TreeOutline source queryTree outline) (depth : ℕ) (strict : Bool) :
    OutliningOption source (buildCallExpr build queryTree node depth strict node.kind)
      (callOutline source outline node depth strict) := by
  intro builder hsource
  refine ensures_imp (steps_buildCallExpr (allowsParts build node)
    (allowsQueries queryTree node)) ?_
  intro items next hstep
  subst hsource
  cases hstep with
  | wrapped hwildcard harguments hcursor hfew hdepth hrun =>
    simp only [callOutline, wildcardOutline, hwildcard, harguments, hcursor, if_pos, if_neg hfew,
      if_pos hdepth]
    exact writes_run hbuild hrun rfl
  | within hwildcard harguments hcursor hfew hdepth hrun =>
    simp only [callOutline, wildcardOutline, hwildcard, harguments, hcursor, if_pos, if_neg hfew,
      if_neg hdepth]
    obtain ⟨rfl, houtlined, htidy⟩ := outlined_run htree hrun rfl
    exact ⟨grows_open builder rfl rfl houtlined htidy, writes_captured .wildcard rfl rfl trivial _⟩
  | several hwildcard harguments hcursor hmany =>
    simp only [callOutline, wildcardOutline, hwildcard, harguments, hcursor, if_pos, if_pos hmany]
    exact rfl
  | @named function _ _ _ hwildcard hfunction harguments hname hrun =>
    rw [callOutline, if_neg hwildcard, hfunction, harguments]
    simp only [hname, if_true]
    obtain ⟨hitems, hwrites⟩ := writes_run hbuild hrun rfl
    refine ⟨grows_trans (grows_push_leaf builder
      (.check (slice builder.querySource function.range)) rfl) hitems, writes_plain rfl ?_ ?_⟩
    · simp [stripOf, Item.strip, stripOf_functionItems, hwrites.strip, childOutline]
    · simp [Tidy, Item.Tidy, Item.isTag, Item.isPattern, tidy_append, hwrites.tidy,
        tidy_functionItems]
  | nameless hwildcard hfunction _ hname =>
    rw [callOutline, if_neg hwildcard, hfunction]
    simp only [if_neg hname]
    exact rfl

/-- Expression statements that are replaced by their expressions. -/
theorem outlining_buildExpressionStatement (hbuild : BuildOutline source build outline)
    (up : Option Node) (depth : ℕ) (strict : Bool) :
    OutliningOption source (buildExpressionStatement build up node depth strict)
      (if isUnwrapped source up node strict then
        some (childOutline outline node (node.child 0) depth strict node.kind) else none) := by
  intro builder hsource
  refine ensures_imp (steps_buildExpressionStatement (allowsParts build node)) ?_
  intro items next hstep
  subst hsource
  cases hstep with
  | replaced hunwrapped hfirst hrun =>
    rw [hunwrapped, if_pos rfl, hfirst]
    exact writes_run hbuild hrun rfl
  | kept hunwrapped =>
    rw [hunwrapped, if_neg Bool.false_ne_true]
    exact rfl

/-- A rule that always applies. -/
theorem outlining_some {x : BuildM (List Item)} {o : Outline} (h : Outlining source x o) :
    OutliningOption source (some <$> x) (some o) := by
  intro builder hsource
  exact ensures_map (h builder hsource)

/-- A rule that does not apply. -/
theorem outlining_none : OutliningOption source (pure none) none := fun _ _ => rfl

/-- The rules are chosen by the same test on both sides. -/
theorem outlining_ite {test : Prop} [Decidable test] {x y : BuildM (Option (List Item))}
    {o o' : Option Outline} (hx : OutliningOption source x o) (hy : OutliningOption source y o') :
    OutliningOption source (if test then x else y) (if test then o else o') := by
  by_cases htest : test
  · rw [if_pos htest, if_pos htest]
    exact hx
  · rw [if_neg htest, if_neg htest]
    exact hy

/-- The rules for single kinds. -/
theorem outlining_buildSpecial (hbuild : BuildOutline source build outline)
    (htree : TreeOutline source queryTree outline) (up : Option Node) (depth : ℕ) (strict : Bool)
    (parent : String) :
    OutliningOption source (buildSpecial build queryTree up node depth strict parent)
      (specialOutline source outline up node depth strict parent) := by
  unfold buildSpecial specialOutline
  refine outlining_ite ?_ (outlining_ite ?_ (outlining_ite ?_ (outlining_ite ?_ (outlining_ite ?_
    (outlining_ite ?_ (outlining_ite ?_ (outlining_ite ?_ (outlining_ite ?_ outlining_none))))))))
  · exact outlining_ite (outlining_some (outlining_buildBinary hbuild depth strict)) outlining_none
  · exact outlining_buildLabeled hbuild htree depth
  · exact outlining_ite (outlining_some (outlining_buildCompound htree up)) outlining_none
  · exact outlining_some (outlining_buildIdentifier node parent)
  · exact outlining_some (outlining_buildAssignment hbuild depth strict)
  · exact outlining_buildCallExpr hbuild htree depth strict
  · exact outlining_buildExpressionStatement hbuild up depth strict
  · exact outlining_some (outlining_buildNumber node)
  · exact outlining_buildString node

/-- One round of the default loop. -/
theorem outlined_child (hbuild : BuildOutline source build outline) {depth : ℕ} {strict : Bool}
    {child : Node} {builder next : QueryBuilder} {items : List Item}
    (hsource : builder.querySource = source)
    (hstep : ChildStep build node depth strict builder (isAnchored source node) child items next) :
    Grows builder (memberOutline source outline node depth strict child).checks
        (memberOutline source outline node depth strict child).opened next ∧
      stripOf items =
        memberItems source node child (memberOutline source outline node depth strict child).item ∧
      ∀ settled, Tidy settled items := by
  subst hsource
  unfold memberItems memberOutline
  cases hstep with
  | field hfield hrun =>
    obtain ⟨hgrows, hwrites⟩ := writes_run hbuild hrun rfl
    have hkept : isSkipped builder.querySource node child = false := by
      rw [isSkipped, hfield, Option.isNone_some, Bool.false_and, Bool.false_and]
    rw [hkept, if_neg Bool.false_ne_true, hfield, Option.getD_some]
    refine ⟨hgrows, ?_⟩
    dsimp only
    split_ifs
    · refine ⟨?_, fun settled => ?_⟩
      · simp [stripOf, Item.strip, hwrites.strip]
      · simp [Tidy, Item.Tidy, Item.isTag, hwrites.tidy]
    · refine ⟨?_, fun settled => ?_⟩
      · rw [stripOf, Item.strip, hwrites.strip]
        rfl
      · simp [Tidy, Item.Tidy, Item.isTag, hwrites.tidy]
  | skipped hfield hnamed hskipped =>
    rw [hskipped, if_pos rfl, hfield]
    simp only [hnamed, if_true]
    exact ⟨grows_refl _, rfl, fun _ => trivial⟩
  | named hfield hnamed hskipped hrun =>
    obtain ⟨hgrows, hwrites⟩ := writes_run hbuild hrun rfl
    rw [hskipped, if_neg Bool.false_ne_true, hfield, Option.getD_none]
    simp only [hnamed, if_true, Bool.false_eq_true, if_false]
    refine ⟨hgrows, ?_⟩
    split_ifs
    · refine ⟨?_, fun settled => ?_⟩
      · rw [stripOf, Item.strip, hwrites.strip]
        rfl
      · simp [Tidy, Item.Tidy, Item.isTag, hwrites.tidy]
    · exact ⟨hwrites.strip, hwrites.tidy⟩
  | keyword hfield htoken hkeyword hrun =>
    obtain ⟨hgrows, hwrites⟩ := writes_run hbuild hrun rfl
    have hne := hbuild.written _ _ _ _ _ _ _ _ rfl (.inl htoken) hrun
    rw [not_isSkipped htoken, if_neg Bool.false_ne_true, hfield, Option.getD_none]
    simp only [htoken, hkeyword, Bool.false_eq_true, if_false, if_true]
    refine ⟨grows_leaf hgrows rfl rfl, ?_, fun settled => ?_⟩
    · rw [stripOf_append, hwrites.strip, captureItem, stripOf, Item.strip, stripOf]
      exact List.append_nil _
    · exact tidy_append_tags hwrites hne rfl settled
  | silent hfield htoken hkeyword hrun =>
    obtain ⟨hgrows, hwrites⟩ := writes_run hbuild hrun rfl
    rw [not_isSkipped htoken, if_neg Bool.false_ne_true, hfield, Option.getD_none]
    simp only [htoken, hkeyword, Bool.false_eq_true, if_false]
    exact ⟨hgrows, rfl, fun _ => trivial⟩

/-- The default loop. -/
theorem outlined_children (hbuild : BuildOutline source build outline) {depth : ℕ} {strict : Bool}
    {children : List Node} {builder next : QueryBuilder} {items : List Item}
    (hstep : ChildrenStep build node depth strict (isAnchored source node) builder children items
      next) (hsource : builder.querySource = source) :
    Grows builder
        (children.flatMap fun child =>
          (memberOutline source outline node depth strict child).checks)
        (children.flatMap fun child =>
          (memberOutline source outline node depth strict child).opened)
        next ∧
      stripOf items = (children.flatMap fun child =>
        memberItems source node child
          (memberOutline source outline node depth strict child).item) ∧
      ∀ settled, Tidy settled items := by
  induction hstep with
  | nil builder => exact ⟨grows_refl builder, rfl, fun _ => trivial⟩
  | cons hchild _ ih =>
    obtain ⟨hfirst, hitems, htidy⟩ := outlined_child hbuild hsource hchild
    obtain ⟨hsecond, hrest, htidyRest⟩ := ih (hfirst.querySource.trans hsource)
    rw [List.flatMap_cons, List.flatMap_cons, List.flatMap_cons]
    refine ⟨grows_trans hfirst hsecond, ?_, fun settled => ?_⟩
    · rw [stripOf_append, hitems, hrest]
    · exact (tidy_append _ _ _).mpr ⟨htidy settled, htidyRest _⟩

/-- Nodes without a rule of their own. -/
theorem outlining_buildDefault (hbuild : BuildOutline source build outline) (depth : ℕ)
    (strict : Bool) :
    Outlining source (buildDefault build node depth strict)
      (defaultOutline source outline node depth strict) := by
  intro builder hsource
  refine ensures_imp (steps_buildDefault (allowsParts build node)) ?_
  intro items next hstep
  subst hsource
  unfold defaultOutline
  cases hstep with
  | leaf hempty =>
    simp only [hempty, List.flatMap_nil]
    exact ⟨grows_refl _, writes_plain rfl rfl (by simp [Tidy, Item.Tidy, Item.isTag])⟩
  | counted _ _ hchildren =>
    obtain ⟨hgrows, hitems, htidy⟩ := outlined_children hbuild hchildren rfl
    refine ⟨grows_leaf hgrows rfl rfl, writes_plain rfl ?_ ?_⟩
    · simp [stripOf, Item.strip, captureItem, hitems]
    · simp [captureItem, Tidy, Item.Tidy, Item.isTag, Item.isPattern, htidy]
  | copied _ hchildren =>
    obtain ⟨hgrows, hitems, htidy⟩ := outlined_children hbuild hchildren rfl
    refine ⟨hgrows, writes_plain rfl ?_ ?_⟩
    · simp [stripOf, Item.strip, hitems]
    · simp [Tidy, Item.Tidy, Item.isTag, htidy]

/-- Any node, when its parts have their outlines. -/
theorem outlining_buildBody (hbuild : BuildOutline source build outline)
    (htree : TreeOutline source queryTree outline) (up : Option Node) (depth : ℕ) (strict : Bool)
    (parent : String) :
    Outlining source (buildBody build queryTree up node depth strict parent)
      (outlineBody source outline up node depth strict parent) := by
  intro builder hsource
  unfold buildBody outlineBody
  split_ifs
  · exact ⟨grows_refl _, writes_plain rfl rfl (by simp [Tidy, Item.Tidy, Item.isTag])⟩
  · refine ensures_bind (outlining_buildSpecial hbuild htree up depth strict parent _ hsource) ?_
    intro items next hwritten
    cases hspecial : specialOutline source outline up node depth strict parent with
    | none =>
      rw [hspecial] at hwritten
      cases items with
      | some items => cases hwritten
      | none =>
        cases hwritten
        exact outlining_buildDefault hbuild depth strict _ hsource
    | some o =>
      rw [hspecial] at hwritten
      cases items with
      | none => cases hwritten
      | some items => exact hwritten

end Recursive

section Trees

variable {source : String} {build : BuildFn} {outline : OutlineFn}

/-- Predicates leave no trace in the outline. -/
theorem stripOf_processCaptures (captures : List Capture) (offset : ℕ) :
    stripOf (processCaptures captures offset).1 = [] := by
  have htags : ∀ items : List Item, (∀ item ∈ items, ∃ tag, item = .tag tag) →
      stripOf items = [] := by
    intro items hitems
    induction items with
    | nil => rfl
    | cons item items ih =>
      obtain ⟨tag, rfl⟩ := hitems item List.mem_cons_self
      rw [stripOf, Item.strip, ih fun i hi => hitems i (List.mem_cons_of_mem _ hi)]
      rfl
  refine htags _ ?_
  intro item hitem
  rcases List.mem_append.mp hitem with hcheck | hstar
  · obtain ⟨entry, -, hentry⟩ := List.mem_filterMap.mp hcheck
    unfold checkPredicate at hentry
    split at hentry
    · exact ⟨_, (Option.some.inj hentry).symm⟩
    · cases hentry
  · obtain ⟨name, -, hpredicate⟩ := List.mem_flatMap.mp hstar
    unfold starPredicates at hpredicate
    split at hpredicate
    · cases hpredicate
    · obtain ⟨i, -, rfl⟩ := List.mem_map.mp hpredicate
      exact ⟨_, rfl⟩

/-- What is left of a built text is the outline of its query. -/
def TextOutline (start : QueryBuilder) (outlined : List Outlined) (built : BuiltText) : Prop :=
  ∃ checks opened, outlined = ⟨built.text.map stripOf, checks⟩ :: opened ∧
    Grows start checks opened built.builder ∧ ∀ pattern ∈ built.text, Tidy false pattern

/-- The outline of a query with one pattern. -/
theorem outlined_buildSinglePattern (hbuild : BuildOutline source build outline)
    (up : Option Node) (node : Node) (strict : Bool) {start : QueryBuilder}
    (hsource : start.querySource = source) :
    Outcome (fun _ => True) (buildSinglePattern build up node strict start)
      (TextOutline start
        (if node.kind = "compound_statement" ∧ decide (start.id = 0) = true then
          ⟨[[.node "function_definition" (.fieldName "body" ::
            (outline up node 0 strict node.kind).item.toList)]],
            (outline up node 0 strict node.kind).checks⟩ ::
            (outline up node 0 strict node.kind).opened
        else ⟨[[.group (outline up node 0 strict node.kind).item.toList]],
          (outline up node 0 strict node.kind).checks⟩ ::
            (outline up node 0 strict node.kind).opened)) := by
  unfold buildSinglePattern
  have hwritten := hbuild.written up node 0 strict node.kind start
  refine outcome_bind (ensures_run (hbuild.writes up node 0 strict node.kind start hsource)) ?_
  rintro ⟨items, builder⟩ ⟨hrun, hgrows, hwrites⟩
  have hfinal : Grows start (outline up node 0 strict node.kind).checks
      (outline up node 0 strict node.kind).opened (builder.push .display) :=
    grows_leaf hgrows rfl rfl
  simp only [decide_eq_true_eq]
  split_ifs with hroot
  · have hne := hwritten items builder hsource (.inr hroot.1) hrun
    have htidy := tidy_append_tags hwrites hne (stripOf_processCaptures builder.captures 0) false
    refine ⟨_, _, ?_, hfinal, List.forall_mem_singleton.mpr ?_⟩
    · simp [stripOf, Item.strip, captureItem, hwrites.strip, stripOf_processCaptures]
    · simp [captureItem, Tidy, Item.Tidy, Item.isTag, Item.isPattern, htidy]
  · refine ⟨_, _, ?_, hfinal, List.forall_mem_singleton.mpr ?_⟩
    · simp [stripOf, Item.strip, captureItem, hwrites.strip, stripOf_processCaptures]
    · rw [List.append_assoc]
      refine tidy_group hwrites ?_
      rw [stripOf_append, stripOf_processCaptures]
      rfl

/-- A statement becomes a root pattern unless nothing is written for it. -/
theorem map_strip_statement {items predicates : List Item} {item : Option Item}
    (hwrites : Writes items item) (hpredicates : stripOf predicates = [])
    (rest : List (List Item)) :
    (if items.isEmpty then rest else [.group (items ++ predicates)] :: rest).map stripOf =
      (item.map fun i => [Item.group [i]]).toList ++ rest.map stripOf := by
  have hstrip := hwrites.strip
  cases item with
  | none =>
    rw [hwrites.empty rfl]
    rfl
  | some item =>
    have hne : items.isEmpty = false := by
      cases items with
      | nil => cases hstrip
      | cons first rest => rfl
    rw [hne, if_neg Bool.false_ne_true, List.map_cons]
    simp [stripOf, Item.strip, hstrip, hpredicates]

/-- The outline of a query for the statements of a block. -/
theorem outlined_buildPatterns (hbuild : BuildOutline source build outline) (node : Node)
    (strict : Bool) (children : List Node) {start : QueryBuilder}
    (hsource : start.querySource = source) :
    Outcome (fun _ => True) (buildPatterns build node strict children start)
      (TextOutline start
        (⟨(children.map fun child => outline (some node) child 0 strict node.kind).filterMap
            fun o => o.item.map fun item => [.group [item]],
          (children.map fun child => outline (some node) child 0 strict node.kind).flatMap
            Outline.checks⟩ ::
          (children.map fun child => outline (some node) child 0 strict node.kind).flatMap
            Outline.opened)) := by
  induction children generalizing start with
  | nil => exact ⟨[], [], rfl, grows_refl start, List.forall_mem_nil _⟩
  | cons child children ih =>
    rw [buildPatterns]
    refine outcome_bind (hbuild.writes (some node) child 0 strict node.kind start hsource) ?_
    rintro ⟨items, next⟩ ⟨hgrows, hwrites⟩
    refine outcome_bind (ih (hgrows.querySource.trans hsource)) ?_
    rintro rest ⟨checks, opened, houtlined, hrest, htidy⟩
    have hparts : _ ∧ _ := List.cons.inj houtlined
    obtain ⟨htext, hchecks⟩ := Outlined.mk.inj hparts.1
    have hstatement := map_strip_statement hwrites
      (stripOf_processCaptures next.captures start.captures.length) rest.text
    refine ⟨_, _, ?_, grows_trans hgrows hrest, ?_⟩
    swap
    · have hgroup := tidy_group hwrites
        (stripOf_processCaptures next.captures start.captures.length)
      simp only
      split_ifs
      · exact htidy
      · exact List.forall_mem_cons.mpr ⟨hgroup, htidy⟩
    rw [List.map_cons, List.flatMap_cons, List.flatMap_cons, hchecks, hparts.2]
    refine congrArg₂ List.cons (congrArg₂ Outlined.mk ?_ rfl) rfl
    refine Eq.trans ?_ hstatement.symm
    rw [← htext]
    cases hitem : (outline (some node) child 0 strict node.kind).item with
    | none =>
      rw [List.filterMap_cons_none (by rw [hitem, Option.map_none])]
      rfl
    | some item =>
      rw [List.filterMap_cons_some (by rw [hitem, Option.map_some])]
      rfl

/-- `_build_query_tree` writes its query and all queries inside as outlined. -/
theorem outlined_buildTree (hbuild : BuildOutline source build outline) (externals : Externals)
    (up : Option Node) (node : Node) (multiPattern strict : Bool) (id : ℕ)
    (constraints : RegexMap) :
    Outcome (fun _ => True)
      (buildTree build externals up node multiPattern strict (.new source id constraints))
      fun tree => (tree.trees.map outlinedOf).Perm
        (treeOutline outline up node multiPattern strict (decide (id = 0))) ∧
        ∀ t ∈ tree.trees, TidyTree t := by
  have htext : Outcome (fun _ => True)
      (buildText build up node multiPattern strict (.new source id constraints))
      (TextOutline (.new source id constraints)
        (treeOutline outline up node multiPattern strict (decide (id = 0)))) := by
    unfold buildText treeOutline
    rcases skipTranslationUnit up node with ⟨up', node'⟩
    simp only
    cases multiPattern with
    | true =>
      simp only [if_true]
      split_ifs
      · exact outlined_buildPatterns hbuild node' strict _ rfl
      · exact trivial
    | false =>
      simp only [Bool.false_eq_true, if_false]
      exact outlined_buildSinglePattern hbuild up' node' strict rfl
  unfold buildTree
  refine outcome_bind htext ?_
  rintro built ⟨checks, opened, houtlined, hgrows, htidy⟩
  rw [houtlined]
  unfold tsQuery
  cases externals.queryError built.text with
  | some message => exact trivial
  | none =>
    have htrees : (treeOf id built).trees =
        treeOf id built :: (held built.builder).flatMap QueryTree.trees := by
      rw [trees_eq, held, List.flatMap_append]
      rfl
    have hchecks : built.builder.captures.filterMap Capture.text? = checks := hgrows.checks
    have hopened : (heldOutlined built.builder).Perm opened := hgrows.opened
    have hheld : HeldTidy built.builder := hgrows.tidy (List.forall_mem_nil _)
    change ((treeOf id built).trees.map outlinedOf).Perm _ ∧
      ∀ t ∈ (treeOf id built).trees, TidyTree t
    rw [htrees, List.map_cons]
    have hroot : outlinedOf (treeOf id built) = ⟨built.text.map stripOf, checks⟩ := by
      rw [← hchecks]
      rfl
    rw [hroot]
    exact ⟨hopened.cons _, List.forall_mem_cons.mpr ⟨htidy, hheld⟩⟩

end Trees

/-- Tokens and blocks have a pattern. -/
theorem item_outlineBody {source : String} (outline : OutlineFn) (up : Option Node) {node : Node}
    (depth : ℕ) (strict : Bool) (parent : String)
    (h : node.isNamed = false ∨ node.kind = "compound_statement") :
    (outlineBody source outline up node depth strict parent).item ≠ none := by
  unfold outlineBody
  split_ifs with hnamed
  · exact Option.some_ne_none _
  · have hkind : node.kind = "compound_statement" := h.resolve_left (by simpa using hnamed)
    rw [specialOutline, if_neg (by rw [hkind]; decide), if_neg (by rw [hkind]; decide),
      if_pos hkind]
    split_ifs
    · exact Option.some_ne_none _
    · exact Option.some_ne_none _

section Items

variable {source : String} {outline : OutlineFn} {up : Option Node} {node : Node} {depth : ℕ}
  {strict : Bool} {parent : String}

/-- A name always writes a pattern. -/
theorem item_identifierOutline (source : String) (node : Node) (parent : String) :
    (identifierOutline source node parent).item ≠ none := by
  unfold identifierOutline
  dsimp only
  split_ifs
  · exact Option.some_ne_none _
  · exact Option.some_ne_none _
  · exact Option.some_ne_none _

/-- An assignment always writes a pattern. -/
theorem item_assignmentOutline (outline : OutlineFn) (node : Node) (depth : ℕ) (strict : Bool) :
    (assignmentOutline outline node depth strict).item ≠ none := by
  unfold assignmentOutline
  dsimp only
  split_ifs
  · exact Option.some_ne_none _
  · exact Option.some_ne_none _

/-- Below the root a call always writes a pattern. -/
theorem item_callOutline (hdepth : depth ≠ 0) {o : Outline}
    (h : callOutline source outline node depth strict = some o) : o.item ≠ none := by
  unfold callOutline at h
  split_ifs at h
  · unfold wildcardOutline at h
    split at h
    · cases h
    · dsimp only at h
      split_ifs at h
      cases h
      exact Option.some_ne_none _
  · split at h
    · cases h
    · split_ifs at h
      cases h
      exact Option.some_ne_none _

/-- Something is written for an expression below another node. -/
theorem item_outlineBody_below (hdepth : depth ≠ 0) (hlabeled : node.kind ≠ "labeled_statement")
    (hkept : node.kind = "expression_statement" → isUnwrapped source up node strict = false) :
    (outlineBody source outline up node depth strict parent).item ≠ none := by
  unfold outlineBody
  split_ifs
  · exact Option.some_ne_none _
  · cases hfound : specialOutline source outline up node depth strict parent with
    | none => exact Option.some_ne_none _
    | some o =>
      cases specialRule_of_specialOutline hfound with
      | labeled hkind _ => exact absurd hkind hlabeled
      | identifier _ => exact item_identifierOutline source node parent
      | assignment => exact item_assignmentOutline outline node depth strict
      | call hcall => exact item_callOutline hdepth hcall
      | statement hkind hunwrapped =>
        rw [hkept hkind] at hunwrapped
        cases hunwrapped
      | binary => exact Option.some_ne_none _
      | compound => exact Option.some_ne_none _
      | number => exact Option.some_ne_none _
      | string => exact Option.some_ne_none _

end Items

/-- At every height the builder writes the outline. -/
theorem buildOutline_buildFuel (externals : Externals) (source : String) (fuel : ℕ) :
    BuildOutline source (buildFuel externals fuel) (outlineFuel source fuel) := by
  induction fuel with
  | zero =>
    refine ⟨fun _ _ _ _ _ _ _ => trivial, ?_⟩
    intro up node depth strict parent builder items next hsource hkind hrun
    cases hrun
  | succ fuel ih =>
    have hwrites : ∀ up node depth strict parent, Outlining source
        (buildFuel externals (fuel + 1) up node depth strict parent)
        (outlineFuel source (fuel + 1) up node depth strict parent) := by
      intro up node depth strict parent
      refine outlining_buildBody ih ?_ up depth strict parent
      intro up node id multiPattern strict builder hsource
      unfold nestedTree Ensures
      simp only [hsource]
      refine outcome_bind
        (outlined_buildTree ih externals up node multiPattern strict id builder.regexConstraints) ?_
      intro tree houtlined
      exact ⟨rfl, houtlined⟩
    refine ⟨hwrites, ?_⟩
    intro up node depth strict parent builder items next hsource hkind hrun hempty
    have hwritten := outcome_ok (hwrites up node depth strict parent builder hsource) hrun
    have hstrip : stripOf items = _ := hwritten.2.strip
    rw [hempty] at hstrip
    exact item_outlineBody _ up depth strict parent hkind (Option.toList_eq_nil_iff.mp hstrip.symm)

/-- The queries of a tree made by `build_query_tree` are written as the
outline of the search pattern says, with captures behind patterns only. -/
theorem outlined_buildQueryTree {externals : Externals} {source : String} {up : Option Node}
    {root : Node} {constraints : RegexMap} {tree : QueryTree}
    (hbuild : buildQueryTree externals source up root constraints = .ok tree) :
    (tree.trees.map outlinedOf).Perm (patternOutline source up root) ∧
      ∀ t ∈ tree.trees, TidyTree t := by
  have houtcome := outlined_buildTree (buildOutline_buildFuel externals source root.height)
    externals up root false false 0 constraints
  have houtlined := outcome_ok houtcome hbuild
  exact houtlined

end WeggliEnhance.OutlineSpecification
