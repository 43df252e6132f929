import WeggliEnhance.BuilderEmission
import WeggliEnhance.BuilderSteps

/-!
# Specification of the builder

For every construct the builder emits the nesting of its node, and the height
of the pattern is enough fuel. Each rule is read off the steps of one helper
of the source; the recursive calls are specified by hypotheses on the
parameters of the helper.
-/

namespace WeggliEnhance.BuilderSpecification

open SourceText SyntaxTree QueryText ThirdParty QueryTrees PatternBuilder PatternNesting
  NestedCounters FirstOccurrence BuilderEmission BuilderSteps FallibleState

/-- An error of the source, as opposed to a missing bound on the recursion. -/
def Genuine (error : BuildError) : Prop := error ≠ .outOfFuel

variable {externals : Externals} {source : String}

/-- A failed `unwrap` is an error of the source. -/
theorem genuine_panic : Genuine .panic := by
  intro h
  cases h

/-- From every builder over the source, a computation emits its text and the
given queries. -/
def Emitting (externals : Externals) (source : String) (x : BuildM (List Item))
    (shapes : List Shape) : Prop :=
  ∀ builder : QueryBuilder, builder.querySource = source →
    Ensures Genuine x builder fun items next => Emits externals builder (tagsOf items) shapes next

/-- The special cases emit their text and queries, or change nothing. -/
def EmitsOption (externals : Externals) (builder : QueryBuilder) (items : Option (List Item))
    (shapes : Option (List Shape)) (next : QueryBuilder) : Prop :=
  match items, shapes with
  | some items, some shapes => Emits externals builder (tagsOf items) shapes next
  | none, none => next = builder
  | _, _ => False

/-- A computation that may fall through to the default case. -/
def EmittingOption (externals : Externals) (source : String) (x : BuildM (Option (List Item)))
    (shapes : Option (List Shape)) : Prop :=
  ∀ builder : QueryBuilder, builder.querySource = source →
    Ensures Genuine x builder fun items next => EmitsOption externals builder items shapes next

/-- The recursive calls of `build` on nodes up to a height. -/
structure BuildSpec (externals : Externals) (source : String) (fuel : ℕ) (build : BuildFn)
    (nesting : NestingFn) : Prop where
  /-- A call emits the nesting of its node. -/
  emits : ∀ up node depth strict parent, node.height ≤ fuel →
    Emitting externals source (build up node depth strict parent) (nesting up node depth strict)
  /-- Anonymous nodes are copied. -/
  token : ∀ up node depth strict parent, node.height ≤ fuel → node.isNamed = false →
    build up node depth strict parent = pure [.token node.kind]

/-- The calls of `_build_query_tree` for patterns whose parts lie within a
height: for a block only its statements count. -/
def TreeSpec (externals : Externals) (source : String) (fuel : ℕ) (queryTree : TreeFn)
    (nesting : NestingFn) : Prop :=
  ∀ up node id multiPattern strict (builder : QueryBuilder), builder.querySource = source →
    node.height ≤ (if multiPattern then fuel + 1 else fuel) →
    Ensures Genuine (queryTree up node id multiPattern strict) builder fun tree next =>
      next = builder ∧ Finished externals builder.regexConstraints id
        (.node (treeNesting nesting up node multiPattern strict)) tree

section Leaves

variable {builder : QueryBuilder}

/-- Adding a capture that holds no tree. -/
theorem emits_addCapture (items : List Item) (hitems : tagsOf items = []) {capture : Capture}
    (hleaf : capture.tree? = none)
    (hvariable : ∀ name constraint, capture = .variable name constraint →
      constraint = builder.regexConstraints.lookup name) :
    Emits externals builder
      (tagsOf (items ++ [captureItem (toString builder.captures.length)])) []
      (builder.push capture) := by
  rw [tagsOf_append, hitems]
  exact emits_leaf builder capture hleaf hvariable

/-- The text for a name has no tags. -/
theorem tagsOf_identifierItem (kind pattern parent : String) :
    tagsOf [identifierItem kind pattern parent] = [] := by
  unfold identifierItem
  split_ifs <;> rfl

/-- Names are captured but for the wildcard. -/
theorem emitting_buildIdentifier (node : Node) (parent : String) :
    Emitting externals source (buildIdentifier node parent) [] := by
  intro builder _
  refine ensures_imp (steps_buildIdentifier node parent) ?_
  intro items next hstep
  have hitems := tagsOf_identifierItem node.kind (slice builder.querySource node.range) parent
  cases hstep with
  | anything => exact emits_refl _
  | held =>
    refine emits_addCapture _ hitems rfl ?_
    rintro _ _ ⟨⟩
    rfl
  | constant => exact emits_addCapture _ hitems rfl nofun

/-- Numbers are captured. -/
theorem emitting_buildNumber (node : Node) : Emitting externals source (buildNumber node) [] := by
  intro builder _
  refine ensures_imp (steps_buildNumber node) ?_
  intro items next hstep
  cases hstep with
  | value => exact emits_addCapture [.node "number_literal" []] rfl rfl nofun
  | text => exact emits_addCapture [.node "number_literal" []] rfl rfl nofun

/-- Strings are captured if they stand for a variable. -/
theorem emitting_buildString (node : Node) :
    EmittingOption externals source (buildString node)
      (if isVariableString source node then some [] else none) := by
  intro builder hsource
  subst hsource
  refine ensures_imp (steps_buildString genuine_panic node) ?_
  intro items next hstep
  cases hstep with
  | held htext hvariable =>
    rw [isVariableString, htext, Option.any_some, hvariable, if_pos rfl]
    refine emits_addCapture [.node "string_literal" []] rfl rfl ?_
    rintro _ _ ⟨⟩
    rfl
  | other htext hconstant =>
    rw [isVariableString, htext, Option.any_some, hconstant, if_neg Bool.false_ne_true]
    exact rfl

end Leaves

section Recursive

variable {fuel : ℕ} {build : BuildFn} {queryTree : TreeFn} {nesting : NestingFn} {node : Node}

/-- The nesting below a child that exists. -/
theorem childNesting_some {child : Option Node} {c : Node} (h : child = some c) (depth : ℕ)
    (strict : Bool) :
    childNesting nesting node child depth strict = nesting (some node) c depth strict := by
  rw [h, childNesting, Option.toList_some, List.flatMap_singleton]

/-- A child of a node within the next height is within the height. -/
theorem height_le_of_child {child : Node} (h : node.height ≤ fuel + 1)
    (hchild : child ∈ node.children) : child.height ≤ fuel := by
  have hlt := height_lt_of_mem hchild
  omega

section Parts

variable {child : Node} {up : Option Node} {depth : ℕ} {strict : Bool} {parent : String}
  {builder next : QueryBuilder} {items : List Item}

/-- A call on a low node emits the nesting of the node. -/
theorem emits_run (hbuild : BuildSpec externals source fuel build nesting)
    (hheight : child.height ≤ fuel)
    (hrun : build up child depth strict parent builder = .ok (items, next))
    (hsource : builder.querySource = source) :
    Emits externals builder (tagsOf items) (nesting up child depth strict) next := by
  have hemits := hbuild.emits up child depth strict parent hheight builder hsource
  exact (ensures_ok hemits hrun :)

/-- A call on a child emits the nesting of the child. -/
theorem emits_part (hbuild : BuildSpec externals source fuel build nesting)
    (hheight : node.height ≤ fuel + 1) (hchild : child ∈ node.children)
    (hrun : build up child depth strict parent builder = .ok (items, next))
    (hsource : builder.querySource = source) :
    Emits externals builder (tagsOf items) (nesting up child depth strict) next :=
  emits_run hbuild (height_le_of_child hheight hchild) hrun hsource

/-- A token has no tags and adds nothing. -/
theorem eq_of_token (hbuild : BuildSpec externals source fuel build nesting)
    (hheight : child.height ≤ fuel) (htoken : child.isNamed = false)
    (hrun : build up child depth strict parent builder = .ok (items, next)) :
    items = [.token child.kind] ∧ next = builder := by
  rw [hbuild.token up child depth strict parent hheight htoken] at hrun
  cases hrun
  exact ⟨rfl, rfl⟩

end Parts

/-- Both operands, each written twice. -/
theorem emitting_buildBinary (hparts : AllowsParts Genuine build node)
    (hbuild : BuildSpec externals source fuel build nesting) (hheight : node.height ≤ fuel + 1)
    (depth : ℕ) (strict : Bool) :
    Emitting externals source (buildBinary build node depth strict)
      (childNesting nesting node (node.child 0) (depth + 1) strict ++
        childNesting nesting node (node.child 2) (depth + 1) strict) := by
  intro builder hsource
  refine ensures_imp (steps_buildBinary hparts) ?_
  intro items next hstep
  obtain @⟨_, _, _, left, right, _, _, hfirst, hleftRun, hop, hsecond, hrightRun⟩ := hstep
  have hleft := emits_part hbuild hheight (child_mem hfirst) hleftRun hsource
  have hright := emits_part hbuild hheight (child_mem hsecond) hrightRun
    (hleft.querySource.trans hsource)
  rw [childNesting_some hfirst, childNesting_some hsecond]
  have hagain : tagsOf right ++ tagsOf left ⊆ tagsOf left ++ tagsOf right := by
    intro tag htag
    rw [List.mem_append] at htag ⊢
    exact htag.symm
  have hboth := emits_again (emits_trans hleft hright) hagain
  simpa [tagsOf, Item.tags] using hboth

/-- The labels `not:` and `strict:`. -/
theorem emitting_buildLabeled (hparts : AllowsParts Genuine build node)
    (hqueries : AllowsQueries Genuine queryTree node)
    (hbuild : BuildSpec externals source fuel build nesting)
    (htree : TreeSpec externals source fuel queryTree nesting) (hheight : node.height ≤ fuel + 1)
    (depth : ℕ) :
    EmittingOption externals source (buildLabeled build queryTree node depth)
      (labeledNesting source nesting node depth) := by
  intro builder hsource
  refine ensures_imp (steps_buildLabeled hparts hqueries) ?_
  intro items next hstep
  subst hsource
  cases hstep with
  | @negative negated _ _ hlabel hnegated hrun =>
    have hopened := htree (some node) negated (builder.id + 1) false false
      { builder with id := builder.id + 1 } rfl (height_le_of_child hheight (child_mem hnegated))
    obtain ⟨rfl, hfinished⟩ := ensures_ok hopened hrun
    rw [labeledNesting, if_pos hlabel, hnegated]
    exact emits_negation builder hfinished
  | passed hlabel hchild hrun =>
    rw [labeledNesting, if_neg (by rw [hlabel]; decide), if_pos hlabel, childNesting_some hchild]
    exact emits_part hbuild hheight (namedChild_mem hchild) hrun rfl
  | empty hlabel hchild =>
    rw [labeledNesting, if_neg (by rw [hlabel]; decide), if_pos hlabel, hchild]
    exact emits_refl builder
  | other hlabel hnot hstrict =>
    rw [labeledNesting, hlabel, if_neg (by simpa using hnot), if_neg (by simpa using hstrict)]
    exact rfl

/-- A block is captured with its tree. -/
theorem emitting_buildCompound (hqueries : AllowsQueries Genuine queryTree node)
    (htree : TreeSpec externals source fuel queryTree nesting) (hheight : node.height ≤ fuel + 1)
    (up : Option Node) :
    Emitting externals source (buildCompound queryTree up node)
      [.node (treeNesting nesting up node true false)] := by
  intro builder hsource
  refine ensures_imp (steps_buildCompound hqueries) ?_
  rintro _ _ ⟨hrun⟩
  obtain ⟨rfl, hfinished⟩ := ensures_ok (htree up node _ true false
    { builder with id := builder.id + 1 } hsource hheight) hrun
  exact emits_open builder rfl hfinished

/-- The tags of a right side occur twice. -/
theorem tagsOf_optionalCast (items : List Item) :
    tagsOf (optionalCast items) = tagsOf items ++ tagsOf items := by
  simp [optionalCast, tagsOf, Item.tags]

/-- Both sides of an assignment. -/
theorem emitting_buildAssignment (hparts : AllowsParts Genuine build node)
    (hbuild : BuildSpec externals source fuel build nesting) (hheight : node.height ≤ fuel + 1)
    (depth : ℕ) (strict : Bool) :
    Emitting externals source (buildAssignment build node depth strict)
      (assignmentNesting nesting node depth strict) := by
  intro builder hsource
  refine ensures_imp (steps_buildAssignment hparts) ?_
  intro items next hstep
  unfold assignmentNesting
  dsimp only
  cases hstep with
  | @other _ _ _ left operator right _ _ _ hfirst hleftRun hop hother hoperatorRun hsecond
      hrightRun =>
    have hleft := emits_part hbuild hheight (child_mem hfirst) hleftRun hsource
    have hmiddle := hleft.querySource.trans hsource
    have hoperator := emits_part hbuild hheight (child_mem hop) hoperatorRun hmiddle
    have hright := emits_part hbuild hheight (child_mem hsecond) hrightRun
      (hoperator.querySource.trans hmiddle)
    rw [if_neg (not_isPlain hfirst hop hother), childNesting_some hfirst, childNesting_some hop,
      childNesting_some hsecond]
    have hall := emits_trans hleft
      (emits_trans hoperator (emits_again hright (List.Subset.refl (tagsOf right))))
    simpa [tagsOf, Item.tags, tagsOf_optionalCast] using hall
  | @plain _ _ _ left right _ _ hfirst hleftRun hop hplain hsecond hrightRun =>
    have hleft := emits_part hbuild hheight (child_mem hfirst) hleftRun hsource
    have hright := emits_part hbuild hheight (child_mem hsecond) hrightRun
      (hleft.querySource.trans hsource)
    rw [if_pos (isPlain hfirst hop hplain), childNesting_some hfirst, childNesting_some hsecond]
    have hagain : tagsOf right ++ (tagsOf left ++ (tagsOf right ++ (tagsOf right ++
        (tagsOf left ++ (tagsOf right ++ tagsOf right))))) ⊆ tagsOf left ++ tagsOf right := by
      intro tag htag
      simp only [List.mem_append] at htag ⊢
      tauto
    have hall := emits_again (emits_trans hleft hright) hagain
    simpa [tagsOf, Item.tags, tagsOf_optionalCast] using hall

/-- The capture of a function occurs once for each of its forms. -/
theorem tagsOf_functionItems (strict : Bool) (i : ℕ) :
    tagsOf (functionItems strict (toString i)) =
      [captureTag i] ++ (if strict then [] else [captureTag i]) := by
  cases strict <;> rfl

/-- The function name of a call before its arguments. -/
theorem emits_functionItems (builder : QueryBuilder) (strict : Bool) (text : String) :
    Emits externals builder (tagsOf (functionItems strict (toString builder.captures.length))) []
      (builder.push (.check text)) := by
  rw [tagsOf_functionItems]
  refine emits_again (emits_leaf builder _ rfl nofun) ?_
  cases strict with
  | true => exact List.nil_subset _
  | false => exact List.Subset.refl _

/-- Calls of `_`, of a named function and others. -/
theorem emitting_buildCallExpr (hparts : AllowsParts Genuine build node)
    (hqueries : AllowsQueries Genuine queryTree node)
    (hbuild : BuildSpec externals source fuel build nesting)
    (htree : TreeSpec externals source fuel queryTree nesting) (hheight : node.height ≤ fuel + 1)
    (depth : ℕ) (strict : Bool) (parent : String) :
    EmittingOption externals source (buildCallExpr build queryTree node depth strict parent)
      (callNesting source nesting node depth strict) := by
  intro builder hsource
  refine ensures_imp (steps_buildCallExpr hparts hqueries) ?_
  intro items next hstep
  subst hsource
  cases hstep with
  | wrapped hwildcard harguments hcursor hfew hdepth hrun =>
    have hargument := height_wildcardArgument (childByFieldName_mem harguments)
    rw [hcursor] at hargument
    simp only [callNesting, wildcardNesting, hwildcard, harguments, hcursor, if_pos, if_neg hfew,
      if_pos hdepth]
    exact emits_run hbuild (Nat.le_of_lt_succ (hargument.trans_le hheight)) hrun rfl
  | within hwildcard harguments hcursor hfew hdepth hrun =>
    have hargument := height_wildcardArgument (childByFieldName_mem harguments)
    rw [hcursor] at hargument
    simp only [callNesting, wildcardNesting, hwildcard, harguments, hcursor, if_pos, if_neg hfew,
      if_neg hdepth]
    obtain ⟨rfl, hfinished⟩ := ensures_ok (htree _ _ _ false strict
      { builder with id := builder.id + 1 } rfl
      (Nat.le_of_lt_succ (hargument.trans_le hheight))) hrun
    exact emits_open builder rfl hfinished
  | several hwildcard harguments hcursor hmany =>
    simp only [callNesting, wildcardNesting, hwildcard, harguments, hcursor, if_pos, if_pos hmany]
    exact rfl
  | named hwildcard hfunction harguments hname hrun =>
    have hitems := emits_part hbuild hheight (childByFieldName_mem harguments) hrun rfl
    have hall := emits_trans (emits_functionItems builder strict _) hitems
    rw [callNesting, if_neg hwildcard, hfunction, Option.any_some, if_pos hname,
      childNesting_some harguments]
    simpa [EmitsOption, tagsOf, Item.tags] using hall
  | nameless hwildcard hfunction _ hname =>
    rw [callNesting, if_neg hwildcard, hfunction, Option.any_some, if_neg hname]
    exact rfl

/-- The expression of a replaced statement. -/
theorem emitting_buildExpressionStatement (hparts : AllowsParts Genuine build node)
    (hbuild : BuildSpec externals source fuel build nesting) (hheight : node.height ≤ fuel + 1)
    (up : Option Node) (depth : ℕ) (strict : Bool) :
    EmittingOption externals source (buildExpressionStatement build up node depth strict)
      (if isUnwrapped source up node strict then
        some (childNesting nesting node (node.child 0) depth strict) else none) := by
  intro builder hsource
  refine ensures_imp (steps_buildExpressionStatement hparts) ?_
  intro items next hstep
  subst hsource
  cases hstep with
  | replaced hunwrapped hfirst hrun =>
    rw [hunwrapped, if_pos rfl, childNesting_some hfirst]
    exact emits_part hbuild hheight (child_mem hfirst) hrun rfl
  | kept hunwrapped =>
    rw [hunwrapped, if_neg Bool.false_ne_true]
    exact rfl

/-- A rule that always applies. -/
theorem emitting_some {x : BuildM (List Item)} {shapes : List Shape}
    (h : Emitting externals source x shapes) :
    EmittingOption externals source (some <$> x) (some shapes) := by
  intro builder hsource
  exact ensures_map (h builder hsource)

/-- A rule that does not apply. -/
theorem emitting_none : EmittingOption externals source (pure none) none :=
  fun _ _ => rfl

/-- The rules are chosen by the same test on both sides. -/
theorem emitting_ite {test : Prop} [Decidable test] {x y : BuildM (Option (List Item))}
    {shapes shapes' : Option (List Shape)} (hx : EmittingOption externals source x shapes)
    (hy : EmittingOption externals source y shapes') :
    EmittingOption externals source (if test then x else y)
      (if test then shapes else shapes') := by
  by_cases htest : test
  · rw [if_pos htest, if_pos htest]
    exact hx
  · rw [if_neg htest, if_neg htest]
    exact hy

/-- The rules for single kinds. -/
theorem emitting_buildSpecial (hparts : AllowsParts Genuine build node)
    (hqueries : AllowsQueries Genuine queryTree node)
    (hbuild : BuildSpec externals source fuel build nesting)
    (htree : TreeSpec externals source fuel queryTree nesting) (hheight : node.height ≤ fuel + 1)
    (up : Option Node) (depth : ℕ) (strict : Bool) (parent : String) :
    EmittingOption externals source (buildSpecial build queryTree up node depth strict parent)
      (specialNesting source nesting up node depth strict) := by
  unfold buildSpecial specialNesting
  refine emitting_ite ?_ (emitting_ite ?_ (emitting_ite ?_ (emitting_ite ?_ (emitting_ite ?_
    (emitting_ite ?_ (emitting_ite ?_ (emitting_ite ?_ (emitting_ite ?_ emitting_none))))))))
  · exact emitting_ite (emitting_some (emitting_buildBinary hparts hbuild hheight depth strict))
      emitting_none
  · exact emitting_buildLabeled hparts hqueries hbuild htree hheight depth
  · exact emitting_ite (emitting_some (emitting_buildCompound hqueries htree hheight up))
      emitting_none
  · exact emitting_some (emitting_buildIdentifier node parent)
  · exact emitting_some (emitting_buildAssignment hparts hbuild hheight depth strict)
  · exact emitting_buildCallExpr hparts hqueries hbuild htree hheight depth strict _
  · exact emitting_buildExpressionStatement hparts hbuild hheight up depth strict
  · exact emitting_some (emitting_buildNumber node)
  · exact emitting_buildString node

/-- Anonymous nodes open no queries. -/
theorem nesting_token (hbuild : BuildSpec externals source fuel build nesting) {child : Node}
    (hheight : child.height ≤ fuel) (htoken : child.isNamed = false) (up : Option Node) (depth : ℕ)
    (strict : Bool) : nesting up child depth strict = [] := by
  have hemits := hbuild.emits up child depth strict "" hheight (.new source 0 ∅) rfl
  rw [hbuild.token up child depth strict "" hheight htoken] at hemits
  have hid := hemits.id
  exact List.length_eq_zero_iff.mp (by simpa using hid)

/-- One round of the default loop. -/
theorem emits_child (hbuild : BuildSpec externals source fuel build nesting) {child : Node}
    (hheight : child.height ≤ fuel) {anchoring : Bool} {depth : ℕ} {strict : Bool}
    {builder next : QueryBuilder} {items : List Item} (hsource : builder.querySource = source)
    (hstep : ChildStep build node depth strict builder anchoring child items next) :
    Emits externals builder (tagsOf items)
      (if isSkipped source node child then []
        else nesting (some node) child (depth + 1) strict) next := by
  subst hsource
  cases hstep with
  | field hfield hrun =>
    have hemits := emits_run hbuild hheight hrun rfl
    have hagain := emits_again hemits (List.Subset.refl (tagsOf _))
    rw [isSkipped, hfield, Option.isNone_some, Bool.false_and, Bool.false_and,
      if_neg Bool.false_ne_true]
    split_ifs
    · simpa [tagsOf, Item.tags] using hagain
    · exact hemits
  | skipped _ _ hskipped =>
    rw [if_pos hskipped]
    exact emits_refl builder
  | named _ _ hskipped hrun =>
    have hemits := emits_run hbuild hheight hrun rfl
    rw [hskipped, if_neg Bool.false_ne_true]
    cases anchoring with
    | true => exact hemits
    | false => exact hemits
  | keyword _ htoken _ hrun =>
    obtain ⟨rfl, rfl⟩ := eq_of_token hbuild hheight htoken hrun
    rw [nesting_token hbuild hheight htoken, ite_self]
    refine emits_addCapture [.token child.kind] rfl rfl ?_
    intro name constraint hvariable
    cases hvariable
  | silent _ htoken _ hrun =>
    obtain ⟨rfl, rfl⟩ := eq_of_token hbuild hheight htoken hrun
    rw [nesting_token hbuild hheight htoken, ite_self]
    exact emits_refl _

/-- The default loop. -/
theorem emits_children (hbuild : BuildSpec externals source fuel build nesting) {anchoring : Bool}
    {depth : ℕ} {strict : Bool} {children : List Node} {builder next : QueryBuilder}
    {items : List Item}
    (hstep : ChildrenStep build node depth strict anchoring builder children items next)
    (hheight : ∀ child ∈ children, child.height ≤ fuel) (hsource : builder.querySource = source) :
    Emits externals builder (tagsOf items)
      (children.flatMap fun child =>
        if isSkipped source node child then []
        else nesting (some node) child (depth + 1) strict) next := by
  induction hstep with
  | nil builder => exact emits_refl builder
  | cons hchild _ ih =>
    obtain ⟨hfirstHeight, hrestHeight⟩ := List.forall_mem_cons.mp hheight
    have hfirst := emits_child hbuild hfirstHeight hsource hchild
    have hrest := ih hrestHeight (hfirst.querySource.trans hsource)
    rw [tagsOf_append, List.flatMap_cons]
    exact emits_trans hfirst hrest

/-- The capture that counts arguments follows the text of the arguments. -/
theorem emits_argumentCount {builder next : QueryBuilder} {items : List Item}
    {shapes : List Shape} (hemits : Emits externals builder (tagsOf items) shapes next)
    (kind : String) (count : ℕ) (minimum : Bool) :
    Emits externals builder
      (tagsOf [.node kind items, captureItem (toString next.captures.length)]) shapes
      (next.push (.callExpQuery count minimum)) := by
  have hcapture := emits_trans hemits
    (emits_leaf next (.callExpQuery count minimum) rfl fun v constraint h => by cases h)
  rw [List.append_nil] at hcapture
  simpa [tagsOf, Item.tags, captureItem, captureTag] using hcapture

/-- Nodes without a rule of their own. -/
theorem emitting_buildDefault (hparts : AllowsParts Genuine build node)
    (hbuild : BuildSpec externals source fuel build nesting) (hheight : node.height ≤ fuel + 1)
    (depth : ℕ) (strict : Bool) :
    Emitting externals source (buildDefault build node depth strict)
      (defaultNesting source nesting node depth strict) := by
  intro builder hsource
  refine ensures_imp (steps_buildDefault hparts) ?_
  intro items next hstep
  have hchildren : ∀ child ∈ node.children, child.height ≤ fuel :=
    fun child hchild => height_le_of_child hheight hchild
  unfold defaultNesting
  cases hstep with
  | leaf hempty =>
    rw [hempty, List.flatMap_nil]
    exact emits_refl builder
  | counted _ _ hitems =>
    exact emits_argumentCount (emits_children hbuild hitems hchildren hsource) node.kind _ _
  | copied _ hitems =>
    have hemits := emits_children hbuild hitems hchildren hsource
    simpa [tagsOf, Item.tags] using hemits

/-- Any node, when its parts are as specified. -/
theorem emitting_buildBody (hparts : AllowsParts Genuine build node)
    (hqueries : AllowsQueries Genuine queryTree node)
    (hbuild : BuildSpec externals source fuel build nesting)
    (htree : TreeSpec externals source fuel queryTree nesting) (hheight : node.height ≤ fuel + 1)
    (up : Option Node) (depth : ℕ) (strict : Bool) (parent : String) :
    Emitting externals source (buildBody build queryTree up node depth strict parent)
      (nestingBody source nesting up node depth strict) := by
  intro builder hsource
  unfold buildBody nestingBody
  split_ifs
  · exact emits_refl _
  · have hspecial := emitting_buildSpecial hparts hqueries hbuild htree hheight up depth strict
      parent _ hsource
    refine ensures_bind hspecial ?_
    intro items next hemits
    cases hshapes : specialNesting source nesting up node depth strict with
    | none =>
      rw [hshapes] at hemits
      cases items with
      | some items => cases hemits
      | none =>
        cases hemits
        exact emitting_buildDefault hparts hbuild hheight depth strict _ hsource
    | some shapes =>
      rw [hshapes] at hemits
      cases items with
      | none => cases hemits
      | some items => exact hemits

end Recursive

end WeggliEnhance.BuilderSpecification
