import WeggliEnhance.StrictStatements

/-!
# Statements that match comments

The text for a statement names the kinds of the nodes it can match. It
matches a comment without parts only if nothing but a wildcard or a comment
is left of the statement: behind strict labels, in expression statements that
are unwrapped, and in calls of `_` at the root.
-/

namespace WeggliEnhance.BlankStatements

open SourceText SyntaxTree QueryText ThirdParty QueryTrees PatternBuilder PatternNesting
  BuilderSteps BuilderSpecification QueryOutline OutlineSpecification ArgumentMatching FallibleState
  PatternSemantics NarrowedTexts MovedPatterns StrictStatements

section Heads

mutual

/-- The kinds of the nodes that an item can match. -/
def Item.heads : Item → List String
  | .node kind _ => [kind]
  | .alternation items => headsOf items
  | .wildcard => ["_"]
  | .group _ => ["_"]
  | _ => []

/-- The kinds of the nodes that some items can match. -/
def headsOf : List Item → List String
  | [] => []
  | item :: items => Item.heads item ++ headsOf items

end

/-- The heads of two texts in a row. -/
theorem headsOf_append (left right : List Item) :
    headsOf (left ++ right) = headsOf left ++ headsOf right := by
  induction left with
  | nil => rfl
  | cons item left ih => rw [List.cons_append, headsOf, headsOf, ih, List.append_assoc]

mutual

/-- Captures do not matter for the kinds. -/
theorem headsOf_strip (item : Item) : headsOf (Item.strip item) = Item.heads item := by
  cases item with
  | alternation items =>
    rw [Item.strip, headsOf, Item.heads, headsOf_stripOf items, Item.heads]
    exact List.append_nil _
  | _ => rfl

/-- Captures are no heads. -/
theorem headsOf_stripOf (items : List Item) : headsOf (stripOf items) = headsOf items := by
  cases items with
  | nil => rfl
  | cons item items =>
    rw [stripOf, headsOf_append, headsOf_strip item, headsOf_stripOf items, headsOf]

end

/-- A kind in a pattern that fits a named node. -/
def Fits (node : Node) (kind : String) : Prop := kind = "_" ∨ kind = node.kind

mutual

/-- The node a pattern matches has one of its kinds. -/
theorem exists_head_of_itemMatch (item : Item) {node : Node} {captured : List Named}
    (hnamed : node.isNamed = true) (h : ItemMatch item node captured) :
    ∃ kind ∈ Item.heads item, Fits node kind := by
  cases item with
  | token kind =>
    rw [ItemMatch, hnamed] at h
    exact absurd h.1.1.symm Bool.false_ne_true
  | wildcard => exact ⟨"_", List.mem_singleton_self _, .inl rfl⟩
  | node kind items =>
    rw [ItemMatch] at h
    exact ⟨kind, List.mem_singleton_self _, h.1.2.imp_right Eq.symm⟩
  | group items => exact ⟨"_", List.mem_singleton_self _, .inl rfl⟩
  | alternation items =>
    rw [ItemMatch] at h
    exact exists_head_of_choiceMatch items hnamed h
  | fieldName name =>
    rw [ItemMatch] at h
    exact h.elim
  | anchor =>
    rw [ItemMatch] at h
    exact h.elim
  | tag tag =>
    rw [ItemMatch] at h
    exact h.elim

/-- What an alternation matches has the kind of one of its heads. -/
theorem exists_head_of_choiceMatch (items : List Item) {node : Node} {captured : List Named}
    (hnamed : node.isNamed = true) (h : ChoiceMatch items node captured) :
    ∃ kind ∈ headsOf items, Fits node kind := by
  cases items with
  | nil =>
    rw [ChoiceMatch] at h
    exact h.elim
  | cons item items =>
    rw [ChoiceMatch] at h
    rw [headsOf]
    rcases h with ⟨inner, hinner, -⟩ | hrest
    · obtain ⟨kind, hkind, hfits⟩ := exists_head_of_itemMatch item hnamed hinner
      exact ⟨kind, List.mem_append_left _ hkind, hfits⟩
    · obtain ⟨kind, hkind, hfits⟩ := exists_head_of_choiceMatch items hnamed hrest
      exact ⟨kind, List.mem_append_right _ hkind, hfits⟩

end

/-- The text that is written for an outline matches nodes of its kinds. -/
theorem exists_head_of_writes {items : List Item} {item : Option Item} (h : Writes items item)
    (hne : items ≠ []) {target : Node} {captured : List Named} (hnamed : target.isNamed = true)
    (hmatch : SequenceMatch items (.start [target]) captured) :
    ∃ kind ∈ headsOf item.toList, Fits target kind := by
  have hstrip := congrArg headsOf h.strip
  rw [headsOf_stripOf] at hstrip
  rw [← hstrip]
  obtain ⟨first, tags, rfl, hpattern, htags⟩ := exists_pattern_of_writes h hne
  rw [sequenceMatch_pattern _ hpattern] at hmatch
  obtain ⟨taken, next, inner, outer, htakes, hinner, -, -⟩ := hmatch
  obtain ⟨skipped, rest, hsiblings, -, -, -⟩ := htakes
  have htaken : taken ∈ [target] := by
    change [target] = skipped ++ taken :: rest at hsiblings
    rw [hsiblings]
    exact List.mem_append_right _ List.mem_cons_self
  rw [List.mem_singleton.mp htaken] at hinner
  obtain ⟨kind, hkind, hfits⟩ := exists_head_of_itemMatch first hnamed hinner
  exact ⟨kind, List.mem_append_left _ hkind, hfits⟩

end Heads

section Outlines

/-- Nothing but a wildcard or a comment is left of a statement at the root of
a pattern. -/
inductive Blank (source : String) : Option Node → Node → Bool → Prop
  /-- The wildcard. -/
  | wildcard {up : Option Node} {node : Node} {strict : Bool} : node.isNamed = true →
    node.kind ∈ identifierKinds → slice source node.range = "_" → Blank source up node strict
  /-- A comment. -/
  | comment {up : Option Node} {node : Node} {strict : Bool} : Comment node →
    Blank source up node strict
  /-- What a strict label takes for its statement. -/
  | label {up : Option Node} {node child : Node} {strict : Bool} : node.isNamed = true →
    node.kind = "labeled_statement" → label source node = some "STRICT" →
    node.namedChild 1 = some child → Blank source (some node) child true →
    Blank source up node strict
  /-- The expression of a statement that is unwrapped. -/
  | statement {up : Option Node} {node child : Node} {strict : Bool} : node.isNamed = true →
    node.kind = "expression_statement" → isUnwrapped source up node strict = true →
    node.child 0 = some child → Blank source (some node) child strict → Blank source up node strict
  /-- The only argument of a call of `_`. -/
  | call {up : Option Node} {node list : Node} {strict : Bool} : node.isNamed = true →
    isWildcardCall source node = true → node.childByFieldName "arguments" = some list →
    (wildcardArgument node list).2.2.length < 2 →
    Blank source (some (wildcardArgument node list).1) (wildcardArgument node list).2.1 strict →
    Blank source up node strict

variable {source : String} {outline : OutlineFn} {up : Option Node} {node : Node} {strict : Bool}
  {parent : String}

/-- The kinds that fit a comment. -/
def commentKinds : List String := ["_", "comment"]

/-- The pattern of an outline fits a comment. -/
def Suits (o : Outline) : Prop := ∃ kind ∈ commentKinds, kind ∈ headsOf o.item.toList

/-- The pattern of an outline is a node of another kind. -/
theorem not_suits (kinds : List String) {o : Outline} (h : headsOf o.item.toList = kinds)
    (hkinds : ∀ kind ∈ commentKinds, kind ∉ kinds) : ¬Suits o := by
  rintro ⟨kind, hkind, hhead⟩
  rw [h] at hhead
  exact hkinds kind hkind hhead

/-- The empty text matches nothing. -/
theorem not_suits_nothing (checks : List String) (opened : List Outlined) :
    ¬Suits ⟨none, checks, opened⟩ := not_suits [] rfl (by decide)

/-- The kinds of identifiers are no comments. -/
theorem not_mem_heads_identifierItem (pattern parent : String)
    (hkind : node.kind ∈ identifierKinds) :
    ∀ kind ∈ commentKinds, kind ∉ Item.heads (identifierItem node.kind pattern parent) := by
  unfold identifierItem
  split_ifs
  · decide
  · decide
  · decide
  · intro kind hcomment hhead
    have hdisjoint : ∀ kind ∈ commentKinds, kind ∉ identifierKinds := by decide
    rw [List.mem_singleton.mp hhead] at hcomment
    exact hdisjoint _ hcomment hkind

/-- The argument of a call of `_` is a part of it. -/
theorem mem_nodes_wildcardArgument {list : Node}
    (h : node.childByFieldName "arguments" = some list) :
    (wildcardArgument node list).2.1 ∈ node.nodes := by
  have hlist := child_mem_nodes (childByFieldName_mem h)
  unfold wildcardArgument
  split
  · exact hlist
  · next only hchildren =>
    refine nodes_trans hlist (child_mem_nodes ?_)
    rw [hchildren]
    exact List.mem_cons_self
  · next first argument rest hchildren =>
    refine nodes_trans hlist (child_mem_nodes ?_)
    rw [hchildren]
    exact List.mem_cons_of_mem _ List.mem_cons_self

/-- Parts of a pattern read by the grammar are read by it. -/
theorem lexical_of_mem {inner : Node} (h : Lexical node) (hmem : inner ∈ node.nodes) :
    Lexical inner :=
  ⟨fun other hother => h.comments other (nodes_trans hmem hother),
    fun other hother => h.kinds other (nodes_trans hmem hother)⟩

/-- The outlines of all nodes below show blank nodes. -/
def ShowsBlank (source : String) (outline : OutlineFn) (node : Node) : Prop :=
  ∀ inner ∈ node.nodes, ∀ up strict parent, Suits (outline up inner 0 strict parent) →
    Blank source up inner strict

/-- The labels `not:` and `strict:`. -/
theorem blank_of_labeledOutline (hnamed : node.isNamed = true)
    (hkind : node.kind = "labeled_statement") (h : ShowsBlank source outline node) {o : Outline}
    (ho : labeledOutline source outline node 0 = some o) (hsuits : Suits o) :
    Blank source up node strict := by
  unfold labeledOutline at ho
  split_ifs at ho with hnot hstrict
  · cases ho
    exact absurd hsuits (not_suits_nothing _ _)
  · cases ho
    unfold childOutline at hsuits
    cases hchild : node.namedChild 1 with
    | none =>
      rw [hchild] at hsuits
      exact absurd hsuits (not_suits_nothing _ _)
    | some child =>
      rw [hchild] at hsuits
      have hmem : child ∈ node.nodes :=
        child_mem_nodes (List.mem_of_mem_filter (List.mem_of_getElem? hchild))
      exact .label hnamed hkind hstrict hchild (h child hmem _ _ _ hsuits)

/-- Calls. -/
theorem blank_of_callOutline (hnamed : node.isNamed = true) (h : ShowsBlank source outline node)
    {o : Outline} (ho : callOutline source outline node 0 strict = some o) (hsuits : Suits o) :
    Blank source up node strict := by
  unfold callOutline at ho
  split_ifs at ho with hwildcard
  · unfold wildcardOutline at ho
    cases hlist : node.childByFieldName "arguments" with
    | none =>
      rw [hlist] at ho
      cases ho
    | some list =>
      rw [hlist] at ho
      simp only [if_true] at ho
      split_ifs at ho with hmany
      cases ho
      exact .call hnamed hwildcard hlist (Nat.lt_of_not_le hmany)
        (h _ (mem_nodes_wildcardArgument hlist) _ _ _ hsuits)
  · split at ho
    · cases ho
    · split_ifs at ho
      cases ho
      exact absurd hsuits (not_suits ["call_expression"] rfl (by decide))

/-- No assignment is blank. -/
theorem not_suits_assignmentOutline (outline : OutlineFn) (node : Node) (strict : Bool) :
    ¬Suits (assignmentOutline outline node 0 strict) := by
  unfold assignmentOutline
  dsimp only
  split_ifs
  · exact not_suits ["assignment_expression", "init_declarator", "init_declarator"] rfl (by decide)
  · exact not_suits ["assignment_expression"] rfl (by decide)

/-- The rules for single kinds. -/
theorem blank_of_specialOutline (hnamed : node.isNamed = true) (h : ShowsBlank source outline node)
    {o : Outline} (ho : specialOutline source outline up node 0 strict parent = some o)
    (hsuits : Suits o) : Blank source up node strict := by
  cases specialRule_of_specialOutline ho with
  | binary =>
    exact absurd hsuits (not_suits ["binary_expression", "binary_expression"] rfl (by decide))
  | labeled hkind hlabeled => exact blank_of_labeledOutline hnamed hkind h hlabeled hsuits
  | compound => exact absurd hsuits (not_suits ["compound_statement"] rfl (by decide))
  | identifier hkind =>
    unfold identifierOutline at hsuits
    dsimp only at hsuits
    split_ifs at hsuits with htext
    · exact .wildcard hnamed hkind htext
    all_goals
      refine absurd hsuits (not_suits _ (List.append_nil _) ?_)
      exact not_mem_heads_identifierItem _ parent hkind
  | assignment => exact absurd hsuits (not_suits_assignmentOutline outline node strict)
  | call hcall => exact blank_of_callOutline hnamed h hcall hsuits
  | statement hkind hunwrapped =>
    unfold childOutline at hsuits
    cases hchild : node.child 0 with
    | none =>
      rw [hchild] at hsuits
      exact absurd hsuits (not_suits_nothing _ _)
    | some child =>
      rw [hchild] at hsuits
      have hmem : child ∈ node.nodes := child_mem_nodes (List.mem_of_getElem? hchild)
      exact .statement hnamed hkind hunwrapped hchild (h child hmem _ _ _ hsuits)
  | number => exact absurd hsuits (not_suits ["number_literal"] rfl (by decide))
  | string => exact absurd hsuits (not_suits ["string_literal"] rfl (by decide))

/-- Only what is left blank is written as a pattern that fits a comment. -/
theorem blank_of_outlineFuel (hlexical : Lexical node) (fuel : ℕ) (up : Option Node) (strict : Bool)
    (parent : String) (h : Suits (outlineFuel source fuel up node 0 strict parent)) :
    Blank source up node strict := by
  induction fuel generalizing up node strict parent with
  | zero => exact absurd h (not_suits_nothing _ _)
  | succ fuel ih =>
    have hbelow : ShowsBlank source (outlineFuel source fuel) node := by
      intro inner hinner up strict parent hsuits
      exact ih (lexical_of_mem hlexical hinner) up strict parent hsuits
    unfold outlineFuel outlineBody at h
    split_ifs at h with hanonymous
    · exact absurd h (not_suits [] rfl (by decide))
    · have hnamed : node.isNamed = true := by simpa using hanonymous
      cases hspecial : specialOutline source (outlineFuel source fuel) up node 0 strict parent with
      | some o =>
        rw [hspecial] at h
        exact blank_of_specialOutline hnamed hbelow hspecial h
      | none =>
        rw [hspecial] at h
        obtain ⟨kind, hkind, hhead⟩ := h
        have hown : kind = node.kind := List.mem_singleton.mp hhead
        rw [hown] at hkind
        rcases List.mem_pair.mp hkind with hwildcard | hcomment
        · exact absurd hwildcard (hlexical.kinds node (mem_nodes_self node))
        · exact .comment ⟨hnamed, hcomment, hlexical.comments node (mem_nodes_self node) hcomment⟩

end Outlines

section Texts

variable {source : String} {up : Option Node} {node : Node} {strict : Bool}

/-- One pattern that fits every comment, and no change to the builder. -/
def WritesBlank (s : QueryBuilder) (items : List Item) (s' : QueryBuilder) : Prop :=
  (∃ kind ∈ commentKinds, items = [.node kind []]) ∧ s' = s

/-- A special case that writes one such pattern. -/
theorem writesBlank_special {build : BuildFn} {queryTree : TreeFn} {s : QueryBuilder} {depth : ℕ}
    {parent : String} (hnamed : node.isNamed = true)
    (h : Ensures (fun _ => True) (buildSpecial build queryTree up node depth strict parent) s
      fun items s' => ∃ written, items = some written ∧ WritesBlank s written s') :
    Ensures (fun _ => True) (buildBody build queryTree up node depth strict parent) s
      (WritesBlank s) := by
  unfold buildBody
  rw [hnamed]
  refine ensures_bind h ?_
  rintro _ s' ⟨written, rfl, hwritten⟩
  exact ensures_pure hwritten

/-- An expression statement that is unwrapped, with what is written for its
expression. -/
theorem writesBlank_statement {build : BuildFn} {queryTree : TreeFn} {s : QueryBuilder}
    {parent : String} (hsource : s.querySource = source)
    (hkind : node.kind = "expression_statement")
    (hunwrapped : isUnwrapped source up node strict = true) {child : Node}
    (hchild : node.child 0 = some child)
    (hbelow : Ensures (fun _ => True) (build (some node) child 0 strict node.kind) s
      (WritesBlank s)) :
    Ensures (fun _ => True) (buildSpecial build queryTree up node 0 strict parent) s
      fun items s' => ∃ written, items = some written ∧ WritesBlank s written s' := by
  have hspecial : buildSpecial build queryTree up node 0 strict parent =
      buildExpressionStatement build up node 0 strict := by
    unfold buildSpecial
    rw [hkind]
    rfl
  rw [hspecial]
  refine ensures_imp (steps_buildExpressionStatement (allowsParts _ _)) ?_
  intro items s' hstep
  cases hstep with
  | replaced _ hfirst hitems =>
    rw [hchild] at hfirst
    cases hfirst
    exact ⟨_, rfl, ensures_ok hbelow hitems⟩
  | kept hkept =>
    rw [hsource, hunwrapped] at hkept
    cases hkept

/-- A call of `_`, with what is written for its only argument. -/
theorem writesBlank_call {build : BuildFn} {queryTree : TreeFn} {s : QueryBuilder}
    {parent : String} (hsource : s.querySource = source)
    (hwildcard : isWildcardCall source node = true) {list : Node}
    (hlist : node.childByFieldName "arguments" = some list)
    (hfew : (wildcardArgument node list).2.2.length < 2)
    (hbelow : Ensures (fun _ => True) (build (some (wildcardArgument node list).1)
      (wildcardArgument node list).2.1 0 strict node.kind) s (WritesBlank s)) :
    Ensures (fun _ => True) (buildSpecial build queryTree up node 0 strict parent) s
      fun items s' => ∃ written, items = some written ∧ WritesBlank s written s' := by
  have hkind : node.kind = "call_expression" := by
    unfold isWildcardCall at hwildcard
    rw [Bool.and_eq_true] at hwildcard
    exact beq_iff_eq.mp hwildcard.1
  have hspecial : buildSpecial build queryTree up node 0 strict parent =
      buildCallExpr build queryTree node 0 strict node.kind := by
    unfold buildSpecial
    rw [hkind]
    rfl
  rw [hspecial]
  subst hsource
  refine ensures_imp (steps_buildCallExpr (allowsParts _ _) (allowsQueries _ _)) ?_
  intro items s' hstep
  cases hstep with
  | wrapped _ harguments hcursor _ _ hitems =>
    rw [hlist] at harguments
    cases harguments
    rw [hcursor] at hbelow
    exact ⟨_, rfl, ensures_ok hbelow hitems⟩
  | within _ _ _ _ hdepth _ => exact absurd rfl hdepth
  | several _ harguments hcursor hmany =>
    rw [hlist] at harguments
    cases harguments
    rw [hcursor] at hfew
    exact absurd hmany (Nat.not_le_of_lt hfew)
  | named hother _ _ _ _ => exact absurd hwildcard hother
  | nameless hother _ _ _ => exact absurd hwildcard hother

/-- The wildcard is blank. -/
theorem writesBlank_identifier {build : BuildFn} {queryTree : TreeFn} {s : QueryBuilder} {depth : ℕ}
    {parent : String} (hsource : s.querySource = source) (hkind : node.kind ∈ identifierKinds)
    (htext : slice source node.range = "_") :
    Ensures (fun _ => True) (buildSpecial build queryTree up node depth strict parent) s
      fun items s' => ∃ written, items = some written ∧ WritesBlank s written s' := by
  have hother : ∀ kind ∈ ["binary_expression", "labeled_statement", "compound_statement"],
      node.kind ≠ kind := by
    intro kind hmem heq
    have hdisjoint : ∀ kind ∈ ["binary_expression", "labeled_statement", "compound_statement"],
        kind ∉ identifierKinds := by decide
    exact hdisjoint kind hmem (heq ▸ hkind)
  unfold buildSpecial
  rw [if_neg (hother _ (by decide)), if_neg (hother _ (by decide)), if_neg (hother _ (by decide)),
    if_pos hkind]
  refine ensures_map (ensures_imp (steps_buildIdentifier node parent) ?_)
  subst hsource
  intro items s' hstep
  cases hstep with
  | anything _ => exact ⟨_, rfl, ⟨"_", by decide, rfl⟩, rfl⟩
  | held hnamed _ => exact absurd htext hnamed
  | constant hnamed _ => exact absurd htext hnamed

/-- A wildcard or a comment is written for what is blank. -/
theorem writesBlank_buildFuel (externals : Externals) (h : Blank source up node strict)
    (fuel : ℕ) (parent : String) {s : QueryBuilder} (hsource : s.querySource = source) :
    Ensures (fun _ => True) (buildFuel externals fuel up node 0 strict parent) s
      (WritesBlank s) := by
  induction h generalizing fuel parent with
  | wildcard hnamed hkind htext =>
    cases fuel with
    | zero => exact trivial
    | succ fuel => exact writesBlank_special hnamed (writesBlank_identifier hsource hkind htext)
  | comment hcomment =>
    cases fuel with
    | zero => exact trivial
    | succ fuel =>
      unfold Ensures buildFuel
      rw [buildBody_comment hcomment]
      exact ⟨⟨"comment", by decide, rfl⟩, rfl⟩
  | label hnamed hkind hlabel hchild _ ih =>
    cases fuel with
    | zero => exact trivial
    | succ fuel =>
      unfold Ensures buildFuel
      rw [buildBody_strict hnamed hkind (by rw [hsource]; exact hlabel) hchild]
      exact ih fuel _
  | @statement up node child strict hnamed hkind hunwrapped hchild _ ih =>
    cases fuel with
    | zero => exact trivial
    | succ fuel =>
      exact writesBlank_special hnamed
        (writesBlank_statement hsource hkind hunwrapped hchild (ih fuel _))
  | call hnamed hwildcard hlist hfew _ ih =>
    cases fuel with
    | zero => exact trivial
    | succ fuel =>
      exact writesBlank_special hnamed
        (writesBlank_call hsource hwildcard hlist hfew (ih fuel _))

end Texts

end WeggliEnhance.BlankStatements
