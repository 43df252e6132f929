import WeggliEnhance.BuilderSpecification

/-!
# Construction of query trees

From the specification of the recursive builder to that of the whole query
tree: the top-level patterns of the text hold consecutive intervals of the
captures, every tree is well-formed at every depth, and the ids follow the
nesting of the pattern. The height of the pattern bounds the recursion.
-/

namespace WeggliEnhance.QueryTreeConstruction

open SourceText SyntaxTree QueryText ThirdParty QueryTrees PatternBuilder PatternNesting
  NestedCounters FirstOccurrence BuilderEmission BuilderSteps BuilderSpecification FallibleState

variable {externals : Externals} {source : String} {fuel : ℕ} {build : BuildFn}
  {nesting : NestingFn}

/-- A finished text: its patterns cover the captures allocated since the
start, and the builder emitted the given queries. -/
structure Complete (externals : Externals) (start : QueryBuilder) (shapes : List Shape)
    (built : BuiltText) : Prop where
  /-- The patterns cover the new captures. -/
  layout : TextLayout built.builder.captures start.captures.length built.text
  /-- The builder emitted the queries. -/
  emits : ∃ tags, Emits externals start tags shapes built.builder

/-- Captures added later do not change a pattern. -/
theorem patternLayout_of_prefix {captures more : List Capture} {lower upper : ℕ}
    {items : List Item} (hmore : captures <+: more)
    (h : PatternLayout captures lower upper items) : PatternLayout more lower upper items := by
  obtain ⟨extra, rfl⟩ := hmore
  obtain ⟨hle, before, after, htags, hnumbers, hdisplay⟩ := h
  refine ⟨?_, before, after, ?_, hnumbers, ?_⟩
  · rw [List.length_append]
    omega
  · rw [htags, predicateTags, predicateTags, List.take_append_of_le_length hle]
  · intro i hi
    have hcapture := hdisplay i hi
    have hlt := (List.getElem?_eq_some_iff.mp hcapture).1
    rw [List.getElem?_append_left hlt, hcapture]

/-- A call without text allocates no captures. -/
theorem captures_of_emits_nil {builder next : QueryBuilder} {shapes : List Shape}
    (h : Emits externals builder [] shapes next) :
    next.captures.length = builder.captures.length := by
  obtain ⟨indices, htags, hnumbers⟩ := h.names
  have hnil : indices = [] := List.map_eq_nil_iff.mp htags.symm
  have hnone : ∀ i, ¬(builder.captures.length ≤ i ∧ i < next.captures.length) := by
    intro i hi
    have hmem := (numbers_mem hnumbers).mpr hi
    rw [hnil] at hmem
    cases hmem
  have hle := hnumbers.1
  have hnot := hnone builder.captures.length
  omega

/-- One statement of a block as a top-level pattern. -/
theorem patternLayout_statement {builder next : QueryBuilder} {items : List Item}
    {shapes : List Shape} (h : Emits externals builder (tagsOf items) shapes next) :
    PatternLayout next.captures builder.captures.length next.captures.length
      [.group (items ++ (processCaptures next.captures builder.captures.length).1)] := by
  obtain ⟨indices, htags, hnumbers⟩ := h.names
  refine ⟨le_rfl, indices, [], ?_, ?_, ?_⟩
  · rw [predicateTags, List.take_length, List.map_nil, List.append_nil, ← htags]
    simp [tagsOf, Item.tags]
  · rwa [List.append_nil]
  · intro i hi
    cases hi

theorem complete_buildPatterns (hbuild : BuildSpec externals source fuel build nesting)
    (node : Node) (strict : Bool) {children : List Node}
    (hheight : ∀ child ∈ children, child.height ≤ fuel) {builder : QueryBuilder}
    (hsource : builder.querySource = source) :
    Outcome Genuine (buildPatterns build node strict children builder)
      (Complete externals builder
        (children.flatMap fun child => nesting (some node) child 0 strict)) := by
  induction children generalizing builder with
  | nil => exact ⟨rfl, [], emits_refl builder⟩
  | cons child children ih =>
    rw [buildPatterns]
    have hfirst := hbuild.emits (some node) child 0 strict node.kind
      (hheight child List.mem_cons_self) builder hsource
    refine outcome_bind hfirst ?_
    rintro ⟨items, next⟩ hemits
    have hrest := ih (fun c hc => hheight c (List.mem_cons_of_mem child hc))
      (hemits.querySource.trans hsource)
    refine outcome_bind hrest ?_
    rintro rest ⟨hlayout, tags, hnext⟩
    refine ⟨?_, tagsOf items ++ tags, emits_trans hemits hnext⟩
    by_cases hempty : items = []
    · subst hempty
      have hsame := captures_of_emits_nil hemits
      simp only [List.isEmpty_nil, if_true]
      rwa [hsame] at hlayout
    · have hnonempty : items.isEmpty = false := by simpa using hempty
      simp only [hnonempty, Bool.false_eq_true, if_false]
      exact ⟨next.captures.length,
        patternLayout_of_prefix hnext.captures (patternLayout_statement hemits), hlayout⟩

/-- A capture that only serves the output has no predicate. -/
theorem processCaptures_display (captures : List Capture) :
    processCaptures (captures ++ [.display]) 0 = processCaptures captures 0 := by
  have hentries : (captures ++ [Capture.display]).zipIdx = captures.zipIdx ++
      [(Capture.display, captures.length)] := by
    rw [List.zipIdx_append, Nat.zero_add]
    rfl
  have hvars : variableIndices (captures.zipIdx ++ [(Capture.display, captures.length)]) =
      variableIndices captures.zipIdx := by
    rw [variableIndices, List.filterMap_append]
    exact List.append_nil _
  have hchecks : (captures.zipIdx ++ [(Capture.display, captures.length)]).filterMap
      checkPredicate = captures.zipIdx.filterMap checkPredicate := by
    rw [List.filterMap_append]
    exact List.append_nil _
  simp only [processCaptures, List.drop_zero, hentries, hvars, hchecks]

section SinglePattern

variable {id : ℕ} {constraints : RegexMap} {items : List Item} {shapes : List Shape}
  {builder : QueryBuilder}

theorem predicateTags_display (builder : QueryBuilder) :
    predicateTags (builder.push .display).captures 0 (builder.push .display).captures.length =
      tagsOf (processCaptures builder.captures 0).1 := by
  rw [predicateTags, List.take_length, QueryBuilder.push, processCaptures_display]

/-- The last capture continues the numbering. -/
theorem numbers_display {indices : List ℕ}
    (h : Numbers 0 builder.captures.length indices) :
    Numbers 0 (builder.push .display).captures.length (indices ++ [builder.captures.length]) := by
  have hupper : (builder.push .display).captures.length = builder.captures.length + 1 := by
    rw [QueryBuilder.push, List.length_append, List.length_singleton]
  rw [hupper]
  exact numbers_append h (numbers_single _)

/-- The root pattern wrapped into a function definition. -/
theorem patternLayout_anchored
    (h : Emits externals (.new source id constraints) (tagsOf items) shapes builder) :
    PatternLayout (builder.push .display).captures 0 (builder.push .display).captures.length
      [.node "function_definition"
        (.fieldName "body" :: items ++ (processCaptures builder.captures 0).1),
        captureItem (toString builder.captures.length)] := by
  obtain ⟨indices, htags, hnumbers⟩ := h.names
  refine ⟨le_rfl, indices, [builder.captures.length], ?_, numbers_display hnumbers, ?_⟩
  · rw [predicateTags_display, ← htags]
    simp [tagsOf, Item.tags, captureItem, captureTag]
  · intro i hi
    rw [List.mem_singleton.mp hi, QueryBuilder.push, List.getElem?_concat_length]

/-- The root pattern with its own capture. -/
theorem patternLayout_root
    (h : Emits externals (.new source id constraints) (tagsOf items) shapes builder) :
    PatternLayout (builder.push .display).captures 0 (builder.push .display).captures.length
      [.group (items ++ [captureItem (toString builder.captures.length)] ++
        (processCaptures (builder.push .display).captures 0).1)] := by
  obtain ⟨indices, htags, hnumbers⟩ := h.names
  refine ⟨le_rfl, indices ++ [builder.captures.length], [], ?_, ?_, ?_⟩
  · rw [predicateTags, List.take_length, List.map_append, ← htags]
    simp [tagsOf, Item.tags, captureItem, captureTag]
  · rw [List.append_nil]
    exact numbers_display hnumbers
  · intro i hi
    cases hi

theorem complete_buildSinglePattern (hbuild : BuildSpec externals source fuel build nesting)
    {node : Node} (hheight : node.height ≤ fuel) (up : Option Node) (strict : Bool) :
    Outcome Genuine (buildSinglePattern build up node strict (.new source id constraints))
      (Complete externals (.new source id constraints) (nesting up node 0 strict)) := by
  unfold buildSinglePattern
  have hfirst := hbuild.emits up node 0 strict node.kind hheight (.new source id constraints) rfl
  refine outcome_bind hfirst ?_
  rintro ⟨items, builder⟩ hemits
  have hdisplay : Emits externals builder [captureTag builder.captures.length] []
      (builder.push .display) := emits_leaf builder _ rfl fun v constraint h => by cases h
  have hall := emits_trans hemits hdisplay
  rw [List.append_nil] at hall
  simp only
  split_ifs
  · exact ⟨⟨_, patternLayout_anchored hemits, rfl⟩, _, hall⟩
  · exact ⟨⟨_, patternLayout_root hemits, rfl⟩, _, hall⟩

end SinglePattern

/-- Skipping a translation unit does not increase the height. -/
theorem height_skipTranslationUnit (up : Option Node) (node : Node) :
    (skipTranslationUnit up node).2.height ≤ node.height := by
  unfold skipTranslationUnit
  split_ifs
  · split
    · exact le_rfl
    · rename_i child rest hchildren
      have hmem : child ∈ node.children := by simp [hchildren]
      exact (height_lt_of_mem hmem).le
  · exact le_rfl

theorem complete_buildText (hbuild : BuildSpec externals source fuel build nesting)
    (up : Option Node) {node : Node} {multiPattern : Bool}
    (hheight : node.height ≤ (if multiPattern then fuel + 1 else fuel)) (strict : Bool) (id : ℕ)
    (constraints : RegexMap) :
    Outcome Genuine (buildText build up node multiPattern strict (.new source id constraints))
      (Complete externals (.new source id constraints)
        (treeNesting nesting up node multiPattern strict)) := by
  have hskip := height_skipTranslationUnit up node
  unfold buildText treeNesting
  rcases hcursor : skipTranslationUnit up node with ⟨up', node'⟩
  rw [hcursor] at hskip
  simp only at hskip ⊢
  cases multiPattern with
  | true =>
    simp only [if_true] at hheight ⊢
    split_ifs
    · refine complete_buildPatterns hbuild node' strict ?_ rfl
      intro child hchild
      have hmem : child ∈ node'.children :=
        List.mem_of_mem_tail (List.dropLast_subset _ hchild)
      have hlt := height_lt_of_mem hmem
      omega
    · intro h
      cases h
  | false =>
    simp only [Bool.false_eq_true, if_false] at hheight ⊢
    exact complete_buildSinglePattern hbuild (hskip.trans hheight) up' strict

/-- A new builder holds nothing. -/
theorem consistent_new (source : String) (id : ℕ) (constraints : RegexMap) :
    Consistent externals (.new source id constraints) where
  trees tree htree := by cases htree
  constrained name constraint h := by cases h
  placed := List.Forall₂.nil

/-- The query tree made of a finished text. -/
def treeOf (id : ℕ) (built : BuiltText) : QueryTree :=
  ⟨⟨built.text⟩, built.builder.captures, built.builder.negations, built.variables, id⟩

theorem finished_treeOf {id : ℕ} {constraints : RegexMap} {shapes : List Shape}
    {built : BuiltText} (h : Complete externals (.new source id constraints) shapes built)
    (haccepted : externals.queryError built.text = none) :
    Finished externals constraints id (.node shapes) (treeOf id built) := by
  obtain ⟨tags, hemits⟩ := h.emits
  have hconsistent := hemits.consistent (consistent_new source id constraints)
  have hconstraints : built.builder.regexConstraints = constraints := hemits.regexConstraints
  have htrees : (treeOf id built).trees =
      treeOf id built :: (held built.builder).flatMap QueryTree.trees := by
    rw [trees_eq, held, List.flatMap_append]
    rfl
  refine ⟨rfl, ?_, ?_⟩
  · intro t ht
    rw [htrees] at ht
    rcases List.mem_cons.mp ht with rfl | hbelow
    · refine ⟨haccepted, h.layout, ?_, ?_⟩
      · rw [← hconstraints]
        exact hconsistent.constrained
      · intro inner hinner
        have hheld : inner.id ∈ heldIds built.builder :=
          List.mem_map_of_mem (List.mem_flatMap.mpr ⟨inner, hinner, mem_trees_self inner⟩)
        exact lt_labelsFrom shapes (hemits.ids.mem_iff.mp hheld)
    · obtain ⟨tree, htree, hmem⟩ := List.mem_flatMap.mp hbelow
      have hwell := hconsistent.trees tree htree t hmem
      rwa [hconstraints] at hwell
  · rw [htrees, List.map_cons, Shape.labels]
    exact List.Perm.cons id hemits.ids

theorem finished_buildTree (hbuild : BuildSpec externals source fuel build nesting)
    (up : Option Node) {node : Node} {multiPattern : Bool}
    (hheight : node.height ≤ (if multiPattern then fuel + 1 else fuel)) (strict : Bool) (id : ℕ)
    (constraints : RegexMap) :
    Outcome Genuine
      (buildTree build externals up node multiPattern strict (.new source id constraints))
      (Finished externals constraints id
        (.node (treeNesting nesting up node multiPattern strict))) := by
  unfold buildTree
  refine outcome_bind (complete_buildText hbuild up hheight strict id constraints) ?_
  intro built hcomplete
  unfold tsQuery
  cases herror : externals.queryError built.text with
  | none => exact finished_treeOf hcomplete herror
  | some message =>
    intro h
    cases h

theorem treeSpec_nestedTree (hbuild : BuildSpec externals source fuel build nesting) :
    TreeSpec externals source fuel (nestedTree build externals) nesting := by
  intro up node id multiPattern strict builder hsource hheight
  unfold nestedTree Ensures
  simp only [hsource]
  refine outcome_bind
    (finished_buildTree hbuild up hheight strict id builder.regexConstraints) ?_
  intro tree hfinished
  exact ⟨rfl, hfinished⟩

theorem height_pos (node : Node) : 0 < node.height := by
  cases node
  rw [Node.height]
  exact Nat.succ_pos _

/-- Calls that meet their specification for every pattern text never lack fuel. -/
theorem allowsParts_genuine {node : Node} (hheight : node.height ≤ fuel + 1)
    (hbuild : ∀ source, BuildSpec externals source fuel build (nestingFuel source fuel)) :
    AllowsParts Genuine build node where
  panic := genuine_panic
  part {up child depth strict parent s e} hchild hrun := by
    have hemits := (hbuild s.querySource).emits up child depth strict parent (by omega) s rfl
    rw [Ensures, hrun] at hemits
    exact hemits

/-- Nor do the queries made by such calls. -/
theorem allowsQueries_genuine {node : Node} (hheight : node.height ≤ fuel + 1)
    (hbuild : ∀ source, BuildSpec externals source fuel build (nestingFuel source fuel)) :
    AllowsQueries Genuine (nestedTree build externals) node := by
  intro up inner id multiPattern strict s e hinner hrun
  have hbound : inner.height ≤ (if multiPattern then fuel + 1 else fuel) := by
    cases multiPattern with
    | true => exact (Nat.le_of_lt_succ hinner).trans hheight
    | false => exact Nat.le_of_lt_succ (hinner.trans_le hheight)
  have hfinished := treeSpec_nestedTree (hbuild s.querySource) up inner id multiPattern strict s rfl
    hbound
  rw [Ensures, hrun] at hfinished
  exact hfinished

/-- The builder meets its specification at every height. -/
theorem buildSpec_buildFuel (externals : Externals) (source : String) (fuel : ℕ) :
    BuildSpec externals source fuel (buildFuel externals fuel) (nestingFuel source fuel) := by
  induction fuel generalizing source with
  | zero =>
    constructor
    · intro up node depth strict parent hheight
      have hpos := height_pos node
      omega
    · intro up node depth strict parent hheight
      have hpos := height_pos node
      omega
  | succ fuel ih =>
    constructor
    · intro up node depth strict parent hheight
      exact emitting_buildBody (allowsParts_genuine hheight ih) (allowsQueries_genuine hheight ih)
        (ih source) (treeSpec_nestedTree (ih source)) hheight up depth strict parent
    · intro up node depth strict parent hheight htoken
      rw [buildFuel, buildBody, htoken]
      rfl

/-- `build_query_tree` never lacks fuel, and the tree it returns is finished:
well-formed at every depth, with ids that follow the nesting of the pattern. -/
theorem finished_buildQueryTree (externals : Externals) (source : String) (up : Option Node)
    (root : Node) (constraints : RegexMap) :
    Outcome Genuine (buildQueryTree externals source up root constraints)
      (Finished externals constraints 0 (patternShape source up root)) :=
  finished_buildTree (buildSpec_buildFuel externals source root.height) up
    (by rw [if_neg Bool.false_ne_true]) false 0 constraints

end WeggliEnhance.QueryTreeConstruction
