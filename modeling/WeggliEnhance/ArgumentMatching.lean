import WeggliEnhance.OutlineSpecification
import WeggliEnhance.QueryEngine
import WeggliEnhance.SiblingPatterns

/-!
# Argument lists

The text that the builder emits for an argument list is matched against the
named children of a source list: a dot asks for the next argument, otherwise
arguments may be skipped. The check on the number of arguments sits on the
capture of the list itself. Which nodes a single pattern matches is left to
tree-sitter.
-/

namespace WeggliEnhance.ArgumentMatching

open SourceText SyntaxTree QueryText ThirdParty QueryTrees QueryEngine PatternBuilder
  PatternNesting BuilderSteps BuilderSpecification QueryOutline OutlineSpecification FallibleState
  SiblingPatterns

/-- A captured node with the name of the capture. -/
abbrev Named := String × Node

/-- Which nodes a pattern matches, and what the pattern captures inside. -/
abbrev ShapeFn := Item → Node → List Named → Prop

/-- A pattern with the names that capture it. -/
structure Step where
  /-- The pattern. -/
  pattern : Item
  /-- The capture suffixes after it. -/
  names : List String

/-- The capture suffixes that follow a pattern directly. -/
def suffixNames (items : List Item) : List String :=
  (items.takeWhile Item.isTag).filterMap Item.suffix?

/-- The patterns of a sequence of siblings, with the anchor before each. There
are no fields in an argument list. -/
def stepsOf : Bool → List Item → List (Bool × Step)
  | _, [] => []
  | anchored, item :: items =>
    match item with
    | .anchor => stepsOf true items
    | .tag _ => stepsOf anchored items
    | .fieldName _ => stepsOf anchored items
    | pattern => (anchored, ⟨pattern, suffixNames items⟩) :: stepsOf false items

/-- A pattern captures the node it matches under its own names. -/
def stepFits (shape : ShapeFn) (step : Step) (node : Node) (captured : List Named) : Prop :=
  ∃ inner, shape step.pattern node inner ∧
    captured = step.names.map (fun name => (name, node)) ++ inner

/-- A match of the text for a list on a node: the children are matched as
siblings, and the node itself is captured. Siblings are read as usual for
tree-sitter patterns, so that a pattern matches a named child. Among all
children, tokens included, a wildcard without parentheses could also match a
token. -/
def FragmentMatch (shape : ShapeFn) : List Item → Node → List Named → Prop
  | .node kind items :: suffix, target, captured =>
    target.kind = kind ∧ ∃ inner,
      SiblingMatch (stepFits shape) (stepsOf false items) target.namedChildren inner ∧
      captured = (suffixNames suffix).map (fun name => (name, target)) ++ inner
  | _, _, _ => False

/-- A pattern that is headed by a node kind matches nodes of that kind only. -/
def RespectsKinds (shape : ShapeFn) : Prop :=
  ∀ kind items node captured, kind ≠ "_" → shape (.node kind items) node captured → node.kind = kind

/-- A captured node passes the check of its capture in `process_match`, and
the predicate of a constant. -/
def Passes (externals : Externals) (source : String) (captures : List Capture) (c : Named) : Prop :=
  ∃ (i : ℕ) (capture : Capture), c.1 = toString i ∧ captures[i]? = some capture ∧
    accepts externals source capture c.2 = .ok true ∧
    ∀ text, capture = .check text → slice source c.2.range = unescape text

/-- Some match of the text on the node passes all checks. -/
def Accepts (shape : ShapeFn) (externals : Externals) (source : String) (captures : List Capture)
    (fragment : List Item) (target : Node) : Prop :=
  ∃ captured, FragmentMatch shape fragment target captured ∧
    ∀ c ∈ captured, Passes externals source captures c

/-- The text for one argument matches a node. -/
def EntryMatches (shape : ShapeFn) (externals : Externals) (source : String)
    (captures : List Capture) (entry : List Item) (node : Node) : Prop :=
  Accepted (stepFits shape) (Passes externals source captures) (stepsOf false entry) [node]

/-- An argument list of a search pattern: expressions between punctuation. -/
structure IsArgumentList (list : Node) : Prop where
  /-- The list is a node of the grammar. -/
  named : list.isNamed = true
  /-- Its kind. -/
  kind : list.kind = "argument_list"
  /-- It holds at least its parentheses. -/
  nonempty : list.children ≠ []
  /-- Arguments are held under no field. -/
  unfielded : ∀ child ∈ list.children, child.field = none
  /-- Its tokens are no keywords. -/
  punctuation : ∀ child ∈ list.children, child.isNamed = false → isKeyword child.kind = false
  /-- Its arguments are no statements. -/
  expressions : ∀ child ∈ list.children, child.kind ≠ "labeled_statement"

/-- An argument other than `__`. The builder does not tell a comment from an
argument. -/
def isFixed (query : String) (child : Node) : Bool := child.isNamed && !isVariadic query child

/-- The entries of a search pattern's list other than `__`, with the comments
in it. -/
def fixedArguments (query : String) (list : Node) : List Node :=
  list.children.filter (isFixed query)

/-- The arguments in an argument list. -/
def actualArguments (target : Node) : List Node :=
  target.children.filter fun child => child.isNamed && child.kind != "comment"

/-- The argument list of a call in the source, without comments. -/
structure IsCommentFree (target : Node) : Prop where
  /-- Its kind. -/
  kind : target.kind = "argument_list"
  /-- Tree-sitter has attached no comments to it. -/
  free : ∀ child ∈ target.children, child.kind ≠ "comment"

theorem namedChildren_of_commentFree {target : Node} (h : IsCommentFree target) :
    target.namedChildren = actualArguments target := by
  refine List.filter_congr ?_
  intro child hchild
  have hkind : (child.kind != "comment") = true := bne_iff_ne.mpr (h.free child hchild)
  rw [hkind, Bool.and_true]

/-- The list holds the variadic wildcard. -/
def hasVariadic (query : String) (list : Node) : Bool := list.children.any (isVariadic query)

/-- The text that `build` emits for an argument of a list. -/
def EmittedFor (externals : Externals) (fuel : ℕ) (query : String) (list : Node) (depth : ℕ)
    (strict : Bool) (child : Node) (entry : List Item) : Prop :=
  ∃ before after : QueryBuilder, before.querySource = query ∧
    buildFuel externals fuel (some list) child (depth + 1) strict list.kind before =
      .ok (entry, after)

section Steps

/-- A text that consists of a pattern and its captures. -/
def IsEntry (entry : List Item) : Prop :=
  ∃ pattern tags, entry = pattern :: tags ∧ Item.isPattern pattern = true ∧
    ∀ tag ∈ tags, Item.isTag tag = true

theorem stepsOf_pattern {pattern : Item} (h : Item.isPattern pattern = true) (anchored : Bool)
    (items : List Item) :
    stepsOf anchored (pattern :: items) =
      (anchored, ⟨pattern, suffixNames items⟩) :: stepsOf false items := by
  cases pattern with
  | fieldName name => cases h
  | anchor => cases h
  | tag tag => cases h
  | _ => rfl

theorem stepsOf_tags {tags : List Item} (h : ∀ tag ∈ tags, Item.isTag tag = true)
    (anchored : Bool) (items : List Item) :
    stepsOf anchored (tags ++ items) = stepsOf anchored items := by
  induction tags with
  | nil => rfl
  | cons tag tags ih =>
    have htag := h tag List.mem_cons_self
    have hrest := ih fun t ht => h t (List.mem_cons_of_mem _ ht)
    cases tag with
    | tag tag => exact hrest
    | _ => cases htag

theorem suffixNames_append {tags items : List Item} (h : ∀ tag ∈ tags, Item.isTag tag = true)
    (hitems : ∀ first ∈ items.head?, Item.isTag first = false) :
    suffixNames (tags ++ items) = suffixNames tags := by
  have htags : tags.takeWhile Item.isTag = tags := by
    have happend : (tags ++ []).takeWhile Item.isTag = tags ++ [].takeWhile Item.isTag :=
      List.takeWhile_append_of_pos h
    rwa [List.takeWhile_nil, List.append_nil] at happend
  have hnone : items.takeWhile Item.isTag = [] := by
    cases items with
    | nil => rfl
    | cons first items =>
      rw [List.takeWhile_cons_of_neg]
      rw [hitems first rfl]
      exact Bool.false_ne_true
  rw [suffixNames, List.takeWhile_append_of_pos h, hnone, List.append_nil, suffixNames, htags]

/-- The text of one argument is one pattern among the siblings. -/
theorem stepsOf_entry {entry : List Item} (h : IsEntry entry) (anchored : Bool) {items : List Item}
    (hitems : ∀ first ∈ items.head?, Item.isTag first = false) :
    ∃ step, stepsOf anchored (entry ++ items) = (anchored, step) :: stepsOf false items ∧
      stepsOf false entry = [(false, step)] := by
  obtain ⟨pattern, tags, rfl, hpattern, htags⟩ := h
  refine ⟨⟨pattern, suffixNames tags⟩, ?_, ?_⟩
  · rw [List.cons_append, stepsOf_pattern hpattern, stepsOf_tags htags,
      suffixNames_append htags hitems]
  · have hnone := stepsOf_tags htags false []
    rw [List.append_nil] at hnone
    rw [stepsOf_pattern hpattern, hnone]
    rfl

/-- The siblings of a list: one pattern for each argument. -/
theorem stepsOf_flatMap (anchoring : Bool) {entries : List (List Item)}
    (h : ∀ entry ∈ entries, IsEntry entry) :
    ∃ steps : List Step,
      stepsOf false (entries.flatMap fun entry => if anchoring then .anchor :: entry else entry) =
        steps.map (fun step => (anchoring, step)) ∧
      List.Forall₂ (fun entry step => stepsOf false entry = [(false, step)]) entries steps := by
  induction entries with
  | nil => exact ⟨[], rfl, .nil⟩
  | cons entry entries ih =>
    obtain ⟨steps, hsteps, hforall⟩ := ih fun e he => h e (List.mem_cons_of_mem _ he)
    have hitems : ∀ first ∈ (entries.flatMap fun entry =>
        if anchoring then Item.anchor :: entry else entry).head?, Item.isTag first = false := by
      intro first hfirst
      cases entries with
      | nil => cases hfirst
      | cons next entries =>
        obtain ⟨pattern, tags, rfl, hpattern, -⟩ :=
          h next (List.mem_cons_of_mem _ List.mem_cons_self)
        cases anchoring with
        | true =>
          cases hfirst
          rfl
        | false =>
          cases hfirst
          cases first with
          | tag tag => cases hpattern
          | _ => rfl
    obtain ⟨step, hstep, hentry⟩ := stepsOf_entry (h entry List.mem_cons_self) anchoring hitems
    refine ⟨step :: steps, ?_, .cons hentry hforall⟩
    rw [List.flatMap_cons, List.map_cons, ← hsteps, ← hstep]
    cases anchoring <;> rfl

end Steps

section Emission

variable {externals : Externals} {query : String} {fuel : ℕ} {list : Node} {depth : ℕ}
  {strict : Bool}

/-- What is emitted for an expression is never empty. -/
theorem item_isSome (outline : OutlineFn) {child : Node} (hlist : list.kind = "argument_list")
    (hchild : child.kind ≠ "labeled_statement") (parent : String) :
    ∃ item, (outlineBody query outline (some list) child (depth + 1) strict parent).item =
      some item := by
  refine Option.ne_none_iff_exists'.mp (item_outlineBody_below (Nat.succ_ne_zero depth) hchild ?_)
  intro _
  unfold isUnwrapped
  cases child.namedChild 0 with
  | none => rfl
  | some first =>
    rw [Option.any_some, Option.any_some, hlist]
    rfl

/-- A text with one pattern that comes first. -/
theorem isEntry_of_writes {items : List Item} {item : Item} (h : Writes items (some item)) :
    IsEntry items := by
  have hlength := length_stripOf items
  rw [h.strip] at hlength
  cases items with
  | nil => cases hlength
  | cons first rest =>
    have hpattern := h.leads first rfl
    have hfirst : Item.isTag first = false := by
      cases first with
      | tag tag => cases hpattern
      | _ => rfl
    refine ⟨first, rest, rfl, hpattern, ?_⟩
    rw [List.filter_cons_of_pos (by rw [hfirst]; rfl), List.length_cons] at hlength
    have hnone : rest.filter (fun item => !Item.isTag item) = [] := by
      refine List.length_eq_zero_iff.mp ?_
      simp only [Option.toList_some, List.length_singleton] at hlength
      omega
    intro tag htag
    have hno := List.filter_eq_nil_iff.mp hnone tag htag
    simpa using hno

/-- The text for one argument. -/
theorem isEntry_of_emittedFor {child : Node} (hlist : list.kind = "argument_list")
    (hchild : child.kind ≠ "labeled_statement") {entry : List Item}
    (h : EmittedFor externals fuel query list depth strict child entry) : IsEntry entry := by
  obtain ⟨before, after, hquery, hbuild⟩ := h
  cases fuel with
  | zero => cases hbuild
  | succ fuel =>
    have houtline := (buildOutline_buildFuel externals query (fuel + 1)).writes
    have hwritten := outcome_ok (houtline (some list) child (depth + 1) strict list.kind before
      hquery) hbuild
    have hsome : ∃ item, (outlineBody query (outlineFuel query fuel) (some list) child (depth + 1)
        strict list.kind).item = some item := item_isSome _ hlist hchild _
    obtain ⟨item, hitem⟩ := hsome
    have hwrites : Writes entry
        (outlineFuel query (fuel + 1) (some list) child (depth + 1) strict list.kind).item :=
      hwritten.2
    rw [outlineFuel, hitem] at hwrites
    exact isEntry_of_writes hwrites

/-- One round of the loop over an argument list: tokens and `__` add nothing,
every other argument adds its text, after a dot if arguments are anchored. -/
theorem emitted_childStep (hlist : IsArgumentList list) {anchoring : Bool} {child : Node}
    (hchild : child ∈ list.children) {builder next : QueryBuilder}
    (hquery : builder.querySource = query) {items : List Item}
    (h : ChildStep (buildFuel externals fuel) list depth strict builder anchoring child items
      next) :
    next.querySource = query ∧
      (isFixed query child = true → ∃ entry,
        EmittedFor externals fuel query list depth strict child entry ∧
        items = if anchoring then .anchor :: entry else entry) ∧
      (isFixed query child = false → items = []) := by
  have hsource : ∀ {items' : List Item} {next' : QueryBuilder},
      buildFuel externals fuel (some list) child (depth + 1) strict list.kind builder =
        .ok (items', next') → next'.querySource = query := by
    intro items' next' hrun
    have houtline := (buildOutline_buildFuel externals query fuel).writes
    have hwritten := ensures_ok (houtline (some list) child (depth + 1) strict list.kind builder
      hquery) hrun
    exact hwritten.1.querySource.trans hquery
  cases h with
  | field hfield _ =>
    rw [hlist.unfielded child hchild] at hfield
    cases hfield
  | skipped hfield hnamed hskipped =>
    rw [isSkipped, hfield, hlist.kind, hquery, Option.isNone_none, beq_self_eq_true,
      Bool.true_and, Bool.true_and] at hskipped
    have hloose : isFixed query child = false := by
      rw [isFixed, hskipped, Bool.not_true, Bool.and_false]
    exact ⟨hquery, fun hfixed => absurd (hfixed.symm.trans hloose) (by decide), fun _ => rfl⟩
  | named hfield hnamed hskipped hitems =>
    rw [isSkipped, hfield, hlist.kind, hquery, Option.isNone_none, beq_self_eq_true,
      Bool.true_and, Bool.true_and] at hskipped
    have hfixed : isFixed query child = true := by
      rw [isFixed, hnamed, hskipped, Bool.not_false, Bool.true_and]
    exact ⟨hsource hitems, fun _ => ⟨_, ⟨builder, next, hquery, hitems⟩, rfl⟩,
      fun hloose => absurd (hfixed.symm.trans hloose) (by decide)⟩
  | keyword _ htoken hkeyword _ =>
    rw [hlist.punctuation child hchild htoken] at hkeyword
    cases hkeyword
  | silent _ htoken _ hitems =>
    have hloose : isFixed query child = false := by
      rw [isFixed, htoken, Bool.false_and]
    exact ⟨hsource hitems, fun hfixed => absurd (hfixed.symm.trans hloose) (by decide),
      fun _ => rfl⟩

/-- The loop over an argument list. -/
theorem emitted_childrenStep (hlist : IsArgumentList list) {anchoring : Bool}
    {children : List Node} (hchildren : children ⊆ list.children) {builder next : QueryBuilder}
    (hquery : builder.querySource = query) {items : List Item}
    (h : ChildrenStep (buildFuel externals fuel) list depth strict anchoring builder children
      items next) :
    ∃ entries, List.Forall₂ (EmittedFor externals fuel query list depth strict)
        (children.filter (isFixed query)) entries ∧
      items = entries.flatMap fun entry => if anchoring then .anchor :: entry else entry := by
  induction h with
  | nil s => exact ⟨[], .nil, rfl⟩
  | cons hchild hrest ih =>
    rename_i child children items rest s s₁ s₂
    obtain ⟨hmem, hothers⟩ := List.cons_subset.mp hchildren
    obtain ⟨hmiddle, hfixed, hskipped⟩ := emitted_childStep hlist hmem hquery hchild
    obtain ⟨entries, hentries, hrest⟩ := ih hothers hmiddle
    by_cases hkept : isFixed query child = true
    · obtain ⟨entry, hentry, hitems⟩ := hfixed hkept
      refine ⟨entry :: entries, ?_, ?_⟩
      · rw [List.filter_cons_of_pos hkept]
        exact .cons hentry hentries
      · rw [List.flatMap_cons, hitems, hrest]
    · refine ⟨entries, ?_, ?_⟩
      · rwa [List.filter_cons_of_neg hkept]
      · rw [hskipped (Bool.eq_false_iff.mpr hkept), hrest, List.nil_append]

/-- Without `__` the fixed arguments are all that is left of the count. -/
theorem namedChildCount_eq (query : String) (list : Node) :
    list.namedChildCount =
      list.children.countP (isVariadic query) + (fixedArguments query list).length := by
  unfold Node.namedChildCount fixedArguments Node.namedChildren
  induction list.children with
  | nil => rfl
  | cons child children ih =>
    rw [List.filter_cons, List.filter_cons, List.countP_cons]
    unfold isFixed at ih ⊢
    cases hnamed : child.isNamed with
    | false =>
      have hother : isVariadic query child = false := by
        rw [isVariadic, hnamed, Bool.false_and, Bool.false_and]
      simp only [hother, Bool.false_and, Bool.false_eq_true, if_false]
      omega
    | true =>
      cases hvariadic : isVariadic query child with
      | false =>
        simp only [Bool.not_false, Bool.and_true, Bool.false_eq_true, if_false, if_true,
          List.length_cons]
        omega
      | true =>
        simp only [Bool.not_true, Bool.and_false, Bool.false_eq_true, if_false, if_true,
          List.length_cons]
        omega

theorem countP_pos_iff_hasVariadic (query : String) (list : Node) :
    decide (0 < list.children.countP (isVariadic query)) = hasVariadic query list := by
  rw [hasVariadic, Bool.eq_iff_iff, decide_eq_true_eq, List.countP_pos_iff, List.any_eq_true]

/-- An argument list has no rule of its own. -/
theorem buildBody_argumentList (build : BuildFn) (queryTree : TreeFn) (hlist : IsArgumentList list)
    (up : Option Node) (parent : String) :
    buildBody build queryTree up list depth strict parent =
      buildDefault build list depth strict := by
  have hspecial : buildSpecial build queryTree up list depth strict parent = pure none := by
    unfold buildSpecial
    rw [hlist.kind]
    rfl
  unfold buildBody
  rw [hlist.named, hspecial]
  rfl

/-- The text for an argument list: the texts of its arguments, and the capture
that counts arguments. -/
theorem exists_emitted (hlist : IsArgumentList list) {up : Option Node} {parent : String}
    {builder next : QueryBuilder} (hquery : builder.querySource = query) {fragment : List Item}
    (hbuild : buildFuel externals (fuel + 1) up list depth strict parent builder =
      .ok (fragment, next)) :
    ∃ entries, ∃ last : ℕ, List.Forall₂ (EmittedFor externals fuel query list depth strict)
        (fixedArguments query list) entries ∧
      fragment = [.node "argument_list" (entries.flatMap fun entry =>
        if isAnchored query list then .anchor :: entry else entry), captureItem (toString last)] ∧
      next.captures[last]? =
        some (.callExpQuery (fixedArguments query list).length (hasVariadic query list)) := by
  have hrun : buildDefault (buildFuel externals fuel) list depth strict builder =
      .ok (fragment, next) := by
    rw [← hbuild, buildFuel, buildBody_argumentList _ _ hlist]
  have hcount := namedChildCount_eq query list
  have hvariadics : variadicCount list builder =
      list.children.countP (isVariadic query) := by
    rw [variadicCount, hquery, if_pos (beq_iff_eq.mpr hlist.kind)]
  cases (ensures_ok (steps_buildDefault (allowsParts _ _)) hrun :) with
  | leaf hempty => exact absurd hempty hlist.nonempty
  | counted _ _ hitems =>
    obtain ⟨entries, hentries, rfl⟩ :=
      emitted_childrenStep hlist (List.Subset.refl _) hquery hitems
    rw [hquery]
    refine ⟨entries, _, hentries, by rw [hlist.kind], ?_⟩
    rw [QueryBuilder.push, List.getElem?_concat_length, hvariadics, countP_pos_iff_hasVariadic,
      hcount, Nat.add_sub_cancel_left]
  | copied hother _ => exact absurd hlist.kind hother

/-- What is emitted for a comment is a pattern for comments. -/
theorem emitted_comment {child : Node} (hnamed : child.isNamed = true)
    (hkind : child.kind = "comment") {entry : List Item}
    (h : EmittedFor externals fuel query list depth strict child entry) :
    ∃ items, entry = [.node "comment" items] := by
  obtain ⟨before, after, -, hbuild⟩ := h
  cases fuel with
  | zero => cases hbuild
  | succ fuel =>
    have hspecial : buildSpecial (buildFuel externals fuel)
        (nestedTree (buildFuel externals fuel) externals) (some list) child (depth + 1) strict
        list.kind = pure none := by
      unfold buildSpecial
      rw [hkind]
      rfl
    rw [buildFuel, buildBody, hnamed, hspecial] at hbuild
    cases (ensures_ok (steps_buildDefault (allowsParts _ _)) hbuild :) with
    | leaf _ => exact ⟨[], by rw [hkind]⟩
    | counted _ hlist _ => exact absurd (hkind.symm.trans hlist) (by decide)
    | copied _ _ => exact ⟨_, by rw [hkind]⟩

end Emission

section Matching

variable {shape : ShapeFn} {externals : Externals} {source : String} {captures : List Capture}

theorem passes_toString_iff {i : ℕ} {capture : Capture} (h : captures[i]? = some capture)
    (hcheck : ∀ text, capture ≠ .check text) {node : Node} :
    Passes externals source captures (toString i, node) ↔
      accepts externals source capture node = .ok true := by
  constructor
  · rintro ⟨j, other, hname, hother, haccepts, -⟩
    obtain rfl := toString_injective hname
    rw [h] at hother
    cases hother
    exact haccepts
  · intro haccepts
    exact ⟨i, capture, rfl, h, haccepts, fun text heq => absurd heq (hcheck text)⟩

/-- The text of a list is accepted when the count is right and its patterns
are accepted as siblings. -/
theorem accepts_fragment_iff {items : List Item} {last count : ℕ} {minimum : Bool}
    (h : captures[last]? = some (.callExpQuery count minimum)) {target : Node}
    (htarget : target.kind = "argument_list") :
    Accepts shape externals source captures
        [.node "argument_list" items, captureItem (toString last)] target ↔
      accepts externals source (.callExpQuery count minimum) target = .ok true ∧
      Accepted (stepFits shape) (Passes externals source captures) (stepsOf false items)
        target.namedChildren := by
  have hlist : Passes externals source captures (toString last, target) ↔
      accepts externals source (.callExpQuery count minimum) target = .ok true :=
    passes_toString_iff h fun text heq => by cases heq
  have hsuffix : suffixNames [captureItem (toString last)] = [toString last] := rfl
  constructor
  · rintro ⟨captured, ⟨-, inner, hmatch, rfl⟩, hpasses⟩
    rw [hsuffix, List.map_singleton] at hpasses
    exact ⟨hlist.mp (hpasses _ List.mem_cons_self), inner, hmatch,
      fun c hc => hpasses c (List.mem_cons_of_mem _ hc)⟩
  · rintro ⟨hcount, inner, hmatch, hinner⟩
    refine ⟨_, ⟨htarget, inner, hmatch, rfl⟩, ?_⟩
    rw [hsuffix, List.map_singleton]
    intro c hc
    rcases List.mem_cons.mp hc with rfl | hin
    · exact hlist.mpr hcount
    · exact hinner c hin

theorem entryMatches_iff {entry : List Item} {step : Step}
    (h : stepsOf false entry = [(false, step)]) {node : Node} :
    EntryMatches shape externals source captures entry node ↔
      Passing (stepFits shape) (Passes externals source captures) step node := by
  have hlength : [(false, step)].length = [node].length := rfl
  rw [EntryMatches, h, accepted_iff_forall₂ hlength, List.forall₂_cons]
  exact ⟨fun hpassing => hpassing.1, fun hpassing => ⟨hpassing, .nil⟩⟩

/-- The patterns of a list match nodes when the texts of its arguments do. -/
theorem forall₂_steps_iff (anchoring : Bool) {entries : List (List Item)} {steps : List Step}
    (h : List.Forall₂ (fun entry step => stepsOf false entry = [(false, step)]) entries steps)
    {nodes : List Node} :
    List.Forall₂ (fun entry node =>
        Passing (stepFits shape) (Passes externals source captures) entry.2 node)
        (steps.map fun step => (anchoring, step)) nodes ↔
      List.Forall₂ (EntryMatches shape externals source captures) entries nodes := by
  induction h generalizing nodes with
  | nil => rw [List.map_nil, List.forall₂_nil_left_iff, List.forall₂_nil_left_iff]
  | cons hentry hrest ih =>
    cases nodes with
    | nil =>
      rw [List.forall₂_nil_right_iff, List.forall₂_nil_right_iff]
      simp
    | cons node nodes =>
      rw [List.map_cons, List.forall₂_cons, List.forall₂_cons, ih, entryMatches_iff hentry]

/-- The text for a comment matches no argument of a call without comments. -/
theorem not_forall₂_of_comment {query : String} {fuel : ℕ} {list target : Node} {depth : ℕ}
    {strict : Bool} {entries : List (List Item)} (hshape : RespectsKinds shape)
    (hemitted : List.Forall₂ (EmittedFor externals fuel query list depth strict)
      list.namedChildren entries)
    (hcomment : ¬∀ child ∈ list.namedChildren, child.kind ≠ "comment")
    (htarget : IsCommentFree target) :
    ¬List.Forall₂ (EntryMatches shape externals source captures) entries
      (actualArguments target) := by
  intro hmatches
  simp only [not_forall, not_not] at hcomment
  obtain ⟨child, hchild, hkind⟩ := hcomment
  obtain ⟨i, hi, rfl⟩ := List.mem_iff_getElem.mp hchild
  obtain ⟨hlength, hget⟩ := List.forall₂_iff_get.mp hemitted
  obtain ⟨hlength', hget'⟩ := List.forall₂_iff_get.mp hmatches
  have hnamed := (List.mem_filter.mp hchild).2
  obtain ⟨items, hentry⟩ := emitted_comment hnamed hkind (hget i hi (hlength ▸ hi))
  have hmatch := hget' i (hlength ▸ hi) (hlength' ▸ hlength ▸ hi)
  have hstep : stepsOf false [Item.node "comment" items] =
      [(false, ⟨.node "comment" items, []⟩)] := rfl
  rw [hentry, entryMatches_iff hstep] at hmatch
  obtain ⟨captured, ⟨inner, hinner, -⟩, -⟩ := hmatch
  have hmem := (List.mem_filter.mp (List.getElem_mem (hlength' ▸ hlength ▸ hi))).1
  exact htarget.free _ hmem (hshape _ _ _ _ (by decide) hinner)

theorem getElem?_of_isPrefix {captures more : List Capture} (h : captures <+: more) {i : ℕ}
    {capture : Capture} (hi : captures[i]? = some capture) : more[i]? = some capture := by
  obtain ⟨rest, rfl⟩ := h
  rw [List.getElem?_append_left (List.getElem?_eq_some_iff.mp hi).1]
  exact hi

end Matching

section Samples

/-- The argument list of the search pattern `f(a);`. -/
def exactList : Node :=
  rule 0 "argument_list" 1 4 [token 1 "(" 1 2, rule 2 "identifier" 2 3 [], token 3 ")" 3 4]

/-- The argument list of the search pattern `f(a, __);`. -/
def variadicList : Node :=
  rule 0 "argument_list" 1 8 [token 1 "(" 1 2, rule 2 "identifier" 2 3 [], token 3 "," 3 4,
    rule 4 "identifier" 5 7 [], token 5 ")" 7 8]

/-- The argument list of the call `f(b, a)`. -/
def swappedCall : Node :=
  rule 0 "argument_list" 1 7 [token 1 "(" 1 2, rule 2 "identifier" 2 3 [], token 3 "," 3 4,
    rule 4 "identifier" 5 6 [], token 5 ")" 6 7]

/-- The argument list of the search pattern `f(a /* */);`, or of such a call. -/
def commentedList : Node :=
  rule 0 "argument_list" 1 10
    [token 1 "(" 1 2, rule 2 "identifier" 2 3 [], rule 4 "comment" 4 9 [], token 3 ")" 9 10]

/-- Patterns without children match nodes of their kinds. -/
def leafShape : ShapeFn := fun item node inner => node.kind ∈ itemKinds item ∧ inner = []

theorem isArgumentList_exactList : IsArgumentList exactList where
  named := rfl
  kind := rfl
  nonempty := by decide
  unfielded := by decide
  punctuation := by decide
  expressions := by decide

theorem isArgumentList_variadicList : IsArgumentList variadicList where
  named := rfl
  kind := rfl
  nonempty := by decide
  unfielded := by decide
  punctuation := by decide
  expressions := by decide

theorem isArgumentList_commentedList : IsArgumentList commentedList where
  named := rfl
  kind := rfl
  nonempty := by decide
  unfielded := by decide
  punctuation := by decide
  expressions := by decide

theorem respectsKinds_leafShape : RespectsKinds leafShape := by
  rintro kind items node captured - ⟨hkind, -⟩
  exact List.mem_singleton.mp hkind

theorem isCommentFree_swappedCall : IsCommentFree swappedCall := ⟨rfl, by decide⟩

/-- The text for the argument `a`. -/
def nameEntry : List Item := [.node "identifier" [], captureItem "0"]

theorem build_exactList :
    buildFuel sampleExternals 2 none exactList 1 false "call_expression" (.new "f(a);" 0 ∅) =
      .ok ([.node "argument_list" nameEntry, captureItem "1"],
        { QueryBuilder.new "f(a);" 0 ∅ with captures := [.check "a", .callExpQuery 1 false] }) := by
  rfl

theorem build_commentedList :
    buildFuel sampleExternals 2 none commentedList 1 false "call_expression"
        (.new "f(a /* */);" 0 ∅) =
      .ok ([.node "argument_list" (.anchor :: nameEntry ++ [.anchor, .node "comment" []]),
          captureItem "1"],
        { QueryBuilder.new "f(a /* */);" 0 ∅ with
          captures := [.check "a", .callExpQuery 2 false] }) := by
  rfl

theorem build_variadicList :
    buildFuel sampleExternals 2 none variadicList 1 false "call_expression" (.new "f(a, __);" 0 ∅) =
      .ok ([.node "argument_list" nameEntry, captureItem "1"],
        { QueryBuilder.new "f(a, __);" 0 ∅ with
          captures := [.check "a", .callExpQuery 1 true] }) := by
  rfl

end Samples

section Results

variable {externals : Externals} {query : String} {fuel : ℕ} {list : Node} {depth : ℕ}
  {strict : Bool} {up : Option Node} {parent : String} {builder next : QueryBuilder}
  {fragment : List Item}

/-- Acceptance of the text of an argument list in terms of its siblings. -/
theorem accepts_iff_accepted (hlist : IsArgumentList list) (hquery : builder.querySource = query)
    (hbuild : buildFuel externals (fuel + 1) up list depth strict parent builder =
      .ok (fragment, next)) :
    ∃ entries, ∃ steps : List Step,
      List.Forall₂ (EmittedFor externals fuel query list depth strict)
        (fixedArguments query list) entries ∧
      List.Forall₂ (fun entry step => stepsOf false entry = [(false, step)]) entries steps ∧
      ∀ shape source captures target, next.captures <+: captures → IsCommentFree target →
        (Accepts shape externals source captures fragment target ↔
          accepts externals source (.callExpQuery entries.length (hasVariadic query list)) target =
            .ok true ∧
          Accepted (stepFits shape) (Passes externals source captures)
            (steps.map fun step => (isAnchored query list, step)) (actualArguments target)) := by
  obtain ⟨entries, last, hemitted, rfl, hlast⟩ := exists_emitted hlist hquery hbuild
  have hentries : ∀ entry ∈ entries, IsEntry entry := by
    intro entry hentry
    obtain ⟨i, hi, rfl⟩ := List.mem_iff_getElem.mp hentry
    obtain ⟨hlength, hget⟩ := List.forall₂_iff_get.mp hemitted
    have hchild := List.mem_filter.mp (List.getElem_mem (hlength ▸ hi))
    exact isEntry_of_emittedFor hlist.kind (hlist.expressions _ hchild.1) (hget i (hlength ▸ hi) hi)
  obtain ⟨steps, hsteps, hforall⟩ := stepsOf_flatMap (isAnchored query list) hentries
  refine ⟨entries, steps, hemitted, hforall, ?_⟩
  intro shape source captures target hcaptures htarget
  rw [accepts_fragment_iff (getElem?_of_isPrefix hcaptures hlast) htarget.kind, hsteps,
    hemitted.length_eq, namedChildren_of_commentFree htarget]

/-- Positional matching. Without `__` the text of an argument list is accepted
on the arguments of a call when there are as many arguments as named children
and the text of each child matches the argument in its place. -/
theorem accepts_positional_iff (hlist : IsArgumentList list)
    (hexact : hasVariadic query list = false) (hquery : builder.querySource = query)
    (hbuild : buildFuel externals (fuel + 1) up list depth strict parent builder =
      .ok (fragment, next)) :
    ∃ entries, List.Forall₂ (EmittedFor externals fuel query list depth strict)
        list.namedChildren entries ∧
      ∀ shape source captures target, next.captures <+: captures → IsCommentFree target →
        (Accepts shape externals source captures fragment target ↔
          List.Forall₂ (EntryMatches shape externals source captures) entries
            (actualArguments target)) := by
  obtain ⟨entries, steps, hemitted, hforall, hiff⟩ := accepts_iff_accepted hlist hquery hbuild
  have hall : fixedArguments query list = list.namedChildren := by
    refine List.filter_congr ?_
    intro child hchild
    have hfixed := List.any_eq_false.mp hexact child hchild
    rw [isFixed, Bool.eq_false_iff.mpr hfixed, Bool.not_false, Bool.and_true]
  refine ⟨entries, hall ▸ hemitted, ?_⟩
  intro shape source captures target hcaptures htarget
  have hcount : accepts externals source (.callExpQuery entries.length false) target = .ok true ↔
      (actualArguments target).length = entries.length := by
    rw [accepts, if_neg Bool.false_ne_true, Node.namedChildCount,
      namedChildren_of_commentFree htarget]
    simp
  rw [hiff shape source captures target hcaptures htarget, hexact, hcount]
  constructor
  · rintro ⟨hlength, haccepted⟩
    rw [accepted_iff_forall₂ (by rw [List.length_map, ← hforall.length_eq, hlength]),
      forall₂_steps_iff _ hforall] at haccepted
    exact haccepted
  · intro hmatches
    refine ⟨hmatches.length_eq.symm, ?_⟩
    rw [accepted_iff_forall₂ (by
      rw [List.length_map, ← hforall.length_eq, hmatches.length_eq]),
      forall₂_steps_iff _ hforall]
    exact hmatches

/-- Some members of a list with what corresponds to them. -/
theorem exists_forall₂_filter {α β : Type*} {R : α → β → Prop} {left : List α} {right : List β}
    (h : List.Forall₂ R left right) (p : α → Bool) :
    ∃ kept : List β, kept.Sublist right ∧ List.Forall₂ R (left.filter p) kept := by
  induction h with
  | nil => exact ⟨[], List.Sublist.refl _, .nil⟩
  | @cons a b left right hfirst _ ih =>
    obtain ⟨kept, hsublist, hkept⟩ := ih
    by_cases ha : p a = true
    · rw [List.filter_cons_of_pos ha]
      exact ⟨b :: kept, hsublist.cons_cons b, .cons hfirst hkept⟩
    · rw [List.filter_cons_of_neg ha]
      exact ⟨kept, hsublist.cons b, hkept⟩

/-- When argument matching is exact. Let the list of a search pattern have no
`__`. On a call without comments the text of the list does what it should,
which is to be accepted if and only if there are as many arguments on both
sides and each argument of the pattern matches the one in its place, if and
only if the pattern has no comment in its list or the arguments do not match
anyway: the builder takes a comment for an argument, and with one the text is
never accepted. -/
theorem accepts_exact_iff (hlist : IsArgumentList list)
    (hexact : hasVariadic query list = false) (hquery : builder.querySource = query)
    (hbuild : buildFuel externals (fuel + 1) up list depth strict parent builder =
      .ok (fragment, next)) :
    ∃ entries, List.Forall₂ (EmittedFor externals fuel query list depth strict)
        (actualArguments list) entries ∧
      ∀ shape source captures target, RespectsKinds shape → next.captures <+: captures →
        IsCommentFree target →
        ((Accepts shape externals source captures fragment target ↔
            List.Forall₂ (EntryMatches shape externals source captures) entries
              (actualArguments target)) ↔
          (∀ child ∈ list.namedChildren, child.kind ≠ "comment") ∨
            ¬List.Forall₂ (EntryMatches shape externals source captures) entries
              (actualArguments target)) := by
  obtain ⟨entries, hemitted, hiff⟩ := accepts_positional_iff hlist hexact hquery hbuild
  have harguments : actualArguments list =
      list.namedChildren.filter fun child => child.kind != "comment" := by
    rw [actualArguments, Node.namedChildren, List.filter_filter]
    simp only [Bool.and_comm]
  by_cases hplain : ∀ child ∈ list.namedChildren, child.kind ≠ "comment"
  · have hall : actualArguments list = list.namedChildren := by
      rw [harguments, List.filter_eq_self]
      exact fun child hchild => bne_iff_ne.mpr (hplain child hchild)
    refine ⟨entries, hall ▸ hemitted, ?_⟩
    intro shape source captures target _ hcaptures htarget
    exact iff_of_true (hiff shape source captures target hcaptures htarget) (.inl hplain)
  · obtain ⟨kept, -, hkept⟩ :=
      exists_forall₂_filter hemitted fun child => child.kind != "comment"
    refine ⟨kept, harguments ▸ hkept, ?_⟩
    intro shape source captures target hshape hcaptures htarget
    have hrejected : ¬Accepts shape externals source captures fragment target := by
      rw [hiff shape source captures target hcaptures htarget]
      exact not_forall₂_of_comment hshape hemitted hplain htarget
    simp only [hrejected, hplain, false_iff, false_or]

/-- A list with a comment, on calls that are read by the kinds of nodes. -/
theorem accepts_exact_iff_sample :
    ∃ fragment next,
      buildFuel sampleExternals 2 none commentedList 1 false "call_expression"
        (.new "f(a /* */);" 0 ∅) = .ok (fragment, next) ∧
      ∃ entries, List.Forall₂ (EmittedFor sampleExternals 1 "f(a /* */);" commentedList 1 false)
          (actualArguments commentedList) entries ∧
        ∀ source captures target, next.captures <+: captures → IsCommentFree target →
          ((Accepts leafShape sampleExternals source captures fragment target ↔
              List.Forall₂ (EntryMatches leafShape sampleExternals source captures) entries
                (actualArguments target)) ↔
            (∀ child ∈ commentedList.namedChildren, child.kind ≠ "comment") ∨
              ¬List.Forall₂ (EntryMatches leafShape sampleExternals source captures) entries
                (actualArguments target)) := by
  obtain ⟨entries, hemitted, hiff⟩ := accepts_exact_iff isArgumentList_commentedList (by decide) rfl
    build_commentedList
  exact ⟨_, _, build_commentedList, entries, hemitted, fun source captures target =>
    hiff leafShape source captures target respectsKinds_leafShape⟩

/-- The text for the list of `f(a /* */)` rejects the call `f(a)`, whose only
argument matches. -/
theorem not_accepts_exact_commentedList :
    ∃ fragment next,
      buildFuel sampleExternals 2 none commentedList 1 false "call_expression"
        (.new "f(a /* */);" 0 ∅) = .ok (fragment, next) ∧
      List.Forall₂ (EmittedFor sampleExternals 1 "f(a /* */);" commentedList 1 false)
        (actualArguments commentedList) [nameEntry] ∧
      IsCommentFree exactList ∧
      ¬(Accepts leafShape sampleExternals "f(a)" next.captures fragment exactList ↔
        List.Forall₂ (EntryMatches leafShape sampleExternals "f(a)" next.captures) [nameEntry]
          (actualArguments exactList)) := by
  have hemitted : List.Forall₂ (EmittedFor sampleExternals 1 "f(a /* */);" commentedList 1 false)
      (actualArguments commentedList) [nameEntry] :=
    .cons ⟨.new "f(a /* */);" 0 ∅, _, rfl, rfl⟩ .nil
  have hcount : [Capture.check "a", .callExpQuery 2 false][1]? = some (.callExpQuery 2 false) := rfl
  have hstep : stepsOf false nameEntry = [(false, ⟨.node "identifier" [], ["0"]⟩)] := rfl
  have hmatches : EntryMatches leafShape sampleExternals "f(a)"
      [.check "a", .callExpQuery 2 false] nameEntry (rule 2 "identifier" 2 3 []) := by
    refine (entryMatches_iff hstep).mpr ⟨_, ⟨[], ⟨List.mem_cons_self, rfl⟩, rfl⟩, ?_⟩
    intro c hc
    rw [List.mem_singleton.mp hc]
    refine ⟨0, .check "a", by rfl, rfl, rfl, ?_⟩
    rintro _ ⟨⟩
    decide
  refine ⟨_, _, build_commentedList, hemitted, ⟨rfl, by decide⟩, ?_⟩
  intro hiff
  have haccepts := hiff.mpr (.cons hmatches .nil)
  have hpassed := ((accepts_fragment_iff hcount rfl).mp haccepts).1
  exact absurd hpassed (by decide)

/-- With `__` the text of an argument list is accepted on the arguments of a
call when the other entries match some of the arguments in order. -/
theorem accepts_variadic_iff (hlist : IsArgumentList list)
    (hvariadic : hasVariadic query list = true) (hquery : builder.querySource = query)
    (hbuild : buildFuel externals (fuel + 1) up list depth strict parent builder =
      .ok (fragment, next)) :
    ∃ entries, List.Forall₂ (EmittedFor externals fuel query list depth strict)
        (fixedArguments query list) entries ∧
      ∀ shape source captures target, next.captures <+: captures → IsCommentFree target →
        (Accepts shape externals source captures fragment target ↔
          ∃ taken, taken.Sublist (actualArguments target) ∧
            List.Forall₂ (EntryMatches shape externals source captures) entries taken) := by
  obtain ⟨entries, steps, hemitted, hforall, hiff⟩ := accepts_iff_accepted hlist hquery hbuild
  refine ⟨entries, hemitted, ?_⟩
  intro shape source captures target hcaptures htarget
  have hcount : accepts externals source (.callExpQuery entries.length true) target = .ok true ↔
      entries.length ≤ (actualArguments target).length := by
    rw [accepts, if_pos rfl, Node.namedChildCount, namedChildren_of_commentFree htarget]
    simp
  have hfree : isAnchored query list = false := by
    have hpos : 0 < list.children.countP (isVariadic query) := by
      rw [← countP_pos_iff_hasVariadic, decide_eq_true_eq] at hvariadic
      exact hvariadic
    rw [isAnchored, beq_eq_false_iff_ne.mpr (Nat.ne_of_gt hpos), Bool.and_false]
  have hunanchored : ∀ entry ∈ steps.map fun step => (isAnchored query list, step),
      entry.1 = false := by
    intro entry hentry
    obtain ⟨step, -, rfl⟩ := List.mem_map.mp hentry
    exact hfree
  rw [hiff shape source captures target hcaptures htarget, hvariadic, hcount,
    accepted_iff_sublist hunanchored]
  simp only [forall₂_steps_iff _ hforall]
  constructor
  · rintro ⟨-, htaken⟩
    exact htaken
  · rintro ⟨taken, hsublist, hmatches⟩
    exact ⟨hmatches.length_eq ▸ hsublist.length_le, taken, hsublist, hmatches⟩

/-- The text for the list of `f(a, __);`. -/
theorem accepts_variadic_iff_sample :
    ∃ fragment next,
      buildFuel sampleExternals 2 none variadicList 1 false "call_expression"
        (.new "f(a, __);" 0 ∅) = .ok (fragment, next) ∧
      ∃ entries, List.Forall₂ (EmittedFor sampleExternals 1 "f(a, __);" variadicList 1 false)
          (fixedArguments "f(a, __);" variadicList) entries ∧
        ∀ shape source captures target, next.captures <+: captures → IsCommentFree target →
          (Accepts shape sampleExternals source captures fragment target ↔
            ∃ taken, taken.Sublist (actualArguments target) ∧
              List.Forall₂ (EntryMatches shape sampleExternals source captures) entries taken) :=
  ⟨_, _, build_variadicList,
    accepts_variadic_iff isArgumentList_variadicList (by decide) rfl build_variadicList⟩

/-- The arguments are split in the order of the entries: one argument for each
text, and any run of arguments for each `__`. -/
def Arranged (fits : List Item → Node → Prop) : List (Option (List Item)) → List Node → Prop
  | [], arguments => arguments = []
  | some entry :: entries, arguments =>
    ∃ first rest, arguments = first :: rest ∧ fits entry first ∧ Arranged fits entries rest
  | none :: entries, arguments => ∃ run rest, arguments = run ++ rest ∧ Arranged fits entries rest

/-- The text for `f(a, __)` is accepted on `f(b, a)`, whose first argument is
not `a`. -/
theorem not_arranged_swappedCall :
    ∃ fragment next,
      buildFuel sampleExternals 2 none variadicList 1 false "call_expression"
        (.new "f(a, __);" 0 ∅) = .ok (fragment, next) ∧
      List.Forall₂ (EmittedFor sampleExternals 1 "f(a, __);" variadicList 1 false)
        (fixedArguments "f(a, __);" variadicList) [nameEntry] ∧
      IsCommentFree swappedCall ∧
      ¬ (Accepts leafShape sampleExternals "f(b, a)" next.captures fragment swappedCall ↔
        Arranged (EntryMatches leafShape sampleExternals "f(b, a)" next.captures)
          [some nameEntry, none] (actualArguments swappedCall)) := by
  have hemitted : List.Forall₂ (EmittedFor sampleExternals 1 "f(a, __);" variadicList 1 false)
      (fixedArguments "f(a, __);" variadicList) [nameEntry] :=
    .cons ⟨.new "f(a, __);" 0 ∅, _, rfl, rfl⟩ .nil
  have hstep : stepsOf false nameEntry = [(false, ⟨.node "identifier" [], ["0"]⟩)] := rfl
  have hcount : [Capture.check "a", .callExpQuery 1 true][1]? = some (.callExpQuery 1 true) := rfl
  have hsecond : Passes sampleExternals "f(b, a)" [.check "a", .callExpQuery 1 true]
      ("0", rule 4 "identifier" 5 6 []) := by
    refine ⟨0, .check "a", by rfl, rfl, rfl, ?_⟩
    rintro _ ⟨⟩
    rfl
  have haccepted : Accepted (stepFits leafShape)
      (Passes sampleExternals "f(b, a)" [.check "a", .callExpQuery 1 true])
      (stepsOf false nameEntry) swappedCall.namedChildren := by
    refine ⟨_, .skip (.take ⟨[], ⟨List.mem_cons_self, rfl⟩, rfl⟩ (.done [])), ?_⟩
    intro c hc
    rw [List.mem_singleton.mp hc]
    exact hsecond
  refine ⟨_, _, build_variadicList, hemitted, isCommentFree_swappedCall, ?_⟩
  intro hiff
  have haccepts := hiff.mp ((accepts_fragment_iff hcount rfl).mpr ⟨by rfl, haccepted⟩)
  obtain ⟨first, rest, harguments, hfirst, -⟩ := haccepts
  obtain rfl : rule 2 "identifier" 2 3 [] = first := (List.cons.inj harguments).1
  obtain ⟨captured, ⟨inner, -, rfl⟩, hpasses⟩ := (entryMatches_iff hstep).mp hfirst
  obtain ⟨i, capture, hname, hcapture, -, htext⟩ := hpasses ("0", _) List.mem_cons_self
  obtain rfl : 0 = i := toString_injective hname
  have hcheck : Capture.check "a" = capture := Option.some.inj hcapture
  have hslice := htext "a" hcheck.symm
  exact absurd hslice (by decide)

end Results

end WeggliEnhance.ArgumentMatching
