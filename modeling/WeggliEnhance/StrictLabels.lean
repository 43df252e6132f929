import WeggliEnhance.BlankStatements
import WeggliEnhance.DenotationalCursor
import WeggliEnhance.SearchPatterns

/-!
# Strict labels only narrow

The pattern for a statement with the label `strict:` in a block beside the
pattern for the statement without the label, from one state of the builder.
Every match of the first is a match of the second with the same captures, and
the captures check the same, up to sub-queries that find less. The label
takes its second named child for the statement. That is the statement itself
unless a comment stands in between, and a comment is matched by blank
statements only.
-/

namespace WeggliEnhance.StrictLabels

open SourceText SyntaxTree QueryText ThirdParty QueryTrees QueryResults QueryEngine PatternBuilder
  PatternNesting BuilderSpecification QueryTreeConstruction QueryOutline OutlineSpecification
  ArgumentMatching FallibleState PairedRuns PatternSemantics QueryCorrespondence MirroredPatterns
  MirroredBuilding MirroredQueries MovedPatterns NarrowedTexts NarrowedQueries StrictBuilding
  StrictQueries StrictStatements BlankStatements DenotationalCursor SearchPatterns

/-- A statement with the label `strict:` and what stands between the label and
the statement. -/
structure Labelled (source : String) (labelled : Node) (between : List Node) (statement : Node) :
    Prop where
  /-- Statements are named nodes. -/
  named : labelled.isNamed = true
  /-- The kind of labelled statements. -/
  kind : labelled.kind = "labeled_statement"
  /-- The label. -/
  label : label source labelled = some "STRICT"
  /-- The label is a named node and comes first, the statement comes last. -/
  children : ∃ first : Node, first.isNamed = true ∧
    labelled.children = first :: (between ++ [statement])
  /-- Comments and punctuation stand in between. -/
  between : ∀ node ∈ between, Comment node ∨ node.isNamed = false

/-- The builder in the same state over another pattern text. -/
def withSource (builder : QueryBuilder) (source : String) : QueryBuilder :=
  { builder with querySource := source }

/-- Every result of the first query is a result of the second, with every
cursor that reads patterns denotationally, in every source. -/
def FindsLess (tree tree' : QueryTree) : Prop :=
  ∀ externals, ReadsPatterns externals → ∀ source root,
    Within (matchUncached externals source tree root) (matchUncached externals source tree' root)

/-- Captures that check the same, up to sub-queries that find less. -/
def SameCheck (capture capture' : Capture) : Prop :=
  capture' = capture ∨ ∃ tree tree', capture = .subWildQuery tree ∧ capture' = .subWildQuery tree' ∧
    FindsLess tree tree'

/-- The first text finds nothing that the second does not find. -/
structure OnlyNarrows (built built' : BuiltText) : Prop where
  /-- Every match of a pattern is one of the other pattern, with the same
  captures in the same order. -/
  patterns : List.Forall₂ MatchedBy built.text built'.text
  /-- The captures check the same. -/
  captures : List.Forall₂ SameCheck built.builder.captures built'.builder.captures
  /-- The negations are the same. -/
  negations : built'.builder.negations = built.builder.negations
  /-- The variables are the same. -/
  vars : built'.variables = built.variables

/-- A labelled statement in one block only narrows the plain statement in
another block. The first may be rejected by tree-sitter instead. -/
def StrictNarrows (externals : Externals) (bound bound' : ℕ) (block block' labelled plain : Node)
    (s t : QueryBuilder) : Prop :=
  Joint Rejected (buildPatterns (buildFuel externals bound) block false [labelled] s)
    (buildPatterns (buildFuel externals bound') block' false [plain] t) OnlyNarrows

variable {source source' : String} {labelled statement statement' : Node} {between : List Node}

section Labels

/-- Without comments the label takes its own statement. -/
theorem namedChild_uncommented (h : Labelled source labelled between statement)
    (hnamed : statement.isNamed = true) (hgap : ∀ node ∈ between, ¬Comment node) :
    labelled.namedChild 1 = some statement := by
  obtain ⟨first, hfirst, hchildren⟩ := h.children
  have hskipped : between.filter Node.isNamed = [] := by
    rw [List.filter_eq_nil_iff]
    intro node hnode
    rw [(h.between node hnode).resolve_left (hgap node hnode)]
    exact Bool.false_ne_true
  rw [Node.namedChild, Node.namedChildren, hchildren, List.filter_cons_of_pos hfirst,
    List.filter_append, hskipped, List.filter_cons_of_pos hnamed]
  rfl

/-- Otherwise it takes the first comment. -/
theorem namedChild_commented (h : Labelled source labelled between statement)
    (hgap : ¬∀ node ∈ between, ¬Comment node) :
    ∃ comment, labelled.namedChild 1 = some comment ∧ Comment comment := by
  obtain ⟨first, hfirst, hchildren⟩ := h.children
  simp only [not_forall, not_not] at hgap
  obtain ⟨found, hfound, hcomment⟩ := hgap
  have hmem : found ∈ between.filter Node.isNamed := List.mem_filter.mpr ⟨hfound, hcomment.named⟩
  cases hfilter : between.filter Node.isNamed with
  | nil =>
    rw [hfilter] at hmem
    cases hmem
  | cons comment rest =>
    have htaken : comment ∈ between.filter Node.isNamed := by
      rw [hfilter]
      exact List.mem_cons_self
    obtain ⟨hbetween, hnamed⟩ := List.mem_filter.mp htaken
    refine ⟨comment, ?_, (h.between comment hbetween).resolve_right ?_⟩
    · rw [Node.namedChild, Node.namedChildren, hchildren, List.filter_cons_of_pos hfirst,
        List.filter_append, hfilter]
      rfl
    · rw [hnamed]
      exact Bool.false_ne_true.symm

theorem statement_mem (h : Labelled source labelled between statement) :
    statement ∈ labelled.children := by
  obtain ⟨first, -, hchildren⟩ := h.children
  rw [hchildren]
  exact List.mem_cons_of_mem _ (List.mem_append_right _ List.mem_cons_self)

/-- What the grammar says about words holds at every place. -/
theorem lexical_of_moved (h : Lexical statement)
    (hmoved : Moved source source' statement statement') : Lexical statement' := by
  constructor
  · intro inner' hinner' hkind'
    obtain ⟨inner, hinner, hsame⟩ := exists_moved_of_mem hmoved hinner'
    have hchildren := h.comments inner hinner ((alike_of_mirrored hsame).kind.symm.trans hkind')
    cases hsame with
    | keep _ _ hheld =>
      rw [hchildren] at hheld
      exact List.forall₂_nil_left_iff.mp hheld
    | swap _ _ _ hnever => exact absurd hnever id
  · intro inner' hinner'
    obtain ⟨inner, hinner, hsame⟩ := exists_moved_of_mem hmoved hinner'
    rw [(alike_of_mirrored hsame).kind]
    exact h.kinds inner hinner

end Labels

section Texts

variable {build : BuildFn} {block : Node} {s t s' t' : QueryBuilder}

/-- The text for a block with one statement. -/
def statementText (s : QueryBuilder) (items : List Item) (s' : QueryBuilder) : BuiltText where
  text := if items.isEmpty then []
    else [[.group (items ++ (processCaptures s'.captures s.captures.length).1)]]
  «variables» := (processCaptures s'.captures s.captures.length).2
  builder := s'

theorem buildPatterns_singleton (strict : Bool) (child : Node) :
    buildPatterns build block strict [child] s =
      build (some block) child 0 strict block.kind s >>= fun result =>
        .ok (statementText s result.1 result.2) := by
  rw [buildPatterns]
  change (build (some block) child 0 strict block.kind s >>= _) = _
  congr 1
  funext result
  simp only [buildPatterns, statementText]
  change Except.ok _ = _
  rw [Finset.union_empty]

theorem sameCheck_of_capturesNarrow {loose : Bool} {capture capture' : Capture}
    (h : CapturesNarrow (Narrows loose) capture capture') : SameCheck capture capture' := by
  cases h with
  | same => exact .inl rfl
  | @wild tree tree' htree =>
    refine .inr ⟨tree, tree', rfl, rfl, ?_⟩
    intro externals hreads source root
    exact matchUncached_within hreads
      (treesNarrow_mono (fun _ _ hnarrows => matchedBy_of_narrows hnarrows) htree) root

theorem sameChecks_refl (captures : List Capture) : List.Forall₂ SameCheck captures captures :=
  List.forall₂_same.mpr fun _ _ => .inl rfl

/-- The texts for a statement in both modes. -/
theorem onlyNarrows_of_statementWritten {items items' : List Item} (hs : s.querySource = source)
    (h : StatementWritten s (withSource s source') items s' items' t') :
    OnlyNarrows (statementText s items s') (statementText (withSource s source') items' t') := by
  obtain ⟨hgrown, htexts⟩ := h
  have hset : Paired source source' s (withSource s source') := ⟨⟨hs, rfl, rfl⟩, rfl, rfl⟩
  have hprocessed := processCaptures_of_grown hset hgrown
  obtain ⟨added, added', found, hleft, hright, hadded, -⟩ := hgrown
  refine ⟨?_, ?_, ?_, ?_⟩
  · have hpredicates := predicates_processCaptures s'.captures s.captures.length
    unfold statementText
    rw [hprocessed]
    dsimp only
    rcases htexts with hnarrows | henclosed
    · rw [isEmpty_of_narrows hnarrows]
      split_ifs
      · exact .nil
      · exact .cons (matchedBy_of_narrows
          (narrows_group (narrows_append hnarrows (narrows_refl _)))) .nil
    · have hmatched := matchedBy_of_enclosed henclosed hpredicates
      obtain ⟨inner, others, rfl, hnarrows, -, first, tags, rfl, -, -⟩ := henclosed
      rw [isEmpty_of_narrows hnarrows]
      exact .cons hmatched .nil
  · change List.Forall₂ SameCheck s'.captures t'.captures
    rw [hleft.captures, hright.captures]
    exact List.rel_append (sameChecks_refl _) (hadded.imp fun _ _ => sameCheck_of_capturesNarrow)
  · change t'.negations = s'.negations
    rw [hleft.negations, hright.negations]
    rfl
  · exact congrArg Prod.snd hprocessed

/-- The text for a pattern that captures nothing. -/
theorem statementText_leaf (kind : String) (s : QueryBuilder) :
    statementText s [.node kind []] s = ⟨[[.group [.node kind []]]], ∅, s⟩ := by
  have hnone : processCaptures s.captures s.captures.length = ([], ∅) := by
    unfold processCaptures
    rw [List.drop_length]
    rfl
  unfold statementText
  rw [hnone]
  rfl

/-- One node without children matches by its kind. -/
theorem matches_leaf {kind : String} {target : Node} {captured : List Named} :
    Matches source [.group [.node kind []]] target captured ↔
      (target.isNamed = true ∧ (kind = "_" ∨ target.kind = kind)) ∧ captured = [] := by
  unfold Matches
  rw [sequenceMatch_singleton rfl, ItemMatch, sequenceMatch_singleton rfl, ItemMatch, SequenceMatch]
  refine and_iff_left ?_
  intro tag htag
  cases htag

/-- A pattern that fits comments finds them all. -/
theorem onlyNarrows_leaf {kind : String} (hkind : kind ∈ commentKinds) :
    OnlyNarrows (statementText s [.node "comment" []] s)
      (statementText (withSource s source') [.node kind []] (withSource s source')) := by
  rw [statementText_leaf, statementText_leaf]
  refine ⟨.cons ⟨?_, sameNames_refl _⟩ .nil, sameChecks_refl _, rfl, rfl⟩
  intro source target captured hmatch
  rw [matches_leaf] at hmatch
  refine ⟨target, mem_nodes_self target, ?_⟩
  rw [matches_leaf]
  obtain ⟨⟨hnamed, hcomment⟩, hcaptured⟩ := hmatch
  have hsame : target.kind = "comment" := hcomment.resolve_left (by decide)
  refine ⟨⟨hnamed, ?_⟩, hcaptured⟩
  rcases List.mem_pair.mp hkind with rfl | rfl
  · exact .inl rfl
  · exact .inr hsame

/-- A comment of a source, for example. -/
def someComment : Node := ⟨0, "comment", true, none, ⟨0, 0⟩, []⟩

/-- Whatever is written finds comments only if it fits them. -/
theorem suits_of_onlyNarrows {items' : List Item} {o : Outline} (hwrites : Writes items' o.item)
    (h : OnlyNarrows (statementText s [.node "comment" []] s) (statementText t items' t')) :
    Suits o := by
  have hpatterns := h.patterns
  rw [statementText_leaf] at hpatterns
  unfold statementText at hpatterns
  dsimp only at hpatterns
  split_ifs at hpatterns with hempty
  · cases hpatterns
  · cases hpatterns with
    | cons hmatched _ =>
      have hfound : Matches "" [.group [.node "comment" []]] someComment [] :=
        matches_leaf.mpr ⟨⟨rfl, .inr rfl⟩, rfl⟩
      obtain ⟨target, htarget, hmatch⟩ := hmatched.matched _ _ _ hfound
      rw [List.mem_singleton.mp htarget] at hmatch
      have hsequence := hmatch.1
      rw [sequenceMatch_statement (predicates_processCaptures _ _)] at hsequence
      obtain ⟨kind, hkind, hfits⟩ := exists_head_of_writes hwrites
        (fun heq => hempty (by rw [heq]; rfl)) rfl hsequence
      refine ⟨kind, ?_, hkind⟩
      rcases hfits with rfl | rfl
      · decide
      · decide

end Texts

section Runs

variable {externals : Externals} {bound bound' : ℕ} {block block' : Node} {s : QueryBuilder}

/-- A block with a labelled statement is built from what the label takes. -/
theorem buildPatterns_labelled (h : Labelled source labelled between statement) {child : Node}
    (hchild : labelled.namedChild 1 = some child) (hs : s.querySource = source) :
    buildPatterns (buildFuel externals (bound + 1)) block false [labelled] s =
      buildFuel externals bound (some labelled) child 0 true "labeled_statement" s >>= fun result =>
        .ok (statementText s result.1 result.2) := by
  rw [buildPatterns_singleton, buildFuel,
    buildBody_strict h.named h.kind (by rw [hs]; exact h.label) hchild]

/-- The bound leaves room below the label. -/
theorem exists_bound (h : Labelled source labelled between statement)
    (hheight : labelled.height ≤ bound) :
    ∃ below, bound = below + 1 ∧ statement.height ≤ below ∧ 0 < below := by
  have hlt := height_lt_of_mem (statement_mem h)
  have hpos := height_pos statement
  exact ⟨bound - 1, by omega, by omega, by omega⟩

/-- Without comments a label only narrows. -/
theorem strictNarrows_uncommented (h : Labelled source labelled between statement)
    (hstatement : Statement statement) (hmoved : Moved source source' statement statement')
    (hblock : block'.kind = "compound_statement") (hs : s.querySource = source)
    (hheight : labelled.height ≤ bound) (hheight' : statement'.height ≤ bound')
    (hgap : ∀ node ∈ between, ¬Comment node) :
    StrictNarrows externals bound bound' block block' labelled statement' s (withSource s source') := by
  obtain ⟨below, rfl, hbelow, -⟩ := exists_bound h hheight
  rw [height_of_mirrored hmoved] at hheight'
  have hchild := namedChild_uncommented h hstatement.named hgap
  have hset : Paired source source' s (withSource s source') := ⟨⟨hs, rfl, rfl⟩, rfl, rfl⟩
  unfold StrictNarrows
  rw [buildPatterns_labelled h hchild hs, buildPatterns_singleton, hblock]
  refine joint_bind (together_statement externals hset hstatement hmoved h.kind h.label hblock
    hbelow hheight') ?_
  intro result result' hwritten
  exact onlyNarrows_of_statementWritten hs hwritten

/-- With a comment the label is built as the comment. -/
theorem buildPatterns_commented (h : Labelled source labelled between statement)
    (hs : s.querySource = source) (hheight : labelled.height ≤ bound)
    (hgap : ¬∀ node ∈ between, ¬Comment node) :
    buildPatterns (buildFuel externals bound) block false [labelled] s =
      .ok (statementText s [.node "comment" []] s) := by
  obtain ⟨below, rfl, -, hpos⟩ := exists_bound h hheight
  obtain ⟨comment, hchild, hcomment⟩ := namedChild_commented h hgap
  obtain ⟨rest, rfl⟩ := Nat.exists_eq_succ_of_ne_zero hpos.ne'
  rw [buildPatterns_labelled h hchild hs, buildFuel, buildBody_comment hcomment]
  rfl

/-- The pattern for a statement with the label `strict:` in a block only
narrows the pattern for the plain statement exactly when no comment stands
between the label and the statement, or nothing but a wildcard is left of the
statement. -/
theorem strictNarrows_iff (h : Labelled source labelled between statement)
    (hstatement : Statement statement) (hmoved : Moved source source' statement statement')
    (hblock : block'.kind = "compound_statement") (hs : s.querySource = source)
    (hheight : labelled.height ≤ bound) (hheight' : statement'.height ≤ bound')
    (hplain : ∃ built', buildPatterns (buildFuel externals bound') block' false [statement']
      (withSource s source') = .ok built') :
    StrictNarrows externals bound bound' block block' labelled statement' s (withSource s source') ↔
      (∀ node ∈ between, ¬Comment node) ∨ Blank source' (some block') statement' false := by
  by_cases hgap : ∀ node ∈ between, ¬Comment node
  · refine iff_of_true ?_ (.inl hgap)
    exact strictNarrows_uncommented h hstatement hmoved hblock hs hheight hheight' hgap
  rw [or_iff_right hgap]
  obtain ⟨built', hbuilt'⟩ := hplain
  unfold StrictNarrows
  rw [buildPatterns_commented h hs hheight hgap, hbuilt']
  change OnlyNarrows _ built' ↔ _
  rw [buildPatterns_singleton] at hbuilt'
  obtain ⟨⟨items', t'⟩, hrun, hresult⟩ := exists_of_bind_eq_ok hbuilt'
  cases hresult
  constructor
  · intro honly
    obtain ⟨-, hwrites⟩ := outcome_ok ((buildOutline_buildFuel externals source' bound').writes
      (some block') statement' 0 false block'.kind (withSource s source') rfl) hrun
    exact blank_of_outlineFuel (lexical_of_moved hstatement.lexical hmoved) bound' _ _ _
      (suits_of_onlyNarrows hwrites honly)
  · intro hblank
    obtain ⟨⟨kind, hkind, hitems⟩, hbuilder⟩ := outcome_ok
      (writesBlank_buildFuel externals hblank bound' block'.kind (s := withSource s source') rfl) hrun
    dsimp only at hitems hbuilder
    rw [hitems, hbuilder]
    exact onlyNarrows_leaf hkind

end Runs

section Samples

/-- The statement `f();`. -/
def callStatement (id start : ℕ) : Node :=
  rule id "expression_statement" start (start + 4)
    [rule (id + 1) "call_expression" start (start + 3)
      [Node.under (rule (id + 2) "identifier" start (start + 1) []) "function",
       Node.under (rule (id + 3) "argument_list" (start + 1) (start + 3)
        [token (id + 4) "(" (start + 1) (start + 2), token (id + 5) ")" (start + 2) (start + 3)])
        "arguments"],
     token (id + 6) ";" (start + 3) (start + 4)]

/-- A block with one statement that ends before the given byte. -/
def statementBlock (statement : Node) (stop : ℕ) : Node :=
  rule 1 "compound_statement" 0 (stop + 1)
    [token 2 "\x7b" 0 1, statement, token 3 "\x7d" stop (stop + 1)]

/-- The statement `strict:f();` with something behind the colon. -/
def strictCall (more : List Node) (start : ℕ) : Node :=
  rule 4 "labeled_statement" 1 (start + 4)
    (Node.under (rule 5 "statement_identifier" 1 7 []) "label" ::
      (token 6 ":" 7 8 :: more ++ [callStatement 8 start]))

/-- The comment behind the colon. -/
def behindColon : Node := rule 7 "comment" 8 13 []

/-- The statement `strict:/*c*/f();`. -/
def commentedStrict : Node := strictCall [behindColon] 13

/-- The root of the search pattern with that statement. -/
def commentedStrictRoot : Node :=
  rule 0 "translation_unit" 0 18 [statementBlock commentedStrict 17]

theorem labelled_strictCall {source : String} {more : List Node} {start : ℕ}
    (hlabel : toUppercase (slice source ⟨1, 7⟩) = "STRICT") (hmore : ∀ node ∈ more, Comment node) :
    Labelled source (strictCall more start) (token 6 ":" 7 8 :: more) (callStatement 8 start) where
  named := rfl
  kind := rfl
  label := congrArg some hlabel
  children := ⟨_, rfl, rfl⟩
  between := List.forall_mem_cons.mpr ⟨.inr rfl, fun node hnode => .inl (hmore node hnode)⟩

theorem statement_callStatement (id start : ℕ) : Statement (callStatement id start) where
  grammatical := ⟨by simp [nodes_eq, callStatement, rule, token, Node.under],
    by simp [nodes_eq, callStatement, rule, token, Node.under, Node.childByFieldName],
    by simp [nodes_eq, callStatement, rule, token, Node.under, Node.childByFieldName]⟩
  named := rfl
  lexical := ⟨by simp [nodes_eq, callStatement, rule, token, Node.under],
    by simp [nodes_eq, callStatement, rule, token, Node.under]⟩
  expression := by
    rintro - child ⟨⟩
    have hlabeled : "call_expression" ≠ "labeled_statement" := by decide
    have hexpression : "call_expression" ≠ "expression_statement" := by decide
    have hkeyword : isKeyword ";" = false := by decide
    exact ⟨_, rfl, rfl, hlabeled, hexpression,
      List.forall_mem_singleton.mpr ⟨rfl, .inr ⟨rfl, hkeyword⟩⟩⟩

/-- The same call at another place. -/
theorem moved_callStatement {source source' : String} {id id' start start' : ℕ}
    (h : ∀ pair ∈ (callStatement id start).nodes.zip (callStatement id' start').nodes,
      Alike source source' pair.1 pair.2) :
    Moved source source' (callStatement id start) (callStatement id' start') := by
  have hlist : (callStatement id start).nodes.zip (callStatement id' start').nodes =
      [_, _, _, _, _, _, _] := rfl
  rw [hlist] at h
  simp only [List.forall_mem_cons] at h
  obtain ⟨hstatement, hcall, hname, harguments, hopen, hclose, hend, -⟩ := h
  refine .keep hstatement rfl (.cons (.keep hcall rfl (.cons (mirrored_leaf hname rfl rfl) (.cons
    (.keep harguments rfl ?_) .nil))) (.cons (mirrored_leaf hend rfl rfl) .nil))
  exact .cons (mirrored_leaf hopen rfl rfl) (.cons (mirrored_leaf hclose rfl rfl) .nil)

/-- The text for the plain call. -/
def callText : List Item :=
  [.group [.node "call_expression" [.fieldName "function",
    .alternation [.node "field_expression"
      [.fieldName "field", .node "field_identifier" [], captureItem "0"],
      .node "identifier" [], captureItem "0"],
    .fieldName "arguments", .node "argument_list" [], captureItem "1"],
    .tag (.eqString "0" "f")]]

/-- The builder after the call. -/
def calledBuilder (source : String) : QueryBuilder :=
  ((QueryBuilder.new source 0 ∅).push (.check "f")).push (.callExpQuery 0 false)

theorem build_plainCall (source : String) :
    buildPatterns (buildFuel sampleExternals (callStatement 8 1).height)
      (statementBlock (callStatement 8 1) 5) false [callStatement 8 1]
      (withSource (.new source 0 ∅) "\x7bf();\x7d") =
        .ok ⟨[callText], ∅, calledBuilder "\x7bf();\x7d"⟩ := by
  have hnew : withSource (.new source 0 ∅) "\x7bf();\x7d" = .new "\x7bf();\x7d" 0 ∅ := rfl
  rw [hnew]
  rfl

theorem build_strictCall :
    buildPatterns (buildFuel sampleExternals (strictCall [] 8).height)
      (statementBlock (strictCall [] 8) 12) false [strictCall [] 8]
      (.new "\x7bstrict:f();\x7d" 0 ∅) = .ok
        ⟨[[.group [.node "expression_statement" [.node "call_expression" [.fieldName "function",
          .node "identifier" [], captureItem "0", .fieldName "arguments",
          .node "argument_list" [], captureItem "1"]], .tag (.eqString "0" "f")]]], ∅,
          calledBuilder "\x7bstrict:f();\x7d"⟩ := rfl

/-- The pattern `{strict:f();}` only narrows `{f();}`. Both are built, and
there are cursors that read patterns denotationally. -/
theorem strictNarrows_strictCall :
    StrictNarrows sampleExternals (strictCall [] 8).height (callStatement 8 1).height
        (statementBlock (strictCall [] 8) 12) (statementBlock (callStatement 8 1) 5)
        (strictCall [] 8) (callStatement 8 1) (.new "\x7bstrict:f();\x7d" 0 ∅)
        (withSource (.new "\x7bstrict:f();\x7d" 0 ∅) "\x7bf();\x7d") ∧
      (buildPatterns (buildFuel sampleExternals (strictCall [] 8).height)
        (statementBlock (strictCall [] 8) 12) false [strictCall [] 8]
        (.new "\x7bstrict:f();\x7d" 0 ∅)).isOk = true ∧
      ReadsPatterns { sampleExternals with cursorMatches := denotationalMatches } := by
  have hlabelled : Labelled "\x7bstrict:f();\x7d" (strictCall [] 8) [token 6 ":" 7 8]
      (callStatement 8 8) := labelled_strictCall (by decide) (List.forall_mem_nil _)
  have hmoved : Moved "\x7bstrict:f();\x7d" "\x7bf();\x7d" (callStatement 8 8)
      (callStatement 8 1) := moved_callStatement (by decide)
  refine ⟨?_, by rw [build_strictCall]; rfl, readsPatterns_denotationalMatches sampleExternals⟩
  refine Iff.mpr (strictNarrows_iff hlabelled (statement_callStatement 8 8) hmoved rfl rfl le_rfl
    le_rfl ⟨_, build_plainCall _⟩) (.inl ?_)
  intro node hnode hcomment
  have hnamed := hcomment.named
  rw [List.mem_singleton.mp hnode] at hnamed
  cases hnamed

/-- The pattern `{strict:/*c*/f();}` is accepted and matches every comment,
which `{f();}` does not. -/
theorem not_strictNarrows_commented :
    validateQuery ⟨fun _ => false, fun _ => false, fun _ => false⟩ commentedStrictRoot
        "\x7bstrict:/*c*/f();\x7d" false =
          .ok (some commentedStrictRoot, statementBlock commentedStrict 17) ∧
      Labelled "\x7bstrict:/*c*/f();\x7d" commentedStrict [token 6 ":" 7 8, behindColon]
        (callStatement 8 13) ∧
      Statement (callStatement 8 13) ∧
      Moved "\x7bstrict:/*c*/f();\x7d" "\x7bf();\x7d" (callStatement 8 13) (callStatement 8 1) ∧
      ¬StrictNarrows sampleExternals commentedStrict.height (callStatement 8 1).height
        (statementBlock commentedStrict 17) (statementBlock (callStatement 8 1) 5) commentedStrict
        (callStatement 8 1) (.new "\x7bstrict:/*c*/f();\x7d" 0 ∅)
        (withSource (.new "\x7bstrict:/*c*/f();\x7d" 0 ∅) "\x7bf();\x7d") := by
  have hcomment : Comment behindColon := ⟨rfl, rfl, rfl⟩
  refine ⟨rfl, labelled_strictCall (by decide) (List.forall_mem_singleton.mpr hcomment),
    statement_callStatement 8 13, moved_callStatement (by decide), ?_⟩
  intro hnarrows
  have hstrict : buildPatterns (buildFuel sampleExternals commentedStrict.height)
      (statementBlock commentedStrict 17) false [commentedStrict]
      (.new "\x7bstrict:/*c*/f();\x7d" 0 ∅) =
        .ok ⟨[[.group [.node "comment" []]]], ∅, .new "\x7bstrict:/*c*/f();\x7d" 0 ∅⟩ := rfl
  have hpatterns := (joint_ok hnarrows hstrict (build_plainCall _)).patterns
  cases hpatterns with
  | cons hmatched _ =>
    have hfound : Matches "" [.group [.node "comment" []]] someComment [] :=
      matches_leaf.mpr ⟨⟨rfl, .inr rfl⟩, rfl⟩
    obtain ⟨target, htarget, hmatch⟩ := hmatched.matched _ _ _ hfound
    have hown : target = someComment := List.mem_singleton.mp htarget
    rw [hown, ← mem_patternMatches] at hmatch
    have hnone : patternMatches "" callText someComment = [] := by decide +kernel
    rw [hnone] at hmatch
    cases hmatch

end Samples

end WeggliEnhance.StrictLabels
