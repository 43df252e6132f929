import WeggliEnhance.QueryText
import WeggliEnhance.SyntaxTree

/-!
# Third-party behaviour

The parser and the query cursor of tree-sitter, the regular expression engine
and the file system are parameters of the model. What the engine relies on is
stated once, in laws that are assumed one by one where they are needed: a
reported match holds one node for each capture of its pattern, captures of one
variable read the same, constants are found as the query reads them, the nodes
of a match lie below the node the cursor runs on, and captures are counted in
a machine word.
-/

namespace WeggliEnhance.ThirdParty

open SourceText SyntaxTree QueryText

/-- A compiled regular expression, identified by its pattern. -/
structure Regex where
  /-- The text the expression was compiled from. -/
  pattern : String
  deriving DecidableEq

/-- One captured node of a match. -/
structure QueryCapture where
  /-- The captured node. -/
  node : Node
  /-- Index of the capture name in the query. -/
  index : ℕ

/-- A match reported by the query cursor. -/
structure QueryMatch where
  /-- Which top-level pattern matched. -/
  patternIndex : ℕ
  /-- The captured nodes in the order of the report. -/
  captures : List QueryCapture

/-- The behaviour of everything outside the repository. -/
structure Externals where
  /-- `Query::new`: the error message for a text that does not compile. -/
  queryError : List (List Item) → Option String
  /-- `QueryCursor::matches` on the tree below a node. -/
  cursorMatches : Query → Node → String → List QueryMatch
  /-- `Regex::is_match`, with no answer when evaluation fails. -/
  isMatch : Regex → String → Option Bool
  /-- `Parser::parse`, returning the root of the tree. -/
  parse : String → Option Node
  /-- Contents of a readable file after lossy UTF-8 decoding. -/
  read : String → Option String

/-- The text of the nodes of a match satisfies an equality predicate. -/
def Holds (source : String) (queryMatch : QueryMatch) : Predicate → Prop
  | .eqString i text =>
    ∀ c ∈ queryMatch.captures, c.index = i → slice source c.node.range = unescape text
  | .eqCapture i j =>
    ∀ c ∈ queryMatch.captures, ∀ d ∈ queryMatch.captures, c.index = i → d.index = j →
      slice source c.node.range = slice source d.node.range

/-- The law on captures. None of the emitted patterns repeats a capture by a
quantifier, so a reported match holds exactly one node for each capture of its
pattern, and two captures that are compared with each other read the same. -/
def Externals.ReportsCaptures (externals : Externals) : Prop :=
  ∀ query root source, ∀ queryMatch ∈ externals.cursorMatches query root source,
    ∃ pattern, query.patterns[queryMatch.patternIndex]? = some pattern ∧
      (queryMatch.captures.map QueryCapture.index).Perm pattern.captures ∧
      ∀ i j, .eqCapture i j ∈ pattern.predicates → Holds source queryMatch (.eqCapture i j)

/-- The law on constants. A capture that is compared with a string reads what
the string stands for. -/
def Externals.ComparesConstants (externals : Externals) : Prop :=
  ∀ query root source, ∀ queryMatch ∈ externals.cursorMatches query root source,
    ∀ pattern, query.patterns[queryMatch.patternIndex]? = some pattern →
      ∀ i text, .eqString i text ∈ pattern.predicates → Holds source queryMatch (.eqString i text)

/-- The laws on reported matches. -/
structure Externals.ReportsMatches (externals : Externals) : Prop where
  /-- The captures of a match. -/
  captures : externals.ReportsCaptures
  /-- The texts of its constants. -/
  constants : externals.ComparesConstants

/-- A cursor that runs below a node captures nodes below that node only. -/
def Externals.ReportsInside (externals : Externals) : Prop :=
  ∀ query root source, ∀ queryMatch ∈ externals.cursorMatches query root source,
    ∀ c ∈ queryMatch.captures, c.node ∈ root.nodes

/-- Tree-sitter counts the capture names of a query it compiles in a `u32`. -/
def Externals.CapturesFit (externals : Externals) : Prop :=
  ∀ text, externals.queryError text = none → (Query.mk text).captureNames.length < 2 ^ 32

/-- An anonymous token. -/
def token (id : ℕ) (kind : String) (start stop : ℕ) : Node :=
  ⟨id, kind, false, none, ⟨start, stop⟩, []⟩

/-- A named node with the children it holds under no field. -/
def rule (id : ℕ) (kind : String) (start stop : ℕ) (children : List Node) : Node :=
  ⟨id, kind, true, none, ⟨start, stop⟩, children⟩

/-- A node moved under a field of its parent. -/
def Node.under (node : Node) (field : String) : Node := { node with field := some field }

/-- A statement made of one name. -/
def nameStatement (id start stop : ℕ) : Node :=
  rule id "expression_statement" start (stop + 1)
    [rule (id + 1) "identifier" start stop [], token (id + 2) ";" stop (stop + 1)]

/-- The search pattern `{$x;}`, a block that holds any name. -/
def samplePattern : Node :=
  rule 1 "compound_statement" 0 5
    [token 2 "\x7b" 0 1, nameStatement 3 1 3, token 6 "\x7d" 4 5]

/-- The root of the search pattern. -/
def samplePatternRoot : Node := rule 0 "translation_unit" 0 5 [samplePattern]

/-- The text of the search pattern. -/
def samplePatternText : String := "\x7b$x;\x7d"

/-- A one-line program: a function whose block holds one name. -/
def sampleSource : String := "int f(){a;}"

/-- A program of the same kind whose block holds two names. -/
def pairSource : String := "int f(){a;b;}"

/-- The syntax tree of a function `int f(){..}` with the given statements. -/
def functionRoot (stop : ℕ) (statements : List Node) : Node :=
  rule 0 "translation_unit" 0 stop
    [rule 1 "function_definition" 0 stop
      [Node.under (rule 2 "primitive_type" 0 3 []) "type",
       Node.under (rule 3 "function_declarator" 4 7
        [Node.under (rule 4 "identifier" 4 5 []) "declarator",
         Node.under (rule 5 "parameter_list" 5 7 [token 6 "(" 5 6, token 7 ")" 6 7])
          "parameters"]) "declarator",
       Node.under (rule 8 "compound_statement" 7 stop
        (token 9 "\x7b" 7 8 :: statements ++ [token 10 "\x7d" (stop - 1) stop])) "body"]]

/-- The syntax tree of the first program. -/
def sampleRoot : Node := functionRoot 11 [nameStatement 11 8 9]

/-- The syntax tree of the second program. -/
def pairRoot : Node := functionRoot 13 [nameStatement 11 8 9, nameStatement 14 10 11]

/-- The node kinds an item without children matches. -/
def itemKinds : Item → List String
  | .node kind _ => [kind]
  | .alternation items => items.flatMap fun item =>
    match item with
    | .node kind _ => [kind]
    | _ => []
  | _ => []

/-- Candidates for one top-level pattern: either a node that holds a captured
child, or a node that is captured by itself. -/
def sampleCandidates (query : Query) (root : Node) (k : ℕ) : List Item → List QueryMatch
  | [.node kind (.fieldName _ :: inner :: .tag (.capture i) :: _), .tag (.capture j)] =>
    (root.nodes.filter fun node => node.kind == kind).flatMap fun node =>
      (node.children.filter fun child => (itemKinds inner).contains child.kind).map fun child =>
        ⟨k, [⟨node, query.index j⟩, ⟨child, query.index i⟩]⟩
  | [.group (item :: tags)] =>
    (root.nodes.filter fun node => (itemKinds item).contains node.kind).map fun node =>
      ⟨k, (captureSites tags).map fun name => ⟨node, query.index name⟩⟩
  | _ => []

/-- Equality predicates can be evaluated. -/
instance (source : String) (queryMatch : QueryMatch) :
    DecidablePred (Holds source queryMatch)
  | .eqString i text => inferInstanceAs
    (Decidable (∀ c ∈ queryMatch.captures, c.index = i →
      slice source c.node.range = unescape text))
  | .eqCapture i j => inferInstanceAs
    (Decidable (∀ c ∈ queryMatch.captures, ∀ d ∈ queryMatch.captures, c.index = i → d.index = j →
      slice source c.node.range = slice source d.node.range))

/-- A candidate holds one node for each capture of its pattern and satisfies
the predicates. -/
def isMatchOf (source : String) (queryMatch : QueryMatch) (pattern : Pattern) : Bool :=
  decide ((queryMatch.captures.map QueryCapture.index).Perm pattern.captures) &&
    decide (∀ predicate ∈ pattern.predicates, Holds source queryMatch predicate)

/-- A cursor for patterns of the two shapes above. -/
def sampleCursor (query : Query) (root : Node) (source : String) : List QueryMatch :=
  (query.text.zipIdx.flatMap fun entry => sampleCandidates query root entry.2 entry.1).filter
    fun queryMatch => (query.patterns[queryMatch.patternIndex]?).any (isMatchOf source queryMatch)

/-- An instance of the parameters that knows the sample programs. -/
def sampleExternals : Externals where
  queryError text :=
    if (Query.mk text).captureNames.length < 2 ^ 32 then none else some "too many captures"
  cursorMatches := sampleCursor
  isMatch _ _ := some true
  parse text :=
    if text = sampleSource then some sampleRoot
    else if text = pairSource then some pairRoot
    else none
  read path :=
    if path = "f.c" then some sampleSource
    else if path = "g.c" then some pairSource
    else none

/-- What the cursor reports has been checked against its pattern. -/
theorem isMatchOf_of_mem_sampleCursor {query : Query} {root : Node} {source : String}
    {queryMatch : QueryMatch} (h : queryMatch ∈ sampleCursor query root source) :
    ∃ pattern, query.patterns[queryMatch.patternIndex]? = some pattern ∧
      (queryMatch.captures.map QueryCapture.index).Perm pattern.captures ∧
      ∀ predicate ∈ pattern.predicates, Holds source queryMatch predicate := by
  obtain ⟨pattern, hpattern, hchecked⟩ := (Option.any_eq_true _ _).mp (List.mem_filter.mp h).2
  obtain ⟨hperm, hpredicates⟩ := Bool.and_eq_true_iff.mp hchecked
  exact ⟨pattern, hpattern, of_decide_eq_true hperm, of_decide_eq_true hpredicates⟩

/-- The laws on reported matches can be met: any parameters with this cursor
meet them. -/
theorem reportsMatches_of_sampleCursor {externals : Externals}
    (h : externals.cursorMatches = sampleCursor) : externals.ReportsMatches := by
  constructor
  · intro query root source queryMatch hmatch
    rw [h] at hmatch
    obtain ⟨pattern, hpattern, hperm, hholds⟩ := isMatchOf_of_mem_sampleCursor hmatch
    exact ⟨pattern, hpattern, hperm, fun i j hmem => hholds _ hmem⟩
  · intro query root source queryMatch hmatch pattern hpattern i text hmem
    rw [h] at hmatch
    obtain ⟨checked, hchecked, -, hholds⟩ := isMatchOf_of_mem_sampleCursor hmatch
    rw [hpattern] at hchecked
    cases hchecked
    exact hholds _ hmem

theorem sampleExternals_reportsMatches : sampleExternals.ReportsMatches :=
  reportsMatches_of_sampleCursor rfl

/-- Candidates are made of nodes below the root. -/
theorem mem_sampleCandidates {query : Query} {root : Node} {k : ℕ} {items : List Item}
    {queryMatch : QueryMatch} (h : queryMatch ∈ sampleCandidates query root k items) :
    ∀ c ∈ queryMatch.captures, c.node ∈ root.nodes := by
  unfold sampleCandidates at h
  split at h
  · obtain ⟨node, hnode, hmem⟩ := List.mem_flatMap.mp h
    obtain ⟨child, hchild, rfl⟩ := List.mem_map.mp hmem
    have hroot := (List.mem_filter.mp hnode).1
    have hbelow := nodes_trans hroot (child_mem_nodes (List.mem_filter.mp hchild).1)
    intro c hc
    rcases List.mem_cons.mp hc with rfl | hrest
    · exact hroot
    · rw [List.mem_singleton.mp hrest]
      exact hbelow
  · obtain ⟨node, hnode, rfl⟩ := List.mem_map.mp h
    intro c hc
    obtain ⟨name, -, rfl⟩ := List.mem_map.mp hc
    exact (List.mem_filter.mp hnode).1
  · cases h

/-- The law on captured nodes can be met. -/
theorem sampleExternals_reportsInside : sampleExternals.ReportsInside := by
  intro query root source queryMatch hmatch
  obtain ⟨entry, -, hcandidate⟩ := List.mem_flatMap.mp (List.mem_filter.mp hmatch).1
  exact mem_sampleCandidates hcandidate

/-- The bound on captures can be met. -/
theorem sampleExternals_capturesFit : sampleExternals.CapturesFit := by
  intro text haccepted
  by_contra hlarge
  have hrejected : sampleExternals.queryError text = some "too many captures" := if_neg hlarge
  rw [hrejected] at haccepted
  cases haccepted

end WeggliEnhance.ThirdParty
