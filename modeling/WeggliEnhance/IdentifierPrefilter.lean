import WeggliEnhance.VariableCoherence

/-!
# The identifier prefilter

A file is only parsed when it contains all identifiers of some query. No
identifier is optional: every pattern of a query has to match, every constant
is compared with its text, and every sub-query has to have a result. So a
query with a match finds all its identifiers in the source, as the query text
reads them. The prefilter looks for them as they are written in the pattern,
which is the same unless one of them contains a backslash.
-/

namespace WeggliEnhance.IdentifierPrefilter

open SourceText SyntaxTree QueryText ThirdParty QueryTrees QueryResults QueryEngine
  EngineInvariant MatchCaptures PatternBuilder BuilderEmission CaptureNumbering
  QueryTreeConstruction FallibleState VariableCoherence

/-- Identifiers are constants of the query or identifiers of its sub-queries. -/
theorem mem_captureIdentifiers {captures : List Capture} {text : String} :
    text ∈ captureIdentifiers captures ↔ .check text ∈ captures ∨
      ∃ child ∈ captures.filterMap Capture.tree?, text ∈ child.identifiers := by
  induction captures with
  | nil => simp [captureIdentifiers]
  | cons capture captures ih =>
    cases capture <;>
      simp [captureIdentifiers, ih, Capture.tree?, List.filterMap_cons, or_assoc, or_left_comm]

theorem mem_identifiers {tree : QueryTree} {text : String} :
    text ∈ tree.identifiers ↔ .check text ∈ tree.captures ∨
      ∃ child ∈ tree.children, text ∈ child.identifiers := by
  cases tree
  rw [QueryTree.identifiers]
  exact mem_captureIdentifiers

/-- Every joined sub-query has a good result. -/
theorem exists_good_of_subJoin {source : String} {good : QueryTree → QueryResult → Prop}
    {subs : List (QueryTree × Node)} {base result : QueryResult}
    (hjoin : SubJoin source good subs base result) :
    ∀ sub ∈ subs, ∃ found, good sub.1 found := by
  induction subs generalizing base with
  | nil =>
    intro sub hsub
    cases hsub
  | cons first subs ih =>
    obtain ⟨found, hfound, -, hrest⟩ := hjoin
    intro sub hsub
    rcases List.mem_cons.mp hsub with rfl | htail
    · exact ⟨found, hfound⟩
    · exact ih hrest sub htail

/-- All identifiers of a query occur in the source as the query text reads
them. -/
def AllOccur (source : String) (tree : QueryTree) (_ : QueryResult) : Prop :=
  ∀ text ∈ tree.identifiers, contains source (unescape text) = true

/-- A source that contains all identifiers of a query as the query text reads
them also contains them as they are written. -/
def FoundAsWritten (tree : QueryTree) (source : String) : Prop :=
  (∀ text ∈ tree.identifiers, contains source (unescape text) = true) →
    ∀ text ∈ tree.identifiers, contains source text = true

/-- Identifiers without a backslash are read as they are written. -/
theorem foundAsWritten_of_plain {tree : QueryTree}
    (h : ∀ text ∈ tree.identifiers, '\\' ∉ text.toList) (source : String) :
    FoundAsWritten tree source := by
  intro hoccur text htext
  rw [← unescape_eq (h text htext)]
  exact hoccur text htext

/-- A capture of a query with a result belongs to a match that holds its node
and has the constants of its pattern. -/
theorem exists_match_of_treeResult {externals : Externals} (hreports : externals.ReportsMatches)
    {constraints : RegexMap} {tree : QueryTree} (hwell : WellFormed externals constraints tree)
    {source : String} {good : QueryTree → QueryResult → Prop} {root : Node} {result : QueryResult}
    (hresult : TreeResult externals source good tree root result) {i : ℕ}
    (hi : i < tree.captures.length) :
    ∃ pattern ∈ tree.query.patterns, i ∈ pattern.captures ∧ ∃ queryMatch part,
      MatchResult externals source good tree queryMatch part ∧
      (∀ j text, .eqString j text ∈ pattern.predicates →
        Holds source queryMatch (.eqString j text)) ∧
      ∃ c ∈ queryMatch.captures, c.index = i := by
  obtain ⟨parts, -, hlength, -, hparts⟩ := hresult
  obtain ⟨pattern, hpattern, hmem⟩ := exists_pattern_of_wellFormed hwell hi
  obtain ⟨k, hk⟩ := List.mem_iff_getElem?.mp hpattern
  have hlt : k < parts.length := by
    rw [hlength]
    exact (List.getElem?_eq_some_iff.mp hk).1
  obtain ⟨queryMatch, hmatch, hindex, hpart⟩ :=
    hparts k _ (List.getElem?_eq_getElem hlt)
  obtain ⟨pattern', hpattern', hperm, -⟩ := hreports.captures _ _ _ _ hmatch
  rw [hindex, hk] at hpattern'
  cases hpattern'
  have hholds := hreports.constants _ _ _ _ hmatch pattern (hindex.symm ▸ hk)
  obtain ⟨c, hc, hci⟩ := List.mem_map.mp (hperm.mem_iff.mpr hmem)
  exact ⟨pattern, hpattern, hmem, queryMatch, _, hpart, hholds, c, hc, hci⟩

/-- A query with a result has all its identifiers in the source, provided the
sub-queries with results have. -/
theorem allOccur_treeResult {externals : Externals} (hreports : externals.ReportsMatches)
    {constraints : RegexMap} {tree : QueryTree} (hwell : WellFormed externals constraints tree)
    {source : String} {root : Node} {result : QueryResult}
    (hresult : TreeResult externals source (AllOccur source) tree root result) :
    AllOccur source tree result := by
  intro text htext
  rcases mem_identifiers.mp htext with hcheck | ⟨child, hchild, hidentifier⟩
  · obtain ⟨i, hget⟩ := List.mem_iff_getElem?.mp hcheck
    have hlt := (List.getElem?_eq_some_iff.mp hget).1
    obtain ⟨pattern, hpattern, hmem, queryMatch, part, -, hholds, c, hc, rfl⟩ :=
      exists_match_of_treeResult hreports hwell hresult hlt
    have hserves := serves_of_wellFormed hwell hpattern
    have hslice : slice source c.node.range = unescape text :=
      hholds _ _ (hserves.checked c.index hmem text hget) c hc rfl
    rw [← hslice]
    exact contains_slice source c.node.range
  · obtain ⟨capture, hcapture, htree⟩ := List.mem_filterMap.mp hchild
    obtain ⟨i, hget⟩ := List.mem_iff_getElem?.mp hcapture
    have hlt := (List.getElem?_eq_some_iff.mp hget).1
    obtain ⟨pattern, -, -, queryMatch, part, ⟨state, hcollect, hjoin⟩, -, c, hc, rfl⟩ :=
      exists_match_of_treeResult hreports hwell hresult hlt
    have hgathered := gathered_collect (gathered_start tree) hcollect
    rw [List.nil_append] at hgathered
    obtain ⟨node, hsub⟩ := (mem_subqueries_iff hgathered).mpr ⟨c, hc, capture, hget, htree⟩
    obtain ⟨found, hgood⟩ := exists_good_of_subJoin hjoin (child, node) hsub
    exact hgood text hidentifier

/-- A query with a match finds all its identifiers in the source, as the query
text reads them. -/
theorem allOccur_of_matches {externals : Externals} (hreports : externals.ReportsMatches)
    {query : String} {up : Option Node} {pattern : Node} {constraints : RegexMap} {tree : QueryTree}
    (hbuild : buildQueryTree externals query up pattern constraints = .ok tree)
    (hids : (tree.subQueries.map QueryTree.id).Nodup) {source : String} {root : Node}
    {results : List QueryResult}
    (hmatches : QueryTree.matches externals tree root source = .ok results) (hsome : results ≠ []) :
    ∀ text ∈ tree.identifiers, contains source (unescape text) = true := by
  have hfinished := outcome_ok (finished_buildQueryTree externals query up pattern constraints) hbuild
  obtain ⟨result, hresult⟩ := List.exists_mem_of_ne_nil results hsome
  have hgood : AllOccur source tree result := by
    refine matches_induction hids ?_ hmatches hresult
    intro t ht node found hfound
    exact allOccur_treeResult hreports (hfinished.wellFormed t ht) hfound
  exact hgood

end WeggliEnhance.IdentifierPrefilter
