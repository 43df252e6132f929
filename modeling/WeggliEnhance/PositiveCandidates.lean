import WeggliEnhance.CaptureNumbering
import WeggliEnhance.MatchCaptures
import WeggliEnhance.QueryIds

/-!
# Candidates of the positive part

Before its negations are enforced, a result of a query holds one entry for
every recorded capture of the query, and the entries of earlier statements
end before those of later statements start. The entries of sub-queries have
larger ids, whatever ids the sub-queries share among themselves, so they are
never mistaken for entries of the query itself.
-/

namespace WeggliEnhance.PositiveCandidates

open SourceText SyntaxTree QueryText ThirdParty QueryTrees QueryResults QueryEngine CompoundJoin
  EngineInvariant EngineMemoization MatchCaptures Memoization PatternBuilder BuilderEmission
  CaptureNumbering

/-- The capture with an index exists and is stored in results. -/
def recordedAt (captures : List Capture) (i : ℕ) : Bool := (captures[i]?).any Capture.isRecorded

theorem recordedAt_iff {captures : List Capture} {i : ℕ} :
    recordedAt captures i = true ↔
      ∃ capture, captures[i]? = some capture ∧ capture.isRecorded = true :=
  Option.any_eq_true _ _

theorem lt_of_recordedAt {captures : List Capture} {i : ℕ} (h : recordedAt captures i = true) :
    i < captures.length := by
  obtain ⟨capture, hget, -⟩ := recordedAt_iff.mp h
  exact (List.getElem?_eq_some_iff.mp hget).1

/-- What the negation filter may rely on. -/
structure Candidate (tree : QueryTree) (result : QueryResult) : Prop where
  /-- Exactly the recorded captures have an entry. -/
  recorded : ∀ i, (result.getCaptureResult tree.id i).isSome ↔ recordedAt tree.captures i = true
  /-- Earlier statements end before later ones start. -/
  ordered : tree.query.patterns.Pairwise fun p q => ∀ i ∈ p.captures, ∀ j ∈ q.captures,
    ∀ c d, result.getCaptureResult tree.id i = some c →
      result.getCaptureResult tree.id j = some d → c.range.stop < d.range.start

/-- Entries of a result belong to the query or to a query with a larger id. -/
def OwnIds (tree : QueryTree) (result : QueryResult) : Prop :=
  ∀ c ∈ result.captures, tree.id ≤ c.queryId

/-- A cache entry respects the id of its key. -/
def KeyIds (key : CacheKey) (results : List QueryResult) : Prop :=
  ∀ result ∈ results, ∀ c ∈ result.captures, key.queryId ≤ c.queryId

/-- This much of a cache entry depends on its id alone. -/
theorem faithful_keyIds (whole : QueryTree) : Faithful whole OwnIds KeyIds :=
  fun _ _ _ _ => Iff.rfl

section Parts

variable {externals : Externals} {source : String} {constraints : RegexMap} {tree : QueryTree}

/-- Joined results hold the entries of the match and entries of sub-results. -/
theorem mem_captures_subJoin {good : QueryTree → QueryResult → Prop}
    {subs : List (QueryTree × Node)} {base result : QueryResult}
    (hjoin : SubJoin source good subs base result) (c : CaptureResult) :
    (c ∈ base.captures → c ∈ result.captures) ∧
      (c ∈ result.captures → c ∈ base.captures ∨
        ∃ sub ∈ subs, ∃ found, good sub.1 found ∧ c ∈ found.captures) := by
  induction subs generalizing base with
  | nil =>
    cases hjoin
    exact ⟨id, .inl⟩
  | cons sub subs ih =>
    obtain ⟨found, hfound, -, hrest⟩ := hjoin
    obtain ⟨hkept, hsplit⟩ := ih hrest
    constructor
    · intro hc
      exact hkept (List.mem_append_left _ hc)
    · intro hc
      rcases hsplit hc with hbase | ⟨sub', hsub', hinner⟩
      · rcases List.mem_append.mp hbase with hleft | hright
        · exact .inl hleft
        · exact .inr ⟨sub, List.mem_cons_self, found, hfound, hright⟩
      · exact .inr ⟨sub', List.mem_cons_of_mem sub hsub', hinner⟩

/-- The entries of a match are those of its recorded captures, and entries of
sub-results have larger ids. -/
theorem entries_matchResult (hrising : ∀ inner ∈ tree.children ++ tree.negatives,
      tree.id < inner.id) {queryMatch : QueryMatch} {part : QueryResult}
    (hpart : MatchResult externals source OwnIds tree queryMatch part) (c : CaptureResult) :
    (c ∈ queryMatch.captures.filterMap (recordOf tree) → c ∈ part.captures) ∧
      (c ∈ part.captures →
        c ∈ queryMatch.captures.filterMap (recordOf tree) ∨ tree.id < c.queryId) := by
  obtain ⟨state, hcollect, hjoin⟩ := hpart
  have hgathered := gathered_of_collect hcollect
  obtain ⟨hkept, hsplit⟩ := mem_captures_subJoin hjoin c
  have hbase : state.result.captures = queryMatch.captures.filterMap (recordOf tree) := hgathered.r
  rw [hbase] at hkept hsplit
  refine ⟨hkept, ?_⟩
  intro hc
  rcases hsplit hc with hown | ⟨sub, hsub, found, hfound, hinner⟩
  · exact .inl hown
  · have hle := hfound c hinner
    rcases collect_subqueries hcollect sub hsub with hstart | ⟨hchild, -⟩
    · cases hstart
    · have hlt := hrising sub.1 (List.mem_append_left _ hchild)
      exact .inr (by omega)

theorem recordOf_eq_some_iff {c : QueryCapture} {entry : CaptureResult} :
    recordOf tree c = some entry ↔
      recordedAt tree.captures c.index = true ∧ entry = ⟨c.node.range, tree.id, c.index⟩ := by
  unfold recordOf recordedAt
  rw [eq_comm (a := entry)]
  cases tree.captures[c.index]? with
  | none => simp
  | some capture => by_cases h : capture.isRecorded = true <;> simp [h]

/-- One part has an entry for a capture exactly if the capture is recorded
and occurs in the pattern of the part. -/
theorem exists_entry_iff (hrising : ∀ inner ∈ tree.children ++ tree.negatives, tree.id < inner.id)
    {queryMatch : QueryMatch} {pattern : Pattern}
    (hperm : (queryMatch.captures.map QueryCapture.index).Perm pattern.captures)
    {part : QueryResult} (hpart : MatchResult externals source OwnIds tree queryMatch part)
    {i : ℕ} :
    (∃ c ∈ part.captures, c.captureIdx = i ∧ c.queryId = tree.id) ↔
      i ∈ pattern.captures ∧ recordedAt tree.captures i = true := by
  constructor
  · rintro ⟨entry, hentry, rfl, hid⟩
    rcases (entries_matchResult hrising hpart entry).2 hentry with hown | hlt
    · obtain ⟨c, hc, hrecord⟩ := List.mem_filterMap.mp hown
      obtain ⟨hrecorded, rfl⟩ := recordOf_eq_some_iff.mp hrecord
      exact ⟨hperm.mem_iff.mp (List.mem_map_of_mem hc), hrecorded⟩
    · omega
  · rintro ⟨hi, hrecorded⟩
    obtain ⟨c, hc, rfl⟩ := List.mem_map.mp (hperm.mem_iff.mpr hi)
    have hrecord := recordOf_eq_some_iff.mpr ⟨hrecorded, rfl⟩
    exact ⟨_, (entries_matchResult hrising hpart _).1 (List.mem_filterMap.mpr ⟨c, hc, hrecord⟩),
      rfl, rfl⟩

theorem mem_captures_foldl (first : QueryResult) (rest : List QueryResult) (c : CaptureResult) :
    c ∈ (rest.foldl QueryResult.append first).captures ↔
      ∃ part ∈ first :: rest, c ∈ part.captures := by
  induction rest generalizing first with
  | nil => simp
  | cons next rest ih =>
    rw [List.foldl_cons, ih]
    simp only [List.mem_cons, exists_eq_or_imp, QueryResult.append, List.mem_append, or_assoc]

theorem mem_captures_concatenate {parts : List QueryResult} {result : QueryResult}
    (h : concatenate parts = some result) {c : CaptureResult} :
    c ∈ result.captures ↔ ∃ part ∈ parts, c ∈ part.captures := by
  cases parts with
  | nil => cases h
  | cons first rest =>
    cases h
    exact mem_captures_foldl first rest c

/-- Results keep to the ids of their query when sub-results do. -/
theorem ownIds_treeResult (hwell : WellFormed externals constraints tree) {root : Node}
    {result : QueryResult} (h : TreeResult externals source OwnIds tree root result) :
    OwnIds tree result := by
  obtain ⟨parts, hconcatenate, -, -, hparts⟩ := h
  intro c hc
  obtain ⟨part, hpart, hin⟩ := (mem_captures_concatenate hconcatenate).mp hc
  obtain ⟨i, hget⟩ := List.mem_iff_getElem?.mp hpart
  obtain ⟨queryMatch, -, -, hmatch⟩ := hparts i part hget
  rcases (entries_matchResult hwell.rising hmatch c).2 hin with hown | hlt
  · obtain ⟨capture, -, hrecord⟩ := List.mem_filterMap.mp hown
    obtain ⟨-, rfl⟩ := recordOf_eq_some_iff.mp hrecord
    exact le_rfl
  · exact hlt.le

/-- A capture occurs in one pattern only. -/
theorem pattern_index_unique (hwell : WellFormed externals constraints tree) {i k l : ℕ}
    {p q : Pattern} (hp : tree.query.patterns[k]? = some p)
    (hq : tree.query.patterns[l]? = some q) (hip : i ∈ p.captures) (hiq : i ∈ q.captures) :
    k = l := by
  have hpairwise := List.pairwise_iff_getElem.mp
    (pairwise_pattern_captures hwell.layout hwell.layout)
  obtain ⟨hk, rfl⟩ := List.getElem?_eq_some_iff.mp hp
  obtain ⟨hl, rfl⟩ := List.getElem?_eq_some_iff.mp hq
  rcases Nat.lt_trichotomy k l with hlt | heq | hgt
  · exact absurd (hpairwise k l hk hl hlt i hip i hiq) (Nat.lt_irrefl i)
  · exact heq
  · exact absurd (hpairwise l k hl hk hgt i hiq i hip) (Nat.lt_irrefl i)

/-- Results of a well-formed query are candidates. -/
theorem candidate_treeResult (hreports : externals.ReportsCaptures)
    (hwell : WellFormed externals constraints tree) {root : Node} {result : QueryResult}
    (h : TreeResult externals source OwnIds tree root result) : Candidate tree result := by
  obtain ⟨parts, hconcatenate, hlength, hpairwise, hparts⟩ := h
  have hpart : ∀ (k : ℕ) (part : QueryResult) (p : Pattern), parts[k]? = some part →
      tree.query.patterns[k]? = some p → ∀ i,
      (∃ c ∈ part.captures, c.captureIdx = i ∧ c.queryId = tree.id) ↔
        i ∈ p.captures ∧ recordedAt tree.captures i = true := by
    intro k part p hget hp i
    obtain ⟨queryMatch, hmatch, rfl, hresult⟩ := hparts k part hget
    obtain ⟨pattern, hpattern, hperm, -⟩ := hreports _ _ _ _ hmatch
    rw [hpattern] at hp
    cases hp
    exact exists_entry_iff hwell.rising hperm hresult
  have hentry : ∀ c ∈ result.captures, c.queryId = tree.id → ∃ (k : ℕ) (part : QueryResult)
      (p : Pattern), parts[k]? = some part ∧ tree.query.patterns[k]? = some p ∧
        c ∈ part.captures ∧ c.captureIdx ∈ p.captures ∧
        recordedAt tree.captures c.captureIdx = true := by
    intro c hc hid
    obtain ⟨part, hin, hcpart⟩ := (mem_captures_concatenate hconcatenate).mp hc
    obtain ⟨k, hget⟩ := List.mem_iff_getElem?.mp hin
    have hlt := (List.getElem?_eq_some_iff.mp hget).1
    rw [hlength] at hlt
    have hp := List.getElem?_eq_getElem hlt
    exact ⟨k, part, _, hget, hp, hcpart, (hpart k part _ hget hp _).mp ⟨c, hcpart, rfl, hid⟩⟩
  constructor
  · intro i
    rw [getCaptureResult_isSome_iff]
    constructor
    · rintro ⟨c, hc, rfl, hid⟩
      obtain ⟨-, -, -, -, -, -, -, hrecorded⟩ := hentry c hc hid
      exact hrecorded
    · intro hrecorded
      obtain ⟨p, hp, hi⟩ := exists_pattern_of_wellFormed hwell (lt_of_recordedAt hrecorded)
      obtain ⟨k, hget⟩ := List.mem_iff_getElem?.mp hp
      have hlt := (List.getElem?_eq_some_iff.mp hget).1
      rw [← hlength] at hlt
      obtain ⟨c, hc, hfound⟩ :=
        (hpart k _ p (List.getElem?_eq_getElem hlt) hget i).mpr ⟨hi, hrecorded⟩
      exact ⟨c, (mem_captures_concatenate hconcatenate).mpr
        ⟨_, List.getElem_mem hlt, hc⟩, hfound⟩
  · rw [List.pairwise_iff_getElem]
    intro k l hk hl hkl i hi j hj c d hc hd
    obtain ⟨hcmem, rfl, hcid⟩ := mem_of_getCaptureResult hc
    obtain ⟨hdmem, rfl, hdid⟩ := mem_of_getCaptureResult hd
    obtain ⟨k', part, p, hgetk, hp, hcpart, hcp, -⟩ := hentry c hcmem hcid
    obtain ⟨l', part', q, hgetl, hq, hdpart, hdq, -⟩ := hentry d hdmem hdid
    have hkk := pattern_index_unique hwell (List.getElem?_eq_getElem hk) hp hi hcp
    have hll := pattern_index_unique hwell (List.getElem?_eq_getElem hl) hq hj hdq
    subst hkk hll
    obtain ⟨hkparts, rfl⟩ := List.getElem?_eq_some_iff.mp hgetk
    obtain ⟨hlparts, rfl⟩ := List.getElem?_eq_some_iff.mp hgetl
    have hjoinable := List.pairwise_iff_getElem.mp hpairwise k l hkparts hlparts hkl
    exact hjoinable.1 c hcpart d hdpart

end Parts

/-- A sub-query run through the cache of `match_internal`. -/
def cachedRun (externals : Externals) (source : String) (sub : QueryTree) (node : Node) :
    EngineM (List QueryResult) :=
  memoise ⟨sub.id, node.id⟩ (matchInternal externals source sub node)

section Cached

variable {externals : Externals} {constraints : RegexMap} {tree : QueryTree} {source : String}

/-- Queries inside a query keep to their ids, and so do the caches they leave. -/
theorem returns_ownIds (hwell : ∀ t ∈ tree.trees, WellFormed externals constraints t)
    {inner : QueryTree} (hinner : inner ∈ tree.children ++ tree.negatives) (node : Node) :
    Returns KeyIds (matchInternal externals source inner node) (All (OwnIds inner)) := by
  refine returns_matchInternal (faithful_keyIds tree) ?_ inner (child_trees hinner)
    (child_subQueries hinner) node
  intro t ht root result hresult
  exact ownIds_treeResult (hwell t ht) hresult

/-- This also holds for results taken from the cache. -/
theorem returns_cachedRun (hwell : ∀ t ∈ tree.trees, WellFormed externals constraints t)
    {child : QueryTree} (hchild : child ∈ tree.children) (node : Node) :
    Returns KeyIds (cachedRun externals source child node) (All (OwnIds child)) :=
  returns_cached (faithful_keyIds tree) (children_subset hchild)
    (returns_ownIds hwell (List.mem_append_left tree.negatives hchild) node)

/-- Whatever the cache holds by then, the positive part of a well-formed query
yields results of the query. -/
theorem treeResult_of_mem_mergePatterns
    (hwell : ∀ t ∈ tree.trees, WellFormed externals constraints t) {root : Node}
    {cache : Table CacheKey (List QueryResult)} (hcache : Sound KeyIds cache)
    {collected : List (List QueryResult)}
    (hrun : (runFrom (patternResults externals source (cachedRun externals source) tree root)
      cache).1 = .ok collected) {candidate : QueryResult}
    (hcandidate : candidate ∈ mergePatterns source collected) :
    TreeResult externals source OwnIds tree root candidate := by
  have hsub : ∀ child ∈ tree.children, ∀ node,
      Returns KeyIds (cachedRun externals source child node) (All (OwnIds child)) :=
    fun child hchild => returns_cachedRun hwell hchild
  obtain ⟨hcollected, -⟩ := returns_patternResults hsub cache hcache
  exact treeResult_of_mem (hcollected collected hrun) hcandidate

/-- So it yields candidates only. -/
theorem candidate_of_mem_mergePatterns (hreports : externals.ReportsCaptures)
    (hwell : ∀ t ∈ tree.trees, WellFormed externals constraints t) {root : Node}
    {cache : Table CacheKey (List QueryResult)} (hcache : Sound KeyIds cache)
    {collected : List (List QueryResult)}
    (hrun : (runFrom (patternResults externals source (cachedRun externals source) tree root)
      cache).1 = .ok collected) {candidate : QueryResult}
    (hcandidate : candidate ∈ mergePatterns source collected) : Candidate tree candidate :=
  candidate_treeResult hreports (hwell tree (mem_trees_self tree))
    (treeResult_of_mem_mergePatterns hwell hcache hrun hcandidate)

end Cached

end WeggliEnhance.PositiveCandidates
