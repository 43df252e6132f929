import WeggliEnhance.QueryTreeConstruction

/-!
# Capture numbering

Tree-sitter numbers the capture names of a query by their first occurrence in
the text; the builder numbers them by allocation. Both numberings agree, the
top-level patterns share the captures out among them, and every predicate
stays inside its pattern. The compiled patterns can therefore be read as
intervals of the builder's captures.
-/

namespace WeggliEnhance.CaptureNumbering

open SourceText SyntaxTree QueryText ThirdParty QueryTrees PatternBuilder PatternNesting
  FirstOccurrence BuilderEmission BuilderSpecification QueryTreeConstruction FallibleState

section Predicates

variable {captures : List Capture} {lower upper : ℕ}

/-- The captures of an interval with their indices. -/
def entries (captures : List Capture) (lower upper : ℕ) : List (Capture × ℕ) :=
  ((captures.take upper).drop lower).zipIdx lower

theorem mem_entries {capture : Capture} {i : ℕ} :
    (capture, i) ∈ entries captures lower upper ↔
      (lower ≤ i ∧ i < upper) ∧ captures[i]? = some capture := by
  rw [entries, List.mk_mem_zipIdx_iff_le_and_getElem?_sub, List.getElem?_drop, List.getElem?_take]
  constructor
  · rintro ⟨hle, hget⟩
    have hi : lower + (i - lower) = i := by omega
    rw [hi] at hget
    split_ifs at hget with hlt
    exact ⟨⟨hle, hlt⟩, hget⟩
  · rintro ⟨⟨hle, hlt⟩, hget⟩
    have hi : lower + (i - lower) = i := by omega
    rw [hi, if_pos hlt]
    exact ⟨hle, hget⟩

/-- The occurrences of a variable in an interval, in order. -/
def occurrences (captures : List Capture) (lower upper : ℕ) (name : String) : List ℕ :=
  ((variableIndices (entries captures lower upper)).filter fun entry => entry.1 == name).map
    Prod.snd

theorem mem_variableIndices {name : String} {i : ℕ} :
    (name, i) ∈ variableIndices (entries captures lower upper) ↔
      (lower ≤ i ∧ i < upper) ∧ ∃ constraint, captures[i]? = some (.variable name constraint) := by
  rw [variableIndices, List.mem_filterMap]
  constructor
  · rintro ⟨⟨capture, j⟩, hmem, hname⟩
    obtain ⟨v, hv, heq⟩ := Option.map_eq_some_iff.mp hname
    obtain ⟨rfl, rfl⟩ := Prod.mk.inj heq
    obtain ⟨hinterval, hget⟩ := mem_entries.mp hmem
    cases capture with
    | «variable» w constraint =>
      cases hv
      exact ⟨hinterval, constraint, hget⟩
    | display => cases hv
    | check text => cases hv
    | number value => cases hv
    | callExpQuery count minimum => cases hv
    | subWildQuery tree => cases hv
    | subMultiQuery tree => cases hv
  · rintro ⟨hinterval, constraint, hget⟩
    exact ⟨(.variable name constraint, i), mem_entries.mpr ⟨hinterval, hget⟩, rfl⟩

theorem mem_occurrences {name : String} {i : ℕ} :
    i ∈ occurrences captures lower upper name ↔
      (lower ≤ i ∧ i < upper) ∧ ∃ constraint, captures[i]? = some (.variable name constraint) := by
  rw [← mem_variableIndices, occurrences, List.mem_map]
  constructor
  · rintro ⟨⟨v, j⟩, hmem, rfl⟩
    obtain ⟨hentry, hname⟩ := List.mem_filter.mp hmem
    rwa [← beq_iff_eq.mp hname]
  · intro hmem
    exact ⟨(name, i), List.mem_filter.mpr ⟨hmem, beq_self_eq_true name⟩, rfl⟩

theorem mem_tagsOf {items : List Item} {tag : Tag} :
    tag ∈ tagsOf items ↔ ∃ item ∈ items, tag ∈ item.tags := by
  induction items with
  | nil => simp [tagsOf]
  | cons item items ih => simp [tagsOf, ih]

/-- The predicates of an interval: constants are compared with their text and
the later occurrences of a variable with its first one. -/
theorem mem_predicateTags {tag : Tag} :
    tag ∈ predicateTags captures lower upper ↔
      (∃ i text, (lower ≤ i ∧ i < upper) ∧ captures[i]? = some (.check text) ∧
        tag = .eqString (toString i) text) ∨
      ∃ name first rest, occurrences captures lower upper name = first :: rest ∧
        ∃ i ∈ rest, tag = .eqCapture (toString first) (toString i) := by
  have hitems : (processCaptures (captures.take upper) lower).1 =
      (entries captures lower upper).filterMap checkPredicate ++
        ((variableIndices (entries captures lower upper)).map Prod.fst).eraseDups.flatMap
          fun name => starPredicates (occurrences captures lower upper name) := rfl
  rw [predicateTags, hitems, tagsOf_append, List.mem_append, mem_tagsOf, mem_tagsOf]
  refine or_congr ?_ ?_
  · constructor
    · rintro ⟨item, hitem, htag⟩
      obtain ⟨⟨capture, i⟩, hmem, hcheck⟩ := List.mem_filterMap.mp hitem
      obtain ⟨hinterval, hget⟩ := mem_entries.mp hmem
      unfold checkPredicate at hcheck
      split at hcheck
      · rename_i text hcapture
        cases hcheck
        cases hcapture
        exact ⟨i, text, hinterval, hget, List.mem_singleton.mp htag⟩
      · cases hcheck
    · rintro ⟨i, text, hinterval, hget, rfl⟩
      exact ⟨.tag (.eqString (toString i) text),
        List.mem_filterMap.mpr ⟨(.check text, i), mem_entries.mpr ⟨hinterval, hget⟩, rfl⟩,
        List.mem_singleton_self _⟩
  · constructor
    · rintro ⟨item, hitem, htag⟩
      obtain ⟨name, -, hstar⟩ := List.mem_flatMap.mp hitem
      cases hoccurrences : occurrences captures lower upper name with
      | nil =>
        rw [hoccurrences] at hstar
        cases hstar
      | cons first rest =>
        rw [hoccurrences, starPredicates] at hstar
        obtain ⟨i, hi, rfl⟩ := List.mem_map.mp hstar
        exact ⟨name, first, rest, hoccurrences, i, hi, List.mem_singleton.mp htag⟩
    · rintro ⟨name, first, rest, hoccurrences, i, hi, rfl⟩
      have hfirst : first ∈ occurrences captures lower upper name := by
        rw [hoccurrences]
        exact List.mem_cons_self
      have hname : name ∈
          ((variableIndices (entries captures lower upper)).map Prod.fst).eraseDups := by
        rw [List.mem_eraseDups]
        exact List.mem_map.mpr
          ⟨(name, first), mem_variableIndices.mpr (mem_occurrences.mp hfirst), rfl⟩
      refine ⟨.tag (.eqCapture (toString first) (toString i)), ?_, List.mem_singleton_self _⟩
      refine List.mem_flatMap.mpr ⟨name, hname, ?_⟩
      rw [hoccurrences, starPredicates]
      exact List.mem_map.mpr ⟨i, hi, rfl⟩

/-- A predicate names captures of its interval that carry a constant or a
variable. -/
theorem names_predicateTags {tag : Tag} (h : tag ∈ predicateTags captures lower upper) :
    tag.site = none ∧ ∃ indices : List ℕ, tag.names = indices.map toString ∧
      ∀ i ∈ indices, (lower ≤ i ∧ i < upper) ∧ captures[i]? ≠ some .display := by
  rcases mem_predicateTags.mp h with ⟨i, text, hinterval, hget, rfl⟩ |
    ⟨name, first, rest, hoccurrences, i, hi, rfl⟩
  · refine ⟨rfl, [i], rfl, ?_⟩
    intro j hj
    rw [List.mem_singleton.mp hj, hget]
    exact ⟨hinterval, fun heq => by cases heq⟩
  · refine ⟨rfl, [first, i], rfl, ?_⟩
    intro j hj
    have hmem : j ∈ occurrences captures lower upper name := by
      rw [hoccurrences]
      rcases List.mem_cons.mp hj with rfl | hrest
      · exact List.mem_cons_self
      · rw [List.mem_singleton.mp hrest]
        exact List.mem_cons_of_mem first hi
    obtain ⟨hinterval, constraint, hget⟩ := mem_occurrences.mp hmem
    rw [hget]
    exact ⟨hinterval, fun heq => by cases heq⟩

end Predicates

section Layout

variable {captures : List Capture} {lower upper : ℕ} {items : List Item}

/-- The names written by tags that only mention indices of a kind. -/
theorem exists_mentions {tags : List Tag} {kind : ℕ → Prop}
    (h : ∀ tag ∈ tags, ∃ indices : List ℕ, tag.names = indices.map toString ∧
      ∀ i ∈ indices, kind i) :
    ∃ indices : List ℕ, tags.flatMap Tag.names = indices.map toString ∧ ∀ i ∈ indices, kind i := by
  induction tags with
  | nil => exact ⟨[], rfl, fun i hi => by cases hi⟩
  | cons tag tags ih =>
    obtain ⟨first, hfirst, hkind⟩ := h tag List.mem_cons_self
    obtain ⟨rest, hrest, hkinds⟩ := ih fun t ht => h t (List.mem_cons_of_mem tag ht)
    refine ⟨first ++ rest, ?_, ?_⟩
    · rw [List.flatMap_cons, hfirst, hrest, List.map_append]
    · intro i hi
      exact (List.mem_append.mp hi).elim (hkind i) (hkinds i)

theorem names_captureTags (indices : List ℕ) :
    (indices.map captureTag).flatMap Tag.names = indices.map toString := by
  induction indices with
  | nil => rfl
  | cons i indices ih => rw [List.map_cons, List.flatMap_cons, ih]; rfl

theorem sites_captureTags (indices : List ℕ) :
    (indices.map captureTag).filterMap Tag.site = indices.map toString := by
  induction indices with
  | nil => rfl
  | cons i indices ih => rw [List.map_cons, List.map_cons, ← ih]; rfl

/-- The capture suffixes of a pattern number its interval. -/
theorem captureSites_eq (h : PatternLayout captures lower upper items) :
    ∃ indices : List ℕ, captureSites items = indices.map toString ∧
      Numbers lower upper indices := by
  obtain ⟨-, before, after, htags, hnumbers, -⟩ := h
  have hnone : (predicateTags captures lower upper).filterMap Tag.site = [] :=
    List.filterMap_eq_nil_iff.mpr fun tag htag => (names_predicateTags htag).1
  refine ⟨before ++ after, ?_, hnumbers⟩
  rw [captureSites, htags, List.filterMap_append, List.filterMap_append, hnone, List.append_nil,
    sites_captureTags, sites_captureTags, List.map_append]

/-- All names of a pattern, predicates included, number its interval. -/
theorem captureNames_eq (h : PatternLayout captures lower upper items) :
    ∃ indices : List ℕ, captureNames items = indices.map toString ∧
      Numbers lower upper indices := by
  obtain ⟨-, before, after, htags, hnumbers, hdisplay⟩ := h
  obtain ⟨mentioned, hmentioned, hkind⟩ := exists_mentions
    fun tag (htag : tag ∈ predicateTags captures lower upper) => (names_predicateTags htag).2
  have hagain : mentioned ⊆ before := by
    intro i hi
    obtain ⟨hinterval, hget⟩ := hkind i hi
    have hmem : i ∈ before ++ after := (numbers_mem hnumbers).mpr hinterval
    rcases List.mem_append.mp hmem with hbefore | hafter
    · exact hbefore
    · exact absurd (hdisplay i hafter) hget
  refine ⟨before ++ mentioned ++ after, ?_, hnumbers.1, ?_⟩
  · rw [captureNames, htags, List.flatMap_append, List.flatMap_append, hmentioned,
      names_captureTags, names_captureTags, List.map_append, List.map_append]
  · rw [eraseDups_append_append hagain, hnumbers.2]

/-- A capture occurs in a pattern exactly when it lies in its interval. -/
theorem mem_captureSites (h : PatternLayout captures lower upper items) {i : ℕ} :
    toString i ∈ captureSites items ↔ lower ≤ i ∧ i < upper := by
  obtain ⟨indices, hsites, hnumbers⟩ := captureSites_eq h
  rw [hsites, List.mem_map_of_injective toString_injective, numbers_mem hnumbers]

variable {text : List (List Item)}

/-- The names of the whole text number all captures. -/
theorem captureNames_flatten (h : TextLayout captures lower text) :
    ∃ indices : List ℕ, captureNames text.flatten = indices.map toString ∧
      Numbers lower captures.length indices := by
  induction text generalizing lower with
  | nil =>
    cases h
    exact ⟨[], rfl, numbers_nil _⟩
  | cons items text ih =>
    obtain ⟨upper, hpattern, hrest⟩ := h
    obtain ⟨first, hfirst, hnumbers⟩ := captureNames_eq hpattern
    obtain ⟨rest, hnames, hnumbers'⟩ := ih hrest
    refine ⟨first ++ rest, ?_, numbers_append hnumbers hnumbers'⟩
    rw [List.flatten_cons, captureNames_append, hfirst, hnames, List.map_append]

/-- Among the names in order, a name is found at its own index. -/
theorem idxOf_toString {n i : ℕ} (h : i < n) :
    ((List.range n).map (toString : ℕ → String)).idxOf (toString i) = i := by
  have hnodup : ((List.range n).map (toString : ℕ → String)).Nodup :=
    List.Nodup.map toString_injective List.nodup_range
  have hlt : i < ((List.range n).map (toString : ℕ → String)).length := by
    rwa [List.length_map, List.length_range]
  have hfound := hnodup.idxOf_getElem i hlt
  rwa [List.getElem_map, List.getElem_range] at hfound

/-- Every pattern of the text holds an interval of the captures. -/
theorem exists_patternLayout (h : TextLayout captures lower text) {items : List Item}
    (hitems : items ∈ text) :
    ∃ lower' upper', lower ≤ lower' ∧ PatternLayout captures lower' upper' items := by
  induction text generalizing lower with
  | nil => cases hitems
  | cons first text ih =>
    obtain ⟨upper, hpattern, hrest⟩ := h
    rcases List.mem_cons.mp hitems with rfl | htail
    · exact ⟨lower, upper, le_rfl, hpattern⟩
    · obtain ⟨indices, -, hnumbers⟩ := captureSites_eq hpattern
      obtain ⟨lower', upper', hle, hlayout⟩ := ih hrest htail
      exact ⟨lower', upper', hnumbers.1.trans hle, hlayout⟩

/-- Every capture occurs in exactly one pattern of the text. -/
theorem existsUnique_pattern (h : TextLayout captures lower text) {i : ℕ} (hlower : lower ≤ i)
    (hupper : i < captures.length) :
    ∃! k : ℕ, ∃ items, text[k]? = some items ∧ toString i ∈ captureSites items := by
  induction text generalizing lower with
  | nil =>
    cases h
    omega
  | cons first text ih =>
    obtain ⟨upper, hpattern, hrest⟩ := h
    by_cases hfirst : i < upper
    · refine ⟨0, ⟨first, rfl, (mem_captureSites hpattern).mpr ⟨hlower, hfirst⟩⟩, ?_⟩
      rintro k ⟨items, hget, hsite⟩
      cases k with
      | zero => rfl
      | succ k =>
        rw [List.getElem?_cons_succ] at hget
        obtain ⟨lower', upper', hle, hlayout⟩ :=
          exists_patternLayout hrest (List.mem_of_getElem? hget)
        have hinterval := (mem_captureSites hlayout).mp hsite
        omega
    · obtain ⟨k, ⟨items, hget, hsite⟩, hunique⟩ := ih hrest (Nat.le_of_not_lt hfirst)
      refine ⟨k + 1, ⟨items, by rwa [List.getElem?_cons_succ], hsite⟩, ?_⟩
      rintro j ⟨items', hget', hsite'⟩
      cases j with
      | zero =>
        rw [List.getElem?_cons_zero] at hget'
        cases hget'
        have hinterval := (mem_captureSites hpattern).mp hsite'
        omega
      | succ j =>
        rw [List.getElem?_cons_succ] at hget'
        rw [hunique j ⟨items', hget', hsite'⟩]

/-- The distinct names of the text are the indices of the captures. -/
theorem eraseDups_captureNames (h : TextLayout captures 0 text) :
    (captureNames text.flatten).eraseDups = (List.range captures.length).map toString := by
  obtain ⟨indices, hnames, hnumbers⟩ := captureNames_flatten h
  rw [hnames, eraseDups_map toString_injective, hnumbers.2, Nat.sub_zero, List.range_eq_range']

/-- Tree-sitter gives every name the index that the builder wrote. -/
theorem index_toString (h : TextLayout captures 0 text) {i : ℕ} (hi : i < captures.length) :
    (Query.mk text).index (toString i) = i := by
  rw [Query.index, Query.captureNames, eraseDups_captureNames h]
  exact idxOf_toString hi

end Layout

section Compiled

variable {captures : List Capture} {text : List (List Item)}

/-- A compiled pattern serves the captures of a tree: its indices are in
range, every constant is compared with its text, and the occurrences of a
variable are tied to a common first one. -/
structure Serves (captures : List Capture) (pattern : Pattern) : Prop where
  /-- No index occurs twice. -/
  nodup : pattern.captures.Nodup
  /-- Indices are in range. -/
  lt : ∀ i ∈ pattern.captures, i < captures.length
  /-- Constants are compared with their text. -/
  checked : ∀ i ∈ pattern.captures, ∀ constant, captures[i]? = some (.check constant) →
    .eqString i constant ∈ pattern.predicates
  /-- Occurrences of a variable are tied to a common one. -/
  tied : ∀ name, ∃ first, ∀ i ∈ pattern.captures, ∀ constraint,
    captures[i]? = some (.variable name constraint) →
      first ∈ pattern.captures ∧ (i = first ∨ .eqCapture first i ∈ pattern.predicates)

/-- The captures of a compiled pattern are its interval in order. -/
theorem pattern_captures_eq (h : TextLayout captures 0 text) {items : List Item} {lower upper : ℕ}
    (hpattern : PatternLayout captures lower upper items) :
    ((Query.mk text).pattern items).captures = List.range' lower (upper - lower) := by
  obtain ⟨indices, hsites, hnumbers⟩ := captureSites_eq hpattern
  have hupper := hpattern.1
  have hlower := hnumbers.1
  have hindex : ∀ i ∈ List.range' lower (upper - lower),
      ((Query.mk text).index ∘ toString) i = i := by
    intro i hi
    rw [List.mem_range'_1] at hi
    exact index_toString h (by omega)
  rw [Query.pattern, hsites, eraseDups_map toString_injective, List.map_map, hnumbers.2,
    List.map_congr_left hindex, List.map_id']

theorem mem_pattern_captures (h : TextLayout captures 0 text) {items : List Item} {lower upper : ℕ}
    (hpattern : PatternLayout captures lower upper items) {i : ℕ} :
    i ∈ ((Query.mk text).pattern items).captures ↔ lower ≤ i ∧ i < upper := by
  obtain ⟨indices, -, hnumbers⟩ := captureSites_eq hpattern
  have hlower := hnumbers.1
  rw [pattern_captures_eq h hpattern, List.mem_range'_1]
  omega

/-- Captures of earlier patterns have smaller indices. -/
theorem pairwise_pattern_captures {whole : List (List Item)} (hwhole : TextLayout captures 0 whole)
    {lower : ℕ} (h : TextLayout captures lower text) :
    (text.map (Query.mk whole).pattern).Pairwise fun p q =>
      ∀ i ∈ p.captures, ∀ j ∈ q.captures, i < j := by
  induction text generalizing lower with
  | nil => exact List.Pairwise.nil
  | cons items text ih =>
    obtain ⟨upper, hpattern, hrest⟩ := h
    rw [List.map_cons, List.pairwise_cons]
    refine ⟨?_, ih hrest⟩
    intro q hq i hi j hj
    obtain ⟨items', hitems', rfl⟩ := List.mem_map.mp hq
    obtain ⟨lower', upper', hle, hpattern'⟩ := exists_patternLayout hrest hitems'
    have hleft := (mem_pattern_captures hwhole hpattern).mp hi
    have hright := (mem_pattern_captures hwhole hpattern').mp hj
    omega

/-- A predicate of the text becomes a predicate of the compiled pattern. -/
theorem mem_pattern_predicates {items : List Item} {lower upper : ℕ}
    (hpattern : PatternLayout captures lower upper items) {tag : Tag} {predicate : Predicate}
    (htag : tag ∈ predicateTags captures lower upper)
    (hresolved : (Query.mk text).predicate tag = some predicate) :
    predicate ∈ ((Query.mk text).pattern items).predicates := by
  obtain ⟨-, before, after, htags, -, -⟩ := hpattern
  refine List.mem_filterMap.mpr ⟨tag, ?_, hresolved⟩
  rw [htags]
  exact List.mem_append_left _ (List.mem_append_right _ htag)

theorem serves_pattern (h : TextLayout captures 0 text) {items : List Item}
    (hitems : items ∈ text) : Serves captures ((Query.mk text).pattern items) := by
  obtain ⟨lower, upper, -, hpattern⟩ := exists_patternLayout h hitems
  have hupper := hpattern.1
  have hlt : ∀ i ∈ ((Query.mk text).pattern items).captures, i < captures.length := by
    intro i hi
    have hinterval := (mem_pattern_captures h hpattern).mp hi
    omega
  have hnodup : ((Query.mk text).pattern items).captures.Nodup := by
    rw [pattern_captures_eq h hpattern]
    exact List.nodup_range'
  refine ⟨hnodup, hlt, ?_, ?_⟩
  · intro i hi constant hget
    have hinterval := (mem_pattern_captures h hpattern).mp hi
    refine mem_pattern_predicates hpattern
      (mem_predicateTags.mpr (.inl ⟨i, constant, hinterval, hget, rfl⟩)) ?_
    rw [Query.predicate, index_toString h (hlt i hi)]
  · intro name
    cases hoccurrences : occurrences captures lower upper name with
    | nil =>
      refine ⟨0, ?_⟩
      intro i hi constraint hget
      have hinterval := (mem_pattern_captures h hpattern).mp hi
      have hmem := mem_occurrences.mpr ⟨hinterval, constraint, hget⟩
      rw [hoccurrences] at hmem
      cases hmem
    | cons first rest =>
      refine ⟨first, ?_⟩
      intro i hi constraint hget
      have hinterval := (mem_pattern_captures h hpattern).mp hi
      have hfirst : first ∈ occurrences captures lower upper name := by
        rw [hoccurrences]
        exact List.mem_cons_self
      have hfirstInterval := (mem_occurrences.mp hfirst).1
      have hfirstMem := (mem_pattern_captures h hpattern).mpr hfirstInterval
      refine ⟨hfirstMem, ?_⟩
      have hmem := mem_occurrences.mpr ⟨hinterval, constraint, hget⟩
      rw [hoccurrences] at hmem
      rcases List.mem_cons.mp hmem with heq | hrest
      · exact .inl heq
      · refine .inr (mem_pattern_predicates hpattern
          (mem_predicateTags.mpr (.inr ⟨name, first, rest, hoccurrences, i, hrest, rfl⟩)) ?_)
        rw [Query.predicate, index_toString h (hlt first hfirstMem), index_toString h (hlt i hi)]

/-- Every pattern of a well-formed query tree serves its captures. -/
theorem serves_of_wellFormed {externals : Externals} {constraints : RegexMap} {tree : QueryTree}
    (h : WellFormed externals constraints tree) {pattern : Pattern}
    (hpattern : pattern ∈ tree.query.patterns) : Serves tree.captures pattern := by
  obtain ⟨items, hitems, rfl⟩ := List.mem_map.mp hpattern
  exact serves_pattern h.layout hitems

/-- Every capture of a well-formed query tree occurs in some pattern. -/
theorem exists_pattern_of_wellFormed {externals : Externals} {constraints : RegexMap}
    {tree : QueryTree} (h : WellFormed externals constraints tree) {i : ℕ}
    (hi : i < tree.captures.length) : ∃ pattern ∈ tree.query.patterns, i ∈ pattern.captures := by
  obtain ⟨k, ⟨items, hget, hsite⟩, -⟩ := existsUnique_pattern h.layout (Nat.zero_le i) hi
  have hitems := List.mem_of_getElem? hget
  obtain ⟨lower, upper, -, hpattern⟩ := exists_patternLayout h.layout hitems
  exact ⟨_, List.mem_map_of_mem hitems,
    (mem_pattern_captures h.layout hpattern).mpr ((mem_captureSites hpattern).mp hsite)⟩

end Compiled

end WeggliEnhance.CaptureNumbering
