import WeggliEnhance.NarrowedQueries

/-!
# A cursor that reads patterns denotationally

All matches of a pattern can be listed: a pattern tries every sibling that it
may take, and the matches of a sequence are put together from the matches of
its patterns. The lists hold exactly the matches of `PatternSemantics`, so
there is a cursor that reports them.
-/

namespace WeggliEnhance.DenotationalCursor

open SourceText SyntaxTree QueryText ThirdParty QueryOutline ArgumentMatching LabelledMatches
  PatternSemantics NarrowedQueries

/-- The siblings that the next pattern may take, with the place behind. -/
def candidates (anchored : Bool) (field : Option String) : List Node → List (Node × Cursor)
  | [] => []
  | sibling :: rest =>
    (if ∀ name ∈ field, sibling.field = some name then
      [(sibling, ⟨false, none, some sibling, rest⟩)] else []) ++
    (if anchored && sibling.isNamed then [] else candidates anchored field rest)

/-- What a suffix captures, if it can. -/
def Item.suffixes (item : Item) (last : Option Node) : List (List Named) :=
  match item with
  | .tag (.capture name) => last.toList.map fun node => [(name, node)]
  | _ => [[]]

mutual

/-- All matches of a pattern on a node. -/
def itemMatches : Item → Node → List (List Named)
  | .token kind, node => if node.isNamed = false ∧ node.kind = kind then [[]] else []
  | .wildcard, _ => [[]]
  | .node kind items, node =>
    if node.isNamed = true ∧ (kind = "_" ∨ node.kind = kind) then
      sequenceMatches items (.start node.children) else []
  | .group items, node => sequenceMatches items (.start [node])
  | .alternation items, node => choiceMatches items node
  | .fieldName _, _ => []
  | .anchor, _ => []
  | .tag _, _ => []

/-- All matches of a sequence of patterns on siblings. -/
def sequenceMatches : List Item → Cursor → List (List Named)
  | [], _ => [[]]
  | item :: items, cursor =>
    if Item.isPattern item then
      (candidates cursor.anchored cursor.field cursor.siblings).flatMap fun candidate =>
        (itemMatches item candidate.1).flatMap fun inner =>
          (sequenceMatches items candidate.2).map fun outer => inner ++ outer
    else
      (Item.suffixes item cursor.last).flatMap fun inner =>
        (sequenceMatches items (Item.mark item cursor)).map fun outer => inner ++ outer

/-- All matches of some alternatives on a node. -/
def choiceMatches : List Item → Node → List (List Named)
  | [], _ => []
  | item :: items, node =>
    ((itemMatches item node).map fun inner =>
      inner ++ (suffixNames items).map fun name => (name, node)) ++ choiceMatches items node

end

/-- The next pattern takes the next sibling, or one behind it that it may
skip to. -/
theorem takes_cons {anchored : Bool} {field : Option String} {last : Option Node} {sibling : Node}
    {siblings : List Node} {taken : Node} {next : Cursor} :
    (Cursor.mk anchored field last (sibling :: siblings)).Takes taken next ↔
      ((∀ name ∈ field, sibling.field = some name) ∧
          (taken, next) = (sibling, ⟨false, none, some sibling, siblings⟩)) ∨
        ¬(anchored && sibling.isNamed) = true ∧
          (Cursor.mk anchored field last siblings).Takes taken next := by
  constructor
  · rintro ⟨skipped, rest, hsiblings, hskipped, hfield, rfl⟩
    cases skipped with
    | nil =>
      obtain ⟨rfl, rfl⟩ := List.cons.inj hsiblings
      exact .inl ⟨hfield, rfl⟩
    | cons first skipped =>
      obtain ⟨rfl, hrest⟩ := List.cons.inj hsiblings
      refine .inr ⟨?_, skipped, rest, hrest, ?_, hfield, rfl⟩
      · intro hstop
        obtain ⟨hanchored, hnamed⟩ := Bool.and_eq_true_iff.mp hstop
        rw [hskipped hanchored sibling List.mem_cons_self] at hnamed
        cases hnamed
      · intro hanchored other hother
        exact hskipped hanchored other (List.mem_cons_of_mem _ hother)
  · rintro (⟨hfield, hfirst⟩ | ⟨hgo, skipped, rest, hsiblings, hskipped, hfield, hnext⟩)
    · cases hfirst
      exact ⟨[], siblings, rfl, fun _ => List.forall_mem_nil _, hfield, rfl⟩
    · refine ⟨sibling :: skipped, rest, congrArg (sibling :: ·) hsiblings, ?_, hfield, hnext⟩
      intro hanchored
      change anchored = true at hanchored
      rw [hanchored, Bool.true_and] at hgo
      exact List.forall_mem_cons.mpr ⟨Bool.eq_false_iff.mpr hgo, hskipped hanchored⟩

theorem mem_candidates (cursor next : Cursor) (taken : Node) :
    (taken, next) ∈ candidates cursor.anchored cursor.field cursor.siblings ↔
      cursor.Takes taken next := by
  obtain ⟨anchored, field, last, siblings⟩ := cursor
  dsimp only
  induction siblings with
  | nil =>
    refine iff_of_false List.not_mem_nil ?_
    rintro ⟨skipped, rest, hsiblings, -⟩
    cases skipped <;> cases hsiblings
  | cons sibling siblings ih =>
    rw [candidates, List.mem_append, takes_cons, ← ih]
    refine or_congr ?_ ?_
    · split_ifs with hfield
      · rw [List.mem_singleton, and_iff_right hfield]
      · exact iff_of_false List.not_mem_nil fun h => hfield h.1
    · split_ifs with hstop
      · exact iff_of_false List.not_mem_nil fun h => h.1 hstop
      · rw [and_iff_right hstop]

theorem mem_suffixes {item : Item} {last : Option Node} {captured : List Named} :
    captured ∈ Item.suffixes item last ↔ Item.Suffix item last captured := by
  cases item with
  | tag tag =>
    cases tag with
    | capture name =>
      unfold Item.suffixes Item.Suffix
      simp only [List.mem_map, Option.mem_toList, eq_comm]
    | _ => exact List.mem_singleton
  | _ => exact List.mem_singleton

mutual

/-- The list holds exactly the matches of a pattern. -/
theorem mem_itemMatches (item : Item) (node : Node) (captured : List Named) :
    captured ∈ itemMatches item node ↔ ItemMatch item node captured := by
  cases item with
  | token kind =>
    rw [itemMatches, ItemMatch]
    split_ifs with hkind
    · rw [List.mem_singleton, and_iff_right hkind]
    · exact iff_of_false List.not_mem_nil fun h => hkind h.1
  | wildcard =>
    rw [itemMatches, ItemMatch, List.mem_singleton]
  | node kind items =>
    rw [itemMatches, ItemMatch]
    split_ifs with hkind
    · rw [mem_sequenceMatches items, and_iff_right hkind]
    · exact iff_of_false List.not_mem_nil fun h => hkind h.1
  | group items => rw [itemMatches, ItemMatch, mem_sequenceMatches items]
  | alternation items => rw [itemMatches, ItemMatch, mem_choiceMatches items]
  | fieldName name =>
    rw [itemMatches, ItemMatch]
    exact iff_of_false List.not_mem_nil id
  | anchor =>
    rw [itemMatches, ItemMatch]
    exact iff_of_false List.not_mem_nil id
  | tag tag =>
    rw [itemMatches, ItemMatch]
    exact iff_of_false List.not_mem_nil id

/-- The list holds exactly the matches of a sequence. -/
theorem mem_sequenceMatches (items : List Item) (cursor : Cursor) (captured : List Named) :
    captured ∈ sequenceMatches items cursor ↔ SequenceMatch items cursor captured := by
  cases items with
  | nil => rw [sequenceMatches, SequenceMatch, List.mem_singleton]
  | cons item items =>
    rw [sequenceMatches, SequenceMatch]
    split_ifs
    · simp only [List.mem_flatMap, List.mem_map, Prod.exists, mem_candidates cursor,
        mem_itemMatches item, mem_sequenceMatches items]
      constructor
      · rintro ⟨taken, next, htakes, inner, hinner, outer, houter, rfl⟩
        exact ⟨taken, next, inner, outer, htakes, hinner, houter, rfl⟩
      · rintro ⟨taken, next, inner, outer, htakes, hinner, houter, rfl⟩
        exact ⟨taken, next, htakes, inner, hinner, outer, houter, rfl⟩
    · simp only [List.mem_flatMap, List.mem_map, mem_suffixes, mem_sequenceMatches items]
      constructor
      · rintro ⟨inner, hinner, outer, houter, rfl⟩
        exact ⟨inner, outer, hinner, houter, rfl⟩
      · rintro ⟨inner, outer, hinner, houter, rfl⟩
        exact ⟨inner, hinner, outer, houter, rfl⟩

/-- The list holds exactly the matches of the alternatives. -/
theorem mem_choiceMatches (items : List Item) (node : Node) (captured : List Named) :
    captured ∈ choiceMatches items node ↔ ChoiceMatch items node captured := by
  cases items with
  | nil =>
    rw [choiceMatches, ChoiceMatch]
    exact iff_of_false List.not_mem_nil id
  | cons item items =>
    rw [choiceMatches, ChoiceMatch, List.mem_append, List.mem_map, mem_choiceMatches items]
    simp only [mem_itemMatches item, eq_comm]

end

/-- All matches of a top-level pattern on a node of a source. -/
def patternMatches (source : String) (text : List Item) (target : Node) : List (List Named) :=
  (sequenceMatches text (.start [target])).filter fun captured =>
    (tagsOf text).all fun tag => decide (TagHolds source captured tag)

theorem mem_patternMatches {source : String} {text : List Item} {target : Node}
    {captured : List Named} :
    captured ∈ patternMatches source text target ↔ Matches source text target captured := by
  unfold patternMatches Matches
  rw [List.mem_filter, mem_sequenceMatches]
  simp only [List.all_eq_true, decide_eq_true_eq]

/-- The matches of all patterns on all nodes below a root. -/
def denotationalMatches (query : Query) (root : Node) (source : String) : List QueryMatch :=
  query.text.zipIdx.flatMap fun entry => root.nodes.flatMap fun target =>
    (patternMatches source entry.1 target).map fun captured =>
      ⟨entry.2, captured.map fun c => ⟨c.2, query.index c.1⟩⟩

theorem mem_denotationalMatches {query : Query} {root : Node} {source : String}
    {queryMatch : QueryMatch} :
    queryMatch ∈ denotationalMatches query root source ↔
      ∃ text target captured, query.text[queryMatch.patternIndex]? = some text ∧
        target ∈ root.nodes ∧ Matches source text target captured ∧
        queryMatch.captures = captured.map fun c => ⟨c.2, query.index c.1⟩ := by
  unfold denotationalMatches
  simp only [List.mem_flatMap, List.mem_map, mem_patternMatches, Prod.exists,
    List.mk_mem_zipIdx_iff_getElem?]
  constructor
  · rintro ⟨text, i, htext, target, htarget, captured, hmatch, rfl⟩
    exact ⟨text, target, captured, htext, htarget, hmatch, rfl⟩
  · rintro ⟨text, target, captured, htext, htarget, hmatch, hcaptures⟩
    refine ⟨text, queryMatch.patternIndex, htext, target, htarget, captured, hmatch, ?_⟩
    rw [← hcaptures]

/-- A cursor may report exactly these matches. -/
theorem readsPatterns_denotationalMatches (externals : Externals) :
    ReadsPatterns { externals with cursorMatches := denotationalMatches } :=
  ⟨id, fun _ _ _ _ => mem_denotationalMatches⟩

end WeggliEnhance.DenotationalCursor
