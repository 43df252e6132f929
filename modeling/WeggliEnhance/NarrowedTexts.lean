import WeggliEnhance.PatternBuilder
import WeggliEnhance.PatternSemantics

/-!
# Query texts that match less

Two texts of one shape, where the first may ask for a plain function name at
places at which the second also allows a field. Every match of the first text
is a match of the second with the same captures in the same order. The
capture names come in the same order of their first occurrence, so both
queries number their captures alike.
-/

namespace WeggliEnhance.NarrowedTexts

open SourceText SyntaxTree QueryText PatternBuilder QueryOutline ArgumentMatching LabelledMatches
  PatternSemantics

/-- The first text asks for everything the second asks for. Only loosely
related texts may differ in the function names they allow. -/
inductive Narrows (loose : Bool) : List Item → List Item → Prop
  /-- Nothing is left. -/
  | nil : Narrows loose [] []
  /-- The same item. -/
  | keep (item : Item) {items items' : List Item} :
    Narrows loose items items' → Narrows loose (item :: items) (item :: items')
  /-- A node of one kind. -/
  | node (kind : String) {inner inner' items items' : List Item} :
    Narrows loose inner inner' → Narrows loose items items' →
    Narrows loose (.node kind inner :: items) (.node kind inner' :: items')
  /-- Parentheses. -/
  | group {inner inner' items items' : List Item} :
    Narrows loose inner inner' → Narrows loose items items' →
    Narrows loose (.group inner :: items) (.group inner' :: items')
  /-- Brackets. -/
  | alternation {inner inner' items items' : List Item} :
    Narrows loose inner inner' → Narrows loose items items' →
    Narrows loose (.alternation inner :: items) (.alternation inner' :: items')
  /-- A call of a function by its name, or also of a field. -/
  | call (name : String) {inner inner' items items' : List Item} : loose = true →
    Narrows loose inner inner' → Narrows loose items items' →
    Narrows loose
      (.node "call_expression" (.fieldName "function" :: functionItems true name ++ inner) :: items)
      (.node "call_expression" (.fieldName "function" :: functionItems false name ++ inner') ::
        items')

variable {loose : Bool} {items items' more more' : List Item}

section Rules

theorem narrows_refl (items : List Item) : Narrows loose items items := by
  induction items with
  | nil => exact .nil
  | cons item items ih => exact .keep item ih

theorem narrows_append (h : Narrows loose items items') (hmore : Narrows loose more more') :
    Narrows loose (items ++ more) (items' ++ more') := by
  induction h with
  | nil => exact hmore
  | keep item _ ih => exact .keep item ih
  | node kind hinner _ _ ih => exact .node kind hinner ih
  | group hinner _ _ ih => exact .group hinner ih
  | alternation hinner _ _ ih => exact .alternation hinner ih
  | call name hloose hinner _ _ ih => exact .call name hloose hinner ih

/-- One node. -/
theorem narrows_node (kind : String) (h : Narrows loose items items') :
    Narrows loose [.node kind items] [.node kind items'] := .node kind h .nil

theorem narrows_alternation (h : Narrows loose items items') :
    Narrows loose [.alternation items] [.alternation items'] := .alternation h .nil

theorem narrows_group (h : Narrows loose items items') :
    Narrows loose [.group items] [.group items'] := .group h .nil

/-- Texts that are not loosely related are equal. -/
theorem eq_of_narrows (h : Narrows false items items') : items = items' := by
  induction h with
  | nil => rfl
  | keep item _ ih => rw [ih]
  | node kind _ _ ihinner ih => rw [ihinner, ih]
  | group _ _ ihinner ih => rw [ihinner, ih]
  | alternation _ _ ihinner ih => rw [ihinner, ih]
  | call name hloose _ _ _ _ => cases hloose

theorem isEmpty_of_narrows (h : Narrows loose items items') : items'.isEmpty = items.isEmpty := by
  cases h <;> rfl

end Rules

section Matching

/-- A narrower pattern at the head of a text. -/
theorem sequenceMatch_head {item item' : Item} (hpattern : Item.isPattern item = true)
    (hpattern' : Item.isPattern item' = true)
    (hitem : ∀ node captured, ItemMatch item node captured → ItemMatch item' node captured)
    (hitems : ∀ cursor captured, SequenceMatch items cursor captured →
      SequenceMatch items' cursor captured) (cursor : Cursor) (captured : List Named)
    (h : SequenceMatch (item :: items) cursor captured) :
    SequenceMatch (item' :: items') cursor captured := by
  rw [sequenceMatch_pattern _ hpattern] at h
  rw [sequenceMatch_pattern _ hpattern']
  obtain ⟨taken, next, inner, outer, htakes, hinner, houter, rfl⟩ := h
  exact ⟨taken, next, inner, outer, htakes, hitem _ _ hinner, hitems _ _ houter, rfl⟩

/-- The same item at the head of a text. -/
theorem sequenceMatch_keep (item : Item)
    (hitems : ∀ cursor captured, SequenceMatch items cursor captured →
      SequenceMatch items' cursor captured) (cursor : Cursor) (captured : List Named)
    (h : SequenceMatch (item :: items) cursor captured) :
    SequenceMatch (item :: items') cursor captured := by
  cases hpattern : Item.isPattern item with
  | true => exact sequenceMatch_head hpattern hpattern (fun _ _ h => h) hitems cursor captured h
  | false =>
    rw [sequenceMatch_between _ hpattern] at h ⊢
    obtain ⟨inner, outer, hsuffix, houter, rfl⟩ := h
    exact ⟨inner, outer, hsuffix, hitems _ _ houter, rfl⟩

/-- A function name is one of the two alternatives. -/
theorem sequenceMatch_functionItems (name : String)
    (hitems : ∀ cursor captured, SequenceMatch items cursor captured →
      SequenceMatch items' cursor captured) (cursor : Cursor) (captured : List Named)
    (h : SequenceMatch (functionItems true name ++ items) cursor captured) :
    SequenceMatch (functionItems false name ++ items') cursor captured := by
  change SequenceMatch (.node "identifier" [] :: .tag (.capture name) :: items) cursor captured at h
  rw [sequenceMatch_pattern _ rfl, sequenceMatch_capture] at h
  obtain ⟨taken, _, inner, _, htakes, hinner, ⟨node, next, _, outer, ⟨hlast, rfl⟩, rfl, houter,
    rfl⟩, rfl⟩ := h
  have hnode : node = taken := by
    obtain ⟨_, _, _, _, _, rfl⟩ := htakes
    exact (Option.some.inj hlast).symm
  subst hnode
  change SequenceMatch (.alternation [.node "field_expression"
      [.fieldName "field", .node "field_identifier" [], captureItem name],
    .node "identifier" [], captureItem name] :: items') cursor _
  rw [sequenceMatch_pattern _ rfl]
  refine ⟨node, next, inner ++ [(name, node)], outer, htakes, ?_, hitems _ _ houter, ?_⟩
  · rw [ItemMatch, ChoiceMatch, ChoiceMatch]
    exact .inr (.inl ⟨inner, hinner, rfl⟩)
  · rw [List.append_assoc]

/-- A narrower alternative at the head, with the same suffixes. -/
theorem choiceMatch_head {item item' : Item} (hnames : suffixNames items' = suffixNames items)
    (hitem : ∀ node captured, ItemMatch item node captured → ItemMatch item' node captured)
    (hitems : ∀ node captured, ChoiceMatch items node captured → ChoiceMatch items' node captured)
    (node : Node) (captured : List Named) (h : ChoiceMatch (item :: items) node captured) :
    ChoiceMatch (item' :: items') node captured := by
  rw [ChoiceMatch] at h ⊢
  rw [hnames]
  rcases h with ⟨inner, hinner, rfl⟩ | hrest
  · exact .inl ⟨inner, hitem _ _ hinner, rfl⟩
  · exact .inr (hitems _ _ hrest)

/-- What a narrower text promises, as a sequence and as a list of
alternatives. -/
structure MatchesLess (items items' : List Item) : Prop where
  /-- As a sequence. -/
  sequence : ∀ cursor captured, SequenceMatch items cursor captured →
    SequenceMatch items' cursor captured
  /-- As alternatives. -/
  choice : ∀ node captured, ChoiceMatch items node captured → ChoiceMatch items' node captured
  /-- The suffixes in front are the same. -/
  names : suffixNames items' = suffixNames items

/-- Patterns at the head that match less. -/
theorem matchesLess_head {item item' : Item} (hpattern : Item.isPattern item = true)
    (hpattern' : Item.isPattern item' = true)
    (hitem : ∀ node captured, ItemMatch item node captured → ItemMatch item' node captured)
    (h : MatchesLess items items') : MatchesLess (item :: items) (item' :: items') where
  sequence := sequenceMatch_head hpattern hpattern' hitem h.sequence
  choice := choiceMatch_head h.names hitem h.choice
  names := by
    have htag : ¬Item.isTag item = true := by
      rw [isTag_of_isPattern hpattern]
      exact Bool.false_ne_true
    have htag' : ¬Item.isTag item' = true := by
      rw [isTag_of_isPattern hpattern']
      exact Bool.false_ne_true
    rw [suffixNames, suffixNames, List.takeWhile_cons_of_neg htag,
      List.takeWhile_cons_of_neg htag']

theorem matchesLess_keep (item : Item) (h : MatchesLess items items') :
    MatchesLess (item :: items) (item :: items') where
  sequence := sequenceMatch_keep item h.sequence
  choice := choiceMatch_head h.names (fun _ _ h => h) h.choice
  names := by
    by_cases htag : Item.isTag item = true
    · have hnames := h.names
      unfold suffixNames at hnames ⊢
      rw [List.takeWhile_cons_of_pos htag, List.takeWhile_cons_of_pos htag, List.filterMap_cons,
        List.filterMap_cons, hnames]
    · rw [suffixNames, suffixNames, List.takeWhile_cons_of_neg htag,
        List.takeWhile_cons_of_neg htag]

/-- Every match of the first text is a match of the second. -/
theorem matchesLess_of_narrows (h : Narrows loose items items') : MatchesLess items items' := by
  induction h with
  | nil => exact ⟨fun _ _ h => h, fun _ _ h => h, rfl⟩
  | keep item _ ih => exact matchesLess_keep item ih
  | node kind _ _ ihinner ih =>
    refine matchesLess_head rfl rfl ?_ ih
    intro node captured h
    rw [ItemMatch] at h ⊢
    exact ⟨h.1, ihinner.sequence _ _ h.2⟩
  | group _ _ ihinner ih =>
    refine matchesLess_head rfl rfl ?_ ih
    intro node captured h
    rw [ItemMatch] at h ⊢
    exact ihinner.sequence _ _ h
  | alternation _ _ ihinner ih =>
    refine matchesLess_head rfl rfl ?_ ih
    intro node captured h
    rw [ItemMatch] at h ⊢
    exact ihinner.choice _ _ h
  | call name _ _ _ ihinner ih =>
    refine matchesLess_head rfl rfl ?_ ih
    intro node captured h
    rw [ItemMatch, List.cons_append] at h ⊢
    rw [sequenceMatch_mark _ rfl rfl] at h ⊢
    exact ⟨h.1, sequenceMatch_functionItems name ihinner.sequence _ _ h.2⟩

end Matching

section Suffixes

/-- Suffixes refer to the node matched last and leave the place as it is. -/
theorem sequenceMatch_tags {tags : List Item} (htags : ∀ tag ∈ tags, Item.isTag tag = true)
    (cursor : Cursor) (captured : List Named) :
    SequenceMatch (tags ++ items) cursor captured ↔
      ∃ inner outer, SequenceMatch tags ⟨false, none, cursor.last, []⟩ inner ∧
        SequenceMatch items cursor outer ∧ captured = inner ++ outer := by
  induction tags generalizing captured with
  | nil => simp [SequenceMatch]
  | cons tag tags ih =>
    rw [List.forall_mem_cons] at htags
    cases tag with
    | tag tag =>
      have hmark : ∀ place : Cursor, Item.mark (.tag tag) place = place := fun _ => rfl
      rw [List.cons_append, sequenceMatch_between _ rfl]
      simp only [sequenceMatch_between _ (show Item.isPattern (.tag tag) = false from rfl), hmark,
        ih htags.2]
      constructor
      · rintro ⟨own, _, hown, ⟨inner, outer, hinner, houter, rfl⟩, rfl⟩
        exact ⟨own ++ inner, outer, ⟨own, inner, hown, hinner, rfl⟩, houter,
          (List.append_assoc _ _ _).symm⟩
      · rintro ⟨_, outer, ⟨own, inner, hown, hinner, rfl⟩, houter, rfl⟩
        exact ⟨own, inner ++ outer, hown, ⟨inner, outer, hinner, houter, rfl⟩,
          List.append_assoc _ _ _⟩
    | _ => cases htags.1

/-- A pattern with its suffixes is matched by one sibling, whatever patterns
without captures follow. -/
theorem exists_sibling {first : Item} {tags others : List Item}
    (hpattern : Item.isPattern first = true) (htags : ∀ tag ∈ tags, Item.isTag tag = true)
    (hothers : ∀ cursor captured, SequenceMatch others cursor captured → captured = [])
    {siblings : List Node} {captured : List Named}
    (h : SequenceMatch (first :: tags ++ others) (.start siblings) captured) :
    ∃ sibling ∈ siblings, SequenceMatch (first :: tags) (.start [sibling]) captured := by
  rw [List.cons_append, sequenceMatch_pattern _ hpattern] at h
  obtain ⟨taken, next, inner, outer, htakes, hinner, houter, rfl⟩ := h
  rw [sequenceMatch_tags htags] at houter
  obtain ⟨suffixes, rest, hsuffixes, hrest, rfl⟩ := houter
  obtain ⟨skipped, left, hsiblings, -, -, rfl⟩ := htakes
  have hmem : taken ∈ siblings := by
    change siblings = skipped ++ taken :: left at hsiblings
    rw [hsiblings]
    exact List.mem_append_right _ List.mem_cons_self
  refine ⟨taken, hmem, ?_⟩
  rw [sequenceMatch_pattern _ hpattern]
  refine ⟨taken, ⟨false, none, some taken, []⟩, inner, suffixes, ?_, hinner, hsuffixes, ?_⟩
  · refine ⟨[], [], rfl, fun _ => List.forall_mem_nil _, ?_, rfl⟩
    rintro field ⟨⟩
  · rw [hothers _ _ hrest, List.append_nil]

/-- Nodes without children capture nothing. -/
theorem captured_of_leaves {others : List Item}
    (h : ∀ other ∈ others, ∃ kind, other = .node kind []) (cursor : Cursor) (captured : List Named)
    (hmatch : SequenceMatch others cursor captured) : captured = [] := by
  induction others generalizing cursor captured with
  | nil =>
    rw [SequenceMatch] at hmatch
    exact hmatch
  | cons other others ih =>
    rw [List.forall_mem_cons] at h
    obtain ⟨⟨kind, rfl⟩, hrest⟩ := h
    rw [sequenceMatch_pattern _ rfl] at hmatch
    obtain ⟨taken, next, inner, outer, -, hinner, houter, rfl⟩ := hmatch
    rw [ItemMatch, SequenceMatch] at hinner
    rw [hinner.2, ih hrest next outer houter, List.append_nil]

/-- One pattern on one node. -/
theorem sequenceMatch_singleton {item : Item} (hpattern : Item.isPattern item = true)
    {target : Node} {captured : List Named} :
    SequenceMatch [item] (.start [target]) captured ↔ ItemMatch item target captured := by
  rw [sequenceMatch_pattern _ hpattern]
  constructor
  · rintro ⟨taken, next, inner, outer, ⟨skipped, rest, hsiblings, -, -, -⟩, hinner, houter, rfl⟩
    rw [SequenceMatch] at houter
    rw [houter, List.append_nil]
    have htaken : taken = target := by
      cases skipped with
      | nil => exact (List.cons.inj hsiblings).1.symm
      | cons first skipped =>
        have hlength := congrArg List.length hsiblings
        simp [Cursor.start] at hlength
    rw [← htaken]
    exact hinner
  · intro h
    refine ⟨target, ⟨false, none, some target, []⟩, captured, [], ?_, h, ?_,
      (List.append_nil _).symm⟩
    · refine ⟨[], [], rfl, fun _ => List.forall_mem_nil _, ?_, rfl⟩
      rintro field ⟨⟩
    · rw [SequenceMatch]

end Suffixes

section Names

/-- Both lists mention the same names in the same order of first occurrence,
whatever stands around them. -/
def SameNames (names names' : List String) : Prop :=
  ∀ before after, (before ++ names' ++ after).eraseDups = (before ++ names ++ after).eraseDups

theorem sameNames_refl (names : List String) : SameNames names names := fun _ _ => rfl

theorem sameNames_append {names names' others others' : List String} (h : SameNames names names')
    (hothers : SameNames others others') : SameNames (names ++ others) (names' ++ others') := by
  intro before after
  have hfirst := h before (others' ++ after)
  have hsecond := hothers (before ++ names) after
  simp only [List.append_assoc] at hfirst hsecond ⊢
  rw [hfirst, hsecond]

/-- A name that is repeated at once. -/
theorem sameNames_twice (name : String) : SameNames [name] [name, name] := by
  intro before after
  rw [List.append_assoc, List.append_assoc, List.eraseDups_append, List.eraseDups_append]
  congr 1
  simp only [List.cons_append, List.nil_append, List.cons_removeAll]
  cases before.contains name with
  | true => rfl
  | false => simp [List.eraseDups_cons]

theorem captureNames_cons (item : Item) (items : List Item) :
    captureNames (item :: items) = item.tags.flatMap Tag.names ++ captureNames items := by
  rw [captureNames, tagsOf, List.flatMap_append, captureNames]

theorem sameNames_of_narrows (h : Narrows loose items items') :
    SameNames (captureNames items) (captureNames items') := by
  induction h with
  | nil => exact sameNames_refl _
  | keep item _ ih =>
    rw [captureNames_cons, captureNames_cons]
    exact sameNames_append (sameNames_refl _) ih
  | node kind _ _ ihinner ih =>
    rw [captureNames_cons, captureNames_cons]
    exact sameNames_append ihinner ih
  | group _ _ ihinner ih =>
    rw [captureNames_cons, captureNames_cons]
    exact sameNames_append ihinner ih
  | alternation _ _ ihinner ih =>
    rw [captureNames_cons, captureNames_cons]
    exact sameNames_append ihinner ih
  | @call name inner inner' items items' _ _ _ ihinner ih =>
    rw [captureNames_cons, captureNames_cons]
    have hinner := sameNames_append (sameNames_twice name) ihinner
    exact sameNames_append hinner ih

/-- Both texts hold the same capture suffixes and predicates. -/
theorem mem_tagsOf_of_narrows (h : Narrows loose items items') (tag : Tag) :
    tag ∈ tagsOf items' ↔ tag ∈ tagsOf items := by
  induction h with
  | nil => rfl
  | keep item _ ih => rw [tagsOf, tagsOf, List.mem_append, List.mem_append, ih]
  | node kind _ _ ihinner ih =>
    rw [tagsOf, tagsOf, List.mem_append, List.mem_append, ih, Item.tags, Item.tags, ihinner]
  | group _ _ ihinner ih =>
    rw [tagsOf, tagsOf, List.mem_append, List.mem_append, ih, Item.tags, Item.tags, ihinner]
  | alternation _ _ ihinner ih =>
    rw [tagsOf, tagsOf, List.mem_append, List.mem_append, ih, Item.tags, Item.tags, ihinner]
  | call name _ _ _ ihinner ih =>
    simp [tagsOf, Item.tags, functionItems, captureItem, ihinner, ih]

/-- A narrower top-level pattern matches less. -/
theorem matches_of_narrows (h : Narrows loose items items') {source : String} {target : Node}
    {captured : List Named} (hmatch : Matches source items target captured) :
    Matches source items' target captured := by
  refine ⟨(matchesLess_of_narrows h).sequence _ _ hmatch.1, ?_⟩
  intro tag htag
  exact hmatch.2 tag ((mem_tagsOf_of_narrows h tag).mp htag)

end Names

end WeggliEnhance.NarrowedTexts
