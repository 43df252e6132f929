import WeggliEnhance.CaptureNumbering
import WeggliEnhance.PatternSemantics

/-!
# Queries that match alike

Two queries correspond when their captures can be paired so that every match
of one query is a match of the other with the same nodes under the paired
captures. Paired captures carry the same variable, constant or check, and
sub-queries correspond in turn. Query ids play no part. The patterns of the
two texts are compared piece by piece, with one rule for each shape of text.
-/

namespace WeggliEnhance.QueryCorrespondence

open SourceText SyntaxTree QueryText ThirdParty QueryTrees PatternBuilder QueryOutline
  BuilderEmission CaptureNumbering ArgumentMatching LabelledMatches PatternSemantics

/-- A capture with its index. -/
abbrev Entry := Capture × ℕ

/-- A capture of one query beside a capture of the other. -/
abbrev Row := Entry × Entry

/-- The name in the query text of the capture on one side of a row. -/
def nameAt (side : Row → Entry) (row : Row) : String := toString (side row).2

/-- Top-level patterns have the same matches under some of the rows. -/
def SameMatches (rows : List Row) (text text' : List Item) : Prop :=
  ∃ own, own ⊆ rows ∧ ∀ source : String,
    Agree (nameAt Prod.fst) (nameAt Prod.snd) (Matches source text) (Matches source text') own

mutual

/-- Captures that check the same. -/
inductive CapturesAgree : Capture → Capture → Prop
  /-- Captures without a sub-query are equal. -/
  | same (capture : Capture) : capture.tree? = none → CapturesAgree capture capture
  /-- Sub-queries for any sub-expression. -/
  | wild {tree tree' : QueryTree} :
    QueriesAgree tree tree' → CapturesAgree (.subWildQuery tree) (.subWildQuery tree')
  /-- Sub-queries for blocks. -/
  | multi {tree tree' : QueryTree} :
    QueriesAgree tree tree' → CapturesAgree (.subMultiQuery tree) (.subMultiQuery tree')

/-- Queries without negations that match the same nodes with the same
bindings, up to the numbers of captures and the ids. -/
inductive QueriesAgree : QueryTree → QueryTree → Prop
  /-- The rows pair all captures, and the patterns match alike under them. -/
  | intro {tree tree' : QueryTree} (rows : List Row) :
    (rows.map Prod.fst).Perm tree.captures.zipIdx →
    (rows.map Prod.snd).Perm tree'.captures.zipIdx →
    (∀ row ∈ rows, CapturesAgree row.1.1 row.2.1) →
    List.Forall₂ (SameMatches rows) tree.query.text tree'.query.text →
    tree.negations = [] → tree'.negations = [] → tree.variables = tree'.variables →
    QueriesAgree tree tree'

end

theorem name?_of_capturesAgree {capture capture' : Capture} (h : CapturesAgree capture capture') :
    capture.name? = capture'.name? := by
  cases h <;> rfl

theorem check_of_capturesAgree {capture capture' : Capture} (h : CapturesAgree capture capture')
    (text : String) : capture = .check text ↔ capture' = .check text := by
  cases h <;> simp

section Shapes

/-- The suffix for the capture on one side of a row. -/
def suffixAt (side : Row → Entry) (row : Row) : Item := captureItem (nameAt side row)

/-- Two patterns match alike and hold no predicates. -/
structure SamePattern (item item' : Item) (rows : List Row) : Prop where
  /-- The first is a pattern. -/
  isPattern : Item.isPattern item = true
  /-- The second is a pattern. -/
  isPattern' : Item.isPattern item' = true
  /-- The first holds capture suffixes only. -/
  plain : ∀ tag ∈ item.tags, tag.site ≠ none
  /-- The second holds capture suffixes only. -/
  plain' : ∀ tag ∈ item'.tags, tag.site ≠ none
  /-- They have the same matches. -/
  agree : Agree (nameAt Prod.fst) (nameAt Prod.snd) (ItemMatch item) (ItemMatch item') rows

/-- Two texts match alike piece by piece. -/
inductive SameText : List Item → List Item → List Row → Prop
  /-- Nothing is left. -/
  | nil : SameText [] [] []
  /-- A pattern. -/
  | pattern {item item' : Item} {items items' : List Item} {rows rows' : List Row} :
    SamePattern item item' rows → SameText items items' rows' →
    SameText (item :: items) (item' :: items') (rows ++ rows')
  /-- A field name or a dot. -/
  | mark {item : Item} {items items' : List Item} {rows : List Row} :
    Item.isPattern item = false → Item.isTag item = false → SameText items items' rows →
    SameText (item :: items) (item :: items') rows
  /-- A capture suffix. -/
  | suffix (row : Row) {items items' : List Item} {rows : List Row} : SameText items items' rows →
    SameText (suffixAt Prod.fst row :: items) (suffixAt Prod.snd row :: items') (row :: rows)

/-- The text of one pattern with its suffixes, or no text at all. -/
inductive SameEntry : List Item → List Item → List Row → Prop
  /-- Nothing is written. -/
  | nothing : SameEntry [] [] []
  /-- A pattern and its suffixes. -/
  | captured {item item' : Item} {rows : List Row} (marks : List Row) :
    SamePattern item item' rows →
    SameEntry (item :: marks.map (suffixAt Prod.fst)) (item' :: marks.map (suffixAt Prod.snd))
      (rows ++ marks)

/-- Alternatives that match alike in order, each with all the rows. -/
inductive SameChoice (rows : List Row) : List Item → List Item → Prop
  /-- No alternative is left. -/
  | nil : SameChoice rows [] []
  /-- A pattern with its suffixes. -/
  | cons {item item' : Item} {items items' : List Item} {own : List Row} (marks : List Row) :
    SamePattern item item' own → (own ++ marks).Perm rows → SameChoice rows items items' →
    SameChoice rows (item :: (marks.map (suffixAt Prod.fst) ++ items))
      (item' :: (marks.map (suffixAt Prod.snd) ++ items'))

variable {item item' : Item} {items items' more more' : List Item} {rows rows' : List Row}

theorem sameText_append (h : SameText items items' rows) (hmore : SameText more more' rows') :
    SameText (items ++ more) (items' ++ more') (rows ++ rows') := by
  induction h with
  | nil => exact hmore
  | pattern hpattern _ ih =>
    rw [List.append_assoc]
    exact .pattern hpattern ih
  | mark hpattern htag _ ih => exact .mark hpattern htag ih
  | suffix row _ ih => exact .suffix row ih

theorem sameText_suffixes (marks : List Row) :
    SameText (marks.map (suffixAt Prod.fst)) (marks.map (suffixAt Prod.snd)) marks := by
  induction marks with
  | nil => exact .nil
  | cons row marks ih => exact .suffix row ih

theorem sameText_of_entry (h : SameEntry items items' rows) : SameText items items' rows := by
  cases h with
  | nothing => exact .nil
  | captured marks hpattern => exact .pattern hpattern (sameText_suffixes marks)

/-- A pattern without suffixes. -/
theorem sameEntry_pattern (h : SamePattern item item' rows) :
    SameEntry [item] [item'] rows := by
  have hentry := SameEntry.captured [] h
  rwa [List.append_nil] at hentry

/-- A pattern that captures nothing inside, with one suffix. -/
theorem sameEntry_suffix (h : SamePattern item item' rows) (row : Row) :
    SameEntry [item, suffixAt Prod.fst row] [item', suffixAt Prod.snd row] (rows ++ [row]) :=
  .captured [row] h

theorem plain_of_sameText (h : SameText items items' rows) :
    (∀ tag ∈ tagsOf items, tag.site ≠ none) ∧ ∀ tag ∈ tagsOf items', tag.site ≠ none := by
  induction h with
  | nil => exact ⟨List.forall_mem_nil _, List.forall_mem_nil _⟩
  | pattern hpattern _ ih =>
    rw [tagsOf, tagsOf, List.forall_mem_append, List.forall_mem_append]
    exact ⟨⟨hpattern.plain, ih.1⟩, hpattern.plain', ih.2⟩
  | @mark item _ _ _ hpattern htag _ ih =>
    have hnone : item.tags = [] := by
      cases item with
      | fieldName name => rfl
      | anchor => rfl
      | tag tag => cases htag
      | _ => cases hpattern
    rw [tagsOf, tagsOf, hnone, List.nil_append, List.nil_append]
    exact ih
  | suffix row _ ih =>
    rw [tagsOf, tagsOf, List.forall_mem_append, List.forall_mem_append]
    refine ⟨⟨?_, ih.1⟩, ?_, ih.2⟩
    · intro tag htag
      cases List.mem_singleton.mp htag
      exact Option.some_ne_none _
    · intro tag htag
      cases List.mem_singleton.mp htag
      exact Option.some_ne_none _

/-- Texts that are alike piece by piece have the same matches. -/
theorem agree_of_sameText (h : SameText items items' rows) :
    Agree (nameAt Prod.fst) (nameAt Prod.snd) (SequenceMatch items) (SequenceMatch items')
      rows := by
  induction h with
  | nil =>
    refine agree_nothing (fun _ => True) ?_ ?_
    · intro cursor captured
      rw [SequenceMatch, true_and]
    · intro cursor captured
      rw [SequenceMatch, true_and]
  | pattern hpattern _ ih =>
    rw [sequenceMatch_pattern _ hpattern.isPattern, sequenceMatch_pattern _ hpattern.isPattern']
    exact agree_sequenced _ hpattern.agree ih
  | @mark item items items' rows hpattern htag _ ih =>
    refine agree_guard (fun _ => True) (Item.mark item) ih ?_ ?_
    · intro cursor captured
      rw [sequenceMatch_mark items hpattern htag, true_and]
    · intro cursor captured
      rw [sequenceMatch_mark items' hpattern htag, true_and]
  | suffix row _ ih =>
    rw [suffixAt, captureItem, suffixAt, captureItem, sequenceMatch_capture, sequenceMatch_capture]
    exact agree_sequenced _ (agree_names [row]) ih

theorem samePattern_token (kind : String) : SamePattern (.token kind) (.token kind) [] where
  isPattern := rfl
  isPattern' := rfl
  plain := List.forall_mem_nil _
  plain' := List.forall_mem_nil _
  agree := by
    refine agree_nothing (fun node : Node => node.isNamed = false ∧ node.kind = kind) ?_ ?_
    · intro node captured
      rw [ItemMatch]
    · intro node captured
      rw [ItemMatch]

theorem samePattern_wildcard : SamePattern .wildcard .wildcard [] where
  isPattern := rfl
  isPattern' := rfl
  plain := List.forall_mem_nil _
  plain' := List.forall_mem_nil _
  agree := by
    refine agree_nothing (fun _ : Node => True) ?_ ?_
    · intro node captured
      rw [ItemMatch, true_and]
    · intro node captured
      rw [ItemMatch, true_and]

/-- Nodes of one kind around texts that match alike. -/
theorem samePattern_node (kind : String) (h : SameText items items' rows) :
    SamePattern (.node kind items) (.node kind items') rows where
  isPattern := rfl
  isPattern' := rfl
  plain := (plain_of_sameText h).1
  plain' := (plain_of_sameText h).2
  agree := by
    refine agree_guard (fun node : Node => node.isNamed = true ∧ (kind = "_" ∨ node.kind = kind))
      (fun node => Cursor.start node.children) (agree_of_sameText h) ?_ ?_
    · intro node captured
      rw [ItemMatch]
    · intro node captured
      rw [ItemMatch]

/-- Parentheses around texts that match alike. -/
theorem samePattern_group (h : SameText items items' rows) :
    SamePattern (.group items) (.group items') rows where
  isPattern := rfl
  isPattern' := rfl
  plain := (plain_of_sameText h).1
  plain' := (plain_of_sameText h).2
  agree := by
    refine agree_guard (fun _ : Node => True) (fun node => Cursor.start [node])
      (agree_of_sameText h) ?_ ?_
    · intro node captured
      rw [ItemMatch, true_and]
    · intro node captured
      rw [ItemMatch, true_and]

theorem isTag_suffixes (side : Row → Entry) (marks : List Row) :
    ∀ tag ∈ marks.map (suffixAt side), Item.isTag tag = true := by
  intro tag htag
  obtain ⟨row, -, rfl⟩ := List.mem_map.mp htag
  rfl

theorem suffixNames_suffixes (side : Row → Entry) (marks : List Row) :
    suffixNames (marks.map (suffixAt side)) = marks.map (nameAt side) := by
  induction marks with
  | nil => rfl
  | cons row marks ih =>
    rw [List.map_cons, List.map_cons, ← ih]
    rfl

theorem head_of_sameChoice (h : SameChoice rows items items') :
    (∀ first ∈ items.head?, Item.isTag first = false) ∧
      ∀ first ∈ items'.head?, Item.isTag first = false := by
  cases h with
  | nil =>
    constructor
    · rintro first ⟨⟩
    · rintro first ⟨⟩
  | cons marks hpattern _ _ =>
    constructor
    · rintro first ⟨⟩
      exact isTag_of_isPattern hpattern.isPattern
    · rintro first ⟨⟩
      exact isTag_of_isPattern hpattern.isPattern'

/-- Alternatives that are alike one by one have the same matches. -/
theorem agree_of_sameChoice (h : SameChoice rows items items') :
    Agree (nameAt Prod.fst) (nameAt Prod.snd) (ChoiceMatch items) (ChoiceMatch items') rows := by
  induction h with
  | nil =>
    constructor
    · intro node captured hmatch
      rw [ChoiceMatch] at hmatch
      cases hmatch
    · intro node captured hmatch
      rw [ChoiceMatch] at hmatch
      cases hmatch
  | @cons item item' items items' own marks hpattern hperm hrest ih =>
    have hone := agree_perm (agree_sequenced (fun node first second => first = node ∧ second = node)
      hpattern.agree (agree_names marks)) hperm
    obtain ⟨hhead, hhead'⟩ := head_of_sameChoice hrest
    refine agree_congr (agree_or hone ih) ?_ ?_
    · intro node captured
      rw [choiceMatch_pattern items _ (isTag_suffixes _ marks) hhead, suffixNames_suffixes]
      refine or_congr_left ?_
      simp [Sequenced, Function.comp_def]
    · intro node captured
      rw [choiceMatch_pattern items' _ (isTag_suffixes _ marks) hhead', suffixNames_suffixes]
      refine or_congr_left ?_
      simp [Sequenced, Function.comp_def]

theorem plain_of_sameChoice (h : SameChoice rows items items') :
    (∀ tag ∈ tagsOf items, tag.site ≠ none) ∧ ∀ tag ∈ tagsOf items', tag.site ≠ none := by
  induction h with
  | nil => exact ⟨List.forall_mem_nil _, List.forall_mem_nil _⟩
  | cons marks hpattern _ _ ih =>
    have hmarks := plain_of_sameText (sameText_suffixes marks)
    rw [tagsOf, tagsOf, tagsOf_append, tagsOf_append, List.forall_mem_append,
      List.forall_mem_append, List.forall_mem_append, List.forall_mem_append]
    exact ⟨⟨hpattern.plain, hmarks.1, ih.1⟩, hpattern.plain', hmarks.2, ih.2⟩

/-- Brackets around alternatives that match alike. -/
theorem samePattern_alternation (h : SameChoice rows items items') :
    SamePattern (.alternation items) (.alternation items') rows where
  isPattern := rfl
  isPattern' := rfl
  plain := (plain_of_sameChoice h).1
  plain' := (plain_of_sameChoice h).2
  agree := by
    refine agree_congr (agree_of_sameChoice h) ?_ ?_
    · intro node captured
      rw [ItemMatch]
    · intro node captured
      rw [ItemMatch]

/-- An alternative without suffixes. -/
theorem sameChoice_pattern (h : SamePattern item item' rows)
    (hrest : SameChoice rows items items') : SameChoice rows (item :: items) (item' :: items') := by
  have hperm : (rows ++ []).Perm rows := by rw [List.append_nil]
  exact SameChoice.cons [] h hperm hrest

/-- An alternative with the text of a pattern. -/
theorem sameChoice_entry (h : SameEntry items items' rows) : SameChoice rows items items' := by
  cases h with
  | nothing => exact .nil
  | captured marks hpattern =>
    have hchoice := SameChoice.cons marks hpattern (List.Perm.refl _) (.nil)
    rwa [List.append_nil, List.append_nil] at hchoice

/-- Two alternatives that match alike crosswise. -/
theorem samePattern_crossed {other other' : Item} (h : SamePattern item other' rows)
    (hother : SamePattern other item' rows) :
    SamePattern (.alternation [item, other]) (.alternation [item', other']) rows where
  isPattern := rfl
  isPattern' := rfl
  plain := (plain_of_sameChoice (sameChoice_pattern h (sameChoice_pattern hother .nil))).1
  plain' := (plain_of_sameChoice (sameChoice_pattern hother (sameChoice_pattern h .nil))).2
  agree := by
    refine agree_congr (agree_or h.agree hother.agree) ?_ ?_
    · intro node captured
      rw [itemMatch_pair hother.isPattern]
    · intro node captured
      rw [itemMatch_pair h.isPattern', or_comm]

end Shapes

section Predicates

/-- Captured nodes read as the strings for the constants ask, and the nodes of
one variable read the same. -/
structure TextsFit (source : String) (held : List (Entry × Node)) : Prop where
  /-- Constants. -/
  checks : ∀ h ∈ held, ∀ text, h.1.1 = .check text → slice source h.2.range = unescape text
  /-- Variables. -/
  bindings : ∀ h ∈ held, ∀ k ∈ held, ∀ name, h.1.1.name? = some name → k.1.1.name? = some name →
    slice source h.2.range = slice source k.2.range

/-- Captured nodes under the names of their captures. -/
def named (held : List (Entry × Node)) : List Named := held.map fun h => (toString h.1.2, h.2)

variable {captures : List Capture} {lower : ℕ} {source : String} {held : List (Entry × Node)}

theorem mem_entries_of_held (hheld : (held.map Prod.fst).Perm (entries captures lower captures.length))
    {h : Entry × Node} (hmem : h ∈ held) :
    (lower ≤ h.1.2 ∧ h.1.2 < captures.length) ∧ captures[h.1.2]? = some h.1.1 :=
  mem_entries.mp (hheld.mem_iff.mp (List.mem_map_of_mem hmem))

theorem occurs_of_held (hheld : (held.map Prod.fst).Perm (entries captures lower captures.length))
    {h : Entry × Node} (hmem : h ∈ held) {name : String} (hname : h.1.1.name? = some name) :
    h.1.2 ∈ occurrences captures lower captures.length name := by
  obtain ⟨hinterval, hget⟩ := mem_entries_of_held hheld hmem
  cases hcapture : h.1.1 with
  | «variable» v constraint =>
    rw [hcapture] at hname hget
    cases hname
    exact mem_occurrences.mpr ⟨hinterval, constraint, hget⟩
  | _ =>
    rw [hcapture] at hname
    cases hname

theorem name?_of_occurs (hheld : (held.map Prod.fst).Perm (entries captures lower captures.length))
    {h : Entry × Node} (hmem : h ∈ held) {name : String}
    (hoccurs : h.1.2 ∈ occurrences captures lower captures.length name) :
    h.1.1.name? = some name := by
  obtain ⟨-, constraint, hget⟩ := mem_occurrences.mp hoccurs
  have hcapture := (mem_entries_of_held hheld hmem).2
  rw [hget] at hcapture
  rw [← Option.some.inj hcapture]
  rfl

/-- A node is captured for every occurrence of a variable. -/
theorem exists_held (hheld : (held.map Prod.fst).Perm (entries captures lower captures.length))
    {name : String} {i : ℕ} (hi : i ∈ occurrences captures lower captures.length name) :
    ∃ h ∈ held, h.1.2 = i := by
  obtain ⟨hinterval, constraint, hget⟩ := mem_occurrences.mp hi
  have hentry := hheld.mem_iff.mpr (mem_entries.mpr ⟨hinterval, hget⟩)
  obtain ⟨h, hmem, heq⟩ := List.mem_map.mp hentry
  exact ⟨h, hmem, congrArg Prod.snd heq⟩

/-- Every capture has one node. -/
theorem held_unique (hheld : (held.map Prod.fst).Perm (entries captures lower captures.length))
    {h k : Entry × Node} (hh : h ∈ held) (hk : k ∈ held) (hindex : h.1.2 = k.1.2) : h = k := by
  have hnodup : (held.map fun h => h.1.2).Nodup := by
    have hperm := hheld.map Prod.snd
    rw [List.map_map] at hperm
    refine hperm.nodup_iff.mpr ?_
    rw [entries, List.zipIdx_map_snd]
    exact List.nodup_range'
  exact List.inj_on_of_nodup_map hnodup hh hk hindex

/-- The nodes of a match with one node for each capture satisfy the
predicates exactly when their texts fit. -/
theorem predicates_iff (hheld : (held.map Prod.fst).Perm (entries captures lower captures.length)) :
    (∀ tag ∈ tagsOf (processCaptures captures lower).1, TagHolds source (named held) tag) ↔
      TextsFit source held := by
  have htags : tagsOf (processCaptures captures lower).1 =
      predicateTags captures lower captures.length := by
    rw [predicateTags, List.take_length]
  rw [htags]
  constructor
  · intro hholds
    have hlater : ∀ {name : String} {first : ℕ} {rest : List ℕ},
        occurrences captures lower captures.length name = first :: rest →
        ∀ h ∈ held, h.1.1.name? = some name → ∀ k ∈ held, k.1.2 = first →
          slice source k.2.range = slice source h.2.range := by
      intro name first rest hoccurrences h hh hname k hk hfirst
      have hi := occurs_of_held hheld hh hname
      rw [hoccurrences] at hi
      rcases List.mem_cons.mp hi with heq | hrest
      · rw [held_unique hheld hk hh (hfirst.trans heq.symm)]
      · have htag := hholds (.eqCapture (toString first) (toString h.1.2))
          (mem_predicateTags.mpr (.inr ⟨name, first, rest, hoccurrences, h.1.2, hrest, rfl⟩))
        exact htag _ (List.mem_map_of_mem hk) _ (List.mem_map_of_mem hh) (by rw [← hfirst]) rfl
    refine ⟨?_, ?_⟩
    · intro h hh text hcheck
      obtain ⟨hinterval, hget⟩ := mem_entries_of_held hheld hh
      rw [hcheck] at hget
      have htag := hholds (.eqString (toString h.1.2) text)
        (mem_predicateTags.mpr (.inl ⟨h.1.2, text, hinterval, hget, rfl⟩))
      exact htag _ (List.mem_map_of_mem hh) rfl
    · intro h hh k hk name hname hname'
      have hi := occurs_of_held hheld hh hname
      cases hoccurrences : occurrences captures lower captures.length name with
      | nil =>
        rw [hoccurrences] at hi
        cases hi
      | cons first rest =>
        have hfirst : first ∈ occurrences captures lower captures.length name := by
          rw [hoccurrences]
          exact List.mem_cons_self
        obtain ⟨f, hf, hindex⟩ := exists_held hheld hfirst
        rw [← hlater hoccurrences h hh hname f hf hindex,
          ← hlater hoccurrences k hk hname' f hf hindex]
  · intro hfits tag htag
    rcases mem_predicateTags.mp htag with ⟨i, text, hinterval, hget, rfl⟩ |
      ⟨name, first, rest, hoccurrences, i, hi, rfl⟩
    · intro c hc hname
      obtain ⟨h, hh, rfl⟩ := List.mem_map.mp hc
      have hindex : h.1.2 = i := toString_injective hname
      have hcapture := (mem_entries_of_held hheld hh).2
      rw [hindex, hget] at hcapture
      exact hfits.checks h hh text (Option.some.inj hcapture).symm
    · intro c hc d hd hfirst hsecond
      obtain ⟨h, hh, rfl⟩ := List.mem_map.mp hc
      obtain ⟨k, hk, rfl⟩ := List.mem_map.mp hd
      have hoccurs : first ∈ occurrences captures lower captures.length name := by
        rw [hoccurrences]
        exact List.mem_cons_self
      have hoccurs' : i ∈ occurrences captures lower captures.length name := by
        rw [hoccurrences]
        exact List.mem_cons_of_mem first hi
      refine hfits.bindings h hh k hk name ?_ ?_
      · exact name?_of_occurs hheld hh (toString_injective hfirst ▸ hoccurs)
      · exact name?_of_occurs hheld hk (toString_injective hsecond ▸ hoccurs')

end Predicates

section Matches

/-- A top-level pattern that consists of a text and the predicates of the
captures from an offset on. -/
structure Checked (captures : List Capture) (lower : ℕ) (text core : List Item) : Prop where
  /-- The predicates match nothing. -/
  sequence : SequenceMatch text = SequenceMatch core
  /-- There are no other predicates. -/
  tags : ∀ source captured, (∀ tag ∈ tagsOf text, TagHolds source captured tag) ↔
    ∀ tag ∈ tagsOf (processCaptures captures lower).1, TagHolds source captured tag

/-- The nodes of a match with the captures on one side of the rows. -/
def heldAt (side : Row → Entry) (assigned : List (Row × Node)) : List (Entry × Node) :=
  assigned.map fun a => (side a.1, a.2)

theorem labelled_nameAt (side : Row → Entry) (assigned : List (Row × Node)) :
    labelled (nameAt side) assigned = named (heldAt side assigned) := by
  simp [labelled, named, heldAt, nameAt]

variable {captures captures' : List Capture} {lower lower' : ℕ} {text text' core core' : List Item}
  {rows : List Row} {side side' : Row → Entry}

theorem textsFit_heldAt {source : String} {assigned : List (Row × Node)}
    (hname : ∀ a ∈ assigned, (side a.1).1.name? = (side' a.1).1.name?)
    (hcheck : ∀ a ∈ assigned, ∀ text, (side a.1).1 = .check text ↔ (side' a.1).1 = .check text)
    (h : TextsFit source (heldAt side assigned)) : TextsFit source (heldAt side' assigned) where
  checks := by
    intro k hk text htext
    obtain ⟨a, ha, rfl⟩ := List.mem_map.mp hk
    exact h.checks _ (List.mem_map_of_mem ha) text ((hcheck a ha text).mpr htext)
  bindings := by
    intro k hk l hl name hk' hl'
    obtain ⟨a, ha, rfl⟩ := List.mem_map.mp hk
    obtain ⟨b, hb, rfl⟩ := List.mem_map.mp hl
    exact h.bindings (side a.1, a.2) (List.mem_map_of_mem ha) (side b.1, b.2)
      (List.mem_map_of_mem hb) name ((hname a ha).trans hk') ((hname b hb).trans hl')

theorem carries_matches
    (hcore : Carries (nameAt side) (nameAt side') (SequenceMatch core) (SequenceMatch core') rows)
    (htext : Checked captures lower text core) (htext' : Checked captures' lower' text' core')
    (hrows : (rows.map side).Perm (entries captures lower captures.length))
    (hrows' : (rows.map side').Perm (entries captures' lower' captures'.length))
    (hname : ∀ row ∈ rows, (side row).1.name? = (side' row).1.name?)
    (hcheck : ∀ row ∈ rows, ∀ text, (side row).1 = .check text ↔ (side' row).1 = .check text)
    (source : String) :
    Carries (nameAt side) (nameAt side') (Matches source text) (Matches source text') rows := by
  rintro target captured ⟨hsequence, htags⟩
  rw [htext.sequence] at hsequence
  obtain ⟨assigned, hperm, rfl, hright⟩ := hcore _ _ hsequence
  have hmem : ∀ a ∈ assigned, a.1 ∈ rows := fun a ha => hperm.mem_iff.mp (List.mem_map_of_mem ha)
  have hheld : ∀ side : Row → Entry,
      ((heldAt side assigned).map Prod.fst).Perm (rows.map side) := by
    intro side
    have hmap := hperm.map side
    simpa [heldAt, Function.comp_def] using hmap
  refine ⟨assigned, hperm, rfl, ?_, ?_⟩
  · rw [htext'.sequence]
    exact hright
  · rw [htext.tags, labelled_nameAt, predicates_iff ((hheld side).trans hrows)] at htags
    rw [htext'.tags, labelled_nameAt, predicates_iff ((hheld side').trans hrows')]
    exact textsFit_heldAt (fun a ha => hname a.1 (hmem a ha)) (fun a ha => hcheck a.1 (hmem a ha))
      htags

/-- Texts that match alike still do so with the predicates of paired
captures. -/
theorem agree_matches (hcore : SameText core core' rows) (htext : Checked captures lower text core)
    (htext' : Checked captures' lower' text' core')
    (hrows : (rows.map Prod.fst).Perm (entries captures lower captures.length))
    (hrows' : (rows.map Prod.snd).Perm (entries captures' lower' captures'.length))
    (hagree : ∀ row ∈ rows, CapturesAgree row.1.1 row.2.1) (source : String) :
    Agree (nameAt Prod.fst) (nameAt Prod.snd) (Matches source text) (Matches source text') rows where
  forth := carries_matches (agree_of_sameText hcore).forth htext htext' hrows hrows'
    (fun row hrow => name?_of_capturesAgree (hagree row hrow))
    (fun row hrow => check_of_capturesAgree (hagree row hrow)) source
  back := carries_matches (agree_of_sameText hcore).back htext' htext hrows' hrows
    (fun row hrow => (name?_of_capturesAgree (hagree row hrow)).symm)
    (fun row hrow text => (check_of_capturesAgree (hagree row hrow) text).symm) source

/-- Predicates behind a sequence change nothing. -/
theorem sequenceMatch_append {predicates : List Item}
    (h : ∀ item ∈ predicates, ∃ tag : Tag, item = .tag tag ∧ tag.site = none) (items : List Item) :
    SequenceMatch (items ++ predicates) = SequenceMatch items := by
  induction items with
  | nil =>
    rw [List.nil_append]
    induction predicates with
    | nil => rfl
    | cons item predicates ih =>
      obtain ⟨tag, rfl, hsite⟩ := h item List.mem_cons_self
      funext cursor
      rw [sequenceMatch_predicate _ hsite, ih fun i hi => h i (List.mem_cons_of_mem _ hi)]
  | cons item items ih =>
    funext cursor captured
    rw [List.cons_append, SequenceMatch, SequenceMatch, ih]

/-- Everything that `process_captures` writes is a predicate. -/
theorem predicates_processCaptures (captures : List Capture) (lower : ℕ) :
    ∀ item ∈ (processCaptures captures lower).1,
      ∃ tag : Tag, item = .tag tag ∧ tag.site = none := by
  intro item hitem
  rcases List.mem_append.mp hitem with hcheck | hstar
  · obtain ⟨entry, -, hentry⟩ := List.mem_filterMap.mp hcheck
    unfold checkPredicate at hentry
    split at hentry
    · exact ⟨_, (Option.some.inj hentry).symm, rfl⟩
    · cases hentry
  · obtain ⟨name, -, hname⟩ := List.mem_flatMap.mp hstar
    unfold starPredicates at hname
    split at hname
    · cases hname
    · obtain ⟨i, -, rfl⟩ := List.mem_map.mp hname
      exact ⟨_, rfl, rfl⟩

/-- Capture suffixes among the tags hold anyway. -/
theorem tagHolds_iff {tags plain predicates : List Tag}
    (hmem : ∀ tag, tag ∈ tags ↔ tag ∈ plain ∨ tag ∈ predicates)
    (hplain : ∀ tag ∈ plain, tag.site ≠ none) (source : String) (captured : List Named) :
    (∀ tag ∈ tags, TagHolds source captured tag) ↔
      ∀ tag ∈ predicates, TagHolds source captured tag := by
  constructor
  · intro h tag htag
    exact h tag ((hmem tag).mpr (.inr htag))
  · intro h tag htag
    rcases (hmem tag).mp htag with hsuffix | hpredicate
    · have hsite := hplain tag hsuffix
      cases tag with
      | capture name => exact trivial
      | eqString name text => exact absurd rfl hsite
      | eqCapture first second => exact absurd rfl hsite
    · exact h tag hpredicate

/-- A statement in parentheses with its predicates. -/
theorem checked_group {items : List Item} (captures : List Capture) (lower : ℕ)
    (hplain : ∀ tag ∈ tagsOf items, tag.site ≠ none) :
    Checked captures lower [.group (items ++ (processCaptures captures lower).1)]
      [.group items] where
  sequence := by
    have hitem : ItemMatch (.group (items ++ (processCaptures captures lower).1)) =
        ItemMatch (.group items) := by
      funext node captured
      rw [ItemMatch, ItemMatch, sequenceMatch_append (predicates_processCaptures captures lower)]
    rw [sequenceMatch_pattern [] rfl, hitem, ← sequenceMatch_pattern [] rfl]
  tags source captured := by
    refine tagHolds_iff ?_ hplain source captured
    intro tag
    simp [tagsOf, Item.tags]

/-- A node with predicates behind its children, captured itself. -/
theorem checked_node {items : List Item} (captures : List Capture) (lower : ℕ)
    (hplain : ∀ tag ∈ tagsOf items, tag.site ≠ none) (kind name : String) :
    Checked captures lower
      [.node kind (items ++ (processCaptures captures lower).1), captureItem name]
      [.node kind items, captureItem name] where
  sequence := by
    have hitem : ItemMatch (.node kind (items ++ (processCaptures captures lower).1)) =
        ItemMatch (.node kind items) := by
      funext node captured
      rw [ItemMatch, ItemMatch, sequenceMatch_append (predicates_processCaptures captures lower)]
    rw [sequenceMatch_pattern _ rfl, hitem, ← sequenceMatch_pattern _ rfl]
  tags source captured := by
    have hsuffixes : ∀ tag ∈ tagsOf (items ++ [captureItem name]), tag.site ≠ none := by
      rw [tagsOf_append, List.forall_mem_append]
      refine ⟨hplain, ?_⟩
      intro tag htag
      cases List.mem_singleton.mp htag
      exact Option.some_ne_none name
    refine tagHolds_iff ?_ hsuffixes source captured
    intro tag
    simp only [tagsOf, tagsOf_append, Item.tags, captureItem, List.append_nil, List.mem_append]
    tauto

theorem mem_variables {captures : List Capture} {lower : ℕ} {name : String} :
    name ∈ (processCaptures captures lower).2 ↔
      ∃ entry ∈ entries captures lower captures.length, entry.1.name? = some name := by
  have hentries : (captures.drop lower).zipIdx lower = entries captures lower captures.length := by
    rw [entries, List.take_length]
  simp only [processCaptures, hentries, List.mem_toFinset, List.mem_eraseDups, List.mem_map,
    variableIndices, List.mem_filterMap, Option.map_eq_some_iff]
  constructor
  · rintro ⟨_, ⟨entry, hentry, v, hv, rfl⟩, rfl⟩
    exact ⟨entry, hentry, hv⟩
  · rintro ⟨entry, hentry, hname⟩
    exact ⟨(name, entry.2), ⟨entry, hentry, name, hname, rfl⟩, rfl⟩

/-- Paired captures hold the same variables. -/
theorem variables_eq
    (hrows : (rows.map Prod.fst).Perm (entries captures lower captures.length))
    (hrows' : (rows.map Prod.snd).Perm (entries captures' lower' captures'.length))
    (hagree : ∀ row ∈ rows, CapturesAgree row.1.1 row.2.1) :
    (processCaptures captures lower).2 = (processCaptures captures' lower').2 := by
  ext name
  rw [mem_variables, mem_variables]
  constructor
  · rintro ⟨entry, hentry, hname⟩
    obtain ⟨row, hrow, rfl⟩ := List.mem_map.mp (hrows.mem_iff.mpr hentry)
    refine ⟨row.2, hrows'.mem_iff.mp (List.mem_map_of_mem hrow), ?_⟩
    rw [← name?_of_capturesAgree (hagree row hrow)]
    exact hname
  · rintro ⟨entry, hentry, hname⟩
    obtain ⟨row, hrow, rfl⟩ := List.mem_map.mp (hrows'.mem_iff.mpr hentry)
    refine ⟨row.1, hrows.mem_iff.mp (List.mem_map_of_mem hrow), ?_⟩
    rw [name?_of_capturesAgree (hagree row hrow)]
    exact hname

end Matches

section Growing

/-- The captures added on both sides, paired. -/
structure Paired (start start' : ℕ) (added added' : List Capture) (rows : List Row) : Prop where
  /-- Every capture on the left stands in one row. -/
  left : (rows.map Prod.fst).Perm (added.zipIdx start)
  /-- Every capture on the right stands in one row. -/
  right : (rows.map Prod.snd).Perm (added'.zipIdx start')
  /-- The captures of a row check the same. -/
  agree : ∀ row ∈ rows, CapturesAgree row.1.1 row.2.1

/-- A builder that has only added captures. -/
structure Extends (builder : QueryBuilder) (added : List Capture) (next : QueryBuilder) : Prop where
  /-- The pattern text stays. -/
  querySource : next.querySource = builder.querySource
  /-- The constraints stay. -/
  regexConstraints : next.regexConstraints = builder.regexConstraints
  /-- No negation is met. -/
  negations : next.negations = builder.negations
  /-- Captures are added at the end. -/
  captures : next.captures = builder.captures ++ added

/-- Two builders that have added paired captures. -/
def Grown (s t s' t' : QueryBuilder) (rows : List Row) : Prop :=
  ∃ added added', Extends s added s' ∧ Extends t added' t' ∧
    Paired s.captures.length t.captures.length added added' rows

theorem extends_refl (builder : QueryBuilder) : Extends builder [] builder :=
  ⟨rfl, rfl, rfl, (List.append_nil _).symm⟩

theorem extends_trans {builder middle next : QueryBuilder} {added more : List Capture}
    (h : Extends builder added middle) (h' : Extends middle more next) :
    Extends builder (added ++ more) next where
  querySource := h'.querySource.trans h.querySource
  regexConstraints := h'.regexConstraints.trans h.regexConstraints
  negations := h'.negations.trans h.negations
  captures := by rw [h'.captures, h.captures, List.append_assoc]

variable {s t s₁ t₁ s₂ t₂ : QueryBuilder} {rows rows' : List Row}

theorem grown_refl (s t : QueryBuilder) : Grown s t s t [] :=
  ⟨[], [], extends_refl s, extends_refl t, .nil, .nil, List.forall_mem_nil _⟩

/-- One thing after the other on both sides. -/
theorem grown_trans (h : Grown s t s₁ t₁ rows) (h' : Grown s₁ t₁ s₂ t₂ rows') :
    Grown s t s₂ t₂ (rows ++ rows') := by
  obtain ⟨added, added', hleft, hright, hpaired⟩ := h
  obtain ⟨more, more', hleft', hright', hpaired'⟩ := h'
  rw [hleft.captures, hright.captures, List.length_append, List.length_append] at hpaired'
  refine ⟨added ++ more, added' ++ more', extends_trans hleft hleft', extends_trans hright hright',
    ?_, ?_, List.forall_mem_append.mpr ⟨hpaired.agree, hpaired'.agree⟩⟩
  · rw [List.map_append, List.zipIdx_append]
    exact hpaired.left.append hpaired'.left
  · rw [List.map_append, List.zipIdx_append]
    exact hpaired.right.append hpaired'.right

/-- Two things in one order on the left and in the other on the right. -/
theorem grown_crossed (h : Grown s t₁ s₁ t₂ rows) (h' : Grown s₁ t s₂ t₁ rows') :
    Grown s t s₂ t₂ (rows ++ rows') := by
  obtain ⟨added, added', hleft, hright, hpaired⟩ := h
  obtain ⟨more, more', hleft', hright', hpaired'⟩ := h'
  rw [hright'.captures, List.length_append] at hpaired
  rw [hleft.captures, List.length_append] at hpaired'
  refine ⟨added ++ more, more' ++ added', extends_trans hleft hleft', extends_trans hright' hright,
    ?_, ?_, List.forall_mem_append.mpr ⟨hpaired.agree, hpaired'.agree⟩⟩
  · rw [List.map_append, List.zipIdx_append]
    exact hpaired.left.append hpaired'.left
  · rw [List.map_append, List.zipIdx_append]
    exact (hpaired.right.append hpaired'.right).trans List.perm_append_comm

/-- The row for captures that are added next. -/
def nextRow (s t : QueryBuilder) (capture capture' : Capture) : Row :=
  ((capture, s.captures.length), (capture', t.captures.length))

/-- Adding a capture on both sides. -/
theorem grown_push {capture capture' : Capture} (h : CapturesAgree capture capture') :
    Grown s t (s.push capture) (t.push capture') [nextRow s t capture capture'] := by
  refine ⟨[capture], [capture'], ⟨rfl, rfl, rfl, rfl⟩, ⟨rfl, rfl, rfl, rfl⟩, .refl _, .refl _, ?_⟩
  intro row hrow
  cases List.mem_singleton.mp hrow
  exact h

/-- Ids are not compared. -/
theorem grown_id (s t : QueryBuilder) (i j : ℕ) :
    Grown s t { s with id := i } { t with id := j } [] := by
  refine ⟨[], [], ⟨rfl, rfl, rfl, ?_⟩, ⟨rfl, rfl, rfl, ?_⟩, .nil, .nil, List.forall_mem_nil _⟩
  · exact (List.append_nil s.captures).symm
  · exact (List.append_nil t.captures).symm

end Growing

end WeggliEnhance.QueryCorrespondence
