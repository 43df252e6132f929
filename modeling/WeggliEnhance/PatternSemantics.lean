import WeggliEnhance.ArgumentMatching
import WeggliEnhance.LabelledMatches

/-!
# What query text matches

Tree-sitter patterns read denotationally. A pattern matches a node and
captures nodes below it; the patterns inside a node match some of its
children from left to right, a field name asks for a child held under that
field, a dot forbids that named siblings are skipped, and alternatives are
united. Predicates compare the captured texts with each other, or with what a
string of the query stands for.
-/

namespace WeggliEnhance.PatternSemantics

open SourceText SyntaxTree QueryText QueryOutline ArgumentMatching LabelledMatches

/-- A place between the children of a node, with what was written since the
last pattern. -/
structure Cursor where
  /-- A dot was written. -/
  anchored : Bool
  /-- A field name was written. -/
  field : Option String
  /-- The node matched last, which capture suffixes refer to. -/
  last : Option Node
  /-- The children that are left. -/
  siblings : List Node

/-- The place before the first of some siblings. -/
def Cursor.start (siblings : List Node) : Cursor := ⟨false, none, none, siblings⟩

/-- The next pattern takes a sibling: the ones before it are skipped, and a
dot allows to skip tokens only. -/
def Cursor.Takes (cursor : Cursor) (taken : Node) (next : Cursor) : Prop :=
  ∃ skipped rest, cursor.siblings = skipped ++ taken :: rest ∧
    (cursor.anchored = true → ∀ sibling ∈ skipped, sibling.isNamed = false) ∧
    (∀ field ∈ cursor.field, taken.field = some field) ∧ next = ⟨false, none, some taken, rest⟩

/-- What stands between patterns moves the place on. -/
def Item.mark (item : Item) (cursor : Cursor) : Cursor :=
  match item with
  | .fieldName name => { cursor with field := some name }
  | .anchor => { cursor with anchored := true }
  | _ => cursor

/-- A capture suffix captures the node matched last. -/
def Item.Suffix (item : Item) (last : Option Node) (captured : List Named) : Prop :=
  match item with
  | .tag (.capture name) => ∃ node, last = some node ∧ captured = [(name, node)]
  | _ => captured = []

mutual

/-- A pattern matches a node. -/
def ItemMatch : Item → Node → List Named → Prop
  | .token kind, node, captured => (node.isNamed = false ∧ node.kind = kind) ∧ captured = []
  | .wildcard, _, captured => captured = []
  | .node kind items, node, captured =>
    (node.isNamed = true ∧ (kind = "_" ∨ node.kind = kind)) ∧
      SequenceMatch items (.start node.children) captured
  | .group items, node, captured => SequenceMatch items (.start [node]) captured
  | .alternation items, node, captured => ChoiceMatch items node captured
  | .fieldName _, _, _ => False
  | .anchor, _, _ => False
  | .tag _, _, _ => False

/-- A sequence of patterns matches siblings. -/
def SequenceMatch : List Item → Cursor → List Named → Prop
  | [], _, captured => captured = []
  | item :: items, cursor, captured =>
    if Item.isPattern item then
      ∃ taken next inner outer, cursor.Takes taken next ∧ ItemMatch item taken inner ∧
        SequenceMatch items next outer ∧ captured = inner ++ outer
    else
      ∃ inner outer, Item.Suffix item cursor.last inner ∧
        SequenceMatch items (Item.mark item cursor) outer ∧ captured = inner ++ outer

/-- One of the alternatives matches a node, which its suffixes capture. -/
def ChoiceMatch : List Item → Node → List Named → Prop
  | [], _, _ => False
  | item :: items, node, captured =>
    (∃ inner, ItemMatch item node inner ∧
      captured = inner ++ (suffixNames items).map fun name => (name, node)) ∨
    ChoiceMatch items node captured

end

/-- The captured nodes satisfy a predicate. -/
def TagHolds (source : String) (captured : List Named) : Tag → Prop
  | .capture _ => True
  | .eqString name text => ∀ c ∈ captured, c.1 = name → slice source c.2.range = unescape text
  | .eqCapture first second => ∀ c ∈ captured, ∀ d ∈ captured, c.1 = first → d.1 = second →
    slice source c.2.range = slice source d.2.range

/-- Predicates can be evaluated. -/
instance (source : String) (captured : List Named) : DecidablePred (TagHolds source captured)
  | .capture _ => inferInstanceAs (Decidable True)
  | .eqString name text => inferInstanceAs
    (Decidable (∀ c ∈ captured, c.1 = name → slice source c.2.range = unescape text))
  | .eqCapture first second => inferInstanceAs
    (Decidable (∀ c ∈ captured, ∀ d ∈ captured, c.1 = first → d.1 = second →
      slice source c.2.range = slice source d.2.range))

/-- A top-level pattern of a query matches a node of a source. -/
def Matches (source : String) (text : List Item) : Matching Node String Node :=
  fun target captured => SequenceMatch text (.start [target]) captured ∧
    ∀ tag ∈ tagsOf text, TagHolds source captured tag

theorem isTag_of_isPattern {item : Item} (h : Item.isPattern item = true) :
    Item.isTag item = false := by
  cases item with
  | tag tag => cases h
  | _ => rfl

section Equations

variable {item : Item} (items : List Item)

/-- A pattern comes before the patterns for later siblings. -/
theorem sequenceMatch_pattern (h : Item.isPattern item = true) :
    SequenceMatch (item :: items) =
      Sequenced Cursor.Takes (ItemMatch item) (SequenceMatch items) := by
  funext cursor captured
  rw [SequenceMatch, if_pos h]
  rfl

/-- What stands between patterns. -/
theorem sequenceMatch_between (h : Item.isPattern item = false) (cursor : Cursor)
    (captured : List Named) :
    SequenceMatch (item :: items) cursor captured ↔
      ∃ inner outer, Item.Suffix item cursor.last inner ∧
        SequenceMatch items (Item.mark item cursor) outer ∧ captured = inner ++ outer := by
  rw [SequenceMatch, h, if_neg Bool.false_ne_true]

/-- Field names and dots only move the place on. -/
theorem sequenceMatch_mark (hpattern : Item.isPattern item = false)
    (htag : Item.isTag item = false) (cursor : Cursor) :
    SequenceMatch (item :: items) cursor = SequenceMatch items (Item.mark item cursor) := by
  funext captured
  rw [sequenceMatch_between items hpattern]
  have hsuffix : ∀ inner, Item.Suffix item cursor.last inner ↔ inner = [] := by
    intro inner
    cases item with
    | tag tag => cases htag
    | _ => rfl
  simp [hsuffix]

/-- A capture suffix refers to the node matched last. -/
theorem sequenceMatch_capture (name : String) :
    SequenceMatch (.tag (.capture name) :: items) =
      Sequenced (fun cursor node next => cursor.last = some node ∧ next = cursor)
        (fun node captured => captured = [(name, node)]) (SequenceMatch items) := by
  funext cursor captured
  rw [sequenceMatch_between items rfl]
  refine propext ⟨?_, ?_⟩
  · rintro ⟨inner, outer, ⟨node, hlast, rfl⟩, houter, rfl⟩
    exact ⟨node, cursor, _, outer, ⟨hlast, rfl⟩, rfl, houter, rfl⟩
  · rintro ⟨node, next, inner, outer, ⟨hlast, rfl⟩, rfl, houter, rfl⟩
    exact ⟨_, outer, ⟨node, hlast, rfl⟩, houter, rfl⟩

/-- Predicates match nothing by themselves. -/
theorem sequenceMatch_predicate {tag : Tag} (h : tag.site = none) (cursor : Cursor) :
    SequenceMatch (.tag tag :: items) cursor = SequenceMatch items cursor := by
  funext captured
  rw [sequenceMatch_between items rfl]
  have hsuffix : ∀ inner, Item.Suffix (.tag tag) cursor.last inner ↔ inner = [] := by
    intro inner
    cases tag with
    | capture name => cases h
    | _ => rfl
  simp [hsuffix, Item.mark]

/-- A pattern with its suffixes among the alternatives. -/
theorem choiceMatch_pattern (tags : List Item) (htags : ∀ tag ∈ tags, Item.isTag tag = true)
    (hitems : ∀ first ∈ items.head?, Item.isTag first = false) (node : Node)
    (captured : List Named) :
    ChoiceMatch (item :: (tags ++ items)) node captured ↔
      (∃ inner, ItemMatch item node inner ∧
        captured = inner ++ (suffixNames tags).map fun name => (name, node)) ∨
      ChoiceMatch items node captured := by
  rw [ChoiceMatch, suffixNames_append htags hitems]
  refine or_congr_right ?_
  induction tags with
  | nil => rfl
  | cons tag tags ih =>
    have htag := htags tag List.mem_cons_self
    rw [List.cons_append, ChoiceMatch, ih fun t ht => htags t (List.mem_cons_of_mem tag ht)]
    cases tag with
    | tag tag => simp [ItemMatch]
    | _ => cases htag

/-- Two alternatives without suffixes. -/
theorem itemMatch_pair {other : Item} (hother : Item.isPattern other = true) (node : Node)
    (captured : List Named) :
    ItemMatch (.alternation [item, other]) node captured ↔
      ItemMatch item node captured ∨ ItemMatch other node captured := by
  have hnames : suffixNames [other] = [] := by
    have htag : ¬Item.isTag other = true := by
      rw [isTag_of_isPattern hother]
      exact Bool.false_ne_true
    rw [suffixNames, List.takeWhile_cons_of_neg htag, List.filterMap_nil]
  simp [ItemMatch, ChoiceMatch, hnames, show suffixNames [] = [] from rfl]

end Equations

end WeggliEnhance.PatternSemantics
