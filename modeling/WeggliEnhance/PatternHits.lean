import WeggliEnhance.PatternInstances
import WeggliEnhance.PatternSemantics

/-!
# Texts that match a node

The builder writes one pattern for a node, with capture suffixes behind it.
Such texts are put together to the patterns of larger nodes: side by side
under field names, as alternatives, inside a node, behind a cast. Each way of
putting them together has one rule about what the new text matches. Whatever
a text captures lies below the nodes it matches.
-/

namespace WeggliEnhance.PatternHits

open SourceText SyntaxTree QueryText PatternBuilder QueryOutline ArgumentMatching PatternSemantics
  PatternInstances

section Rules

variable {first : Item} {items rest : List Item} {target : Node} {captured inner outer : List Named}

/-- What the builder writes in front of the text of a child. -/
def marks (anchored : Bool) (field : Option String) : List Item :=
  (if anchored then [.anchor] else []) ++ field.toList.map Item.fieldName

/-- One of several patterns side by side. -/
structure Part where
  /-- The field it stands under. -/
  field : Option String
  /-- The text. -/
  items : List Item
  /-- The node that it takes. -/
  node : Node
  /-- What it captures. -/
  captured : List Named

/-- The text with its field name. -/
def Part.text (part : Part) : List Item := marks false part.field ++ part.items

end Rules

section Below

/-- A node lies below the place of a cursor, or was matched last. -/
def Cursor.Reaches (cursor : Cursor) (node : Node) : Prop :=
  cursor.last = some node ∨ ∃ sibling ∈ cursor.siblings, node ∈ sibling.nodes

theorem reaches_mark {item : Item} {cursor : Cursor} {node : Node} :
    Cursor.Reaches (Item.mark item cursor) node ↔ Cursor.Reaches cursor node := by
  cases item <;> exact Iff.rfl

theorem reaches_suffix {item : Item} {cursor : Cursor} {captured : List Named}
    (h : Item.Suffix item cursor.last captured) : ∀ c ∈ captured, Cursor.Reaches cursor c.2 := by
  unfold Item.Suffix at h
  split at h
  · obtain ⟨node, hlast, rfl⟩ := h
    exact List.forall_mem_singleton.mpr (.inl hlast)
  · subst h
    exact List.forall_mem_nil _

theorem reaches_start {node inner : Node} (h : Cursor.Reaches (.start [node]) inner) :
    inner ∈ node.nodes := by
  obtain hlast | ⟨sibling, hsibling, hmem⟩ := h
  · cases hlast
  · rwa [List.mem_singleton.mp hsibling] at hmem

theorem reaches_children {node inner : Node} (h : Cursor.Reaches (.start node.children) inner) :
    inner ∈ node.nodes := by
  obtain hlast | ⟨child, hchild, hmem⟩ := h
  · cases hlast
  · exact nodes_trans (child_mem_nodes hchild) hmem

mutual

/-- A pattern captures nodes below the node it matches. -/
theorem below_of_itemMatch {item : Item} {node : Node} {captured : List Named}
    (h : ItemMatch item node captured) : ∀ c ∈ captured, c.2 ∈ node.nodes := by
  cases item with
  | token kind =>
    rw [ItemMatch] at h
    rw [h.2]
    exact List.forall_mem_nil _
  | wildcard =>
    rw [ItemMatch] at h
    rw [h]
    exact List.forall_mem_nil _
  | node kind items =>
    rw [ItemMatch] at h
    exact fun c hc => reaches_children (reaches_of_sequenceMatch h.2 c hc)
  | group items =>
    rw [ItemMatch] at h
    exact fun c hc => reaches_start (reaches_of_sequenceMatch h c hc)
  | alternation items =>
    rw [ItemMatch] at h
    exact below_of_choiceMatch h
  | fieldName name =>
    rw [ItemMatch] at h
    exact h.elim
  | anchor =>
    rw [ItemMatch] at h
    exact h.elim
  | tag tag =>
    rw [ItemMatch] at h
    exact h.elim

/-- A sequence captures nodes below the siblings it matches. -/
theorem reaches_of_sequenceMatch {items : List Item} {cursor : Cursor} {captured : List Named}
    (h : SequenceMatch items cursor captured) : ∀ c ∈ captured, Cursor.Reaches cursor c.2 := by
  cases items with
  | nil =>
    rw [SequenceMatch] at h
    rw [h]
    exact List.forall_mem_nil _
  | cons item items =>
    rw [SequenceMatch] at h
    split_ifs at h
    · obtain ⟨taken, next, inner, outer, htakes, hinner, houter, rfl⟩ := h
      obtain ⟨skipped, rest, hsiblings, -, -, rfl⟩ := htakes
      have htaken : ∀ node ∈ taken.nodes, Cursor.Reaches cursor node := fun node hnode =>
        .inr ⟨taken, by simp [hsiblings], hnode⟩
      refine List.forall_mem_append.mpr ⟨fun c hc => htaken _ (below_of_itemMatch hinner c hc), ?_⟩
      intro c hc
      obtain hlast | ⟨sibling, hsibling, hmem⟩ := reaches_of_sequenceMatch houter c hc
      · cases hlast
        exact htaken _ (mem_nodes_self _)
      · have hlater : sibling ∈ rest := hsibling
        exact .inr ⟨sibling, by simp [hsiblings, hlater], hmem⟩
    · obtain ⟨inner, outer, hsuffix, houter, rfl⟩ := h
      exact List.forall_mem_append.mpr ⟨reaches_suffix hsuffix,
        fun c hc => reaches_mark.mp (reaches_of_sequenceMatch houter c hc)⟩

/-- Alternatives capture nodes below the node they match. -/
theorem below_of_choiceMatch {items : List Item} {node : Node} {captured : List Named}
    (h : ChoiceMatch items node captured) : ∀ c ∈ captured, c.2 ∈ node.nodes := by
  cases items with
  | nil =>
    rw [ChoiceMatch] at h
    exact h.elim
  | cons item items =>
    rw [ChoiceMatch] at h
    rcases h with ⟨inner, hinner, rfl⟩ | hlater
    · refine List.forall_mem_append.mpr ⟨below_of_itemMatch hinner, ?_⟩
      intro c hc
      obtain ⟨name, -, rfl⟩ := List.mem_map.mp hc
      exact mem_nodes_self node
    · exact below_of_choiceMatch hlater

end

end Below

end WeggliEnhance.PatternHits
