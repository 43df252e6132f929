import WeggliEnhance.MirroredPatterns
import WeggliEnhance.PairedRuns
import WeggliEnhance.QueryCorrespondence

/-!
# Building a pattern and its mirror image

One walk over the text of the builder with two runs side by side, one on a
pattern and one on its mirror image. The runs may allocate their captures in
different orders; the captures are paired and the texts match alike under the
pairing. Both runs succeed or both panic, and only tree-sitter may reject one
text and not the other.
-/

namespace WeggliEnhance.MirroredBuilding

open SourceText SyntaxTree QueryText ThirdParty QueryTrees PatternBuilder
  PatternNesting BuilderSpecification QueryOutline PairedRuns LabelledMatches PatternSemantics
  QueryCorrespondence MirroredPatterns

/-- Tree-sitter rejected a text. -/
def Rejected (error : BuildError) : Prop := ∃ message, error = .query message

/-- The states of the two builders. -/
structure Setting (source source' : String) (s t : QueryBuilder) : Prop where
  /-- The first builder reads the pattern. -/
  left : s.querySource = source
  /-- The second builder reads the mirrored pattern. -/
  right : t.querySource = source'
  /-- The constraints are the same. -/
  constraints : t.regexConstraints = s.regexConstraints

/-- The builders have added paired captures and written texts that match
alike. -/
def Twins (same : List Item → List Item → List Row → Prop) (s t : QueryBuilder) (items : List Item)
    (s' : QueryBuilder) (items' : List Item) (t' : QueryBuilder) : Prop :=
  ∃ rows, Grown s t s' t' rows ∧ same items items' rows

/-- The special cases write texts that match alike, or both change nothing. -/
def TwinsOption (s t : QueryBuilder) (items : Option (List Item)) (s' : QueryBuilder)
    (items' : Option (List Item)) (t' : QueryBuilder) : Prop :=
  match items, items' with
  | some items, some items' => Twins SameEntry s t items s' items' t'
  | none, none => s' = s ∧ t' = t
  | _, _ => False

/-- The recursive calls of `build` on corresponding nodes. -/
structure BuildTwins (source source' : String) (fuel : ℕ) (build : BuildFn) : Prop where
  /-- The texts match alike. -/
  twins : ∀ up up' node node' depth strict parent s t, Setting source source' s t →
    Option.Rel (Alike source source') up up' → Twin source source' fuel node node' →
    Together Rejected (build up node depth strict parent) (build up' node' depth strict parent) s t
      (Twins SameEntry s t)
  /-- Anonymous nodes are copied. -/
  token : ∀ up node depth strict parent, node.height ≤ fuel → node.isNamed = false →
    build up node depth strict parent = pure [.token node.kind]
  /-- A call keeps the pattern text and the constraints. -/
  keeps : ∀ up node depth strict parent s items s', node.height ≤ fuel →
    build up node depth strict parent s = .ok (items, s') →
    s'.querySource = s.querySource ∧ s'.regexConstraints = s.regexConstraints

/-- The calls of `_build_query_tree` on corresponding nodes. -/
def TreeTwins (source source' : String) (fuel : ℕ) (queryTree : TreeFn) : Prop :=
  ∀ up up' node node' id id' multiPattern strict s t, Setting source source' s t →
    Option.Rel (Alike source source') up up' →
    Twin source source' (if multiPattern then fuel + 1 else fuel) node node' →
    (multiPattern = true → node.kind = "compound_statement") → (id = 0 ↔ id' = 0) →
    Together Rejected (queryTree up node id multiPattern strict)
      (queryTree up' node' id' multiPattern strict) s t
      fun tree s' tree' t' => s' = s ∧ t' = t ∧ QueriesAgree tree tree'

variable {source source' : String} {fuel : ℕ} {build : BuildFn} {queryTree : TreeFn}
  {node node' : Node} {s t s' t' : QueryBuilder} {rows : List Row}

/-- Added captures leave the rest of the builders as it is. -/
theorem setting_of_grown (h : Setting source source' s t) (hgrown : Grown s t s' t' rows) :
    Setting source source' s' t' := by
  obtain ⟨added, added', hleft, hright, -⟩ := hgrown
  exact ⟨hleft.querySource.trans h.left, hright.querySource.trans h.right, by
    rw [hright.regexConstraints, hleft.regexConstraints, h.constraints]⟩

section Elementary

/-- Unwrapping panics on both sides or on neither. -/
theorem together_unwrap {R : Node → Node → Prop} {a a' : Option Node} (h : Option.Rel R a a') :
    Together Rejected (unwrap a) (unwrap a') s t fun value s' value' t' =>
      R value value' ∧ s' = s ∧ t' = t := by
  cases h with
  | none => exact trivial
  | some hvalue => exact ⟨hvalue, rfl, rfl⟩

/-- The unwrapped values are known to be the ones looked up. -/
theorem together_unwrap_known {R : Node → Node → Prop} {a a' : Option Node} (h : Option.Rel R a a') :
    Together Rejected (unwrap a) (unwrap a') s t fun value s' value' t' =>
      ((a = some value ∧ a' = some value') ∧ R value value') ∧ s' = s ∧ t' = t := by
  cases h with
  | none => exact trivial
  | some hvalue => exact ⟨⟨⟨rfl, rfl⟩, hvalue⟩, rfl, rfl⟩

/-- Unwrapping the same value on both sides. -/
theorem together_unwrap_same {α : Type} (a : Option α) :
    Together Rejected (unwrap a) (unwrap a) s t fun value s' value' t' =>
      value' = value ∧ s' = s ∧ t' = t := by
  cases a with
  | none => exact trivial
  | some value => exact ⟨rfl, rfl, rfl⟩

/-- Each builder reads its own pattern. -/
theorem together_getText (h : Setting source source' s t) (node node' : Node) :
    Together Rejected (getText node) (getText node') s t fun text s' text' t' =>
      (text = slice source node.range ∧ text' = slice source' node'.range) ∧ s' = s ∧ t' = t := by
  rw [← h.left, ← h.right]
  exact ⟨⟨rfl, rfl⟩, rfl, rfl⟩

/-- Each builder gives the capture its own number. -/
theorem together_addCapture (capture capture' : Capture) :
    Together Rejected (addCapture capture) (addCapture capture') s t fun name s' name' t' =>
      (name = toString s.captures.length ∧ name' = toString t.captures.length) ∧
        s' = s.push capture ∧ t' = t.push capture' :=
  ⟨⟨rfl, rfl⟩, rfl, rfl⟩

/-- Calls of the function `_` stay such calls. -/
theorem together_isSubexprWildcard (hset : Setting source source' s t)
    (h : Twin source source' fuel node node') :
    Together Rejected (isSubexprWildcard node) (isSubexprWildcard node') s t
      fun found s' found' t' => found' = found ∧ s' = s ∧ t' = t := by
  obtain ⟨bound, rfl⟩ := exists_bound h
  unfold isSubexprWildcard
  rw [(alike_of_twin h).kind]
  by_cases hkind : (node.kind != "call_expression") = true
  · simp only [hkind, if_true]
    exact together_pure ⟨rfl, rfl, rfl⟩
  · simp only [if_neg hkind]
    rcases kept_or_crossed h with hkept | hselected | ⟨_, _, _, _, _, _, hcrossed⟩
    · refine together_bind (together_unwrap (rel_childByFieldName hkept "function")) ?_
      rintro callee s callee' t ⟨hcallee, rfl, rfl⟩
      refine together_bind (together_getText hset callee callee') ?_
      rintro text s text' t ⟨⟨rfl, rfl⟩, rfl, rfl⟩
      refine together_pure ⟨?_, rfl, rfl⟩
      rw [Bool.eq_iff_iff, beq_iff_eq, beq_iff_eq]
      exact (alike_of_twin hcallee.twin).wildcard
    · have hcall : node.kind = "call_expression" := by simpa using hkind
      have hmem := kind_mem_of_selects hselected.selects
      rw [hcall] at hmem
      exact absurd hmem (by decide)
    · rw [hcrossed.kind] at hkind
      exact absurd rfl hkind

end Elementary

section Leaves

/-- Nodes without children. -/
theorem samePattern_leaf (kind : String) : SamePattern (.node kind []) (.node kind []) [] :=
  samePattern_node kind .nil

/-- The text for a name captures nothing by itself. -/
theorem samePattern_identifierItem (kind pattern parent : String) :
    SamePattern (identifierItem kind pattern parent) (identifierItem kind pattern parent) [] := by
  have hleaf : ∀ first second third : String,
      SamePattern (.alternation [.node first [], .node second [], .node third []])
        (.alternation [.node first [], .node second [], .node third []]) [] :=
    fun first second third => samePattern_alternation (sameChoice_pattern (samePattern_leaf first)
      (sameChoice_pattern (samePattern_leaf second)
        (sameChoice_pattern (samePattern_leaf third) .nil)))
  unfold identifierItem
  split_ifs
  · exact hleaf _ _ _
  · exact samePattern_leaf _
  · exact hleaf _ _ _
  · exact samePattern_leaf _

/-- A pattern and the capture added for it. -/
theorem twins_captured {item item' : Item} {capture capture' : Capture}
    (hgrown : Grown s t s' t' rows) (hitem : SamePattern item item' rows)
    (hcapture : CapturesAgree capture capture') :
    Twins SameEntry s t [item, captureItem (toString s'.captures.length)] (s'.push capture)
      [item', captureItem (toString t'.captures.length)] (t'.push capture') :=
  ⟨rows ++ [nextRow s' t' capture capture'], grown_trans hgrown (grown_push hcapture),
    sameEntry_suffix hitem (nextRow s' t' capture capture')⟩

/-- Names get the same text and the same capture. -/
theorem twins_buildIdentifier (hset : Setting source source' s t)
    (halike : Alike source source' node node') (hkind : node.kind ∈ identifierKinds)
    (parent : String) :
    Together Rejected (buildIdentifier node parent) (buildIdentifier node' parent) s t
      (Twins SameEntry s t) := by
  have hword := halike.word (List.mem_append_left _ hkind)
  unfold buildIdentifier
  refine together_bind (together_getText hset node node') ?_
  rintro pattern s pattern' t ⟨⟨rfl, rfl⟩, rfl, rfl⟩
  rw [hword, halike.kind]
  by_cases hwildcard : (slice source node.range == "_") = true
  · rw [if_pos hwildcard]
    exact together_pure ⟨[], grown_refl s t, sameEntry_pattern (samePattern_leaf "_")⟩
  · rw [if_neg hwildcard]
    refine together_get ?_
    rw [hset.constraints]
    refine together_bind (together_addCapture _ _) ?_
    rintro name s' name' t' ⟨⟨rfl, rfl⟩, rfl, rfl⟩
    refine together_pure
      (twins_captured (grown_refl s t) (samePattern_identifierItem _ _ _) (.same _ ?_))
    split_ifs <;> rfl

/-- Numbers get the same text and the same capture. -/
theorem twins_buildNumber (hset : Setting source source' s t)
    (halike : Alike source source' node node') (hkind : node.kind = "number_literal") :
    Together Rejected (buildNumber node) (buildNumber node') s t (Twins SameEntry s t) := by
  have hword := halike.word (by rw [hkind]; decide)
  unfold buildNumber
  refine together_bind (together_getText hset node node') ?_
  rintro pattern s pattern' t ⟨⟨rfl, rfl⟩, rfl, rfl⟩
  rw [hword]
  refine together_bind (together_addCapture _ _) ?_
  rintro name s' name' t' ⟨⟨rfl, rfl⟩, rfl, rfl⟩
  refine together_pure (twins_captured (grown_refl s t) (samePattern_leaf _) (.same _ ?_))
  split <;> rfl

/-- Strings get the same text and the same capture, if any. -/
theorem twins_buildString (hset : Setting source source' s t)
    (halike : Alike source source' node node') (hkind : node.kind = "string_literal") :
    Together Rejected (buildString node) (buildString node') s t (TwinsOption s t) := by
  have hword := halike.word (by rw [hkind]; decide)
  unfold buildString
  refine together_bind (together_getText hset node node') ?_
  rintro pattern s pattern' t ⟨⟨rfl, rfl⟩, rfl, rfl⟩
  rw [hword]
  refine together_bind (together_unwrap_same _) ?_
  rintro _ s unquoted t ⟨rfl, rfl, rfl⟩
  by_cases hvariable : startsWith unquoted '$' = true
  · rw [if_pos hvariable]
    refine together_get ?_
    rw [hset.constraints]
    refine together_bind (together_addCapture _ _) ?_
    rintro name s' name' t' ⟨⟨rfl, rfl⟩, rfl, rfl⟩
    exact together_pure (twins_captured (grown_refl s t) (samePattern_leaf _) (.same _ rfl))
  · rw [if_neg hvariable]
    exact together_pure ⟨rfl, rfl⟩

end Leaves

section Recursive

/-- The order of the paired captures does not matter. -/
theorem samePattern_perm {item item' : Item} {rows' : List Row} (h : SamePattern item item' rows)
    (hperm : rows.Perm rows') : SamePattern item item' rows' :=
  ⟨h.isPattern, h.isPattern', h.plain, h.plain', agree_perm h.agree hperm⟩

/-- One order of the operands. -/
theorem samePattern_operands {left left' right right' : List Item} {rows' : List Row}
    (hleft : SameEntry left left' rows) (hright : SameEntry right right' rows') (op : String) :
    SamePattern
      (.node "binary_expression" (.fieldName "left" :: left ++
        [.fieldName "operator", .token op, .fieldName "right"] ++ right))
      (.node "binary_expression" (.fieldName "left" :: left' ++
        [.fieldName "operator", .token op, .fieldName "right"] ++ right')) (rows ++ rows') := by
  have hoperator : SameText [.fieldName "operator", .token op, .fieldName "right"]
      [.fieldName "operator", .token op, .fieldName "right"] [] :=
    .mark rfl rfl (.pattern (samePattern_token op) (.mark rfl rfl .nil))
  have htext := sameText_append (sameText_append (sameText_of_entry hleft) hoperator)
    (sameText_of_entry hright)
  rw [List.append_nil] at htext
  exact samePattern_node _ (.mark rfl rfl htext)

/-- An expression whose operands stay, in both orders. -/
theorem twins_buildBinary (hbuild : BuildTwins source source' fuel build)
    (hset : Setting source source' s t) (h : Kept source source' fuel node node') (depth : ℕ)
    (strict : Bool) :
    Together Rejected (buildBinary build node depth strict) (buildBinary build node' depth strict)
      s t (Twins SameEntry s t) := by
  unfold buildBinary
  rw [h.alike.kind]
  refine together_bind (together_unwrap (rel_child h 0)) ?_
  rintro first s first' t ⟨hfirst, rfl, rfl⟩
  refine together_bind (hbuild.twins _ _ _ _ _ _ _ _ _ hset (.some h.alike) hfirst.twin) ?_
  rintro left s₁ left' t₁ ⟨rows, hgrown, hleft⟩
  refine together_bind (together_unwrap (rel_child h 1)) ?_
  rintro op s₁ op' t₁ ⟨hop, rfl, rfl⟩
  refine together_bind (together_unwrap (rel_child h 2)) ?_
  rintro second s₁ second' t₁ ⟨hsecond, rfl, rfl⟩
  refine together_bind (hbuild.twins _ _ _ _ _ _ _ _ _ (setting_of_grown hset hgrown)
    (.some h.alike) hsecond.twin) ?_
  rintro right s₂ right' t₂ ⟨rows', hgrown', hright⟩
  rw [(alike_of_twin hop.twin).kind]
  refine together_pure ⟨rows ++ rows', grown_trans hgrown hgrown', sameEntry_pattern ?_⟩
  refine samePattern_alternation (sameChoice_pattern (samePattern_operands hleft hright _)
    (sameChoice_pattern ?_ .nil))
  exact samePattern_perm (samePattern_operands hright hleft _) List.perm_append_comm

/-- A mirrored expression with its operands at hand. -/
theorem buildBinary_eq {first op second : Node} (h : node.children = [first, op, second])
    (depth : ℕ) (strict : Bool) :
    buildBinary build node depth strict =
      (build (some node) first (depth + 1) strict node.kind >>= fun left =>
        build (some node) second (depth + 1) strict node.kind >>= fun right =>
          pure [.alternation
            [.node "binary_expression" (.fieldName "left" :: left ++
              [.fieldName "operator", .token op.kind, .fieldName "right"] ++ right),
             .node "binary_expression" (.fieldName "left" :: right ++
              [.fieldName "operator", .token (altOperator op.kind), .fieldName "right"] ++
                left)]]) := by
  have hfirst : node.child 0 = some first := by rw [Node.child, h]; rfl
  have hop : node.child 1 = some op := by rw [Node.child, h]; rfl
  have hsecond : node.child 2 = some second := by rw [Node.child, h]; rfl
  unfold buildBinary
  rw [hfirst, hop, hsecond]
  simp only [unwrap, pure_bind]

/-- Both operators are handled, and each is the other one reversed. -/
theorem operators_of_mem {op op' : String} (h : (op, op') ∈ mirrorPairs) :
    altOperator op = op' ∧ altOperator op' = op ∧
      op ∈ [">", "<", "<=", ">="] ++ ["+", "*", "&", "|", "==", "!="] ∧
      op' ∈ [">", "<", "<=", ">="] ++ ["+", "*", "&", "|", "==", "!="] := by
  have hall : ∀ pair ∈ mirrorPairs, altOperator pair.1 = pair.2 ∧ altOperator pair.2 = pair.1 ∧
      pair.1 ∈ [">", "<", "<=", ">="] ++ ["+", "*", "&", "|", "==", "!="] ∧
      pair.2 ∈ [">", "<", "<=", ">="] ++ ["+", "*", "&", "|", "==", "!="] := by
    decide
  exact hall (op, op') h

/-- An expression with a known operator is built in both orders. -/
theorem isTransformable_of_mem {first op second : Node} (h : node.children = [first, op, second])
    (hop : op.kind ∈ [">", "<", "<=", ">="] ++ ["+", "*", "&", "|", "==", "!="]) :
    isTransformableBinaryExp node = true := by
  have hchild : node.child 1 = some op := by rw [Node.child, h]; rfl
  rw [isTransformableBinaryExp, isComparisonBinaryExp, isCommutativeBinaryExp, hchild,
    Option.any_some, Option.any_some, Bool.or_eq_true, List.contains_iff_mem,
    List.contains_iff_mem]
  exact List.mem_append.mp hop

/-- The operands of a mirrored expression are built in the other order. -/
theorem twins_buildBinary_crossed (hbuild : BuildTwins source source' fuel build)
    (hset : Setting source source' s t) {left left' right right' op op' : Node}
    (h : Crossed source source' fuel node node' left left' right right' op op') (depth : ℕ)
    (strict : Bool) :
    Together Rejected (buildBinary build node depth strict) (buildBinary build node' depth strict)
      s t (Twins SameEntry s t) := by
  obtain ⟨halt, halt', -, -⟩ := operators_of_mem h.operators
  rw [buildBinary_eq h.children, buildBinary_eq h.children', h.alike.kind, halt, halt']
  have hleft : ∀ items t₁, build (some node') right' (depth + 1) strict node.kind t =
      .ok (items, t₁) →
      Together Rejected (build (some node) left (depth + 1) strict node.kind)
        (build (some node') left' (depth + 1) strict node.kind) s t₁ (Twins SameEntry s t₁) := by
    intro items t₁ hrun
    have hheight : right'.height ≤ fuel := by
      rw [height_of_twin h.right]
      exact h.right.height
    obtain ⟨hsource, hconstraints⟩ := hbuild.keeps _ _ _ _ _ _ _ _ hheight hrun
    refine hbuild.twins _ _ _ _ _ _ _ _ _ ⟨hset.left, ?_, ?_⟩ (.some h.alike) h.left
    · rw [hsource, hset.right]
    · rw [hconstraints, hset.constraints]
  have hright : ∀ items s₁, build (some node) left (depth + 1) strict node.kind s =
      .ok (items, s₁) →
      Together Rejected (build (some node) right (depth + 1) strict node.kind)
        (build (some node') right' (depth + 1) strict node.kind) s₁ t (Twins SameEntry s₁ t) := by
    intro items s₁ hrun
    obtain ⟨hsource, hconstraints⟩ := hbuild.keeps _ _ _ _ _ _ _ _ h.left.height hrun
    refine hbuild.twins _ _ _ _ _ _ _ _ _ ⟨?_, hset.right, ?_⟩ (.some h.alike) h.right
    · rw [hsource, hset.left]
    · rw [hconstraints, hset.constraints]
  refine together_swap hleft hright ?_
  rintro first s₁ second s₂ first' t₁ second' t₂ ⟨rows, hgrown, hfirst⟩ ⟨rows', hgrown', hsecond⟩
  refine together_pure ⟨rows ++ rows', grown_crossed hgrown hgrown', sameEntry_pattern ?_⟩
  refine samePattern_crossed (samePattern_operands hfirst hsecond _) ?_
  exact samePattern_perm (samePattern_operands hsecond hfirst _) List.perm_append_comm

/-- The label `not:` does not occur, and `strict:` always writes the text of its
statement. -/
theorem twins_buildLabeled (hbuild : BuildTwins source source' fuel build)
    (hset : Setting source source' s t) (halike : Alike source source' node node')
    (hkind : node.kind = "labeled_statement") (hnegative : label source node ≠ some "NOT")
    (hstatement : Option.Rel (Twin source source' fuel) (node.namedChild 1) (node'.namedChild 1))
    (depth : ℕ) :
    Together Rejected (buildLabeled build queryTree node depth)
      (buildLabeled build queryTree node' depth) s t fun items s' items' t' =>
        TwinsOption s t items s' items' t' ∧
          (label source node = some "STRICT" → items.isSome = true) := by
  unfold buildLabeled
  refine together_bind (together_unwrap_known (rel_label halike hkind)) ?_
  rintro first s first' t ⟨⟨⟨hfirst, -⟩, hsame⟩, rfl, rfl⟩
  refine together_bind (together_getText hset first first') ?_
  rintro text s text' t ⟨⟨rfl, rfl⟩, rfl, rfl⟩
  have hlabel : label source node = some (toUppercase (slice source first.range)) := by
    rw [label, hfirst, Option.map_some]
  have hnot : ¬(toUppercase (slice source first.range) == "NOT") = true := by
    rw [beq_iff_eq]
    intro hlabelled
    exact hnegative (by rw [hlabel, hlabelled])
  rw [hsame, if_neg hnot, if_neg hnot]
  by_cases hstrict : (toUppercase (slice source first.range) == "STRICT") = true
  · rw [if_pos hstrict, if_pos hstrict, halike.kind]
    generalize node.namedChild 1 = child at hstatement ⊢
    generalize node'.namedChild 1 = child' at hstatement ⊢
    cases hstatement with
    | none => exact together_pure ⟨⟨[], grown_refl s t, .nothing⟩, fun _ => rfl⟩
    | some htwin =>
      refine together_bind (hbuild.twins _ _ _ _ _ _ _ _ _ hset (.some halike) htwin) ?_
      intro items s' items' t' htwins
      exact together_pure ⟨htwins, fun _ => rfl⟩
  · rw [if_neg hstrict, if_neg hstrict]
    refine together_pure ⟨⟨rfl, rfl⟩, ?_⟩
    intro hlabelled
    rw [hlabel, Option.some.injEq] at hlabelled
    exact absurd (beq_iff_eq.mpr hlabelled) hstrict

/-- Blocks become sub-queries that match alike. -/
theorem twins_buildCompound (htree : TreeTwins source source' fuel queryTree)
    (hset : Setting source source' s t) (h : Twin source source' (fuel + 1) node node')
    (hkind : node.kind = "compound_statement") {up up' : Option Node}
    (hup : Option.Rel (Alike source source') up up') :
    Together Rejected (buildCompound queryTree up node) (buildCompound queryTree up' node') s t
      (Twins SameEntry s t) := by
  unfold buildCompound
  refine together_modify ?_
  refine together_get ?_
  have hids : s.id + 1 = 0 ↔ t.id + 1 = 0 := by omega
  refine together_bind (htree up up' node node' _ _ true _ _ _
    ⟨hset.left, hset.right, hset.constraints⟩ hup h (fun _ => hkind) hids) ?_
  rintro tree s' tree' t' ⟨rfl, rfl, hagree⟩
  refine together_bind (together_addCapture _ _) ?_
  rintro name s' name' t' ⟨⟨rfl, rfl⟩, rfl, rfl⟩
  exact together_pure (twins_captured (grown_id s t _ _) (samePattern_leaf _) (.multi hagree))

/-- A right side with or without a cast. -/
theorem sameText_optionalCast {items items' : List Item} (h : SameEntry items items' rows) :
    SameText (optionalCast items) (optionalCast items') rows := by
  have hvalue : SameText (.fieldName "value" :: items) (.fieldName "value" :: items') rows :=
    .mark rfl rfl (sameText_of_entry h)
  have hcast := samePattern_node "cast_expression" hvalue
  have hchoice := samePattern_alternation (sameChoice_pattern hcast (sameChoice_entry h))
  have htext := SameText.pattern hchoice .nil
  rwa [List.append_nil] at htext

/-- Assignments, whose parts are looked up by their places. -/
theorem twins_buildAssignment (hbuild : BuildTwins source source' fuel build)
    (hset : Setting source source' s t) (halike : Alike source source' node node')
    (hparts : ∀ i < 3, Option.Rel (Twin source source' fuel) (node.child i) (node'.child i))
    (depth : ℕ) (strict : Bool) :
    Together Rejected (buildAssignment build node depth strict)
      (buildAssignment build node' depth strict) s t (Twins SameEntry s t) := by
  unfold buildAssignment
  rw [halike.kind]
  refine together_bind (together_unwrap (hparts 0 (by decide))) ?_
  rintro first s first' t ⟨hfirst, rfl, rfl⟩
  refine together_bind (hbuild.twins _ _ _ _ _ _ _ _ _ hset (.some halike) hfirst) ?_
  rintro left s₁ left' t₁ ⟨rows, hgrown, hleft⟩
  have hset₁ := setting_of_grown hset hgrown
  refine together_bind (together_unwrap (hparts 1 (by decide))) ?_
  rintro op s₁ op' t₁ ⟨hop, rfl, rfl⟩
  rw [(alike_of_twin hop).kind, (alike_of_twin hfirst).kind]
  by_cases hother : (op.kind != "=" || first.kind != "identifier") = true
  · rw [if_pos hother, if_pos hother]
    refine together_bind (hbuild.twins _ _ _ _ _ _ _ _ _ hset₁ (.some halike) hop) ?_
    rintro operator s₂ operator' t₂ ⟨rows₂, hgrown₂, hoperator⟩
    refine together_bind (together_unwrap (hparts 2 (by decide))) ?_
    rintro second s₂ second' t₂ ⟨hsecond, rfl, rfl⟩
    refine together_bind (hbuild.twins _ _ _ _ _ _ _ _ _ (setting_of_grown hset₁ hgrown₂)
      (.some halike) hsecond) ?_
    rintro right s₃ right' t₃ ⟨rows₃, hgrown₃, hright⟩
    refine together_pure ⟨rows ++ rows₂ ++ rows₃,
      grown_trans (grown_trans hgrown hgrown₂) hgrown₃, sameEntry_pattern ?_⟩
    refine samePattern_node _ (.mark rfl rfl ?_)
    exact sameText_append (sameText_append (sameText_of_entry hleft) (sameText_of_entry hoperator))
      (.mark rfl rfl (sameText_optionalCast hright))
  · rw [if_neg hother, if_neg hother]
    refine together_bind (together_unwrap (hparts 2 (by decide))) ?_
    rintro second s₁ second' t₁ ⟨hsecond, rfl, rfl⟩
    refine together_bind (hbuild.twins _ _ _ _ _ _ _ _ _ hset₁ (.some halike) hsecond) ?_
    rintro right s₂ right' t₂ ⟨rows₂, hgrown₂, hright⟩
    refine together_pure ⟨rows ++ rows₂, grown_trans hgrown hgrown₂, sameEntry_pattern ?_⟩
    refine samePattern_alternation (sameChoice_pattern ?_ (sameChoice_pattern ?_
      (sameChoice_pattern ?_ .nil)))
    · exact samePattern_node _ (.mark rfl rfl (sameText_append (sameText_of_entry hleft)
        (.mark rfl rfl (sameText_optionalCast hright))))
    · exact samePattern_node _ (.mark rfl rfl (sameText_append (sameText_of_entry hleft)
        (.mark rfl rfl (sameText_optionalCast hright))))
    · exact samePattern_node _ (.mark rfl rfl (.pattern
        (samePattern_node _ (.mark rfl rfl (sameText_of_entry hleft)))
        (.mark rfl rfl (sameText_optionalCast hright))))

/-- The name of a function under the numbers of its captures. -/
theorem sameText_functionItems (strict : Bool) (row : Row) :
    SameText (functionItems strict (nameAt Prod.fst row)) (functionItems strict (nameAt Prod.snd row))
      [row] := by
  have hname : SameText [.node "identifier" [], suffixAt Prod.fst row]
      [.node "identifier" [], suffixAt Prod.snd row] [row] :=
    .pattern (samePattern_leaf "identifier") (.suffix row .nil)
  have hfield : SameText [.fieldName "field", .node "field_identifier" [], suffixAt Prod.fst row]
      [.fieldName "field", .node "field_identifier" [], suffixAt Prod.snd row] [row] :=
    .mark rfl rfl (.pattern (samePattern_leaf "field_identifier") (.suffix row .nil))
  have hchoice : SameChoice [row] [.node "identifier" [], suffixAt Prod.fst row]
      [.node "identifier" [], suffixAt Prod.snd row] :=
    .cons [row] (samePattern_leaf "identifier") (.refl _) .nil
  cases strict with
  | true => exact hname
  | false =>
    have hboth := samePattern_alternation
      (sameChoice_pattern (samePattern_node "field_expression" hfield) hchoice)
    exact .pattern hboth .nil

/-- Calls: of the function `_`, of a named function and others. -/
theorem twins_buildCallExpr (hbuild : BuildTwins source source' fuel build)
    (htree : TreeTwins source source' fuel queryTree) (hset : Setting source source' s t)
    (htwin : Twin source source' (fuel + 1) node node') (h : Kept source source' fuel node node')
    (depth : ℕ) (strict : Bool) (parent : String) :
    Together Rejected (buildCallExpr build queryTree node depth strict parent)
      (buildCallExpr build queryTree node' depth strict parent) s t (TwinsOption s t) := by
  unfold buildCallExpr
  refine together_bind (together_isSubexprWildcard hset htwin) ?_
  rintro _ s found t ⟨rfl, rfl, rfl⟩
  cases found with
  | true =>
    refine together_bind (together_unwrap_known (rel_childByFieldName h "arguments")) ?_
    rintro list s list' t ⟨⟨⟨hlist, -⟩, hmember⟩, rfl, rfl⟩
    obtain ⟨halike, hargument, hlength⟩ := twin_wildcardArgument h hlist hmember
    simp only [hlength]
    by_cases hseveral : 2 ≤ (wildcardArgument node list).2.2.length
    · rw [if_pos hseveral, if_pos hseveral]
      exact together_pure ⟨rfl, rfl⟩
    · rw [if_neg hseveral, if_neg hseveral]
      by_cases hdepth : depth = 0
      · rw [if_pos hdepth, if_pos hdepth]
        refine together_bind (hbuild.twins _ _ _ _ _ _ _ _ _ hset (.some halike) hargument) ?_
        intro items s' items' t' htwins
        exact together_pure htwins
      · rw [if_neg hdepth, if_neg hdepth]
        refine together_modify ?_
        refine together_get ?_
        have hids : s.id + 1 = 0 ↔ t.id + 1 = 0 := by omega
        refine together_bind (htree _ _ _ _ _ _ false _ _ _
          ⟨hset.left, hset.right, hset.constraints⟩ (.some halike) hargument
          (fun h => absurd h Bool.false_ne_true) hids) ?_
        rintro tree s' tree' t' ⟨rfl, rfl, hagree⟩
        refine together_bind (together_addCapture _ _) ?_
        rintro name s' name' t' ⟨⟨rfl, rfl⟩, rfl, rfl⟩
        exact together_pure (twins_captured (grown_id s t _ _) samePattern_wildcard (.wild hagree))
  | false =>
    simp only [Bool.false_eq_true, if_false]
    refine together_bind (together_unwrap (rel_childByFieldName h "function")) ?_
    rintro callee s callee' t ⟨hcallee, rfl, rfl⟩
    refine together_bind (together_unwrap (rel_childByFieldName h "arguments")) ?_
    rintro list s list' t ⟨hlist, rfl, rfl⟩
    have halike := alike_of_twin hcallee.twin
    rw [halike.kind]
    by_cases hkind : (callee.kind != "identifier") = true
    · rw [if_pos hkind, if_pos hkind]
      exact together_pure ⟨rfl, rfl⟩
    · rw [if_neg hkind, if_neg hkind]
      have hword : callee.kind ∈ wordKinds := by
        have hidentifier : callee.kind = "identifier" := by simpa using hkind
        rw [hidentifier]
        decide
      refine together_bind (together_getText hset callee callee') ?_
      rintro pattern s pattern' t ⟨⟨rfl, rfl⟩, rfl, rfl⟩
      rw [halike.word hword]
      by_cases hvariable : startsWith (slice source callee.range) '$' = true
      · rw [if_pos hvariable, if_pos hvariable]
        exact together_pure ⟨rfl, rfl⟩
      · rw [if_neg hvariable, if_neg hvariable]
        refine together_bind (together_addCapture _ _) ?_
        rintro name s₁ name' t₁ ⟨⟨rfl, rfl⟩, rfl, rfl⟩
        have hcheck : CapturesAgree (.check (slice source callee.range))
            (.check (slice source callee.range)) := .same _ rfl
        have hgrown := grown_push (s := s) (t := t) hcheck
        refine together_bind (hbuild.twins _ _ _ _ _ _ _ _ _ (setting_of_grown hset hgrown)
          (.some h.alike) hlist.twin) ?_
        rintro items s₂ items' t₂ ⟨rows, hgrown', hitems⟩
        refine together_pure ⟨_, grown_trans hgrown hgrown', sameEntry_pattern ?_⟩
        exact samePattern_node _ (.mark rfl rfl (sameText_append
          (sameText_functionItems strict (nextRow s t _ _))
          (.mark rfl rfl (sameText_of_entry hitems))))

/-- Both expressions may be taken out of their statements or neither. -/
theorem together_isGreedy (hset : Setting source source' s t)
    (h : Twin source source' fuel node node') (strict : Bool) :
    Together Rejected (isGreedy node strict) (isGreedy node' strict) s t
      fun greedy s' greedy' t' => greedy' = greedy ∧ s' = s ∧ t' = t := by
  unfold isGreedy
  cases strict with
  | true => exact together_isSubexprWildcard hset h
  | false => exact together_pure ⟨rfl, rfl, rfl⟩

/-- The labels of both statements are special or neither is. -/
theorem together_hasMagicLabel (hset : Setting source source' s t)
    (h : Alike source source' node node') :
    Together Rejected (hasMagicLabel node) (hasMagicLabel node') s t
      fun magic s' magic' t' => magic' = magic ∧ s' = s ∧ t' = t := by
  unfold hasMagicLabel
  rw [h.kind]
  by_cases hkind : (node.kind == "labeled_statement") = true
  · rw [if_pos hkind, if_pos hkind]
    refine together_bind (together_unwrap (rel_label h (beq_iff_eq.mp hkind))) ?_
    rintro first s first' t ⟨hsame, rfl, rfl⟩
    refine together_bind (together_getText hset first first') ?_
    rintro text s text' t ⟨⟨rfl, rfl⟩, rfl, rfl⟩
    refine together_pure ⟨?_, rfl, rfl⟩
    rw [hsame]
  · rw [if_neg hkind, if_neg hkind]
    exact together_pure ⟨rfl, rfl, rfl⟩

/-- Both statements are replaced by their expressions or neither is. -/
theorem together_shouldUnwrap (hset : Setting source source' s t) {child child' : Node}
    (hchild : Twin source source' fuel child child') (h : Alike source source' node node')
    (strict : Bool) :
    Together Rejected (shouldUnwrap child node strict) (shouldUnwrap child' node' strict) s t
      fun found s' found' t' => found' = found ∧ s' = s ∧ t' = t := by
  unfold shouldUnwrap
  refine together_bind (together_isGreedy hset hchild strict) ?_
  rintro _ s greedy t ⟨rfl, rfl, rfl⟩
  refine together_bind (together_hasMagicLabel hset h) ?_
  rintro _ s magic t ⟨rfl, rfl, rfl⟩
  refine together_bind (together_getText hset child child') ?_
  rintro text s text' t ⟨⟨rfl, rfl⟩, rfl, rfl⟩
  refine together_pure ⟨?_, rfl, rfl⟩
  have hread : (slice source' child'.range == "_") = (slice source child.range == "_") := by
    rw [Bool.eq_iff_iff, beq_iff_eq, beq_iff_eq]
    exact (alike_of_twin hchild).wildcard
  rw [bne, bne, hread]

/-- Expression statements that are replaced by their expressions. -/
theorem twins_buildExpressionStatement (hbuild : BuildTwins source source' fuel build)
    (hset : Setting source source' s t) (h : Kept source source' fuel node node')
    {up up' : Option Node} (hup : Option.Rel (Alike source source') up up') (depth : ℕ)
    (strict : Bool) :
    Together Rejected (buildExpressionStatement build up node depth strict)
      (buildExpressionStatement build up' node' depth strict) s t (TwinsOption s t) := by
  unfold buildExpressionStatement
  have hchild := rel_namedChild h 0
  generalize node.namedChild 0 = child at hchild ⊢
  generalize node'.namedChild 0 = child' at hchild ⊢
  cases hchild with
  | none => exact together_pure ⟨rfl, rfl⟩
  | @some child child' hmember =>
    cases hup with
    | none => exact together_pure ⟨rfl, rfl⟩
    | @some p p' halike =>
      simp only [halike.kind, h.alike.kind]
      by_cases hkind : ["compound_statement", "labeled_statement", "translation_unit"].contains
          p.kind = true
      · rw [if_pos hkind, if_pos hkind]
        refine together_bind (together_shouldUnwrap hset hmember.twin halike strict) ?_
        rintro _ s found t ⟨rfl, rfl, rfl⟩
        cases found with
        | true =>
          refine together_bind (together_unwrap (rel_child h 0)) ?_
          rintro first s first' t ⟨hfirst, rfl, rfl⟩
          refine together_bind (hbuild.twins _ _ _ _ _ _ _ _ _ hset (.some h.alike) hfirst.twin) ?_
          intro items s' items' t' htwins
          exact together_pure htwins
        | false => exact together_pure ⟨rfl, rfl⟩
      · rw [if_neg hkind, if_neg hkind]
        exact together_pure ⟨rfl, rfl⟩

/-- A declarator may be wrapped once more. -/
theorem sameText_declarator {items items' : List Item} (h : SameEntry items items' rows)
    (field : String) :
    SameText [.fieldName field, .group [.alternation [.node "_" items, .group items]]]
      [.fieldName field, .group [.alternation [.node "_" items', .group items']]] rows := by
  have htext := sameText_of_entry h
  have hchoice := samePattern_alternation (sameChoice_pattern (samePattern_node "_" htext)
    (sameChoice_pattern (samePattern_group htext) .nil))
  have hgroup := samePattern_group (sameText_of_entry (sameEntry_pattern hchoice))
  exact .mark rfl rfl (sameText_of_entry (sameEntry_pattern hgroup))

/-- One round of the default loop. -/
theorem twins_buildChild (hbuild : BuildTwins source source' fuel build)
    (hset : Setting source source' s t) (h : Alike source source' node node') {child child' : Node}
    (hmember : Member source source' fuel child child') (anchoring : Bool) (depth : ℕ)
    (strict : Bool) :
    Together Rejected (buildChild build node anchoring depth strict child)
      (buildChild build node' anchoring depth strict child') s t (Twins SameText s t) := by
  have hchild := alike_of_twin hmember.twin
  unfold buildChild
  rw [hmember.field, h.kind]
  cases child.field with
  | some field =>
    refine together_bind (hbuild.twins _ _ _ _ _ _ _ _ _ hset (.some h) hmember.twin) ?_
    rintro items s' items' t' ⟨rows, hgrown, hitems⟩
    by_cases hdeclarator : (field == "declarator" && node.kind == "function_definition") = true
    · rw [if_pos hdeclarator, if_pos hdeclarator]
      exact together_pure ⟨rows, hgrown, sameText_declarator hitems field⟩
    · rw [if_neg hdeclarator, if_neg hdeclarator]
      exact together_pure ⟨rows, hgrown, .mark rfl rfl (sameText_of_entry hitems)⟩
  | none =>
    simp only [hchild.isNamed]
    by_cases hnamed : child.isNamed = true
    · rw [if_pos hnamed, if_pos hnamed]
      refine together_get ?_
      rw [hset.left, hset.right, isVariadic_of_alike hchild]
      by_cases hskipped : (node.kind == "argument_list" && isVariadic source child) = true
      · rw [if_pos hskipped, if_pos hskipped]
        exact together_pure ⟨[], grown_refl s t, .nil⟩
      · rw [if_neg hskipped, if_neg hskipped]
        refine together_bind (hbuild.twins _ _ _ _ _ _ _ _ _ hset (.some h) hmember.twin) ?_
        rintro items s' items' t' ⟨rows, hgrown, hitems⟩
        cases anchoring with
        | true => exact together_pure ⟨rows, hgrown, .mark rfl rfl (sameText_of_entry hitems)⟩
        | false => exact together_pure ⟨rows, hgrown, sameText_of_entry hitems⟩
    · have htoken : child.isNamed = false := Bool.eq_false_iff.mpr hnamed
      have hheight : child'.height ≤ fuel := by
        rw [height_of_twin hmember.twin]
        exact hmember.twin.height
      rw [if_neg hnamed, if_neg hnamed,
        hbuild.token _ _ _ _ _ hmember.twin.height htoken,
        hbuild.token _ _ _ _ _ hheight (hchild.isNamed.trans htoken), pure_bind, pure_bind,
        hchild.kind]
      by_cases hkeyword : isKeyword child.kind = true
      · rw [if_pos hkeyword]
        refine together_bind (together_addCapture _ _) ?_
        rintro name s' name' t' ⟨⟨rfl, rfl⟩, rfl, rfl⟩
        obtain ⟨rows, hgrown, hentry⟩ := twins_captured (grown_refl s t)
          (samePattern_token child.kind) (.same .display rfl)
        exact together_pure ⟨rows, hgrown, sameText_of_entry hentry⟩
      · rw [if_neg hkeyword]
        exact together_pure ⟨[], grown_refl s t, .nil⟩

/-- The default loop. -/
theorem twins_buildChildren (hbuild : BuildTwins source source' fuel build)
    (hset : Setting source source' s t) (h : Alike source source' node node') (anchoring : Bool)
    (depth : ℕ) (strict : Bool) {children children' : List Node}
    (hmembers : List.Forall₂ (Member source source' fuel) children children') :
    Together Rejected (buildChildren build node anchoring depth strict children)
      (buildChildren build node' anchoring depth strict children') s t (Twins SameText s t) := by
  induction hmembers generalizing s t with
  | nil => exact together_pure ⟨[], grown_refl s t, .nil⟩
  | cons hmember _ ih =>
    rw [buildChildren, buildChildren]
    refine together_bind (twins_buildChild hbuild hset h hmember anchoring depth strict) ?_
    rintro items s₁ items' t₁ ⟨rows, hgrown, hitems⟩
    refine together_bind (ih (setting_of_grown hset hgrown)) ?_
    rintro rest s₂ rest' t₂ ⟨rows', hgrown', hrest⟩
    exact together_pure ⟨rows ++ rows', grown_trans hgrown hgrown', sameText_append hitems hrest⟩

/-- Nodes without a rule of their own. -/
theorem twins_buildDefault (hbuild : BuildTwins source source' fuel build)
    (hset : Setting source source' s t) (h : Kept source source' fuel node node') (depth : ℕ)
    (strict : Bool) :
    Together Rejected (buildDefault build node depth strict) (buildDefault build node' depth strict)
      s t (Twins SameEntry s t) := by
  unfold buildDefault
  refine together_get ?_
  have hempty : node'.children.isEmpty = node.children.isEmpty := by
    rw [Bool.eq_iff_iff, List.isEmpty_iff_length_eq_zero, List.isEmpty_iff_length_eq_zero,
      h.members.length_eq]
  simp only [hset.left, hset.right, countP_isVariadic_of_kept h, namedChildCount_of_kept h,
    h.alike.kind, hempty]
  by_cases hnone : node.children.isEmpty = true
  · rw [if_pos hnone, if_pos hnone]
    exact together_pure ⟨[], grown_refl s t, sameEntry_pattern (samePattern_leaf node.kind)⟩
  · rw [if_neg hnone, if_neg hnone]
    refine together_bind (twins_buildChildren hbuild hset h.alike _ depth strict h.members) ?_
    rintro items s' items' t' ⟨rows, hgrown, hitems⟩
    have hnode := samePattern_node node.kind hitems
    by_cases hlist : (node.kind == "argument_list") = true
    · simp only [hlist, if_true]
      refine together_bind (together_addCapture _ _) ?_
      rintro name s'' name' t'' ⟨⟨rfl, rfl⟩, rfl, rfl⟩
      exact together_pure (twins_captured hgrown hnode (.same _ rfl))
    · simp only [if_neg hlist]
      exact together_pure ⟨rows, hgrown, sameEntry_pattern hnode⟩

/-- Whether an expression is mirrored depends on the kind of its second child. -/
theorem isTransformable_of_rel
    (h : Option.Rel (fun op op' => op'.kind = op.kind) (node.child 1) (node'.child 1)) :
    isTransformableBinaryExp node' = isTransformableBinaryExp node := by
  unfold isTransformableBinaryExp isComparisonBinaryExp isCommutativeBinaryExp
  generalize node.child 1 = op at h ⊢
  generalize node'.child 1 = op' at h ⊢
  cases h with
  | none => rfl
  | some hkind => simp only [Option.any_some, hkind]

/-- An expression that stays is mirrored by the builder on both sides or on
neither. -/
theorem isTransformable_of_kept (h : Kept source source' fuel node node') :
    isTransformableBinaryExp node' = isTransformableBinaryExp node := by
  refine isTransformable_of_rel ?_
  have hop := rel_child h 1
  generalize node.child 1 = op at hop ⊢
  generalize node'.child 1 = op' at hop ⊢
  cases hop with
  | none => exact .none
  | some hmember => exact .some (alike_of_twin hmember.twin).kind

/-- A rule that always writes something. -/
theorem twins_option {x y : BuildM (List Item)} (h : Together Rejected x y s t (Twins SameEntry s t)) :
    Together Rejected (some <$> x) (some <$> y) s t (TwinsOption s t) := together_map h

/-- The rules for single kinds, on nodes that stay. -/
theorem twins_buildSpecial (hbuild : BuildTwins source source' fuel build)
    (htree : TreeTwins source source' fuel queryTree) (hset : Setting source source' s t)
    (htwin : Twin source source' (fuel + 1) node node') (h : Kept source source' fuel node node')
    {up up' : Option Node} (hup : Option.Rel (Alike source source') up up') (depth : ℕ)
    (strict : Bool) (parent : String) :
    Together Rejected (buildSpecial build queryTree up node depth strict parent)
      (buildSpecial build queryTree up' node' depth strict parent) s t (TwinsOption s t) := by
  have halike := h.alike
  unfold buildSpecial
  rw [halike.kind, isTransformable_of_kept h, namedChildCount_of_kept h]
  by_cases hbinary : node.kind = "binary_expression"
  · rw [if_pos hbinary, if_pos hbinary]
    split_ifs
    · exact twins_option (twins_buildBinary hbuild hset h depth strict)
    · exact together_pure ⟨rfl, rfl⟩
  rw [if_neg hbinary, if_neg hbinary]
  by_cases hlabeled : node.kind = "labeled_statement"
  · rw [if_pos hlabeled, if_pos hlabeled]
    exact together_mono (twins_buildLabeled hbuild hset halike hlabeled (h.notLabel hlabeled)
      (rel_twin (rel_namedChild h 1)) depth) fun _ _ _ _ hwritten => hwritten.1
  rw [if_neg hlabeled, if_neg hlabeled]
  by_cases hcompound : node.kind = "compound_statement"
  · rw [if_pos hcompound, if_pos hcompound]
    split_ifs
    · exact twins_option (twins_buildCompound htree hset htwin hcompound hup)
    · exact together_pure ⟨rfl, rfl⟩
  rw [if_neg hcompound, if_neg hcompound]
  by_cases hidentifier : node.kind ∈ identifierKinds
  · rw [if_pos hidentifier, if_pos hidentifier]
    exact twins_option (twins_buildIdentifier hset halike hidentifier parent)
  rw [if_neg hidentifier, if_neg hidentifier]
  by_cases hassignment : node.kind = "assignment_expression"
  · rw [if_pos hassignment, if_pos hassignment]
    exact twins_option (twins_buildAssignment hbuild hset halike
      (fun i _ => rel_twin (rel_child h i)) depth strict)
  rw [if_neg hassignment, if_neg hassignment]
  by_cases hcall : node.kind = "call_expression"
  · rw [if_pos hcall, if_pos hcall]
    exact twins_buildCallExpr hbuild htree hset htwin h depth strict node.kind
  rw [if_neg hcall, if_neg hcall]
  by_cases hstatement : node.kind = "expression_statement"
  · rw [if_pos hstatement, if_pos hstatement]
    exact twins_buildExpressionStatement hbuild hset h hup depth strict
  rw [if_neg hstatement, if_neg hstatement]
  by_cases hnumber : node.kind = "number_literal"
  · rw [if_pos hnumber, if_pos hnumber]
    exact twins_option (twins_buildNumber hset halike hnumber)
  rw [if_neg hnumber, if_neg hnumber]
  by_cases hstring : node.kind = "string_literal"
  · rw [if_pos hstring, if_pos hstring]
    exact twins_buildString hset halike hstring
  rw [if_neg hstring, if_neg hstring]
  exact together_pure ⟨rfl, rfl⟩

/-- Assignments and statements with the label `strict:` are always written by a
rule of their own. -/
theorem twins_buildSpecial_selected (hbuild : BuildTwins source source' fuel build)
    (hset : Setting source source' s t) (h : Selected source source' fuel node node')
    (up up' : Option Node) (depth : ℕ) (strict : Bool) (parent : String) :
    Together Rejected (buildSpecial build queryTree up node depth strict parent)
      (buildSpecial build queryTree up' node' depth strict parent) s t fun items s' items' t' =>
        TwinsOption s t items s' items' t' ∧ items.isSome = true := by
  have halike := h.alike
  unfold buildSpecial
  rw [halike.kind]
  rcases h.selects with hkind | ⟨hkind, hlabel⟩
  · simp only [hkind, String.reduceEq, if_false, if_true]
    have hother : "assignment_expression" ∉ identifierKinds := by decide
    rw [if_neg hother, if_neg hother]
    refine together_map (together_mono (twins_buildAssignment hbuild hset halike
      (fun i hi => rel_child_of_selected h hkind hi) depth strict) ?_)
    intro items s' items' t' htwins
    exact ⟨htwins, rfl⟩
  · have hnegative : label source node ≠ some "NOT" := by
      rw [hlabel]
      decide
    simp only [hkind, String.reduceEq, if_false, if_true]
    refine together_mono (twins_buildLabeled hbuild hset halike hkind hnegative
      (rel_namedChild_of_selected h hkind) depth) ?_
    intro items s' items' t' hwritten
    exact ⟨hwritten.1, hwritten.2 hlabel⟩

/-- An expression with a known operator goes to its own rule. -/
theorem buildBody_binary (hnamed : node.isNamed = true) (hkind : node.kind = "binary_expression")
    (htransformable : isTransformableBinaryExp node = true) (up : Option Node) (depth : ℕ)
    (strict : Bool) (parent : String) :
    buildBody build queryTree up node depth strict parent = buildBinary build node depth strict := by
  unfold buildBody buildSpecial
  rw [hnamed, if_pos hkind, if_pos htransformable]
  simp

/-- Any two corresponding nodes, when corresponding parts match alike. -/
theorem twins_buildBody (hbuild : BuildTwins source source' fuel build)
    (htree : TreeTwins source source' fuel queryTree) (hset : Setting source source' s t)
    (htwin : Twin source source' (fuel + 1) node node') {up up' : Option Node}
    (hup : Option.Rel (Alike source source') up up') (depth : ℕ) (strict : Bool)
    (parent : String) :
    Together Rejected (buildBody build queryTree up node depth strict parent)
      (buildBody build queryTree up' node' depth strict parent) s t (Twins SameEntry s t) := by
  have halike := alike_of_twin htwin
  by_cases hnamed : node.isNamed = true
  · have hnamed' := halike.isNamed.trans hnamed
    rcases kept_or_crossed htwin with h | h | ⟨_, _, _, _, _, _, h⟩
    · unfold buildBody
      rw [hnamed, hnamed']
      refine together_bind
        (twins_buildSpecial hbuild htree hset htwin h hup depth strict parent) ?_
      intro items s' items' t' htwins
      cases items with
      | some items =>
        cases items' with
        | some items' => exact together_pure htwins
        | none => cases htwins
      | none =>
        cases items' with
        | some items' => cases htwins
        | none =>
          obtain ⟨rfl, rfl⟩ := htwins
          exact twins_buildDefault hbuild hset h depth strict
    · unfold buildBody
      rw [hnamed, hnamed']
      refine together_bind
        (twins_buildSpecial_selected hbuild hset h up up' depth strict parent) ?_
      rintro items s' items' t' ⟨htwins, hsome⟩
      cases items with
      | some items =>
        cases items' with
        | some items' => exact together_pure htwins
        | none => cases htwins
      | none => cases hsome
    · obtain ⟨-, -, hop, hop'⟩ := operators_of_mem h.operators
      rw [buildBody_binary hnamed h.kind (isTransformable_of_mem h.children hop),
        buildBody_binary hnamed' (halike.kind.trans h.kind)
          (isTransformable_of_mem h.children' hop')]
      exact twins_buildBinary_crossed hbuild hset h depth strict
  · unfold buildBody
    have htoken : (!node.isNamed) = true := by simpa using hnamed
    rw [halike.isNamed, halike.kind, if_pos htoken, if_pos htoken]
    exact together_pure ⟨[], grown_refl s t, sameEntry_pattern (samePattern_token node.kind)⟩

end Recursive

end WeggliEnhance.MirroredBuilding
