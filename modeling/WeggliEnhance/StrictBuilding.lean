import WeggliEnhance.MirroredBuilding
import WeggliEnhance.MovedPatterns
import WeggliEnhance.NarrowedQueries

/-!
# Building a pattern in both modes

One walk over the text of the builder with two runs side by side on the same
part of two patterns, the first run in strict mode at most. Both runs
allocate captures for the same things in the same order and write texts of
one shape, the first one narrower. In the same mode the texts are equal,
which settles everything that is always built without strict mode: arguments
of calls, blocks and negations.
-/

namespace WeggliEnhance.StrictBuilding

open SourceText SyntaxTree QueryText ThirdParty QueryTrees PatternBuilder
  PatternNesting BuilderSpecification FallibleState PairedRuns MirroredPatterns MirroredBuilding
  MovedPatterns NarrowedTexts NarrowedQueries

/-- The states of the two builders. -/
structure Paired (source source' : String) (s t : QueryBuilder) : Prop extends
    Setting source source' s t where
  /-- Both have given the same ids. -/
  ids : t.id = s.id
  /-- Both have allocated equally many captures, and the same are recorded. -/
  recorded : t.captures.map Capture.isRecorded = s.captures.map Capture.isRecorded

/-- A builder with more captures and negations. -/
structure Adds (builder : QueryBuilder) (captures : List Capture) (negations : List NegativeQuery)
    (next : QueryBuilder) : Prop where
  /-- The captures are added at the end. -/
  captures : next.captures = builder.captures ++ captures
  /-- The negations are added at the end. -/
  negations : next.negations = builder.negations ++ negations
  /-- The pattern text stays. -/
  querySource : next.querySource = builder.querySource
  /-- The constraints stay. -/
  regexConstraints : next.regexConstraints = builder.regexConstraints

/-- Both builders have added captures that check the same, and the same
negations. -/
def Grown (loose : Bool) (s t s' t' : QueryBuilder) : Prop :=
  ∃ added added' found, Adds s added found s' ∧ Adds t added' found t' ∧
    List.Forall₂ (CapturesNarrow (Narrows loose)) added added' ∧ t'.id = s'.id

/-- Both builders have grown, and the first text is narrower. -/
def Written (loose : Bool) (s t : QueryBuilder) (items : List Item) (s' : QueryBuilder)
    (items' : List Item) (t' : QueryBuilder) : Prop :=
  Grown loose s t s' t' ∧ Narrows loose items items'

/-- The special cases write a narrower text, or both change nothing. -/
def WrittenOption (loose : Bool) (s t : QueryBuilder) (items : Option (List Item))
    (s' : QueryBuilder) (items' : Option (List Item)) (t' : QueryBuilder) : Prop :=
  match items, items' with
  | some items, some items' => Written loose s t items s' items' t'
  | none, none => s' = s ∧ t' = t
  | _, _ => False

/-- The recursive calls of `build` on the same parts. -/
structure BuildNarrows (source source' : String) (fuel : ℕ) (build build' : BuildFn) : Prop where
  /-- The first text is narrower. -/
  narrows : ∀ {loose p p' node node' depth depth' strict strict' parent parent' s t},
    Paired source source' s t →
    Visits source source' fuel loose p p' node node' depth depth' strict strict' parent parent' →
    Together Rejected (build (some p) node depth strict parent)
      (build' (some p') node' depth' strict' parent') s t (Written loose s t)
  /-- Anonymous nodes are copied. -/
  token : ∀ up node depth strict parent, node.height ≤ fuel → node.isNamed = false →
    build up node depth strict parent = pure [.token node.kind]
  /-- They are copied in the second run too. -/
  token' : ∀ up node depth strict parent, node.height ≤ fuel → node.isNamed = false →
    build' up node depth strict parent = pure [.token node.kind]

/-- The calls of `_build_query_tree` on the same parts. -/
structure TreeNarrows (source source' : String) (fuel : ℕ) (queryTree queryTree' : TreeFn) :
    Prop where
  /-- Queries with one pattern. -/
  single : ∀ {loose p p' node node' strict strict' s t}, Paired source source' s t →
    Visits source source' fuel loose p p' node node' 0 0 strict strict' node.kind node'.kind →
    ∀ id, Together Rejected (queryTree (some p) node id false strict)
      (queryTree' (some p') node' id false strict') s t
      fun tree s' tree' t' => s' = s ∧ t' = t ∧ TreesNarrow (Narrows loose) tree tree'
  /-- Queries for blocks, which are never built in strict mode. -/
  block : ∀ {up up' node node' s t}, Paired source source' s t →
    Copy source source' (fuel + 1) node node' → node.kind = "compound_statement" →
    ∀ id, Together Rejected (queryTree up node id true false) (queryTree' up' node' id true false)
      s t fun tree s' tree' t' => s' = s ∧ t' = t ∧ tree' = tree

variable {source source' : String} {fuel : ℕ} {build build' : BuildFn}
  {queryTree queryTree' : TreeFn} {loose : Bool} {node node' : Node}
  {s t s' t' s'' t'' : QueryBuilder} {strict strict' : Bool}

section States

/-- Nothing is added. -/
theorem adds_refl (builder : QueryBuilder) : Adds builder [] [] builder :=
  ⟨(List.append_nil _).symm, (List.append_nil _).symm, rfl, rfl⟩

/-- What two steps add, one after the other. -/
theorem adds_trans {captures captures' : List Capture} {negations negations' : List NegativeQuery}
    (h : Adds s captures negations s') (h' : Adds s' captures' negations' s'') :
    Adds s (captures ++ captures') (negations ++ negations') s'' where
  captures := by rw [h'.captures, h.captures, List.append_assoc]
  negations := by rw [h'.negations, h.negations, List.append_assoc]
  querySource := h'.querySource.trans h.querySource
  regexConstraints := h'.regexConstraints.trans h.regexConstraints

/-- One capture is added. -/
theorem adds_push (builder : QueryBuilder) (capture : Capture) :
    Adds builder [capture] [] (builder.push capture) :=
  ⟨rfl, (List.append_nil _).symm, rfl, rfl⟩

/-- Two builders with the same id that add nothing. -/
theorem grown_refl (h : t.id = s.id) : Grown loose s t s t :=
  ⟨[], [], [], adds_refl s, adds_refl t, .nil, h⟩

/-- Two steps, one after the other. -/
theorem grown_trans (h : Grown loose s t s' t') (h' : Grown loose s' t' s'' t'') :
    Grown loose s t s'' t'' := by
  obtain ⟨added, added', found, hleft, hright, hadded, -⟩ := h
  obtain ⟨more, more', found', hleft', hright', hmore, hids⟩ := h'
  exact ⟨added ++ more, added' ++ more', found ++ found', adds_trans hleft hleft',
    adds_trans hright hright', List.rel_append hadded hmore, hids⟩

/-- Both builders add a capture that checks the same. -/
theorem grown_push {capture capture' : Capture} (h : t.id = s.id)
    (hcapture : CapturesNarrow (Narrows loose) capture capture') :
    Grown loose s t (s.push capture) (t.push capture') :=
  ⟨[capture], [capture'], [], adds_push s capture, adds_push t capture', .cons hcapture .nil, h⟩

/-- Both builders give a new id. -/
theorem grown_id (h : t.id = s.id) :
    Grown loose s t { s with id := s.id + 1 } { t with id := t.id + 1 } :=
  ⟨[], [], [], ⟨(List.append_nil _).symm, (List.append_nil _).symm, rfl, rfl⟩,
    ⟨(List.append_nil _).symm, (List.append_nil _).symm, rfl, rfl⟩, .nil, congrArg (· + 1) h⟩

/-- Both builders have given the same ids. -/
theorem ids_of_grown (h : Grown loose s t s' t') : t'.id = s'.id := by
  obtain ⟨_, _, _, _, _, _, hids⟩ := h
  exact hids

/-- Captures that check the same are recorded alike. -/
theorem isRecorded_of_capturesNarrow {R : List Item → List Item → Prop}
    {captures captures' : List Capture} (h : List.Forall₂ (CapturesNarrow R) captures captures') :
    captures'.map Capture.isRecorded = captures.map Capture.isRecorded := by
  induction h with
  | nil => rfl
  | cons hfirst _ ih =>
    rw [List.map_cons, List.map_cons, ih]
    cases hfirst with
    | same => rfl
    | wild => rfl

/-- Builders that have grown are still paired. -/
theorem paired_of_grown (h : Paired source source' s t) (hgrown : Grown loose s t s' t') :
    Paired source source' s' t' := by
  obtain ⟨added, added', found, hleft, hright, hadded, hids⟩ := hgrown
  refine ⟨⟨hleft.querySource.trans h.left, hright.querySource.trans h.right, ?_⟩, hids, ?_⟩
  · rw [hright.regexConstraints, hleft.regexConstraints, h.constraints]
  · rw [hright.captures, hleft.captures, List.map_append, List.map_append, h.recorded,
      isRecorded_of_capturesNarrow hadded]

/-- Both builders use the same name next. -/
theorem count_of_paired (h : Paired source source' s t) :
    t.captures.length = s.captures.length := by
  have hlength := congrArg List.length h.recorded
  rwa [List.length_map, List.length_map] at hlength

/-- The last recorded capture depends on which captures are recorded. -/
theorem lastRecorded_eq (captures : List Capture) :
    lastRecorded captures =
      match (captures.map Capture.isRecorded).zipIdx.reverse.find? Prod.fst with
      | some entry => entry.2
      | none => -1 := by
  rw [List.zipIdx_map, ← List.map_reverse, List.find?_map]
  unfold lastRecorded
  have htest : (Prod.fst ∘ Prod.map Capture.isRecorded id : Capture × ℕ → Bool) =
      fun entry => entry.1.isRecorded := rfl
  rw [htest]
  cases captures.zipIdx.reverse.find? fun entry => entry.1.isRecorded with
  | none => rfl
  | some entry => rfl

/-- Negations get the same window in both runs. -/
theorem lastRecorded_of_paired (h : Paired source source' s t) :
    lastRecorded t.captures = lastRecorded s.captures := by
  rw [lastRecorded_eq, lastRecorded_eq, h.recorded]

/-- Texts that are equal, without any change to the builders. -/
theorem written_refl (h : t.id = s.id) (items : List Item) : Written loose s t items s items t :=
  ⟨grown_refl h, narrows_refl items⟩

/-- A narrower text with a capture behind it. -/
theorem written_captured {items items' : List Item} {capture capture' : Capture}
    (hset : Paired source source' s t) (h : Written loose s t items s' items' t')
    (hcapture : CapturesNarrow (Narrows loose) capture capture') :
    Written loose s t (items ++ [captureItem (toString s'.captures.length)]) (s'.push capture)
      (items' ++ [captureItem (toString t'.captures.length)]) (t'.push capture') := by
  obtain ⟨hgrown, hitems⟩ := h
  rw [count_of_paired (paired_of_grown hset hgrown)]
  exact ⟨grown_trans hgrown (grown_push (ids_of_grown hgrown) hcapture),
    narrows_append hitems (narrows_refl _)⟩

/-- A pattern with a capture of its own. -/
theorem written_leaf (hset : Paired source source' s t) (item : Item) (capture : Capture) :
    Written loose s t [item, captureItem (toString s.captures.length)] (s.push capture)
      [item, captureItem (toString t.captures.length)] (t.push capture) :=
  written_captured hset (written_refl hset.ids [item]) (.same capture)

end States

section Leaves

/-- Names do not depend on the mode. -/
theorem written_buildIdentifier (hset : Paired source source' s t)
    (halike : Alike source source' node node') (hkind : node.kind ∈ identifierKinds)
    {parent parent' : String} (hparents : parent = "declarator" ↔ parent' = "declarator") :
    Together Rejected (buildIdentifier node parent) (buildIdentifier node' parent') s t
      (Written loose s t) := by
  have hword := halike.word (List.mem_append_left _ hkind)
  have hitem : ∀ kind pattern, identifierItem kind pattern parent' =
      identifierItem kind pattern parent := by
    intro kind pattern
    have hparent : (parent' != "declarator") = (parent != "declarator") := by
      rw [Bool.eq_iff_iff, bne_iff_ne, bne_iff_ne]
      exact (not_congr hparents).symm
    rw [identifierItem, identifierItem, hparent]
  unfold buildIdentifier
  refine together_bind (together_getText hset.toSetting node node') ?_
  rintro pattern s pattern' t ⟨⟨rfl, rfl⟩, rfl, rfl⟩
  rw [hword, halike.kind]
  by_cases hwildcard : (slice source node.range == "_") = true
  · rw [if_pos hwildcard, if_pos hwildcard]
    exact together_pure (written_refl hset.ids _)
  · rw [if_neg hwildcard, if_neg hwildcard]
    refine together_get ?_
    rw [hset.constraints]
    refine together_bind (together_addCapture _ _) ?_
    rintro name s' name' t' ⟨⟨rfl, rfl⟩, rfl, rfl⟩
    rw [hitem]
    exact together_pure (written_leaf hset _ _)

/-- Numbers do not depend on the mode. -/
theorem written_buildNumber (hset : Paired source source' s t)
    (halike : Alike source source' node node') (hkind : node.kind = "number_literal") :
    Together Rejected (buildNumber node) (buildNumber node') s t (Written loose s t) := by
  have hword := halike.word (by rw [hkind]; decide)
  unfold buildNumber
  refine together_bind (together_getText hset.toSetting node node') ?_
  rintro pattern s pattern' t ⟨⟨rfl, rfl⟩, rfl, rfl⟩
  rw [hword]
  refine together_bind (together_addCapture _ _) ?_
  rintro name s' name' t' ⟨⟨rfl, rfl⟩, rfl, rfl⟩
  exact together_pure (written_leaf hset _ _)

/-- Strings do not depend on the mode. -/
theorem written_buildString (hset : Paired source source' s t)
    (halike : Alike source source' node node') (hkind : node.kind = "string_literal") :
    Together Rejected (buildString node) (buildString node') s t (WrittenOption loose s t) := by
  have hword := halike.word (by rw [hkind]; decide)
  unfold buildString
  refine together_bind (together_getText hset.toSetting node node') ?_
  rintro pattern s pattern' t ⟨⟨rfl, rfl⟩, rfl, rfl⟩
  rw [hword]
  refine together_bind (together_unwrap_same _) ?_
  rintro _ s unquoted t ⟨rfl, rfl, rfl⟩
  by_cases hvariable : startsWith unquoted '$' = true
  · rw [if_pos hvariable]
    refine together_get ?_
    rw [hset.constraints]
    refine together_bind (together_addCapture _ _) ?_
    rintro name s' name' t' ⟨⟨rfl, rfl⟩, rfl, rfl⟩
    exact together_pure (written_leaf hset _ _)
  · rw [if_neg hvariable]
    exact together_pure ⟨rfl, rfl⟩

end Leaves

section Recursive

/-- With a callee at hand the test for wildcard calls does not panic. -/
theorem isSubexprWildcard_eq (hsource : s.querySource = source)
    (hcallee : node.kind = "call_expression" → (node.childByFieldName "function").isSome = true) :
    isSubexprWildcard node s = .ok (isWildcardCall source node, s) := by
  unfold isSubexprWildcard isWildcardCall
  by_cases hkind : node.kind = "call_expression"
  · obtain ⟨callee, hfound⟩ := Option.isSome_iff_exists.mp (hcallee hkind)
    rw [hkind, hfound, ← hsource]
    rfl
  · have hbeq : (node.kind == "call_expression") = false := beq_eq_false_iff_ne.mpr hkind
    rw [bne, hbeq]
    rfl

/-- The callee of the same call is there too. -/
theorem callee_of_copy (h : Copy source source' (fuel + 1) node node')
    (hkind : node'.kind = "call_expression") :
    (node'.childByFieldName "function").isSome = true := by
  rw [(alike_of_copy h).kind] at hkind
  have hrel := held_childByFieldName h "function"
  have hsome := h.grammatical.callee node (mem_nodes_self node) hkind
  generalize node.childByFieldName "function" = callee at hrel hsome
  generalize node'.childByFieldName "function" = callee' at hrel ⊢
  cases hrel with
  | none => cases hsome
  | some _ => rfl

/-- Calls of the function `_` stay such calls. -/
theorem together_wildcard (hset : Setting source source' s t)
    (h : Copy source source' (fuel + 1) node node') :
    Together Rejected (isSubexprWildcard node) (isSubexprWildcard node') s t
      fun found s' found' t' =>
        (found = isWildcardCall source node ∧ found' = isWildcardCall source node) ∧
          s' = s ∧ t' = t := by
  unfold Together
  rw [isSubexprWildcard_eq hset.left (h.grammatical.callee node (mem_nodes_self node)),
    isSubexprWildcard_eq hset.right (callee_of_copy h), isWildcardCall_of_copy h]
  exact ⟨⟨rfl, rfl⟩, rfl, rfl⟩

/-- Expressions are settled. -/
theorem settled_of_mem {kinds : List String} (h : node.kind ∈ kinds)
    (hkinds : ∀ kind ∈ kinds, kind ≠ "compound_statement" ∧ kind ≠ "translation_unit" ∧
      kind ≠ "labeled_statement") : Settled source node :=
  settled_of_kind (hkinds _ h).1 (hkinds _ h).2.1 (hkinds _ h).2.2

/-- One order of narrower operands. -/
theorem narrows_operands {left left' right right' : List Item} (hleft : Narrows loose left left')
    (hright : Narrows loose right right') (op : String) :
    Narrows loose
      (.fieldName "left" :: left ++ [.fieldName "operator", .token op, .fieldName "right"] ++ right)
      (.fieldName "left" :: left' ++ [.fieldName "operator", .token op, .fieldName "right"] ++
        right') :=
  .keep _ (narrows_append (narrows_append hleft (narrows_refl _)) hright)

/-- An expression with narrower operands, in both orders. -/
theorem written_buildBinary (hbuild : BuildNarrows source source' fuel build build')
    (hset : Paired source source' s t) (h : Copy source source' (fuel + 1) node node')
    (hkind : node.kind = "binary_expression") (hmodes : Modes loose strict strict')
    (depth depth' : ℕ) :
    Together Rejected (buildBinary build node depth strict) (buildBinary build' node' depth' strict')
      s t (Written loose s t) := by
  have halike := alike_of_copy h
  have hsettled : Settled source node :=
    settled_of_mem (List.mem_singleton.mpr hkind) (by decide)
  unfold buildBinary
  rw [halike.kind]
  refine together_bind (together_unwrap (held_child h 0)) ?_
  rintro first s first' t ⟨hfirst, rfl, rfl⟩
  refine together_bind (hbuild.narrows hset
    (visits_below hfirst hmodes halike (.inr hsettled) depth depth' node.kind)) ?_
  rintro left s₁ left' t₁ ⟨hgrown, hleft⟩
  refine together_bind (together_unwrap (held_child h 1)) ?_
  rintro op s₁ op' t₁ ⟨hop, rfl, rfl⟩
  refine together_bind (together_unwrap (held_child h 2)) ?_
  rintro second s₁ second' t₁ ⟨hsecond, rfl, rfl⟩
  refine together_bind (hbuild.narrows (paired_of_grown hset hgrown)
    (visits_below hsecond hmodes halike (.inr hsettled) depth depth' node.kind)) ?_
  rintro right s₂ right' t₂ ⟨hgrown', hright⟩
  rw [(alike_of_copy hop.copy).kind]
  refine together_pure ⟨grown_trans hgrown hgrown', narrows_alternation ?_⟩
  exact .node _ (narrows_operands hleft hright _) (narrows_node _ (narrows_operands hright hleft _))

/-- A narrower right side with or without a cast. -/
theorem narrows_optionalCast {items items' : List Item} (h : Narrows loose items items') :
    Narrows loose (optionalCast items) (optionalCast items') :=
  narrows_alternation (.node _ (.keep _ h) h)

/-- An assignment with narrower sides. -/
theorem written_buildAssignment (hbuild : BuildNarrows source source' fuel build build')
    (hset : Paired source source' s t) (h : Copy source source' (fuel + 1) node node')
    (hkind : node.kind = "assignment_expression") (hmodes : Modes loose strict strict')
    (depth depth' : ℕ) :
    Together Rejected (buildAssignment build node depth strict)
      (buildAssignment build' node' depth' strict') s t (Written loose s t) := by
  have halike := alike_of_copy h
  have hsettled : Settled source node :=
    settled_of_mem (List.mem_singleton.mpr hkind) (by decide)
  have hbelow : ∀ {child child' : Node}, Held source source' fuel child child' →
      Visits source source' fuel loose node node' child child' (depth + 1) (depth' + 1) strict
        strict' node.kind node.kind :=
    fun hheld => visits_below hheld hmodes halike (.inr hsettled) depth depth' node.kind
  unfold buildAssignment
  rw [halike.kind]
  refine together_bind (together_unwrap (held_child h 0)) ?_
  rintro first s first' t ⟨hfirst, rfl, rfl⟩
  refine together_bind (hbuild.narrows hset (hbelow hfirst)) ?_
  rintro left s₁ left' t₁ ⟨hgrown, hleft⟩
  have hset₁ := paired_of_grown hset hgrown
  refine together_bind (together_unwrap (held_child h 1)) ?_
  rintro op s₁ op' t₁ ⟨hop, rfl, rfl⟩
  rw [(alike_of_copy hop.copy).kind, (alike_of_copy hfirst.copy).kind]
  by_cases hother : (op.kind != "=" || first.kind != "identifier") = true
  · rw [if_pos hother, if_pos hother]
    refine together_bind (hbuild.narrows hset₁ (hbelow hop)) ?_
    rintro operator s₂ operator' t₂ ⟨hgrown₂, hoperator⟩
    refine together_bind (together_unwrap (held_child h 2)) ?_
    rintro second s₂ second' t₂ ⟨hsecond, rfl, rfl⟩
    refine together_bind (hbuild.narrows (paired_of_grown hset₁ hgrown₂) (hbelow hsecond)) ?_
    rintro right s₃ right' t₃ ⟨hgrown₃, hright⟩
    refine together_pure ⟨grown_trans (grown_trans hgrown hgrown₂) hgrown₃, narrows_node _ ?_⟩
    exact .keep _ (narrows_append (narrows_append hleft hoperator)
      (.keep _ (narrows_optionalCast hright)))
  · rw [if_neg hother, if_neg hother]
    refine together_bind (together_unwrap (held_child h 2)) ?_
    rintro second s₁ second' t₁ ⟨hsecond, rfl, rfl⟩
    refine together_bind (hbuild.narrows hset₁ (hbelow hsecond)) ?_
    rintro right s₂ right' t₂ ⟨hgrown₂, hright⟩
    have hcast := narrows_optionalCast hright
    refine together_pure ⟨grown_trans hgrown hgrown₂, narrows_alternation ?_⟩
    refine .node _ (.keep _ (narrows_append hleft (.keep _ hcast))) ?_
    refine .node _ (.keep _ (narrows_append hleft (.keep _ hcast))) ?_
    exact narrows_node _ (.keep _ (.node _ (.keep _ hleft) (.keep _ hcast)))

/-- Negations are never built in strict mode, so they are equal. -/
theorem together_buildNegativeQuery (htree : TreeNarrows source source' fuel queryTree queryTree')
    (hset : Paired source source' s t) (h : Copy source source' (fuel + 1) node node')
    (loose : Bool) :
    Together Rejected (buildNegativeQuery queryTree node) (buildNegativeQuery queryTree' node') s t
      fun _ s' _ t' => Grown loose s t s' t' := by
  unfold buildNegativeQuery
  refine together_bind (together_unwrap (held_child h 2)) ?_
  rintro negated s negated' t ⟨hnegated, rfl, rfl⟩
  refine together_get ?_
  refine together_modify ?_
  refine together_get ?_
  have halike := alike_of_copy hnegated.copy
  have hparents : negated.kind = "declarator" ↔ negated'.kind = "declarator" := by
    rw [halike.kind]
  have hvisits : Visits source source' fuel false node node' negated negated' 0 0 false false
      negated.kind negated'.kind :=
    ⟨hnegated.copy, .inl rfl, fun _ => ⟨alike_of_copy h, .inl rfl⟩, .inl Iff.rfl, hparents⟩
  have hgrown : Grown loose s t { s with id := s.id + 1 } { t with id := t.id + 1 } :=
    grown_id hset.ids
  have hids : t.id + 1 = s.id + 1 := congrArg (· + 1) hset.ids
  rw [hids] at hgrown ⊢
  refine together_bind (htree.single (paired_of_grown hset hgrown) hvisits _) ?_
  rintro tree s' tree' t' ⟨rfl, rfl, hnarrow⟩
  obtain rfl := eq_of_treesNarrow (fun _ _ => eq_of_narrows) hnarrow
  rw [lastRecorded_of_paired hset]
  exact ⟨[], [], [⟨tree, lastRecorded s.captures⟩], ⟨(List.append_nil _).symm, rfl, rfl, rfl⟩,
    ⟨(List.append_nil _).symm, rfl, rfl, rfl⟩, .nil, rfl⟩

/-- Labelled statements. A label that falls through is settled. -/
theorem written_buildLabeled (hbuild : BuildNarrows source source' fuel build build')
    (htree : TreeNarrows source source' fuel queryTree queryTree') (hset : Paired source source' s t)
    (h : Copy source source' (fuel + 1) node node') (hkind : node.kind = "labeled_statement")
    {depth depth' : ℕ} (hdepths : depth = 0 ↔ depth' = 0) (loose : Bool) :
    Together Rejected (buildLabeled build queryTree node depth)
      (buildLabeled build' queryTree' node' depth') s t fun items s' items' t' =>
        WrittenOption loose s t items s' items' t' ∧ (items = none → Settled source node) := by
  have halike := alike_of_copy h
  unfold buildLabeled
  refine together_bind (together_unwrap_known (rel_label halike hkind)) ?_
  rintro first s first' t ⟨⟨⟨hfirst, -⟩, hsame⟩, rfl, rfl⟩
  refine together_bind (together_getText hset.toSetting first first') ?_
  rintro text s text' t ⟨⟨rfl, rfl⟩, rfl, rfl⟩
  rw [hsame]
  by_cases hnot : (toUppercase (slice source first.range) == "NOT") = true
  · rw [if_pos hnot, if_pos hnot]
    refine together_bind (together_buildNegativeQuery htree hset h loose) ?_
    intro _ s' _ t' hgrown
    exact together_pure ⟨⟨hgrown, .nil⟩, fun hnone => absurd hnone (Option.some_ne_none _)⟩
  rw [if_neg hnot, if_neg hnot]
  by_cases hstrict : (toUppercase (slice source first.range) == "STRICT") = true
  · rw [if_pos hstrict, if_pos hstrict, halike.kind]
    have hchild := held_namedChild h 1
    generalize node.namedChild 1 = child at hchild ⊢
    generalize node'.namedChild 1 = child' at hchild ⊢
    cases hchild with
    | none =>
      exact together_pure ⟨written_refl hset.ids _, fun hnone => absurd hnone (Option.some_ne_none _)⟩
    | @some child child' hheld =>
      have hvisits : Visits source source' fuel loose node node' child child' depth depth' true true
          node.kind node.kind :=
        ⟨hheld.copy, .inl rfl, fun _ => ⟨halike, .inl rfl⟩, .inl hdepths, Iff.rfl⟩
      refine together_bind (hbuild.narrows hset hvisits) ?_
      intro items s' items' t' hwritten
      exact together_pure ⟨hwritten, fun hnone => absurd hnone (Option.some_ne_none _)⟩
  · rw [if_neg hstrict, if_neg hstrict]
    refine together_pure ⟨⟨rfl, rfl⟩, fun _ => ⟨?_, ?_, fun _ => ?_⟩⟩
    · rw [hkind]
      decide
    · rw [hkind]
      decide
    · refine ⟨toUppercase (slice source first.range), ?_, ?_, ?_⟩
      · rw [label, hfirst, Option.map_some]
      · rwa [beq_iff_eq] at hnot
      · rwa [beq_iff_eq] at hstrict

/-- Blocks are never built in strict mode, so they are equal. -/
theorem written_buildCompound (htree : TreeNarrows source source' fuel queryTree queryTree')
    (hset : Paired source source' s t) (h : Copy source source' (fuel + 1) node node')
    (hkind : node.kind = "compound_statement") (up up' : Option Node) (loose : Bool) :
    Together Rejected (buildCompound queryTree up node) (buildCompound queryTree' up' node') s t
      (Written loose s t) := by
  unfold buildCompound
  refine together_modify ?_
  refine together_get ?_
  have hgrown : Grown loose s t { s with id := s.id + 1 } { t with id := t.id + 1 } :=
    grown_id hset.ids
  have hids : t.id + 1 = s.id + 1 := congrArg (· + 1) hset.ids
  rw [hids] at hgrown ⊢
  have hpaired := paired_of_grown hset hgrown
  refine together_bind (htree.block hpaired h hkind _) ?_
  rintro tree s' tree' t' ⟨rfl, rfl, rfl⟩
  refine together_bind (together_addCapture _ _) ?_
  rintro name s' name' t' ⟨⟨rfl, rfl⟩, rfl, rfl⟩
  obtain ⟨hpushed, htext⟩ := written_leaf hpaired (.node "compound_statement" [])
    (.subMultiQuery tree')
  exact together_pure ⟨grown_trans hgrown hpushed, htext⟩

/-- The sub-queries for the argument of a wildcard call. -/
theorem written_wildcardQuery (htree : TreeNarrows source source' fuel queryTree queryTree')
    (hset : Paired source source' s t) {up up' argument argument' : Node}
    (hup : Alike source source' up up') (hsettled : Settled source up)
    (hargument : Copy source source' fuel argument argument') (hmodes : Modes loose strict strict') :
    Together Rejected
      (do
        modify fun builder : QueryBuilder => { builder with id := builder.id + 1 }
        let qt ← queryTree (some up) argument (← get).id false strict
        let name ← addCapture (.subWildQuery qt)
        return some [.wildcard, captureItem name])
      (do
        modify fun builder : QueryBuilder => { builder with id := builder.id + 1 }
        let qt ← queryTree' (some up') argument' (← get).id false strict'
        let name ← addCapture (.subWildQuery qt)
        return some [.wildcard, captureItem name]) s t (WrittenOption loose s t) := by
  refine together_modify ?_
  refine together_get ?_
  have hgrown : Grown loose s t { s with id := s.id + 1 } { t with id := t.id + 1 } :=
    grown_id hset.ids
  have hids : t.id + 1 = s.id + 1 := congrArg (· + 1) hset.ids
  rw [hids] at hgrown ⊢
  have hpaired := paired_of_grown hset hgrown
  have hparents : argument.kind = "declarator" ↔ argument'.kind = "declarator" := by
    rw [(alike_of_copy hargument).kind]
  refine together_bind (htree.single hpaired
    ⟨hargument, hmodes, fun _ => ⟨hup, .inr hsettled⟩, .inl Iff.rfl, hparents⟩ _) ?_
  rintro tree s' tree' t' ⟨rfl, rfl, hnarrow⟩
  refine together_bind (together_addCapture _ _) ?_
  rintro name s' name' t' ⟨⟨rfl, rfl⟩, rfl, rfl⟩
  obtain ⟨hpushed, htext⟩ := written_captured hpaired (written_refl hpaired.ids [.wildcard])
    (.wild hnarrow)
  exact together_pure ⟨grown_trans hgrown hpushed, htext⟩

/-- A visit to a wildcard call builds its argument, or a sub-query for it. -/
theorem written_wildcardCall (hbuild : BuildNarrows source source' fuel build build')
    (htree : TreeNarrows source source' fuel queryTree queryTree') (hset : Paired source source' s t)
    (h : Copy source source' (fuel + 1) node node') (hkind : node.kind = "call_expression")
    (hwildcard : isWildcardCall source node = true) (hmodes : Modes loose strict strict')
    {depth depth' : ℕ} (hzero : depth = 0 ↔ depth' = 0) (parent : String) :
    Together Rejected (buildCallExpr build queryTree node depth strict parent)
      (buildCallExpr build' queryTree' node' depth' strict' parent) s t (WrittenOption loose s t) := by
  unfold buildCallExpr
  refine together_bind (together_wildcard hset.toSetting h) ?_
  rintro found s found' t ⟨⟨rfl, rfl⟩, rfl, rfl⟩
  rw [if_pos hwildcard, if_pos hwildcard]
  refine together_bind (together_unwrap_known (held_childByFieldName h "arguments")) ?_
  rintro list s list' t ⟨⟨⟨hlist, -⟩, hheld⟩, rfl, rfl⟩
  obtain ⟨hup, hsettled, hargument, hlength⟩ := copy_wildcardArgument h hkind hlist hheld
  simp only [hlength]
  by_cases hseveral : 2 ≤ (wildcardArgument node list).2.2.length
  · rw [if_pos hseveral, if_pos hseveral]
    exact together_pure ⟨rfl, rfl⟩
  rw [if_neg hseveral, if_neg hseveral]
  by_cases hdepth : depth = 0
  · rw [if_pos hdepth, if_pos (hzero.mp hdepth)]
    refine together_bind (hbuild.narrows hset
      ⟨hargument, hmodes, fun _ => ⟨hup, .inr hsettled⟩, .inl hzero, Iff.rfl⟩) ?_
    intro items s' items' t' hwritten
    exact together_pure hwritten
  · rw [if_neg hdepth, if_neg fun hdepth' => hdepth (hzero.mpr hdepth')]
    exact written_wildcardQuery htree hset hup hsettled hargument hmodes

/-- Calls of named functions: strict mode matters for the name only. -/
theorem written_namedCall (hbuild : BuildNarrows source source' fuel build build')
    (hset : Paired source source' s t) (h : Copy source source' (fuel + 1) node node')
    (hwildcard : ¬isWildcardCall source node = true) (hmodes : Modes loose strict strict')
    (depth depth' : ℕ) (parent : String) :
    Together Rejected (buildCallExpr build queryTree node depth strict parent)
      (buildCallExpr build' queryTree' node' depth' strict' parent) s t (WrittenOption loose s t) := by
  unfold buildCallExpr
  refine together_bind (together_wildcard hset.toSetting h) ?_
  rintro found s found' t ⟨⟨rfl, rfl⟩, rfl, rfl⟩
  rw [if_neg hwildcard, if_neg hwildcard]
  refine together_bind (together_unwrap (held_childByFieldName h "function")) ?_
  rintro callee s callee' t ⟨hcallee, rfl, rfl⟩
  refine together_bind (together_unwrap (held_childByFieldName h "arguments")) ?_
  rintro list s list' t ⟨hlist, rfl, rfl⟩
  have hcallee := alike_of_copy hcallee.copy
  rw [hcallee.kind]
  by_cases hother : (callee.kind != "identifier") = true
  · rw [if_pos hother, if_pos hother]
    exact together_pure ⟨rfl, rfl⟩
  rw [if_neg hother, if_neg hother]
  have hword : callee.kind ∈ wordKinds := by
    have hidentifier : callee.kind = "identifier" := by simpa using hother
    rw [hidentifier]
    decide
  refine together_bind (together_getText hset.toSetting callee callee') ?_
  rintro pattern s pattern' t ⟨⟨rfl, rfl⟩, rfl, rfl⟩
  rw [hcallee.word hword]
  by_cases hvariable : startsWith (slice source callee.range) '$' = true
  · rw [if_pos hvariable, if_pos hvariable]
    exact together_pure ⟨rfl, rfl⟩
  rw [if_neg hvariable, if_neg hvariable]
  refine together_bind (together_addCapture _ _) ?_
  rintro name s₁ name' t₁ ⟨⟨rfl, rfl⟩, rfl, rfl⟩
  have hgrown : Grown loose s t (s.push (.check (slice source callee.range)))
      (t.push (.check (slice source callee.range))) := grown_push hset.ids (.same _)
  have hvisits : Visits source source' fuel loose node node' list list' (depth + 1) (depth' + 1)
      false false parent parent :=
    visits_below hlist (.inl rfl) (alike_of_copy h) (.inl rfl) depth depth' parent
  refine together_bind (hbuild.narrows (paired_of_grown hset hgrown) hvisits) ?_
  rintro items s₂ items' t₂ ⟨hgrown', hitems⟩
  refine together_pure ⟨grown_trans hgrown hgrown', ?_⟩
  rw [count_of_paired hset]
  have harguments : Narrows loose (.fieldName "arguments" :: items)
      (.fieldName "arguments" :: items') := .keep _ hitems
  rcases hmodes with rfl | ⟨hloose, rfl, rfl⟩
  · exact narrows_node _ (.keep _ (narrows_append (narrows_refl _) harguments))
  · exact .call _ hloose harguments .nil

/-- Calls: of the function `_`, of a named function and others. -/
theorem written_buildCallExpr (hbuild : BuildNarrows source source' fuel build build')
    (htree : TreeNarrows source source' fuel queryTree queryTree') (hset : Paired source source' s t)
    (h : Copy source source' (fuel + 1) node node') (hkind : node.kind = "call_expression")
    (hmodes : Modes loose strict strict') {depth depth' : ℕ}
    (hdepths : DepthsAgree source node depth depth') (parent : String) :
    Together Rejected (buildCallExpr build queryTree node depth strict parent)
      (buildCallExpr build' queryTree' node' depth' strict' parent) s t (WrittenOption loose s t) := by
  by_cases hwildcard : isWildcardCall source node = true
  · refine written_wildcardCall hbuild htree hset h hkind hwildcard hmodes ?_ parent
    refine hdepths.resolve_right ?_
    rintro ⟨-, -, hnone⟩
    rw [hwildcard] at hnone
    cases hnone
  · exact written_namedCall hbuild hset h hwildcard hmodes depth depth' parent

/-- Which labels are special. -/
theorem hasMagicLabel_eq {p : Node} {word : String} (hsource : s.querySource = source)
    (hkind : p.kind = "labeled_statement") (hlabel : label source p = some word) :
    hasMagicLabel p s = .ok (word == "NOT" || word == "STRICT", s) := by
  unfold label at hlabel
  obtain ⟨first, hfirst, rfl⟩ := Option.map_eq_some_iff.mp hlabel
  unfold hasMagicLabel
  rw [hkind, hfirst, ← hsource]
  rfl

/-- Whether an expression statement is unwrapped, without a panic. -/
theorem shouldUnwrap_eq {p : Node} {magic : Bool} (hsource : s.querySource = source)
    (hcallee : node.kind = "call_expression" → (node.childByFieldName "function").isSome = true)
    (hmagic : hasMagicLabel p s = .ok (magic, s)) (strict : Bool) :
    shouldUnwrap node p strict s =
      .ok ((!strict || isWildcardCall source node) && magic && slice source node.range != "_", s) := by
  have hgreedy : isGreedy node strict s = .ok (!strict || isWildcardCall source node, s) := by
    cases strict with
    | true => exact isSubexprWildcard_eq hsource hcallee
    | false => rfl
  change (isGreedy node strict s >>= fun r => hasMagicLabel p r.2 >>= fun r' =>
    getText node r'.2 >>= fun r'' => _) = _
  rw [hgreedy]
  change (hasMagicLabel p s >>= fun r' => getText node r'.2 >>= fun r'' => _) = _
  rw [hmagic, ← hsource]
  rfl

/-- Below a label without a meaning nothing is unwrapped. -/
theorem shouldUnwrap_settled {p : Node} (hsource : s.querySource = source)
    (hcallee : node.kind = "call_expression" → (node.childByFieldName "function").isSome = true)
    (hsettled : Settled source p) (hkind : ["compound_statement", "labeled_statement",
      "translation_unit"].contains p.kind = true) (strict : Bool) :
    shouldUnwrap node p strict s = .ok (false, s) := by
  have hlabeled : p.kind = "labeled_statement" := by
    rw [List.contains_iff_mem] at hkind
    simpa [hsettled.block, hsettled.unit] using hkind
  obtain ⟨word, hlabel, hnot, hstrict⟩ := hsettled.label hlabeled
  have hmagic : hasMagicLabel p s = .ok (false, s) := by
    rw [hasMagicLabel_eq hsource hlabeled hlabel, beq_eq_false_iff_ne.mpr hnot,
      beq_eq_false_iff_ne.mpr hstrict]
    rfl
  rw [shouldUnwrap_eq hsource hcallee hmagic, Bool.and_false, Bool.false_and]

/-- The same part of the other pattern is settled too. -/
theorem settled_of_alike {p p' : Node} (h : Alike source source' p p') (hsettled : Settled source p) :
    Settled source' p' where
  block := by
    rw [h.kind]
    exact hsettled.block
  unit := by
    rw [h.kind]
    exact hsettled.unit
  label hkind := by
    rw [h.kind] at hkind
    rw [h.label hkind]
    exact hsettled.label hkind

/-- In one mode, or below a label without a meaning, both runs decide alike
whether an expression statement is unwrapped. -/
theorem together_shouldUnwrap_copy (hset : Setting source source' s t) {p p' : Node}
    (h : Copy source source' (fuel + 1) node node') (hup : Alike source source' p p')
    (hsteady : strict = strict' ∨ Settled source p) (hkind : ["compound_statement",
      "labeled_statement", "translation_unit"].contains p.kind = true) :
    Together Rejected (shouldUnwrap node p strict) (shouldUnwrap node' p' strict') s t
      fun found s' found' t' => (found' = found ∧ (found = true → strict = strict')) ∧
        s' = s ∧ t' = t := by
  have hread : (slice source' node'.range == "_") = (slice source node.range == "_") := by
    rw [Bool.eq_iff_iff, beq_iff_eq, beq_iff_eq]
    exact (alike_of_copy h).wildcard
  rcases hsteady with rfl | hsettled
  · unfold shouldUnwrap isGreedy
    have hgreedy : Together Rejected
        (if strict then isSubexprWildcard node else pure true : BuildM Bool)
        (if strict then isSubexprWildcard node' else pure true) s t
        fun greedy s' greedy' t' => greedy' = greedy ∧ s' = s ∧ t' = t := by
      cases strict with
      | false => exact together_pure ⟨rfl, rfl, rfl⟩
      | true =>
        unfold Together
        rw [if_pos rfl, if_pos rfl,
          isSubexprWildcard_eq hset.left (h.grammatical.callee node (mem_nodes_self node)),
          isSubexprWildcard_eq hset.right (callee_of_copy h)]
        exact ⟨isWildcardCall_of_copy h, rfl, rfl⟩
    refine together_bind hgreedy ?_
    rintro _ s greedy t ⟨rfl, rfl, rfl⟩
    refine together_bind (together_hasMagicLabel hset hup) ?_
    rintro _ s magic t ⟨rfl, rfl, rfl⟩
    refine together_bind (together_getText hset node node') ?_
    rintro text s text' t ⟨⟨rfl, rfl⟩, rfl, rfl⟩
    refine together_pure ⟨⟨?_, fun _ => rfl⟩, rfl, rfl⟩
    rw [bne, bne, hread]
  · have hkind' : ["compound_statement", "labeled_statement", "translation_unit"].contains
        p'.kind = true := by
      rw [hup.kind]
      exact hkind
    unfold Together
    rw [shouldUnwrap_settled hset.left (h.grammatical.callee node (mem_nodes_self node)) hsettled
      hkind strict, shouldUnwrap_settled hset.right (callee_of_copy h)
      (settled_of_alike hup hsettled) hkind' strict']
    exact ⟨⟨rfl, fun hfalse => absurd hfalse Bool.false_ne_true⟩, rfl, rfl⟩

/-- Expression statements that both runs replace by their expressions. -/
theorem written_buildExpressionStatement (hbuild : BuildNarrows source source' fuel build build')
    (hset : Paired source source' s t) (h : Copy source source' (fuel + 1) node node') {p p' : Node}
    (hup : Alike source source' p p') (hsteady : strict = strict' ∨ Settled source p)
    {depth depth' : ℕ} (hdepths : depth = 0 ↔ depth' = 0) :
    Together Rejected (buildExpressionStatement build (some p) node depth strict)
      (buildExpressionStatement build' (some p') node' depth' strict') s t
      (WrittenOption loose s t) := by
  have halike := alike_of_copy h
  unfold buildExpressionStatement
  have hchild := held_namedChild h 0
  generalize node.namedChild 0 = child at hchild ⊢
  generalize node'.namedChild 0 = child' at hchild ⊢
  cases hchild with
  | none => exact together_pure ⟨rfl, rfl⟩
  | @some child child' hheld =>
    obtain ⟨bound, rfl⟩ := exists_bound_of_copy hheld.copy
    simp only [hup.kind, halike.kind]
    by_cases hkind : ["compound_statement", "labeled_statement", "translation_unit"].contains
        p.kind = true
    · rw [if_pos hkind, if_pos hkind]
      refine together_bind
        (together_shouldUnwrap_copy hset.toSetting hheld.copy hup hsteady hkind) ?_
      rintro _ s found t ⟨⟨rfl, hmode⟩, rfl, rfl⟩
      cases found with
      | false => exact together_pure ⟨rfl, rfl⟩
      | true =>
        obtain rfl := hmode rfl
        refine together_bind (together_unwrap (held_child h 0)) ?_
        rintro first s first' t ⟨hfirst, rfl, rfl⟩
        have hvisits : Visits source source' (bound + 1) loose node node' first first' depth depth'
            strict strict node.kind node.kind :=
          ⟨hfirst.copy, .inl rfl, fun _ => ⟨halike, .inl rfl⟩, .inl hdepths, Iff.rfl⟩
        refine together_bind (hbuild.narrows hset hvisits) ?_
        intro items s' items' t' hwritten
        exact together_pure hwritten
    · rw [if_neg hkind, if_neg hkind]
      exact together_pure ⟨rfl, rfl⟩

/-- A declarator may be wrapped once more. -/
theorem narrows_declarator {items items' : List Item} (h : Narrows loose items items')
    (field : String) :
    Narrows loose [.fieldName field, .group [.alternation [.node "_" items, .group items]]]
      [.fieldName field, .group [.alternation [.node "_" items', .group items']]] :=
  .keep _ (narrows_group (narrows_alternation (.node _ h (narrows_group h))))

/-- A child one level deeper: tokens are copied, and named children are
visited. -/
theorem written_below (hbuild : BuildNarrows source source' fuel build build')
    (hset : Paired source source' s t) (halike : Alike source source' node node')
    {child child' : Node} (hheld : Held source source' fuel child child')
    (hmodes : Modes loose strict strict')
    (hsteady : child.isNamed = true → strict = strict' ∨ Settled source node) (depth depth' : ℕ)
    (parent : String) :
    Together Rejected (build (some node) child (depth + 1) strict parent)
      (build' (some node') child' (depth' + 1) strict' parent) s t (Written loose s t) := by
  by_cases hnamed : child.isNamed = true
  · exact hbuild.narrows hset
      (visits_below hheld hmodes halike (hsteady hnamed) depth depth' parent)
  · have hanonymous : child.isNamed = false := Bool.eq_false_iff.mpr hnamed
    have hchild := alike_of_copy hheld.copy
    have hheight' : child'.height ≤ fuel := by
      rw [height_of_mirrored hheld.copy.moved]
      exact hheld.copy.height
    rw [hbuild.token _ _ _ _ _ hheld.copy.height hanonymous,
      hbuild.token' _ _ _ _ _ hheight' (hchild.isNamed.trans hanonymous), hchild.kind]
    exact together_pure (written_refl hset.ids _)

/-- Named children of a node are visited like the node. -/
theorem written_buildChild (hbuild : BuildNarrows source source' fuel build build')
    (hset : Paired source source' s t) (halike : Alike source source' node node')
    {child child' : Node} (hheld : Held source source' fuel child child')
    (hmodes : Modes loose strict strict')
    (hsteady : child.isNamed = true → strict = strict' ∨ Settled source node) (anchoring : Bool)
    (depth depth' : ℕ) :
    Together Rejected (buildChild build node anchoring depth strict child)
      (buildChild build' node' anchoring depth' strict' child') s t (Written loose s t) := by
  have hchild := alike_of_copy hheld.copy
  have hbelow := written_below hbuild hset halike hheld hmodes hsteady depth depth'
  unfold buildChild
  rw [hheld.field, halike.kind]
  cases child.field with
  | some field =>
    refine together_bind (hbelow field) ?_
    rintro items s' items' t' ⟨hgrown, hitems⟩
    by_cases hdeclarator : (field == "declarator" && node.kind == "function_definition") = true
    · rw [if_pos hdeclarator, if_pos hdeclarator]
      exact together_pure ⟨hgrown, narrows_declarator hitems field⟩
    · rw [if_neg hdeclarator, if_neg hdeclarator]
      exact together_pure ⟨hgrown, .keep _ hitems⟩
  | none =>
    simp only [hchild.isNamed]
    by_cases hnamed : child.isNamed = true
    · rw [if_pos hnamed, if_pos hnamed]
      refine together_get ?_
      rw [hset.left, hset.right, isVariadic_of_alike hchild]
      by_cases hskipped : (node.kind == "argument_list" && isVariadic source child) = true
      · rw [if_pos hskipped, if_pos hskipped]
        exact together_pure (written_refl hset.ids _)
      · rw [if_neg hskipped, if_neg hskipped]
        refine together_bind (hbelow node.kind) ?_
        rintro items s' items' t' ⟨hgrown, hitems⟩
        cases anchoring with
        | true => exact together_pure ⟨hgrown, .keep _ hitems⟩
        | false => exact together_pure ⟨hgrown, hitems⟩
    · rw [if_neg hnamed, if_neg hnamed]
      refine together_bind (hbelow node.kind) ?_
      rintro items s' items' t' hwritten
      rw [hchild.kind]
      by_cases hkeyword : isKeyword child.kind = true
      · rw [if_pos hkeyword, if_pos hkeyword]
        refine together_bind (together_addCapture _ _) ?_
        rintro name s'' name' t'' ⟨⟨rfl, rfl⟩, rfl, rfl⟩
        exact together_pure (written_captured hset hwritten (.same .display))
      · rw [if_neg hkeyword, if_neg hkeyword]
        exact together_pure ⟨hwritten.1, .nil⟩

/-- The default loop. -/
theorem written_buildChildren (hbuild : BuildNarrows source source' fuel build build')
    (hset : Paired source source' s t) (halike : Alike source source' node node')
    (hmodes : Modes loose strict strict') (anchoring : Bool) (depth depth' : ℕ)
    {children children' : List Node}
    (hheld : List.Forall₂ (Held source source' fuel) children children')
    (hsteady : ∀ child ∈ children, child.isNamed = true → strict = strict' ∨ Settled source node) :
    Together Rejected (buildChildren build node anchoring depth strict children)
      (buildChildren build' node' anchoring depth' strict' children') s t (Written loose s t) := by
  induction hheld generalizing s t with
  | nil => exact together_pure (written_refl hset.ids _)
  | cons hfirst _ ih =>
    rw [List.forall_mem_cons] at hsteady
    rw [buildChildren, buildChildren]
    refine together_bind (written_buildChild hbuild hset halike hfirst hmodes hsteady.1 anchoring
      depth depth') ?_
    rintro items s₁ items' t₁ ⟨hgrown, hitems⟩
    refine together_bind (ih (paired_of_grown hset hgrown) hsteady.2) ?_
    rintro rest s₂ rest' t₂ ⟨hgrown', hrest⟩
    exact together_pure ⟨grown_trans hgrown hgrown', narrows_append hitems hrest⟩

/-- Nodes without a rule of their own. -/
theorem written_buildDefault (hbuild : BuildNarrows source source' fuel build build')
    (hset : Paired source source' s t) (h : Copy source source' (fuel + 1) node node')
    (hmodes : Modes loose strict strict')
    (hsteady : ∀ child ∈ node.children, child.isNamed = true →
      strict = strict' ∨ Settled source node) (depth depth' : ℕ) :
    Together Rejected (buildDefault build node depth strict)
      (buildDefault build' node' depth' strict') s t (Written loose s t) := by
  have halike := alike_of_copy h
  unfold buildDefault
  refine together_get ?_
  simp only [hset.left, hset.right, countP_isVariadic_of_copy h, namedChildCount_of_copy h,
    halike.kind, isEmpty_children_of_copy h]
  by_cases hnone : node.children.isEmpty = true
  · rw [if_pos hnone, if_pos hnone]
    exact together_pure (written_refl hset.ids _)
  · rw [if_neg hnone, if_neg hnone]
    refine together_bind (written_buildChildren hbuild hset halike hmodes _ depth depth'
      (held_children h) hsteady) ?_
    rintro items s' items' t' ⟨hgrown, hitems⟩
    have hnode : Written loose s t [.node node.kind items] s' [.node node.kind items'] t' :=
      ⟨hgrown, narrows_node node.kind hitems⟩
    by_cases hlist : (node.kind == "argument_list") = true
    · simp only [hlist, if_true]
      refine together_bind (together_addCapture _ _) ?_
      rintro name s'' name' t'' ⟨⟨rfl, rfl⟩, rfl, rfl⟩
      exact together_pure (written_captured hset hnode (.same _))
    · simp only [if_neg hlist]
      exact together_pure hnode

/-- A rule that always writes something. -/
theorem written_option {x y : BuildM (List Item)}
    (h : Together Rejected x y s t (Written loose s t)) :
    Together Rejected (some <$> x) (some <$> y) s t (WrittenOption loose s t) := together_map h

/-- The same expressions are built in both orders. -/
theorem isTransformable_of_copy (h : Copy source source' (fuel + 1) node node') :
    isTransformableBinaryExp node' = isTransformableBinaryExp node := by
  refine isTransformable_of_rel ?_
  have hop := held_child h 1
  generalize node.child 1 = op at hop ⊢
  generalize node'.child 1 = op' at hop ⊢
  cases hop with
  | none => exact .none
  | some hheld => exact .some (alike_of_copy hheld.copy).kind

/-- The special cases for everything but blocks and labelled statements. -/
theorem written_buildSpecial_expression (hbuild : BuildNarrows source source' fuel build build')
    (htree : TreeNarrows source source' fuel queryTree queryTree') (hset : Paired source source' s t)
    {p p' : Node} {depth depth' : ℕ} {parent parent' : String}
    (h : Visits source source' (fuel + 1) loose p p' node node' depth depth' strict strict' parent
      parent') (hlabeled : node.kind ≠ "labeled_statement")
    (hcompound : node.kind ≠ "compound_statement") :
    Together Rejected (buildSpecial build queryTree (some p) node depth strict parent)
      (buildSpecial build' queryTree' (some p') node' depth' strict' parent') s t
      (WrittenOption loose s t) := by
  have hcopy := h.copy
  have halike := alike_of_copy hcopy
  unfold buildSpecial
  rw [halike.kind, isTransformable_of_copy hcopy]
  by_cases hbinary : node.kind = "binary_expression"
  · rw [if_pos hbinary, if_pos hbinary]
    split_ifs
    · exact written_option (written_buildBinary hbuild hset hcopy hbinary h.modes depth depth')
    · exact together_pure ⟨rfl, rfl⟩
  rw [if_neg hbinary, if_neg hbinary, if_neg hlabeled, if_neg hlabeled, if_neg hcompound,
    if_neg hcompound]
  by_cases hidentifier : node.kind ∈ identifierKinds
  · rw [if_pos hidentifier, if_pos hidentifier]
    exact written_option (written_buildIdentifier hset halike hidentifier h.parents)
  rw [if_neg hidentifier, if_neg hidentifier]
  by_cases hassignment : node.kind = "assignment_expression"
  · rw [if_pos hassignment, if_pos hassignment]
    exact written_option
      (written_buildAssignment hbuild hset hcopy hassignment h.modes depth depth')
  rw [if_neg hassignment, if_neg hassignment]
  by_cases hcall : node.kind = "call_expression"
  · rw [if_pos hcall, if_pos hcall]
    exact written_buildCallExpr hbuild htree hset hcopy hcall h.modes h.depths node.kind
  rw [if_neg hcall, if_neg hcall]
  by_cases hstatement : node.kind = "expression_statement"
  · rw [if_pos hstatement, if_pos hstatement]
    obtain ⟨hup, hsteady⟩ := h.steady hstatement
    have hdepths : depth = 0 ↔ depth' = 0 := by
      rcases h.depths with hzero | ⟨-, hother, -⟩
      · exact hzero
      · exact absurd hstatement hother
    exact written_buildExpressionStatement hbuild hset hcopy hup hsteady hdepths
  rw [if_neg hstatement, if_neg hstatement]
  by_cases hnumber : node.kind = "number_literal"
  · rw [if_pos hnumber, if_pos hnumber]
    exact written_option (written_buildNumber hset halike hnumber)
  rw [if_neg hnumber, if_neg hnumber]
  by_cases hstring : node.kind = "string_literal"
  · rw [if_pos hstring, if_pos hstring]
    exact written_buildString hset halike hstring
  rw [if_neg hstring, if_neg hstring]
  exact together_pure ⟨rfl, rfl⟩

/-- When the default case applies, named children stay out of reach of
unwrapping. -/
theorem written_buildSpecial (hbuild : BuildNarrows source source' fuel build build')
    (htree : TreeNarrows source source' fuel queryTree queryTree') (hset : Paired source source' s t)
    {p p' : Node} {depth depth' : ℕ} {parent parent' : String}
    (h : Visits source source' (fuel + 1) loose p p' node node' depth depth' strict strict' parent
      parent') :
    Together Rejected (buildSpecial build queryTree (some p) node depth strict parent)
      (buildSpecial build' queryTree' (some p') node' depth' strict' parent') s t
      fun items s' items' t' => WrittenOption loose s t items s' items' t' ∧
        (items = none → ∀ child ∈ node.children, child.isNamed = true → Settled source node) := by
  have hcopy := h.copy
  have halike := alike_of_copy hcopy
  by_cases hlabeled : node.kind = "labeled_statement"
  · have hdepths : depth = 0 ↔ depth' = 0 := by
      rcases h.depths with hzero | ⟨hother, -, -⟩
      · exact hzero
      · exact absurd hlabeled hother
    unfold buildSpecial
    have hbinary : ¬node.kind = "binary_expression" := by
      rw [hlabeled]
      decide
    rw [halike.kind, if_neg hbinary, if_neg hbinary, if_pos hlabeled, if_pos hlabeled]
    refine together_mono (written_buildLabeled hbuild htree hset hcopy hlabeled hdepths loose) ?_
    rintro items s' items' t' ⟨hwritten, hsettled⟩
    exact ⟨hwritten, fun hnone _ _ _ => hsettled hnone⟩
  by_cases hcompound : node.kind = "compound_statement"
  · unfold buildSpecial
    have hbinary : ¬node.kind = "binary_expression" := by
      rw [hcompound]
      decide
    rw [halike.kind, namedChildCount_of_copy hcopy, if_neg hbinary, if_neg hbinary,
      if_neg hlabeled, if_neg hlabeled, if_pos hcompound, if_pos hcompound]
    split_ifs with hcount
    · refine together_map (together_mono
        (written_buildCompound htree hset hcopy hcompound _ _ loose) ?_)
      intro items s' items' t' hwritten
      exact ⟨hwritten, fun hnone => absurd hnone (Option.some_ne_none _)⟩
    · refine together_pure ⟨⟨rfl, rfl⟩, ?_⟩
      intro _ child hchild hnamed
      have hmem : child ∈ node.namedChildren := List.mem_filter.mpr ⟨hchild, hnamed⟩
      exact absurd (List.length_pos_of_mem hmem) hcount
  · have hsettled : Settled source node :=
      settled_of_kind hcompound (hcopy.grammatical.unit node (mem_nodes_self node)) hlabeled
    refine together_mono
      (written_buildSpecial_expression hbuild htree hset h hlabeled hcompound) ?_
    intro items s' items' t' hwritten
    exact ⟨hwritten, fun _ _ _ _ => hsettled⟩

/-- Any part, when its own parts are narrower. -/
theorem written_buildBody (hbuild : BuildNarrows source source' fuel build build')
    (htree : TreeNarrows source source' fuel queryTree queryTree') (hset : Paired source source' s t)
    {p p' : Node} {depth depth' : ℕ} {parent parent' : String}
    (h : Visits source source' (fuel + 1) loose p p' node node' depth depth' strict strict' parent
      parent') :
    Together Rejected (buildBody build queryTree (some p) node depth strict parent)
      (buildBody build' queryTree' (some p') node' depth' strict' parent') s t
      (Written loose s t) := by
  have halike := alike_of_copy h.copy
  unfold buildBody
  rw [halike.isNamed, halike.kind]
  by_cases hnamed : node.isNamed = true
  · have htoken : ¬(!node.isNamed) = true := by simpa using hnamed
    rw [if_neg htoken, if_neg htoken]
    refine together_bind (written_buildSpecial hbuild htree hset h) ?_
    rintro items s' items' t' ⟨hwritten, hsettled⟩
    cases items with
    | some items =>
      cases items' with
      | some items' => exact together_pure hwritten
      | none => cases hwritten
    | none =>
      cases items' with
      | some items' => cases hwritten
      | none =>
        obtain ⟨rfl, rfl⟩ := hwritten
        exact written_buildDefault hbuild hset h.copy h.modes
          (fun child hchild hchildNamed => .inr (hsettled rfl child hchild hchildNamed)) depth depth'
  · have htoken : (!node.isNamed) = true := by simpa using hnamed
    rw [if_pos htoken, if_pos htoken]
    exact together_pure (written_refl hset.ids _)

end Recursive

end WeggliEnhance.StrictBuilding
