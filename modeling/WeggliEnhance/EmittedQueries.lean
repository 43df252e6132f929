import WeggliEnhance.CaptureNumbering
import WeggliEnhance.OutlineSpecification
import WeggliEnhance.PatternSurvey
import WeggliEnhance.SearchPatterns

/-!
# Texts passed to tree-sitter

The builder passes one text for each query of a search pattern to `ts_query`.
All of them are well-formed exactly when the survey of the pattern finds no
token and no constant with an open quote, no field without text and no empty
query. A wide string literal copies the opener of its kind, quote included,
between quotes.
-/

namespace WeggliEnhance.EmittedQueries

open SourceText SyntaxTree QueryText ThirdParty QueryTrees PatternBuilder BuilderEmission
  BuilderSpecification QueryTreeConstruction CaptureNumbering FallibleState QueryOutline
  OutlineSpecification QueryGrammar PatternSurvey SearchPatterns

/-- Tree-sitter that accepts every text, so that building a pattern goes on
until all texts have been passed. -/
def lenient (externals : Externals) : Externals := { externals with queryError := fun _ => none }

/-- All texts that building a search pattern passes to `ts_query`. -/
def passedTexts (externals : Externals) (source : String) (up : Option Node) (root : Node)
    (constraints : RegexMap) : Except BuildError (List (List Item)) :=
  (buildQueryTree (lenient externals) source up root constraints).map fun tree =>
    tree.trees.map fun t => t.query.text.flatten

/-- Building a search pattern passes well-formed texts only. -/
def EmitsWellFormed (externals : Externals) (source : String) (up : Option Node) (root : Node)
    (constraints : RegexMap) : Prop :=
  ∃ texts, passedTexts externals source up root constraints = .ok texts ∧
    ∀ text ∈ texts, WellFormedText (lexemesOf text)

section Tags

variable {captures : List Capture}

/-- The names in predicates are numbers, so that only constants matter. -/
theorem fits_predicateTags {lower upper : ℕ} :
    (∀ tag ∈ predicateTags captures lower upper, Tag.Fits tag) ↔
      ∀ i text, lower ≤ i ∧ i < upper → captures[i]? = some (.check text) →
        isEscaped text.toList = true := by
  constructor
  · intro h i text hi hcheck
    have htag := h _ (mem_predicateTags.mpr (.inl ⟨i, text, hi, hcheck, rfl⟩))
    exact htag (.quoted text) (by simp [Tag.lexemes])
  · intro h tag htag
    rcases mem_predicateTags.mp htag with ⟨i, text, hi, hcheck, rfl⟩ |
      ⟨name, first, rest, -, i, -, rfl⟩
    · have htext := h i text hi hcheck
      simp only [Tag.Fits, Tag.lexemes, List.forall_mem_cons, Lexeme.isSpelled, isWord_toString,
        htext, true_and]
      exact List.forall_mem_nil _
    · simp only [Tag.Fits, Tag.lexemes, List.forall_mem_cons, Lexeme.isSpelled, isWord_toString,
        true_and]
      exact List.forall_mem_nil _

theorem fits_captureTags (indices : List ℕ) : ∀ tag ∈ indices.map captureTag, Tag.Fits tag := by
  intro tag htag
  obtain ⟨i, -, rfl⟩ := List.mem_map.mp htag
  exact List.forall_mem_singleton.mpr (isWord_toString i)

/-- All tags of a text fit exactly when the constants of the captures do. -/
theorem fits_tagsOf {text : List (List Item)} {lower : ℕ} (h : TextLayout captures lower text) :
    (∀ tag ∈ tagsOf text.flatten, Tag.Fits tag) ↔
      ∀ i constant, lower ≤ i → captures[i]? = some (.check constant) →
        isEscaped constant.toList = true := by
  induction text generalizing lower with
  | nil =>
    refine iff_of_true (List.forall_mem_nil _) ?_
    intro i constant hi hcheck
    have hlower : lower = captures.length := h
    rw [List.getElem?_eq_none (hlower ▸ hi)] at hcheck
    cases hcheck
  | cons items text ih =>
    obtain ⟨upper, ⟨-, before, after, htags, hnumbers, -⟩, hrest⟩ := h
    rw [List.flatten_cons, tagsOf_append, List.forall_mem_append, ih hrest, htags,
      List.forall_mem_append, List.forall_mem_append, fits_predicateTags]
    have hle : lower ≤ upper := hnumbers.1
    constructor
    · rintro ⟨⟨⟨-, hinside⟩, -⟩, hbehind⟩ i constant hi hcheck
      obtain hlt | hge := lt_or_ge i upper
      · exact hinside i constant ⟨hi, hlt⟩ hcheck
      · exact hbehind i constant hge hcheck
    · intro hall
      refine ⟨⟨⟨fits_captureTags before, ?_⟩, fits_captureTags after⟩, ?_⟩
      · exact fun i constant hi => hall i constant hi.1
      · exact fun i constant hi => hall i constant (hle.trans hi)

end Tags

theorem tidy_flatten {text : List (List Item)} (h : ∀ pattern ∈ text, Tidy false pattern) :
    Tidy false text.flatten := by
  induction text with
  | nil => trivial
  | cons pattern text ih =>
    obtain ⟨hpattern, htext⟩ := List.forall_mem_cons.mp h
    rw [List.flatten_cons, tidy_append]
    exact ⟨hpattern, tidy_mono (ih htext)⟩

theorem stripOf_flatten (text : List (List Item)) :
    stripOf text.flatten = (text.map stripOf).flatten := by
  induction text with
  | nil => rfl
  | cons pattern text ih => rw [List.flatten_cons, stripOf_append, ih, List.map_cons,
      List.flatten_cons]

/-- The text of a query is well-formed exactly when its outline can be read. -/
theorem wellFormedText_tree {externals : Externals} {constraints : RegexMap} {tree : QueryTree}
    (hwell : WellFormed externals constraints tree) (htidy : TidyTree tree) :
    WellFormedText (lexemesOf tree.query.text.flatten) ↔ ReadableQuery (outlinedOf tree) := by
  have hstrip := fitsBetween_strip tree.query.text.flatten .openBracket .closeBracket
    (tidy_flatten htidy) (.inl rfl)
  rw [wellFormedText_iff, hstrip, fits_tagsOf hwell.layout, readableQuery_iff, outlinedOf,
    stripOf_flatten]
  refine and_congr Iff.rfl ?_
  simp only [List.mem_filterMap]
  constructor
  · rintro hall constant ⟨capture, hcapture, htext⟩
    obtain ⟨i, hi⟩ := List.mem_iff_getElem?.mp hcapture
    cases capture with
    | check text =>
      cases htext
      exact hall i constant (Nat.zero_le i) hi
    | _ => cases htext
  · intro hall i constant _ hcheck
    exact hall constant ⟨.check constant, List.mem_of_getElem? hcheck, rfl⟩

/-- All texts of a finished tree are well-formed exactly when its search
pattern is sound. -/
theorem wellFormedText_trees {externals : Externals} {source : String} {up : Option Node}
    {root : Node} {constraints : RegexMap} {tree : QueryTree}
    (hbuild : buildQueryTree externals source up root constraints = .ok tree) :
    (∀ t ∈ tree.trees, WellFormedText (lexemesOf t.query.text.flatten)) ↔
      isPatternSound source up root = true := by
  have hfinished := outcome_ok (finished_buildQueryTree externals source up root constraints) hbuild
  obtain ⟨hperm, htidy⟩ := outlined_buildQueryTree hbuild
  have houtlined : (∀ query ∈ patternOutline source up root, ReadableQuery query) ↔
      ∀ t ∈ tree.trees, ReadableQuery (outlinedOf t) := by
    simp only [← hperm.mem_iff, List.forall_mem_map]
  rw [← readable_patternOutline, houtlined]
  exact forall₂_congr fun t ht => wellFormedText_tree (hfinished.wellFormed t ht) (htidy t ht)

/-- The texts that building a search pattern passes to `ts_query` are
well-formed exactly when the pattern is sound. -/
theorem emitsWellFormed_iff {externals : Externals} {source : String} {up : Option Node}
    {root : Node} {constraints : RegexMap} {tree : QueryTree}
    (hbuild : buildQueryTree (lenient externals) source up root constraints = .ok tree) :
    EmitsWellFormed externals source up root constraints ↔
      isPatternSound source up root = true := by
  rw [← wellFormedText_trees hbuild, EmitsWellFormed, passedTexts, hbuild]
  constructor
  · rintro ⟨texts, hpassed, hall⟩
    cases hpassed
    exact fun t ht => hall _ (List.mem_map_of_mem ht)
  · intro hall
    refine ⟨_, rfl, ?_⟩
    intro text htext
    obtain ⟨t, ht, rfl⟩ := List.mem_map.mp htext
    exact hall t ht

/-- When tree-sitter compiles well-formed texts only, a search pattern that is
not sound is never built. -/
theorem isPatternSound_of_buildQueryTree {externals : Externals} {source : String}
    {up : Option Node} {root : Node} {constraints : RegexMap} {tree : QueryTree}
    (haccepted : ∀ text, externals.queryError text = none →
      WellFormedText (lexemesOf text.flatten))
    (hbuild : buildQueryTree externals source up root constraints = .ok tree) :
    isPatternSound source up root = true := by
  have hfinished := outcome_ok (finished_buildQueryTree externals source up root constraints) hbuild
  refine (wellFormedText_trees hbuild).mp ?_
  intro t ht
  exact haccepted t.query.text (hfinished.wellFormed t ht).accepted

/-- The search pattern `{L"a";}`, a block that holds a wide string. -/
def wideBlock : Node :=
  rule 1 "compound_statement" 0 7
    [token 2 "\x7b" 0 1,
     rule 3 "expression_statement" 1 6
      [rule 4 "string_literal" 1 5
        [token 5 "L\"" 1 3, rule 6 "string_content" 3 4 [], token 7 "\"" 4 5],
       token 8 ";" 5 6],
     token 9 "\x7d" 6 7]

/-- The root of the pattern with the wide string. -/
def wideRoot : Node := rule 0 "translation_unit" 0 7 [wideBlock]

/-- The text of the pattern with the wide string. -/
def wideText : String := "\x7bL\"a\";\x7d"

/-- The pattern `{$x;}` is built and sound, the one with the wide string is
built and not sound. -/
theorem emitsWellFormed_iff_sample :
    (EmitsWellFormed sampleExternals samplePatternText (some samplePatternRoot) samplePattern ∅ ↔
      isPatternSound samplePatternText (some samplePatternRoot) samplePattern = true) ∧
      isPatternSound samplePatternText (some samplePatternRoot) samplePattern = true ∧
      isPatternSound wideText (some wideRoot) wideBlock = false := by
  have hbuild : buildQueryTree (lenient sampleExternals) samplePatternText
      (some samplePatternRoot) samplePattern ∅ = .ok sampleTree := by rfl
  exact ⟨emitsWellFormed_iff hbuild, by decide +kernel, by decide +kernel⟩

/-- A pattern without syntax errors holds a wide string. It is accepted, and
the text passed for its block leaves a string open: the opener is copied with
its quote. -/
theorem not_emitsWellFormed_wideBlock :
    validateQuery ⟨fun _ => false, fun _ => false, fun _ => false⟩ wideRoot wideText false =
        .ok (some wideRoot, wideBlock) ∧
      ¬EmitsWellFormed sampleExternals wideText (some wideRoot) wideBlock ∅ := by
  have hscan : (passedTexts sampleExternals wideText (some wideRoot) wideBlock ∅).map
      (fun texts => texts.map fun text => scan [] .outside (spell (lexemesOf text))) =
        .ok [true, false] := by
    decide +kernel
  refine ⟨rfl, ?_⟩
  rintro ⟨texts, hpassed, hall⟩
  rw [hpassed] at hscan
  have hclosed : texts.map (fun text => scan [] .outside (spell (lexemesOf text))) =
      [true, false] := Except.ok.inj hscan
  have hmem : false ∈ texts.map fun text => scan [] .outside (spell (lexemesOf text)) := by
    rw [hclosed]
    decide
  obtain ⟨text, htext, hfalse⟩ := List.mem_map.mp hmem
  rw [(hall text htext).closed] at hfalse
  cases hfalse

end WeggliEnhance.EmittedQueries
