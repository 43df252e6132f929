import WeggliEnhance.RuleFiles

/-!
# Rule references of the report

Every result of a SARIF document refers to a rule by its id and by an index
into the rules of the tool component. `main` writes one descriptor for a whole
rule file, while the index is the position of the work item among all patterns
of the file. The references resolve exactly when only the first pattern makes
a report of its own.
-/

namespace WeggliEnhance.RuleReferences

open SourceText SyntaxTree ThirdParty QueryTrees QueryResults QueryEngine PatternBuilder
  FallibleState RegexRules SearchPatterns PipelineWork PipelineSchedules ChainFilter Interleaving
  SarifReport RuleFiles

/-- The index of every result is valid, and the descriptor there has the id of
the result. -/
def ReferencesResolve (document : Document) : Prop :=
  ∀ result ∈ document.results, 0 ≤ result.ruleIndex ∧
    ∃ descriptor, document.rules[result.ruleIndex.toNat]? = some descriptor ∧
      descriptor.id = result.ruleId

/-- Every result of a later pattern stands behind a result with the same path,
start line and issue. -/
def LaterPatternsRepeat (results : List ResultsCtx) : Prop :=
  ∀ before r after, results = before ++ r :: after → r.queryIndex ≠ 0 →
    ∃ earlier ∈ before, resultKey earlier = resultKey r

section Compiled

variable {env : Environment} {rules : Rules} {work : List WorkItem}

/-- All patterns of a rule file report its issue. -/
theorem issue_compileRules (h : compileRules env rules = .ok work) :
    ∀ item ∈ work, item.issue = rules.issue := by
  obtain ⟨parts, hparts, heq⟩ := exists_of_bind_eq_ok h
  cases heq
  intro item hitem
  obtain ⟨part, hpart, hmem⟩ := List.mem_flatten.mp hitem
  obtain ⟨rule, -, hrule⟩ := exists_of_mem_mapM hparts part hpart
  unfold compileRule at hrule
  split at hrule
  · cases hrule
  · rename_i constraints _
    obtain ⟨items, hitems, hreturn⟩ := exists_of_bind_eq_ok hrule
    split_ifs at hreturn
    · cases hreturn
      obtain ⟨pattern, -, hpattern⟩ := exists_of_mem_mapM hitems item hmem
      unfold compilePattern at hpattern
      split at hpattern
      · cases hpattern
        rfl
      · cases hpattern
      · cases hpattern

theorem issue_executeItems {externals : Externals} {options : Options} {file : ParsedFile}
    {issue : String} {i : ℕ} {results : List ResultsCtx}
    (hwork : ∀ item ∈ work, item.issue = issue)
    (h : executeItems externals options file i work = .ok results) :
    ∀ r ∈ results, r.issue = issue := by
  induction work generalizing i results with
  | nil =>
    cases h
    simp
  | cons item work ih =>
    obtain ⟨found, rest, hfound, hrest, rfl⟩ := executeItems_cons_eq_ok.mp h
    obtain ⟨ms, -, rfl⟩ := exists_of_map_eq_ok hfound
    intro r hr
    rcases List.mem_append.mp hr with hfirst | hlater
    · obtain ⟨m, -, rfl⟩ := List.mem_map.mp hfirst
      exact hwork item List.mem_cons_self
    · exact ih (fun other hother => hwork other (List.mem_cons_of_mem item hother)) hrest r hlater

/-- Everything that a finished run collects for a rule file has its issue. -/
theorem issue_collected {pipeline : Pipeline} (hcompile : compileRules env rules = .ok work)
    (hrun : Run env.externals work env.options (.start env.files) pipeline)
    (hfinished : pipeline.Finished) : ∀ r ∈ pipeline.collected, r.issue = rules.issue := by
  intro r hr
  obtain ⟨file, found, hfound, hmem⟩ := exists_of_mem_collected hrun hfinished hr
  exact issue_executeItems (issue_compileRules hcompile) hfound r hmem

end Compiled

/-- A finding has the position and the issue of its result. -/
theorem outputOf_origin (r : ResultsCtx) :
    (outputOf r).queryIndex = r.queryIndex ∧ (outputOf r).issue = r.issue := by
  unfold outputOf
  cases h : toOutput r with
  | none => exact ⟨rfl, rfl⟩
  | some output =>
    simp only [toOutput, Option.bind_eq_bind, Option.bind_eq_some_iff] at h
    obtain ⟨startLine, -, startColumn, -, endLine, -, endColumn, -, heq⟩ := h
    cases heq
    exact ⟨rfl, rfl⟩

/-- Findings are told apart like the results they come from. -/
theorem dedupKey_eq_iff {r s : ResultsCtx} (hr : (toOutput r).isSome = true)
    (hs : (toOutput s).isSome = true) :
    dedupKey (outputOf r) = dedupKey (outputOf s) ↔ resultKey r = resultKey s := by
  rw [resultKey_eq hr, resultKey_eq hs]
  simp only [dedupKey, sarifKey, sarifResult, Prod.mk.injEq, Option.some.injEq]

/-- The results of a document are those that no result before them repeats. -/
theorem mem_results_iff {results : List ResultsCtx} {rules : List ReportingDescriptor}
    {document : Document} (h : generateSarif results rules = some document)
    {result : SarifResult} :
    result ∈ document.results ↔ ∃ before r after, results = before ++ r :: after ∧
      result = sarifResult (outputOf r) ∧
      ∀ earlier ∈ before, resultKey earlier ≠ resultKey r := by
  obtain ⟨unique, hunique, rfl⟩ := Option.map_eq_some_iff.mp h
  rw [uniqueResults_eq] at hunique
  split_ifs at hunique with hall
  cases hunique
  rw [List.mem_map]
  simp only [mem_firstWins_iff, List.not_mem_nil, not_false_eq_true, true_and]
  constructor
  · rintro ⟨output, ⟨outputs, rest, hlist, hfirst⟩, rfl⟩
    obtain ⟨before, tail, hresults, rfl, htail⟩ := List.map_eq_append_iff.mp hlist
    obtain ⟨r, after, rfl, rfl, -⟩ := List.map_eq_cons_iff.mp htail
    refine ⟨before, r, after, hresults, rfl, ?_⟩
    intro earlier hearlier hkey
    refine hfirst (outputOf earlier) (List.mem_map_of_mem hearlier) ?_
    rw [hresults] at hall
    exact (dedupKey_eq_iff (hall earlier (by simp [hearlier])) (hall r (by simp))).mpr hkey
  · rintro ⟨before, r, after, rfl, rfl, hfirst⟩
    refine ⟨outputOf r, ⟨before.map outputOf, after.map outputOf, by simp, ?_⟩, rfl⟩
    intro output houtput hkey
    obtain ⟨earlier, hearlier, rfl⟩ := List.mem_map.mp houtput
    exact hfirst earlier hearlier
      ((dedupKey_eq_iff (hall earlier (by simp [hearlier])) (hall r (by simp))).mp hkey)

section Reports

variable {env : Environment} {rules : Rules} {work : List WorkItem} {pipeline : Pipeline}
  {document : Document}

/-- The references of a document resolve exactly when every result of a later
pattern stands behind one with the same path, start line and issue, so that it
is not written. -/
theorem referencesResolve_iff (hcompile : compileRules env rules = .ok work)
    (hrun : Run env.externals work env.options (.start env.files) pipeline)
    (hfinished : pipeline.Finished)
    (hdocument : generateSarif (filterChainableResults pipeline.collected) (descriptors rules) =
      some document) :
    ReferencesResolve document ↔
      LaterPatternsRepeat (filterChainableResults pipeline.collected) := by
  have hissue : ∀ r ∈ filterChainableResults pipeline.collected, r.issue = rules.issue := by
    intro r hr
    rw [filterChainableResults_eq] at hr
    exact issue_collected hcompile hrun hfinished r (List.mem_filter.mp hr).1
  have hrules : document.rules = descriptors rules := by
    obtain ⟨unique, -, rfl⟩ := Option.map_eq_some_iff.mp hdocument
    rfl
  constructor
  · intro hresolve before r after hresults hlater
    by_contra hfirst
    push Not at hfirst
    have hmem : sarifResult (outputOf r) ∈ document.results :=
      (mem_results_iff hdocument).mpr ⟨before, r, after, hresults, rfl, hfirst⟩
    obtain ⟨-, descriptor, hindex, -⟩ := hresolve _ hmem
    have hqueryIndex : (sarifResult (outputOf r)).ruleIndex.toNat = r.queryIndex := by
      rw [sarifResult, (outputOf_origin r).1, Int.toNat_natCast]
    have hbound := (List.getElem?_eq_some_iff.mp hindex).1
    rw [hrules, hqueryIndex, descriptors, List.length_singleton] at hbound
    omega
  · intro hrepeat result hresult
    obtain ⟨before, r, after, hresults, rfl, hfirst⟩ := (mem_results_iff hdocument).mp hresult
    have hzero : r.queryIndex = 0 := by
      by_contra hlater
      obtain ⟨earlier, hearlier, hkey⟩ := hrepeat before r after hresults hlater
      exact hfirst earlier hearlier hkey
    have hindex : (sarifResult (outputOf r)).ruleIndex = 0 := by
      rw [sarifResult, (outputOf_origin r).1, hzero]
      rfl
    refine ⟨hindex.ge, ?_⟩
    rw [hindex, hrules]
    refine ⟨⟨rules.issue, rules.issue, true, levelText rules.level⟩, rfl, ?_⟩
    have hown := hissue r (by rw [hresults]; simp)
    rw [sarifResult, (outputOf_origin r).2, hown]

/-- A rule file with one pattern meets the condition. -/
theorem laterPatternsRepeat_of_one {item : WorkItem}
    (hrun : Run env.externals [item] env.options (.start env.files) pipeline)
    (hfinished : pipeline.Finished) :
    LaterPatternsRepeat (filterChainableResults pipeline.collected) := by
  intro before r after hresults hlater
  have hmem : r ∈ filterChainableResults pipeline.collected := by
    rw [hresults]
    simp
  rw [filterChainableResults_eq] at hmem
  obtain ⟨file, found, hfound, hr⟩ :=
    exists_of_mem_collected hrun hfinished (List.mem_filter.mp hmem).1
  have hbound := (mem_executeItems hfound r hr).1.2
  rw [List.length_singleton] at hbound
  omega

end Reports

section Sample

/-- The sample programs with regular expressions that are literals. -/
def literalEnvironment : Environment :=
  { sampleEnvironment with
    externals := { sampleEnvironment.externals with
      isMatch := fun regex text => some (contains text regex.pattern) } }

/-- A rule file with two rules: the first one asks for a name that contains a
`b`, the second one for any name. -/
def twoRules : Rules :=
  ⟨"issue", none, [⟨"first", ["$x=b"], [samplePatternText]⟩,
    ⟨"second", [], [samplePatternText]⟩]⟩

/-- The report on the sample program has the only match of the second rule. -/
theorem exists_twoRules_report :
    ∃ work pipeline document, compileRules literalEnvironment twoRules = .ok work ∧
      Run literalEnvironment.externals work literalEnvironment.options
        (.start literalEnvironment.files) pipeline ∧ pipeline.Finished ∧
      generateSarif (filterChainableResults pipeline.collected) (descriptors twoRules) =
        some document ∧
      (filterChainableResults pipeline.collected).map ResultsCtx.queryIndex = [1] := by
  have hsearch : (compileRules literalEnvironment twoRules).toOption.map (fun work =>
      (processFile literalEnvironment.externals work ⟨false, false⟩ "f.c").toOption.map
        fun results => (results.length,
          (filterChainableResults results).map ResultsCtx.queryIndex,
          (uniqueResults (filterChainableResults results)).isSome)) =
      some (some (1, [1], true)) := by
    decide +kernel
  obtain ⟨work, hwork, hfile⟩ := Option.map_eq_some_iff.mp hsearch
  obtain ⟨results, hresults, hfacts⟩ := Option.map_eq_some_iff.mp hfile
  simp only [Prod.mk.injEq] at hfacts
  obtain ⟨hlength, hindex, hsome⟩ := hfacts
  obtain ⟨pipeline, hrun, hfinished, hcollected⟩ :=
    exists_run_singleton (eq_ok_of_toOption hresults) hlength
  obtain ⟨unique, hunique⟩ := Option.isSome_iff_exists.mp hsome
  have hdocument : generateSarif (filterChainableResults results) (descriptors twoRules) =
      some ⟨descriptors twoRules, unique.map sarifResult⟩ := by
    rw [generateSarif, hunique, Option.map_some]
  rw [← hcollected] at hdocument hindex
  exact ⟨work, pipeline, _, eq_ok_of_toOption hwork, hrun, hfinished, hdocument, hindex⟩

/-- The condition on that report. -/
theorem referencesResolve_iff_twoRules :
    ∃ work pipeline document, compileRules literalEnvironment twoRules = .ok work ∧
      Run literalEnvironment.externals work literalEnvironment.options
        (.start literalEnvironment.files) pipeline ∧ pipeline.Finished ∧
      generateSarif (filterChainableResults pipeline.collected) (descriptors twoRules) =
        some document ∧
      (ReferencesResolve document ↔
        LaterPatternsRepeat (filterChainableResults pipeline.collected)) := by
  obtain ⟨work, pipeline, document, hcompile, hrun, hfinished, hdocument, -⟩ :=
    exists_twoRules_report
  exact ⟨work, pipeline, document, hcompile, hrun, hfinished, hdocument,
    referencesResolve_iff hcompile hrun hfinished hdocument⟩

/-- The match of the second rule is written with an index that no descriptor
has. -/
theorem not_referencesResolve_twoRules :
    ∃ work pipeline document, compileRules literalEnvironment twoRules = .ok work ∧
      Run literalEnvironment.externals work literalEnvironment.options
        (.start literalEnvironment.files) pipeline ∧ pipeline.Finished ∧
      generateSarif (filterChainableResults pipeline.collected) (descriptors twoRules) =
        some document ∧ ¬ ReferencesResolve document := by
  obtain ⟨work, pipeline, document, hcompile, hrun, hfinished, hdocument, hindex⟩ :=
    exists_twoRules_report
  refine ⟨work, pipeline, document, hcompile, hrun, hfinished, hdocument, ?_⟩
  intro hresolve
  obtain ⟨r, hresults, hone⟩ := List.map_eq_singleton_iff.mp hindex
  have hmem : sarifResult (outputOf r) ∈ document.results :=
    (mem_results_iff hdocument).mpr ⟨[], r, [], hresults, rfl, by simp⟩
  obtain ⟨-, descriptor, hget, -⟩ := hresolve _ hmem
  obtain ⟨unique, -, rfl⟩ := Option.map_eq_some_iff.mp hdocument
  have hposition : (sarifResult (outputOf r)).ruleIndex.toNat = 1 := by
    rw [sarifResult, (outputOf_origin r).1, hone]
    rfl
  rw [hposition] at hget
  cases hget

end Sample

end WeggliEnhance.RuleReferences
