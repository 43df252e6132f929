import WeggliEnhance.QuerySemantics
import WeggliEnhance.ResultFilters
import WeggliEnhance.RuleReferences

/-!
# What a report says

The document that a run leaves on disk, in terms of what the patterns mean.
Nothing of the machinery shows: not the prefilter on identifiers, the threads
and their channels, the cache and the loops of the engine, nor the removal of
duplicates. A finding is reported when some pattern has an answer there that
can be chained with an answer of every other pattern that has any.
-/

namespace WeggliEnhance.ReportedAnswers

open SourceText SyntaxTree ThirdParty QueryTrees QueryResults QueryEngine PatternBuilder
  BuilderEmission QueryTreeConstruction FallibleState PartialJoin CompoundJoin EngineInvariant
  IdentifierPrefilter QuerySemantics PipelineWork PipelineSchedules ResultFilters ChainFilter
  SarifReport RegexRules RuleFiles RuleReferences SearchPatterns

section Identifiers

variable {externals : Externals} {source : String} {answers : Reading} {tree : QueryTree}

end Identifiers

section Work

variable {externals : Externals} {options : Options}

/-- The results of all items are the forwarded matches of each one. -/
theorem mem_executeItems_iff {file : ParsedFile} {first : ℕ} {work : List WorkItem}
    {results : List ResultsCtx} (h : executeItems externals options file first work = .ok results)
    {r : ResultsCtx} :
    r ∈ results ↔ ∃ i item found, work[i]? = some item ∧
      QueryTree.matches externals item.qt file.root file.source = .ok found ∧
      ∃ m ∈ forwarded options file.source found,
        r = ⟨first + i, file.path, file.source, m, item.reason, item.issue⟩ := by
  induction work generalizing first results with
  | nil =>
    cases h
    simp
  | cons item work ih =>
    obtain ⟨own, rest, hown, hrest, rfl⟩ := executeItems_cons_eq_ok.mp h
    obtain ⟨found, hmatches, rfl⟩ := exists_of_map_eq_ok hown
    rw [List.mem_append, ih hrest]
    constructor
    · rintro (hfirst | ⟨i, other, others, hother, hmatches', m, hm, rfl⟩)
      · obtain ⟨m, hm, rfl⟩ := List.mem_map.mp hfirst
        exact ⟨0, item, found, rfl, hmatches, m, hm, rfl⟩
      · refine ⟨i + 1, other, others, hother, hmatches', m, hm, ?_⟩
        rw [Nat.add_right_comm, Nat.add_assoc]
    · rintro ⟨i, other, others, hother, hmatches', m, hm, rfl⟩
      cases i with
      | zero =>
        cases hother
        cases hmatches.symm.trans hmatches'
        exact .inl (List.mem_map_of_mem hm)
      | succ i =>
        refine .inr ⟨i, other, others, hother, hmatches', m, hm, ?_⟩
        rw [Nat.add_right_comm, Nat.add_assoc]

end Work

section Collected

variable {env : Environment} {work : List WorkItem}

end Collected

section Compiled

variable {env : Environment} {file : Rules} {work : List WorkItem}

/-- A work item comes from a pattern of a rule of the file. -/
theorem exists_pattern_of_compileRules (h : compileRules env file = .ok work) :
    ∀ item ∈ work, ∃ rule ∈ file.rules, ∃ constraints,
      processRegexes env.compile rule.regexes = .ok constraints ∧ ∃ pattern ∈ rule.patterns,
        parseSearchPattern env.externals env.flags pattern env.forceQuery constraints =
          .ok item.qt ∧
        item = ⟨item.qt, item.qt.identifiers, rule.reason, file.issue⟩ := by
  obtain ⟨parts, hparts, heq⟩ := exists_of_bind_eq_ok h
  cases heq
  intro item hitem
  obtain ⟨part, hpart, hmem⟩ := List.mem_flatten.mp hitem
  obtain ⟨rule, hrule, hcompile⟩ := exists_of_mem_mapM hparts part hpart
  unfold compileRule at hcompile
  cases hregexes : processRegexes env.compile rule.regexes with
  | error e =>
    rw [hregexes] at hcompile
    cases hcompile
  | ok constraints =>
    rw [hregexes] at hcompile
    obtain ⟨items, hitems, hreturn⟩ := exists_of_bind_eq_ok hcompile
    split_ifs at hreturn
    · cases hreturn
      obtain ⟨pattern, hpattern, hitem⟩ := exists_of_mem_mapM hitems item hmem
      refine ⟨rule, hrule, constraints, hregexes, pattern, hpattern, ?_⟩
      unfold compilePattern at hitem
      split at hitem
      · rename_i qt hqt
        cases hitem
        exact ⟨hqt, rfl⟩
      · cases hitem
      · cases hitem

/-- A parsed search pattern is a built one. -/
theorem exists_built_of_parseSearchPattern {externals : Externals} {flags : ErrorFlags}
    {pattern : String} {forceQuery : Bool} {constraints : RegexMap} {tree : QueryTree}
    (h : parseSearchPattern externals flags pattern forceQuery constraints = .ok tree) :
    ∃ query up root, buildQueryTree externals query up root constraints = .ok tree := by
  obtain ⟨parsed, -, h⟩ := exists_of_bind_eq_ok h
  obtain ⟨⟨p, parsed⟩, -, h⟩ := exists_of_bind_eq_ok h
  obtain ⟨⟨p, parsed⟩, -, h⟩ := exists_of_bind_eq_ok h
  obtain ⟨⟨up, c⟩, -, h⟩ := exists_of_bind_eq_ok h
  exact ⟨p, up, c, h⟩

end Compiled

section Runs

variable {env : Environment} {rules : List Rules} {disk final : Disk} {handled : List Handled}

end Runs

end WeggliEnhance.ReportedAnswers
