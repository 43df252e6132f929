import WeggliEnhance.ClosedProperties
import WeggliEnhance.EnginePanics
import WeggliEnhance.ReportedAnswers
import WeggliEnhance.ReportRegions

/-!
# Runs complete

The process slices the source of a file at the ranges of its results, once
they have passed through the engine, the channels and the filters. Tree-sitter
reports ranges on character boundaries, and the engine only puts together
what it was reported, so this never panics. Neither does a search if the
regular expressions can be evaluated. Every run then handles all rule files up
to the first one that cannot be compiled.
-/

namespace WeggliEnhance.CompletedRuns

open SourceText SyntaxTree ThirdParty QueryTrees QueryResults QueryEngine PatternBuilder
  BuilderEmission QueryTreeConstruction MatchCaptures FallibleState ClosedProperties EnginePanics
  SourceLines PipelineWork PipelineSchedules ChainFilter SarifReport ReportRegions RegexRules
  RuleFiles ReportedAnswers

/-- Tree-sitter reports nodes that begin and end between two characters. -/
def OnBoundaries (externals : Externals) : Prop :=
  ∀ source root, externals.parse source = some root →
    ∀ node ∈ root.nodes, (slice? source node.range).isSome = true

/-- All ranges of a result can be sliced. -/
structure Sliced (source : String) (result : QueryResult) : Prop where
  /-- The captured ranges. -/
  captures : ∀ c ∈ result.captures, (slice? source c.range).isSome = true
  /-- The range of the function. -/
  function : (slice? source result.function).isSome = true

section Engine

variable {externals : Externals} {source : String} {top : Node}

theorem sliced_append : KeptByAppend (Sliced source) := by
  intro left right hleft hright
  refine ⟨?_, hleft.function⟩
  intro c hc
  rcases List.mem_append.mp hc with hmem | hmem
  · exact hleft.captures c hmem
  · exact hright.captures c hmem

/-- The result of a match on nodes between characters, before its sub-queries. -/
theorem sliced_held (hnodes : ∀ node ∈ top.nodes, (slice? source node.range).isSome = true) :
    HeldByMatches externals source top (Sliced source) := by
  intro tree cs state hcs hcollect
  have hcaptures : ∀ c ∈ state.r, (slice? source c.range).isSome = true := by
    intro recorded hrecorded
    obtain ⟨c, hc, hrange⟩ := exists_of_mem_r (gathered_of_collect hcollect) hrecorded
    rw [hrange]
    exact hnodes c.node (hcs c hc)
  refine ⟨hcaptures, ?_⟩
  change (slice? source ((state.r.head?.map CaptureResult.range).getD ⟨0, 0⟩)).isSome = true
  cases hfirst : state.r with
  | nil => exact slice?_isSome_iff.mpr ⟨le_rfl, isBoundary_zero _, isBoundary_zero _⟩
  | cons first rest =>
    rw [hfirst] at hcaptures
    exact hcaptures first List.mem_cons_self

end Engine

/-- The constraints of a rule file can be evaluated on the text of every node
that tree-sitter reports. -/
def Evaluates (env : Environment) (file : Rules) : Prop :=
  ∀ rule ∈ file.rules, ∀ constraints, processRegexes env.compile rule.regexes = .ok constraints →
    ∀ name negative regex, constraints.lookup name = some (negative, regex) →
      ∀ source root, env.externals.parse source = some root → ∀ node ∈ root.nodes,
        (env.externals.isMatch regex (slice source node.range)).isSome = true

section Files

variable {env : Environment} {work : List WorkItem}

theorem mem_of_enforceLimit {limit : Bool} {skipSet : List ℕ} {found : List QueryResult}
    {m : QueryResult} (h : m ∈ enforceLimit limit skipSet found) : m ∈ found := by
  induction found generalizing skipSet with
  | nil => exact h
  | cons first found ih =>
    rw [enforceLimit] at h
    split_ifs at h
    · exact List.mem_cons_of_mem first (ih h)
    · rcases List.mem_cons.mp h with rfl | hrest
      · exact List.mem_cons_self
      · exact List.mem_cons_of_mem first (ih hrest)

/-- Whatever is found in a file can be sliced out of it. -/
theorem sliced_processFile (hinside : env.externals.ReportsInside)
    (hboundaries : OnBoundaries env.externals) {path : String} {results : List ResultsCtx}
    (h : processFile env.externals work env.options path = .ok results) :
    ∀ r ∈ results, Sliced r.source r.result := by
  unfold processFile at h
  cases hfile : maybeParse env.externals work path with
  | none =>
    rw [hfile] at h
    cases h
    exact List.forall_mem_nil _
  | some file =>
    rw [hfile] at h
    intro r hr
    obtain ⟨i, item, found, -, hmatches, m, hm, rfl⟩ := (mem_executeItems_iff h).mp hr
    have hnodes := hboundaries file.source file.root (of_maybeParse hfile).2.1
    have hfound := (List.mem_filter.mp (mem_of_enforceLimit hm)).1
    exact matches_closed hinside sliced_append (sliced_held hnodes) hmatches m hfound

theorem sliced_collected (hinside : env.externals.ReportsInside)
    (hboundaries : OnBoundaries env.externals) {final : Pipeline}
    (hrun : Run env.externals work env.options (.start env.files) final)
    (hfinished : final.Finished) : ∀ r ∈ final.collected, Sliced r.source r.result := by
  intro r hr
  rw [(collected_perm_of_finished hrun hfinished).mem_iff, List.mem_flatMap] at hr
  obtain ⟨path, hpath, hmem⟩ := hr
  obtain ⟨found, hfound⟩ := (healthy_of_finished hrun hfinished).pending path hpath
  rw [hfound] at hmem
  exact sliced_processFile hinside hboundaries hfound r hmem

/-- No search panics. -/
theorem exists_executeItems {options : Options} {file : ParsedFile} (first : ℕ)
    (h : ∀ item ∈ work, ∃ found,
      QueryTree.matches env.externals item.qt file.root file.source = .ok found) :
    ∃ results, executeItems env.externals options file first work = .ok results := by
  induction work generalizing first with
  | nil => exact ⟨[], rfl⟩
  | cons item work ih =>
    obtain ⟨⟨found, hfound⟩, hrest⟩ := List.forall_mem_cons.mp h
    obtain ⟨rest, hrest⟩ := ih (first + 1) hrest
    obtain ⟨own, hown⟩ : ∃ own, executeItem env.externals options file first item = .ok own := by
      rw [executeItem, hfound]
      exact ⟨_, rfl⟩
    exact ⟨own ++ rest, executeItems_cons_eq_ok.mpr ⟨own, rest, hown, hrest, rfl⟩⟩

theorem healthy_of_evaluates {file : Rules} (hreports : env.externals.ReportsCaptures)
    (hinside : env.externals.ReportsInside) (hregex : Evaluates env file)
    (hcompile : compileRules env file = .ok work) :
    Healthy env.externals work env.options (.start env.files) := by
  refine ⟨?_, fun parsed hparsed => by cases hparsed⟩
  intro path _
  unfold processFile
  cases hfile : maybeParse env.externals work path with
  | none => exact ⟨[], rfl⟩
  | some parsed =>
    refine exists_executeItems 0 ?_
    intro item hitem
    obtain ⟨rule, hrule, constraints, hconstraints, pattern, -, hparse, -⟩ :=
      exists_pattern_of_compileRules hcompile item hitem
    obtain ⟨query, up, root, hbuild⟩ := exists_built_of_parseSearchPattern hparse
    have hfinished :=
      outcome_ok (finished_buildQueryTree env.externals query up root constraints) hbuild
    refine exists_results hreports hfinished.wellFormed ?_
    intro regex node hasked
    obtain ⟨hnode, name, negative, hlookup⟩ :=
      constrained_of_asked hinside hfinished.wellFormed hasked
    exact hregex rule hrule constraints hconstraints name negative regex hlookup parsed.source
      parsed.root (of_maybeParse hfile).2.1 node hnode

end Files

/-- The rule files that are searched: those with patterns, up to the first one
that cannot be compiled. -/
def searched (env : Environment) : List Rules → List Rules
  | [] => []
  | file :: rest =>
    match compileRules env file with
    | .error _ => []
    | .ok [] => searched env rest
    | .ok _ => file :: searched env rest

/-- The results that survive when the patterns of a rule file are run over one
source file after the other. -/
def inTurn (env : Environment) (file : Rules) : List ResultsCtx :=
  match compileRules env file with
  | .error _ => []
  | .ok work => filterChainableResults (env.files.flatMap fun path =>
      resultsOf (processFile env.externals work env.options path))

theorem survived_perm_inTurn {env : Environment} {file : Rules} {work : List WorkItem}
    {final : Pipeline} (hcompile : compileRules env file = .ok work)
    (hrun : Run env.externals work env.options (.start env.files) final)
    (hfinished : final.Finished) :
    (filterChainableResults final.collected).Perm (inTurn env file) := by
  rw [inTurn, hcompile]
  exact filterChainableResults_perm (collected_perm_of_finished hrun hfinished)

/-- The nodes of the sample programs begin and end between two characters. -/
theorem onBoundaries_sampleEnvironment : OnBoundaries sampleEnvironment.externals := by
  intro source root hparse
  simp only [sampleEnvironment, sampleExternals] at hparse
  split_ifs at hparse with hpattern hsample hpair
  · rw [hpattern, ← Option.some.inj hparse]
    decide
  · rw [hsample, ← Option.some.inj hparse]
    decide
  · rw [hpair, ← Option.some.inj hparse]
    decide

theorem evaluates_sampleEnvironment (file : Rules) : Evaluates sampleEnvironment file := by
  intro rule _ constraints _ name negative regex _ source root _ node _
  rfl

theorem searched_sampleRules :
    searched sampleEnvironment [sampleRules "first", sampleRules "second"] =
      [sampleRules "first", sampleRules "second"] := by
  rw [searched, compileRules_sampleRules, searched, compileRules_sampleRules]
  rfl

end WeggliEnhance.CompletedRuns
