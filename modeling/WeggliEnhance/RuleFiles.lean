import WeggliEnhance.SarifReport
import WeggliEnhance.SearchPatterns

/-!
# The loop over rule files

`main.rs` with an output path: every rule file is compiled, its patterns are
run over all source files, and the results that survive the chainability
filter become a SARIF document. The document of every rule file goes to the
same target, which is created anew each time. The process ends when that
fails. A run of the loop depends on the schedules of the pipeline, so it is a
relation.
-/

namespace WeggliEnhance.RuleFiles

open SourceText SyntaxTree ThirdParty QueryTrees QueryResults QueryEngine PatternBuilder
  FallibleState RegexRules SearchPatterns PipelineWork PipelineSchedules ChainFilter Interleaving
  SarifReport

/-- Severity of a rule file. -/
inductive Level where
  | error
  | warning
  | note
  deriving DecidableEq

/-- A single rule within a rule file. -/
structure Rule where
  /-- Reason shown for its matches. -/
  reason : String
  /-- Constraints on variables. -/
  regexes : List String
  /-- Search patterns. -/
  patterns : List String

/-- A parsed rule file. -/
structure Rules where
  /-- The issue its findings are reported under. -/
  issue : String
  /-- Severity of its findings. -/
  level : Option Level
  /-- Its rules. -/
  rules : List Rule

/-- The ways the process ends before its time. -/
inductive Stop where
  /-- `std::process::exit(1)` after a message. -/
  | exit
  /-- A panic. -/
  | panic
  deriving DecidableEq

/-- Everything that stays the same while the process runs. -/
structure Environment where
  /-- Tree-sitter, the regex engine and the source files. -/
  externals : Externals
  /-- Syntax errors of search patterns. -/
  flags : ErrorFlags
  /-- `Regex::new`. -/
  compile : Compile
  /-- The source files. -/
  files : List String
  /-- `--limit` and `--unique`. -/
  options : Options
  /-- `--force`. -/
  forceQuery : Bool
  /-- The output path. -/
  outputPath : String
  /-- `std::env::current_dir()`. -/
  currentDir : String

/-- `QueryTree::variables`: the variables of a query and of all queries below. -/
def allVariables (tree : QueryTree) : List String :=
  tree.fold fun tree subQueries negatives =>
    tree.captures.filterMap Capture.name? ++ (subQueries.flatten ++ negatives.flatten)

/-- A pattern of a rule becomes a work item. -/
def compilePattern (env : Environment) (constraints : RegexMap) (issue : String) (rule : Rule)
    (pattern : String) : Except Stop WorkItem :=
  match parseSearchPattern env.externals env.flags pattern env.forceQuery constraints with
  | .ok qt => .ok ⟨qt, qt.identifiers, rule.reason, issue⟩
  | .error (.query _) => .error .exit
  | .error _ => .error .panic

/-- The body of the loop over the rules of a file. Every constraint has to be
about a variable of the rule. -/
def compileRule (env : Environment) (issue : String) (rule : Rule) :
    Except Stop (List WorkItem) :=
  match processRegexes env.compile rule.regexes with
  | .error _ => .error .exit
  | .ok constraints => do
    let items ← rule.patterns.mapM (compilePattern env constraints issue rule)
    if ∀ v ∈ constraints.keys, v ∈ items.flatMap fun item => allVariables item.qt then return items
    else throw .exit

/-- All work items of a rule file. -/
def compileRules (env : Environment) (rules : Rules) : Except Stop (List WorkItem) := do
  let items ← rules.rules.mapM (compileRule env rules.issue)
  return items.flatten

/-- A rule of the tool component. -/
structure ReportingDescriptor where
  /-- Its name. -/
  name : String
  /-- The id that results refer to. -/
  id : String
  /-- Whether it is enabled. -/
  enabled : Bool
  /-- Its severity. -/
  level : String
  deriving DecidableEq

/-- The text of a severity. -/
def levelText : Option Level → String
  | some .error => "error"
  | some .warning => "warning"
  | some .note => "note"
  | none => "none"

/-- The only descriptor of a rule file. -/
def descriptors (rules : Rules) : List ReportingDescriptor :=
  [⟨rules.issue, rules.issue, true, levelText rules.level⟩]

/-- A result of the document. -/
structure SarifResult where
  /-- The id of its rule, also in the rule reference. -/
  ruleId : String
  /-- The index of its rule, also in the rule reference. -/
  ruleIndex : ℤ
  /-- The message. -/
  message : String
  /-- The file. -/
  uri : String
  /-- First line of the region. -/
  startLine : ℤ
  /-- First column of the region. -/
  startColumn : ℤ
  /-- Last line of the region. -/
  endLine : ℤ
  /-- Last column of the region. -/
  endColumn : ℤ
  deriving DecidableEq

/-- The variable parts of a SARIF document with its single run. -/
structure Document where
  /-- The rules of the tool component. -/
  rules : List ReportingDescriptor
  /-- The results of the run. -/
  results : List SarifResult
  deriving DecidableEq

/-- A finding as a result of the document. -/
def sarifResult (result : OutputResults) : SarifResult :=
  ⟨result.issue, result.queryIndex, result.reason, result.path, result.startLine,
    result.startColumn, result.endLine, result.endColumn⟩

/-- The document that `generate_sarif` writes. There is none when a position
cannot be converted. -/
def generateSarif (results : List ResultsCtx) (descriptors : List ReportingDescriptor) :
    Option Document :=
  (uniqueResults results).map fun unique => ⟨descriptors, unique.map sarifResult⟩

/-- What becomes of a document that is written to a path. -/
inductive Writing where
  /-- The file holds the document. -/
  | whole
  /-- `File::create` fails, and the file stays as it is. -/
  | refused
  /-- The file is created, and `write_all` fails. -/
  | broken
  deriving DecidableEq

/-- The file system as far as the loop sees it. -/
structure Disk where
  /-- Which paths are directories. -/
  isDir : String → Bool
  /-- Which paths can be written to. -/
  writing : String → Writing
  /-- The documents in files. -/
  documents : String → Option Document

/-- `File::create` and `write_all`. A file that is not written to its end holds
no document. -/
def Disk.write (disk : Disk) (path : String) (document : Document) : Disk :=
  match disk.writing path with
  | .whole => { disk with documents := Function.update disk.documents path (some document) }
  | .refused => disk
  | .broken => { disk with documents := Function.update disk.documents path none }

/-- `Path::join` with a relative path. -/
def join (base path : String) : String :=
  if base = "" ∨ endsWith base '/' then base ++ path else base ++ "/" ++ path

/-- `Path::is_absolute`. -/
def isAbsolute (path : String) : Bool := startsWith path '/'

/-- Where the document goes. -/
def targetPath (env : Environment) (disk : Disk) : String :=
  if disk.isDir env.outputPath then
    if isAbsolute env.outputPath then join env.outputPath "results.sarif"
    else join (join env.currentDir env.outputPath) "results.sarif"
  else if isAbsolute env.outputPath then env.outputPath
  else join env.currentDir env.outputPath

/-- What became of a rule file. -/
structure Handled where
  /-- The results that survived the chainability filter. -/
  survived : List ResultsCtx
  /-- What became of its document, unless a position could not be converted. -/
  document : Option Writing

/-- The document of a rule file was written. -/
def Handled.written (file : Handled) : Bool := file.document == some .whole

/-- The file at the target was created anew for a rule file. -/
def Handled.created (file : Handled) : Bool := file.written || file.document == some .broken

/-- A run of the loop over rule files from one state of the disk to another,
with what became of each file. -/
inductive MainRun (env : Environment) : List Rules → Disk → List Handled → Disk → Prop
  /-- No rule file is left. -/
  | done (disk : Disk) : MainRun env [] disk [] disk
  /-- The process ends because a rule file cannot be compiled. -/
  | exit {rules : Rules} {rest : List Rules} {disk : Disk} {stop : Stop} :
    compileRules env rules = .error stop → MainRun env (rules :: rest) disk [] disk
  /-- A rule file without patterns is skipped. -/
  | skip {rules : Rules} {rest : List Rules} {disk final : Disk} {handled : List Handled} :
    compileRules env rules = .ok [] → MainRun env rest disk handled final →
    MainRun env (rules :: rest) disk handled final
  /-- The process ends because a search panics. -/
  | abort {rules : Rules} {rest : List Rules} {disk : Disk} {work : List WorkItem} :
    compileRules env rules = .ok work → work ≠ [] →
    ¬ Healthy env.externals work env.options (.start env.files) →
    MainRun env (rules :: rest) disk [] disk
  /-- The process ends because a position cannot be converted. -/
  | crash {rules : Rules} {rest : List Rules} {disk : Disk} {work : List WorkItem}
    {pipeline : Pipeline} :
    compileRules env rules = .ok work → work ≠ [] →
    Run env.externals work env.options (.start env.files) pipeline → pipeline.Finished →
    generateSarif (filterChainableResults pipeline.collected) (descriptors rules) = none →
    MainRun env (rules :: rest) disk [⟨filterChainableResults pipeline.collected, none⟩] disk
  /-- The process ends because the document of a rule file cannot be written. -/
  | fail {rules : Rules} {rest : List Rules} {disk : Disk} {work : List WorkItem}
    {pipeline : Pipeline} {document : Document} :
    compileRules env rules = .ok work → work ≠ [] →
    Run env.externals work env.options (.start env.files) pipeline → pipeline.Finished →
    generateSarif (filterChainableResults pipeline.collected) (descriptors rules) =
      some document →
    disk.writing (targetPath env disk) ≠ .whole →
    MainRun env (rules :: rest) disk
      [⟨filterChainableResults pipeline.collected, some (disk.writing (targetPath env disk))⟩]
      (disk.write (targetPath env disk) document)
  /-- The document of a rule file is written. -/
  | report {rules : Rules} {rest : List Rules} {disk final : Disk} {work : List WorkItem}
    {pipeline : Pipeline} {document : Document} {handled : List Handled} :
    compileRules env rules = .ok work → work ≠ [] →
    Run env.externals work env.options (.start env.files) pipeline → pipeline.Finished →
    generateSarif (filterChainableResults pipeline.collected) (descriptors rules) =
      some document →
    disk.writing (targetPath env disk) = .whole →
    MainRun env rest (disk.write (targetPath env disk) document) handled final →
    MainRun env (rules :: rest) disk
      (⟨filterChainableResults pipeline.collected, some .whole⟩ :: handled) final

/-- The path, start line and issue of a surviving result. -/
def resultKey (r : ResultsCtx) : String × Option ℤ × String :=
  (r.path, (byteToLine r.source r.result.startOffset).map Int.ofNat, r.issue)

/-- The path, start line and issue of a result of the document. -/
def sarifKey (result : SarifResult) : String × Option ℤ × String :=
  (result.uri, some result.startLine, result.ruleId)

/-- The keys of the results in a file. -/
def documentKeys (document : Option Document) : List (String × Option ℤ × String) :=
  document.toList.flatMap fun d => d.results.map sarifKey

/-- The keys of the results that survived for the last rule file for which the
target was created, or else those in the file from the beginning. There are
none if writing the last document failed. -/
def lastKeys (old : Option Document) (handled : List Handled) : List (String × Option ℤ × String) :=
  match (handled.filter Handled.created).getLast? with
  | some last => if last.written then last.survived.map resultKey else []
  | none => documentKeys old

section Documents

/-- The key of a result with a finding. -/
theorem resultKey_eq {r : ResultsCtx} (h : (toOutput r).isSome = true) :
    resultKey r = sarifKey (sarifResult (outputOf r)) := by
  obtain ⟨output, houtput⟩ := Option.isSome_iff_exists.mp h
  have hof : outputOf r = output := by rw [outputOf, houtput, Option.getD_some]
  rw [hof]
  simp only [toOutput, Option.bind_eq_bind, Option.bind_eq_some_iff] at houtput
  obtain ⟨startLine, hline, startColumn, -, endLine, -, endColumn, -, heq⟩ := houtput
  cases heq
  rw [resultKey, hline]
  rfl

/-- A document has the keys of all results it was made from. -/
theorem mem_documentKeys_generateSarif {results : List ResultsCtx}
    {descriptors : List ReportingDescriptor} {document : Document}
    (h : generateSarif results descriptors = some document) {k : String × Option ℤ × String} :
    k ∈ documentKeys (some document) ↔ k ∈ results.map resultKey := by
  obtain ⟨unique, hunique, rfl⟩ := Option.map_eq_some_iff.mp h
  rw [uniqueResults_eq] at hunique
  split_ifs at hunique with hall
  cases hunique
  have hkey : ∀ output : OutputResults, sarifKey (sarifResult output) =
      (fun d : String × ℤ × String => (d.1, some d.2.1, d.2.2)) (dedupKey output) := fun _ => rfl
  have hresults : results.map resultKey = (results.map (fun r => dedupKey (outputOf r))).map
      fun d : String × ℤ × String => (d.1, some d.2.1, d.2.2) := by
    rw [List.map_map]
    refine List.map_congr_left ?_
    intro r hr
    rw [resultKey_eq (hall r hr), hkey]
    rfl
  have hdocument : documentKeys (some ⟨descriptors,
      (firstWins dedupKey [] (results.map outputOf)).map sarifResult⟩) =
      ((firstWins dedupKey [] (results.map outputOf)).map dedupKey).map
        fun d : String × ℤ × String => (d.1, some d.2.1, d.2.2) := by
    rw [documentKeys, Option.toList_some, List.flatMap_singleton, List.map_map, List.map_map]
    rfl
  rw [hdocument, hresults, List.mem_map, List.mem_map]
  simp only [mem_map_firstWins, List.map_map, List.not_mem_nil, not_false_eq_true, and_true,
    Function.comp_def]

end Documents

section Runs

variable {env : Environment} {rules : List Rules} {disk final : Disk} {handled : List Handled}

/-- Writing a document changes neither directories nor permissions. -/
theorem write_keeps (path : String) (document : Document) :
    (disk.write path document).isDir = disk.isDir ∧
      (disk.write path document).writing = disk.writing := by
  unfold Disk.write
  cases disk.writing path <;> exact ⟨rfl, rfl⟩

/-- So all documents go to the same target. -/
theorem targetPath_write (path : String) (document : Document) :
    targetPath env (disk.write path document) = targetPath env disk := by
  rw [targetPath, targetPath, (write_keeps path document).1]

/-- A document that was written. -/
theorem documents_write {path : String} (document : Document) (h : disk.writing path = .whole) :
    (disk.write path document).documents path = some document := by
  rw [Disk.write, h]
  exact Function.update_self _ _ _

/-- A document that was written replaces the one before. -/
theorem lastKeys_written (old : Option Document) (survived : List ResultsCtx)
    (document : Document) (hdocument : ∀ k, k ∈ documentKeys (some document) ↔
      k ∈ survived.map resultKey) (k : String × Option ℤ × String) :
    k ∈ lastKeys old (⟨survived, some .whole⟩ :: handled) ↔
      k ∈ lastKeys (some document) handled := by
  unfold lastKeys
  rw [List.filter_cons_of_pos rfl]
  cases hlast : (handled.filter Handled.created).getLast? with
  | none =>
    rw [List.getLast?_eq_none_iff.mp hlast]
    exact (hdocument k).symm
  | some last =>
    rw [List.getLast?_cons, hlast, Option.getD_some]

/-- A document that was not written leaves the old one or none. -/
theorem lastKeys_failed (survived : List ResultsCtx) (document : Document) {path : String}
    (hwriting : disk.writing path ≠ .whole) :
    documentKeys ((disk.write path document).documents path) =
      lastKeys (disk.documents path) [⟨survived, some (disk.writing path)⟩] := by
  cases hcase : disk.writing path with
  | whole => exact absurd hcase hwriting
  | refused =>
    rw [Disk.write, hcase]
    rfl
  | broken =>
    have hnone : (disk.write path document).documents path = none := by
      rw [Disk.write, hcase]
      exact Function.update_self _ _ _
    rw [hnone]
    rfl

/-- At the end of a run the target holds the keys of the last document that
was written. -/
theorem mem_documentKeys_final (h : MainRun env rules disk handled final)
    (k : String × Option ℤ × String) :
    k ∈ documentKeys (final.documents (targetPath env disk)) ↔
      k ∈ lastKeys (disk.documents (targetPath env disk)) handled := by
  induction h with
  | done disk => exact Iff.rfl
  | exit hcompile => exact Iff.rfl
  | skip hcompile hrest ih => exact ih
  | abort hcompile hwork hpanic => exact Iff.rfl
  | crash hcompile hwork hrun hfinished hnone => exact Iff.rfl
  | fail hcompile hwork hrun hfinished hsome hwriting => rw [lastKeys_failed _ _ hwriting]
  | @report rules rest disk final work pipeline document handled hcompile hwork hrun hfinished
      hsome hwriting hrest ih =>
    rw [targetPath_write, documents_write document hwriting] at ih
    rw [ih, lastKeys_written _ _ document fun k => mem_documentKeys_generateSarif hsome]

/-- The report on disk has a result with the path, start line and issue of
every result that survived for some rule file. -/
def KeepsFindings (env : Environment) (disk final : Disk) (handled : List Handled) : Prop :=
  ∀ file ∈ handled, ∀ r ∈ file.survived, ∃ document,
    final.documents (targetPath env disk) = some document ∧
    ∃ result ∈ document.results, sarifKey result = resultKey r

theorem mem_documentKeys {document : Option Document} {k : String × Option ℤ × String} :
    k ∈ documentKeys document ↔
      ∃ d, document = some d ∧ ∃ result ∈ d.results, sarifKey result = k := by
  cases document with
  | none => simp [documentKeys]
  | some d => simp [documentKeys]

/-- Exactly when the report keeps the findings of every rule file. In every
run over any list of rule files, the document on disk at the end has a result
for every surviving result of every rule file if and only if the path, start
line and issue of each of them occur among those of the last rule file for
which the target was created, and writing its document did not fail. -/
theorem keepsFindings_iff (h : MainRun env rules disk handled final) :
    KeepsFindings env disk final handled ↔
      ∀ file ∈ handled, ∀ r ∈ file.survived,
        resultKey r ∈ lastKeys (disk.documents (targetPath env disk)) handled := by
  simp only [KeepsFindings, ← mem_documentKeys_final h, mem_documentKeys]

end Runs

section Sample

/-- The sample programs, and a parser that also knows the sample pattern. -/
def sampleEnvironment : Environment where
  externals := { sampleExternals with
    parse := fun text =>
      if text = samplePatternText then some samplePatternRoot else sampleExternals.parse text }
  flags := ⟨fun _ => false, fun _ => false, fun _ => false⟩
  compile := compileLiteral
  files := ["f.c"]
  options := ⟨false, false⟩
  forceQuery := false
  outputPath := "/out.sarif"
  currentDir := "/"

/-- A rule file with the sample pattern. -/
def sampleRules (issue : String) : Rules := ⟨issue, none, [⟨"reason", [], [samplePatternText]⟩]⟩

/-- An empty disk. -/
def emptyDisk : Disk := ⟨fun _ => false, fun _ => .whole, fun _ => none⟩

/-- The work item of the sample pattern. -/
def sampleItem (issue : String) : WorkItem := ⟨sampleTree, [], "reason", issue⟩

theorem compileRules_sampleRules (issue : String) :
    compileRules sampleEnvironment (sampleRules issue) = .ok [sampleItem issue] := by rfl

/-- The rule file is run over the first program and reported under its issue. -/
theorem exists_sampleReport (issue : String)
    (hone : (processFile sampleEnvironment.externals [sampleItem issue] ⟨false, false⟩ "f.c").map
      List.length = .ok 1)
    (hkept : (processFile sampleEnvironment.externals [sampleItem issue] ⟨false, false⟩ "f.c").map
      (fun results => (filterChainableResults results).map resultKey) =
        .ok [("f.c", some 0, issue)])
    (hunique : (processFile sampleEnvironment.externals [sampleItem issue] ⟨false, false⟩ "f.c").map
      (fun results => (uniqueResults (filterChainableResults results)).isSome) = .ok true) :
    ∃ pipeline document,
      Run sampleEnvironment.externals [sampleItem issue] ⟨false, false⟩ (.start ["f.c"]) pipeline ∧
      pipeline.Finished ∧
      generateSarif (filterChainableResults pipeline.collected) (descriptors (sampleRules issue)) =
        some document ∧
      (filterChainableResults pipeline.collected).map resultKey = [("f.c", some 0, issue)] := by
  obtain ⟨results, hresults, hlength⟩ := exists_of_map_eq_ok hone
  rw [hresults] at hkept hunique
  have hkeys : (filterChainableResults results).map resultKey = [("f.c", some 0, issue)] :=
    Except.ok.inj hkept
  obtain ⟨pipeline, hrun, hfinished, hcollected⟩ := exists_run_singleton hresults hlength
  obtain ⟨unique, hsome⟩ := Option.isSome_iff_exists.mp (Except.ok.inj hunique)
  have hdocument : generateSarif (filterChainableResults results)
      (descriptors (sampleRules issue)) =
      some ⟨descriptors (sampleRules issue), unique.map sarifResult⟩ := by
    rw [generateSarif, hsome, Option.map_some]
  rw [← hcollected] at hdocument hkeys
  exact ⟨pipeline, _, hrun, hfinished, hdocument, hkeys⟩

/-- A run over two rule files that both find the name in the first program. -/
theorem exists_sampleRun :
    ∃ first second final,
      MainRun sampleEnvironment [sampleRules "first", sampleRules "second"] emptyDisk
        [⟨first, some .whole⟩, ⟨second, some .whole⟩] final ∧
      first.map resultKey = [("f.c", some 0, "first")] ∧
      second.map resultKey = [("f.c", some 0, "second")] := by
  obtain ⟨pipeline, document, hrun, hfinished, hdocument, hkeys⟩ :=
    exists_sampleReport "first" (by decide +kernel) (by decide +kernel) (by decide +kernel)
  obtain ⟨pipeline', document', hrun', hfinished', hdocument', hkeys'⟩ :=
    exists_sampleReport "second" (by decide +kernel) (by decide +kernel) (by decide +kernel)
  refine ⟨_, _, _, .report (compileRules_sampleRules "first") (List.cons_ne_nil _ _) hrun hfinished
    hdocument rfl (.report (compileRules_sampleRules "second") (List.cons_ne_nil _ _) hrun'
    hfinished' hdocument' rfl (.done _)), hkeys, hkeys'⟩

/-- The condition on that run. -/
theorem keepsFindings_iff_sample :
    ∃ handled final,
      MainRun sampleEnvironment [sampleRules "first", sampleRules "second"] emptyDisk handled
        final ∧
      (KeepsFindings sampleEnvironment emptyDisk final handled ↔
        ∀ file ∈ handled, ∀ r ∈ file.survived, resultKey r ∈
          lastKeys (emptyDisk.documents (targetPath sampleEnvironment emptyDisk)) handled) := by
  obtain ⟨first, second, final, hrun, -, -⟩ := exists_sampleRun
  exact ⟨_, final, hrun, keepsFindings_iff hrun⟩

/-- The finding of the first rule file is lost when the second is reported. -/
theorem not_keepsFindings :
    ∃ handled final,
      MainRun sampleEnvironment [sampleRules "first", sampleRules "second"] emptyDisk handled
        final ∧
      ¬ KeepsFindings sampleEnvironment emptyDisk final handled := by
  obtain ⟨first, second, final, hrun, hfirst, hsecond⟩ := exists_sampleRun
  refine ⟨_, final, hrun, ?_⟩
  intro hkeeps
  obtain ⟨r, hr, hkey⟩ : ∃ r ∈ first, resultKey r = ("f.c", some 0, "first") := by
    rw [← List.mem_map, hfirst]
    exact List.mem_cons_self
  have hreported := mem_documentKeys.mpr (hkeeps _ List.mem_cons_self r hr)
  rw [mem_documentKeys_final hrun] at hreported
  have hlast : lastKeys (emptyDisk.documents (targetPath sampleEnvironment emptyDisk))
      [⟨first, some .whole⟩, ⟨second, some .whole⟩] = second.map resultKey := rfl
  rw [hlast, hsecond, hkey] at hreported
  exact absurd hreported (by decide)

end Sample

end WeggliEnhance.RuleFiles
