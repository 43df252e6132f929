import WeggliEnhance.ChainFilter
import WeggliEnhance.Interleaving
import WeggliEnhance.PipelineSchedules

/-!
# Findings in the SARIF report

The first half of `generate_sarif`: results become findings with lines and
columns, and of all findings with the same path, start line and issue the
first one is reported. What is reported does not depend on the order in which
the results of different files arrived.
-/

namespace WeggliEnhance.SarifReport

open SourceText ThirdParty QueryResults QueryEngine FallibleState PipelineWork PipelineSchedules
  ChainFilter Interleaving

/-- The byte offset of the last occurrence of a character. -/
def rfind (char : Char) : List Char → Option ℕ
  | [] => none
  | c :: chars =>
    match rfind char chars with
    | some offset => some (c.utf8Size + offset)
    | none => if c = char then some 0 else none

/-- `byte_to_line`, a number from zero on. There is none inside a character,
where slicing the text panics. -/
def byteToLine (source : String) (byteOffset : ℕ) : Option ℕ :=
  (slice? source ⟨0, min byteOffset (utf8Len source.toList)⟩).map fun text =>
    text.toList.count '\n'

/-- `byte_to_column`, a number from one on. -/
def byteToColumn (source : String) (byteOffset : ℕ) : Option ℕ :=
  let clamped := min byteOffset (utf8Len source.toList)
  (slice? source ⟨0, clamped⟩).map fun text =>
    match rfind '\n' text.toList with
    | some lastNewline => clamped - lastNewline
    | none => clamped + 1

/-- A finding of the report. -/
structure OutputResults where
  /-- Position of the work item. -/
  queryIndex : ℕ
  /-- Path of the file. -/
  path : String
  /-- Reason of the work item. -/
  reason : String
  /-- Issue of the work item. -/
  issue : String
  /-- Line on which the match starts. -/
  startLine : ℤ
  /-- Column at which the match starts. -/
  startColumn : ℤ
  /-- Line on which the matched function ends. -/
  endLine : ℤ
  /-- Column at which the matched function ends. -/
  endColumn : ℤ
  deriving DecidableEq

/-- The conversion of one result. -/
def toOutput (r : ResultsCtx) : Option OutputResults := do
  let startLine ← byteToLine r.source r.result.startOffset
  let startColumn ← byteToColumn r.source r.result.startOffset
  let endLine ← byteToLine r.source r.result.functionRange.stop
  let endColumn ← byteToColumn r.source r.result.functionRange.stop
  return ⟨r.queryIndex, r.path, r.reason, r.issue, startLine, startColumn, endLine, endColumn⟩

/-- The key by which findings are told apart. -/
def dedupKey (result : OutputResults) : String × ℤ × String :=
  (result.path, result.startLine, result.issue)

/-- The findings that `generate_sarif` reports for a list of results. -/
def uniqueResults (results : List ResultsCtx) : Option (List OutputResults) :=
  (results.mapM toOutput).map (firstWins dedupKey [])

/-- The finding of a result, where it has one. -/
def outputOf (r : ResultsCtx) : OutputResults :=
  (toOutput r).getD ⟨r.queryIndex, r.path, r.reason, r.issue, 0, 0, 0, 0⟩

theorem path_outputOf (r : ResultsCtx) : (outputOf r).path = r.path := by
  unfold outputOf
  cases h : toOutput r with
  | none => rfl
  | some output =>
    simp only [toOutput, Option.bind_eq_bind, Option.bind_eq_some_iff] at h
    obtain ⟨startLine, -, startColumn, -, endLine, -, endColumn, -, heq⟩ := h
    cases heq
    rfl

/-- The report exists when every result can be converted. -/
theorem uniqueResults_eq (results : List ResultsCtx) :
    uniqueResults results =
      if ∀ r ∈ results, (toOutput r).isSome = true then
        some (firstWins dedupKey [] (results.map outputOf))
      else none := by
  have hmapM : results.mapM toOutput =
      if ∀ r ∈ results, (toOutput r).isSome = true then some (results.map outputOf) else none := by
    induction results with
    | nil => simp
    | cons r results ih =>
      rw [List.mapM_cons, ih]
      simp only [List.forall_mem_cons, List.map_cons, outputOf]
      cases toOutput r with
      | none => simp
      | some output =>
        simp only [Option.isSome_some, true_and]
        split_ifs <;> rfl
  rw [uniqueResults, hmapM]
  split_ifs <;> rfl

/-- Results that agree file by file make reports that agree up to order. -/
theorem uniqueResults_perm {results results' : List ResultsCtx}
    (h : ∀ path, results.filter (fun r => r.path = path) = results'.filter fun r => r.path = path) :
    Option.Rel List.Perm (uniqueResults results) (uniqueResults results') := by
  have hperm := perm_of_filter_eq ResultsCtx.path h
  have hconverts : (∀ r ∈ results, (toOutput r).isSome = true) ↔
      ∀ r ∈ results', (toOutput r).isSome = true := by
    simp only [hperm.mem_iff]
  have hpath : ∀ (path : String) (results : List ResultsCtx),
      (firstWins dedupKey [] (results.map outputOf)).filter (fun output => output.path = path) =
        firstWins dedupKey [] ((results.filter fun r => r.path = path).map outputOf) := by
    intro path results
    rw [filter_firstWins _ fun _ _ => Iff.rfl, List.filter_map]
    · simp only [Function.comp_def, path_outputOf]
    · intro a b hkey
      have hsame : a.path = b.path := congrArg Prod.fst hkey
      rw [hsame]
  rw [uniqueResults_eq, uniqueResults_eq]
  by_cases hall : ∀ r ∈ results, (toOutput r).isSome = true
  · rw [if_pos hall, if_pos (hconverts.mp hall)]
    refine .some (perm_of_filter_eq OutputResults.path ?_)
    intro path
    rw [hpath, hpath, h]
  · rw [if_neg hall, if_neg (mt hconverts.mpr hall)]
    exact .none

section Streams

variable {files : List (String × List ResultsCtx)} {list list' : List ResultsCtx}

/-- The results of one file arrive in the order of its stream. -/
theorem filter_path_interleaves (hpaths : (files.map Prod.fst).Nodup)
    (hown : ∀ file ∈ files, ∀ r ∈ file.2, r.path = file.1)
    (h : Interleaves (files.map Prod.snd) list) (path : String) :
    list.filter (fun r => r.path = path) =
      (files.map Prod.snd).flatten.filter fun r => r.path = path := by
  refine filter_interleaves h _ ?_
  rw [List.pairwise_map]
  refine (List.pairwise_map.mp hpaths).imp_of_mem ?_
  intro f g hf hg hne
  by_cases hpath : f.1 = path
  · refine .inr (List.filter_eq_nil_iff.mpr ?_)
    intro r hr
    rw [hown g hg r hr, ← hpath]
    simpa using Ne.symm hne
  · refine .inl (List.filter_eq_nil_iff.mpr ?_)
    intro r hr
    rw [hown f hf r hr]
    simpa using hpath

/-- The whole report of lists that agree file by file. -/
theorem findings_perm
    (h : ∀ path, list.filter (fun r => r.path = path) = list'.filter fun r => r.path = path) :
    Option.Rel List.Perm (uniqueResults (filterChainableResults list))
      (uniqueResults (filterChainableResults list')) := by
  have hperm : list.Perm list' := perm_of_filter_eq ResultsCtx.path h
  have hsame : ∀ a, decide (Compatible list a) = decide (Compatible list' a) :=
    fun a => decide_eq_decide.mpr (compatible_congr (fun r => hperm.mem_iff) a)
  refine uniqueResults_perm ?_
  intro path
  rw [filterChainableResults_eq, filterChainableResults_eq, List.filter_congr fun a _ => hsame a,
    List.filter_comm, List.filter_comm _ _ list', h]

/-- Reported findings do not depend on the schedule. Whenever the results of
several files, each sent in order by its own sender, arrive in two different
interleavings, the chainability filter and the removal of duplicates report
the same findings up to order, or the conversion fails for both. -/
theorem findings_perm_of_interleaves (hpaths : (files.map Prod.fst).Nodup)
    (hown : ∀ file ∈ files, ∀ r ∈ file.2, r.path = file.1)
    (h : Interleaves (files.map Prod.snd) list) (h' : Interleaves (files.map Prod.snd) list') :
    Option.Rel List.Perm (uniqueResults (filterChainableResults list))
      (uniqueResults (filterChainableResults list')) := by
  refine findings_perm ?_
  intro path
  rw [filter_path_interleaves hpaths hown h, filter_path_interleaves hpaths hown h']

end Streams

/-- A result without captures in the first line of a file. -/
def plainResult (path reason : String) : ResultsCtx :=
  ⟨0, path, "int f();", ⟨[], ∅, ⟨0, 8⟩, @nothing_recorded⟩, reason, "issue"⟩

/-- Two files with one and two results in two orders. -/
theorem findings_perm_of_interleaves_sample :
    Option.Rel List.Perm
      (uniqueResults (filterChainableResults
        [plainResult "a.c" "first", plainResult "b.c" "first", plainResult "b.c" "second"]))
      (uniqueResults (filterChainableResults
        [plainResult "b.c" "first", plainResult "a.c" "first", plainResult "b.c" "second"])) ∧
    (uniqueResults (filterChainableResults
      [plainResult "a.c" "first", plainResult "b.c" "first", plainResult "b.c" "second"])).map
        List.length = some 2 := by
  have hone : Interleaves ([[]] ++ [plainResult "b.c" "second"] :: []) [plainResult "b.c" "second"] :=
    .take (.done (by simp))
  have htwo : Interleaves ([[]] ++ [plainResult "b.c" "first", plainResult "b.c" "second"] :: [])
      [plainResult "b.c" "first", plainResult "b.c" "second"] := .take hone
  have hleft : Interleaves ([] ++ [plainResult "a.c" "first"] ::
      [[plainResult "b.c" "first", plainResult "b.c" "second"]])
        [plainResult "a.c" "first", plainResult "b.c" "first", plainResult "b.c" "second"] :=
    .take htwo
  have hmiddle : Interleaves ([] ++ [plainResult "a.c" "first"] :: [[plainResult "b.c" "second"]])
      [plainResult "a.c" "first", plainResult "b.c" "second"] := .take hone
  have hright : Interleaves ([[plainResult "a.c" "first"]] ++
      [plainResult "b.c" "first", plainResult "b.c" "second"] :: [])
        [plainResult "b.c" "first", plainResult "a.c" "first", plainResult "b.c" "second"] :=
    .take hmiddle
  have hown : ∀ file ∈ [("a.c", [plainResult "a.c" "first"]),
      ("b.c", [plainResult "b.c" "first", plainResult "b.c" "second"])],
      ∀ r ∈ file.2, r.path = file.1 := by decide
  exact ⟨findings_perm_of_interleaves (by decide) hown hleft hright, by decide +kernel⟩

section Runs

variable {externals : Externals} {work : List WorkItem} {options : Options}

/-- Results carry the path of their file. -/
theorem path_processFile {path : String} {results : List ResultsCtx}
    (h : processFile externals work options path = .ok results) : ∀ r ∈ results, r.path = path := by
  intro r hr
  unfold processFile at h
  split at h
  · cases h
    cases hr
  · rename_i file hfile
    rw [(mem_executeItems h r hr).2.1, (of_maybeParse hfile).2.2]

/-- Any two finished runs of the pipeline over files with distinct paths
report the same findings up to order. -/
theorem findings_perm_of_runs {files : List String} (hfiles : files.Nodup)
    {final final' : Pipeline} (hrun : Run externals work options (.start files) final)
    (hfinished : final.Finished) (hrun' : Run externals work options (.start files) final')
    (hfinished' : final'.Finished) :
    Option.Rel List.Perm (uniqueResults (filterChainableResults final.collected))
      (uniqueResults (filterChainableResults final'.collected)) := by
  have hstreams : (files.map fun path => resultsOf (processFile externals work options path)) =
      (files.map fun path => (path, resultsOf (processFile externals work options path))).map
        Prod.snd := by
    rw [List.map_map]
    rfl
  have hpaths : ((files.map fun path =>
      (path, resultsOf (processFile externals work options path))).map Prod.fst).Nodup := by
    rw [List.map_map]
    simpa [Function.comp_def] using hfiles
  have hown : ∀ file ∈ files.map (fun path =>
      (path, resultsOf (processFile externals work options path))),
      ∀ r ∈ file.2, r.path = file.1 := by
    intro file hfile r hr
    obtain ⟨path, hpath, rfl⟩ := List.mem_map.mp hfile
    obtain ⟨results, hresults⟩ := (healthy_of_finished hrun hfinished).pending path hpath
    rw [hresults] at hr
    exact path_processFile hresults r hr
  have hleft := interleaves_collected hrun hfinished
  have hright := interleaves_collected hrun' hfinished'
  rw [hstreams] at hleft hright
  refine findings_perm ?_
  intro path
  rw [filter_path_interleaves hpaths hown hleft, filter_path_interleaves hpaths hown hright]

end Runs

end WeggliEnhance.SarifReport
