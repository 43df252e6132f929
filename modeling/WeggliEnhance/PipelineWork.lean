import WeggliEnhance.FallibleState
import WeggliEnhance.QueryEngine

/-!
# Work of the pipeline

`types.rs` and `pipeline.rs`: a file that may contain a match is parsed, every
work item runs on its syntax tree, and the matches that pass the switches
`--unique` and `--limit` are sent to the collector. The functions say what one
file contributes; schedules are a separate matter.
-/

namespace WeggliEnhance.PipelineWork

open SourceText SyntaxTree ThirdParty QueryTrees QueryResults QueryEngine FallibleState

/-- A compiled work item. -/
structure WorkItem where
  /-- The query. -/
  qt : QueryTree
  /-- Texts that a file must contain to be worth parsing. -/
  identifiers : List String
  /-- Reason shown for its matches. -/
  reason : String
  /-- Issue of the rule file. -/
  issue : String

/-- A result with its context. -/
structure ResultsCtx where
  /-- Position of the work item. -/
  queryIndex : ℕ
  /-- Path of the file. -/
  path : String
  /-- Text of the file. -/
  source : String
  /-- The match. -/
  result : QueryResult
  /-- Reason of the work item. -/
  reason : String
  /-- Issue of the work item. -/
  issue : String
  deriving DecidableEq

/-- Switches that filter results. -/
structure Options where
  /-- Only the first match in each function. -/
  limit : Bool
  /-- Different variables have different values. -/
  unique : Bool

/-- A parsed file on its way between the workers. -/
structure ParsedFile where
  /-- Text of the file. -/
  source : String
  /-- Root of its syntax tree. -/
  root : Node
  /-- Path of the file. -/
  path : String

/-- Some work item has all its identifiers in the text. -/
def potentialMatch (work : List WorkItem) (source : String) : Bool :=
  work.any fun item => item.identifiers.all fun identifier => contains source identifier

/-- `maybe_parse`: read a file and parse it if it might contain a match. -/
def maybeParse (externals : Externals) (work : List WorkItem) (path : String) :
    Option ParsedFile :=
  match externals.read path with
  | none => none
  | some source =>
    if potentialMatch work source then
      (externals.parse source).map fun root => ⟨source, root, path⟩
    else none

/-- What is known of a parsed file. -/
theorem of_maybeParse {externals : Externals} {work : List WorkItem} {path : String}
    {file : ParsedFile} (h : maybeParse externals work path = some file) :
    externals.read path = some file.source ∧ externals.parse file.source = some file.root ∧
      file.path = path := by
  unfold maybeParse at h
  split at h
  · cases h
  · rename_i source hread
    split_ifs at h
    obtain ⟨root, hparse, rfl⟩ := Option.map_eq_some_iff.mp h
    exact ⟨hread, hparse, rfl⟩

/-- `check_unique`: the variables of a match have pairwise different values. -/
def checkUnique (options : Options) (source : String) (m : QueryResult) : Bool :=
  !options.unique || decide (∀ v ∈ m.vars.keys, ∀ w ∈ m.vars.keys,
    m.value v source = m.value w source → v = w)

/-- The filter with `check_limit`: a match is dropped when an earlier one of
the same function was kept. -/
def enforceLimit (limit : Bool) : List ℕ → List QueryResult → List QueryResult
  | _, [] => []
  | skipSet, m :: ms =>
    if limit && skipSet.contains m.startOffset then enforceLimit limit skipSet ms
    else m :: enforceLimit limit (m.startOffset :: skipSet) ms

/-- The matches of a work item that are forwarded, in order. -/
def forwarded (options : Options) (source : String) (found : List QueryResult) :
    List QueryResult :=
  enforceLimit options.limit [] (found.filter (checkUnique options source))

/-- One work item on one file. -/
def executeItem (externals : Externals) (options : Options) (file : ParsedFile) (i : ℕ)
    (item : WorkItem) : Except Panic (List ResultsCtx) :=
  (QueryTree.matches externals item.qt file.root file.source).map fun found =>
    (forwarded options file.source found).map fun m =>
      ⟨i, file.path, file.source, m, item.reason, item.issue⟩

/-- All work items from an index on, in order. -/
def executeItems (externals : Externals) (options : Options) (file : ParsedFile) :
    ℕ → List WorkItem → Except Panic (List ResultsCtx)
  | _, [] => .ok []
  | i, item :: items => do
    let results ← executeItem externals options file i item
    let rest ← executeItems externals options file (i + 1) items
    return results ++ rest

/-- What the task of `execute_queries_worker` for one file sends. -/
def executeQueries (externals : Externals) (work : List WorkItem) (options : Options)
    (file : ParsedFile) : Except Panic (List ResultsCtx) :=
  executeItems externals options file 0 work

/-- What both workers together do with one file. -/
def processFile (externals : Externals) (work : List WorkItem) (options : Options)
    (path : String) : Except Panic (List ResultsCtx) :=
  match maybeParse externals work path with
  | none => .ok []
  | some file => executeQueries externals work options file

/-- The items of a list run one after the other. -/
theorem executeItems_cons_eq_ok {externals : Externals} {options : Options} {file : ParsedFile}
    {i : ℕ} {item : WorkItem} {work : List WorkItem} {results : List ResultsCtx} :
    executeItems externals options file i (item :: work) = .ok results ↔
      ∃ first rest, executeItem externals options file i item = .ok first ∧
        executeItems externals options file (i + 1) work = .ok rest ∧ results = first ++ rest := by
  rw [executeItems]
  constructor
  · intro h
    obtain ⟨first, hfirst, hcontinue⟩ := exists_of_bind_eq_ok h
    obtain ⟨rest, hrest, heq⟩ := exists_of_bind_eq_ok hcontinue
    cases heq
    exact ⟨first, rest, hfirst, hrest, rfl⟩
  · rintro ⟨first, rest, hfirst, hrest, rfl⟩
    rw [hfirst, hrest]
    rfl

/-- Results carry the number of their item, and the path and the text of their
file. -/
theorem mem_executeItems {externals : Externals} {options : Options} {file : ParsedFile} {i : ℕ}
    {work : List WorkItem} {results : List ResultsCtx}
    (h : executeItems externals options file i work = .ok results) :
    ∀ r ∈ results, (i ≤ r.queryIndex ∧ r.queryIndex < i + work.length) ∧ r.path = file.path ∧
      r.source = file.source := by
  induction work generalizing i results with
  | nil =>
    cases h
    simp
  | cons item work ih =>
    obtain ⟨found, rest, hfound, hrest, rfl⟩ := executeItems_cons_eq_ok.mp h
    obtain ⟨ms, -, rfl⟩ := exists_of_map_eq_ok hfound
    intro r hr
    rw [List.length_cons]
    rcases List.mem_append.mp hr with hfirst | hlater
    · obtain ⟨m, -, rfl⟩ := List.mem_map.mp hfirst
      exact ⟨⟨le_rfl, by simp⟩, rfl, rfl⟩
    · obtain ⟨hbounds, hfile⟩ := ih hrest r hlater
      exact ⟨by omega, hfile⟩

/-- A file on which no work item has a match contributes nothing. -/
theorem executeItems_eq_nil {externals : Externals} {options : Options} {file : ParsedFile}
    {i : ℕ} {work : List WorkItem} {results : List ResultsCtx}
    (hrun : executeItems externals options file i work = .ok results)
    (hnone : ∀ item ∈ work, ∀ found,
      QueryTree.matches externals item.qt file.root file.source = .ok found → found = []) :
    results = [] := by
  induction work generalizing i results with
  | nil =>
    cases hrun
    rfl
  | cons item work ih =>
    obtain ⟨first, rest, hfirst, hrest, rfl⟩ := executeItems_cons_eq_ok.mp hrun
    obtain ⟨found, hmatches, rfl⟩ := exists_of_map_eq_ok hfirst
    have hfound : found = [] := hnone item List.mem_cons_self found hmatches
    have hempty : rest = [] :=
      ih hrest fun other hother => hnone other (List.mem_cons_of_mem item hother)
    rw [hfound, hempty]
    rfl

end WeggliEnhance.PipelineWork
