import WeggliEnhance.IdentifierPrefilter
import WeggliEnhance.Interleaving
import WeggliEnhance.PipelineWork

/-!
# Schedules of the pipeline

Files are parsed in any order and sent through a channel; the tasks of the
second worker take them from the channel and send their results one by one to
the collector. Every step moves work along without losing or inventing a
result, so a finished pipeline has collected what a plain sequential search
of all files finds.
-/

namespace WeggliEnhance.PipelineSchedules

open SourceText SyntaxTree ThirdParty QueryTrees QueryResults QueryEngine PatternBuilder
  FallibleState PipelineWork IdentifierPrefilter Interleaving

/-- A moment of the pipeline. -/
structure Pipeline where
  /-- Files that no thread has parsed yet. -/
  pending : List String
  /-- Parsed files in the channel between the workers. -/
  parsed : List ParsedFile
  /-- For every task the results it has not sent yet. -/
  running : List (List ResultsCtx)
  /-- Results received by the collector. -/
  collected : List ResultsCtx

/-- The pipeline before the first step. -/
def Pipeline.start (files : List String) : Pipeline := ⟨files, [], [], []⟩

/-- One step of some thread. -/
inductive Step (externals : Externals) (work : List WorkItem) (options : Options) :
    Pipeline → Pipeline → Prop
  /-- A thread of the first worker parses and sends any pending file. -/
  | parse {before after : List String} {path : String} {file : ParsedFile}
      {parsed : List ParsedFile} {running : List (List ResultsCtx)} {collected : List ResultsCtx}
      (h : maybeParse externals work path = some file) :
      Step externals work options ⟨before ++ path :: after, parsed, running, collected⟩
        ⟨before ++ after, parsed ++ [file], running, collected⟩
  /-- A thread of the first worker drops any pending file. -/
  | skip {before after : List String} {path : String} {parsed : List ParsedFile}
      {running : List (List ResultsCtx)} {collected : List ResultsCtx}
      (h : maybeParse externals work path = none) :
      Step externals work options ⟨before ++ path :: after, parsed, running, collected⟩
        ⟨before ++ after, parsed, running, collected⟩
  /-- A task of the second worker takes the next file from the channel. -/
  | receive {pending : List String} {file : ParsedFile} {parsed : List ParsedFile}
      {running : List (List ResultsCtx)} {collected results : List ResultsCtx}
      (h : executeQueries externals work options file = .ok results) :
      Step externals work options ⟨pending, file :: parsed, running, collected⟩
        ⟨pending, parsed, running ++ [results], collected⟩
  /-- Any task sends its next result. -/
  | send {pending : List String} {parsed : List ParsedFile}
      {before after : List (List ResultsCtx)} {result : ResultsCtx}
      {rest collected : List ResultsCtx} :
      Step externals work options ⟨pending, parsed, before ++ (result :: rest) :: after, collected⟩
        ⟨pending, parsed, before ++ rest :: after, collected ++ [result]⟩

/-- A run of the pipeline under some schedule. -/
def Run (externals : Externals) (work : List WorkItem) (options : Options) :
    Pipeline → Pipeline → Prop :=
  Relation.ReflTransGen (Step externals work options)

/-- A work item as `main` makes it, with distinct ids of the sub-queries. -/
structure Compiled (externals : Externals) (item : WorkItem) : Prop where
  /-- The query was built from a search pattern. -/
  built : ∃ query up pattern constraints,
    buildQueryTree externals query up pattern constraints = .ok item.qt
  /-- The ids of the sub-queries are distinct. -/
  ids : (item.qt.subQueries.map QueryTree.id).Nodup
  /-- The prefilter uses the identifiers of the query. -/
  identifiers : item.identifiers = item.qt.identifiers

/-- Every file that contains all identifiers of a work item as the query text
reads them also contains them as they are written. -/
def AsWritten (externals : Externals) (work : List WorkItem) (files : List String) : Prop :=
  ∀ item ∈ work, ∀ path ∈ files, ∀ source, externals.read path = some source →
    FoundAsWritten item.qt source

/-- Identifiers without a backslash are found as they are written. -/
theorem asWritten_of_plain {externals : Externals} {work : List WorkItem}
    (h : ∀ item ∈ work, ∀ text ∈ item.qt.identifiers, '\\' ∉ text.toList) (files : List String) :
    AsWritten externals work files := by
  intro item hitem path _ source _
  exact foundAsWritten_of_plain (h item hitem) source

/-- The results of a successful search, and none of a failed one. -/
def resultsOf (outcome : Except Panic (List ResultsCtx)) : List ResultsCtx :=
  match outcome with
  | .ok results => results
  | .error _ => []

/-- All files have been parsed and searched, and all results have been sent. -/
structure Pipeline.Finished (p : Pipeline) : Prop where
  /-- No file is left to parse. -/
  pending : p.pending = []
  /-- No file is left in the channel. -/
  parsed : p.parsed = []
  /-- No task has results left to send. -/
  running : ∀ task ∈ p.running, task = []

section Accounting

variable {externals : Externals} {work : List WorkItem} {options : Options}

/-- What a moment of the pipeline will have collected in the end. -/
def owed (externals : Externals) (work : List WorkItem) (options : Options) (p : Pipeline) :
    List ResultsCtx :=
  p.collected ++ (p.running.flatten ++
    (p.parsed.flatMap (fun file => resultsOf (executeQueries externals work options file)) ++
      p.pending.flatMap fun path => resultsOf (processFile externals work options path)))

/-- Every search that is still to come succeeds. -/
structure Healthy (externals : Externals) (work : List WorkItem) (options : Options)
    (p : Pipeline) : Prop where
  /-- Searching a pending file succeeds. -/
  pending : ∀ path ∈ p.pending, ∃ results, processFile externals work options path = .ok results
  /-- Searching a parsed file succeeds. -/
  parsed : ∀ file ∈ p.parsed, ∃ results, executeQueries externals work options file = .ok results

theorem processFile_eq_of_parsed {path : String} {file : ParsedFile}
    (h : maybeParse externals work path = some file) :
    processFile externals work options path = executeQueries externals work options file := by
  rw [processFile, h]

theorem processFile_eq_of_skipped {path : String} (h : maybeParse externals work path = none) :
    processFile externals work options path = .ok [] := by
  rw [processFile, h]

/-- A step keeps what is owed, up to order. -/
theorem owed_step {p q : Pipeline} (hstep : Step externals work options p q) :
    (owed externals work options q).Perm (owed externals work options p) := by
  rw [List.perm_iff_count]
  intro r
  cases hstep with
  | parse h =>
    rename_i before after path file parsed running collected
    have hsame : processFile externals work options path =
        executeQueries externals work options file := processFile_eq_of_parsed h
    simp only [owed, List.flatMap_append, List.flatMap_cons, List.flatMap_nil, List.append_nil,
      List.count_append, hsame]
    omega
  | skip h =>
    rename_i before after path parsed running collected
    have hempty : resultsOf (processFile externals work options path) = [] := by
      rw [processFile_eq_of_skipped h]
      rfl
    simp only [owed, List.flatMap_append, List.flatMap_cons, hempty, List.nil_append]
  | receive h =>
    rename_i pending file parsed running collected results
    have hresults : resultsOf (executeQueries externals work options file) = results := by
      rw [h]
      rfl
    simp only [owed, List.flatMap_cons, hresults, List.flatten_append, List.flatten_cons,
      List.flatten_nil, List.append_nil, List.count_append]
    omega
  | send =>
    rename_i pending parsed before after result rest collected
    have hsplit : (result :: rest).count r = [result].count r + rest.count r := by
      rw [← List.count_append, List.singleton_append]
    simp only [owed, List.flatten_append, List.flatten_cons, List.count_append, hsplit]
    omega

/-- A run keeps what is owed, up to order. -/
theorem owed_run {p q : Pipeline} (hrun : Run externals work options p q) :
    (owed externals work options q).Perm (owed externals work options p) := by
  induction hrun with
  | refl => exact List.Perm.refl _
  | tail _ hstep ih => exact (owed_step hstep).trans ih

/-- A step neither spoils nor mends the searches that are still to come. -/
theorem healthy_step_iff {p q : Pipeline} (hstep : Step externals work options p q) :
    Healthy externals work options q ↔ Healthy externals work options p := by
  cases hstep with
  | parse h =>
    rename_i before after path file parsed running collected
    have hsame : processFile externals work options path =
        executeQueries externals work options file := processFile_eq_of_parsed h
    constructor
    · rintro ⟨hpending, hparsed⟩
      refine ⟨?_, fun other hother => hparsed other (List.mem_append_left _ hother)⟩
      intro other hother
      rcases List.mem_append.mp hother with hbefore | hrest
      · exact hpending other (List.mem_append_left _ hbefore)
      · rcases List.mem_cons.mp hrest with rfl | hafter
        · rw [hsame]
          exact hparsed file (List.mem_append_right _ (List.mem_singleton_self file))
        · exact hpending other (List.mem_append_right _ hafter)
    · rintro ⟨hpending, hparsed⟩
      refine ⟨?_, ?_⟩
      · intro other hother
        refine hpending other ?_
        rcases List.mem_append.mp hother with hbefore | hafter
        · exact List.mem_append_left _ hbefore
        · exact List.mem_append_right _ (List.mem_cons_of_mem path hafter)
      · intro other hother
        rcases List.mem_append.mp hother with hold | hnew
        · exact hparsed other hold
        · rw [List.mem_singleton.mp hnew, ← hsame]
          exact hpending path (List.mem_append_right _ List.mem_cons_self)
  | skip h =>
    rename_i before after path parsed running collected
    constructor
    · rintro ⟨hpending, hparsed⟩
      refine ⟨?_, hparsed⟩
      intro other hother
      rcases List.mem_append.mp hother with hbefore | hrest
      · exact hpending other (List.mem_append_left _ hbefore)
      · rcases List.mem_cons.mp hrest with rfl | hafter
        · exact ⟨[], processFile_eq_of_skipped h⟩
        · exact hpending other (List.mem_append_right _ hafter)
    · rintro ⟨hpending, hparsed⟩
      refine ⟨?_, hparsed⟩
      intro other hother
      refine hpending other ?_
      rcases List.mem_append.mp hother with hbefore | hafter
      · exact List.mem_append_left _ hbefore
      · exact List.mem_append_right _ (List.mem_cons_of_mem path hafter)
  | receive h =>
    rename_i pending file parsed running collected results
    constructor
    · rintro ⟨hpending, hparsed⟩
      refine ⟨hpending, ?_⟩
      intro other hother
      rcases List.mem_cons.mp hother with rfl | hlater
      · exact ⟨results, h⟩
      · exact hparsed other hlater
    · rintro ⟨hpending, hparsed⟩
      exact ⟨hpending, fun other hother => hparsed other (List.mem_cons_of_mem file hother)⟩
  | send => exact ⟨fun h => ⟨h.pending, h.parsed⟩, fun h => ⟨h.pending, h.parsed⟩⟩

theorem healthy_run_iff {p q : Pipeline} (hrun : Run externals work options p q) :
    Healthy externals work options q ↔ Healthy externals work options p := by
  induction hrun with
  | refl => exact Iff.rfl
  | tail _ hstep ih => exact (healthy_step_iff hstep).trans ih

/-- A healthy pipeline in which no thread can move has finished. -/
theorem finished_of_stuck {p : Pipeline} (hhealthy : Healthy externals work options p)
    (hstuck : ∀ q, ¬Step externals work options p q) : p.Finished := by
  obtain ⟨pending, parsed, running, collected⟩ := p
  constructor
  · cases pending with
    | nil => rfl
    | cons path paths =>
      cases hparse : maybeParse externals work path with
      | none =>
        have hstep : Step externals work options ⟨[] ++ path :: paths, parsed, running, collected⟩
            ⟨[] ++ paths, parsed, running, collected⟩ := .skip hparse
        exact absurd hstep (hstuck _)
      | some file =>
        have hstep : Step externals work options ⟨[] ++ path :: paths, parsed, running, collected⟩
            ⟨[] ++ paths, parsed ++ [file], running, collected⟩ := .parse hparse
        exact absurd hstep (hstuck _)
  · cases parsed with
    | nil => rfl
    | cons file files =>
      obtain ⟨results, hresults⟩ := hhealthy.parsed file List.mem_cons_self
      exact absurd (Step.receive hresults) (hstuck _)
  · intro task htask
    cases task with
    | nil => rfl
    | cons result rest =>
      obtain ⟨before, after, rfl⟩ := List.append_of_mem htask
      exact absurd Step.send (hstuck _)

/-- Only healthy pipelines finish. -/
theorem healthy_of_finished {p q : Pipeline} (hrun : Run externals work options p q)
    (hfinished : q.Finished) : Healthy externals work options p := by
  refine (healthy_run_iff hrun).mp ⟨?_, ?_⟩
  · intro path hpath
    rw [hfinished.pending] at hpath
    cases hpath
  · intro file hfile
    rw [hfinished.parsed] at hfile
    cases hfile

/-- A finished pipeline has collected what it does with each of its files. -/
theorem collected_perm_of_finished {files : List String} {final : Pipeline}
    (hrun : Run externals work options (.start files) final) (hfinished : final.Finished) :
    final.collected.Perm
      (files.flatMap fun path => resultsOf (processFile externals work options path)) := by
  have hfinal : owed externals work options final = final.collected := by
    rw [owed, hfinished.pending, hfinished.parsed, List.flatten_eq_nil_iff.mpr hfinished.running]
    simp only [List.flatMap_nil, List.append_nil]
  have hperm := owed_run hrun
  rwa [hfinal] at hperm

/-- Steps that remain at most: two for a pending file, one for a parsed file
and one for each result that is not collected yet. -/
def weight (externals : Externals) (work : List WorkItem) (options : Options) (p : Pipeline) : ℕ :=
  2 * p.pending.length + p.parsed.length +
    ((owed externals work options p).length - p.collected.length)

/-- Every step uses up weight, so no schedule runs forever. -/
theorem weight_lt_of_step {p q : Pipeline} (hstep : Step externals work options p q) :
    weight externals work options q < weight externals work options p := by
  have hlength := (owed_step hstep).length_eq
  have hcollected : ∀ r : Pipeline,
      r.collected.length ≤ (owed externals work options r).length := by
    intro r
    rw [owed, List.length_append]
    exact Nat.le_add_right _ _
  have hp := hcollected p
  have hq := hcollected q
  unfold weight
  cases hstep with
  | parse h =>
    simp only [List.length_append, List.length_cons, List.length_nil] at hlength hp hq ⊢
    omega
  | skip h =>
    simp only [List.length_append, List.length_cons] at hlength hp hq ⊢
    omega
  | receive h =>
    simp only [List.length_cons] at hlength hp hq ⊢
    omega
  | send =>
    simp only [List.length_append, List.length_cons, List.length_nil] at hlength hp hq ⊢
    omega

/-- Every pipeline can be run until no thread can move. -/
theorem exists_stuck_run (p : Pipeline) :
    ∃ final, Run externals work options p final ∧
      ∀ next, ¬Step externals work options final next := by
  induction hweight : weight externals work options p using Nat.strong_induction_on
    generalizing p with
  | _ n ih =>
    by_cases hmove : ∃ q, Step externals work options p q
    · obtain ⟨q, hstep⟩ := hmove
      have hlt := weight_lt_of_step hstep
      rw [hweight] at hlt
      obtain ⟨final, hrun, hstuck⟩ := ih _ hlt q rfl
      exact ⟨final, Relation.ReflTransGen.head hstep hrun, hstuck⟩
    · exact ⟨p, Relation.ReflTransGen.refl, fun next hstep => hmove ⟨next, hstep⟩⟩

/-- Every healthy pipeline can be run to its end. -/
theorem exists_finished_run {p : Pipeline} (hhealthy : Healthy externals work options p) :
    ∃ final, Run externals work options p final ∧ final.Finished := by
  obtain ⟨final, hrun, hstuck⟩ := exists_stuck_run p
  exact ⟨final, hrun, finished_of_stuck ((healthy_run_iff hrun).mpr hhealthy) hstuck⟩

/-- Whatever a finished pipeline has collected was found in some parsed file. -/
theorem exists_of_mem_collected {files : List String} {final : Pipeline}
    (hrun : Run externals work options (.start files) final) (hfinished : final.Finished)
    {r : ResultsCtx} (hr : r ∈ final.collected) :
    ∃ file found, executeQueries externals work options file = .ok found ∧ r ∈ found := by
  rw [(collected_perm_of_finished hrun hfinished).mem_iff, List.mem_flatMap] at hr
  obtain ⟨path, hpath, hmem⟩ := hr
  obtain ⟨found, hfound⟩ := (healthy_of_finished hrun hfinished).pending path hpath
  rw [hfound] at hmem
  unfold processFile at hfound
  split at hfound
  · cases hfound
    cases hmem
  · exact ⟨_, found, hfound, hmem⟩

/-- A single file with one result is searched in one way only. -/
theorem exists_run_singleton {path : String} {results : List ResultsCtx}
    (h : processFile externals work options path = .ok results) (hlength : results.length = 1) :
    ∃ final, Run externals work options (.start [path]) final ∧ final.Finished ∧
      final.collected = results := by
  have hhealthy : Healthy externals work options (.start [path]) := by
    refine ⟨?_, fun file hfile => by cases hfile⟩
    intro other hother
    rw [List.mem_singleton.mp hother]
    exact ⟨results, h⟩
  obtain ⟨final, hrun, hfinished⟩ := exists_finished_run hhealthy
  have hperm := collected_perm_of_finished hrun hfinished
  rw [List.flatMap_singleton, h, resultsOf] at hperm
  obtain ⟨r, rfl⟩ := List.length_eq_one_iff.mp hlength
  exact ⟨final, hrun, hfinished, List.perm_singleton.mp hperm⟩

/-- The streams of results that are still to come, one for each file. -/
def streams (externals : Externals) (work : List WorkItem) (options : Options) (p : Pipeline) :
    List (List ResultsCtx) :=
  p.running ++
    (p.parsed.map (fun file => resultsOf (executeQueries externals work options file)) ++
      p.pending.map fun path => resultsOf (processFile externals work options path))

/-- What a step sends is the next element of some stream. -/
theorem interleaves_step {p q : Pipeline} (hstep : Step externals work options p q) :
    ∃ sent, q.collected = p.collected ++ sent ∧ ∀ tail,
      Interleaves (streams externals work options q) tail →
        Interleaves (streams externals work options p) (sent ++ tail) := by
  cases hstep with
  | parse h =>
    rename_i before after path file parsed running collected
    have hsame : processFile externals work options path =
        executeQueries externals work options file := processFile_eq_of_parsed h
    refine ⟨[], (List.append_nil _).symm, ?_⟩
    intro tail htail
    refine interleaves_of_perm htail ?_
    rw [List.perm_iff_count]
    intro stream
    simp only [streams, List.map_append, List.map_cons, List.map_nil, List.count_append,
      List.count_cons, List.count_nil, hsame]
    omega
  | skip h =>
    rename_i before after path parsed running collected
    have hempty : resultsOf (processFile externals work options path) = [] := by
      rw [processFile_eq_of_skipped h]
      rfl
    refine ⟨[], (List.append_nil _).symm, ?_⟩
    intro tail htail
    refine interleaves_of_perm (interleaves_cons_nil htail) ?_
    rw [List.perm_iff_count]
    intro stream
    simp only [streams, List.map_append, List.map_cons, List.count_append, List.count_cons, hempty]
    omega
  | receive h =>
    rename_i pending file parsed running collected results
    have hresults : resultsOf (executeQueries externals work options file) = results := by
      rw [h]
      rfl
    refine ⟨[], (List.append_nil _).symm, ?_⟩
    intro tail htail
    rw [streams, List.append_assoc] at htail
    rwa [streams, List.map_cons, hresults]
  | send =>
    rename_i pending parsed before after result rest collected
    refine ⟨[result], rfl, ?_⟩
    intro tail htail
    rw [streams, List.append_assoc, List.cons_append] at htail ⊢
    exact .take htail

/-- A run sends an interleaving of the streams. -/
theorem interleaves_run {p q : Pipeline} (hrun : Run externals work options p q) :
    ∃ sent, q.collected = p.collected ++ sent ∧ ∀ tail,
      Interleaves (streams externals work options q) tail →
        Interleaves (streams externals work options p) (sent ++ tail) := by
  induction hrun with
  | refl => exact ⟨[], (List.append_nil _).symm, fun tail htail => htail⟩
  | tail _ hstep ih =>
    obtain ⟨sent, hcollected, hsent⟩ := ih
    obtain ⟨next, hnext, hinterleaves⟩ := interleaves_step hstep
    refine ⟨sent ++ next, by rw [hnext, hcollected, List.append_assoc], ?_⟩
    intro tail htail
    rw [List.append_assoc]
    exact hsent _ (hinterleaves tail htail)

/-- A finished pipeline has collected an interleaving of the streams of its
files. -/
theorem interleaves_collected {files : List String} {final : Pipeline}
    (hrun : Run externals work options (.start files) final) (hfinished : final.Finished) :
    Interleaves (files.map fun path => resultsOf (processFile externals work options path))
      final.collected := by
  obtain ⟨sent, hcollected, hsent⟩ := interleaves_run hrun
  have hsilent : streams externals work options final = final.running := by
    rw [streams, hfinished.pending, hfinished.parsed]
    exact List.append_nil _
  have hdone := hsent [] (.done (by rw [hsilent]; exact hfinished.running))
  rw [List.append_nil] at hdone
  rw [hcollected]
  exact hdone

end Accounting

section Prefilter

variable {externals : Externals} {work : List WorkItem} {options : Options}

/-- A query with a match finds its identifiers as they are written exactly when
the source contains them so whenever it contains them as they are read. -/
theorem contains_iff_foundAsWritten (hreports : externals.ReportsMatches) {item : WorkItem}
    (hitem : Compiled externals item) {root : Node} {source : String} {found : List QueryResult}
    (hmatches : QueryTree.matches externals item.qt root source = .ok found) (hsome : found ≠ []) :
    (∀ text ∈ item.qt.identifiers, contains source text = true) ↔ FoundAsWritten item.qt source := by
  obtain ⟨query, up, pattern, constraints, hbuild⟩ := hitem.built
  constructor
  · intro hall _
    exact hall
  · intro hwritten
    exact hwritten (allOccur_of_matches hreports hbuild hitem.ids hmatches hsome)

/-- A file without the identifiers of a query has no match for it. -/
theorem matches_eq_nil (hreports : externals.ReportsMatches) {item : WorkItem}
    (hitem : Compiled externals item) {source : String} (hwritten : FoundAsWritten item.qt source)
    (hmissing : (item.identifiers.all fun identifier => contains source identifier) = false)
    {root : Node} {found : List QueryResult}
    (hmatches : QueryTree.matches externals item.qt root source = .ok found) : found = [] := by
  by_contra hsome
  have hall := (contains_iff_foundAsWritten hreports hitem hmatches hsome).mpr hwritten
  rw [hitem.identifiers, List.all_eq_false] at hmissing
  obtain ⟨text, htext, hnot⟩ := hmissing
  exact hnot (hall text htext)

end Prefilter

section Samples

/-- The query for a block that holds one name. -/
def nameTree (name : String) : QueryTree :=
  { sampleTree with
    captures := [.subMultiQuery
      { query := ⟨[[.group [.node "identifier" [], .tag (.capture "0"),
          .tag (.eqString "0" name)]]]⟩
        captures := [.check name]
        negations := []
        «variables» := ∅
        id := 1 }, .display] }

end Samples

end WeggliEnhance.PipelineSchedules
