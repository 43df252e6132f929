import WeggliEnhance.ChainFilter
import WeggliEnhance.PipelineSchedules

/-!
# Rules in one file

`main` compiles the patterns of all rules of a file into one list of work
items and runs the pipeline once. The search itself keeps the rules apart: on
a file that a run with one rule alone would parse, the results of the rule are
those of that run, with other numbers. The chainability filter does not: it
also compares results across rules.
-/

namespace WeggliEnhance.RuleIsolation

open SourceText SyntaxTree ThirdParty QueryTrees QueryResults QueryEngine PatternBuilder
  FallibleState PipelineWork PipelineSchedules ChainFilter

/-- A result belongs to a range of work items. -/
def ownedBy (offset count : ℕ) (r : ResultsCtx) : Bool :=
  decide (offset ≤ r.queryIndex ∧ r.queryIndex < offset + count)

/-- A result with the number it has in a run without the items before. -/
def renumber (offset : ℕ) (r : ResultsCtx) : ResultsCtx :=
  { r with queryIndex := r.queryIndex - offset }

/-- A result of a rule in a file that a run with the rule alone parses. -/
def foundAlone (offset : ℕ) (own : List WorkItem) (r : ResultsCtx) : Bool :=
  ownedBy offset own.length r && potentialMatch own r.source

section Search

variable {externals : Externals} {options : Options} {file : ParsedFile}

/-- A list of items runs one part after the other. -/
theorem executeItems_append {i : ℕ} {first second : List WorkItem} {results : List ResultsCtx}
    (h : executeItems externals options file i (first ++ second) = .ok results) :
    ∃ left right, executeItems externals options file i first = .ok left ∧
      executeItems externals options file (i + first.length) second = .ok right ∧
      results = left ++ right := by
  induction first generalizing i results with
  | nil => exact ⟨[], results, rfl, h, rfl⟩
  | cons item first ih =>
    obtain ⟨found, rest, hfound, hrest, rfl⟩ := executeItems_cons_eq_ok.mp h
    obtain ⟨left, right, hleft, hright, rfl⟩ := ih hrest
    refine ⟨found ++ left, right, executeItems_cons_eq_ok.mpr ⟨found, left, hfound, hleft, rfl⟩, ?_,
      (List.append_assoc _ _ _).symm⟩
    rwa [List.length_cons, Nat.add_comm first.length, ← Nat.add_assoc]

/-- Other numbers change nothing else. -/
theorem executeItems_renumber {offset i : ℕ} {items : List WorkItem} {results : List ResultsCtx}
    (h : executeItems externals options file (offset + i) items = .ok results) :
    executeItems externals options file i items = .ok (results.map (renumber offset)) := by
  induction items generalizing i results with
  | nil =>
    cases h
    rfl
  | cons item items ih =>
    obtain ⟨found, rest, hfound, hrest, rfl⟩ := executeItems_cons_eq_ok.mp h
    obtain ⟨ms, hmatches, rfl⟩ := exists_of_map_eq_ok hfound
    refine executeItems_cons_eq_ok.mpr ⟨_, _, ?_, ih hrest, List.map_append⟩
    unfold executeItem
    rw [hmatches, Except.map, List.map_map]
    have hsame : renumber offset ∘ (fun m => (⟨offset + i, file.path, file.source, m, item.reason,
        item.issue⟩ : ResultsCtx)) = fun m => ⟨i, file.path, file.source, m, item.reason,
          item.issue⟩ := by
      funext m
      simp [renumber]
    rw [hsame]

/-- The results of the middle part of a list of items are those of a run with
that part alone. -/
theorem executeQueries_own {before own after : List WorkItem} {results : List ResultsCtx}
    (h : executeQueries externals (before ++ (own ++ after)) options file = .ok results) :
    executeQueries externals own options file =
      .ok ((results.filter (ownedBy before.length own.length)).map (renumber before.length)) := by
  obtain ⟨left, rest, hleft, hrest, rfl⟩ := executeItems_append h
  obtain ⟨middle, right, hmiddle, hright, rfl⟩ := executeItems_append hrest
  have hleftNone : left.filter (ownedBy before.length own.length) = [] := by
    refine List.filter_eq_nil_iff.mpr ?_
    intro r hr
    have hbounds := (mem_executeItems hleft r hr).1
    simp only [ownedBy, decide_eq_true_eq]
    omega
  have hmiddleAll : middle.filter (ownedBy before.length own.length) = middle := by
    refine List.filter_eq_self.mpr ?_
    intro r hr
    have hbounds := (mem_executeItems hmiddle r hr).1
    simp only [ownedBy, decide_eq_true_eq]
    omega
  have hrightNone : right.filter (ownedBy before.length own.length) = [] := by
    refine List.filter_eq_nil_iff.mpr ?_
    intro r hr
    have hbounds := (mem_executeItems hright r hr).1
    simp only [ownedBy, decide_eq_true_eq]
    omega
  rw [List.filter_append, List.filter_append, hleftNone, hmiddleAll, hrightNone, List.nil_append,
    List.append_nil]
  refine executeItems_renumber ?_
  rwa [Nat.add_comm]

/-- On one file a run with one rule alone finds what its prefilter lets it
find. -/
theorem processFile_own {before own after : List WorkItem} {path : String}
    {results : List ResultsCtx}
    (h : processFile externals (before ++ (own ++ after)) options path = .ok results) :
    processFile externals own options path =
      .ok ((results.filter (foundAlone before.length own)).map (renumber before.length)) := by
  unfold processFile maybeParse at h ⊢
  cases hread : externals.read path with
  | none =>
    rw [hread] at h
    cases h
    rfl
  | some source =>
    rw [hread] at h
    cases hparse : externals.parse source with
    | none =>
      simp only [hparse, Option.map_none, ite_self] at h ⊢
      cases h
      rfl
    | some root =>
      simp only [hparse, Option.map_some] at h ⊢
      by_cases hown : potentialMatch own source = true
      · have hjoint : potentialMatch (before ++ (own ++ after)) source = true := by
          rw [potentialMatch, List.any_eq_true] at hown ⊢
          obtain ⟨item, hitem, hcontains⟩ := hown
          exact ⟨item, List.mem_append_right _ (List.mem_append_left _ hitem), hcontains⟩
        simp only [if_pos hown, if_pos hjoint] at h ⊢
        have hsame : ∀ r ∈ results, ownedBy before.length own.length r =
            foundAlone before.length own r := by
          intro r hr
          rw [foundAlone, (mem_executeItems h r hr).2.2, hown, Bool.and_true]
        rw [executeQueries_own h, List.filter_congr hsame]
      · have hnone : results.filter (foundAlone before.length own) = [] := by
          refine List.filter_eq_nil_iff.mpr ?_
          intro r hr
          split_ifs at h
          · rw [foundAlone, (mem_executeItems h r hr).2.2, Bool.eq_false_iff.mpr hown,
              Bool.and_false]
            exact Bool.false_ne_true
          · cases h
            cases hr
        rw [if_neg hown, hnone]
        rfl

/-- Two finished runs, one with all rules and one with a single rule: the
second one has collected what it can find of the first one. -/
theorem collected_alone {before own after : List WorkItem} {files : List String}
    {joint alone : Pipeline}
    (hjoint : Run externals (before ++ (own ++ after)) options (.start files) joint)
    (hjointFinished : joint.Finished) (halone : Run externals own options (.start files) alone)
    (haloneFinished : alone.Finished) :
    alone.collected.Perm
      ((joint.collected.filter (foundAlone before.length own)).map (renumber before.length)) := by
  have hhealthy := healthy_of_finished hjoint hjointFinished
  have hfiles : (files.flatMap fun path => resultsOf (processFile externals own options path)) =
      ((files.flatMap fun path =>
        resultsOf (processFile externals (before ++ (own ++ after)) options path)).filter
          (foundAlone before.length own)).map (renumber before.length) := by
    rw [List.filter_flatMap, List.map_flatMap]
    refine List.flatMap_congr ?_
    intro path hpath
    obtain ⟨results, hresults⟩ := hhealthy.pending path hpath
    rw [processFile_own hresults, hresults]
    rfl
  have hcollected := collected_perm_of_finished halone haloneFinished
  rw [hfiles] at hcollected
  exact hcollected.trans
    (((collected_perm_of_finished hjoint hjointFinished).symm.filter _).map _)

/-- With distinct query ids a rule finds all its results alone, if the files
contain its constants as they are written. -/
theorem foundAlone_of_compiled (hreports : externals.ReportsMatches)
    {before own after : List WorkItem} (hown : ∀ item ∈ own, Compiled externals item)
    {files : List String} (hwritten : AsWritten externals own files) {joint : Pipeline}
    (hjoint : Run externals (before ++ (own ++ after)) options (.start files) joint)
    (hfinished : joint.Finished) {r : ResultsCtx} (hr : r ∈ joint.collected)
    (howned : ownedBy before.length own.length r = true) :
    foundAlone before.length own r = true := by
  rw [foundAlone, howned, Bool.true_and]
  by_contra hmissing
  rw [(collected_perm_of_finished hjoint hfinished).mem_iff] at hr
  obtain ⟨path, hpath, hmem⟩ := List.mem_flatMap.mp hr
  obtain ⟨results, hresults⟩ := (healthy_of_finished hjoint hfinished).pending path hpath
  rw [hresults] at hmem
  unfold processFile at hresults
  split at hresults
  · cases hresults
    cases hmem
  · rename_i file hfile
    have halone := executeQueries_own hresults
    have hread := (of_maybeParse hfile).1
    have hnone := executeItems_eq_nil halone fun item hitem found hmatches =>
      matches_eq_nil hreports (hown item hitem) (hwritten item hitem path hpath _ hread) (by
        rw [← (mem_executeItems hresults r hmem).2.2]
        exact Bool.eq_false_iff.mpr
          (List.any_eq_false.mp (Bool.eq_false_iff.mpr hmissing) item hitem)) hmatches
    have hin : renumber before.length r ∈
        (results.filter (ownedBy before.length own.length)).map (renumber before.length) :=
      List.mem_map_of_mem (List.mem_filter.mpr ⟨hmem, howned⟩)
    rw [hnone] at hin
    cases hin

end Search

/-- Two filters keep the same elements under an injective map exactly if they
agree. -/
theorem map_filter_perm_iff {α β : Type*} {p q : α → Bool} {list : List α} {f : α → β}
    (hinjective : ∀ a ∈ list, ∀ b ∈ list, f a = f b → a = b) :
    ((list.filter p).map f).Perm ((list.filter q).map f) ↔ ∀ a ∈ list, p a = q a := by
  have hmem : ∀ (r : α → Bool), ∀ a ∈ list, f a ∈ (list.filter r).map f ↔ r a = true := by
    intro r a ha
    constructor
    · intro h
      obtain ⟨b, hb, heq⟩ := List.mem_map.mp h
      obtain ⟨hin, hrb⟩ := List.mem_filter.mp hb
      rwa [← hinjective b hin a ha heq]
    · intro h
      exact List.mem_map_of_mem (List.mem_filter.mpr ⟨ha, h⟩)
  constructor
  · intro hperm a ha
    rw [Bool.eq_iff_iff, ← hmem p a ha, ← hmem q a ha]
    exact hperm.mem_iff
  · intro hsame
    exact List.Perm.of_eq (congrArg (List.map f) (List.filter_congr hsame))

section Filter

variable {offset : ℕ} {own : List WorkItem} {results : List ResultsCtx} {a : ResultsCtx}

theorem ownedBy_iff {count : ℕ} {r : ResultsCtx} :
    ownedBy offset count r = true ↔ offset ≤ r.queryIndex ∧ r.queryIndex < offset + count := by
  rw [ownedBy, decide_eq_true_eq]

/-- Compatibility does not depend on the numbers. -/
theorem compatible_renumber (hle : ∀ r ∈ results, offset ≤ r.queryIndex)
    (ha : offset ≤ a.queryIndex) :
    Compatible (results.map (renumber offset)) (renumber offset a) ↔ Compatible results a := by
  constructor
  · intro h c hc hne
    have hcle := hle c hc
    obtain ⟨b', hb', hindex, hchains⟩ := h (renumber offset c) (List.mem_map_of_mem hc)
      (by simp only [renumber]; omega)
    obtain ⟨b, hb, rfl⟩ := List.mem_map.mp hb'
    have hble := hle b hb
    simp only [renumber] at hindex
    exact ⟨b, hb, by omega, hchains⟩
  · intro h c' hc' hne
    obtain ⟨c, hc, rfl⟩ := List.mem_map.mp hc'
    simp only [renumber] at hne
    obtain ⟨b, hb, hindex, hchains⟩ := h c hc (by omega)
    refine ⟨renumber offset b, List.mem_map_of_mem hb, ?_, hchains⟩
    simp only [renumber, hindex]

theorem renumber_injective {b : ResultsCtx} (ha : offset ≤ a.queryIndex)
    (hb : offset ≤ b.queryIndex) (h : renumber offset a = renumber offset b) : a = b := by
  obtain ⟨i, path, source, result, reason, issue⟩ := a
  obtain ⟨j, path', source', result', reason', issue'⟩ := b
  simp only [renumber, ResultsCtx.mk.injEq] at ha hb h ⊢
  exact ⟨by omega, h.2⟩

/-- What is reported for a rule, with the numbers of a run with it alone. -/
def reportedFor (offset count : ℕ) (results : List ResultsCtx) : List ResultsCtx :=
  ((filterChainableResults results).filter (ownedBy offset count)).map (renumber offset)

theorem reportedFor_perm {results results' : List ResultsCtx} (h : results.Perm results')
    (offset count : ℕ) :
    (reportedFor offset count results).Perm (reportedFor offset count results') :=
  ((filterChainableResults_perm h).filter _).map _

/-- The filter treats a rule as it would alone exactly if it decides on each
of its results as it would alone. -/
theorem reportedFor_perm_iff (offset : ℕ) (own : List WorkItem) (results : List ResultsCtx) :
    (reportedFor offset own.length results).Perm
        (filterChainableResults ((results.filter (foundAlone offset own)).map (renumber offset))) ↔
      ∀ a ∈ results, ownedBy offset own.length a = true →
        (Compatible results a ↔ foundAlone offset own a = true ∧
          Compatible (results.filter (foundAlone offset own)) a) := by
  have hjoint : reportedFor offset own.length results =
      ((results.filter (ownedBy offset own.length)).filter fun a =>
        decide (Compatible results a)).map (renumber offset) := by
    rw [reportedFor, filterChainableResults_eq, List.filter_comm]
  have halone : filterChainableResults
      ((results.filter (foundAlone offset own)).map (renumber offset)) =
      ((results.filter (ownedBy offset own.length)).filter fun a =>
        decide (foundAlone offset own a = true ∧
          Compatible (results.filter (foundAlone offset own)) a)).map (renumber offset) := by
    have hle : ∀ r ∈ results.filter (foundAlone offset own), offset ≤ r.queryIndex := by
      intro r hr
      have hfound := (List.mem_filter.mp hr).2
      rw [foundAlone, Bool.and_eq_true] at hfound
      exact (ownedBy_iff.mp hfound.1).1
    rw [filterChainableResults_eq, List.filter_map]
    refine congrArg (List.map (renumber offset)) ?_
    rw [List.filter_filter, List.filter_filter]
    refine List.filter_congr ?_
    intro a ha
    rw [Bool.eq_iff_iff, Bool.and_eq_true, Bool.and_eq_true, Function.comp_apply,
      decide_eq_true_iff, decide_eq_true_iff]
    constructor
    · rintro ⟨hcompatible, hfound⟩
      have hown := hfound
      rw [foundAlone, Bool.and_eq_true] at hown
      exact ⟨⟨hfound, (compatible_renumber hle (ownedBy_iff.mp hown.1).1).mp hcompatible⟩, hown.1⟩
    · rintro ⟨⟨hfound, hcompatible⟩, hown⟩
      exact ⟨(compatible_renumber hle (ownedBy_iff.mp hown).1).mpr hcompatible, hfound⟩
  rw [hjoint, halone, map_filter_perm_iff]
  · simp only [List.mem_filter, decide_eq_decide, and_imp]
  · intro a ha b hb heq
    exact renumber_injective (ownedBy_iff.mp (List.mem_filter.mp ha).2).1
      (ownedBy_iff.mp (List.mem_filter.mp hb).2).1 heq

/-- A result of a rule is compatible with all rules when it is compatible
inside its rule and can be chained with every other query that has results. -/
theorem compatible_iff_of_own {count : ℕ} (ha : ownedBy offset count a = true) :
    Compatible results a ↔ Compatible (results.filter (ownedBy offset count)) a ∧
      ∀ c ∈ results, ownedBy offset count c = false →
        ∃ b ∈ results, b.queryIndex = c.queryIndex ∧ chains a b = true := by
  have hsame : ∀ b c : ResultsCtx, b.queryIndex = c.queryIndex →
      ownedBy offset count b = ownedBy offset count c := by
    intro b c hindex
    rw [ownedBy, ownedBy, hindex]
  constructor
  · intro h
    constructor
    · intro c hc hne
      obtain ⟨hmem, hcown⟩ := List.mem_filter.mp hc
      obtain ⟨b, hb, hindex, hchains⟩ := h c hmem hne
      exact ⟨b, List.mem_filter.mpr ⟨hb, by rw [hsame b c hindex, hcown]⟩, hindex, hchains⟩
    · intro c hc hforeign
      refine h c hc ?_
      intro hindex
      rw [hsame c a hindex, ha] at hforeign
      cases hforeign
  · rintro ⟨hinside, houtside⟩ c hc hne
    cases hcown : ownedBy offset count c with
    | false => exact houtside c hc hcown
    | true =>
      obtain ⟨b, hb, hindex, hchains⟩ := hinside c (List.mem_filter.mpr ⟨hc, hcown⟩) hne
      exact ⟨b, (List.mem_filter.mp hb).1, hindex, hchains⟩

end Filter

section Rules

variable {externals : Externals} {before after : List (List WorkItem)} {own : List WorkItem}
variable {options : Options} {files : List String} {joint alone : Pipeline}

/-- What both runs report, in terms of what the first one has collected. -/
theorem reported_perm_iff
    (hjoint : Run externals (before ++ own :: after).flatten options (.start files) joint)
    (hjointFinished : joint.Finished) (halone : Run externals own options (.start files) alone)
    (haloneFinished : alone.Finished) :
    (reportedFor before.flatten.length own.length joint.collected).Perm
        (filterChainableResults alone.collected) ↔
      ∀ a ∈ joint.collected, ownedBy before.flatten.length own.length a = true →
        (Compatible joint.collected a ↔ foundAlone before.flatten.length own a = true ∧
          Compatible (joint.collected.filter (foundAlone before.flatten.length own)) a) := by
  rw [List.flatten_append, List.flatten_cons] at hjoint
  have hcollected := filterChainableResults_perm
    (collected_alone hjoint hjointFinished halone haloneFinished)
  rw [← reportedFor_perm_iff]
  exact ⟨fun h => h.trans hcollected, fun h => h.trans hcollected.symm⟩

/-- When rules of one file keep out of each other's way. Two finished runs of
the pipeline, one with all rules of a file and one with a single rule of it,
report the same results for that rule if and only if each result of the rule
is compatible with all queries of the file exactly when a run with the rule
alone finds it and it is compatible with what that run finds. Where query ids
are distinct and files contain the constants of the rule as they are written,
the rule finds all its results alone, and the condition is that every result
that is compatible inside the rule can also be chained with some result of
every query of the other rules that has results. -/
theorem reported_alone_iff
    (hjoint : Run externals (before ++ own :: after).flatten options (.start files) joint)
    (hjointFinished : joint.Finished) (halone : Run externals own options (.start files) alone)
    (haloneFinished : alone.Finished) :
    ((reportedFor before.flatten.length own.length joint.collected).Perm
        (filterChainableResults alone.collected) ↔
      ∀ a ∈ joint.collected, ownedBy before.flatten.length own.length a = true →
        (Compatible joint.collected a ↔ foundAlone before.flatten.length own a = true ∧
          Compatible (joint.collected.filter (foundAlone before.flatten.length own)) a)) ∧
    (externals.ReportsMatches → (∀ item ∈ own, Compiled externals item) →
      AsWritten externals own files →
      ((reportedFor before.flatten.length own.length joint.collected).Perm
          (filterChainableResults alone.collected) ↔
        ∀ a ∈ joint.collected, ownedBy before.flatten.length own.length a = true →
          Compatible (joint.collected.filter (ownedBy before.flatten.length own.length)) a →
          ∀ c ∈ joint.collected, ownedBy before.flatten.length own.length c = false →
            ∃ b ∈ joint.collected, b.queryIndex = c.queryIndex ∧ chains a b = true)) := by
  have hgeneral := reported_perm_iff hjoint hjointFinished halone haloneFinished
  refine ⟨hgeneral, ?_⟩
  intro hreports hown hwritten
  rw [List.flatten_append, List.flatten_cons] at hjoint
  have hfound : ∀ r ∈ joint.collected, foundAlone before.flatten.length own r =
      ownedBy before.flatten.length own.length r := by
    intro r hr
    rw [Bool.eq_iff_iff]
    constructor
    · intro h
      rw [foundAlone, Bool.and_eq_true] at h
      exact h.1
    · exact foundAlone_of_compiled hreports hown hwritten hjoint hjointFinished hr
  rw [hgeneral, List.filter_congr hfound]
  constructor
  · intro h a ha howned hinside
    have hcompatible := (h a ha howned).mpr ⟨by rw [hfound a ha, howned], hinside⟩
    exact ((compatible_iff_of_own howned).mp hcompatible).2
  · intro h a ha howned
    rw [hfound a ha, compatible_iff_of_own howned]
    exact ⟨fun hcompatible => ⟨howned, hcompatible.1⟩,
      fun hinside => ⟨hinside.2, h a ha howned hinside.2⟩⟩

end Rules

/-- The search pattern `{$x;b;}`. -/
def pairPattern : Node :=
  rule 1 "compound_statement" 0 7
    [token 2 "\x7b" 0 1, nameStatement 3 1 3, nameStatement 6 4 5, token 9 "\x7d" 6 7]

/-- The query for that pattern. -/
def pairTree : QueryTree :=
  { sampleTree with
    captures := [.subMultiQuery
      { query := ⟨[[.group [.alternation [.node "identifier" [], .node "field_expression" [],
          .node "field_identifier" []], .tag (.capture "0")]],
          [.group [.node "identifier" [], .tag (.capture "1"), .tag (.eqString "1" "b")]]]⟩
        captures := [.variable "$x" none, .check "b"]
        negations := []
        «variables» := {"$x"}
        id := 1 }, .display] }

/-- The items of a rule with the pattern `{$x;b;}`. -/
def pairRule : List WorkItem := [⟨pairTree, ["b"], "pair", "issue"⟩]

/-- The items of a rule with the pattern `{$x;}`. -/
def nameRule : List WorkItem := [⟨sampleTree, [], "name", "issue"⟩]

theorem compiled_sampleRules :
    ∀ item ∈ ([pairRule] ++ nameRule :: []).flatten, Compiled sampleExternals item := by
  have hpair : buildQueryTree sampleExternals "\x7b$x;b;\x7d"
      (some (rule 0 "translation_unit" 0 7 [pairPattern])) pairPattern ∅ = .ok pairTree := by rfl
  have hname : buildQueryTree sampleExternals samplePatternText (some samplePatternRoot)
      samplePattern ∅ = .ok sampleTree := by rfl
  intro item hitem
  rcases List.mem_cons.mp hitem with rfl | hrest
  · exact ⟨⟨_, _, _, _, hpair⟩, by decide, rfl⟩
  · rw [List.mem_singleton.mp hrest]
    exact ⟨⟨_, _, _, _, hname⟩, by decide, rfl⟩

/-- Both runs on the program with two names come to their end. -/
theorem exists_sampleRuns :
    ∃ joint alone,
      Run sampleExternals ([pairRule] ++ nameRule :: []).flatten ⟨false, false⟩ (.start ["g.c"])
        joint ∧ joint.Finished ∧
      Run sampleExternals nameRule ⟨false, false⟩ (.start ["g.c"]) alone ∧ alone.Finished := by
  have hjointLength : (processFile sampleExternals ([pairRule] ++ nameRule :: []).flatten
      ⟨false, false⟩ "g.c").map List.length = .ok 3 := by decide +kernel
  have haloneLength : (processFile sampleExternals nameRule ⟨false, false⟩ "g.c").map
      List.length = .ok 2 := by decide +kernel
  have hhealthy : ∀ {work : List WorkItem} {n : ℕ},
      (processFile sampleExternals work ⟨false, false⟩ "g.c").map List.length = .ok n →
        Healthy sampleExternals work ⟨false, false⟩ (.start ["g.c"]) := by
    intro work n h
    obtain ⟨results, hresults, -⟩ := exists_of_map_eq_ok h
    refine ⟨?_, fun file hfile => by cases hfile⟩
    intro path hpath
    rw [List.mem_singleton.mp hpath]
    exact ⟨results, hresults⟩
  obtain ⟨joint, hjoint, hjointFinished⟩ := exists_finished_run (hhealthy hjointLength)
  obtain ⟨alone, halone, haloneFinished⟩ := exists_finished_run (hhealthy haloneLength)
  exact ⟨joint, alone, hjoint, hjointFinished, halone, haloneFinished⟩

/-- The hypotheses are met by the two rules on that program. -/
theorem reported_alone_iff_sample :
    ∃ joint alone,
      Run sampleExternals ([pairRule] ++ nameRule :: []).flatten ⟨false, false⟩ (.start ["g.c"])
        joint ∧
      Run sampleExternals nameRule ⟨false, false⟩ (.start ["g.c"]) alone ∧
      ((reportedFor 1 1 joint.collected).Perm (filterChainableResults alone.collected) ↔
        ∀ a ∈ joint.collected, ownedBy 1 1 a = true →
          Compatible (joint.collected.filter (ownedBy 1 1)) a →
          ∀ c ∈ joint.collected, ownedBy 1 1 c = false →
            ∃ b ∈ joint.collected, b.queryIndex = c.queryIndex ∧ chains a b = true) := by
  obtain ⟨joint, alone, hjoint, hjointFinished, halone, haloneFinished⟩ := exists_sampleRuns
  have hname : ∀ item ∈ nameRule, Compiled sampleExternals item := by
    intro item hitem
    exact compiled_sampleRules item (List.mem_cons_of_mem _ hitem)
  exact ⟨joint, alone, hjoint, halone,
    (reported_alone_iff hjoint hjointFinished halone haloneFinished).2
      sampleExternals_reportsMatches hname (asWritten_of_plain (by decide) ["g.c"])⟩

/-- On the program with two names the pattern `{$x;}` alone reports both.
Together with a rule for `{$x;b;}` one of them is discarded. -/
theorem rules_interfere :
    (∀ item ∈ ([pairRule] ++ nameRule :: []).flatten, Compiled sampleExternals item) ∧
      ∃ joint alone,
        Run sampleExternals ([pairRule] ++ nameRule :: []).flatten ⟨false, false⟩ (.start ["g.c"])
          joint ∧ joint.Finished ∧
        Run sampleExternals nameRule ⟨false, false⟩ (.start ["g.c"]) alone ∧ alone.Finished ∧
        ¬(reportedFor 1 1 joint.collected).Perm (filterChainableResults alone.collected) := by
  obtain ⟨joint, alone, hjoint, hjointFinished, halone, haloneFinished⟩ := exists_sampleRuns
  have hleft := (reportedFor_perm (collected_perm_of_finished hjoint hjointFinished) 1 1).length_eq
  have hright := (filterChainableResults_perm
    (collected_perm_of_finished halone haloneFinished)).length_eq
  have hone : (reportedFor 1 1 (["g.c"].flatMap fun path => resultsOf (processFile sampleExternals
      ([pairRule] ++ nameRule :: []).flatten ⟨false, false⟩ path))).length = 1 := by decide +kernel
  have htwo : (filterChainableResults (["g.c"].flatMap fun path => resultsOf (processFile
      sampleExternals nameRule ⟨false, false⟩ path))).length = 2 := by decide +kernel
  refine ⟨compiled_sampleRules, joint, alone, hjoint, hjointFinished, halone, haloneFinished, ?_⟩
  intro hperm
  have hlength := hperm.length_eq
  omega

end WeggliEnhance.RuleIsolation
