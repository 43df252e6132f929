import WeggliEnhance.PipelineWork
import WeggliEnhance.ResultMerge

/-!
# The switches `--unique` and `--limit`

The worker sends the matches of a work item through two filters that share one
iterator. The first one walks the hash map of a match with a growing set of
values, the second one remembers the functions that have had their match. The
results that are forwarded stand at positions that are described without any
state, and one function never uses up the place of another match.
-/

namespace WeggliEnhance.ResultFilters

open SourceText SyntaxTree ThirdParty QueryTrees QueryResults QueryEngine FallibleState PipelineWork
  ResultMerge

/-- The set of values that `check_unique` fills for one match, in one visiting
order. The outer option is a panic. -/
def freshLoop (m : QueryResult) (source : String) :
    List String → List (Σ _ : String, ℕ) → Option Bool
  | _, [] => some true
  | seen, ⟨k, _⟩ :: rest =>
    match checkedValue m k source with
    | some (some x) => if x ∈ seen then some false else freshLoop m source (x :: seen) rest
    | _ => none

/-- `check_unique` for one visiting order. -/
def checkUniqueVisiting (options : Options) (source : String) (m : QueryResult)
    (order : List (Σ _ : String, ℕ)) : Option Bool :=
  if options.unique then freshLoop m source [] order else some true

/-- The iterator chain of the worker: every match passes `check_unique` and
then `check_limit` before the next one is looked at. -/
def forwardLoop (options : Options) (source : String) :
    List ℕ → List (QueryResult × List (Σ _ : String, ℕ)) → Option (List QueryResult)
  | _, [] => some []
  | skipSet, (m, order) :: rest =>
    match checkUniqueVisiting options source m order with
    | none => none
    | some false => forwardLoop options source skipSet rest
    | some true =>
      if options.limit then
        if m.startOffset ∈ skipSet then forwardLoop options source skipSet rest
        else (forwardLoop options source (m.startOffset :: skipSet) rest).map (m :: ·)
      else (forwardLoop options source skipSet rest).map (m :: ·)

/-- With `--unique`, different variables of a match have different texts. -/
def Acceptable (options : Options) (source : String) (m : QueryResult) : Prop :=
  options.unique = true → ∀ v w text, m.value v source = some text → m.value w source = some text →
    v = w

/-- A position whose match is forwarded: the match is acceptable and, with
`--limit`, the first acceptable one of its function. -/
def Kept (options : Options) (source : String) (found : List QueryResult) (k : ℕ) : Prop :=
  ∃ m, found[k]? = some m ∧ Acceptable options source m ∧
    (options.limit = true → ∀ j < k, ∀ earlier, found[j]? = some earlier →
      Acceptable options source earlier → earlier.startOffset ≠ m.startOffset)

/-- Texts of distinct names repeat exactly when two of the names share one. -/
theorem nodup_texts_iff {m : QueryResult} {source : String} {order : List (Σ _ : String, ℕ)}
    (hnodup : (order.map Sigma.fst).Nodup) :
    (order.filterMap fun entry => m.value entry.1 source).Nodup ↔
      ∀ v ∈ order.map Sigma.fst, ∀ w ∈ order.map Sigma.fst, ∀ text,
        m.value v source = some text → m.value w source = some text → v = w := by
  have hmap : (order.filterMap fun entry => m.value entry.1 source) =
      (order.map Sigma.fst).filterMap fun v => m.value v source := by
    rw [List.filterMap_map]
    rfl
  rw [hmap]
  constructor
  · intro htexts v hv w hw text hvtext hwtext
    by_contra hne
    have hpair := List.pairwise_filterMap.mp htexts
    have hsymm : Std.Symm fun v w => ∀ text, m.value v source = some text → ∀ other,
        m.value w source = some other → text ≠ other :=
      ⟨fun _ _ h text htext other hother => (h other hother text htext).symm⟩
    exact hpair.forall hv hw hne text hvtext text hwtext rfl
  · intro h
    refine List.pairwise_filterMap.mpr (hnodup.imp_of_mem ?_)
    intro v w hv hw hne text hvtext other hwother heq
    exact hne (h v hv w hw text hvtext (hwother.trans (congrArg some heq.symm)))

/-- Without `--limit` nothing is dropped. -/
theorem enforceLimit_false (skipSet : List ℕ) (found : List QueryResult) :
    enforceLimit false skipSet found = found := by
  induction found generalizing skipSet with
  | nil => rfl
  | cons m found ih => rw [enforceLimit, Bool.false_and, if_neg Bool.false_ne_true, ih]

section Unique

variable {options : Options} {source : String} {m : QueryResult}
  {order : List (Σ _ : String, ℕ)}

theorem checkUnique_iff : checkUnique options source m = true ↔ Acceptable options source m := by
  rw [checkUnique, Bool.or_eq_true, Bool.not_eq_true', decide_eq_true_iff, Acceptable]
  constructor
  · rintro (hoff | hall) hunique v w text hv hw
    · rw [hoff] at hunique
      cases hunique
    · have hmem : ∀ {u}, m.value u source = some text → u ∈ m.vars.keys := fun hu =>
        Finmap.mem_keys.mpr ((value_isSome_iff source).mp (Option.isSome_of_eq_some hu))
      exact hall v (hmem hv) w (hmem hw) (hv.trans hw.symm)
  · intro h
    cases hunique : options.unique with
    | false => exact .inl rfl
    | true =>
      refine .inr ?_
      intro v hv w hw heq
      obtain ⟨text, htext⟩ := exists_value_of_mem (Finmap.mem_keys.mp hv) source
      exact h hunique v w text htext (heq.symm.trans htext)

/-- The growing set finds a repetition exactly when two of the visited names
have one text or a text was seen before. -/
theorem freshLoop_eq (hreadable : Readable source m) (horder : ∀ entry ∈ order, entry.1 ∈ m.vars)
    (seen : List String) (hseen : seen.Nodup) :
    freshLoop m source seen order =
      some (decide ((order.filterMap fun entry => m.value entry.1 source).reverse ++
        seen).Nodup) := by
  induction order generalizing seen with
  | nil => simp [freshLoop, hseen]
  | cons entry order ih =>
    obtain ⟨k, i⟩ := entry
    have hrest := ih fun entry hentry => horder entry (List.mem_cons_of_mem _ hentry)
    obtain ⟨x, hx⟩ := exists_value_of_mem (horder ⟨k, i⟩ List.mem_cons_self) source
    rw [freshLoop, checkedValue_eq hreadable, List.filterMap_cons]
    simp only [hx, List.reverse_cons, List.append_assoc, List.singleton_append]
    split_ifs with hmem
    · have hdup : ¬ (x :: seen).Nodup := fun hnodup => (List.nodup_cons.mp hnodup).1 hmem
      have hall : ¬ ((order.filterMap fun entry => m.value entry.1 source).reverse ++
          x :: seen).Nodup := fun hnodup => hdup (List.nodup_append.mp hnodup).2.1
      rw [decide_eq_false hall]
    · exact hrest (x :: seen) (List.nodup_cons.mpr ⟨hmem, hseen⟩)

/-- Visiting all variables in any order is the test of the pipeline. -/
theorem checkUniqueVisiting_eq (hreadable : Readable source m) (horder : Visits order m.vars) :
    checkUniqueVisiting options source m order = some (checkUnique options source m) := by
  cases hunique : options.unique with
  | false => simp [checkUniqueVisiting, checkUnique, hunique]
  | true =>
    have hnames : ∀ entry ∈ order, entry.1 ∈ m.vars := fun entry hentry =>
      (mem_names_iff horder).mp (List.mem_map_of_mem hentry)
    rw [checkUniqueVisiting, if_pos hunique, freshLoop_eq hreadable hnames [] List.nodup_nil,
      List.append_nil, Option.some.injEq, Bool.eq_iff_iff, checkUnique_iff, decide_eq_true_iff,
      List.nodup_reverse, nodup_texts_iff (nodup_visits horder)]
    constructor
    · intro h _ v w text hv hw
      have hmem : ∀ {u}, m.value u source = some text → u ∈ order.map Sigma.fst := fun hu =>
        (mem_names_iff horder).mpr ((value_isSome_iff source).mp (Option.isSome_of_eq_some hu))
      exact h v (hmem hv) w (hmem hw) text hv hw
    · intro h v _ w _ text hv hw
      exact h hunique v w text hv hw

end Unique

section Limit

variable {options : Options} {source : String}

/-- The chain of both filters forwards the same matches as filtering twice. -/
theorem forwardLoop_eq {visited : List (QueryResult × List (Σ _ : String, ℕ))}
    (hvisited : ∀ entry ∈ visited, Readable source entry.1 ∧ Visits entry.2 entry.1.vars)
    (skipSet : List ℕ) :
    forwardLoop options source skipSet visited =
      some (enforceLimit options.limit skipSet
        ((visited.map Prod.fst).filter (checkUnique options source))) := by
  induction visited generalizing skipSet with
  | nil => rfl
  | cons entry visited ih =>
    obtain ⟨m, order⟩ := entry
    obtain ⟨hreadable, horder⟩ := hvisited (m, order) List.mem_cons_self
    have hrest := ih fun entry hentry => hvisited entry (List.mem_cons_of_mem _ hentry)
    rw [forwardLoop, checkUniqueVisiting_eq hreadable horder, List.map_cons, List.filter_cons]
    cases checkUnique options source m with
    | false =>
      simp only [hrest, Bool.false_eq_true, if_false]
    | true =>
      simp only [if_true, enforceLimit, hrest]
      cases hlimit : options.limit with
      | false =>
        simp only [Bool.false_eq_true, if_false, Bool.false_and, Option.map_some]
        rw [enforceLimit_false, enforceLimit_false]
      | true =>
        simp only [if_true, Bool.true_and, List.contains_iff_mem, Option.map_some]
        split_ifs with hskip
        · rfl
        · rfl

/-- What stands before a later position of a list with a new head. -/
theorem forall_before_succ {m : QueryResult} {found : List QueryResult} {k : ℕ}
    {p : QueryResult → Prop} :
    (∀ j < k + 1, ∀ earlier, (m :: found)[j]? = some earlier → p earlier) ↔
      p m ∧ ∀ j < k, ∀ earlier, found[j]? = some earlier → p earlier := by
  rw [Nat.forall_lt_succ_left]
  simp only [List.getElem?_cons_zero, List.getElem?_cons_succ, Option.some.injEq, forall_eq']

/-- Positions in the tail of a list, counted from its head. -/
theorem filterMap_succ (m : QueryResult) (found : List QueryResult) (positions : List ℕ) :
    (positions.map Nat.succ).filterMap ((m :: found)[·]?) = positions.filterMap (found[·]?) := by
  rw [List.filterMap_map]
  rfl

theorem pairwise_map_succ {positions : List ℕ} (h : positions.Pairwise (· < ·)) :
    (positions.map Nat.succ).Pairwise (· < ·) :=
  List.pairwise_map.mpr (h.imp Nat.succ_lt_succ)

/-- The positions at which the matches of new functions pass a test. -/
def Passes (limit : Bool) (test : QueryResult → Bool) (skipSet : List ℕ)
    (found : List QueryResult) (k : ℕ) : Prop :=
  ∃ m, found[k]? = some m ∧ test m = true ∧
    (limit = true → m.startOffset ∉ skipSet ∧ ∀ j < k, ∀ earlier, found[j]? = some earlier →
      test earlier = true → earlier.startOffset ≠ m.startOffset)

/-- A position behind a match is passed when that match has another function or
fails the test itself. -/
theorem passes_succ_iff {limit : Bool} {test : QueryResult → Bool} {skipSet : List ℕ}
    {m : QueryResult} {found : List QueryResult} {k : ℕ} :
    Passes limit test skipSet (m :: found) (k + 1) ↔
      ∃ later, found[k]? = some later ∧ test later = true ∧
        (limit = true → later.startOffset ∉ skipSet ∧
          (test m = true → m.startOffset ≠ later.startOffset) ∧
          ∀ j < k, ∀ earlier, found[j]? = some earlier → test earlier = true →
            earlier.startOffset ≠ later.startOffset) := by
  simp only [Passes, List.getElem?_cons_succ, forall_before_succ]

/-- A match that is dropped leaves the later positions as they are. -/
theorem passes_of_dropped {limit : Bool} {test : QueryResult → Bool} {skipSet : List ℕ}
    {m : QueryResult} {found : List QueryResult}
    (hdropped : test m = false ∨ limit = true ∧ m.startOffset ∈ skipSet) (k : ℕ) :
    Passes limit test skipSet (m :: found) k ↔
      ∃ j, Passes limit test skipSet found j ∧ j + 1 = k := by
  cases k with
  | zero =>
    constructor
    · rintro ⟨other, hother, htest, hlimit⟩
      cases Option.some.inj hother
      obtain hfail | ⟨hon, hskip⟩ := hdropped
      · rw [hfail] at htest
        cases htest
      · exact absurd hskip (hlimit hon).1
    · rintro ⟨j, -, hj⟩
      omega
  | succ k =>
    have hother : ∀ later : QueryResult, limit = true → later.startOffset ∉ skipSet →
        test m = true → m.startOffset ≠ later.startOffset := by
      intro later _ hlater htest heq
      obtain hfail | ⟨-, hskip⟩ := hdropped
      · rw [hfail] at htest
        cases htest
      · exact hlater (heq ▸ hskip)
    rw [passes_succ_iff]
    constructor
    · rintro ⟨later, hlater, htest, hlimit⟩
      exact ⟨k, ⟨later, hlater, htest, fun h => ⟨(hlimit h).1, (hlimit h).2.2⟩⟩, rfl⟩
    · rintro ⟨j, ⟨later, hlater, htest, hlimit⟩, hj⟩
      obtain rfl : j = k := by omega
      exact ⟨later, hlater, htest, fun h =>
        ⟨(hlimit h).1, hother later h (hlimit h).1, (hlimit h).2⟩⟩

/-- A match that is kept bars its function for the later positions. -/
theorem passes_of_kept {limit : Bool} {test : QueryResult → Bool} {skipSet : List ℕ}
    {m : QueryResult} {found : List QueryResult} (htest : test m = true)
    (hfresh : limit = true → m.startOffset ∉ skipSet) (k : ℕ) :
    Passes limit test skipSet (m :: found) k ↔
      k = 0 ∨ ∃ j, Passes limit test (m.startOffset :: skipSet) found j ∧ j + 1 = k := by
  cases k with
  | zero =>
    refine iff_of_true ⟨m, rfl, htest, fun h => ⟨hfresh h, ?_⟩⟩ (.inl rfl)
    intro j hj
    omega
  | succ k =>
    rw [passes_succ_iff]
    constructor
    · rintro ⟨later, hlater, hlatertest, hlimit⟩
      refine .inr ⟨k, ⟨later, hlater, hlatertest, fun h => ⟨?_, (hlimit h).2.2⟩⟩, rfl⟩
      rw [List.mem_cons, not_or]
      exact ⟨((hlimit h).2.1 htest).symm, (hlimit h).1⟩
    · rintro (hzero | ⟨j, ⟨later, hlater, hlatertest, hlimit⟩, hj⟩)
      · omega
      · obtain rfl : j = k := by omega
        refine ⟨later, hlater, hlatertest, fun h => ?_⟩
        obtain ⟨hnew, hearlier⟩ := hlimit h
        rw [List.mem_cons, not_or] at hnew
        exact ⟨hnew.2, fun _ heq => hnew.1 heq.symm, hearlier⟩

/-- The matches that are kept stand at the passed positions, in order. -/
theorem exists_positions (limit : Bool) (test : QueryResult → Bool) (skipSet : List ℕ)
    (found : List QueryResult) :
    ∃ positions : List ℕ, positions.Pairwise (· < ·) ∧
      (∀ k, k ∈ positions ↔ Passes limit test skipSet found k) ∧
      enforceLimit limit skipSet (found.filter test) = positions.filterMap (found[·]?) := by
  induction found generalizing skipSet with
  | nil => exact ⟨[], List.Pairwise.nil, by simp [Passes], rfl⟩
  | cons m found ih =>
    by_cases hdropped : test m = false ∨ limit = true ∧ m.startOffset ∈ skipSet
    · obtain ⟨positions, hsorted, hmem, heq⟩ := ih skipSet
      refine ⟨positions.map Nat.succ, pairwise_map_succ hsorted, ?_, ?_⟩
      · intro k
        rw [passes_of_dropped hdropped, List.mem_map]
        simp only [hmem]
      · rw [filterMap_succ, ← heq, List.filter_cons]
        split_ifs with htest
        · have hskip := hdropped.resolve_left (by rw [htest]; exact Bool.noConfusion)
          rw [enforceLimit, if_pos (by simpa using hskip)]
        · rfl
    · rw [not_or, Bool.not_eq_false, not_and] at hdropped
      obtain ⟨htest, hfresh⟩ := hdropped
      obtain ⟨positions, hsorted, hmem, heq⟩ := ih (m.startOffset :: skipSet)
      refine ⟨0 :: positions.map Nat.succ, List.pairwise_cons.mpr ⟨?_, pairwise_map_succ hsorted⟩,
        ?_, ?_⟩
      · intro k hk
        obtain ⟨j, -, rfl⟩ := List.mem_map.mp hk
        exact Nat.succ_pos j
      · intro k
        rw [passes_of_kept htest hfresh, List.mem_cons, List.mem_map]
        simp only [hmem]
      · have hkeep : ¬ (limit && skipSet.contains m.startOffset) = true := by simpa using hfresh
        rw [List.filter_cons_of_pos htest, enforceLimit, if_neg hkeep, heq,
          List.filterMap_cons_some (by rfl), filterMap_succ]

/-- With `--limit`, a function that is not barred and has a match keeps exactly
one of them. -/
theorem countP_enforceLimit (start : ℕ) (skipSet : List ℕ) (found : List QueryResult) :
    (enforceLimit true skipSet found).countP (fun m => m.startOffset == start) =
      if start ∉ skipSet ∧ start ∈ found.map QueryResult.startOffset then 1 else 0 := by
  induction found generalizing skipSet with
  | nil => simp [enforceLimit]
  | cons m found ih =>
    rw [enforceLimit, Bool.true_and, List.map_cons]
    by_cases hskip : m.startOffset ∈ skipSet
    · rw [if_pos (List.contains_iff_mem.mpr hskip), ih]
      refine if_congr ?_ rfl rfl
      rw [List.mem_cons]
      refine and_congr_right fun hfresh => (or_iff_right ?_).symm
      rintro rfl
      exact hfresh hskip
    · rw [if_neg fun h => hskip (List.contains_iff_mem.mp h), List.countP_cons, ih]
      by_cases hstart : m.startOffset = start
      · subst hstart
        simp [hskip]
      · have hne : start ≠ m.startOffset := Ne.symm hstart
        simp [hstart, hne]

/-- What one work item sends is what passes its own filters. -/
theorem filter_executeItems {externals : Externals} {file : ParsedFile} {first i : ℕ}
    {work : List WorkItem} {item : WorkItem} {results : List ResultsCtx}
    (hrun : executeItems externals options file first work = .ok results)
    (hitem : work[i]? = some item) :
    executeItem externals options file (first + i) item =
      .ok (results.filter fun r => r.queryIndex == first + i) := by
  induction work generalizing first i results with
  | nil => cases hitem
  | cons head work ih =>
    obtain ⟨found, rest, hfound, hrest, rfl⟩ := executeItems_cons_eq_ok.mp hrun
    rw [List.filter_append]
    have hindex : ∀ r ∈ found, r.queryIndex = first := by
      obtain ⟨ms, -, rfl⟩ := exists_of_map_eq_ok hfound
      intro r hr
      obtain ⟨m, -, rfl⟩ := List.mem_map.mp hr
      rfl
    have hlater := mem_executeItems hrest
    cases i with
    | zero =>
      cases Option.some.inj hitem
      have hall : (found.filter fun r => r.queryIndex == first + 0) = found := by
        rw [List.filter_eq_self]
        intro r hr
        simp [hindex r hr]
      have hnone : (rest.filter fun r => r.queryIndex == first + 0) = [] := by
        rw [List.filter_eq_nil_iff]
        intro r hr
        have hbound := (hlater r hr).1.1
        simp only [beq_iff_eq]
        omega
      rw [hall, hnone, List.append_nil]
      exact hfound
    | succ i =>
      have hnone : (found.filter fun r => r.queryIndex == first + (i + 1)) = [] := by
        rw [List.filter_eq_nil_iff]
        intro r hr
        have hfirst := hindex r hr
        simp only [beq_iff_eq]
        omega
      have hshift : first + (i + 1) = first + 1 + i := by omega
      rw [hnone, List.nil_append, hshift]
      exact ih hrest hitem

end Limit

/-- The worker forwards exactly the matches at the kept positions of each work
item, in their order: with `--unique` only acceptable ones, with `--limit` only
the first acceptable one of each function, so that every function with an
acceptable match has exactly one result, and without the switches all. The
iterator chain of the source sends the same matches in every visiting order of
their variables, and never panics on readable ones. -/
theorem executeQueries_forwards {externals : Externals} {options : Options} {file : ParsedFile}
    {work : List WorkItem} {results : List ResultsCtx} {i : ℕ} {item : WorkItem}
    {found : List QueryResult}
    (hrun : executeQueries externals work options file = .ok results)
    (hitem : work[i]? = some item)
    (hmatches : QueryTree.matches externals item.qt file.root file.source = .ok found) :
    (∀ r ∈ results, r.queryIndex < work.length) ∧ ∃ sent : List QueryResult,
      (results.filter fun r => r.queryIndex == i) =
        sent.map (fun m => ⟨i, file.path, file.source, m, item.reason, item.issue⟩) ∧
      (∃ positions : List ℕ, positions.Pairwise (· < ·) ∧
        (∀ k, k ∈ positions ↔ Kept options file.source found k) ∧
        sent = positions.filterMap (found[·]?)) ∧
      (options.limit = true → ∀ m ∈ found, Acceptable options file.source m →
        sent.countP (fun other => other.startOffset == m.startOffset) = 1) ∧
      (options.limit = false → options.unique = false → sent = found) ∧
      ∀ visited : List (QueryResult × List (Σ _ : String, ℕ)), visited.map Prod.fst = found →
        (∀ entry ∈ visited, Readable file.source entry.1 ∧ Visits entry.2 entry.1.vars) →
        forwardLoop options file.source [] visited = some sent := by
  refine ⟨fun r hr => ?_, forwarded options file.source found, ?_, ?_, ?_, ?_, ?_⟩
  · have hbound := (mem_executeItems hrun r hr).1.2
    omega
  · have hsent := filter_executeItems hrun hitem
    rw [Nat.zero_add, executeItem, hmatches] at hsent
    exact (Except.ok.inj hsent).symm
  · obtain ⟨positions, hsorted, hmem, heq⟩ :=
      exists_positions options.limit (checkUnique options file.source) [] found
    refine ⟨positions, hsorted, ?_, heq⟩
    intro k
    rw [hmem]
    simp only [Passes, Kept, checkUnique_iff, List.not_mem_nil, not_false_eq_true, true_and]
  · intro hlimit m hm hacceptable
    have hpass : m ∈ found.filter (checkUnique options file.source) :=
      List.mem_filter.mpr ⟨hm, checkUnique_iff.mpr hacceptable⟩
    rw [forwarded, hlimit, countP_enforceLimit]
    exact if_pos ⟨List.not_mem_nil, List.mem_map_of_mem hpass⟩
  · intro hlimit hunique
    have hall : found.filter (checkUnique options file.source) = found := by
      rw [List.filter_eq_self]
      intro m _
      rw [checkUnique, hunique]
      rfl
    rw [forwarded, hlimit, enforceLimit_false, hall]
  · rintro visited rfl hvisited
    exact forwardLoop_eq hvisited []

/-- The parsed sample program. -/
def sampleFile : ParsedFile := ⟨sampleSource, sampleRoot, "f.c"⟩

/-- With both switches on, the one match of the sample program is forwarded. -/
theorem executeQueries_forwards_sampleFile :
    ∃ results found, executeQueries sampleExternals [⟨sampleTree, [], "reason", "issue"⟩]
        ⟨true, true⟩ sampleFile = .ok results ∧
      QueryTree.matches sampleExternals sampleTree sampleFile.root sampleFile.source = .ok found ∧
      found.length = 1 ∧ ∃ sent : List QueryResult,
        (results.filter fun r => r.queryIndex == 0) =
          sent.map (fun m => ⟨0, "f.c", sampleSource, m, "reason", "issue"⟩) ∧
        ∀ m ∈ found, Acceptable ⟨true, true⟩ sampleSource m →
          sent.countP (fun other => other.startOffset == m.startOffset) = 1 := by
  have hlength : (QueryTree.matches sampleExternals sampleTree sampleFile.root
      sampleFile.source).map List.length = .ok 1 := by rfl
  obtain ⟨found, hmatches, hone⟩ := exists_of_map_eq_ok hlength
  have hsize : (executeQueries sampleExternals [⟨sampleTree, [], "reason", "issue"⟩] ⟨true, true⟩
      sampleFile).map List.length = .ok 1 := by rfl
  obtain ⟨results, hrun, -⟩ := exists_of_map_eq_ok hsize
  obtain ⟨-, sent, hsent, -, hcount, -⟩ :=
    executeQueries_forwards hrun List.getElem?_cons_zero hmatches
  exact ⟨results, found, hrun, hmatches, hone, sent, hsent, hcount rfl⟩

end WeggliEnhance.ResultFilters
