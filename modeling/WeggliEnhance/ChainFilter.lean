import WeggliEnhance.KeyedGroups
import WeggliEnhance.PatternBuilder
import WeggliEnhance.PipelineWork

/-!
# The chainability filter

`filter_chainable_results` of `main.rs` groups the collected results by query
and keeps a result when it can be chained with some result of every other
group. Only queries that have results form groups, and partners are looked up
among all results, kept or not.
-/

namespace WeggliEnhance.ChainFilter

open SourceText SyntaxTree ThirdParty QueryTrees QueryResults PatternBuilder PipelineWork
  KeyedGroups FallibleState

/-- Two results have compatible variable assignments. -/
def chains (a b : ResultsCtx) : Bool := a.result.chainable a.source b.result b.source

/-- The inner loop: a result of one query can be chained with some result of
every other group. -/
def chainableWithAll (results : List ResultsCtx) (groups : List (ℕ × List ℕ)) (queryI : ℕ)
    (a : ResultsCtx) : Bool :=
  groups.all fun group => queryI == group.1 ||
    group.2.any fun idxB => (results[idxB]?).any (chains a)

/-- The vector `keep` after all groups have been visited. -/
def keepFlags (results : List ResultsCtx) (groups : List (ℕ × List ℕ)) : List Bool :=
  setFlags (fun queryI idxA => (results[idxA]?).any (chainableWithAll results groups queryI)) groups
    (List.replicate results.length false)

/-- `filter_chainable_results`. -/
def filterChainableResults (results : List ResultsCtx) : List ResultsCtx :=
  if results.isEmpty then results
  else
    let groups := groupIndices (results.map ResultsCtx.queryIndex)
    if groups.length ≤ 1 then results
    else (results.zip (keepFlags results groups)).filterMap fun entry =>
      if entry.2 then some entry.1 else none

/-- A result can be chained with some result of every other query that has
results. -/
def Compatible (results : List ResultsCtx) (a : ResultsCtx) : Prop :=
  ∀ c ∈ results, c.queryIndex ≠ a.queryIndex →
    ∃ b ∈ results, b.queryIndex = c.queryIndex ∧ chains a b = true

instance (results : List ResultsCtx) : DecidablePred (Compatible results) := fun a =>
  inferInstanceAs (Decidable (∀ c ∈ results, c.queryIndex ≠ a.queryIndex →
    ∃ b ∈ results, b.queryIndex = c.queryIndex ∧ chains a b = true))

section Filter

variable {results : List ResultsCtx} {groups : List (ℕ × List ℕ)}

theorem chains_comm (a b : ResultsCtx) : chains a b = chains b a := by
  rw [Bool.eq_iff_iff]
  exact chainable_iff.trans (agree_comm.trans chainable_iff.symm)

/-- The positions of a group are those of its results. -/
theorem mem_group_iff_getElem? (h : Grouped (results.map ResultsCtx.queryIndex) groups)
    {group : ℕ × List ℕ} (hgroup : group ∈ groups) {i : ℕ} :
    i ∈ group.2 ↔ ∃ r, results[i]? = some r ∧ r.queryIndex = group.1 := by
  rw [mem_group_iff h hgroup, List.getElem?_map, Option.map_eq_some_iff]

/-- The inner loop decides compatibility. -/
theorem chainableWithAll_iff (h : Grouped (results.map ResultsCtx.queryIndex) groups)
    (a : ResultsCtx) :
    chainableWithAll results groups a.queryIndex a = true ↔ Compatible results a := by
  have hany : ∀ group ∈ groups, (group.2.any fun idxB => (results[idxB]?).any (chains a)) = true ↔
      ∃ b ∈ results, b.queryIndex = group.1 ∧ chains a b = true := by
    intro group hgroup
    rw [List.any_eq_true]
    constructor
    · rintro ⟨i, hi, hchains⟩
      obtain ⟨r, hr, hindex⟩ := (mem_group_iff_getElem? h hgroup).mp hi
      rw [hr, Option.any_some] at hchains
      exact ⟨r, List.mem_of_getElem? hr, hindex, hchains⟩
    · rintro ⟨b, hb, hindex, hchains⟩
      obtain ⟨i, hi⟩ := List.mem_iff_getElem?.mp hb
      refine ⟨i, (mem_group_iff_getElem? h hgroup).mpr ⟨b, hi, hindex⟩, ?_⟩
      rw [hi, Option.any_some, hchains]
  rw [chainableWithAll, List.all_eq_true]
  constructor
  · intro hall c hc hne
    obtain ⟨i, hi⟩ := List.mem_iff_getElem?.mp hc
    have hkey : (results.map ResultsCtx.queryIndex)[i]? = some c.queryIndex := by
      rw [List.getElem?_map, hi, Option.map_some]
    obtain ⟨group, hgroup, hindex, -⟩ := (h.mem_iff c.queryIndex i).mpr hkey
    have hgroupTest := hall group hgroup
    rw [Bool.or_eq_true, beq_iff_eq, hany group hgroup, hindex] at hgroupTest
    exact hgroupTest.resolve_left fun heq => hne heq.symm
  · intro hcompatible group hgroup
    rw [Bool.or_eq_true, beq_iff_eq, hany group hgroup]
    by_cases heq : a.queryIndex = group.1
    · exact .inl heq
    · obtain ⟨i, hi⟩ := exists_of_mem_groups h hgroup
      obtain ⟨c, hc, hindex⟩ := List.mem_map.mp (List.mem_of_getElem? hi)
      have hpartner := hcompatible c hc (by rw [hindex]; exact Ne.symm heq)
      rw [hindex] at hpartner
      exact .inr hpartner

/-- Some group holds the position of a result. -/
theorem exists_group (h : Grouped (results.map ResultsCtx.queryIndex) groups) {i : ℕ}
    {r : ResultsCtx} (hr : results[i]? = some r) :
    ∃ group ∈ groups, group.1 = r.queryIndex ∧ i ∈ group.2 := by
  refine (h.mem_iff r.queryIndex i).mpr ?_
  rw [List.getElem?_map, hr, Option.map_some]

/-- Every result gets the flag of its own compatibility. -/
theorem keepFlags_eq (h : Grouped (results.map ResultsCtx.queryIndex) groups) :
    keepFlags results groups = results.map fun a => decide (Compatible results a) := by
  have hvalue : ∀ group ∈ groups, ∀ i ∈ group.2,
      (results[i]?).any (chainableWithAll results groups group.1) =
        (results[i]?).any fun a => decide (Compatible results a) := by
    intro group hgroup i hi
    obtain ⟨r, hr, hindex⟩ := (mem_group_iff_getElem? h hgroup).mp hi
    rw [hr, Option.any_some, Option.any_some, ← hindex, Bool.eq_iff_iff, decide_eq_true_iff]
    exact chainableWithAll_iff h r
  refine List.ext_getElem? fun j => ?_
  rw [keepFlags, getElem?_setFlags hvalue, List.getElem?_map, List.getElem?_replicate]
  cases hr : results[j]? with
  | none =>
    have hge := List.getElem?_eq_none_iff.mp hr
    simp [Nat.not_lt.mpr hge]
  | some r =>
    obtain ⟨group, hgroup, -, hj⟩ := exists_group h hr
    have hlt := (List.getElem?_eq_some_iff.mp hr).1
    rw [if_pos ⟨group, hgroup, hj⟩, if_pos hlt]
    rfl

/-- With a single group every result is compatible. -/
theorem compatible_of_single (h : Grouped (results.map ResultsCtx.queryIndex) groups)
    (hsingle : groups.length ≤ 1) {a : ResultsCtx} (ha : a ∈ results) : Compatible results a := by
  intro c hc hne
  obtain ⟨i, hi⟩ := List.mem_iff_getElem?.mp ha
  obtain ⟨j, hj⟩ := List.mem_iff_getElem?.mp hc
  obtain ⟨first, hfirst, hfirstIndex, -⟩ := exists_group h hi
  obtain ⟨second, hsecond, hsecondIndex, -⟩ := exists_group h hj
  cases groups with
  | nil => cases hfirst
  | cons group groups =>
    have hrest : groups = [] := by
      rw [List.length_cons] at hsingle
      exact List.length_eq_zero_iff.mp (by omega)
    subst hrest
    rw [List.mem_singleton.mp hfirst] at hfirstIndex
    rw [List.mem_singleton.mp hsecond] at hsecondIndex
    exact absurd (hsecondIndex.symm.trans hfirstIndex) hne

/-- The filter keeps exactly the compatible results, in their order. The order
in which the hash map of groups is walked has no influence. -/
theorem filterChainableResults_eq (results : List ResultsCtx) :
    filterChainableResults results = results.filter fun a => decide (Compatible results a) := by
  have hgrouped := grouped_groupIndices (results.map ResultsCtx.queryIndex)
  unfold filterChainableResults
  by_cases hempty : results.isEmpty = true
  · rw [if_pos hempty, List.isEmpty_iff.mp hempty]
    rfl
  · rw [if_neg hempty]
    by_cases hsingle : (groupIndices (results.map ResultsCtx.queryIndex)).length ≤ 1
    · simp only [if_pos hsingle]
      refine (List.filter_eq_self.mpr ?_).symm
      intro a ha
      exact decide_eq_true (compatible_of_single hgrouped hsingle ha)
    · simp only [if_neg hsingle, keepFlags_eq hgrouped]
      exact filterMap_zip_flags _ results

theorem mem_filterChainableResults {results : List ResultsCtx} {a : ResultsCtx} :
    a ∈ filterChainableResults results ↔ a ∈ results ∧ Compatible results a := by
  rw [filterChainableResults_eq, List.mem_filter, decide_eq_true_iff]

/-- Compatibility depends on the set of results alone. -/
theorem compatible_congr {results results' : List ResultsCtx}
    (h : ∀ r, r ∈ results ↔ r ∈ results') (a : ResultsCtx) :
    Compatible results a ↔ Compatible results' a := by
  unfold Compatible
  simp only [h]

/-- The filter respects permutations of the collected results. -/
theorem filterChainableResults_perm {results results' : List ResultsCtx}
    (h : results.Perm results') :
    (filterChainableResults results).Perm (filterChainableResults results') := by
  have hsame : ∀ a, decide (Compatible results a) = decide (Compatible results' a) :=
    fun a => decide_eq_decide.mpr (compatible_congr (fun r => h.mem_iff) a)
  rw [filterChainableResults_eq, filterChainableResults_eq, List.filter_congr fun a _ => hsame a]
  exact h.filter _

end Filter

/-- Multi-pattern rules report coherent results exactly when no pattern is
left out. For every list of results and every number of patterns, each kept
result has for every other pattern a kept partner that it can be chained with
if and only if, as soon as some result is compatible with all patterns that
have results, all patterns have results, and every such result has for every
other pattern a partner that can in turn be chained with some result of every
third pattern. -/
theorem partners_kept_iff (results : List ResultsCtx) (count : ℕ) :
    (∀ a ∈ filterChainableResults results, ∀ j < count, j ≠ a.queryIndex →
      ∃ b ∈ filterChainableResults results, b.queryIndex = j ∧ chains a b = true) ↔
    ∀ a ∈ results, Compatible results a →
      (∀ j < count, j ≠ a.queryIndex → ∃ b ∈ results, b.queryIndex = j) ∧
      ∀ j < count, j ≠ a.queryIndex → (∃ b ∈ results, b.queryIndex = j) →
        ∃ b ∈ results, b.queryIndex = j ∧ chains a b = true ∧
          ∀ c ∈ results, c.queryIndex ≠ j → c.queryIndex ≠ a.queryIndex →
            ∃ d ∈ results, d.queryIndex = c.queryIndex ∧ chains b d = true := by
  simp only [mem_filterChainableResults]
  constructor
  · intro h a ha hcompatible
    constructor
    · intro j hj hne
      obtain ⟨b, ⟨hb, -⟩, hindex, -⟩ := h a ⟨ha, hcompatible⟩ j hj hne
      exact ⟨b, hb, hindex⟩
    · intro j hj hne _
      obtain ⟨b, ⟨hb, hpartner⟩, rfl, hchains⟩ := h a ⟨ha, hcompatible⟩ j hj hne
      exact ⟨b, hb, rfl, hchains, fun c hc hcb _ => hpartner c hc hcb⟩
  · rintro h a ⟨ha, hcompatible⟩ j hj hne
    obtain ⟨hpresent, hpartners⟩ := h a ha hcompatible
    obtain ⟨b, hb, rfl, hchains, hthird⟩ := hpartners j hj hne (hpresent j hj hne)
    refine ⟨b, ⟨hb, ?_⟩, rfl, hchains⟩
    intro c hc hcb
    by_cases hca : c.queryIndex = a.queryIndex
    · exact ⟨a, ha, hca.symm, by rw [chains_comm, hchains]⟩
    · exact hthird c hc hcb hca

/-- The search pattern `{b;}`. -/
def missingPattern : Node :=
  rule 1 "compound_statement" 0 4
    [token 2 "\x7b" 0 1, nameStatement 3 1 2, token 6 "\x7d" 3 4]

/-- The query for that pattern, which the sample program does not match. -/
def missingTree : QueryTree :=
  { sampleTree with
    captures := [.subMultiQuery
      { query := ⟨[[.group [.node "identifier" [], .tag (.capture "0"),
          .tag (.eqString "0" "b")]]]⟩
        captures := [.check "b"]
        negations := []
        «variables» := ∅
        id := 1 }, .display] }

/-- The items of a rule with the patterns `{$x;}` and `{b;}`. -/
def missingRule : List WorkItem := [⟨sampleTree, [], "", ""⟩, ⟨missingTree, ["b"], "", ""⟩]

/-- A rule with the patterns `{$x;}` and `{b;}` reports the match of the first
although the second has none. -/
theorem absent_pattern_ignored :
    buildQueryTree sampleExternals samplePatternText (some samplePatternRoot) samplePattern ∅ =
        .ok sampleTree ∧
      buildQueryTree sampleExternals "\x7bb;\x7d"
        (some (rule 0 "translation_unit" 0 4 [missingPattern])) missingPattern ∅ =
          .ok missingTree ∧
      ∃ results, processFile sampleExternals missingRule ⟨false, false⟩ "f.c" = .ok results ∧
        ∃ a ∈ filterChainableResults results, a.queryIndex ≠ 1 ∧
          ¬∃ b ∈ filterChainableResults results, b.queryIndex = 1 ∧ chains a b = true := by
  have hindices : (processFile sampleExternals missingRule ⟨false, false⟩ "f.c").map
      (fun results => (filterChainableResults results).map ResultsCtx.queryIndex) = .ok [0] := by
    decide +kernel
  obtain ⟨results, hresults, hkept⟩ := exists_of_map_eq_ok hindices
  have hzero : ∀ r ∈ filterChainableResults results, r.queryIndex = 0 := by
    intro r hr
    have hmem : r.queryIndex ∈ (filterChainableResults results).map ResultsCtx.queryIndex :=
      List.mem_map_of_mem hr
    rw [hkept] at hmem
    exact List.mem_singleton.mp hmem
  obtain ⟨a, ha, -⟩ : ∃ a ∈ filterChainableResults results, a.queryIndex = 0 := by
    have hmem : 0 ∈ (filterChainableResults results).map ResultsCtx.queryIndex := by
      rw [hkept]
      exact List.mem_singleton_self 0
    exact List.mem_map.mp hmem
  refine ⟨rfl, rfl, results, hresults, a, ha, by rw [hzero a ha]; decide, ?_⟩
  rintro ⟨b, hb, hindex, -⟩
  rw [hzero b hb] at hindex
  cases hindex

end WeggliEnhance.ChainFilter
