import WeggliEnhance.PartialJoin
import WeggliEnhance.QueryEngine

/-!
# Compound matching is an ordered join

The positive phase of `match_internal` merges the patterns of a compound one
by one against the results accumulated so far. Merging with an accumulated
result is merging with all of its parts, so the phase computes the join of
all patterns: one concatenation for each choice of results that are pairwise
ordered and agree on their variables.
-/

namespace WeggliEnhance.CompoundJoin

open QueryResults QueryEngine PartialJoin

/-- The second result lies after the first and agrees with it. -/
def Joinable (source : String) (first second : QueryResult) : Prop :=
  Precedes first second ∧ Agree first source second source

theorem merge_ordered_eq_some_iff {source : String} {first second result : QueryResult} :
    first.merge second source true = some result ↔
      Joinable source first second ∧ result = first.append second := by
  rw [merge_eq_some_iff, Joinable, and_assoc]
  simp only [true_imp_iff]

instance (source : String) : DecidableRel (Joinable source) := fun first second =>
  decidable_of_iff ((first.merge second source true).isSome = true) (by
    rw [Option.isSome_iff_exists]
    constructor
    · rintro ⟨result, h⟩
      exact (merge_ordered_eq_some_iff.mp h).1
    · intro h
      exact ⟨_, merge_ordered_eq_some_iff.mpr ⟨h, rfl⟩⟩)

theorem merge_ordered_eq (source : String) (first second : QueryResult) :
    first.merge second source true =
      if Joinable source first second then some (first.append second) else none := by
  by_cases h : Joinable source first second
  · rw [if_pos h]
    exact merge_ordered_eq_some_iff.mpr ⟨h, rfl⟩
  · rw [if_neg h, Option.eq_none_iff_forall_ne_some]
    intro result hresult
    exact h (merge_ordered_eq_some_iff.mp hresult).1

theorem precedes_append_iff {a b c : QueryResult} :
    Precedes (a.append b) c ↔ Precedes a c ∧ Precedes b c := by
  simp only [Precedes, QueryResult.append, List.mem_append]
  constructor
  · intro h
    exact ⟨fun x hx => h x (.inl hx), fun x hx => h x (.inr hx)⟩
  · rintro ⟨ha, hb⟩ x (hx | hx)
    · exact ha x hx
    · exact hb x hx

/-- Joining with an accumulated result is joining with each of its parts. -/
theorem joinable_splits (source : String) : SplitsJoin QueryResult.append (Joinable source) := by
  intro a b c hab
  rw [Joinable, precedes_append_iff, agree_append_iff hab.2]
  constructor
  · rintro ⟨⟨hpa, hpb⟩, haa, hab⟩
    exact ⟨⟨hpa, haa⟩, hpb, hab⟩
  · rintro ⟨⟨hpa, haa⟩, hpb, hab⟩
    exact ⟨⟨hpa, hpb⟩, haa, hab⟩

/-- The concatenation of a tuple of results, from the left. -/
def concatenate : List QueryResult → Option QueryResult
  | [] => none
  | first :: rest => some (rest.foldl QueryResult.append first)

/-- The ordered join of the results of all patterns: the concatenations of
the pairwise joinable choices in lexicographic order. -/
def orderedJoin (source : String) (patternResults : List (List QueryResult)) :
    List QueryResult :=
  ((choices patternResults).filter fun choice => choice.Pairwise (Joinable source)).filterMap
    concatenate

theorem mergeQueryResults_eq (source : String) (results subResults : List QueryResult) :
    mergeQueryResults results subResults source true =
      joinLists QueryResult.append (Joinable source) results subResults := by
  simp only [mergeQueryResults, joinLists, merge_ordered_eq]

/-- With something accumulated the loop is a plain fold; its early return
only skips merges of the empty list. -/
theorem mergeLoop_eq {source : String} {merged : List QueryResult} (hmerged : merged ≠ [])
    (rest : List (List QueryResult)) :
    mergeLoop source merged rest =
      rest.foldl (joinLists QueryResult.append (Joinable source)) merged := by
  induction rest generalizing merged with
  | nil => rfl
  | cons pr rest ih =>
    have hnonempty : merged.isEmpty = false := by simpa using hmerged
    rw [mergeLoop, hnonempty, List.foldl_cons, ← mergeQueryResults_eq]
    by_cases hnext : mergeQueryResults merged pr source true = []
    · have hnil : ∀ rest : List (List QueryResult),
          rest.foldl (joinLists QueryResult.append (Joinable source)) [] = [] := by
        intro rest
        induction rest with
        | nil => rfl
        | cons pr rest ih => rw [List.foldl_cons, joinLists_nil, ih]
      simp only [hnext, hnil, List.isEmpty_nil, if_true, Bool.false_eq_true, if_false]
    · have hkept : (mergeQueryResults merged pr source true).isEmpty = false := by
        simpa using hnext
      simp only [hkept, Bool.false_eq_true, if_false]
      exact ih hnext

theorem choices_eq_nil {lists : List (List QueryResult)} (h : [] ∈ lists) : choices lists = [] := by
  induction lists with
  | nil => cases h
  | cons list lists ih =>
    rw [choices]
    rcases List.mem_cons.mp h with rfl | htail
    · rfl
    · rw [ih htail]
      exact List.flatMap_eq_nil_iff.mpr fun _ _ => rfl

/-- The loop over all patterns joins every choice of one result for each
pattern and keeps the choices that can be joined. -/
theorem mergePatterns_eq_filterMap (source : String) (patternResults : List (List QueryResult)) :
    mergePatterns source patternResults =
      (choices patternResults).filterMap fun choice =>
        if choice.Pairwise (Joinable source) then concatenate choice else none := by
  rw [mergePatterns]
  split_ifs with hany
  · obtain ⟨list, hlist, hempty⟩ := List.any_eq_true.mp hany
    rw [List.isEmpty_iff.mp hempty] at hlist
    rw [choices_eq_nil hlist]
    rfl
  · cases patternResults with
    | nil => rfl
    | cons first rest =>
      have hfirst : first ≠ [] := by
        rintro rfl
        exact hany rfl
      have hstart : mergeLoop source [] (first :: rest) = mergeLoop source first rest := rfl
      rw [hstart, mergeLoop_eq hfirst, foldl_joinLists_cons (joinable_splits source)]
      congr 1
      funext choice
      cases choice with
      | nil => rfl
      | cons head tail => rw [List.head?_cons, Option.bind_some, List.tail_cons, joinChoice, concatenate]

/-- A merged result joins one result of each pattern. -/
theorem exists_choice_of_mem_mergePatterns {source : String}
    {patternResults : List (List QueryResult)} {result : QueryResult}
    (h : result ∈ mergePatterns source patternResults) :
    ∃ parts ∈ choices patternResults, parts.Pairwise (Joinable source) ∧
      concatenate parts = some result := by
  rw [mergePatterns_eq_filterMap] at h
  obtain ⟨parts, hparts, hjoined⟩ := List.mem_filterMap.mp h
  split_ifs at hjoined with hpairwise
  exact ⟨parts, hparts, hpairwise, hjoined⟩

/-- Compound matching computes exactly the ordered join. -/
theorem mergePatterns_eq_orderedJoin (source : String)
    (patternResults : List (List QueryResult)) :
    mergePatterns source patternResults = orderedJoin source patternResults := by
  rw [mergePatterns_eq_filterMap, orderedJoin, List.filterMap_filter]
  congr 1
  funext choice
  by_cases hpairwise : choice.Pairwise (Joinable source)
  · rw [if_pos hpairwise, if_pos (decide_eq_true hpairwise)]
  · rw [if_neg hpairwise, if_neg fun hdecide => hpairwise (of_decide_eq_true hdecide)]

end WeggliEnhance.CompoundJoin
