import Mathlib.Data.List.Forall2
import Mathlib.Data.List.Pairwise

/-!
# Joins of compatible choices

A partial join combines two values when they are compatible. Joining lists
one after the other enumerates exactly the pairwise compatible choices, in
lexicographic order and once for each choice, provided compatibility with a
joined value is compatibility with both of its parts.
-/

namespace WeggliEnhance.PartialJoin

variable {α : Type*}

/-- All ways to choose one element of each list, in lexicographic order. -/
def choices : List (List α) → List (List α)
  | [] => [[]]
  | list :: lists => list.flatMap fun x => (choices lists).map (x :: ·)

/-- A choice has one element of each list, in order. -/
theorem mem_choices {lists : List (List α)} {choice : List α} :
    choice ∈ choices lists ↔ List.Forall₂ (· ∈ ·) choice lists := by
  induction lists generalizing choice with
  | nil => simp [choices, List.forall₂_nil_right_iff]
  | cons list lists ih =>
    rw [choices, List.mem_flatMap, List.forall₂_cons_right_iff]
    constructor
    · rintro ⟨x, hx, hmem⟩
      obtain ⟨rest, hrest, rfl⟩ := List.mem_map.mp hmem
      exact ⟨x, rest, hx, ih.mp hrest, rfl⟩
    · rintro ⟨x, rest, hx, hrest, rfl⟩
      exact ⟨x, hx, List.mem_map_of_mem (ih.mpr hrest)⟩

variable (join : α → α → α) (compatible : α → α → Prop)

/-- All joins of an element of the first list with a compatible one of the second. -/
def joinLists [DecidableRel compatible] (lefts rights : List α) : List α :=
  lefts.flatMap fun l => rights.filterMap fun r => if compatible l r then some (join l r) else none

/-- The join of a pairwise compatible choice, from the left. -/
def joinChoice [DecidableRel compatible] (first : α) (rest : List α) : Option α :=
  if (first :: rest).Pairwise compatible then some (rest.foldl join first) else none

/-- Compatibility with a join is compatibility with both parts. -/
def SplitsJoin : Prop :=
  ∀ a b c, compatible a b → (compatible (join a b) c ↔ compatible a c ∧ compatible b c)

variable {join compatible}

theorem joinLists_nil [DecidableRel compatible] (rights : List α) :
    joinLists join compatible [] rights = [] := rfl

/-- Joining the first two elements keeps a choice pairwise compatible. -/
theorem pairwise_join_iff (hsplit : SplitsJoin join compatible) {x y : α} (hxy : compatible x y)
    (rest : List α) :
    (x :: y :: rest).Pairwise compatible ↔ (join x y :: rest).Pairwise compatible := by
  simp only [List.pairwise_cons, List.mem_cons, forall_eq_or_imp]
  constructor
  · rintro ⟨⟨-, hx⟩, hy, hrest⟩
    exact ⟨fun z hz => (hsplit x y z hxy).mpr ⟨hx z hz, hy z hz⟩, hrest⟩
  · rintro ⟨hjoin, hrest⟩
    exact ⟨⟨hxy, fun z hz => ((hsplit x y z hxy).mp (hjoin z hz)).1⟩,
      fun z hz => ((hsplit x y z hxy).mp (hjoin z hz)).2, hrest⟩

/-- A property that joins preserve passes from the elements of a choice to
their join. -/
theorem foldl_join_induction (hsplit : SplitsJoin join compatible) {motive : α → Prop}
    (hjoin : ∀ a b, motive a → motive b → compatible a b → motive (join a b)) {first : α}
    {rest : List α} (hchoice : (first :: rest).Pairwise compatible)
    (hall : ∀ x ∈ first :: rest, motive x) : motive (rest.foldl join first) := by
  induction rest generalizing first with
  | nil => exact hall first List.mem_cons_self
  | cons next rest ih =>
    have hfirst := hall first List.mem_cons_self
    have hnext := hall next (List.mem_cons_of_mem first List.mem_cons_self)
    have hcompatible : compatible first next :=
      (List.pairwise_cons.mp hchoice).1 next List.mem_cons_self
    rw [List.foldl_cons]
    refine ih ((pairwise_join_iff hsplit hcompatible rest).mp hchoice) ?_
    intro x hx
    rcases List.mem_cons.mp hx with rfl | hrest
    · exact hjoin first next hfirst hnext hcompatible
    · exact hall x (List.mem_cons_of_mem first (List.mem_cons_of_mem next hrest))

/-- One more list extends every compatible choice by one element. -/
theorem joinChoice_cons [DecidableRel compatible] (hsplit : SplitsJoin join compatible) (x y : α)
    (rest : List α) :
    joinChoice join compatible x (y :: rest) =
      if compatible x y then joinChoice join compatible (join x y) rest else none := by
  by_cases hxy : compatible x y
  · rw [if_pos hxy, joinChoice, joinChoice, List.foldl_cons]
    have hiff := pairwise_join_iff hsplit hxy rest
    by_cases h : (x :: y :: rest).Pairwise compatible
    · rw [if_pos h, if_pos (hiff.mp h)]
    · rw [if_neg h, if_neg fun h' => h (hiff.mpr h')]
  · rw [if_neg hxy, joinChoice, if_neg]
    intro h
    exact hxy ((List.pairwise_cons.mp h).1 y List.mem_cons_self)

/-- Folding the partial join over lists enumerates the compatible choices. -/
theorem foldl_joinLists [DecidableRel compatible] (hsplit : SplitsJoin join compatible)
    (first : List α) (lists : List (List α)) :
    lists.foldl (joinLists join compatible) first =
      first.flatMap fun x => (choices lists).filterMap (joinChoice join compatible x) := by
  induction lists generalizing first with
  | nil =>
    simp only [List.foldl_nil, choices, joinChoice, List.pairwise_singleton, if_true,
      List.filterMap_cons, List.filterMap_nil, List.flatMap_singleton']
  | cons list lists ih =>
    rw [List.foldl_cons, ih, joinLists, List.flatMap_assoc]
    congr 1
    funext x
    rw [choices, List.filterMap_flatMap]
    induction list with
    | nil => rfl
    | cons y list ihlist =>
      rw [List.filterMap_cons, List.flatMap_cons, List.filterMap_map, ← ihlist]
      have hhead : (choices lists).filterMap (joinChoice join compatible x ∘ fun zs => y :: zs) =
          (choices lists).filterMap fun zs =>
            if compatible x y then joinChoice join compatible (join x y) zs else none := by
        congr 1
        funext zs
        exact joinChoice_cons hsplit x y zs
      rw [hhead]
      by_cases hxy : compatible x y
      · simp only [if_pos hxy, List.flatMap_cons]
      · have hnone : (choices lists).filterMap (fun _ => (none : Option α)) = [] :=
          List.filterMap_eq_nil_iff.mpr fun _ _ => rfl
        simp only [if_neg hxy, hnone, List.nil_append]

/-- The join of all lists: one value for each pairwise compatible choice. -/
theorem foldl_joinLists_cons [DecidableRel compatible] (hsplit : SplitsJoin join compatible)
    (first : List α) (lists : List (List α)) :
    lists.foldl (joinLists join compatible) first =
      (choices (first :: lists)).filterMap fun choice =>
        choice.head?.bind fun x => joinChoice join compatible x choice.tail := by
  rw [foldl_joinLists hsplit, choices, List.filterMap_flatMap]
  congr 1
  funext x
  rw [List.filterMap_map]
  rfl

end WeggliEnhance.PartialJoin
