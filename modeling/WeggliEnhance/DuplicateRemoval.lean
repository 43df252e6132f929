import Mathlib.Data.List.Destutter
import Mathlib.Data.List.Infix

/-!
# Removing equal neighbours

Removing equal neighbours leaves no duplicates exactly when equal elements
stand together. There is nothing to remove when the elements carry codes of
which none begins with another. Such lists are closed under sublists and
under joining every element with elements of a second list.
-/

namespace WeggliEnhance.DuplicateRemoval

section Neighbours

variable {α : Type*}

/-- Nothing different stands between equal elements. -/
def StandTogether (list : List α) : Prop :=
  ∀ before a middle after, list = before ++ a :: (middle ++ a :: after) → ∀ b ∈ middle, b = a

theorem standTogether_nil : StandTogether ([] : List α) := by
  intro before a middle after h
  cases before <;> cases h

theorem standTogether_tail {a : α} {list : List α} (h : StandTogether (a :: list)) :
    StandTogether list := by
  intro before b middle after heq
  exact h (a :: before) b middle after (by rw [heq, List.cons_append])

/-- An element in front of an equal one changes nothing. -/
theorem standTogether_cons_self {a : α} {list : List α} :
    StandTogether (a :: a :: list) ↔ StandTogether (a :: list) := by
  refine ⟨standTogether_tail, ?_⟩
  intro h before b middle after heq
  cases before with
  | cons first before =>
    obtain ⟨-, htail⟩ := List.cons.inj heq
    exact h before b middle after htail
  | nil =>
    obtain ⟨rfl, htail⟩ := List.cons.inj heq
    intro c hc
    cases middle with
    | nil => cases hc
    | cons first middle =>
      obtain ⟨rfl, hrest⟩ := List.cons.inj htail
      rcases List.mem_cons.mp hc with rfl | hin
      · rfl
      · exact h [] a middle after (congrArg (a :: ·) hrest) c hin

/-- An element in front of a different one does not occur again. -/
theorem standTogether_cons_of_ne {a b : α} {list : List α} (hne : a ≠ b) :
    StandTogether (a :: b :: list) ↔ a ∉ b :: list ∧ StandTogether (b :: list) := by
  constructor
  · intro h
    refine ⟨?_, standTogether_tail h⟩
    intro hmem
    have hlist : a ∈ list := (List.mem_cons.mp hmem).resolve_left hne
    obtain ⟨middle, after, rfl⟩ := List.append_of_mem hlist
    exact hne (h [] a (b :: middle) after rfl b List.mem_cons_self).symm
  · rintro ⟨hfresh, hrest⟩ before c middle after heq
    cases before with
    | cons first before =>
      obtain ⟨-, htail⟩ := List.cons.inj heq
      exact hrest before c middle after htail
    | nil =>
      obtain ⟨rfl, htail⟩ := List.cons.inj heq
      refine absurd ?_ hfresh
      rw [htail]
      exact List.mem_append_right _ List.mem_cons_self

variable [DecidableEq α]

theorem mem_destutter'_ne {a b : α} {list : List α} :
    b ∈ list.destutter' (· ≠ ·) a ↔ b ∈ a :: list := by
  induction list generalizing a with
  | nil => rw [List.destutter'_nil]
  | cons c list ih =>
    by_cases hne : a ≠ c
    · rw [List.destutter'_cons_pos _ hne, List.mem_cons, ih, ← List.mem_cons]
    · rw [List.destutter'_cons_neg _ hne, ih]
      obtain rfl := not_not.mp hne
      simp only [List.mem_cons, or_self_left]

theorem nodup_destutter'_iff {a : α} {list : List α} :
    (list.destutter' (· ≠ ·) a).Nodup ↔ StandTogether (a :: list) := by
  induction list generalizing a with
  | nil =>
    rw [List.destutter'_nil]
    refine ⟨fun _ => ?_, fun _ => List.nodup_singleton a⟩
    intro before b middle after heq
    have hlength := congrArg List.length heq
    simp only [List.length_cons, List.length_nil, List.length_append] at hlength
    omega
  | cons b list ih =>
    by_cases hne : a ≠ b
    · rw [List.destutter'_cons_pos _ hne, List.nodup_cons, mem_destutter'_ne, ih,
        standTogether_cons_of_ne hne]
    · rw [List.destutter'_cons_neg _ hne, ih]
      obtain rfl := not_not.mp hne
      exact standTogether_cons_self.symm

/-- Without equal neighbours there are no duplicates if and only if equal
elements stood together. -/
theorem nodup_destutter_iff {list : List α} :
    (list.destutter (· ≠ ·)).Nodup ↔ StandTogether list := by
  cases list with
  | nil => exact ⟨fun _ => standTogether_nil, fun _ => List.nodup_nil⟩
  | cons a list => exact nodup_destutter'_iff

end Neighbours

section Codes

variable {α β : Type*} {code : β → List α}

/-- Neither code begins with the other. -/
def Apart (code : β → List α) (x y : β) : Prop := ¬ code x <+: code y ∧ ¬ code y <+: code x

/-- No code of a list begins with another. -/
def PrefixFree (code : β → List α) (list : List β) : Prop := list.Pairwise (Apart code)

theorem apart_ne {x y : β} (h : Apart code x y) : x ≠ y := by
  rintro rfl
  exact h.1 (List.prefix_refl _)

/-- Codes are apart when they begin with lists that are. -/
theorem apart_of_prefix {x y : β} {p q : List α} (h : ¬ p <+: q ∧ ¬ q <+: p) (hx : p <+: code x)
    (hy : q <+: code y) : Apart code x y := by
  refine ⟨?_, ?_⟩
  · intro hprefix
    rcases List.prefix_or_prefix_of_prefix (hx.trans hprefix) hy with hpq | hqp
    · exact h.1 hpq
    · exact h.2 hqp
  · intro hprefix
    rcases List.prefix_or_prefix_of_prefix hx (hy.trans hprefix) with hpq | hqp
    · exact h.1 hpq
    · exact h.2 hqp

/-- Of two different lists of the same length none begins with the other. -/
theorem not_prefix_of_length {p q : List α} (hne : p ≠ q) (hlength : p.length = q.length) :
    ¬ p <+: q ∧ ¬ q <+: p :=
  ⟨fun h => hne (h.eq_of_length hlength), fun h => hne (h.eq_of_length hlength.symm).symm⟩

theorem prefixFree_sublist {list list' : List β} (h : PrefixFree code list)
    (hsublist : list'.Sublist list) : PrefixFree code list' := List.Pairwise.sublist hsublist h

theorem nodup_of_prefixFree {list : List β} (h : PrefixFree code list) : list.Nodup :=
  h.imp apart_ne

/-- Joining elements of prefix-free lists, where a join is coded by both codes
one after the other. -/
theorem prefixFree_join {join : β → β → Option β}
    (hjoin : ∀ x y z, join x y = some z → code z = code x ++ code y) {lefts rights : List β}
    (hlefts : PrefixFree code lefts) (hrights : PrefixFree code rights) :
    PrefixFree code (lefts.flatMap fun x => rights.filterMap (join x)) := by
  refine List.pairwise_flatMap.mpr ⟨?_, hlefts.imp ?_⟩
  · intro x _
    refine List.pairwise_filterMap.mpr (hrights.imp ?_)
    intro y y' happart z hz z' hz'
    rw [Apart, hjoin x y z hz, hjoin x y' z' hz', List.prefix_append_right_inj,
      List.prefix_append_right_inj]
    exact happart
  · intro x x' happart z hz z' hz'
    obtain ⟨y, -, hy⟩ := List.mem_filterMap.mp hz
    obtain ⟨y', -, hy'⟩ := List.mem_filterMap.mp hz'
    refine apart_of_prefix happart ?_ ?_
    · rw [hjoin x y z hy]
      exact List.prefix_append _ _
    · rw [hjoin x' y' z' hy']
      exact List.prefix_append _ _

end Codes

end WeggliEnhance.DuplicateRemoval
