import Mathlib.Data.List.Nodup
import Mathlib.Data.Nat.Basic
import Mathlib.Order.Nat

/-!
# First occurrences

Keeping only the first occurrence of every element of a list numbers its
elements by their first appearance. Repeating a part that has appeared before
changes nothing, and fresh parts are numbered one after the other.
-/

namespace WeggliEnhance.FirstOccurrence

variable {α β : Type*} [BEq α] [LawfulBEq α] [BEq β] [LawfulBEq β]

/-- A part whose elements have all appeared adds nothing. -/
theorem eraseDups_append_of_subset {first again : List α} (h : again ⊆ first) :
    (first ++ again).eraseDups = first.eraseDups := by
  have hnone : again.removeAll first = [] := by
    rw [List.removeAll, List.filter_eq_nil_iff]
    intro a ha
    have hmem := h ha
    simp [hmem]
  rw [List.eraseDups_append, hnone, List.eraseDups_nil, List.append_nil]

/-- A part with fresh elements only is appended. -/
theorem eraseDups_append_of_disjoint {first fresh : List α} (h : ∀ a ∈ fresh, a ∉ first) :
    (first ++ fresh).eraseDups = first.eraseDups ++ fresh.eraseDups := by
  have hall : fresh.removeAll first = fresh := by
    rw [List.removeAll, List.filter_eq_self]
    intro a ha
    have hmem := h a ha
    simp [hmem]
  rw [List.eraseDups_append, hall]

/-- A part that repeats earlier elements can be left out in the middle. -/
theorem eraseDups_append_append {first again rest : List α} (h : again ⊆ first) :
    (first ++ again ++ rest).eraseDups = (first ++ rest).eraseDups := by
  have hsame : rest.removeAll (first ++ again) = rest.removeAll first := by
    rw [List.removeAll, List.removeAll]
    refine List.filter_congr ?_
    intro a _
    have hiff : a ∈ first ++ again ↔ a ∈ first := by
      rw [List.mem_append]
      exact ⟨fun hmem => hmem.elim id fun hagain => h hagain, Or.inl⟩
    simp only [List.elem_eq_mem, hiff]
  rw [List.eraseDups_append, hsame, eraseDups_append_of_subset h, ← List.eraseDups_append]

/-- Renaming elements injectively keeps the numbering. -/
theorem eraseDups_map {f : α → β} (hf : Function.Injective f) (list : List α) :
    (list.map f).eraseDups = list.eraseDups.map f := by
  induction hlength : list.length using Nat.strong_induction_on generalizing list with
  | _ length ih =>
    cases list with
    | nil => rfl
    | cons a list =>
      have hfilter : (list.map f).filter (fun b => !b == f a) =
          (list.filter fun b => !b == a).map f := by
        rw [List.filter_map]
        congr 1
        refine List.filter_congr ?_
        intro b _
        have hiff : f b = f a ↔ b = a := hf.eq_iff
        by_cases hb : b = a
        · simp [hb]
        · simp [hb, hiff]
      have hshort : (list.filter fun b => !b == a).length < length := by
        have hle := List.length_filter_le (fun b => !b == a) list
        rw [List.length_cons] at hlength
        omega
      rw [List.map_cons, List.eraseDups_cons, List.eraseDups_cons, List.map_cons, hfilter,
        ih _ hshort _ rfl]

/-- The numbers from one bound up to another appear in increasing order of
their first occurrences, and no others appear. -/
def Numbers (lower upper : ℕ) (indices : List ℕ) : Prop :=
  lower ≤ upper ∧ indices.eraseDups = List.range' lower (upper - lower)

theorem numbers_mem {lower upper i : ℕ} {indices : List ℕ} (h : Numbers lower upper indices) :
    i ∈ indices ↔ lower ≤ i ∧ i < upper := by
  have hle := h.1
  rw [← List.mem_eraseDups, h.2, List.mem_range'_1]
  omega

theorem numbers_nil (n : ℕ) : Numbers n n [] := by
  refine ⟨le_rfl, ?_⟩
  rw [Nat.sub_self]
  rfl

theorem numbers_single (n : ℕ) : Numbers n (n + 1) [n] := by
  refine ⟨Nat.le_succ n, ?_⟩
  rw [Nat.add_sub_cancel_left]
  rfl

/-- Later numbers continue where the earlier ones stopped. -/
theorem numbers_append {lower middle upper : ℕ} {first fresh : List ℕ}
    (hfirst : Numbers lower middle first) (hfresh : Numbers middle upper fresh) :
    Numbers lower upper (first ++ fresh) := by
  have hdisjoint : ∀ i ∈ fresh, i ∉ first := by
    intro i hi hmem
    have hge := (numbers_mem hfresh).mp hi
    have hlt := (numbers_mem hfirst).mp hmem
    omega
  obtain ⟨hlower, hfirst⟩ := hfirst
  obtain ⟨hupper, hfresh⟩ := hfresh
  refine ⟨hlower.trans hupper, ?_⟩
  rw [eraseDups_append_of_disjoint hdisjoint, hfirst, hfresh]
  have hmiddle : middle = lower + (middle - lower) := by omega
  have hcount : upper - lower = (middle - lower) + (upper - middle) := by omega
  rw [hcount, ← List.range'_append_1, ← hmiddle]

/-- Writing numbers again keeps the order of first occurrences. -/
theorem numbers_again {lower upper : ℕ} {first again : List ℕ} (hfirst : Numbers lower upper first)
    (hagain : again ⊆ first) : Numbers lower upper (first ++ again) := by
  refine ⟨hfirst.1, ?_⟩
  rw [eraseDups_append_of_subset hagain, hfirst.2]

end WeggliEnhance.FirstOccurrence
