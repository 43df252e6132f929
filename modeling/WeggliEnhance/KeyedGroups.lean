import Mathlib.Data.List.Induction
import Mathlib.Data.List.Nodup

/-!
# Grouping positions by key

A list of keys is grouped into the positions of each key, in the manner of a
hash map of vectors that is filled by one pass over the list. A second pass
over the groups sets one flag for each position. The flags depend on the keys
alone and not on the order of the groups.
-/

namespace WeggliEnhance.KeyedGroups

variable {κ : Type*}

section Pass

variable [DecidableEq κ]

/-- Append a position to the group of its key, which is opened on demand. -/
def pushIndex (key : κ) (i : ℕ) : List (κ × List ℕ) → List (κ × List ℕ)
  | [] => [(key, [i])]
  | group :: groups =>
    if group.1 = key then (group.1, group.2 ++ [i]) :: groups
    else group :: pushIndex key i groups

/-- The positions of each key. -/
def groupIndices (keys : List κ) : List (κ × List ℕ) :=
  keys.zipIdx.foldl (fun groups entry => pushIndex entry.1 entry.2 groups) []

/-- Groups of distinct keys that hold exactly the positions of their key. -/
structure Grouped (keys : List κ) (groups : List (κ × List ℕ)) : Prop where
  /-- No key has two groups. -/
  nodup : (groups.map Prod.fst).Nodup
  /-- Positions are in the group of their key. -/
  mem_iff : ∀ key i, (∃ group ∈ groups, group.1 = key ∧ i ∈ group.2) ↔ keys[i]? = some key
  /-- Every group has a position. -/
  ne_nil : ∀ group ∈ groups, group.2 ≠ []

theorem mem_pushIndex {key other : κ} {i j : ℕ} {groups : List (κ × List ℕ)} :
    (∃ group ∈ pushIndex key i groups, group.1 = other ∧ j ∈ group.2) ↔
      (∃ group ∈ groups, group.1 = other ∧ j ∈ group.2) ∨ key = other ∧ j = i := by
  induction groups with
  | nil => simp [pushIndex]
  | cons group groups ih =>
    rw [pushIndex]
    split_ifs with hkey
    · subst hkey
      simp only [List.mem_cons, exists_eq_or_imp, List.mem_append, List.not_mem_nil, or_false]
      rw [and_or_left, or_right_comm]
    · simp only [List.mem_cons, exists_eq_or_imp, ih]
      rw [or_assoc]

theorem keys_pushIndex {key other : κ} {i : ℕ} {groups : List (κ × List ℕ)} :
    other ∈ (pushIndex key i groups).map Prod.fst ↔ other ∈ groups.map Prod.fst ∨ other = key := by
  induction groups with
  | nil => simp [pushIndex]
  | cons group groups ih =>
    rw [pushIndex]
    split_ifs with hkey
    · subst hkey
      simp only [List.map_cons, List.mem_cons]
      rw [or_right_comm, or_self]
    · simp only [List.map_cons, List.mem_cons, ih]
      rw [or_assoc]

theorem nodup_pushIndex {key : κ} {i : ℕ} {groups : List (κ × List ℕ)}
    (h : (groups.map Prod.fst).Nodup) : ((pushIndex key i groups).map Prod.fst).Nodup := by
  induction groups with
  | nil => simp [pushIndex]
  | cons group groups ih =>
    rw [List.map_cons, List.nodup_cons] at h
    rw [pushIndex]
    split_ifs with hkey
    · rw [List.map_cons, List.nodup_cons]
      exact h
    · rw [List.map_cons, List.nodup_cons, keys_pushIndex]
      refine ⟨?_, ih h.2⟩
      rintro (hmem | heq)
      · exact h.1 hmem
      · exact hkey heq

theorem ne_nil_pushIndex {key : κ} {i : ℕ} {groups : List (κ × List ℕ)}
    (h : ∀ group ∈ groups, group.2 ≠ []) : ∀ group ∈ pushIndex key i groups, group.2 ≠ [] := by
  induction groups with
  | nil => simp [pushIndex]
  | cons first groups ih =>
    obtain ⟨hfirst, hrest⟩ := List.forall_mem_cons.mp h
    rw [pushIndex]
    split_ifs
    · exact List.forall_mem_cons.mpr ⟨by simp, hrest⟩
    · exact List.forall_mem_cons.mpr ⟨hfirst, ih hrest⟩

/-- The pass over the keys groups all positions. -/
theorem grouped_groupIndices (keys : List κ) : Grouped keys (groupIndices keys) := by
  unfold groupIndices
  induction keys using List.reverseRecOn with
  | nil => exact ⟨List.nodup_nil, by simp, by simp⟩
  | append_singleton keys key ih =>
    rw [List.zipIdx_append, List.foldl_append]
    refine ⟨nodup_pushIndex ih.nodup, ?_, ne_nil_pushIndex ih.ne_nil⟩
    intro other i
    change (∃ group ∈ pushIndex key (0 + keys.length) _, group.1 = other ∧ i ∈ group.2) ↔ _
    rw [mem_pushIndex, ih.mem_iff, Nat.zero_add]
    rcases Nat.lt_trichotomy i keys.length with hlt | rfl | hgt
    · rw [List.getElem?_append_left hlt]
      have hne : i ≠ keys.length := by omega
      simp [hne]
    · simp
    · have hne : i ≠ keys.length := by omega
      rw [List.getElem?_eq_none (by omega), List.getElem?_eq_none (by simp; omega)]
      simp [hne]

end Pass

section Members

variable {keys : List κ} {groups : List (κ × List ℕ)} {group : κ × List ℕ}

/-- Every group has a key of the list. -/
theorem exists_of_mem_groups (h : Grouped keys groups) (hgroup : group ∈ groups) :
    ∃ i : ℕ, keys[i]? = some group.1 := by
  obtain ⟨i, hi⟩ := List.exists_mem_of_ne_nil _ (h.ne_nil group hgroup)
  exact ⟨i, (h.mem_iff group.1 i).mp ⟨group, hgroup, rfl, hi⟩⟩

/-- The positions of a key are in its group. -/
theorem mem_group_iff (h : Grouped keys groups) (hgroup : group ∈ groups) {i : ℕ} :
    i ∈ group.2 ↔ keys[i]? = some group.1 := by
  rw [← h.mem_iff]
  constructor
  · intro hi
    exact ⟨group, hgroup, rfl, hi⟩
  · rintro ⟨other, hother, hkey, hi⟩
    rwa [← List.inj_on_of_nodup_map h.nodup hother hgroup hkey]

end Members

section Flags

/-- Set the flags of some positions. -/
def setPositions (value : ℕ → Bool) (positions : List ℕ) (flags : List Bool) : List Bool :=
  positions.foldl (fun flags i => flags.set i (value i)) flags

/-- Set the flag of every position of every group. -/
def setFlags (test : κ → ℕ → Bool) (groups : List (κ × List ℕ)) (flags : List Bool) : List Bool :=
  groups.foldl (fun flags group => setPositions (test group.1) group.2 flags) flags

theorem getElem?_setPositions (value : ℕ → Bool) (positions : List ℕ) (flags : List Bool) (j : ℕ) :
    (setPositions value positions flags)[j]? =
      if j ∈ positions then (flags[j]?).map fun _ => value j else flags[j]? := by
  unfold setPositions
  induction positions generalizing flags with
  | nil => rfl
  | cons i positions ih =>
    rw [List.foldl_cons, ih, List.getElem?_set]
    by_cases hij : i = j
    · subst hij
      by_cases hlt : i < flags.length <;> simp [hlt]
    · simp [hij, Ne.symm hij]

/-- When the tests agree with one value for each position and every position
is in a group, all flags are set to these values. -/
theorem getElem?_setFlags {test : κ → ℕ → Bool} {value : ℕ → Bool}
    {groups : List (κ × List ℕ)}
    (hvalue : ∀ group ∈ groups, ∀ i ∈ group.2, test group.1 i = value i) (flags : List Bool)
    (j : ℕ) :
    (setFlags test groups flags)[j]? =
      if ∃ group ∈ groups, j ∈ group.2 then (flags[j]?).map fun _ => value j else flags[j]? := by
  unfold setFlags
  induction groups generalizing flags with
  | nil => simp
  | cons group groups ih =>
    obtain ⟨hfirst, hrest⟩ := List.forall_mem_cons.mp hvalue
    have hcons : (∃ other ∈ group :: groups, j ∈ other.2) ↔
        j ∈ group.2 ∨ ∃ other ∈ groups, j ∈ other.2 := by
      simp only [List.mem_cons, exists_eq_or_imp]
    rw [List.foldl_cons, ih hrest, getElem?_setPositions]
    simp only [hcons]
    by_cases hj : j ∈ group.2
    · simp only [hj, hfirst j hj, if_true, true_or]
      cases flags[j]? <;> simp
    · simp only [hj, if_false, false_or]

/-- Keeping the flagged elements is filtering. -/
theorem filterMap_zip_flags {α : Type*} (keep : α → Bool) (list : List α) :
    ((list.zip (list.map keep)).filterMap fun entry => if entry.2 then some entry.1 else none) =
      list.filter keep := by
  induction list with
  | nil => rfl
  | cons a list ih =>
    rw [List.map_cons, List.zip_cons_cons, List.filterMap_cons, List.filter_cons, ih]
    cases keep a <;> rfl

end Flags

end WeggliEnhance.KeyedGroups
