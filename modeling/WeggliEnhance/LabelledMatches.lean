import Mathlib.Data.List.Perm.Basic

/-!
# Matches under two sets of names

A pattern relates inputs to lists of named captures. Two patterns agree up to
a renaming when every match of one of them is a match of the other with the
same captures under other names. The renaming is a list of rows, each with a
name on the left and a name on the right, and every match uses every row
once.
-/

namespace WeggliEnhance.LabelledMatches

variable {ι κ μ α ν ρ : Type*}

/-- The captures a pattern makes on its inputs. -/
abbrev Matching (ι ν α : Type*) := ι → List (ν × α) → Prop

/-- Captured values under the names of their rows. -/
def labelled (name : ρ → ν) (assigned : List (ρ × α)) : List (ν × α) :=
  assigned.map fun a => (name a.1, a.2)

@[simp]
theorem labelled_append (name : ρ → ν) (first second : List (ρ × α)) :
    labelled name (first ++ second) = labelled name first ++ labelled name second :=
  List.map_append

/-- Every match of the first pattern is one of the second under other names. -/
def Carries (left right : ρ → ν) (first second : Matching ι ν α) (rows : List ρ) : Prop :=
  ∀ i captured, first i captured → ∃ assigned : List (ρ × α),
    (assigned.map Prod.fst).Perm rows ∧ captured = labelled left assigned ∧
      second i (labelled right assigned)

/-- Two patterns have the same matches up to the names. -/
structure Agree (left right : ρ → ν) (first second : Matching ι ν α) (rows : List ρ) : Prop where
  /-- From the first to the second. -/
  forth : Carries left right first second rows
  /-- From the second to the first. -/
  back : Carries right left second first rows

/-- One pattern after the other, on the parts of an input. -/
def Sequenced (parts : ι → κ → μ → Prop) (first : Matching κ ν α) (second : Matching μ ν α) :
    Matching ι ν α :=
  fun i captured => ∃ j k inner outer, parts i j k ∧ first j inner ∧ second k outer ∧
    captured = inner ++ outer

section Rules

variable {left right : ρ → ν} {first first' : Matching ι ν α} {rows rows' : List ρ}

theorem carries_perm (h : Carries left right first first' rows) (hperm : rows.Perm rows') :
    Carries left right first first' rows' := by
  intro i captured hmatch
  obtain ⟨assigned, hrows, hleft, hright⟩ := h i captured hmatch
  exact ⟨assigned, hrows.trans hperm, hleft, hright⟩

/-- The order of the rows does not matter. -/
theorem agree_perm (h : Agree left right first first' rows) (hperm : rows.Perm rows') :
    Agree left right first first' rows' := ⟨carries_perm h.forth hperm, carries_perm h.back hperm⟩

/-- Agreement depends on the matches only. -/
theorem agree_congr {second second' : Matching ι ν α} (h : Agree left right second second' rows)
    (hfirst : ∀ i captured, first i captured ↔ second i captured)
    (hfirst' : ∀ i captured, first' i captured ↔ second' i captured) :
    Agree left right first first' rows := by
  obtain rfl : first = second := funext fun i => funext fun captured => propext (hfirst i captured)
  obtain rfl : first' = second' :=
    funext fun i => funext fun captured => propext (hfirst' i captured)
  exact h

theorem carries_nothing (accepts : ι → Prop)
    (hfirst : ∀ i captured, first i captured → accepts i ∧ captured = [])
    (hfirst' : ∀ i, accepts i → first' i []) : Carries left right first first' [] := by
  intro i captured hmatch
  obtain ⟨haccepts, rfl⟩ := hfirst i captured hmatch
  exact ⟨[], List.Perm.nil, rfl, hfirst' i haccepts⟩

/-- Patterns that capture nothing agree when they accept the same inputs. -/
theorem agree_nothing (accepts : ι → Prop)
    (hfirst : ∀ i captured, first i captured ↔ accepts i ∧ captured = [])
    (hfirst' : ∀ i captured, first' i captured ↔ accepts i ∧ captured = []) :
    Agree left right first first' [] where
  forth := carries_nothing accepts (fun i captured => (hfirst i captured).mp)
    fun i haccepts => (hfirst' i []).mpr ⟨haccepts, rfl⟩
  back := carries_nothing accepts (fun i captured => (hfirst' i captured).mp)
    fun i haccepts => (hfirst i []).mpr ⟨haccepts, rfl⟩

theorem carries_names (rows : List ρ) :
    Carries left right (fun (a : α) captured => captured = rows.map fun row => (left row, a))
      (fun a captured => captured = rows.map fun row => (right row, a)) rows := by
  rintro a captured rfl
  refine ⟨rows.map fun row => (row, a), ?_, ?_, ?_⟩
  · rw [List.map_map]
    exact List.Perm.of_eq (List.map_id rows)
  · simp [labelled]
  · simp [labelled]

/-- Captures of the input itself under several names. -/
theorem agree_names (rows : List ρ) :
    Agree left right (fun (a : α) captured => captured = rows.map fun row => (left row, a))
      (fun a captured => captured = rows.map fun row => (right row, a)) rows :=
  ⟨carries_names rows, carries_names rows⟩

theorem carries_or {second second' : Matching ι ν α}
    (hfirst : Carries left right first first' rows)
    (hsecond : Carries left right second second' rows) :
    Carries left right (fun i captured => first i captured ∨ second i captured)
      (fun i captured => first' i captured ∨ second' i captured) rows := by
  rintro i captured (hmatch | hmatch)
  · obtain ⟨assigned, hrows, hleft, hright⟩ := hfirst i captured hmatch
    exact ⟨assigned, hrows, hleft, .inl hright⟩
  · obtain ⟨assigned, hrows, hleft, hright⟩ := hsecond i captured hmatch
    exact ⟨assigned, hrows, hleft, .inr hright⟩

/-- Alternatives that agree one by one. -/
theorem agree_or {second second' : Matching ι ν α} (hfirst : Agree left right first first' rows)
    (hsecond : Agree left right second second' rows) :
    Agree left right (fun i captured => first i captured ∨ second i captured)
      (fun i captured => first' i captured ∨ second' i captured) rows :=
  ⟨carries_or hfirst.forth hsecond.forth, carries_or hfirst.back hsecond.back⟩

theorem carries_guard {inner inner' : Matching κ ν α} (accepts : ι → Prop) (next : ι → κ)
    (h : Carries left right inner inner' rows)
    (hfirst : ∀ i captured, first i captured → accepts i ∧ inner (next i) captured)
    (hfirst' : ∀ i captured, accepts i → inner' (next i) captured → first' i captured) :
    Carries left right first first' rows := by
  intro i captured hmatch
  obtain ⟨haccepts, hinner⟩ := hfirst i captured hmatch
  obtain ⟨assigned, hrows, hleft, hright⟩ := h (next i) captured hinner
  exact ⟨assigned, hrows, hleft, hfirst' i _ haccepts hright⟩

/-- A test on the input and a pattern on what the input leads to. -/
theorem agree_guard {inner inner' : Matching κ ν α} (accepts : ι → Prop) (next : ι → κ)
    (h : Agree left right inner inner' rows)
    (hfirst : ∀ i captured, first i captured ↔ accepts i ∧ inner (next i) captured)
    (hfirst' : ∀ i captured, first' i captured ↔ accepts i ∧ inner' (next i) captured) :
    Agree left right first first' rows where
  forth := carries_guard accepts next h.forth (fun i captured => (hfirst i captured).mp)
    fun i captured haccepts hinner => (hfirst' i captured).mpr ⟨haccepts, hinner⟩
  back := carries_guard accepts next h.back (fun i captured => (hfirst' i captured).mp)
    fun i captured haccepts hinner => (hfirst i captured).mpr ⟨haccepts, hinner⟩

theorem carries_sequenced (parts : ι → κ → μ → Prop) {one one' : Matching κ ν α}
    {two two' : Matching μ ν α} (hone : Carries left right one one' rows)
    (htwo : Carries left right two two' rows') :
    Carries left right (Sequenced parts one two) (Sequenced parts one' two') (rows ++ rows') := by
  rintro i captured ⟨j, k, inner, outer, hparts, hinner, houter, rfl⟩
  obtain ⟨assigned, hrows, rfl, hright⟩ := hone j inner hinner
  obtain ⟨assigned', hrows', rfl, hright'⟩ := htwo k outer houter
  refine ⟨assigned ++ assigned', ?_, (labelled_append _ _ _).symm, j, k, _, _, hparts, hright,
    hright', labelled_append _ _ _⟩
  rw [List.map_append]
  exact hrows.append hrows'

/-- Sequences use the rows of both parts. -/
theorem agree_sequenced (parts : ι → κ → μ → Prop) {one one' : Matching κ ν α}
    {two two' : Matching μ ν α} (hone : Agree left right one one' rows)
    (htwo : Agree left right two two' rows') :
    Agree left right (Sequenced parts one two) (Sequenced parts one' two') (rows ++ rows') :=
  ⟨carries_sequenced parts hone.forth htwo.forth, carries_sequenced parts hone.back htwo.back⟩

end Rules

end WeggliEnhance.LabelledMatches
