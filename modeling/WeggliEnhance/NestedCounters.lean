import Mathlib.Data.List.Nodup
import Mathlib.Order.Nat

/-!
# Counters that nested scopes inherit

Every scope of a rose tree counts the scopes directly inside it, starting
from its own number, and a nested scope starts from the number it was given.
The numbers are distinct exactly when in every scope only the last inner
scope has scopes of its own.
-/

namespace WeggliEnhance.NestedCounters

/-- A scope with the scopes directly inside it, in order. -/
inductive Shape where
  /-- The inner scopes. -/
  | node (inner : List Shape)

mutual

/-- The numbers of a scope and of all scopes inside it. -/
def Shape.labels : ℕ → Shape → List ℕ
  | start, .node inner => start :: labelsFrom start inner

/-- The numbers given out by a counter for scopes one after the other. -/
def labelsFrom : ℕ → List Shape → List ℕ
  | _, [] => []
  | counter, shape :: shapes => shape.labels (counter + 1) ++ labelsFrom (counter + 1) shapes

end

mutual

/-- In this scope and in all scopes inside it, only the last inner scope has
scopes of its own. -/
def Shape.onlyLastNests : Shape → Bool
  | .node inner => onlyLastNest inner

/-- Of scopes one after the other only the last has scopes of its own. -/
def onlyLastNest : List Shape → Bool
  | [] => true
  | [shape] => shape.onlyLastNests
  | .node inner :: next :: shapes => inner.isEmpty && onlyLastNest (next :: shapes)

end

theorem labelsFrom_append (counter : ℕ) (first second : List Shape) :
    labelsFrom counter (first ++ second) =
      labelsFrom counter first ++ labelsFrom (counter + first.length) second := by
  induction first generalizing counter with
  | nil => simp only [List.nil_append, labelsFrom, List.length_nil, Nat.add_zero]
  | cons shape first ih =>
    have hcounter : counter + 1 + first.length = counter + (first.length + 1) := by omega
    rw [List.cons_append, labelsFrom, labelsFrom, ih, List.length_cons, List.append_assoc,
      hcounter]

mutual

/-- A scope and everything inside it is numbered from its own number on. -/
theorem le_labels {start n : ℕ} (shape : Shape) (h : n ∈ shape.labels start) : start ≤ n := by
  cases shape with
  | node inner =>
    rw [Shape.labels] at h
    rcases List.mem_cons.mp h with rfl | hinner
    · exact le_rfl
    · exact (lt_labelsFrom inner hinner).le

/-- A counter gives out numbers above its start only. -/
theorem lt_labelsFrom {counter n : ℕ} (shapes : List Shape) (h : n ∈ labelsFrom counter shapes) :
    counter < n := by
  cases shapes with
  | nil => cases h
  | cons shape shapes =>
    rw [labelsFrom] at h
    rcases List.mem_append.mp h with hhead | htail
    · exact le_labels shape hhead
    · exact (Nat.lt_succ_self counter).trans (lt_labelsFrom shapes htail)

end

mutual

theorem labels_nodup_iff (start : ℕ) (shape : Shape) :
    (shape.labels start).Nodup ↔ shape.onlyLastNests = true := by
  cases shape with
  | node inner =>
    have hfresh : start ∉ labelsFrom start inner := fun h =>
      lt_irrefl start (lt_labelsFrom inner h)
    rw [Shape.labels, List.nodup_cons, Shape.onlyLastNests, labelsFrom_nodup_iff start inner]
    exact and_iff_right hfresh

/-- A counter gives out distinct numbers exactly when only the last scope has
scopes of its own. -/
theorem labelsFrom_nodup_iff (counter : ℕ) (shapes : List Shape) :
    (labelsFrom counter shapes).Nodup ↔ onlyLastNest shapes = true := by
  cases shapes with
  | nil => simp only [labelsFrom, onlyLastNest, List.nodup_nil]
  | cons shape shapes =>
    cases shapes with
    | nil =>
      rw [labelsFrom, labelsFrom, List.append_nil, onlyLastNest]
      exact labels_nodup_iff (counter + 1) shape
    | cons next shapes =>
      have ih := labelsFrom_nodup_iff (counter + 1) (next :: shapes)
      obtain ⟨inner⟩ := shape
      rw [labelsFrom, onlyLastNest, Shape.labels, List.nodup_append', Bool.and_eq_true, ih]
      cases inner with
      | nil =>
        have hfresh : List.Disjoint [counter + 1] (labelsFrom (counter + 1) (next :: shapes)) := by
          rw [List.singleton_disjoint]
          exact fun h => lt_irrefl _ (lt_labelsFrom _ h)
        have hsingle : ((counter + 1) :: labelsFrom (counter + 1) []) = [counter + 1] := rfl
        rw [hsingle, List.isEmpty_nil]
        constructor
        · intro h
          exact ⟨rfl, h.2.1⟩
        · intro h
          exact ⟨List.nodup_singleton _, h.2, hfresh⟩
      | cons first inner =>
        have hshared : counter + 1 + 1 ∈
            (counter + 1) :: labelsFrom (counter + 1) (first :: inner) := by
          obtain ⟨below⟩ := first
          simp only [labelsFrom, Shape.labels, List.cons_append, List.mem_cons, true_or, or_true]
        have hagain : counter + 1 + 1 ∈ labelsFrom (counter + 1) (next :: shapes) := by
          obtain ⟨below⟩ := next
          simp only [labelsFrom, Shape.labels, List.cons_append, List.mem_cons, true_or]
        constructor
        · intro h
          exact absurd hagain (h.2.2 hshared)
        · intro h
          cases h.1

end

end WeggliEnhance.NestedCounters
