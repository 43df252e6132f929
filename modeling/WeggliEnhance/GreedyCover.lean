import Mathlib.Order.Bounds.Basic
import Mathlib.Order.Lattice.Nat

/-!
# Greedy covers of marked positions

A sweep over the natural numbers stops at a marked position, skips everything
up to a fixed distance behind it, and goes on. The positions where it stops
lead the others. Widening only the leaders covers as much as widening every
marked position, unless a gap opens behind a leader that has skipped another
marked position.
-/

namespace WeggliEnhance.GreedyCover

variable {marked : ℕ → Prop} {before after : ℕ}

/-- A marked position that no leader before it has skipped. -/
def Leads (marked : ℕ → Prop) (after i : ℕ) : Prop :=
  marked i ∧ ∀ p < i, Leads marked after p → p + after < i
termination_by i

theorem leads_iff {i : ℕ} :
    Leads marked after i ↔ marked i ∧ ∀ p < i, Leads marked after p → p + after < i := by
  rw [Leads]

/-- Every marked position is a leader or skipped by one. -/
theorem exists_leads (after : ℕ) {i : ℕ} (h : marked i) :
    ∃ p, Leads marked after p ∧ p ≤ i ∧ i ≤ p + after := by
  by_cases hleads : Leads marked after i
  · exact ⟨i, hleads, le_rfl, Nat.le_add_right i after⟩
  · rw [leads_iff, not_and] at hleads
    have hskipped := hleads h
    push Not at hskipped
    obtain ⟨p, hlt, hp, hle⟩ := hskipped
    exact ⟨p, hp, hlt.le, hle⟩

/-- Leaders keep their distance. -/
theorem lt_of_leads {a b : ℕ} (ha : Leads marked after a) (hb : Leads marked after b)
    (hlt : a < b) : a + after < b :=
  (leads_iff.mp hb).2 a hlt ha

/-- The first marked position behind what a leader skips is the next leader. -/
theorem leads_next {a b : ℕ} (ha : Leads marked after a)
    (hb : IsLeast {c | marked c ∧ a + after < c} b) : Leads marked after b := by
  refine leads_iff.mpr ⟨hb.1.1, ?_⟩
  intro p hlt hp
  obtain hgt | hle := Nat.lt_or_ge a p
  · have hleast := hb.2 ⟨(leads_iff.mp hp).1, lt_of_leads ha hp hgt⟩
    omega
  · have hreach := hb.1.2
    omega

/-- The position lies in the widened interval of some leader. -/
def Covered (marked : ℕ → Prop) (before after j : ℕ) : Prop :=
  ∃ p, Leads marked after p ∧ p ≤ j + before ∧ j ≤ p + after

/-- Behind a leader that has skipped another marked position, the next leader
is near enough. -/
def GapsClosed (marked : ℕ → Prop) (before after : ℕ) : Prop :=
  ∀ a i b, Leads marked after a → marked i → a < i → i ≤ a + after →
    IsLeast {c | marked c ∧ a + after < c} b → b ≤ a + after + 1 + before

/-- Without gaps, the leaders cover what all marked positions cover. -/
theorem covered_of_gapsClosed (h : GapsClosed marked before after) {i j last : ℕ}
    (hi : marked i) (hlow : i ≤ j + before) (hhigh : j ≤ i + after) (hlast : marked last)
    (hj : j ≤ last) : Covered marked before after j := by
  obtain ⟨a, ha, hle, hskipped⟩ := exists_leads after hi
  obtain hfar | hnear := Nat.lt_or_ge (a + after) j
  · obtain ⟨b, hb⟩ : ∃ b, IsLeast {c | marked c ∧ a + after < c} b :=
      ⟨_, Nat.sInf_mem ⟨last, hlast, by omega⟩, fun c hc => Nat.sInf_le hc⟩
    have hclose := h a i b ha hi (by omega) hskipped hb
    have hreach := hb.1.2
    exact ⟨b, leads_next ha hb, by omega, by omega⟩
  · exact ⟨a, ha, by omega, hnear⟩

/-- The position behind what a leader skips is covered only by the next leader. -/
theorem gapsClosed_of_covered
    (h : ∀ i j last, marked i → i ≤ j + before → j ≤ i + after → marked last → j ≤ last →
      i ≤ j → Covered marked before after j) : GapsClosed marked before after := by
  intro a i b ha hi hlt hskipped hb
  have hreach := hb.1.2
  obtain ⟨p, hp, hlow, hhigh⟩ :=
    h i (a + after + 1) b hi (by omega) (by omega) hb.1.1 (by omega) (by omega)
  have hlater : a < p := by omega
  have hleast := hb.2 ⟨(leads_iff.mp hp).1, lt_of_leads ha hp hlater⟩
  omega

end WeggliEnhance.GreedyCover
