import Mathlib.Data.List.Forall2

/-!
# Sibling patterns

A sequence of patterns is matched against a sequence of siblings. An anchored
pattern takes the first sibling that is left, any other pattern may skip
siblings first. Every pattern that matches captures something, and a match is
accepted when everything it captured passes a test.
-/

namespace WeggliEnhance.SiblingPatterns

variable {α β γ : Type*}

/-- A match of patterns on siblings and what it captures. -/
inductive SiblingMatch (fits : α → β → List γ → Prop) :
    List (Bool × α) → List β → List γ → Prop
  /-- No pattern is left. -/
  | done (siblings : List β) : SiblingMatch fits [] siblings []
  /-- The first pattern takes the first sibling. -/
  | take {anchored : Bool} {pattern : α} {patterns : List (Bool × α)} {sibling : β}
    {siblings : List β} {inner rest : List γ} :
    fits pattern sibling inner → SiblingMatch fits patterns siblings rest →
    SiblingMatch fits ((anchored, pattern) :: patterns) (sibling :: siblings) (inner ++ rest)
  /-- A pattern without an anchor skips a sibling. -/
  | skip {pattern : α} {patterns : List (Bool × α)} {sibling : β} {siblings : List β}
    {captured : List γ} :
    SiblingMatch fits ((false, pattern) :: patterns) siblings captured →
    SiblingMatch fits ((false, pattern) :: patterns) (sibling :: siblings) captured

/-- One pattern matches one sibling and all it captures passes. -/
def Passing (fits : α → β → List γ → Prop) (passes : γ → Prop) (pattern : α) (sibling : β) : Prop :=
  ∃ captured, fits pattern sibling captured ∧ ∀ c ∈ captured, passes c

/-- The patterns match the siblings and all they capture passes. -/
def Accepted (fits : α → β → List γ → Prop) (passes : γ → Prop) (patterns : List (Bool × α))
    (siblings : List β) : Prop :=
  ∃ captured, SiblingMatch fits patterns siblings captured ∧ ∀ c ∈ captured, passes c

section Rules

variable {fits : α → β → List γ → Prop} {passes : γ → Prop} {patterns : List (Bool × α)}
  {siblings : List β}

theorem accepted_nil (siblings : List β) : Accepted fits passes [] siblings :=
  ⟨[], .done siblings, fun _ h => by cases h⟩

theorem accepted_take {anchored : Bool} {pattern : α} {sibling : β}
    (hpattern : Passing fits passes pattern sibling) (hrest : Accepted fits passes patterns siblings) :
    Accepted fits passes ((anchored, pattern) :: patterns) (sibling :: siblings) := by
  obtain ⟨inner, hfits, hinner⟩ := hpattern
  obtain ⟨rest, hmatch, hpasses⟩ := hrest
  refine ⟨inner ++ rest, .take hfits hmatch, ?_⟩
  intro c hc
  rcases List.mem_append.mp hc with hin | hin
  · exact hinner c hin
  · exact hpasses c hin

/-- The siblings taken by an accepted match, in order. -/
theorem sublist_of_accepted (h : Accepted fits passes patterns siblings) :
    ∃ taken, taken.Sublist siblings ∧
      List.Forall₂ (fun entry sibling => Passing fits passes entry.2 sibling) patterns taken := by
  obtain ⟨captured, hmatch, hpasses⟩ := h
  induction hmatch with
  | done siblings => exact ⟨[], List.nil_sublist siblings, .nil⟩
  | take hfits hrest ih =>
    obtain ⟨taken, hsublist, hforall⟩ := ih fun c hc => hpasses c (List.mem_append_right _ hc)
    exact ⟨_, hsublist.cons_cons _,
      .cons ⟨_, hfits, fun c hc => hpasses c (List.mem_append_left _ hc)⟩ hforall⟩
  | skip hrest ih =>
    obtain ⟨taken, hsublist, hforall⟩ := ih hpasses
    exact ⟨taken, hsublist.cons _, hforall⟩

/-- Patterns that match all siblings one by one are accepted, however they
are anchored. -/
theorem accepted_of_forall₂
    (h : List.Forall₂ (fun entry sibling => Passing fits passes entry.2 sibling) patterns
      siblings) : Accepted fits passes patterns siblings := by
  induction h with
  | nil => exact accepted_nil []
  | cons hfirst hrest ih => exact accepted_take hfirst ih

/-- Patterns without anchors match any siblings in between. -/
theorem accepted_of_sublist (hfree : ∀ entry ∈ patterns, entry.1 = false) {taken : List β}
    (hsublist : taken.Sublist siblings)
    (h : List.Forall₂ (fun entry sibling => Passing fits passes entry.2 sibling) patterns taken) :
    Accepted fits passes patterns siblings := by
  induction hsublist generalizing patterns with
  | slnil => exact accepted_of_forall₂ h
  | cons sibling hsublist ih =>
    obtain ⟨captured, hmatch, hpasses⟩ := ih hfree h
    cases patterns with
    | nil => exact accepted_nil _
    | cons entry patterns =>
      obtain ⟨anchored, pattern⟩ := entry
      obtain rfl : anchored = false := hfree _ List.mem_cons_self
      exact ⟨captured, .skip hmatch, hpasses⟩
  | cons_cons sibling hsublist ih =>
    cases h with
    | cons hfirst hrest =>
      exact accepted_take hfirst (ih (fun e he => hfree e (List.mem_cons_of_mem _ he)) hrest)

/-- Without anchors the patterns match in order, at any positions. -/
theorem accepted_iff_sublist (hfree : ∀ entry ∈ patterns, entry.1 = false) :
    Accepted fits passes patterns siblings ↔ ∃ taken, taken.Sublist siblings ∧
      List.Forall₂ (fun entry sibling => Passing fits passes entry.2 sibling) patterns taken := by
  refine ⟨sublist_of_accepted, ?_⟩
  rintro ⟨taken, hsublist, hforall⟩
  exact accepted_of_sublist hfree hsublist hforall

/-- As many patterns as siblings match one by one, whatever the anchors. -/
theorem accepted_iff_forall₂ (hlength : patterns.length = siblings.length) :
    Accepted fits passes patterns siblings ↔
      List.Forall₂ (fun entry sibling => Passing fits passes entry.2 sibling) patterns
        siblings := by
  refine ⟨?_, accepted_of_forall₂⟩
  intro h
  obtain ⟨taken, hsublist, hforall⟩ := sublist_of_accepted h
  have hall : taken = siblings := hsublist.eq_of_length (hforall.length_eq.symm.trans hlength)
  rwa [hall] at hforall

end Rules

end WeggliEnhance.SiblingPatterns
