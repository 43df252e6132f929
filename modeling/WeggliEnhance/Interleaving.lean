import Mathlib.Data.List.Perm.Basic

/-!
# Interleavings of streams

Several senders each send a stream in order; the receiver sees some
interleaving of the streams. A part of the elements that comes from one stream
only is received in the order of that stream. Keeping the first element of
each key acts on every such part alone, so what is kept does not depend on the
interleaving.
-/

namespace WeggliEnhance.Interleaving

variable {α κ π : Type*}

/-- The list takes the next element of some stream until all are empty. -/
inductive Interleaves : List (List α) → List α → Prop
  /-- All streams are empty. -/
  | done {streams : List (List α)} (h : ∀ stream ∈ streams, stream = []) : Interleaves streams []
  /-- Some stream sends its next element. -/
  | take {before after : List (List α)} {a : α} {rest list : List α}
      (h : Interleaves (before ++ rest :: after) list) :
      Interleaves (before ++ (a :: rest) :: after) (a :: list)

/-- Elements that come from one stream only arrive in its order. -/
theorem filter_interleaves {streams : List (List α)} {list : List α}
    (h : Interleaves streams list) (p : α → Bool)
    (hone : streams.Pairwise fun s t => s.filter p = [] ∨ t.filter p = []) :
    list.filter p = streams.flatten.filter p := by
  induction h with
  | done h => rw [List.flatten_eq_nil_iff.mpr h]
  | take h ih =>
    rename_i before after a rest list
    have htail : (a :: rest).filter p = [] → rest.filter p = [] := by
      intro hnil
      rw [List.filter_eq_nil_iff] at hnil ⊢
      exact fun b hb => hnil b (List.mem_cons_of_mem a hb)
    rw [List.pairwise_append, List.pairwise_cons] at hone
    obtain ⟨hbefore, ⟨hhead, hafter⟩, hacross⟩ := hone
    have hrest : (before ++ rest :: after).Pairwise fun s t =>
        s.filter p = [] ∨ t.filter p = [] := by
      rw [List.pairwise_append, List.pairwise_cons]
      refine ⟨hbefore, ⟨fun t ht => (hhead t ht).imp_left htail, hafter⟩, ?_⟩
      intro s hs t ht
      rcases List.mem_cons.mp ht with rfl | hlater
      · exact (hacross s hs _ List.mem_cons_self).imp_right htail
      · exact hacross s hs t (List.mem_cons_of_mem _ hlater)
    have hlist := ih hrest
    simp only [List.flatten_append, List.flatten_cons, List.filter_append] at hlist ⊢
    cases ha : p a with
    | false =>
      rw [List.filter_cons_of_neg (by simp [ha]), List.filter_cons_of_neg (by simp [ha]), hlist]
    | true =>
      have hsilent : before.flatten.filter p = [] := by
        rw [List.filter_eq_nil_iff]
        intro b hb
        obtain ⟨s, hs, hbs⟩ := List.mem_flatten.mp hb
        rcases hacross s hs _ List.mem_cons_self with hnone | hnone
        · exact List.filter_eq_nil_iff.mp hnone b hbs
        · exact absurd ha (List.filter_eq_nil_iff.mp hnone a List.mem_cons_self)
      rw [List.filter_cons_of_pos ha, List.filter_cons_of_pos ha, hlist, hsilent]
      rfl

/-- The order in which the streams are listed has no influence. -/
theorem interleaves_of_perm {streams streams' : List (List α)} {list : List α}
    (h : Interleaves streams list) (hperm : streams.Perm streams') : Interleaves streams' list := by
  induction h generalizing streams' with
  | done h => exact .done fun stream hstream => h stream (hperm.mem_iff.mpr hstream)
  | take h ih =>
    rename_i before after a rest list
    obtain ⟨before', after', rfl⟩ := List.append_of_mem
      (hperm.subset (List.mem_append_right before List.mem_cons_self))
    have hothers : (before ++ after).Perm (before' ++ after') :=
      (List.perm_middle.symm.trans (hperm.trans List.perm_middle)).cons_inv
    exact .take (ih (List.perm_middle.trans ((hothers.cons rest).trans List.perm_middle.symm)))

/-- A stream without elements has no influence. -/
theorem interleaves_cons_nil {streams : List (List α)} {list : List α}
    (h : Interleaves streams list) : Interleaves ([] :: streams) list := by
  induction h with
  | done h => exact .done (List.forall_mem_cons.mpr ⟨rfl, h⟩)
  | take h ih =>
    rename_i before after a rest list
    rw [← List.cons_append] at ih ⊢
    exact .take ih

section FirstWins

variable [DecidableEq κ] (key : α → κ)

/-- Keep the first element of each key that has not been seen. -/
def firstWins : List κ → List α → List α
  | _, [] => []
  | seen, a :: list =>
    if key a ∈ seen then firstWins seen list else a :: firstWins (key a :: seen) list

variable {key}

/-- Every key is kept. -/
theorem mem_map_firstWins {seen : List κ} {list : List α} {k : κ} :
    k ∈ (firstWins key seen list).map key ↔ k ∈ list.map key ∧ k ∉ seen := by
  induction list generalizing seen with
  | nil => simp [firstWins]
  | cons a list ih =>
    rw [firstWins]
    split_ifs with hseen
    · rw [ih, List.map_cons, List.mem_cons]
      constructor
      · rintro ⟨hmem, hfresh⟩
        exact ⟨.inr hmem, hfresh⟩
      · rintro ⟨rfl | hmem, hfresh⟩
        · exact absurd hseen hfresh
        · exact ⟨hmem, hfresh⟩
    · rw [List.map_cons, List.mem_cons, ih, List.map_cons, List.mem_cons, List.mem_cons]
      constructor
      · rintro (rfl | ⟨hmem, hfresh⟩)
        · exact ⟨.inl rfl, hseen⟩
        · exact ⟨.inr hmem, fun h => hfresh (.inr h)⟩
      · rintro ⟨hmem, hfresh⟩
        by_cases hk : k = key a
        · exact .inl hk
        · exact .inr ⟨hmem.resolve_left hk, fun h => h.elim hk hfresh⟩

/-- An element is kept where nothing before it has its key. -/
theorem mem_firstWins_iff {seen : List κ} {list : List α} {a : α} :
    a ∈ firstWins key seen list ↔ ∃ before after, list = before ++ a :: after ∧ key a ∉ seen ∧
      ∀ b ∈ before, key b ≠ key a := by
  induction list generalizing seen with
  | nil => simp [firstWins]
  | cons head list ih =>
    rw [firstWins]
    split_ifs with hseen
    · rw [ih]
      constructor
      · rintro ⟨before, after, rfl, hfresh, hbefore⟩
        refine ⟨head :: before, after, rfl, hfresh, List.forall_mem_cons.mpr ⟨?_, hbefore⟩⟩
        intro heq
        exact hfresh (heq ▸ hseen)
      · rintro ⟨before, after, hlist, hfresh, hbefore⟩
        cases before with
        | nil =>
          rw [(List.cons.inj hlist).1] at hseen
          exact absurd hseen hfresh
        | cons first before =>
          exact ⟨before, after, (List.cons.inj hlist).2, hfresh,
            (List.forall_mem_cons.mp hbefore).2⟩
    · rw [List.mem_cons, ih]
      constructor
      · rintro (rfl | ⟨before, after, rfl, hfresh, hbefore⟩)
        · exact ⟨[], list, rfl, hseen, by simp⟩
        · rw [List.mem_cons, not_or] at hfresh
          exact ⟨head :: before, after, rfl, hfresh.2,
            List.forall_mem_cons.mpr ⟨Ne.symm hfresh.1, hbefore⟩⟩
      · rintro ⟨before, after, hlist, hfresh, hbefore⟩
        cases before with
        | nil => exact .inl (List.cons.inj hlist).1.symm
        | cons first before =>
          obtain ⟨rfl, hrest⟩ := List.cons.inj hlist
          obtain ⟨hfirst, hlater⟩ := List.forall_mem_cons.mp hbefore
          refine .inr ⟨before, after, hrest, ?_, hlater⟩
          rw [List.mem_cons, not_or]
          exact ⟨Ne.symm hfirst, hfresh⟩

/-- A part that is closed under equal keys is treated alone. -/
theorem filter_firstWins {p : α → Bool} (hclosed : ∀ a b, key a = key b → p a = p b)
    {seen seen' : List κ} (hseen : ∀ a, p a = true → (key a ∈ seen ↔ key a ∈ seen'))
    (list : List α) :
    (firstWins key seen list).filter p = firstWins key seen' (list.filter p) := by
  induction list generalizing seen seen' with
  | nil => rfl
  | cons a list ih =>
    rw [firstWins]
    cases ha : p a with
    | true =>
      rw [List.filter_cons_of_pos ha, firstWins]
      by_cases hold : key a ∈ seen
      · rw [if_pos hold, if_pos ((hseen a ha).mp hold)]
        exact ih hseen
      · rw [if_neg hold, if_neg (mt (hseen a ha).mpr hold), List.filter_cons_of_pos ha]
        refine congrArg (a :: ·) (ih ?_)
        intro b hb
        rw [List.mem_cons, List.mem_cons, hseen b hb]
    | false =>
      rw [List.filter_cons_of_neg (by simp [ha])]
      split_ifs with hold
      · exact ih hseen
      · rw [List.filter_cons_of_neg (by simp [ha])]
        refine ih ?_
        intro b hb
        have hne : key b ≠ key a := by
          intro heq
          rw [hclosed b a heq, ha] at hb
          cases hb
        rw [List.mem_cons, or_iff_right hne, hseen b hb]

end FirstWins

/-- Lists that agree on every part are permutations of each other. -/
theorem perm_of_filter_eq [DecidableEq α] [DecidableEq π] (part : α → π) {list list' : List α}
    (h : ∀ x, list.filter (fun a => part a = x) = list'.filter fun a => part a = x) :
    list.Perm list' := by
  rw [List.perm_iff_count]
  intro a
  have hpart : ∀ list : List α,
      (list.filter fun b => part b = part a).count a = list.count a := by
    intro list
    exact List.count_filter (by simp)
  rw [← hpart list, ← hpart list', h]

end WeggliEnhance.Interleaving
