import Mathlib.Logic.Basic

/-!
# Postconditions for fallible stateful computations

A computation with a state either fails or returns a value and a new state.
A postcondition speaks of both outcomes: which failures are allowed and what
holds of the value and the state. The rules follow the shape of a program, so
one walk over its text proves its specification.
-/

namespace WeggliEnhance.FallibleState

variable {σ ε α β : Type} {allowed : ε → Prop}

/-- A fallible value satisfies a postcondition or fails in an allowed way. -/
def Outcome (allowed : ε → Prop) (x : Except ε α) (post : α → Prop) : Prop :=
  match x with
  | .ok a => post a
  | .error e => allowed e

/-- Started from a state, a computation establishes a postcondition on its
value and final state or fails in an allowed way. -/
def Ensures (allowed : ε → Prop) (x : StateT σ (Except ε) α) (s : σ) (post : α → σ → Prop) :
    Prop :=
  Outcome allowed (x s) fun result => post result.1 result.2

/-- The second part of a sequence starts where the first part succeeded. -/
theorem outcome_bind {x : Except ε α} {f : α → Except ε β} {post : α → Prop} {post' : β → Prop}
    (hx : Outcome allowed x post) (hf : ∀ a, post a → Outcome allowed (f a) post') :
    Outcome allowed (x >>= f) post' := by
  cases x with
  | ok a => exact hf a hx
  | error e => exact hx

/-- What holds of a successful outcome. -/
theorem outcome_ok {x : Except ε α} {post : α → Prop} {a : α} (h : Outcome allowed x post)
    (hx : x = .ok a) : post a := by
  rw [hx] at h
  exact h

/-- A postcondition may be weakened. -/
theorem outcome_imp {x : Except ε α} {post post' : α → Prop} (hx : Outcome allowed x post)
    (h : ∀ a, post a → post' a) : Outcome allowed x post' := by
  cases x with
  | ok a => exact h a hx
  | error e => exact hx

/-- A mapped outcome succeeds only when the outcome does. -/
theorem exists_of_map_eq_ok {x : Except ε α} {f : α → β} {b : β} (h : x.map f = .ok b) :
    ∃ a, x = .ok a ∧ f a = b := by
  cases x with
  | error e => cases h
  | ok a => exact ⟨a, rfl, Except.ok.inj h⟩

/-- Forgetting the failure keeps the value. -/
theorem eq_ok_of_toOption {x : Except ε α} {a : α} (h : x.toOption = some a) : x = .ok a := by
  cases x with
  | error e => cases h
  | ok b => rw [Option.some.inj h]

/-- A sequence succeeds only when both its parts do. -/
theorem exists_of_bind_eq_ok {x : Except ε α} {f : α → Except ε β} {b : β}
    (h : x >>= f = .ok b) : ∃ a, x = .ok a ∧ f a = .ok b := by
  cases x with
  | error e => cases h
  | ok a => exact ⟨a, rfl, h⟩

/-- Every value of a list of computations comes from one of them. -/
theorem exists_of_mem_mapM {τ : Type} {f : τ → Except ε α} {list : List τ} {results : List α}
    (h : list.mapM f = .ok results) : ∀ a ∈ results, ∃ x ∈ list, f x = .ok a := by
  induction list generalizing results with
  | nil =>
    cases h
    simp
  | cons x list ih =>
    rw [List.mapM_cons] at h
    obtain ⟨first, hfirst, hcontinue⟩ := exists_of_bind_eq_ok h
    obtain ⟨rest, hrest, heq⟩ := exists_of_bind_eq_ok hcontinue
    cases heq
    intro a ha
    obtain rfl | hlater := List.mem_cons.mp ha
    · exact ⟨x, List.mem_cons_self, hfirst⟩
    · obtain ⟨y, hy, hvalue⟩ := ih hrest a hlater
      exact ⟨y, List.mem_cons_of_mem x hy, hvalue⟩

/-- Tests that cannot fail are plain tests. -/
theorem anyM_ok {τ : Type} (test : τ → Bool) (list : List τ) :
    list.anyM (fun a => (.ok (test a) : Except ε Bool)) = .ok (list.any test) := by
  induction list with
  | nil => rfl
  | cons a list ih =>
    rw [List.anyM, List.any_cons, ih]
    cases test a <;> rfl

/-- A search that returns has found out whether some test succeeds. -/
theorem anyM_eq_ok {τ : Type} {test : τ → Except ε Bool} {list : List τ} {found : Bool}
    (h : list.anyM test = .ok found) : found = true ↔ ∃ a ∈ list, test a = .ok true := by
  induction list with
  | nil =>
    cases h
    simp
  | cons a list ih =>
    rw [List.anyM] at h
    obtain ⟨first, hfirst, hrest⟩ := exists_of_bind_eq_ok h
    cases first with
    | true =>
      cases hrest
      simp [hfirst]
    | false => simp [ih hrest, hfirst]

/-- A search without success has seen every test fail. -/
theorem anyM_eq_false {τ : Type} {test : τ → Except ε Bool} {list : List τ}
    (h : list.anyM test = .ok false) : ∀ a ∈ list, test a = .ok false := by
  induction list with
  | nil => exact List.forall_mem_nil _
  | cons a list ih =>
    rw [List.anyM] at h
    obtain ⟨first, hfirst, hrest⟩ := exists_of_bind_eq_ok h
    cases first with
    | true => cases hrest
    | false => exact List.forall_mem_cons.mpr ⟨hfirst, ih hrest⟩

/-- A search that fails has met a test that fails. -/
theorem anyM_eq_error {τ : Type} {test : τ → Except ε Bool} {list : List τ} {e : ε}
    (h : list.anyM test = .error e) : ∃ a ∈ list, test a = .error e := by
  induction list with
  | nil => cases h
  | cons a list ih =>
    rw [List.anyM] at h
    cases hfirst : test a with
    | error e' =>
      rw [hfirst] at h
      cases h
      exact ⟨a, List.mem_cons_self, hfirst⟩
    | ok first =>
      rw [hfirst] at h
      cases first with
      | true => cases h
      | false =>
        obtain ⟨b, hb, htest⟩ := ih h
        exact ⟨b, List.mem_cons_of_mem a hb, htest⟩

variable {s : σ} {post : α → σ → Prop}

theorem ensures_pure {a : α} (h : post a s) :
    Ensures allowed (pure a : StateT σ (Except ε) α) s post := h

/-- Sequencing: the continuation starts from the state the first part left. -/
theorem ensures_bind {x : StateT σ (Except ε) α} {f : α → StateT σ (Except ε) β}
    {post' : β → σ → Prop} (hx : Ensures allowed x s post)
    (hf : ∀ a t, post a t → Ensures allowed (f a) t post') : Ensures allowed (x >>= f) s post' :=
  outcome_bind hx fun result => hf result.1 result.2

theorem ensures_map {x : StateT σ (Except ε) α} {f : α → β} {post' : β → σ → Prop}
    (hx : Ensures allowed x s fun a => post' (f a)) : Ensures allowed (f <$> x) s post' := by
  unfold Ensures at hx ⊢
  have hmap : (f <$> x) s = (x s).map fun result => (f result.1, result.2) := by
    change (StateT.map f x) s = _
    unfold StateT.map
    cases x s <;> rfl
  rw [hmap]
  cases hrun : x s with
  | ok result =>
    rw [hrun] at hx
    exact hx
  | error e =>
    rw [hrun] at hx
    exact hx

/-- What holds of a successful run. -/
theorem ensures_ok {x : StateT σ (Except ε) α} {a : α} {t : σ} (h : Ensures allowed x s post)
    (hx : x s = .ok (a, t)) : post a t := by
  rw [Ensures, hx] at h
  exact h

/-- A computation whose failures are allowed establishes what its own run
says. -/
theorem ensures_self {x : StateT σ (Except ε) α} (h : ∀ e, x s = .error e → allowed e) :
    Ensures allowed x s fun a t => x s = .ok (a, t) := by
  unfold Ensures
  cases hrun : x s with
  | ok result => exact rfl
  | error e => exact h e hrun

/-- A weaker postcondition. -/
theorem ensures_imp {x : StateT σ (Except ε) α} {post' : α → σ → Prop}
    (hx : Ensures allowed x s post) (h : ∀ a t, post a t → post' a t) :
    Ensures allowed x s post' := outcome_imp hx fun result => h result.1 result.2

/-- The postcondition may speak of the run itself. -/
theorem ensures_run {x : StateT σ (Except ε) α} (h : Ensures allowed x s post) :
    Ensures allowed x s fun a t => x s = .ok (a, t) ∧ post a t := by
  unfold Ensures at h ⊢
  cases hrun : x s with
  | ok result =>
    rw [hrun] at h
    exact ⟨rfl, h⟩
  | error e =>
    rw [hrun] at h
    exact h

/-- Reading the state returns it. -/
theorem ensures_get {f : σ → StateT σ (Except ε) α} (h : Ensures allowed (f s) s post) :
    Ensures allowed (get >>= f) s post := h

/-- Updating the state continues from the updated one. -/
theorem ensures_modify {g : σ → σ} {f : PUnit → StateT σ (Except ε) α}
    (h : Ensures allowed (f ⟨⟩) (g s) post) : Ensures allowed (modify g >>= f) s post := h

end WeggliEnhance.FallibleState
