import WeggliEnhance.FallibleState

/-!
# Two runs side by side

Two computations that may fail are compared. They correspond when both
succeed with related results or both fail; a failure of one of them alone has
to be excused. The rules follow the shape of the two programs, also where one
of them does two things in the other order. Runs are in lockstep when the
state of the second one is a function of the state of the first one at all
times.
-/

namespace WeggliEnhance.PairedRuns

variable {σ τ ε α β γ δ : Type} {excused : ε → Prop}

/-- Two outcomes correspond. -/
def Joint (excused : ε → Prop) (x : Except ε α) (y : Except ε β) (post : α → β → Prop) : Prop :=
  match x, y with
  | .ok a, .ok b => post a b
  | .error e, .ok _ => excused e
  | .ok _, .error e => excused e
  | .error _, .error _ => True

/-- Two stateful computations correspond when started from two states. -/
def Together (excused : ε → Prop) (x : StateT σ (Except ε) α) (y : StateT τ (Except ε) β) (s : σ)
    (t : τ) (post : α → σ → β → τ → Prop) : Prop :=
  Joint excused (x s) (y t) fun result result' => post result.1 result.2 result'.1 result'.2

/-- What holds of two successful outcomes. -/
theorem joint_ok {x : Except ε α} {y : Except ε β} {post : α → β → Prop} {a : α} {b : β}
    (h : Joint excused x y post) (hx : x = .ok a) (hy : y = .ok b) : post a b := by
  rw [hx, hy] at h
  exact h

/-- An excused failure on the left corresponds to everything. -/
theorem joint_error {e : ε} (h : excused e) (y : Except ε β) (post : α → β → Prop) :
    Joint excused (.error e) y post := by
  cases y with
  | ok b => exact h
  | error e' => exact trivial

/-- An excused failure on the right corresponds to everything. -/
theorem joint_error_right {e : ε} (h : excused e) (x : Except ε α) (post : α → β → Prop) :
    Joint excused x (.error e) post := by
  cases x with
  | ok a => exact h
  | error e' => exact trivial

/-- The second parts start where both first parts succeeded. -/
theorem joint_bind {x : Except ε α} {y : Except ε β} {f : α → Except ε γ} {g : β → Except ε δ}
    {post : α → β → Prop} {post' : γ → δ → Prop} (h : Joint excused x y post)
    (hf : ∀ a b, post a b → Joint excused (f a) (g b) post') :
    Joint excused (x >>= f) (y >>= g) post' := by
  cases x with
  | ok a =>
    cases y with
    | ok b => exact hf a b h
    | error e => exact joint_error_right (show excused e from h) (f a) post'
  | error e =>
    cases y with
    | ok b => exact joint_error (show excused e from h) (g b) post'
    | error e' => exact trivial

section Rules

variable {x : StateT σ (Except ε) α} {y : StateT τ (Except ε) β} {s : σ} {t : τ}
  {post : α → σ → β → τ → Prop}

theorem together_pure {a : α} {b : β} (h : post a s b t) :
    Together excused (pure a : StateT σ (Except ε) α) (pure b : StateT τ (Except ε) β) s t post :=
  h

/-- Sequencing: the continuations start from the states the first parts left. -/
theorem together_bind {f : α → StateT σ (Except ε) γ} {g : β → StateT τ (Except ε) δ}
    {post' : γ → σ → δ → τ → Prop} (h : Together excused x y s t post)
    (hf : ∀ a s' b t', post a s' b t' → Together excused (f a) (g b) s' t' post') :
    Together excused (x >>= f) (y >>= g) s t post' :=
  joint_bind h fun result result' => hf result.1 result.2 result'.1 result'.2

/-- A weaker postcondition. -/
theorem together_mono {post' : α → σ → β → τ → Prop} (h : Together excused x y s t post)
    (himp : ∀ a s' b t', post a s' b t' → post' a s' b t') : Together excused x y s t post' := by
  unfold Together at h ⊢
  cases hx : x s with
  | ok result =>
    rw [hx] at h
    cases hy : y t with
    | ok result' =>
      rw [hy] at h
      exact himp _ _ _ _ h
    | error e =>
      rw [hy] at h
      exact h
  | error e =>
    rw [hx] at h
    cases hy : y t with
    | ok result' =>
      rw [hy] at h
      exact h
    | error e' => exact trivial

theorem together_map {f : α → γ} {g : β → δ} {post' : γ → σ → δ → τ → Prop}
    (h : Together excused x y s t fun a s' b t' => post' (f a) s' (g b) t') :
    Together excused (f <$> x) (g <$> y) s t post' := by
  rw [map_eq_pure_bind, map_eq_pure_bind]
  exact together_bind h fun _ _ _ _ hpost => together_pure hpost

/-- Reading the state returns it. -/
theorem together_get {f : σ → StateT σ (Except ε) α} {g : τ → StateT τ (Except ε) β}
    (h : Together excused (f s) (g t) s t post) :
    Together excused (get >>= f) (get >>= g) s t post := h

/-- Updating the states continues from the updated ones. -/
theorem together_modify {u : σ → σ} {v : τ → τ} {f : PUnit → StateT σ (Except ε) α}
    {g : PUnit → StateT τ (Except ε) β}
    (h : Together excused (f ⟨⟩) (g ⟨⟩) (u s) (v t) post) :
    Together excused (modify u >>= f) (modify v >>= g) s t post := h

end Rules

/-- Two things done in one order on the left and in the other order on the
right. -/
theorem together_swap {α' β' : Type} {x₁ : StateT σ (Except ε) α} {x₂ : StateT σ (Except ε) β}
    {y₁ : StateT τ (Except ε) α'} {y₂ : StateT τ (Except ε) β'}
    {f : α → β → StateT σ (Except ε) γ} {g : α' → β' → StateT τ (Except ε) δ} {s : σ} {t : τ}
    {post₁ : τ → α → σ → α' → τ → Prop} {post₂ : σ → β → σ → β' → τ → Prop}
    {post : γ → σ → δ → τ → Prop}
    (h₁ : ∀ b' t₁, y₂ t = .ok (b', t₁) → Together excused x₁ y₁ s t₁ (post₁ t₁))
    (h₂ : ∀ a s₁, x₁ s = .ok (a, s₁) → Together excused x₂ y₂ s₁ t (post₂ s₁))
    (hf : ∀ a s₁ b s₂ a' t₁ b' t₂, post₁ t₁ a s₁ a' t₂ → post₂ s₁ b s₂ b' t₁ →
      Together excused (f a b) (g a' b') s₂ t₂ post) :
    Together excused (x₁ >>= fun a => x₂ >>= f a) (y₂ >>= fun b' => y₁ >>= fun a' => g a' b') s t
      post := by
  change Joint excused (x₁ s >>= fun r => x₂ r.2 >>= fun r' => f r.1 r'.1 r'.2)
    (y₂ t >>= fun q => y₁ q.2 >>= fun q' => g q'.1 q.1 q'.2) _
  cases hy : y₂ t with
  | error e =>
    cases hx : x₁ s with
    | error e' => exact trivial
    | ok first =>
      have hsecond := h₂ first.1 first.2 hx
      rw [Together, hy] at hsecond
      change Joint excused (x₂ first.2 >>= fun r' => f first.1 r'.1 r'.2) (.error e) _
      cases hx₂ : x₂ first.2 with
      | error e' => exact trivial
      | ok second =>
        rw [hx₂] at hsecond
        exact joint_error_right (show excused e from hsecond) (f first.1 second.1 second.2) _
  | ok second' =>
    have hfirst := h₁ second'.1 second'.2 hy
    rw [Together] at hfirst
    change Joint excused _ (y₁ second'.2 >>= fun q' => g q'.1 second'.1 q'.2) _
    cases hx : x₁ s with
    | error e =>
      cases hy₁ : y₁ second'.2 with
      | error e' => exact trivial
      | ok first' =>
        rw [hx, hy₁] at hfirst
        exact joint_error (show excused e from hfirst) (g first'.1 second'.1 first'.2) _
    | ok first =>
      have hsecond := h₂ first.1 first.2 hx
      rw [Together, hy] at hsecond
      change Joint excused (x₂ first.2 >>= fun r' => f first.1 r'.1 r'.2) _ _
      cases hx₂ : x₂ first.2 with
      | error e =>
        rw [hx₂] at hsecond
        exact joint_error (show excused e from hsecond) _ _
      | ok second =>
        rw [hx₂] at hsecond
        cases hy₁ : y₁ second'.2 with
        | error e =>
          rw [hx, hy₁] at hfirst
          exact joint_error_right (show excused e from hfirst) _ _
        | ok first' =>
          rw [hx, hy₁] at hfirst
          exact hf _ _ _ _ _ _ _ _ hfirst hsecond

section Lockstep

variable {image : σ → τ} {keeps : σ → Prop}

/-- The second computation follows the first one from every state with a
property that is kept. -/
def Follows (image : σ → τ) (keeps : σ → Prop) (x : StateT σ (Except ε) α)
    (y : StateT τ (Except ε) β) (related : α → β → Prop) : Prop :=
  ∀ s, keeps s → Joint (fun _ => False) (x s) (y (image s)) fun result result' =>
    related result.1 result'.1 ∧ result'.2 = image result.2 ∧ keeps result.2

variable {x : StateT σ (Except ε) α} {y : StateT τ (Except ε) β} {related : α → β → Prop}

theorem follows_pure {a : α} {b : β} (h : related a b) :
    Follows image keeps (pure a : StateT σ (Except ε) α) (pure b : StateT τ (Except ε) β) related :=
  fun _ hkeeps => ⟨h, rfl, hkeeps⟩

/-- Both computations fail. -/
theorem follows_throw (e e' : ε) :
    Follows image keeps (throw e : StateT σ (Except ε) α) (throw e' : StateT τ (Except ε) β)
      related :=
  fun _ _ => trivial

/-- Sequencing: the continuations follow each other on related values. -/
theorem follows_bind {f : α → StateT σ (Except ε) γ} {g : β → StateT τ (Except ε) δ}
    {related' : γ → δ → Prop} (h : Follows image keeps x y related)
    (hf : ∀ a b, related a b → Follows image keeps (f a) (g b) related') :
    Follows image keeps (x >>= f) (y >>= g) related' := by
  intro s hkeeps
  refine joint_bind (h s hkeeps) ?_
  rintro ⟨a, s'⟩ ⟨b, t'⟩ ⟨hrelated, himage, hkeeps'⟩
  dsimp only at himage
  rw [himage]
  exact hf a b hrelated s' hkeeps'

/-- Both computations read their states. -/
theorem follows_get :
    Follows image keeps (get : StateT σ (Except ε) σ) (get : StateT τ (Except ε) τ)
      fun s t => t = image s ∧ keeps s :=
  fun _ hkeeps => ⟨⟨rfl, hkeeps⟩, rfl, hkeeps⟩

/-- Both computations update their states alike. -/
theorem follows_modify {u : σ → σ} {v : τ → τ} (h : ∀ s, keeps s → v (image s) = image (u s))
    (hkept : ∀ s, keeps s → keeps (u s)) :
    Follows image keeps (modify u : StateT σ (Except ε) PUnit)
      (modify v : StateT τ (Except ε) PUnit) fun _ _ => True :=
  fun s hkeeps => ⟨trivial, h s hkeeps, hkept s hkeeps⟩

/-- A test that both computations decide alike. -/
theorem follows_ite {test test' : Prop} [Decidable test] [Decidable test'] (htest : test' ↔ test)
    {x' : StateT σ (Except ε) α} {y' : StateT τ (Except ε) β}
    (h : test → Follows image keeps x y related) (h' : ¬test → Follows image keeps x' y' related) :
    Follows image keeps (if test then x else x') (if test' then y else y') related := by
  by_cases hdecided : test
  · rw [if_pos hdecided, if_pos (htest.mpr hdecided)]
    exact h hdecided
  · rw [if_neg hdecided, if_neg fun htrue => hdecided (htest.mp htrue)]
    exact h' hdecided

end Lockstep

end WeggliEnhance.PairedRuns
