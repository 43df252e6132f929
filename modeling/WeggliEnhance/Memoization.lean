import Mathlib.Data.List.Basic
import Mathlib.Data.List.Infix

/-!
# Memoised computations that may fail

A memoised computation threads one table of finished results. The table is
kept as its own history, newest entry first, so the tables that existed
during a run are the suffixes of the last one. A table is sound when every
entry is a good result for its key; the rules below say what a computation
returns from any sound table and that it leaves a sound extension of it. Runs
of one program in different monads stay related when the relation respects
returning, sequencing and failing; loops preserve every such relation.
-/

namespace WeggliEnhance.Memoization

variable {κ ν ε α β : Type}

section Relations

/-- A relation between computations that respects the monad operations. -/
structure MonadRelation (ε : Type) (m n : Type → Type) [Monad m] [Monad n] [MonadExceptOf ε m]
    [MonadExceptOf ε n] where
  /-- The related computations. -/
  rel : ∀ {α : Type}, m α → n α → Prop
  /-- Returning the same value is related. -/
  pure : ∀ {α : Type} (a : α), rel (Pure.pure a) (Pure.pure a)
  /-- Failing with the same error is related. -/
  throw : ∀ {α : Type} (e : ε), rel (throwThe ε e : m α) (throwThe ε e : n α)
  /-- Related computations followed by related continuations are related. -/
  bind : ∀ {α β : Type} {x : m α} {y : n α} {f : α → m β} {g : α → n β},
    rel x y → (∀ a, rel (f a) (g a)) → rel (x >>= f) (y >>= g)

variable {m n : Type → Type} [Monad m] [Monad n] [MonadExceptOf ε m] [MonadExceptOf ε n]
  {σ τ : Type}

/-- Equality of runs in one monad. -/
def eqRelation (ε : Type) (m : Type → Type) [Monad m] [MonadExceptOf ε m] :
    MonadRelation ε m m where
  rel := Eq
  pure _ := rfl
  throw _ := rfl
  bind hx hf := by rw [hx, funext hf]

variable (R : MonadRelation ε m n)

/-- Left folds with related bodies are related. -/
theorem rel_foldlM {f : σ → τ → m σ} {g : σ → τ → n σ} {list : List τ}
    (h : ∀ x ∈ list, ∀ s, R.rel (f s x) (g s x)) (s : σ) :
    R.rel (list.foldlM f s) (list.foldlM g s) := by
  induction list generalizing s with
  | nil => exact R.pure s
  | cons x list ih =>
    rw [List.foldlM_cons, List.foldlM_cons]
    refine R.bind (h x List.mem_cons_self s) ?_
    exact ih fun y hy => h y (List.mem_cons_of_mem x hy)

/-- Searches with related tests are related. -/
theorem rel_anyM {f : τ → m Bool} {g : τ → n Bool} {list : List τ}
    (h : ∀ x ∈ list, R.rel (f x) (g x)) : R.rel (list.anyM f) (list.anyM g) := by
  induction list with
  | nil => exact R.pure false
  | cons x list ih =>
    rw [List.anyM, List.anyM]
    refine R.bind (h x List.mem_cons_self) ?_
    intro found
    cases found with
    | true => exact R.pure true
    | false => exact ih fun y hy => h y (List.mem_cons_of_mem x hy)

end Relations

/-- The table of finished results, newest first. -/
abbrev Table (κ ν : Type) := List (κ × ν)

/-- Computations with a table, failing with an error that keeps the table. -/
abbrev MemoM (κ ν ε : Type) := ExceptT ε (StateM (Table κ ν))

/-- The newest entry for a key. -/
def Table.get [DecidableEq κ] (table : Table κ ν) (key : κ) : Option ν :=
  (table.find? fun entry => entry.1 = key).map Prod.snd

/-- Outcome and final table of a computation started from a table. -/
def runFrom (x : MemoM κ ν ε α) (table : Table κ ν) : Except ε α × Table κ ν := x.run.run table

/-- Look the key up, or compute the value and store it. -/
def memoise [DecidableEq κ] (key : κ) (x : MemoM κ ν ε ν) : MemoM κ ν ε ν := do
  match (← get).get key with
  | some value => pure value
  | none =>
    let value ← x
    modify fun table => (key, value) :: table
    pure value

@[simp]
theorem runFrom_pure (a : α) (table : Table κ ν) :
    runFrom (pure a : MemoM κ ν ε α) table = (.ok a, table) := rfl

theorem runFrom_bind (x : MemoM κ ν ε α) (f : α → MemoM κ ν ε β) (table : Table κ ν) :
    runFrom (x >>= f) table =
      match runFrom x table with
      | (.ok a, rest) => runFrom (f a) rest
      | (.error e, rest) => (.error e, rest) := by
  rcases h : x.run.run table with ⟨outcome, rest⟩
  cases outcome <;> simp only [runFrom, ExceptT.run_bind, StateT.run_bind, h] <;> rfl

theorem runFrom_memoise [DecidableEq κ] (key : κ) (x : MemoM κ ν ε ν) (table : Table κ ν) :
    runFrom (memoise key x) table =
      match table.get key with
      | some value => (.ok value, table)
      | none =>
        match runFrom x table with
        | (.ok value, rest) => (.ok value, (key, value) :: rest)
        | (.error e, rest) => (.error e, rest) := by
  have hread : runFrom (get : MemoM κ ν ε (Table κ ν)) table = (.ok table, table) := rfl
  rw [memoise, runFrom_bind, hread]
  cases hget : table.get key with
  | some value => simp only [hget, runFrom_pure]
  | none =>
    simp only [hget, runFrom_bind]
    rcases runFrom x table with ⟨outcome, rest⟩
    cases outcome <;> rfl

/-- Every entry of the table is a good result for its key. -/
def Sound (good : κ → ν → Prop) (table : Table κ ν) : Prop := ∀ entry ∈ table, good entry.1 entry.2

theorem sound_get [DecidableEq κ] {good : κ → ν → Prop} {table : Table κ ν} {key : κ} {value : ν}
    (hsound : Sound good table) (hget : table.get key = some value) : good key value := by
  obtain ⟨entry, hentry, rfl⟩ := Option.map_eq_some_iff.mp hget
  have hkey := List.find?_some hentry
  have hgood := hsound entry (List.mem_of_find?_eq_some hentry)
  rwa [decide_eq_true_iff.mp hkey] at hgood

/-- From every sound table the outcome is as stated, and the final table is a
sound extension of the first one. -/
def Returns (good : κ → ν → Prop) (x : MemoM κ ν ε α) (outcome : Except ε α → Prop) : Prop :=
  ∀ table, Sound good table → outcome (runFrom x table).1 ∧ Sound good (runFrom x table).2 ∧
    table <:+ (runFrom x table).2

section Rules

variable {good : κ → ν → Prop} {x : MemoM κ ν ε α} {outcome : Except ε α → Prop}

/-- The table that a run leaves is sound. -/
theorem sound_of_runFrom (h : Returns good x outcome) {table rest : Table κ ν}
    (hsound : Sound good table) {result : Except ε α} (hrun : runFrom x table = (result, rest)) :
    Sound good rest := by
  have hrest := (h table hsound).2.1
  rwa [hrun] at hrest

theorem returns_pure {a : α} (h : outcome (.ok a)) :
    Returns good (pure a : MemoM κ ν ε α) outcome :=
  fun table hsound => ⟨h, hsound, List.suffix_refl table⟩

theorem returns_throw {e : ε} (h : outcome (.error e)) :
    Returns good (throw e : MemoM κ ν ε α) outcome :=
  fun table hsound => ⟨h, hsound, List.suffix_refl table⟩

theorem returns_mono {outcome' : Except ε α → Prop} (h : Returns good x outcome)
    (himp : ∀ result, outcome result → outcome' result) : Returns good x outcome' := by
  intro table hsound
  obtain ⟨hout, hrest⟩ := h table hsound
  exact ⟨himp _ hout, hrest⟩

/-- Sequencing: the continuation starts from the table the first part left. -/
theorem returns_bind {f : α → MemoM κ ν ε β} {outcome' : Except ε β → Prop}
    (hx : Returns good x outcome) (hok : ∀ a, outcome (.ok a) → Returns good (f a) outcome')
    (herror : ∀ e, outcome (.error e) → outcome' (.error e)) :
    Returns good (x >>= f) outcome' := by
  intro table hsound
  obtain ⟨hout, hrest, hsuffix⟩ := hx table hsound
  rw [runFrom_bind]
  rcases hrun : runFrom x table with ⟨result, rest⟩
  rw [hrun] at hout hrest hsuffix
  cases result with
  | error e => exact ⟨herror e hout, hrest, hsuffix⟩
  | ok a =>
    obtain ⟨hout', hrest', hsuffix'⟩ := hok a hout rest hrest
    exact ⟨hout', hrest', hsuffix.trans hsuffix'⟩

/-- Memoising keeps the outcome when good results are exactly those that the
computation may return. -/
theorem returns_memoise [DecidableEq κ] {key : κ} {x : MemoM κ ν ε ν}
    {outcome : Except ε ν → Prop} (hx : Returns good x outcome)
    (hstore : ∀ value, outcome (.ok value) → good key value)
    (hread : ∀ value, good key value → outcome (.ok value)) :
    Returns good (memoise key x) outcome := by
  intro table hsound
  rw [runFrom_memoise]
  cases hget : table.get key with
  | some value =>
    exact ⟨hread value (sound_get hsound hget), hsound, List.suffix_refl table⟩
  | none =>
    obtain ⟨hout, hrest, hsuffix⟩ := hx table hsound
    rcases hrun : runFrom x table with ⟨result, rest⟩
    rw [hrun] at hout hrest hsuffix
    cases result with
    | error e => exact ⟨hout, hrest, hsuffix⟩
    | ok value =>
      refine ⟨hout, ?_, hsuffix.trans (List.suffix_cons _ _)⟩
      intro entry hentry
      rcases List.mem_cons.mp hentry with rfl | hold
      · exact hstore value hout
      · exact hrest entry hold

/-- A loop keeps an invariant that every visited element keeps. -/
theorem returns_foldlM {τ : Type} {f : α → τ → MemoM κ ν ε α} {invariant : α → Prop}
    {list : List τ} (hstep : ∀ a, invariant a → ∀ y ∈ list,
      Returns good (f a y) fun result => ∀ b, result = .ok b → invariant b)
    {a : α} (ha : invariant a) :
    Returns good (list.foldlM f a) fun result => ∀ b, result = .ok b → invariant b := by
  induction list generalizing a with
  | nil => exact returns_pure fun b hb => Except.ok.inj hb ▸ ha
  | cons y list ih =>
    rw [List.foldlM_cons]
    refine returns_bind (hstep a ha y List.mem_cons_self) ?_ ?_
    · intro b hb
      exact ih (fun c hc z hz => hstep c hc z (List.mem_cons_of_mem y hz)) (hb b rfl)
    · intro e _ b hb
      cases hb

/-- A search whose tests keep the table sound keeps it sound. -/
theorem returns_anyM {τ : Type} {f : τ → MemoM κ ν ε Bool} {list : List τ}
    (h : ∀ y ∈ list, Returns good (f y) fun _ => True) :
    Returns good (list.anyM f) fun _ => True := by
  induction list with
  | nil => exact returns_pure trivial
  | cons y list ih =>
    rw [List.anyM]
    refine returns_bind (h y List.mem_cons_self) ?_ fun _ _ => trivial
    intro found _
    cases found with
    | true => exact returns_pure trivial
    | false => exact ih fun z hz => h z (List.mem_cons_of_mem y hz)

end Rules

/-- A memoised run and a run without a table have the same outcome. -/
def tableRelation (good : κ → ν → Prop) : MonadRelation ε (MemoM κ ν ε) (Except ε) where
  rel x y := Returns good x fun result => result = y
  pure _ := returns_pure rfl
  throw _ := returns_throw rfl
  bind := by
    intro α β x y f g hx hf
    refine returns_bind hx ?_ ?_
    · rintro a rfl
      exact hf a
    · rintro e rfl
      rfl

end WeggliEnhance.Memoization
