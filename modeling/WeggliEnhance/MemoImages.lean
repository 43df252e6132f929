import WeggliEnhance.Memoization

/-!
# Images of memoised computations

A function on the stored values turns one table into another. A computation
is the image of another one when, started from the image of any table, it
returns the image of the outcome and leaves the image of the table. So both
hit and miss their tables at the same places and fail at the same places.
-/

namespace WeggliEnhance.MemoImages

open Memoization

variable {κ ν ν' ε α β γ δ : Type} {image : ν → ν'}

/-- The table with the images of its values. -/
def imageTable (image : ν → ν') (table : Table κ ν) : Table κ ν' := table.map (Prod.map id image)

/-- The second computation is the image of the first one. -/
def Images (image : ν → ν') (f : α → β) (x : MemoM κ ν ε α) (y : MemoM κ ν' ε β) : Prop :=
  ∀ table, runFrom y (imageTable image table) =
    ((runFrom x table).1.map f, imageTable image (runFrom x table).2)

theorem get_imageTable [DecidableEq κ] (table : Table κ ν) (key : κ) :
    (imageTable image table).get key = (table.get key).map image := by
  rw [Table.get, Table.get, imageTable, List.find?_map]
  have htest : ((fun entry : κ × ν' => decide (entry.1 = key)) ∘ Prod.map id image) =
      fun entry => decide (entry.1 = key) := rfl
  rw [htest]
  cases table.find? fun entry => decide (entry.1 = key) with
  | none => rfl
  | some entry => rfl

theorem images_pure {f : α → β} {a : α} {b : β} (h : b = f a) :
    Images image f (pure a : MemoM κ ν ε α) (pure b : MemoM κ ν' ε β) := by
  subst h
  exact fun _ => rfl

/-- Both computations fail with the same error. -/
theorem images_throw {f : α → β} (e : ε) :
    Images image f (throwThe ε e : MemoM κ ν ε α) (throwThe ε e : MemoM κ ν' ε β) := fun _ => rfl

/-- Sequencing: the continuations are images on every value. -/
theorem images_bind {x : MemoM κ ν ε α} {y : MemoM κ ν' ε β} {f : α → β} {g : γ → δ}
    {next : α → MemoM κ ν ε γ} {next' : β → MemoM κ ν' ε δ} (h : Images image f x y)
    (hnext : ∀ a, Images image g (next a) (next' (f a))) :
    Images image g (x >>= next) (y >>= next') := by
  intro table
  rw [runFrom_bind, runFrom_bind, h table]
  rcases runFrom x table with ⟨outcome, rest⟩
  cases outcome with
  | error e => rfl
  | ok a => exact hnext a rest

/-- Memoising under the same key. -/
theorem images_memoise [DecidableEq κ] {x : MemoM κ ν ε ν} {y : MemoM κ ν' ε ν'}
    (h : Images image image x y) (key : κ) :
    Images image image (memoise key x) (memoise key y) := by
  intro table
  rw [runFrom_memoise, runFrom_memoise, get_imageTable]
  cases table.get key with
  | some value => rfl
  | none =>
    dsimp only [Option.map_none]
    rw [h table]
    rcases runFrom x table with ⟨outcome, rest⟩
    cases outcome with
    | error e => rfl
    | ok value => rfl

/-- Left folds along a list and its image. -/
theorem images_foldlM {τ τ' : Type} {entry : τ → τ'} {f : α → β} {step : α → τ → MemoM κ ν ε α}
    {step' : β → τ' → MemoM κ ν' ε β} {list : List τ} {list' : List τ'} {a : α} {b : β}
    (hlist : list' = list.map entry) (hstart : b = f a)
    (h : ∀ a, ∀ y ∈ list, Images image f (step a y) (step' (f a) (entry y))) :
    Images image f (list.foldlM step a) (list'.foldlM step' b) := by
  subst hlist hstart
  induction list generalizing a with
  | nil => exact images_pure rfl
  | cons y list ih =>
    rw [List.map_cons, List.foldlM_cons, List.foldlM_cons]
    exact images_bind (h a y List.mem_cons_self)
      fun _ => ih fun b z hz => h b z (List.mem_cons_of_mem y hz)

/-- Searches along a list and its image. -/
theorem images_anyM {τ τ' : Type} {entry : τ → τ'} {test : τ → MemoM κ ν ε Bool}
    {test' : τ' → MemoM κ ν' ε Bool} {list : List τ} {list' : List τ'}
    (hlist : list' = list.map entry)
    (h : ∀ y ∈ list, Images image id (test y) (test' (entry y))) :
    Images image id (list.anyM test) (list'.anyM test') := by
  subst hlist
  induction list with
  | nil => exact images_pure rfl
  | cons y list ih =>
    rw [List.map_cons, List.anyM, List.anyM]
    refine images_bind (h y List.mem_cons_self) ?_
    intro found
    cases found with
    | true => exact images_pure rfl
    | false => exact ih fun z hz => h z (List.mem_cons_of_mem y hz)

end WeggliEnhance.MemoImages
