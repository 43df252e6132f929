import WeggliEnhance.ArgumentMatching

/-!
# Counting arguments

The capture of an argument list compares the number of entries of the search
pattern with `named_child_count` on the source side. Comments are named
children too, so they are counted as arguments.
-/

namespace WeggliEnhance.ArgumentCount

open SyntaxTree QueryText ThirdParty QueryTrees QueryEngine PatternBuilder QueryOutline
  OutlineSpecification ArgumentMatching

/-- Comments inserted between, before or after the children of a list. The
children themselves move, but keep their kinds. -/
inductive CommentsInserted : List Node → List Node → Prop
  /-- Nothing is left. -/
  | nil : CommentsInserted [] []
  /-- A child of the list at its new place. -/
  | keep {child moved : Node} {children commented : List Node} : moved.kind = child.kind →
    moved.isNamed = child.isNamed → CommentsInserted children commented →
    CommentsInserted (child :: children) (moved :: commented)
  /-- A comment. -/
  | comment {comment : Node} {children commented : List Node} : comment.kind = "comment" →
    comment.isNamed = true → CommentsInserted children commented →
    CommentsInserted children (comment :: commented)

theorem length_filter_le {children commented : List Node} (h : CommentsInserted children commented) :
    (children.filter Node.isNamed).length ≤ (commented.filter Node.isNamed).length := by
  induction h with
  | nil => exact le_rfl
  | keep hkind hnamed hrest ih =>
    rw [List.filter_cons, List.filter_cons, hnamed]
    split_ifs
    · exact Nat.succ_le_succ ih
    · exact ih
  | comment hkind hnamed hrest ih =>
    rw [List.filter_cons_of_pos hnamed, List.length_cons]
    omega

/-- Comments can only add to the count. -/
theorem namedChildCount_le {target commented : Node}
    (h : CommentsInserted target.children commented.children) :
    target.namedChildCount ≤ commented.namedChildCount := length_filter_le h

/-- Every argument is a named child. -/
theorem length_actualArguments_le (target : Node) :
    (actualArguments target).length ≤ target.namedChildCount := by
  refine List.Sublist.length_le (List.monotone_filter_right _ ?_)
  intro child hchild
  exact (Bool.and_eq_true_iff.mp hchild).1

theorem commentsInserted_refl (children : List Node) : CommentsInserted children children := by
  induction children with
  | nil => exact .nil
  | cons child children ih => exact .keep rfl rfl ih

/-- Any number of comments can be inserted. -/
theorem exists_commentsInserted (target : Node) (k : ℕ) :
    ∃ commented : Node, CommentsInserted target.children commented.children ∧
      commented.namedChildCount = target.namedChildCount + k := by
  induction k with
  | zero => exact ⟨target, commentsInserted_refl _, rfl⟩
  | succ k ih =>
    obtain ⟨commented, hinserted, hcount⟩ := ih
    refine ⟨{ commented with children := rule 0 "comment" 0 0 [] :: commented.children },
      .comment rfl rfl hinserted, ?_⟩
    rw [← Nat.add_assoc, ← hcount]
    rfl

/-- The check on the number of arguments. -/
theorem accepts_callExpQuery (externals : Externals) (source : String) (count : ℕ) (minimum : Bool)
    (node : Node) :
    accepts externals source (.callExpQuery count minimum) node =
      .ok (decide (if minimum then count ≤ node.namedChildCount
        else node.namedChildCount = count)) := by
  cases minimum with
  | true => rfl
  | false =>
    rw [accepts, if_neg Bool.false_ne_true]
    simp only [Bool.false_eq_true, if_false]
    rfl

/-- A call has as many arguments as the list of a search pattern asks for: with
`__` no fewer than the list has other entries, otherwise exactly as many.
Comments are not among its arguments. -/
def RightCount (query : String) (list target : Node) : Prop :=
  if hasVariadic query list then
    (fixedArguments query list).length ≤ (actualArguments target).length
  else (actualArguments target).length = (fixedArguments query list).length

instance (query : String) (list target : Node) : Decidable (RightCount query list target) :=
  inferInstanceAs (Decidable (if hasVariadic query list then _ else _))

/-- The check decides on the number of arguments of the call, whatever comments
are inserted into it. Comments are no arguments, so inserting them leaves the
number as it is. -/
def CountsArguments (externals : Externals) (source query : String) (list : Node)
    (capture : Capture) (target : Node) : Prop :=
  ∀ commented : Node, CommentsInserted target.children commented.children →
    (accepts externals source capture commented = .ok true ↔ RightCount query list target)

/-- When the check on named children decides on the number of arguments. -/
theorem countsArguments_iff (externals : Externals) (source query : String) (list target : Node) :
    CountsArguments externals source query list
        (.callExpQuery (fixedArguments query list).length (hasVariadic query list)) target ↔
      if hasVariadic query list then
        (fixedArguments query list).length ≤ (actualArguments target).length
      else (actualArguments target).length ≠ (fixedArguments query list).length ∧
        (fixedArguments query list).length < target.namedChildCount := by
  have harguments := length_actualArguments_le target
  unfold CountsArguments RightCount
  simp only [accepts_callExpQuery, Except.ok.injEq, decide_eq_true_eq]
  cases hasVariadic query list with
  | true =>
    simp only [if_true]
    constructor
    · intro h
      obtain ⟨commented, hinserted, hcount⟩ :=
        exists_commentsInserted target (fixedArguments query list).length
      exact (h commented hinserted).mp (by omega)
    · intro h commented hinserted
      have hle := namedChildCount_le hinserted
      exact iff_of_true (by omega) h
  | false =>
    simp only [Bool.false_eq_true, if_false]
    constructor
    · intro h
      obtain ⟨more, hmore, hadded⟩ := exists_commentsInserted target 1
      have hplain := h target (commentsInserted_refl _)
      have hother := h more hmore
      have hdiffers : (actualArguments target).length ≠ (fixedArguments query list).length := by
        intro hequal
        have hfirst := hplain.mpr hequal
        have hsecond := hother.mpr hequal
        omega
      refine ⟨hdiffers, ?_⟩
      by_contra hfew
      obtain ⟨commented, hinserted, hcount⟩ := exists_commentsInserted target
        ((fixedArguments query list).length - target.namedChildCount)
      exact hdiffers ((h commented hinserted).mp (by omega))
    · rintro ⟨hdiffers, hmany⟩ commented hinserted
      have hle := namedChildCount_le hinserted
      exact iff_of_false (by omega) hdiffers

/-- Exactly when comments in the source do not affect the count. For the text
of any argument list and any call, the check decides on the number of arguments
of the call, however comments are inserted, if and only if, with `__`, the call
has no fewer arguments than the list has other entries and, without `__`, it has
another number of arguments than the list has entries, but already more named
children. -/
theorem count_arguments_iff {externals : Externals} {query : String} {fuel : ℕ} {list : Node}
    (hlist : IsArgumentList list) {depth : ℕ} {strict : Bool} {up : Option Node} {parent : String}
    {builder next : QueryBuilder} (hquery : builder.querySource = query) {fragment : List Item}
    (hbuild : buildFuel externals (fuel + 1) up list depth strict parent builder =
      .ok (fragment, next)) :
    ∃ last : ℕ, ∃ capture, fragment.getLast? = some (captureItem (toString last)) ∧
      next.captures[last]? = some capture ∧
      ∀ source target, CountsArguments externals source query list capture target ↔
        if hasVariadic query list then
          (fixedArguments query list).length ≤ (actualArguments target).length
        else (actualArguments target).length ≠ (fixedArguments query list).length ∧
          (fixedArguments query list).length < target.namedChildCount := by
  obtain ⟨entries, last, -, rfl, hlast⟩ := exists_emitted hlist hquery hbuild
  refine ⟨last, _, rfl, hlast, ?_⟩
  intro source target
  exact countsArguments_iff externals source query list target

/-- The check for the list of `f(a);`. -/
theorem count_arguments_iff_sample :
    ∃ fragment next,
      buildFuel sampleExternals 2 none exactList 1 false "call_expression" (.new "f(a);" 0 ∅) =
        .ok (fragment, next) ∧
      ∃ last : ℕ, ∃ capture, fragment.getLast? = some (captureItem (toString last)) ∧
        next.captures[last]? = some capture ∧
        ∀ source target, CountsArguments sampleExternals source "f(a);" exactList capture target ↔
          if hasVariadic "f(a);" exactList then
            (fixedArguments "f(a);" exactList).length ≤ (actualArguments target).length
          else (actualArguments target).length ≠ (fixedArguments "f(a);" exactList).length ∧
            (fixedArguments "f(a);" exactList).length < target.namedChildCount := by
  have hquery : (QueryBuilder.new "f(a);" 0 ∅).querySource = "f(a);" := rfl
  exact ⟨_, _, build_exactList, count_arguments_iff isArgumentList_exactList hquery build_exactList⟩

/-- The check for the list of `f(a);` does not decide on the number of arguments
of `f(a)` and of `f(a /* */)`: it accepts the one and rejects the other. -/
theorem not_countsArguments_commentedList :
    ∃ fragment next,
      buildFuel sampleExternals 2 none exactList 1 false "call_expression" (.new "f(a);" 0 ∅) =
        .ok (fragment, next) ∧
      fragment.getLast? = some (captureItem "1") ∧
      next.captures[1]? = some (.callExpQuery 1 false) ∧
      CommentsInserted exactList.children commentedList.children ∧
      accepts sampleExternals "f(a)" (.callExpQuery 1 false) exactList = .ok true ∧
      accepts sampleExternals "f(a /* */)" (.callExpQuery 1 false) commentedList = .ok false ∧
      ¬CountsArguments sampleExternals "f(a /* */)" "f(a);" exactList (.callExpQuery 1 false)
        exactList ∧
      ¬CountsArguments sampleExternals "f(a /* */)" "f(a);" exactList (.callExpQuery 1 false)
        commentedList := by
  have hinserted : CommentsInserted exactList.children commentedList.children :=
    .keep rfl rfl (.keep rfl rfl (.comment rfl rfl (.keep rfl rfl .nil)))
  have hright : RightCount "f(a);" exactList exactList := by decide
  have hcommented : RightCount "f(a);" exactList commentedList := by decide
  refine ⟨_, _, build_exactList, rfl, rfl, hinserted, rfl, rfl, ?_, ?_⟩
  · intro hcounts
    have haccepts := (hcounts commentedList hinserted).mpr hright
    cases haccepts
  · intro hcounts
    have haccepts := (hcounts commentedList (commentsInserted_refl _)).mpr hcommented
    cases haccepts

end WeggliEnhance.ArgumentCount
