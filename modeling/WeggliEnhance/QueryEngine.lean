import Mathlib.Data.List.Destutter
import WeggliEnhance.Memoization
import WeggliEnhance.QueryResults
import WeggliEnhance.QueryTrees

/-!
# The matching engine

`query.rs`: run the tree-sitter query of a tree, process every match, merge
the results of all patterns in order and drop the results that a negative
query matches. The functions are written for any monad with panics, and take
the way sub-queries are run as a parameter, so that one text gives both the
engine with its cache and the same algorithm without one.
-/

namespace WeggliEnhance.QueryEngine

open SourceText SyntaxTree ThirdParty QueryTrees QueryResults Memoization

/-- The ways the engine can panic. -/
inductive Panic where
  /-- `self.captures[c.index]` is out of bounds. -/
  | captureIndex
  /-- `pattern_results[m.pattern_index]` is out of bounds. -/
  | patternIndex
  /-- The regular expression engine reported an error. -/
  | regex
  deriving DecidableEq

/-- Cache entries are identified by the query id and the queried node. -/
structure CacheKey where
  /-- Id of the sub-query. -/
  queryId : ℕ
  /-- Id of the node it ran on. -/
  nodeId : ℕ
  deriving DecidableEq

/-- Engine computations with the mutable result cache. -/
abbrev EngineM := MemoM CacheKey (List QueryResult) Panic

/-- The local state of `process_match` while it walks the captures. -/
structure MatchState where
  /-- Recorded captures. -/
  r : List CaptureResult
  /-- Variables bound so far. -/
  vars : VarMap
  /-- Sub-queries to run, with the nodes to run them on. -/
  subqueries : List (QueryTree × Node)
  /-- Variables are bound to the capture recorded just before. -/
  vars_lt : ∀ {v i}, vars.lookup v = some i → i < r.length

/-- The state before the first capture. -/
def MatchState.start : MatchState where
  r := []
  vars := ∅
  subqueries := []
  vars_lt := @nothing_recorded

/-- Record a capture. -/
def MatchState.push (state : MatchState) (entry : CaptureResult) : MatchState where
  r := state.r ++ [entry]
  vars := state.vars
  subqueries := state.subqueries
  vars_lt h := by
    have hlt := state.vars_lt h
    rw [List.length_append]
    omega

/-- Record a capture and bind a variable to it, replacing an earlier binding. -/
def MatchState.pushVariable (state : MatchState) (entry : CaptureResult) (name : String) :
    MatchState where
  r := state.r ++ [entry]
  vars := state.vars.insert name state.r.length
  subqueries := state.subqueries
  vars_lt {v i} h := by
    rw [List.length_append, List.length_singleton]
    by_cases hv : v = name
    · rw [hv, Finmap.lookup_insert] at h
      cases h
      omega
    · rw [Finmap.lookup_insert_of_ne _ hv] at h
      have hlt := state.vars_lt h
      omega

/-- Remember a sub-query. -/
def MatchState.defer (state : MatchState) (tree : QueryTree) (node : Node) : MatchState :=
  { state with subqueries := state.subqueries ++ [(tree, node)] }

/-- What one captured node adds to the state. `SubMultiQuery` captures are
not recorded. -/
def MatchState.add (state : MatchState) (queryId : ℕ) (capture : Capture) (c : QueryCapture) :
    MatchState :=
  let entry : CaptureResult := ⟨c.node.range, queryId, c.index⟩
  match capture with
  | .variable name _ => state.pushVariable entry name
  | .subWildQuery tree => (state.push entry).defer tree c.node
  | .subMultiQuery tree => state.defer tree c.node
  | _ => state.push entry

/-- The result for a match before its sub-queries are merged in. -/
def MatchState.result (state : MatchState) : QueryResult where
  captures := state.r
  vars := state.vars
  function := (state.r.head?.map CaptureResult.range).getD ⟨0, 0⟩
  vars_lt := state.vars_lt

/-- The checks a captured node has to pass: regular expressions, argument
counts and integer values. -/
def accepts (externals : Externals) (source : String) (capture : Capture) (node : Node) :
    Except Panic Bool :=
  match capture with
  | .variable _ (some (negative, regex)) =>
    match externals.isMatch regex (slice source node.range) with
    | some m => .ok !((m && negative) || (!m && !negative))
    | none => .error .regex
  | .callExpQuery count minimum =>
    if minimum then .ok (count ≤ node.namedChildCount) else .ok (node.namedChildCount == count)
  | .number value =>
    match parseNumberLiteral (slice source node.range) with
    | some y => .ok (value == y)
    | none => .ok false
  | _ => .ok true

/-- The loop of `process_match` over the captures of a match; no state means
that a check failed and the match has no results. -/
def collect (externals : Externals) (source : String) (tree : QueryTree) :
    MatchState → List QueryCapture → Except Panic (Option MatchState)
  | state, [] => .ok (some state)
  | state, c :: cs =>
    match tree.captures[c.index]? with
    | none => .error .captureIndex
    | some capture =>
      match accepts externals source capture c.node with
      | .error panic => .error panic
      | .ok false => .ok none
      | .ok true => collect externals source tree (state.add tree.id capture c) cs

/-- `QueryTree::merge_query_results`. -/
def mergeQueryResults (results subResults : List QueryResult) (source : String)
    (enforceOrdering : Bool) : List QueryResult :=
  results.flatMap fun r => subResults.filterMap fun s => r.merge s source enforceOrdering

/-- The loop over the results of all patterns: start with the first list and
stop when nothing is left. -/
def mergeLoop (source : String) : List QueryResult → List (List QueryResult) → List QueryResult
  | merged, [] => merged
  | merged, pr :: rest =>
    if merged.isEmpty then mergeLoop source (merged ++ pr) rest
    else
      let next := mergeQueryResults merged pr source true
      if next.isEmpty then next else mergeLoop source next rest

/-- The positive phase of `match_internal`: no results when some pattern has
none, otherwise the ordered merge of all patterns. -/
def mergePatterns (source : String) (patternResults : List (List QueryResult)) :
    List QueryResult :=
  if patternResults.any List.isEmpty then [] else mergeLoop source [] patternResults

/-- The cast `index as u32`. -/
def asU32 (index : ℤ) : ℕ := (index % 2 ^ 32).toNat

/-- Whether a match of a negative query rules out a result: it has to be
consistent with it, and lie between the previous and the next capture. -/
def negationApplies (queryId : ℕ) (previousCaptureIndex : ℤ) (source : String)
    (result n : QueryResult) : Bool :=
  if (n.merge result source false).isNone then false
  else if (result.getCaptureResult queryId (asU32 previousCaptureIndex)).any
      fun c => n.startOffset < c.range.stop then false
  else if (result.getCaptureResult queryId (asU32 (previousCaptureIndex + 1))).any
      fun c => n.startOffset > c.range.start then false
  else true

section Engine

variable {m : Type → Type} [Monad m] [MonadExceptOf Panic m]

/-- Raise the panic of a pure step. -/
def liftPanic {α : Type} : Except Panic α → m α
  | .ok a => pure a
  | .error panic => throwThe Panic panic

/-- Results for all patterns, one list each, extended at one position. -/
def extendAt (patternResults : List (List QueryResult)) (i : ℕ) (results : List QueryResult) :
    Except Panic (List (List QueryResult)) :=
  if i < patternResults.length then .ok (patternResults.modify i (· ++ results))
  else .error .patternIndex

variable (externals : Externals) (source : String)

/-- The fold of `process_match` over the sub-queries of a match, which is
skipped once no result is left. -/
def mergeSubqueries (runSub : QueryTree → Node → m (List QueryResult))
    (subqueries : List (QueryTree × Node)) (results : List QueryResult) : m (List QueryResult) :=
  subqueries.foldlM (fun results sub => do
    if results.isEmpty then pure results
    else
      let subResults ← runSub sub.1 sub.2
      pure (mergeQueryResults results subResults source false)) results

/-- `QueryTree::process_match`, with the (cached) way to run a sub-query. -/
def processMatch (runSub : QueryTree → Node → m (List QueryResult)) (tree : QueryTree)
    (queryMatch : QueryMatch) : m (List QueryResult) :=
  match collect externals source tree .start queryMatch.captures with
  | .error panic => throwThe Panic panic
  | .ok none => pure []
  | .ok (some state) => mergeSubqueries source runSub state.subqueries [state.result]

/-- The negation filter of `match_internal`. -/
def filterNegations (run : QueryTree → Node → m (List QueryResult)) (tree : QueryTree)
    (root : Node) : List QueryResult → m (List QueryResult)
  | [] => pure []
  | result :: results => do
    let negativeQueryMatched ← tree.negations.anyM fun neg => do
      let negativeResults ← run neg.qt root
      pure (negativeResults.any (negationApplies tree.id neg.previousCaptureIndex source result))
    let kept ← filterNegations run tree root results
    pure (if negativeQueryMatched then kept else result :: kept)

/-- The results of every pattern of the query on a node. -/
def patternResults (runSub : QueryTree → Node → m (List QueryResult)) (tree : QueryTree)
    (root : Node) : m (List (List QueryResult)) :=
  (externals.cursorMatches tree.query root source).foldlM (fun collected queryMatch => do
    let results ← processMatch externals source runSub tree queryMatch
    liftPanic (extendAt collected queryMatch.patternIndex results))
      (List.replicate tree.query.patterns.length [])

/-- The body of `QueryTree::match_internal`. -/
def matchBody (runSub run : QueryTree → Node → m (List QueryResult)) (tree : QueryTree)
    (root : Node) : m (List QueryResult) := do
  let collected ← patternResults externals source runSub tree root
  filterNegations source run tree root (mergePatterns source collected)

/-- `match_internal` with a bound on the nesting of queries; `memo` wraps each
run of a sub-query. -/
def matchFuel (memo : CacheKey → m (List QueryResult) → m (List QueryResult)) :
    ℕ → QueryTree → Node → m (List QueryResult)
  | 0 => fun _ _ => pure []
  | fuel + 1 =>
    matchBody externals source
      (fun tree node => memo ⟨tree.id, node.id⟩ (matchFuel memo fuel tree node))
      (matchFuel memo fuel)

/-- `match_internal` at the depth of its tree, which always suffices. -/
def search (memo : CacheKey → m (List QueryResult) → m (List QueryResult)) (tree : QueryTree)
    (root : Node) : m (List QueryResult) :=
  matchFuel externals source memo tree.depth tree root

end Engine

/-- `QueryTree::match_internal` with its cache. -/
def matchInternal (externals : Externals) (source : String) (tree : QueryTree) (root : Node) :
    EngineM (List QueryResult) :=
  search externals source memoise tree root

/-- The algorithm of `match_internal` without any cache. -/
def matchUncached (externals : Externals) (source : String) (tree : QueryTree) (root : Node) :
    Except Panic (List QueryResult) :=
  search externals source (fun _ x => x) tree root

/-- The loop `results.dedup()`: equal neighbours are reported once. -/
def dedup (results : List QueryResult) : List QueryResult := results.destutter (· ≠ ·)

/-- `QueryTree::matches`: run with an empty cache. -/
def QueryTree.matches (externals : Externals) (tree : QueryTree) (root : Node) (source : String) :
    Except Panic (List QueryResult) :=
  (runFrom (matchInternal externals source tree root) []).1.map dedup

/-- A node captured by a match of the tree's own query below a root. -/
def Captured (externals : Externals) (source : String) (tree : QueryTree) (root node : Node) :
    Prop :=
  ∃ queryMatch ∈ externals.cursorMatches tree.query root source,
    ∃ c ∈ queryMatch.captures, c.node = node

theorem add_subqueries {state : MatchState} {queryId : ℕ} {capture : Capture} {c : QueryCapture}
    {sub : QueryTree × Node} (h : sub ∈ (state.add queryId capture c).subqueries) :
    sub ∈ state.subqueries ∨ capture.tree? = some sub.1 ∧ c.node = sub.2 := by
  cases capture with
  | subWildQuery tree =>
    rcases List.mem_append.mp h with hold | hnew
    · exact .inl hold
    · cases List.mem_singleton.mp hnew
      exact .inr ⟨rfl, rfl⟩
  | subMultiQuery tree =>
    rcases List.mem_append.mp h with hold | hnew
    · exact .inl hold
    · cases List.mem_singleton.mp hnew
      exact .inr ⟨rfl, rfl⟩
  | display => exact .inl h
  | «variable» name constraint => exact .inl h
  | check text => exact .inl h
  | number value => exact .inl h
  | callExpQuery count minimum => exact .inl h

/-- The sub-queries of a match are children of the tree on captured nodes. -/
theorem collect_subqueries {externals : Externals} {source : String} {tree : QueryTree}
    {state state' : MatchState} {cs : List QueryCapture}
    (h : collect externals source tree state cs = .ok (some state')) :
    ∀ sub ∈ state'.subqueries, sub ∈ state.subqueries ∨
      sub.1 ∈ tree.children ∧ ∃ c ∈ cs, c.node = sub.2 := by
  induction cs generalizing state with
  | nil =>
    cases h
    exact fun sub hsub => .inl hsub
  | cons c cs ih =>
    intro sub hsub
    rw [collect] at h
    split at h
    · cases h
    · rename_i capture hcapture
      split at h
      · cases h
      · cases h
      · rcases ih h sub hsub with hadd | ⟨hchild, d, hd, hnode⟩
        · rcases add_subqueries hadd with hold | ⟨htree, hnode⟩
          · exact .inl hold
          · have hchild : sub.1 ∈ tree.children :=
              List.mem_filterMap.mpr ⟨capture, List.mem_of_getElem? hcapture, htree⟩
            exact .inr ⟨hchild, c, List.mem_cons_self, hnode⟩
        · exact .inr ⟨hchild, d, List.mem_cons_of_mem c hd, hnode⟩

section Relation

variable {m n : Type → Type} [Monad m] [MonadExceptOf Panic m] [Monad n] [MonadExceptOf Panic n]
variable (R : MonadRelation Panic m n) {externals : Externals} {source : String}
variable {runSub run : QueryTree → Node → m (List QueryResult)}
variable {runSub' run' : QueryTree → Node → n (List QueryResult)}

theorem rel_liftPanic {α : Type} (x : Except Panic α) :
    R.rel (liftPanic x : m α) (liftPanic x : n α) := by
  cases x with
  | ok a => exact R.pure a
  | error panic => exact R.throw panic

theorem rel_mergeSubqueries {subqueries : List (QueryTree × Node)}
    (hsub : ∀ sub ∈ subqueries, R.rel (runSub sub.1 sub.2) (runSub' sub.1 sub.2))
    (results : List QueryResult) :
    R.rel (mergeSubqueries source runSub subqueries results)
      (mergeSubqueries source runSub' subqueries results) := by
  refine rel_foldlM R ?_ results
  intro sub hmem results
  split_ifs
  · exact R.pure results
  · exact R.bind (hsub sub hmem) fun _ => R.pure _

theorem rel_processMatch {tree : QueryTree} {queryMatch : QueryMatch}
    (hsub : ∀ child ∈ tree.children, ∀ c ∈ queryMatch.captures,
      R.rel (runSub child c.node) (runSub' child c.node)) :
    R.rel (processMatch externals source runSub tree queryMatch)
      (processMatch externals source runSub' tree queryMatch) := by
  unfold processMatch
  cases hcollect : collect externals source tree .start queryMatch.captures with
  | error panic => exact R.throw panic
  | ok found =>
    cases found with
    | none => exact R.pure []
    | some state =>
      refine rel_mergeSubqueries R ?_ _
      intro sub hmem
      rcases collect_subqueries hcollect sub hmem with hstart | ⟨hchild, c, hc, hnode⟩
      · cases hstart
      · rw [← hnode]
        exact hsub sub.1 hchild c hc

theorem rel_patternResults {tree : QueryTree} {root : Node}
    (hsub : ∀ child ∈ tree.children, ∀ node, Captured externals source tree root node →
      R.rel (runSub child node) (runSub' child node)) :
    R.rel (patternResults externals source runSub tree root)
      (patternResults externals source runSub' tree root) := by
  refine rel_foldlM R ?_ _
  intro queryMatch hmatch collected
  refine R.bind (rel_processMatch R ?_) fun results => rel_liftPanic R _
  intro child hchild c hc
  exact hsub child hchild c.node ⟨queryMatch, hmatch, c, hc, rfl⟩

theorem rel_filterNegations {tree : QueryTree} {root : Node}
    (hrun : ∀ negative ∈ tree.negatives, R.rel (run negative root) (run' negative root))
    (results : List QueryResult) :
    R.rel (filterNegations source run tree root results)
      (filterNegations source run' tree root results) := by
  induction results with
  | nil => exact R.pure []
  | cons result results ih =>
    refine R.bind (rel_anyM R ?_) fun matched => R.bind ih fun kept => R.pure _
    intro neg hneg
    exact R.bind (hrun neg.qt (List.mem_map_of_mem hneg)) fun _ => R.pure _

/-- Running the body with related sub-runs gives related results. The
sub-queries run on captured nodes only, the negations on the root. -/
theorem rel_matchBody {tree : QueryTree} {root : Node}
    (hsub : ∀ child ∈ tree.children, ∀ node, Captured externals source tree root node →
      R.rel (runSub child node) (runSub' child node))
    (hrun : ∀ negative ∈ tree.negatives, R.rel (run negative root) (run' negative root)) :
    R.rel (matchBody externals source runSub run tree root)
      (matchBody externals source runSub' run' tree root) :=
  R.bind (rel_patternResults R hsub) fun _ => rel_filterNegations R hrun _

end Relation

section Fuel

variable {m : Type → Type} [Monad m] [MonadExceptOf Panic m] {externals : Externals}
  {source : String} {memo : CacheKey → m (List QueryResult) → m (List QueryResult)}

/-- All bounds that reach the depth of the tree give the same run. -/
theorem matchFuel_congr {fuel fuel' : ℕ} {tree : QueryTree} (h : tree.depth ≤ fuel)
    (h' : tree.depth ≤ fuel') :
    matchFuel externals source memo fuel tree = matchFuel externals source memo fuel' tree := by
  have hpos := depth_pos tree
  induction fuel generalizing tree fuel' with
  | zero => omega
  | succ fuel ih =>
    cases fuel' with
    | zero => omega
    | succ fuel' =>
      have hchild : ∀ child ∈ tree.children ++ tree.negatives,
          matchFuel externals source memo fuel child =
            matchFuel externals source memo fuel' child := by
        intro child hmem
        have hlt := depth_lt_of_mem hmem
        exact ih (by omega) (by omega) (depth_pos child)
      funext root
      refine rel_matchBody (eqRelation Panic m) ?_ ?_
      · intro child hmem node _
        rw [hchild child (List.mem_append_left _ hmem)]
        rfl
      · intro negative hmem
        rw [hchild negative (List.mem_append_right _ hmem)]
        rfl

/-- The recursion of the source: `match_internal` is its body applied to itself. -/
theorem search_eq (tree : QueryTree) (root : Node) :
    search externals source memo tree root =
      matchBody externals source
        (fun tree node => memo ⟨tree.id, node.id⟩ (search externals source memo tree node))
        (search externals source memo) tree root := by
  obtain ⟨depth, hdepth⟩ := Nat.exists_eq_succ_of_ne_zero (depth_pos tree).ne'
  have hchild : ∀ child ∈ tree.children ++ tree.negatives,
      matchFuel externals source memo depth child = search externals source memo child := by
    intro child hmem
    have hlt := depth_lt_of_mem hmem
    exact matchFuel_congr (by omega) le_rfl
  rw [search, hdepth]
  refine rel_matchBody (eqRelation Panic m) ?_ ?_
  · intro child hmem node _
    rw [hchild child (List.mem_append_left _ hmem)]
    rfl
  · intro negative hmem
    rw [hchild negative (List.mem_append_right _ hmem)]
    rfl

end Fuel

end WeggliEnhance.QueryEngine
