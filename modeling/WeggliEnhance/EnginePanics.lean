import WeggliEnhance.CaptureNumbering
import WeggliEnhance.MatchCaptures

/-!
# When a search panics

The engine indexes its captures and its lists of results by numbers that
tree-sitter reports, and it panics when a regular expression cannot be
evaluated. For queries made by the builder the numbers are always in range,
so the only thing that can go wrong is a regular expression, and then it is a
constraint that fails on the text of a node captured for its variable.
-/

namespace WeggliEnhance.EnginePanics

open SourceText SyntaxTree QueryText ThirdParty QueryTrees QueryResults QueryEngine Memoization
  PatternBuilder BuilderEmission CaptureNumbering QueryTreeConstruction EngineInvariant
  MatchCaptures FallibleState

section Rules

variable {κ ν ε α β τ : Type} {good : κ → ν → Prop} {allowed : ε → Prop}

/-- Sequencing keeps to the allowed failures. -/
theorem returns_bind_outcome {x : MemoM κ ν ε α} {f : α → MemoM κ ν ε β} {post : α → Prop}
    {post' : β → Prop} (hx : Returns good x fun result => Outcome allowed result post)
    (hf : ∀ a, post a → Returns good (f a) fun result => Outcome allowed result post') :
    Returns good (x >>= f) fun result => Outcome allowed result post' :=
  returns_bind hx hf fun _ he => he

/-- A loop keeps its invariant and the allowed failures. -/
theorem returns_foldlM_outcome {f : α → τ → MemoM κ ν ε α} {invariant : α → Prop} {list : List τ}
    (hstep : ∀ a, invariant a → ∀ y ∈ list,
      Returns good (f a y) fun result => Outcome allowed result invariant)
    {a : α} (ha : invariant a) :
    Returns good (list.foldlM f a) fun result => Outcome allowed result invariant := by
  induction list generalizing a with
  | nil => exact returns_pure ha
  | cons y list ih =>
    rw [List.foldlM_cons]
    refine returns_bind_outcome (hstep a ha y List.mem_cons_self) ?_
    intro b hb
    exact ih (fun c hc z hz => hstep c hc z (List.mem_cons_of_mem y hz)) hb

/-- A search keeps to the allowed failures of its tests. -/
theorem returns_anyM_outcome {f : τ → MemoM κ ν ε Bool} {list : List τ}
    (h : ∀ y ∈ list, Returns good (f y) fun result => Outcome allowed result fun _ => True) :
    Returns good (list.anyM f) fun result => Outcome allowed result fun _ => True := by
  induction list with
  | nil => exact returns_pure trivial
  | cons y list ih =>
    rw [List.anyM]
    refine returns_bind_outcome (h y List.mem_cons_self) ?_
    intro found _
    cases found with
    | true => exact returns_pure trivial
    | false => exact ih fun z hz => h z (List.mem_cons_of_mem y hz)

end Rules

/-- In one of the searches that a search leads to, a node is captured for a
variable that is constrained by an expression. -/
def Asked (externals : Externals) (source : String) (whole : QueryTree) (top : Node)
    (regex : Regex) (node : Node) : Prop :=
  ∃ tree root, LeadsTo externals source whole top tree root ∧
    ∃ queryMatch ∈ externals.cursorMatches tree.query root source, ∃ c ∈ queryMatch.captures,
      c.node = node ∧ ∃ name negative,
        tree.captures[c.index]? = some (.variable name (some (negative, regex)))

/-- The expression of a constraint cannot be evaluated on the text of a node
that was captured for its variable. -/
def Baffled (externals : Externals) (source : String) (whole : QueryTree) (top : Node) : Prop :=
  ∃ regex node, Asked externals source whole top regex node ∧
    externals.isMatch regex (slice source node.range) = none

/-- The only panic there is, with its reason. -/
def Excused (externals : Externals) (source : String) (whole : QueryTree) (top : Node)
    (panic : Panic) : Prop :=
  panic = .regex ∧ Baffled externals source whole top

/-- A run that panics with an excuse only. -/
abbrev Runs (externals : Externals) (source : String) (whole : QueryTree) (top : Node)
    (x : EngineM (List QueryResult)) : Prop :=
  Returns (fun _ _ => True) x fun result =>
    Outcome (Excused externals source whole top) result fun _ => True

variable {externals : Externals} {source : String} {whole tree : QueryTree} {top root : Node}
  {constraints : RegexMap} {run runSub : QueryTree → Node → EngineM (List QueryResult)}

/-- A check fails to answer only for a constraint. -/
theorem excused_of_accepts (hleads : LeadsTo externals source whole top tree root)
    {queryMatch : QueryMatch} (hmatch : queryMatch ∈ externals.cursorMatches tree.query root source)
    {c : QueryCapture} (hc : c ∈ queryMatch.captures) {capture : Capture}
    (hcapture : tree.captures[c.index]? = some capture) {panic : Panic}
    (h : accepts externals source capture c.node = .error panic) :
    Excused externals source whole top panic := by
  cases capture with
  | «variable» name constraint =>
    cases constraint with
    | none => cases h
    | some constraint =>
      obtain ⟨negative, regex⟩ := constraint
      simp only [accepts] at h
      cases hanswer : externals.isMatch regex (slice source c.node.range) with
      | none =>
        rw [hanswer] at h
        cases h
        exact ⟨rfl, regex, c.node, ⟨tree, root, hleads, queryMatch, hmatch, c, hc, rfl, name,
          negative, hcapture⟩, hanswer⟩
      | some found =>
        rw [hanswer] at h
        cases h
  | callExpQuery count minimum =>
    simp only [accepts] at h
    split_ifs at h
  | number value =>
    simp only [accepts] at h
    split at h <;> cases h
  | display => cases h
  | check text => cases h
  | subWildQuery sub => cases h
  | subMultiQuery sub => cases h

/-- Collecting the captures of a match panics with an excuse only. -/
theorem excused_of_collect (hleads : LeadsTo externals source whole top tree root)
    {queryMatch : QueryMatch} (hmatch : queryMatch ∈ externals.cursorMatches tree.query root source)
    {cs : List QueryCapture}
    (hcs : ∀ c ∈ cs, c.index < tree.captures.length ∧ c ∈ queryMatch.captures)
    (state : MatchState) :
    Outcome (Excused externals source whole top) (collect externals source tree state cs)
      fun _ => True := by
  induction cs generalizing state with
  | nil => exact trivial
  | cons c cs ih =>
    obtain ⟨⟨hindex, hc⟩, hrest⟩ := List.forall_mem_cons.mp hcs
    have hget := List.getElem?_eq_getElem hindex
    rw [collect, hget]
    dsimp only
    cases haccepts : accepts externals source tree.captures[c.index] c.node with
    | error panic => exact excused_of_accepts hleads hmatch hc hget haccepts
    | ok passed =>
      cases passed with
      | false => exact trivial
      | true => exact ih hrest _

/-- Reported numbers are in range for a well-formed query. -/
theorem reported_in_range (hreports : externals.ReportsCaptures)
    (hwell : WellFormed externals constraints tree) {queryMatch : QueryMatch}
    (hmatch : queryMatch ∈ externals.cursorMatches tree.query root source) :
    queryMatch.patternIndex < tree.query.patterns.length ∧
      ∀ c ∈ queryMatch.captures, c.index < tree.captures.length := by
  obtain ⟨pattern, hpattern, hperm, -⟩ := hreports _ _ _ _ hmatch
  refine ⟨(List.getElem?_eq_some_iff.mp hpattern).1, ?_⟩
  intro c hc
  have hindex : c.index ∈ pattern.captures := hperm.mem_iff.mp (List.mem_map_of_mem hc)
  exact (serves_of_wellFormed hwell (List.mem_of_getElem? hpattern)).lt c.index hindex

/-- Merging the results of sub-queries panics only when they do. -/
theorem runs_mergeSubqueries {subs : List (QueryTree × Node)}
    (hsubs : ∀ sub ∈ subs, Runs externals source whole top (runSub sub.1 sub.2))
    (results : List QueryResult) :
    Runs externals source whole top (mergeSubqueries source runSub subs results) := by
  refine returns_foldlM_outcome ?_ trivial
  intro results _ sub hsub
  split_ifs
  · exact returns_pure trivial
  · exact returns_bind_outcome (hsubs sub hsub) fun _ _ => returns_pure trivial

/-- Processing a match panics with an excuse only when its sub-queries do. -/
theorem runs_processMatch (hleads : LeadsTo externals source whole top tree root)
    {queryMatch : QueryMatch} (hmatch : queryMatch ∈ externals.cursorMatches tree.query root source)
    (hcaptures : ∀ c ∈ queryMatch.captures, c.index < tree.captures.length)
    (hsub : ∀ c ∈ queryMatch.captures, ∀ child, deferOf tree c = some child →
      Runs externals source whole top (runSub child.1 child.2)) :
    Runs externals source whole top (processMatch externals source runSub tree queryMatch) := by
  have hcollected : Outcome (Excused externals source whole top)
      (collect externals source tree .start queryMatch.captures) fun _ => True :=
    excused_of_collect hleads hmatch (fun c hc => ⟨hcaptures c hc, hc⟩) .start
  unfold processMatch
  cases hcollect : collect externals source tree .start queryMatch.captures with
  | error panic =>
    rw [hcollect] at hcollected
    exact returns_throw hcollected
  | ok found =>
    cases found with
    | none => exact returns_pure trivial
    | some state =>
      refine runs_mergeSubqueries ?_ _
      intro child hmem
      rw [(gathered_of_collect hcollect).subqueries] at hmem
      obtain ⟨c, hc, hdefer⟩ := List.mem_filterMap.mp hmem
      exact hsub c hc child hdefer

/-- The body panics with an excuse only when its sub-runs do. -/
theorem runs_matchBody (hreports : externals.ReportsCaptures)
    (hwell : WellFormed externals constraints tree)
    (hleads : LeadsTo externals source whole top tree root)
    (hsub : ∀ queryMatch ∈ externals.cursorMatches tree.query root source,
      ∀ c ∈ queryMatch.captures, ∀ child, deferOf tree c = some child →
        Runs externals source whole top (runSub child.1 child.2))
    (hrun : ∀ negative ∈ tree.negatives, Runs externals source whole top (run negative root)) :
    Runs externals source whole top (matchBody externals source runSub run tree root) := by
  have hpatterns : Returns (fun _ _ => True) (patternResults externals source runSub tree root)
      fun result => Outcome (Excused externals source whole top) result fun collected =>
        collected.length = tree.query.patterns.length := by
    refine returns_foldlM_outcome ?_ List.length_replicate
    intro collected hlength queryMatch hmatch
    obtain ⟨hindex, hcaptures⟩ := reported_in_range hreports hwell hmatch
    refine returns_bind_outcome
      (runs_processMatch hleads hmatch hcaptures (hsub queryMatch hmatch)) ?_
    intro results _
    rw [extendAt, if_pos (hlength ▸ hindex)]
    exact returns_pure ((List.length_modify _ _ _).trans hlength)
  refine returns_bind_outcome hpatterns ?_
  intro collected _
  induction mergePatterns source collected with
  | nil => exact returns_pure trivial
  | cons result results ih =>
    refine returns_bind_outcome (returns_anyM_outcome ?_) fun _ _ =>
      returns_bind_outcome ih fun _ _ => returns_pure trivial
    intro neg hneg
    exact returns_bind_outcome (hrun neg.qt (List.mem_map_of_mem hneg))
      fun _ _ => returns_pure trivial

/-- A search that the whole search leads to panics with an excuse only. The
induction is on the query. -/
theorem runs_matchInternal (hreports : externals.ReportsCaptures)
    (hwell : ∀ t ∈ whole.trees, WellFormed externals constraints t) (tree : QueryTree)
    {root : Node} (hleads : LeadsTo externals source whole top tree root) :
    Runs externals source whole top (matchInternal externals source tree root) := by
  induction tree using tree_induction generalizing root with
  | step tree ihsub ihneg =>
    rw [matchInternal, search_eq]
    refine runs_matchBody hreports (hwell tree (trees_of_leadsTo hleads)) hleads ?_ ?_
    · intro queryMatch hmatch c hc child hdefer
      exact returns_memoise (ihsub child.1 (child_of_deferOf hdefer).1
        (.sub hleads hmatch hc hdefer)) (fun _ _ => trivial) fun _ _ => trivial
    · intro negative hnegative
      exact ihneg negative hnegative (.negative hleads hnegative)

/-- A search with well-formed queries panics with an excuse only. -/
theorem excused_of_matches (hreports : externals.ReportsCaptures)
    (hwell : ∀ t ∈ tree.trees, WellFormed externals constraints t) {panic : Panic}
    (h : QueryTree.matches externals tree root source = .error panic) :
    Excused externals source tree root panic := by
  have hruns : Runs externals source tree root (matchInternal externals source tree root) :=
    runs_matchInternal hreports hwell tree .start
  obtain ⟨hrun, -, -⟩ := hruns [] fun entry hentry => by cases hentry
  unfold QueryTree.matches at h
  cases hfirst : (runFrom (matchInternal externals source tree root) []).1 with
  | ok results =>
    rw [hfirst] at h
    cases h
  | error other =>
    rw [hfirst] at h hrun
    cases h
    exact hrun

/-- A search with well-formed queries returns if the constraints answer
wherever they are asked. -/
theorem exists_results (hreports : externals.ReportsCaptures)
    (hwell : ∀ t ∈ tree.trees, WellFormed externals constraints t)
    (hregex : ∀ regex node, Asked externals source tree root regex node →
      (externals.isMatch regex (slice source node.range)).isSome = true) :
    ∃ results, QueryTree.matches externals tree root source = .ok results := by
  cases hmatches : QueryTree.matches externals tree root source with
  | ok results => exact ⟨results, rfl⟩
  | error panic =>
    obtain ⟨-, regex, node, hasked, hnone⟩ := excused_of_matches hreports hwell hmatches
    have hsome := hregex regex node hasked
    rw [hnone] at hsome
    cases hsome

/-- What is asked is a constraint, and it is asked on a node of the program. -/
theorem constrained_of_asked (hinside : externals.ReportsInside)
    (hwell : ∀ t ∈ tree.trees, WellFormed externals constraints t) {regex : Regex} {node : Node}
    (h : Asked externals source tree root regex node) :
    node ∈ root.nodes ∧ ∃ name negative, constraints.lookup name = some (negative, regex) := by
  obtain ⟨t, below, hleads, queryMatch, hmatch, c, hc, rfl, name, negative, hcapture⟩ := h
  refine ⟨nodes_trans (nodes_of_leadsTo hinside hleads) (hinside _ _ _ _ hmatch c hc), name,
    negative, ?_⟩
  exact ((hwell t (trees_of_leadsTo hleads)).constrained name _ (List.mem_of_getElem? hcapture)).symm

end WeggliEnhance.EnginePanics
