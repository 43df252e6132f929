import WeggliEnhance.EngineInvariant

/-!
# The captures of one match

The loop of `process_match` walks the captured nodes of a match. At every
moment its state is determined by the nodes visited so far: the recorded
entries and the sub-queries in order, and for every variable an entry that
one of its nodes left.
-/

namespace WeggliEnhance.MatchCaptures

open SourceText SyntaxTree ThirdParty QueryTrees QueryResults QueryEngine

/-- The entry recorded for a captured node, unless it is a block. -/
def recordOf (tree : QueryTree) (c : QueryCapture) : Option CaptureResult :=
  (tree.captures[c.index]?).bind fun capture =>
    if capture.isRecorded then some ⟨c.node.range, tree.id, c.index⟩ else none

/-- A capture that is recorded gets an entry. -/
theorem recordOf_of_isRecorded {tree : QueryTree} {c : QueryCapture} {capture : Capture}
    (hcapture : tree.captures[c.index]? = some capture) (h : capture.isRecorded = true) :
    recordOf tree c = some ⟨c.node.range, tree.id, c.index⟩ := by
  rw [recordOf, hcapture, Option.bind_some, if_pos h]

/-- The other captures get none. -/
theorem recordOf_of_not_isRecorded {tree : QueryTree} {c : QueryCapture} {capture : Capture}
    (hcapture : tree.captures[c.index]? = some capture) (h : ¬capture.isRecorded = true) :
    recordOf tree c = none := by
  rw [recordOf, hcapture, Option.bind_some, if_neg h]

theorem recordOf_of_no_capture {tree : QueryTree} {c : QueryCapture}
    (hcapture : tree.captures[c.index]? = none) : recordOf tree c = none := by
  rw [recordOf, hcapture, Option.bind_none]

/-- The sub-query to run for a captured node. -/
def deferOf (tree : QueryTree) (c : QueryCapture) : Option (QueryTree × Node) :=
  (tree.captures[c.index]?).bind fun capture => capture.tree?.map fun sub => (sub, c.node)

/-- A captured node stands for a variable. -/
def BindsAt (tree : QueryTree) (name : String) (c : QueryCapture) : Prop :=
  ∃ constraint, tree.captures[c.index]? = some (.variable name constraint)

/-- The state of the loop after some captured nodes. -/
structure Gathered (tree : QueryTree) (visited : List QueryCapture) (state : MatchState) : Prop where
  /-- The recorded entries. -/
  r : state.r = visited.filterMap (recordOf tree)
  /-- The sub-queries to run. -/
  subqueries : state.subqueries = visited.filterMap (deferOf tree)
  /-- The variables of the visited nodes are bound. -/
  vars : ∀ name, name ∈ state.vars ↔ ∃ c ∈ visited, BindsAt tree name c
  /-- A variable is bound to the entry of one of its nodes. -/
  values : ∀ name i, state.vars.lookup name = some i → ∃ c ∈ visited, BindsAt tree name c ∧
    state.r[i]? = some ⟨c.node.range, tree.id, c.index⟩

theorem gathered_start (tree : QueryTree) : Gathered tree [] .start where
  r := rfl
  subqueries := rfl
  vars name := by
    constructor
    · intro h
      exact absurd h Finmap.notMem_empty
    · rintro ⟨c, hc, -⟩
      cases hc
  values name i h := by
    have hempty : (∅ : VarMap).lookup name = some i := h
    rw [Finmap.lookup_empty] at hempty
    cases hempty

section Add

variable (state : MatchState) (queryId : ℕ) (capture : Capture) (c : QueryCapture)

theorem add_r :
    (state.add queryId capture c).r =
      state.r ++ if capture.isRecorded then [⟨c.node.range, queryId, c.index⟩] else [] := by
  cases capture <;> simp [MatchState.add, MatchState.push, MatchState.pushVariable,
    MatchState.defer, Capture.isRecorded]

theorem subqueries_add :
    (state.add queryId capture c).subqueries =
      state.subqueries ++ (capture.tree?.map fun sub => (sub, c.node)).toList := by
  cases capture <;> simp [MatchState.add, MatchState.push, MatchState.pushVariable,
    MatchState.defer, Capture.tree?]

theorem vars_add (h : capture.name? = none) : (state.add queryId capture c).vars = state.vars := by
  cases capture with
  | «variable» name constraint => cases h
  | display => rfl
  | check text => rfl
  | number value => rfl
  | callExpQuery count minimum => rfl
  | subWildQuery tree => rfl
  | subMultiQuery tree => rfl

end Add

section Step

variable {tree : QueryTree} {visited : List QueryCapture} {state : MatchState} {c : QueryCapture}
  {capture : Capture}

/-- The variables of the visited nodes after one more node. -/
theorem exists_bindsAt_append {name : String} :
    (∃ d ∈ visited ++ [c], BindsAt tree name d) ↔
      (∃ d ∈ visited, BindsAt tree name d) ∨ BindsAt tree name c := by
  simp only [List.mem_append, List.mem_singleton, or_and_right, exists_or, exists_eq_left]

theorem bindsAt_iff (hcapture : tree.captures[c.index]? = some capture) {name : String} :
    BindsAt tree name c ↔ capture.name? = some name := by
  unfold BindsAt
  rw [hcapture]
  cases capture <;> simp [Capture.name?]

theorem gathered_vars (h : Gathered tree visited state)
    (hcapture : tree.captures[c.index]? = some capture) (name : String) :
    name ∈ (state.add tree.id capture c).vars ↔ ∃ d ∈ visited ++ [c], BindsAt tree name d := by
  rw [exists_bindsAt_append, ← h.vars, bindsAt_iff hcapture]
  cases hname : capture.name? with
  | none =>
    rw [vars_add state tree.id capture c hname]
    simp
  | some bound =>
    cases capture with
    | «variable» v constraint =>
      cases hname
      rw [MatchState.add, MatchState.pushVariable, Finmap.mem_insert, or_comm, Option.some.injEq,
        eq_comm]
    | _ => cases hname

theorem gathered_values (h : Gathered tree visited state)
    (hcapture : tree.captures[c.index]? = some capture) {name : String} {i : ℕ}
    (hlookup : (state.add tree.id capture c).vars.lookup name = some i) :
    ∃ d ∈ visited ++ [c], BindsAt tree name d ∧
      (state.add tree.id capture c).r[i]? = some ⟨d.node.range, tree.id, d.index⟩ := by
  have hkept : state.vars.lookup name = some i →
      ∃ d ∈ visited ++ [c], BindsAt tree name d ∧
        (state.add tree.id capture c).r[i]? = some ⟨d.node.range, tree.id, d.index⟩ := by
    intro hold
    obtain ⟨d, hd, hbinds, hget⟩ := h.values name i hold
    obtain ⟨hlt, -⟩ := List.getElem?_eq_some_iff.mp hget
    refine ⟨d, List.mem_append_left _ hd, hbinds, ?_⟩
    rw [add_r, List.getElem?_append_left hlt, hget]
  cases hname : capture.name? with
  | none =>
    rw [vars_add state tree.id capture c hname] at hlookup
    exact hkept hlookup
  | some bound =>
    cases capture with
    | «variable» v constraint =>
      rw [MatchState.add, MatchState.pushVariable] at hlookup
      by_cases hv : name = v
      · subst hv
        rw [Finmap.lookup_insert] at hlookup
        cases hlookup
        refine ⟨c, List.mem_append_right _ (List.mem_singleton_self c), ⟨constraint, hcapture⟩, ?_⟩
        exact List.getElem?_concat_length
      · rw [Finmap.lookup_insert_of_ne _ hv] at hlookup
        exact hkept hlookup
    | _ => cases hname

/-- Every captured node extends the state as described. -/
theorem gathered_add (h : Gathered tree visited state)
    (hcapture : tree.captures[c.index]? = some capture) :
    Gathered tree (visited ++ [c]) (state.add tree.id capture c) where
  r := by
    rw [add_r, List.filterMap_append, h.r]
    by_cases hrecorded : capture.isRecorded = true
    · have hrecord := recordOf_of_isRecorded hcapture hrecorded
      rw [if_pos hrecorded, List.filterMap_cons_some hrecord, List.filterMap_nil]
    · have hrecord := recordOf_of_not_isRecorded hcapture hrecorded
      rw [if_neg hrecorded, List.filterMap_cons_none hrecord, List.filterMap_nil]
  subqueries := by
    have hdefer : deferOf tree c = capture.tree?.map fun sub => (sub, c.node) := by
      rw [deferOf, hcapture, Option.bind_some]
    rw [subqueries_add, List.filterMap_append, h.subqueries]
    cases htree : capture.tree? with
    | none =>
      rw [htree] at hdefer
      rw [List.filterMap_cons_none hdefer]
      rfl
    | some sub =>
      rw [htree] at hdefer
      rw [List.filterMap_cons_some hdefer]
      rfl
  vars := gathered_vars h hcapture
  values _ _ := gathered_values h hcapture

end Step

/-- The state after all captured nodes of a match. -/
theorem gathered_collect {externals : Externals} {source : String} {tree : QueryTree}
    {visited cs : List QueryCapture} {state state' : MatchState}
    (h : Gathered tree visited state)
    (hcollect : collect externals source tree state cs = .ok (some state')) :
    Gathered tree (visited ++ cs) state' := by
  induction cs generalizing visited state with
  | nil =>
    cases hcollect
    rwa [List.append_nil]
  | cons c cs ih =>
    rw [collect] at hcollect
    split at hcollect
    · cases hcollect
    · rename_i capture hcapture
      split at hcollect
      · cases hcollect
      · cases hcollect
      · have hnext := ih (gathered_add h hcapture) hcollect
        rwa [List.append_assoc] at hnext

/-- The state of a match that passed its checks. -/
theorem gathered_of_collect {externals : Externals} {source : String} {tree : QueryTree}
    {cs : List QueryCapture} {state : MatchState}
    (h : collect externals source tree .start cs = .ok (some state)) : Gathered tree cs state := by
  have hgathered := gathered_collect (gathered_start tree) h
  rwa [List.nil_append] at hgathered

/-- All captured nodes of a match that is processed pass their checks. -/
theorem accepts_of_collect {tree : QueryTree} {state state' : MatchState} {cs : List QueryCapture}
    (h : collect externals source tree state cs = .ok (some state')) {c : QueryCapture}
    (hc : c ∈ cs) {capture : Capture} (hcapture : tree.captures[c.index]? = some capture) :
    accepts externals source capture c.node = .ok true := by
  induction cs generalizing state with
  | nil => cases hc
  | cons first cs ih =>
    rw [collect] at h
    split at h
    · cases h
    · rename_i found hfound
      split at h
      · cases h
      · cases h
      · rename_i haccepts
        rcases List.mem_cons.mp hc with rfl | hrest
        · rw [hfound] at hcapture
          cases hcapture
          exact haccepts
        · exact ih h hrest

/-- Recorded ranges are ranges of captured nodes. -/
theorem exists_of_mem_r {tree : QueryTree} {cs : List QueryCapture} {state : MatchState}
    (h : Gathered tree cs state) {recorded : CaptureResult} (hrecorded : recorded ∈ state.r) :
    ∃ c ∈ cs, recorded.range = c.node.range := by
  rw [h.r] at hrecorded
  obtain ⟨c, hc, hrecord⟩ := List.mem_filterMap.mp hrecorded
  obtain ⟨capture, -, hentry⟩ := Option.bind_eq_some_iff.mp hrecord
  split_ifs at hentry
  cases hentry
  exact ⟨c, hc, rfl⟩

section Searches

variable {externals : Externals} {source : String} {whole tree : QueryTree} {top root : Node}

/-- The searches that the search for a query below a node can lead to: those
for its sub-queries below the nodes captured for them, and those for its
negative queries below the same node. -/
inductive LeadsTo (externals : Externals) (source : String) (whole : QueryTree) (top : Node) :
    QueryTree → Node → Prop
  /-- The search itself. -/
  | start : LeadsTo externals source whole top whole top
  /-- A search for a sub-query. -/
  | sub {tree : QueryTree} {root : Node} {queryMatch : QueryMatch} {c : QueryCapture}
    {child : QueryTree × Node} : LeadsTo externals source whole top tree root →
    queryMatch ∈ externals.cursorMatches tree.query root source → c ∈ queryMatch.captures →
    deferOf tree c = some child → LeadsTo externals source whole top child.1 child.2
  /-- A search for a negative query. -/
  | negative {tree negative : QueryTree} {root : Node} :
    LeadsTo externals source whole top tree root → negative ∈ tree.negatives →
    LeadsTo externals source whole top negative root

/-- A deferred query is a sub-query of the captured node. -/
theorem child_of_deferOf {c : QueryCapture} {child : QueryTree × Node}
    (h : deferOf tree c = some child) : child.1 ∈ tree.children ∧ child.2 = c.node := by
  obtain ⟨capture, hcapture, hmap⟩ := Option.bind_eq_some_iff.mp h
  obtain ⟨sub, hsub, rfl⟩ := Option.map_eq_some_iff.mp hmap
  exact ⟨List.mem_filterMap.mpr ⟨capture, List.mem_of_getElem? hcapture, hsub⟩, rfl⟩

/-- All searches are for queries of the tree. -/
theorem trees_of_leadsTo (h : LeadsTo externals source whole top tree root) :
    tree ∈ whole.trees := by
  induction h with
  | start => exact mem_trees_self whole
  | sub _ _ _ hdefer ih =>
    have hchild := child_trees (List.mem_append_left _ (child_of_deferOf hdefer).1)
    exact (trees_subset ih).1 (hchild (mem_trees_self _))
  | negative _ hnegative ih =>
    have hchild := child_trees (List.mem_append_right _ hnegative)
    exact (trees_subset ih).1 (hchild (mem_trees_self _))

/-- All searches are below the node of the first one. -/
theorem nodes_of_leadsTo (hinside : externals.ReportsInside)
    (h : LeadsTo externals source whole top tree root) : root ∈ top.nodes := by
  induction h with
  | start => exact mem_nodes_self top
  | sub _ hmatch hc hdefer ih =>
    rw [(child_of_deferOf hdefer).2]
    exact nodes_trans ih (hinside _ _ _ _ hmatch _ hc)
  | negative _ _ ih => exact ih

end Searches

end WeggliEnhance.MatchCaptures
