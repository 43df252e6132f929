import WeggliEnhance.SearchPatterns

/-!
# The search for a syntax error

`validate_query` looks for the error it reports with a cursor that moves down
into a node that holds an error and sideways past a node that holds none, but
never back up. The loop ends after at most one round for each node. Where the
flags of tree-sitter are consistent, it never runs out of siblings before it
has found an error, and the error it finds is the first one in pre-order.
-/

namespace WeggliEnhance.SyntaxErrors

open SourceText SyntaxTree ThirdParty PatternBuilder SearchPatterns

/-- A `TreeCursor` that never moves up: a node and its later siblings. -/
structure Cursor where
  /-- `cursor.node()`. -/
  node : Node
  /-- The siblings that the cursor can still move to. -/
  siblings : List Node

/-- `root.walk()`: the cursor cannot leave the tree it starts with. -/
def walk (root : Node) : Cursor := ⟨root, []⟩

/-- `cursor.goto_first_child()`, nothing where it returns false. -/
def Cursor.gotoFirstChild (cursor : Cursor) : Option Cursor :=
  match cursor.node.children with
  | [] => none
  | child :: rest => some ⟨child, rest⟩

/-- `cursor.goto_next_sibling()`, nothing where it returns false. -/
def Cursor.gotoNextSibling (cursor : Cursor) : Option Cursor :=
  match cursor.siblings with
  | [] => none
  | sibling :: rest => some ⟨sibling, rest⟩

/-- An ERROR or MISSING node. -/
def isBroken (flags : ErrorFlags) (node : Node) : Bool := flags.isError node || flags.isMissing node

/-- What one round of the loop does. -/
inductive Round where
  /-- The loop ends with the first error. -/
  | found (node : Node)
  /-- The loop ends without an error. -/
  | stuck
  /-- The loop goes on with the moved cursor. -/
  | moved (cursor : Cursor)

/-- The round that goes on with a cursor that may have moved. -/
def Round.ofMove : Option Cursor → Round
  | some cursor => .moved cursor
  | none => .stuck

/-- The body of the loop of `validate_query`. -/
def searchRound (flags : ErrorFlags) (cursor : Cursor) : Round :=
  if flags.hasError cursor.node then
    if isBroken flags cursor.node then .found cursor.node else .ofMove cursor.gotoFirstChild
  else .ofMove cursor.gotoNextSibling

/-- The loop of `validate_query`: the value of `first_error` behind the loop,
or nothing while the loop is still running after the given rounds. -/
def searchLoop (flags : ErrorFlags) : ℕ → Cursor → Option (Option Node)
  | 0, _ => none
  | rounds + 1, cursor =>
    match searchRound flags cursor with
    | .found node => some (some node)
    | .stuck => some none
    | .moved next => searchLoop flags rounds next

/-- A node holds an error exactly if it or some node below it is an ERROR or
MISSING node. -/
def Consistent (flags : ErrorFlags) (root : Node) : Prop :=
  ∀ node ∈ root.nodes, flags.hasError node = true ↔
    ∃ inner ∈ node.nodes, flags.isError inner = true ∨ flags.isMissing inner = true

section Loop

variable {flags : ErrorFlags}

theorem length_nodes (node : Node) :
    node.nodes.length = (nodesOf node.children).length + 1 := by
  rw [nodes_eq, nodesOf_eq, List.length_cons]

/-- The search at a node that holds an error. -/
theorem firstError_unfold (node : Node) :
    firstError flags node =
      if isBroken flags node then some node else firstErrorAmong flags node.children := by
  cases node
  rw [firstError]
  rfl

/-- The loop ends after at most one round for every node it can reach, with
the node that the search by recursion finds. -/
theorem searchLoop_eq {rounds : ℕ} {cursor : Cursor}
    (h : (nodesOf (cursor.node :: cursor.siblings)).length ≤ rounds) :
    searchLoop flags rounds cursor =
      some (firstErrorAmong flags (cursor.node :: cursor.siblings)) := by
  induction rounds generalizing cursor with
  | zero =>
    rw [nodesOf, List.length_append, length_nodes] at h
    omega
  | succ rounds ih =>
    rw [nodesOf, List.length_append, length_nodes] at h
    rw [searchLoop, searchRound, firstErrorAmong, firstError_unfold]
    split_ifs
    · rfl
    · rw [Cursor.gotoFirstChild]
      cases hchildren : cursor.node.children with
      | nil => rfl
      | cons child rest =>
        refine ih ?_
        rw [hchildren] at h
        simp only
        omega
    · rw [Cursor.gotoNextSibling]
      cases hsiblings : cursor.siblings with
      | nil => rfl
      | cons sibling rest =>
        refine ih ?_
        rw [hsiblings] at h
        simp only
        omega

end Loop

section First

variable {flags : ErrorFlags} {root : Node}

theorem consistent_of_mem (h : Consistent flags root) {node : Node} (hnode : node ∈ root.nodes) :
    Consistent flags node :=
  fun inner hinner => h inner (nodes_trans hnode hinner)

/-- A node holds an error exactly if there is a broken node to be found. -/
theorem hasError_iff_find? (h : Consistent flags root) :
    flags.hasError root = true ↔ (root.nodes.find? (isBroken flags)).isSome := by
  rw [h root (mem_nodes_self root), List.find?_isSome]
  simp only [isBroken, Bool.or_eq_true]

/-- The search among siblings finds the first broken node below them, when
the search below each of them does. -/
theorem firstErrorAmong_eq {nodes : List Node} (h : ∀ node ∈ nodes, Consistent flags node)
    (hbelow : ∀ node ∈ nodes, flags.hasError node = true →
      firstError flags node = node.nodes.find? (isBroken flags)) :
    firstErrorAmong flags nodes = (nodesOf nodes).find? (isBroken flags) := by
  induction nodes with
  | nil => rfl
  | cons node siblings ih =>
    have hhead := hasError_iff_find? (h node List.mem_cons_self)
    rw [firstErrorAmong, nodesOf, List.find?_append]
    split_ifs with herror
    · obtain ⟨found, hfound⟩ := Option.isSome_iff_exists.mp (hhead.mp herror)
      rw [hbelow node List.mem_cons_self herror, hfound]
      rfl
    · have hnone : node.nodes.find? (isBroken flags) = none := by
        rw [← Option.not_isSome_iff_eq_none]
        exact fun hsome => herror (hhead.mpr hsome)
      rw [hnone, Option.none_or]
      exact ih (fun other hother => h other (List.mem_cons_of_mem node hother))
        fun other hother => hbelow other (List.mem_cons_of_mem node hother)

/-- The search below a node that holds an error finds the first broken node in
pre-order. -/
theorem firstError_eq (h : Consistent flags root) :
    firstError flags root = root.nodes.find? (isBroken flags) := by
  induction root using node_induction with
  | step root ih =>
    have hchildren : firstErrorAmong flags root.children =
        (nodesOf root.children).find? (isBroken flags) := by
      refine firstErrorAmong_eq ?_ ?_
      · exact fun child hchild => consistent_of_mem h (child_mem_nodes hchild)
      · exact fun child hchild _ => ih child hchild (consistent_of_mem h (child_mem_nodes hchild))
    rw [firstError_unfold, nodes_eq, ← nodesOf_eq]
    split_ifs with hbroken
    · rw [List.find?_cons_of_pos hbroken]
    · rw [List.find?_cons_of_neg hbroken, hchildren]

end First

/-- In a syntax tree with consistent flags whose root holds an error, the loop
of `validate_query` ends after at most one round for every node. It ends at
the first ERROR or MISSING node in pre-order, and the message shows the query
before this node, the node and the query behind it. -/
theorem searchLoop_finds_first {flags : ErrorFlags} {root : Node} (hflags : Consistent flags root)
    (herror : flags.hasError root = true) (query : String) :
    ∃ node, root.nodes.find? (isBroken flags) = some node ∧
      (∀ rounds, root.nodes.length ≤ rounds →
        searchLoop flags rounds (walk root) = some (some node)) ∧
      validateQuery flags root query false =
        .error (.query ("Error! Query parsing failed: " ++ slice query ⟨0, node.range.start⟩ ++
          (if flags.isMissing node then " [MISSING " ++ node.kind ++ " ] " else "") ++
          slice query node.range ++ slice query ⟨node.range.stop, utf8Len query.toList⟩)) := by
  obtain ⟨node, hnode⟩ := Option.isSome_iff_exists.mp ((hasError_iff_find? hflags).mp herror)
  have hfirst : firstError flags root = some node := (firstError_eq hflags).trans hnode
  refine ⟨node, hnode, ?_, ?_⟩
  · intro rounds hrounds
    have hreach : (nodesOf ((walk root).node :: (walk root).siblings)).length ≤ rounds := by
      rw [walk, nodesOf, nodesOf, List.append_nil]
      exact hrounds
    rw [searchLoop_eq hreach, walk, firstErrorAmong, if_pos herror, hfirst]
  · have hmessage : syntaxMessage flags root query = "Error! Query parsing failed: " ++
        slice query ⟨0, node.range.start⟩ ++
        (if flags.isMissing node then " [MISSING " ++ node.kind ++ " ] " else "") ++
        slice query node.range ++ slice query ⟨node.range.stop, utf8Len query.toList⟩ := by
      rw [syntaxMessage, hfirst]
    rw [validateQuery, herror, hmessage]
    rfl

/-- Flags of a tree in which the nodes of the kind ERROR are the errors. -/
def kindFlags : ErrorFlags where
  hasError node := node.nodes.any fun inner => inner.kind == "ERROR"
  isError node := node.kind == "ERROR"
  isMissing _ := false

theorem consistent_kindFlags (root : Node) : Consistent kindFlags root := by
  intro node _
  simp [kindFlags]

/-- The tree of the query `;)`, an empty statement and a stray bracket. -/
def strayBracket : Node :=
  rule 0 "translation_unit" 0 2
    [rule 1 "expression_statement" 0 1 [token 2 ";" 0 1], rule 3 "ERROR" 1 2 [token 4 ")" 1 2]]

/-- The stray bracket is found behind the statement. -/
theorem searchLoop_finds_first_strayBracket :
    kindFlags.hasError strayBracket = true ∧
      ∃ node, strayBracket.nodes.find? (isBroken kindFlags) = some node ∧
        (∀ rounds, strayBracket.nodes.length ≤ rounds →
          searchLoop kindFlags rounds (walk strayBracket) = some (some node)) ∧
        validateQuery kindFlags strayBracket ";)" false =
          .error (.query ("Error! Query parsing failed: " ++ slice ";)" ⟨0, node.range.start⟩ ++
            (if kindFlags.isMissing node then " [MISSING " ++ node.kind ++ " ] " else "") ++
            slice ";)" node.range ++ slice ";)" ⟨node.range.stop, utf8Len ";)".toList⟩)) := by
  have herror : kindFlags.hasError strayBracket = true := by decide +kernel
  exact ⟨herror, searchLoop_finds_first (consistent_kindFlags strayBracket) herror ";)"⟩

end WeggliEnhance.SyntaxErrors
