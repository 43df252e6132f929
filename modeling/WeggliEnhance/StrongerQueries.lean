import WeggliEnhance.QuerySemantics

/-!
# Stronger queries

A query becomes stronger when its variables get constraints, when its
sub-queries become stronger and when negations are added or become weaker. A
stronger query has fewer answers. Below a negation the direction turns
around, so both directions are proved together.
-/

namespace WeggliEnhance.StrongerQueries

open SourceText SyntaxTree QueryText ThirdParty QueryTrees QueryResults QueryEngine FallibleState
  MirroredPatterns NarrowedQueries QuerySemantics

mutual

/-- The first capture accepts fewer nodes. -/
inductive CaptureStronger : Capture → Capture → Prop
  /-- The same capture. -/
  | same (capture : Capture) : CaptureStronger capture capture
  /-- A variable gets a constraint. -/
  | constrain (name : String) (constraint : Bool × Regex) :
    CaptureStronger (.variable name (some constraint)) (.variable name none)
  /-- A sub-query for any sub-expression becomes stronger. -/
  | wild {tree tree' : QueryTree} :
    Stronger tree tree' → CaptureStronger (.subWildQuery tree) (.subWildQuery tree')
  /-- A sub-query for a block becomes stronger. -/
  | multi {tree tree' : QueryTree} :
    Stronger tree tree' → CaptureStronger (.subMultiQuery tree) (.subMultiQuery tree')

/-- The first query is the stronger one: every negation of the second one has
a partner in the first one that is at the same place and is no stronger. -/
inductive Stronger : QueryTree → QueryTree → Prop
  /-- The texts are the same. -/
  | intro {captures captures' : List Capture} {negations negations' : List NegativeQuery}
    (query : Query) (vars : Finset String) (id : ℕ) (partner : NegativeQuery → NegativeQuery) :
    List.Forall₂ CaptureStronger captures captures' →
    (∀ neg ∈ negations', partner neg ∈ negations) →
    (∀ neg ∈ negations', (partner neg).previousCaptureIndex = neg.previousCaptureIndex) →
    (∀ neg ∈ negations', Stronger neg.qt (partner neg).qt) →
    Stronger ⟨query, captures, negations, vars, id⟩ ⟨query, captures', negations', vars, id⟩

end

variable {tree tree' : QueryTree} {capture capture' : Capture} {externals : Externals}
  {source : String}

/-- Sub-queries on the same node. -/
def SubStronger (sub sub' : QueryTree × Node) : Prop :=
  CaptureStronger (.subWildQuery sub.1) (.subWildQuery sub'.1) ∧ sub'.2 = sub.2

/-- States of `process_match` with stronger sub-queries. -/
structure StatesStronger (state state' : MatchState) : Prop where
  /-- The same captures are recorded. -/
  r : state'.r = state.r
  /-- The same variables are bound. -/
  vars : state'.vars = state.vars
  /-- The sub-queries are related one by one. -/
  subqueries : List.Forall₂ SubStronger state.subqueries state'.subqueries

theorem result_of_statesStronger {state state' : MatchState} (h : StatesStronger state state') :
    state'.result = state.result := by
  cases state
  cases state'
  obtain ⟨rfl, rfl, -⟩ := h
  rfl

/-- What a stronger capture accepts is accepted. -/
theorem accepts_of_captureStronger (h : CaptureStronger capture capture') {node : Node}
    (haccepts : accepts externals source capture node = .ok true) :
    accepts externals source capture' node = .ok true := by
  cases h with
  | same => exact haccepts
  | constrain => rfl
  | wild => rfl
  | multi => rfl

theorem statesStronger_add {state state' : MatchState} (h : StatesStronger state state')
    (hcapture : CaptureStronger capture capture') (id : ℕ) (c : QueryCapture) :
    StatesStronger (state.add id capture c) (state'.add id capture' c) := by
  have hpush : ∀ entry : CaptureResult, state'.r ++ [entry] = state.r ++ [entry] := by
    intro entry
    rw [h.r]
  have hbind : ∀ name, state'.vars.insert name state'.r.length =
      state.vars.insert name state.r.length := by
    intro name
    rw [h.r, h.vars]
  have hdefer : ∀ tree tree', CaptureStronger (.subWildQuery tree) (.subWildQuery tree') →
      List.Forall₂ SubStronger (state.subqueries ++ [(tree, c.node)])
        (state'.subqueries ++ [(tree', c.node)]) := by
    intro tree tree' htree
    exact List.rel_append h.subqueries (.cons ⟨htree, rfl⟩ .nil)
  cases hcapture with
  | constrain name constraint => exact ⟨hpush _, hbind name, h.subqueries⟩
  | wild htree => exact ⟨hpush _, h.vars, hdefer _ _ (.wild htree)⟩
  | multi htree => exact ⟨h.r, h.vars, hdefer _ _ (.wild htree)⟩
  | same =>
    cases capture with
    | subWildQuery tree => exact ⟨hpush _, h.vars, hdefer _ _ (.same _)⟩
    | subMultiQuery tree => exact ⟨h.r, h.vars, hdefer _ _ (.same _)⟩
    | «variable» name constraint => exact ⟨hpush _, hbind name, h.subqueries⟩
    | _ => exact ⟨hpush _, h.vars, h.subqueries⟩

/-- A match that passes the checks of the stronger query passes those of the
other one. -/
theorem collect_stronger (h : Stronger tree tree') {state state' final : MatchState}
    (hstate : StatesStronger state state') {cs : List QueryCapture}
    (hcollect : collect externals source tree state cs = .ok (some final)) :
    ∃ final', collect externals source tree' state' cs = .ok (some final') ∧
      StatesStronger final final' := by
  induction cs generalizing state state' with
  | nil =>
    cases hcollect
    exact ⟨state', rfl, hstate⟩
  | cons c cs ih =>
    cases h with
    | @intro captures captures' negations negations' query vars id partner hcaptures =>
      rw [collect] at hcollect ⊢
      have hrel := rel_getElem? hcaptures c.index
      dsimp only at hcollect ⊢
      generalize captures[c.index]? = found at hrel hcollect
      generalize captures'[c.index]? = found' at hrel ⊢
      cases hrel with
      | none => cases hcollect
      | @some capture capture' hcapture =>
        dsimp only at hcollect ⊢
        cases haccepts : accepts externals source capture c.node with
        | error panic =>
          rw [haccepts] at hcollect
          cases hcollect
        | ok passed =>
          rw [haccepts] at hcollect
          cases passed with
          | false => cases hcollect
          | true =>
            rw [accepts_of_captureStronger hcapture haccepts]
            exact ih (statesStronger_add hstate hcapture id c) hcollect

/-- Answers of sub-queries are answers of weaker sub-queries. -/
theorem forall₂_answers {answers answers' : Reading} {subs subs' : List (QueryTree × Node)}
    {founds : List QueryResult}
    (h : List.Forall₂ (fun sub sub' => ∀ found, answers sub.1 sub.2 found →
      answers' sub'.1 sub'.2 found) subs subs')
    (hfounds : List.Forall₂ (fun sub found => answers sub.1 sub.2 found) subs founds) :
    List.Forall₂ (fun sub found => answers' sub.1 sub.2 found) subs' founds := by
  induction h generalizing founds with
  | nil =>
    cases hfounds
    exact .nil
  | cons hfirst _ ih =>
    cases hfounds with
    | cons hfound hrest => exact .cons (hfirst _ hfound) (ih hrest)

/-- What a stronger query composes is composed by the other one, if this holds
of their sub-queries. -/
theorem composed_of_stronger (h : Stronger tree tree')
    (hchildren : ∀ child ∈ tree.children, ∀ child' ∈ tree'.children, Stronger child child' →
      ∀ node result, Answer externals source child node result →
        Answer externals source child' node result) {root : Node} {result : QueryResult}
    (hcomposed : Composed externals source (Answer externals source) tree root result) :
    Composed externals source (Answer externals source) tree' root result := by
  obtain ⟨parts, hcount, hpairwise, hconcatenate, hparts⟩ := hcomposed
  have hquery : tree'.query = tree.query := by
    cases h with
    | intro => rfl
  rw [← hquery] at hcount hparts
  refine ⟨parts, hcount, hpairwise, hconcatenate, ?_⟩
  intro i part hpart
  obtain ⟨queryMatch, hmatch, hindex, state, founds, hcollect, hfounds, hcoherent, hresult⟩ :=
    hparts i part hpart
  obtain ⟨state', hcollect', hstates⟩ := collect_stronger h ⟨rfl, rfl, .nil⟩ hcollect
  rw [← result_of_statesStronger hstates] at hcoherent hresult
  refine ⟨queryMatch, hmatch, hindex, state', founds, hcollect', ?_, hcoherent, hresult⟩
  refine forall₂_answers (forall₂_imp_of_mem hstates.subqueries ?_) hfounds
  rintro sub hsub sub' hsub' ⟨htree, hnode⟩ found hfound
  rw [hnode]
  rcases collect_subqueries hcollect sub hsub with hnone | ⟨hchild, -⟩
  · cases hnone
  rcases collect_subqueries hcollect' sub' hsub' with hnone | ⟨hchild', -⟩
  · cases hnone
  generalize sub'.1 = child' at htree hchild' ⊢
  cases htree with
  | same => exact hfound
  | wild hstronger => exact hchildren sub.1 hchild child' hchild' hstronger sub.2 found hfound

/-- A stronger query has fewer answers. The trees change sides below a
negation, so the induction is on the depths of both. -/
theorem answer_of_stronger (h : Stronger tree tree') {root : Node} {result : QueryResult}
    (hanswer : Answer externals source tree root result) :
    Answer externals source tree' root result := by
  induction hdepth : tree.depth + tree'.depth using Nat.strong_induction_on
    generalizing tree tree' root result with
  | _ depth ih =>
    rw [answer_iff] at hanswer ⊢
    obtain ⟨hcomposed, hunopposed⟩ := hanswer
    refine ⟨composed_of_stronger h ?_ hcomposed, ?_⟩
    · intro child hchild child' hchild' hstronger node found hfound
      have hlt := depth_lt_of_mem (List.mem_append_left tree.negatives hchild)
      have hlt' := depth_lt_of_mem (List.mem_append_left tree'.negatives hchild')
      exact ih (child.depth + child'.depth) (by omega) hstronger hfound rfl
    · cases h with
      | @intro captures captures' negations negations' query vars id partner _ hpartner hplace
          hweaker =>
        intro neg hneg n hn
        have hlt := depth_lt_of_mem (List.mem_append_right
          (QueryTree.mk query captures negations vars id).children
          (List.mem_map_of_mem (hpartner neg hneg)))
        have hlt' := depth_lt_of_mem (List.mem_append_right
          (QueryTree.mk query captures' negations' vars id).children (List.mem_map_of_mem hneg))
        rw [← hplace neg hneg]
        exact hunopposed (partner neg) (hpartner neg hneg) n
          (ih (neg.qt.depth + (partner neg).qt.depth) (by omega) (hweaker neg hneg) hn rfl)

end WeggliEnhance.StrongerQueries
