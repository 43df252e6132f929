import WeggliEnhance.QueryResults

/-!
# Merging as the join of assignments

`merge` and `chainable` walk the hash map of one result and look every name up
in the other. A walk visits every entry once, in an unspecified order, which
is a list of the entries of the map. The walks are modelled with their panics
and for every visiting order: on results that can be read from their sources
they never panic and always compute the same outcome. Merging is then the join of two partial
assignments. It is associative with identical captures and indices, and
chainability is its symmetric form for two sources.
-/

namespace WeggliEnhance.ResultMerge

open SourceText QueryResults

section Visits

variable {α β : Type} [DecidableEq α] {order : List (Σ _ : α, β)} {map : Finmap fun _ : α => β}

/-- The list has every entry of the map once. -/
def Visits (order : List (Σ _ : α, β)) (map : Finmap fun _ : α => β) : Prop :=
  (order : Multiset (Σ _ : α, β)) = map.entries

theorem mem_visits_iff (h : Visits order map) {a : α} {b : β} :
    (⟨a, b⟩ : Σ _ : α, β) ∈ order ↔ map.lookup a = some b := by
  rw [Finmap.lookup_eq_some_iff, ← h, Multiset.mem_coe]

omit [DecidableEq α] in
/-- No name is visited twice. -/
theorem nodup_visits (h : Visits order map) : (order.map Sigma.fst).Nodup := by
  have hkeys := map.nodupKeys
  rw [← h, ← Multiset.nodup_keys] at hkeys
  exact Multiset.coe_nodup.mp hkeys

theorem mem_names_iff (h : Visits order map) {a : α} : a ∈ order.map Sigma.fst ↔ a ∈ map := by
  rw [List.mem_map, Finmap.mem_iff]
  constructor
  · rintro ⟨⟨_, b⟩, hentry, rfl⟩
    exact ⟨b, (mem_visits_iff h).mp hentry⟩
  · rintro ⟨b, hlookup⟩
    exact ⟨⟨a, b⟩, (mem_visits_iff h).mpr hlookup, rfl⟩

/-- Searching the visited entries is looking up in the map. -/
theorem dlookup_visits (h : Visits order map) (a : α) : order.dlookup a = map.lookup a := by
  refine Option.ext fun b => ?_
  have hkeys : order.NodupKeys := nodup_visits h
  rw [← mem_visits_iff h, ← List.mem_dlookup_iff hkeys, Option.mem_def]

end Visits

/-- All captured ranges can be sliced out of the source. Together with the
bound on the indices this makes every access of a result safe. -/
def Readable (source : String) (result : QueryResult) : Prop :=
  ∀ c ∈ result.captures, (slice? source c.range).isSome

/-- `QueryResult::value` with its panics: nothing when indexing the captures or
slicing the source panics. -/
def checkedValue (self : QueryResult) (var source : String) : Option (Option String) :=
  match self.vars.lookup var with
  | none => some none
  | some i => self.captures[i]?.bind fun c => (slice? source c.range).map some

/-- The loop of `merge` over the variables of the second result. The outer
option is a panic, the inner one the answer. -/
def mergeLoop (self other : QueryResult) (source : String) :
    VarMap → List (Σ _ : String, ℕ) → Option (Option VarMap)
  | vars, [] => some (some vars)
  | vars, ⟨k, v⟩ :: rest =>
    match checkedValue self k source with
    | none => none
    | some none => mergeLoop self other source (vars.insert k (v + self.captures.length)) rest
    | some (some s) =>
      match checkedValue other k source with
      | some (some t) => if s ≠ t then some none else mergeLoop self other source vars rest
      | _ => none

/-- `QueryResult::merge` for one visiting order: captures, variables and range
of the function of the merged result. -/
def mergeVisiting (order : List (Σ _ : String, ℕ)) (self other : QueryResult) (source : String)
    (enforceOrder : Bool) : Option (Option (List CaptureResult × VarMap × Range)) :=
  if enforceOrder && other.captures.any fun r =>
      self.captures.any fun r2 => r.range.start ≤ r2.range.stop then some none
  else (mergeLoop self other source self.vars order).map fun answer =>
    answer.map fun vars => (self.captures ++ other.captures, vars, self.function)

/-- The search of `chainable` for a conflicting variable of the second result. -/
def conflictLoop (self : QueryResult) (source : String) (other : QueryResult)
    (otherSource : String) : List (Σ _ : String, ℕ) → Option Bool
  | [] => some false
  | ⟨k, _⟩ :: rest =>
    match checkedValue self k source with
    | none => none
    | some none => conflictLoop self source other otherSource rest
    | some (some s) =>
      match checkedValue other k otherSource with
      | some (some t) =>
        if s ≠ t then some true else conflictLoop self source other otherSource rest
      | _ => none

/-- `QueryResult::chainable` for one visiting order. -/
def chainableVisiting (order : List (Σ _ : String, ℕ)) (self : QueryResult) (source : String)
    (other : QueryResult) (otherSource : String) : Option Bool :=
  (conflictLoop self source other otherSource order).map not

/-- What one new entry adds to the merged map. -/
def insertNew (self : QueryResult) (vars : VarMap) (entry : Σ _ : String, ℕ) : VarMap :=
  if entry.1 ∈ self.vars then vars else vars.insert entry.1 (entry.2 + self.captures.length)

/-- Values of readable results are read without a panic. -/
theorem checkedValue_eq {self : QueryResult} {source : String} (h : Readable source self)
    (var : String) : checkedValue self var source = some (self.value var source) := by
  cases hlookup : self.vars.lookup var with
  | none => simp only [checkedValue, QueryResult.value, hlookup, Option.bind_none]
  | some i =>
    have hlt := self.vars_lt hlookup
    have hget := List.getElem?_eq_getElem hlt
    obtain ⟨text, htext⟩ := Option.isSome_iff_exists.mp (h _ (List.getElem_mem hlt))
    simp only [checkedValue, QueryResult.value, hlookup, hget, Option.bind_some, htext,
      Option.map_some, slice, Option.getD_some]

section Loops

variable {self other : QueryResult} {source otherSource : String}
  {order : List (Σ _ : String, ℕ)}

/-- One entry of the second map is either new, equal or a conflict. -/
theorem conflictsAt_eq_false_iff {var text : String} (hself : self.value var source = some text) :
    conflictsAt self source other otherSource var = false ↔
      other.value var otherSource = some text := by
  rw [conflictsAt, hself]
  exact bne_eq_false_iff_eq

/-- Every visited name has a value, so that unwrapping it never panics. -/
theorem exists_value_of_mem {var : String} (h : var ∈ other.vars) (otherSource : String) :
    ∃ text, other.value var otherSource = some text :=
  Option.isSome_iff_exists.mp ((value_isSome_iff otherSource).mpr h)

/-- The search finds a conflict exactly when there is one among the visited
names. -/
theorem conflictLoop_eq (hself : Readable source self) (hother : Readable otherSource other)
    (horder : ∀ entry ∈ order, entry.1 ∈ other.vars) :
    conflictLoop self source other otherSource order =
      some (order.any fun entry => conflictsAt self source other otherSource entry.1) := by
  induction order with
  | nil => rfl
  | cons entry order ih =>
    obtain ⟨k, v⟩ := entry
    have hrest := ih fun entry hentry => horder entry (List.mem_cons_of_mem _ hentry)
    obtain ⟨t, ht⟩ := exists_value_of_mem (horder ⟨k, v⟩ List.mem_cons_self) otherSource
    rw [conflictLoop, checkedValue_eq hself, checkedValue_eq hother, ht, List.any_cons]
    cases hs : self.value k source with
    | none => simp only [hrest, conflictsAt, hs, Bool.false_or]
    | some s =>
      by_cases hst : s = t
      · have hno := (conflictsAt_eq_false_iff hs).mpr (ht.trans (congrArg some hst.symm))
        simp only [hst, ne_eq, not_true_eq_false, if_false, hrest, hno, Bool.false_or]
      · have hyes : conflictsAt self source other otherSource k = true := by
          rw [conflictsAt, hs]
          simpa [ht] using Ne.symm hst
        simp only [ne_eq, hst, not_false_eq_true, if_true, hyes, Bool.true_or]

/-- What the loop of `merge` answers when it visits the entries from a state of
the new map on. -/
theorem mergeLoop_eq (hself : Readable source self) (hother : Readable source other)
    (horder : ∀ entry ∈ order, entry.1 ∈ other.vars) (vars : VarMap) :
    mergeLoop self other source vars order =
      some (if order.any fun entry => conflictsAt self source other source entry.1 then none
        else some (order.foldl (insertNew self) vars)) := by
  induction order generalizing vars with
  | nil => rfl
  | cons entry order ih =>
    obtain ⟨k, v⟩ := entry
    have hrest := ih fun entry hentry => horder entry (List.mem_cons_of_mem _ hentry)
    obtain ⟨t, ht⟩ := exists_value_of_mem (horder ⟨k, v⟩ List.mem_cons_self) source
    rw [mergeLoop, checkedValue_eq hself, checkedValue_eq hother, ht, List.any_cons,
      List.foldl_cons]
    cases hs : self.value k source with
    | none =>
      have hnew : k ∉ self.vars := by
        rw [← value_isSome_iff source, hs]
        exact Bool.false_ne_true
      have hinsert : insertNew self vars ⟨k, v⟩ = vars.insert k (v + self.captures.length) :=
        if_neg hnew
      have hno : conflictsAt self source other source k = false := by rw [conflictsAt, hs]
      simp only [hrest, hno, Bool.false_or, hinsert]
    | some s =>
      have hold : k ∈ self.vars := (value_isSome_iff source).mp (Option.isSome_of_eq_some hs)
      have hkeep : insertNew self vars ⟨k, v⟩ = vars := if_pos hold
      by_cases hst : s = t
      · have hno := (conflictsAt_eq_false_iff hs).mpr (ht.trans (congrArg some hst.symm))
        simp only [hst, ne_eq, not_true_eq_false, if_false, hrest, hno, Bool.false_or, hkeep]
      · have hyes : conflictsAt self source other source k = true := by
          rw [conflictsAt, hs]
          simpa [ht] using Ne.symm hst
        simp only [ne_eq, hst, not_false_eq_true, if_true, hyes, Bool.true_or]

end Loops

section Orders

variable {self other : QueryResult} {source otherSource : String}
  {order : List (Σ _ : String, ℕ)}

/-- The entries visited after a state of the map overwrite or extend it at the
names that are new. -/
theorem lookup_foldl_insertNew (hnodup : (order.map Sigma.fst).Nodup) (vars : VarMap)
    (var : String) :
    (order.foldl (insertNew self) vars).lookup var =
      if var ∈ self.vars then vars.lookup var
      else ((order.dlookup var).map (· + self.captures.length)).or (vars.lookup var) := by
  induction order generalizing vars with
  | nil => simp
  | cons entry order ih =>
    obtain ⟨k, v⟩ := entry
    rw [List.map_cons, List.nodup_cons] at hnodup
    rw [List.foldl_cons, ih hnodup.2]
    by_cases hvar : var ∈ self.vars
    · rw [if_pos hvar, if_pos hvar, insertNew]
      split_ifs with hk
      · rfl
      · exact Finmap.lookup_insert_of_ne vars fun heq => hk (heq ▸ hvar)
    · rw [if_neg hvar, if_neg hvar]
      by_cases heq : var = k
      · subst heq
        have hgone : order.dlookup var = none := List.dlookup_eq_none.mpr hnodup.1
        rw [hgone, List.dlookup_cons_eq, insertNew, if_neg hvar, Finmap.lookup_insert]
        rfl
      · rw [List.dlookup_cons_ne order ⟨k, v⟩ heq]
        congr 1
        rw [insertNew]
        split_ifs with hk
        · rfl
        · exact Finmap.lookup_insert_of_ne vars heq

/-- Any order builds the union with the shifted map. -/
theorem foldl_insertNew_eq (horder : Visits order other.vars) :
    order.foldl (insertNew self) self.vars = (self.append other).vars := by
  refine Finmap.ext_lookup fun var => ?_
  rw [lookup_foldl_insertNew (nodup_visits horder), dlookup_visits horder]
  by_cases hvar : var ∈ self.vars
  · rw [if_pos hvar, QueryResult.append, Finmap.lookup_union_left hvar]
  · rw [if_neg hvar, QueryResult.append, Finmap.lookup_union_right hvar, lookup_shiftVars,
      Finmap.lookup_eq_none.mpr hvar, Option.or_none]

/-- The visited names are those of the map, so the answer of a search does not
depend on the order. -/
theorem any_visits_eq_conflicts (horder : Visits order other.vars) :
    (order.any fun entry => conflictsAt self source other otherSource entry.1) =
      conflicts self source other otherSource := by
  rw [Bool.eq_iff_iff, List.any_eq_true, conflicts, decide_eq_true_iff]
  constructor
  · rintro ⟨entry, hentry, hconflict⟩
    have hmem := (mem_names_iff horder).mp (List.mem_map_of_mem hentry)
    exact ⟨entry.1, Finmap.mem_keys.mpr hmem, hconflict⟩
  · rintro ⟨var, hvar, hconflict⟩
    have hmem := (mem_names_iff horder).mpr (Finmap.mem_keys.mp hvar)
    obtain ⟨entry, hentry, rfl⟩ := List.mem_map.mp hmem
    exact ⟨entry, hentry, hconflict⟩

/-- Every visiting order merges two readable results in the same way. -/
theorem mergeVisiting_eq (hself : Readable source self) (hother : Readable source other)
    (horder : Visits order other.vars) (enforceOrder : Bool) :
    mergeVisiting order self other source enforceOrder =
      some ((self.merge other source enforceOrder).map fun r =>
        (r.captures, r.vars, r.function)) := by
  have hnames : ∀ entry ∈ order, entry.1 ∈ other.vars := fun entry hentry =>
    (mem_names_iff horder).mp (List.mem_map_of_mem hentry)
  rw [mergeVisiting, QueryResult.merge, mergeLoop_eq hself hother hnames,
    any_visits_eq_conflicts horder, foldl_insertNew_eq horder]
  split_ifs with hout hconflict
  · rfl
  · rfl
  · rfl

/-- Every visiting order of `chainable` gives the same answer. -/
theorem chainableVisiting_eq (hself : Readable source self) (hother : Readable otherSource other)
    (horder : Visits order other.vars) :
    chainableVisiting order self source other otherSource =
      some (self.chainable source other otherSource) := by
  have hnames : ∀ entry ∈ order, entry.1 ∈ other.vars := fun entry hentry =>
    (mem_names_iff horder).mp (List.mem_map_of_mem hentry)
  rw [chainableVisiting, conflictLoop_eq hself hother hnames, any_visits_eq_conflicts horder]
  rfl

end Orders

/-- A match that binds `$x` to the first operand of `a+a`. -/
def leftOperand : QueryResult where
  captures := [⟨⟨0, 1⟩, 0, 0⟩]
  vars := Finmap.singleton "$x" 0
  function := ⟨0, 3⟩
  vars_lt := by
    intro v i h
    by_cases hv : v = "$x"
    · rw [hv, Finmap.lookup_singleton_eq] at h
      cases h
      exact Nat.zero_lt_one
    · rw [Finmap.lookup_eq_none.mpr fun hmem => hv (Finmap.mem_singleton _ _ _ |>.mp hmem)] at h
      cases h

/-- A match that binds `$x` to the second operand of `a+a`. -/
def rightOperand : QueryResult :=
  { leftOperand with captures := [⟨⟨2, 3⟩, 0, 1⟩], vars_lt := leftOperand.vars_lt }

theorem readable_leftOperand : Readable "a+a" leftOperand := by
  unfold Readable
  decide

theorem readable_rightOperand : Readable "a+a" rightOperand := by
  unfold Readable
  decide

section Algebra

variable {a b c : QueryResult} {source otherSource : String}

theorem readable_append (ha : Readable source a) (hb : Readable source b) :
    Readable source (a.append b) := by
  intro capture hcapture
  obtain hleft | hright := List.mem_append.mp hcapture
  · exact ha capture hleft
  · exact hb capture hright

/-- The left assignment wins in a concatenation. -/
theorem value_append (a b : QueryResult) (var source : String) :
    (a.append b).value var source =
      if var ∈ a.vars then a.value var source else b.value var source := by
  split_ifs with hvar
  · exact value_append_left hvar
  · exact value_append_right hvar

theorem merge_isSome_iff {enforceOrder : Bool} :
    (a.merge b source enforceOrder).isSome ↔
      Agree a source b source ∧ (enforceOrder = true → Precedes a b) := by
  rw [Option.isSome_iff_exists]
  constructor
  · rintro ⟨r, hr⟩
    obtain ⟨horder, hagree, -⟩ := merge_eq_some_iff.mp hr
    exact ⟨hagree, horder⟩
  · rintro ⟨hagree, horder⟩
    exact ⟨a.append b, merge_eq_some_iff.mpr ⟨horder, hagree, rfl⟩⟩

/-- Merging is the join of partial assignments. In every visiting order and
without a panic it succeeds exactly when the texts of the common variables agree
and, on demand, the captures of the second result start after those of the
first. The merged result can be read again, has the captures of both in order
and the range of the first, and binds the union of the variables to the values
of the first where it has one. -/
theorem merge_isJoin (ha : Readable source a) (hb : Readable source b) (enforceOrder : Bool) :
    (∀ order, Visits order b.vars →
      mergeVisiting order a b source enforceOrder =
        some ((a.merge b source enforceOrder).map fun r => (r.captures, r.vars, r.function))) ∧
    ((a.merge b source enforceOrder).isSome ↔
      Agree a source b source ∧ (enforceOrder = true → Precedes a b)) ∧
    ∀ r, a.merge b source enforceOrder = some r →
      Readable source r ∧ r.captures = a.captures ++ b.captures ∧ r.function = a.function ∧
        (∀ var, var ∈ r.vars ↔ var ∈ a.vars ∨ var ∈ b.vars) ∧
        ∀ var, r.value var source =
          if var ∈ a.vars then a.value var source else b.value var source := by
  refine ⟨?_, merge_isSome_iff, ?_⟩
  · intro order horder
    exact mergeVisiting_eq ha hb horder enforceOrder
  · intro r hr
    obtain ⟨-, -, rfl⟩ := merge_eq_some_iff.mp hr
    exact ⟨readable_append ha hb, rfl, rfl, vars_append a b, fun var => value_append a b var source⟩

theorem merge_isJoin_operands :
    Readable "a+a" leftOperand ∧ Readable "a+a" rightOperand ∧
      ∀ r, leftOperand.merge rightOperand "a+a" true = some r →
        r.captures = leftOperand.captures ++ rightOperand.captures :=
  ⟨readable_leftOperand, readable_rightOperand, fun r hr =>
    ((merge_isJoin readable_leftOperand readable_rightOperand true).2.2 r hr).2.1⟩

example : (leftOperand.merge rightOperand "a+a" true).isSome = true := by decide

example : (rightOperand.merge leftOperand "a+a" true).isSome = false := by decide

/-- Agreement with a concatenation on the right is agreement with both parts. -/
theorem agree_append_right_iff (hbc : Agree b source c source) :
    Agree a otherSource (b.append c) source ↔
      Agree a otherSource b source ∧ Agree a otherSource c source := by
  rw [agree_comm, agree_append_iff hbc]
  exact and_congr agree_comm agree_comm

theorem precedes_append_left_iff : Precedes (a.append b) c ↔ Precedes a c ∧ Precedes b c := by
  simp only [Precedes, QueryResult.append, List.mem_append, or_imp, forall_and]

theorem precedes_append_right_iff : Precedes a (b.append c) ↔ Precedes a b ∧ Precedes a c := by
  simp only [Precedes, QueryResult.append, List.mem_append, or_imp, forall_and]

theorem shiftVars_union (offset : ℕ) (vars others : VarMap) :
    shiftVars offset (vars ∪ others) = shiftVars offset vars ∪ shiftVars offset others := by
  refine Finmap.ext_lookup fun var => ?_
  by_cases hvar : var ∈ vars
  · rw [Finmap.lookup_union_left (mem_shiftVars.mpr hvar), lookup_shiftVars, lookup_shiftVars,
      Finmap.lookup_union_left hvar]
  · have hshift : var ∉ shiftVars offset vars := fun hmem => hvar (mem_shiftVars.mp hmem)
    rw [Finmap.lookup_union_right hshift, lookup_shiftVars, lookup_shiftVars,
      Finmap.lookup_union_right hvar]

theorem shiftVars_shiftVars (first second : ℕ) (vars : VarMap) :
    shiftVars first (shiftVars second vars) = shiftVars (first + second) vars := by
  refine Finmap.ext_lookup fun var => ?_
  rw [lookup_shiftVars, lookup_shiftVars, lookup_shiftVars, Option.map_map]
  congr 1
  funext i
  simp only [Function.comp_apply]
  omega

/-- Both groupings of a concatenation have the same captures and indices. -/
theorem append_assoc (a b c : QueryResult) :
    (a.append b).append c = a.append (b.append c) := by
  simp only [QueryResult.append, List.append_assoc, List.length_append, shiftVars_union,
    shiftVars_shiftVars, Finmap.union_assoc]

/-- The grouping of three merges does not matter: both are undefined, or both
give the same captures, indices and range. -/
theorem merge_assoc (a b c : QueryResult) (source : String) (enforceOrder : Bool) :
    (a.merge b source enforceOrder).bind (fun ab => ab.merge c source enforceOrder) =
      (b.merge c source enforceOrder).bind fun bc => a.merge bc source enforceOrder := by
  refine Option.ext fun r => ?_
  simp only [Option.bind_eq_some_iff, merge_eq_some_iff]
  constructor
  · rintro ⟨ab, ⟨hab, hagree, rfl⟩, habc, hall, rfl⟩
    obtain ⟨hac, hbc⟩ := (agree_append_iff hagree).mp hall
    refine ⟨b.append c, ⟨fun h => (precedes_append_left_iff.mp (habc h)).2, hbc, rfl⟩, ?_,
      (agree_append_right_iff hbc).mpr ⟨hagree, hac⟩, append_assoc a b c⟩
    intro h
    exact precedes_append_right_iff.mpr ⟨hab h, (precedes_append_left_iff.mp (habc h)).1⟩
  · rintro ⟨bc, ⟨hbc, hagree, rfl⟩, habc, hall, rfl⟩
    obtain ⟨hab, hac⟩ := (agree_append_right_iff hagree).mp hall
    refine ⟨a.append b, ⟨fun h => (precedes_append_right_iff.mp (habc h)).1, hab, rfl⟩, ?_,
      (agree_append_iff hab).mpr ⟨hac, hagree⟩, (append_assoc a b c).symm⟩
    intro h
    exact precedes_append_left_iff.mpr ⟨(precedes_append_right_iff.mp (habc h)).2, hbc h⟩

theorem chainable_eq_merge_isSome (a b : QueryResult) (source : String) :
    a.chainable source b source = (a.merge b source false).isSome := by
  rw [Bool.eq_iff_iff, chainable_iff, merge_isSome_iff]
  simp

theorem chainable_comm (a b : QueryResult) (source otherSource : String) :
    a.chainable source b otherSource = b.chainable otherSource a source := by
  rw [Bool.eq_iff_iff, chainable_iff, chainable_iff, agree_comm]

/-- Chainability is symmetric, whichever map is walked and in whichever order,
and on one source it is whether two results merge, in either direction. -/
theorem chainable_symmetric (ha : Readable source a) (hb : Readable otherSource b) :
    a.chainable source b otherSource = b.chainable otherSource a source ∧
    (∀ order, Visits order b.vars → chainableVisiting order a source b otherSource =
      some (a.chainable source b otherSource)) ∧
    (∀ order, Visits order a.vars → chainableVisiting order b otherSource a source =
      some (a.chainable source b otherSource)) ∧
    (source = otherSource →
      a.chainable source b otherSource = (a.merge b source false).isSome ∧
      a.chainable source b otherSource = (b.merge a source false).isSome) := by
  refine ⟨chainable_comm a b source otherSource, ?_, ?_, ?_⟩
  · intro order horder
    exact chainableVisiting_eq ha hb horder
  · intro order horder
    rw [chainable_comm a b]
    exact chainableVisiting_eq hb ha horder
  · rintro rfl
    constructor
    · exact chainable_eq_merge_isSome a b source
    · rw [chainable_comm a b]
      exact chainable_eq_merge_isSome b a source

theorem chainable_symmetric_operands :
    Readable "a+a" leftOperand ∧ Readable "a+a" rightOperand ∧
      leftOperand.chainable "a+a" rightOperand "a+a" =
        rightOperand.chainable "a+a" leftOperand "a+a" :=
  ⟨readable_leftOperand, readable_rightOperand,
    (chainable_symmetric readable_leftOperand readable_rightOperand).1⟩

end Algebra

end WeggliEnhance.ResultMerge
