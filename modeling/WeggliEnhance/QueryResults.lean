import Mathlib.Data.Finmap
import Mathlib.Data.Finset.Basic
import WeggliEnhance.PartialJoin
import WeggliEnhance.SourceText

/-!
# Query results

`result.rs`: a result records the captured ranges and maps every variable to
the index of one of them. Results merge when they agree on the text of their
common variables. The map from variables to indices is a finite map, compared
as Rust compares hash maps, and its indices are always in range.
-/

namespace WeggliEnhance.QueryResults

open SourceText

/-- Source range recorded for one capture of one query. -/
structure CaptureResult where
  /-- Bytes covered by the captured node. -/
  range : Range
  /-- Id of the query tree that made the capture. -/
  queryId : ℕ
  /-- Index of the capture in that query tree. -/
  captureIdx : ℕ
  deriving DecidableEq

/-- Map from variables to positions in the list of captures. -/
abbrev VarMap := Finmap fun _ : String => ℕ

/-- A map without variables points nowhere. -/
theorem lookup_empty_lt {var : String} {i bound : ℕ} (h : (∅ : VarMap).lookup var = some i) :
    i < bound := by
  rw [Finmap.lookup_empty] at h
  cases h

/-- The invariant of a match that has recorded nothing yet. -/
theorem nothing_recorded :
    ∀ {var : String} {i : ℕ}, (∅ : VarMap).lookup var = some i →
      i < ([] : List CaptureResult).length :=
  lookup_empty_lt

/-- A partial match. -/
structure QueryResult where
  /-- One entry for each recorded node. -/
  captures : List CaptureResult
  /-- Position of the node that gives a variable its value. -/
  vars : VarMap
  /-- Range of the outermost node. -/
  function : Range
  /-- Every variable points at a recorded capture, so indexing never panics. -/
  vars_lt : ∀ {v i}, vars.lookup v = some i → i < captures.length
  deriving DecidableEq

/-- `QueryResult::start_offset`. -/
def QueryResult.startOffset (self : QueryResult) : ℕ := self.function.start

/-- `QueryResult::function_range`. -/
def QueryResult.functionRange (self : QueryResult) : Range := self.function

/-- `QueryResult::value`: the text bound to a variable. -/
def QueryResult.value (self : QueryResult) (var source : String) : Option String :=
  (self.vars.lookup var).bind fun i => self.captures[i]?.map fun c => slice source c.range

/-- `QueryResult::get_capture_result`: the first entry of a capture. -/
def QueryResult.getCaptureResult (self : QueryResult) (queryId captureIdx : ℕ) :
    Option CaptureResult :=
  self.captures.find? fun c => c.captureIdx == captureIdx && c.queryId == queryId

theorem mem_of_getCaptureResult {self : QueryResult} {queryId captureIdx : ℕ} {c : CaptureResult}
    (h : self.getCaptureResult queryId captureIdx = some c) :
    c ∈ self.captures ∧ c.captureIdx = captureIdx ∧ c.queryId = queryId := by
  unfold QueryResult.getCaptureResult at h
  have hfound := List.find?_some h
  rw [Bool.and_eq_true, beq_iff_eq, beq_iff_eq] at hfound
  exact ⟨List.mem_of_find?_eq_some h, hfound⟩

theorem getCaptureResult_isSome_iff {self : QueryResult} {queryId captureIdx : ℕ} :
    (self.getCaptureResult queryId captureIdx).isSome ↔
      ∃ c ∈ self.captures, c.captureIdx = captureIdx ∧ c.queryId = queryId := by
  rw [QueryResult.getCaptureResult, List.find?_isSome]
  simp only [Bool.and_eq_true, beq_iff_eq]

theorem value_eq_some_iff {self : QueryResult} {var source text : String} :
    self.value var source = some text ↔
      ∃ i c, self.vars.lookup var = some i ∧ self.captures[i]? = some c ∧
        slice source c.range = text := by
  simp only [QueryResult.value, Option.bind_eq_some_iff, Option.map_eq_some_iff]
  constructor
  · rintro ⟨i, hi, c, hc, htext⟩
    exact ⟨i, c, hi, hc, htext⟩
  · rintro ⟨i, c, hi, hc, htext⟩
    exact ⟨i, hi, c, hc, htext⟩

/-- Exactly the variables of the map have a value. -/
theorem value_isSome_iff {self : QueryResult} {var : String} (source : String) :
    (self.value var source).isSome ↔ var ∈ self.vars := by
  rw [Option.isSome_iff_exists, Finmap.mem_iff]
  constructor
  · rintro ⟨text, h⟩
    obtain ⟨i, c, hi, -, -⟩ := value_eq_some_iff.mp h
    exact ⟨i, hi⟩
  · rintro ⟨i, hi⟩
    have hc := List.getElem?_eq_getElem (self.vars_lt hi)
    exact ⟨_, value_eq_some_iff.mpr ⟨i, _, hi, hc, rfl⟩⟩

/-- Both results bind the variable, and to different texts. -/
def conflictsAt (self : QueryResult) (source : String) (other : QueryResult)
    (otherSource var : String) : Bool :=
  match self.value var source with
  | none => false
  | some text => other.value var otherSource != some text

/-- Some variable of the second result conflicts with the first. The loops of
`merge` and `chainable` visit the hash map of the second result in an
unspecified order and give up at the first conflict. -/
def conflicts (self : QueryResult) (source : String) (other : QueryResult)
    (otherSource : String) : Bool :=
  decide (∃ var ∈ other.vars.keys, conflictsAt self source other otherSource var = true)

/-- The results assign equal texts to their common variables. -/
def Agree (self : QueryResult) (source : String) (other : QueryResult) (otherSource : String) :
    Prop :=
  ∀ var text otherText, self.value var source = some text →
    other.value var otherSource = some otherText → text = otherText

theorem conflicts_eq_false_iff {self other : QueryResult} {source otherSource : String} :
    conflicts self source other otherSource = false ↔ Agree self source other otherSource := by
  simp only [conflicts, decide_eq_false_iff_not, not_exists, not_and, Finmap.mem_keys,
    Bool.not_eq_true]
  constructor
  · intro h var text otherText htext hother
    have hvar : var ∈ other.vars := by
      rw [← value_isSome_iff otherSource, hother]
      rfl
    have hno := h var hvar
    rw [conflictsAt, htext, hother] at hno
    exact (Option.some.inj (bne_eq_false_iff_eq.mp hno)).symm
  · intro h var hvar
    cases htext : self.value var source with
    | none => rw [conflictsAt, htext]
    | some text =>
      obtain ⟨otherText, hother⟩ :=
        Option.isSome_iff_exists.mp ((value_isSome_iff otherSource).mpr hvar)
      rw [conflictsAt, htext, hother, h var text otherText htext hother]
      simp

theorem agree_comm {self other : QueryResult} {source otherSource : String} :
    Agree self source other otherSource ↔ Agree other otherSource self source :=
  ⟨fun h var _ _ ht ho => (h var _ _ ho ht).symm, fun h var _ _ ht ho => (h var _ _ ho ht).symm⟩

/-- All indices of a variable map moved up. -/
def shiftVars (offset : ℕ) (vars : VarMap) : VarMap where
  entries := vars.entries.map fun entry => ⟨entry.1, entry.2 + offset⟩
  nodupKeys := by
    have h := vars.nodupKeys
    rw [← Multiset.nodup_keys] at h ⊢
    simpa [Multiset.keys, Multiset.map_map] using h

theorem lookup_shiftVars (offset : ℕ) (vars : VarMap) (var : String) :
    (shiftVars offset vars).lookup var = (vars.lookup var).map (· + offset) := by
  induction vars using Finmap.induction_on with
  | H list =>
    exact List.dlookup_map₂ (f := fun _ i => i + offset) var

theorem mem_shiftVars {offset : ℕ} {vars : VarMap} {var : String} :
    var ∈ shiftVars offset vars ↔ var ∈ vars := by
  simp only [Finmap.mem_iff, lookup_shiftVars, Option.map_eq_some_iff]
  constructor
  · rintro ⟨_, i, hi, -⟩
    exact ⟨i, hi⟩
  · rintro ⟨i, hi⟩
    exact ⟨i + offset, i, hi, rfl⟩

/-- The variable map of two concatenated results: the left one wins, and the
indices of the right one move behind the captures of the left one. -/
theorem append_vars_lt {self other : QueryResult} {var : String} {i : ℕ}
    (h : (self.vars ∪ shiftVars self.captures.length other.vars).lookup var = some i) :
    i < (self.captures ++ other.captures).length := by
  rw [List.length_append]
  by_cases hvar : var ∈ self.vars
  · rw [Finmap.lookup_union_left hvar] at h
    have hlt := self.vars_lt h
    omega
  · rw [Finmap.lookup_union_right hvar, lookup_shiftVars, Option.map_eq_some_iff] at h
    obtain ⟨j, hj, rfl⟩ := h
    have hlt := other.vars_lt hj
    omega

/-- The concatenation of two results, which `merge` returns on success. -/
def QueryResult.append (self other : QueryResult) : QueryResult where
  captures := self.captures ++ other.captures
  vars := self.vars ∪ shiftVars self.captures.length other.vars
  function := self.function
  vars_lt := append_vars_lt

/-- `QueryResult::merge`. -/
def QueryResult.merge (self other : QueryResult) (source : String) (enforceOrder : Bool) :
    Option QueryResult :=
  if enforceOrder && other.captures.any fun r =>
      self.captures.any fun r2 => r.range.start ≤ r2.range.stop then none
  else if conflicts self source other source then none
  else some (self.append other)

/-- `QueryResult::chainable`. -/
def QueryResult.chainable (self : QueryResult) (source : String) (other : QueryResult)
    (otherSource : String) : Bool :=
  !conflicts self source other otherSource

/-- Every capture of the second result starts after all captures of the first. -/
def Precedes (self other : QueryResult) : Prop :=
  ∀ c ∈ self.captures, ∀ d ∈ other.captures, c.range.stop < d.range.start

theorem chainable_iff {self other : QueryResult} {source otherSource : String} :
    self.chainable source other otherSource = true ↔ Agree self source other otherSource := by
  rw [QueryResult.chainable, Bool.not_eq_true', conflicts_eq_false_iff]

theorem out_of_order_iff {self other : QueryResult} :
    (other.captures.any fun r => self.captures.any fun r2 =>
      decide (r.range.start ≤ r2.range.stop)) = false ↔ Precedes self other := by
  simp only [List.any_eq_false, Bool.not_eq_true, decide_eq_false_iff_not, Precedes]
  constructor
  · intro h c hc d hd
    have hlt := h d hd c hc
    omega
  · intro h d hd c hc
    have hlt := h c hc d hd
    omega

/-- Merging succeeds exactly on agreeing results in the demanded order, and
then returns their concatenation. -/
theorem merge_eq_some_iff {self other result : QueryResult} {source : String}
    {enforceOrder : Bool} :
    self.merge other source enforceOrder = some result ↔
      (enforceOrder = true → Precedes self other) ∧ Agree self source other source ∧
        result = self.append other := by
  rw [← conflicts_eq_false_iff, ← out_of_order_iff, QueryResult.merge]
  split_ifs with horder hconflict
  · obtain ⟨henforce, hany⟩ := Bool.and_eq_true_iff.mp horder
    simp [henforce, hany]
  · simp [hconflict]
  · simp only [Bool.and_eq_true, not_and, Bool.not_eq_true] at horder hconflict
    simp only [hconflict, Option.some.injEq, true_and, eq_comm (a := result)]
    exact ⟨fun h => ⟨horder, h⟩, And.right⟩

theorem vars_append (self other : QueryResult) (var : String) :
    var ∈ (self.append other).vars ↔ var ∈ self.vars ∨ var ∈ other.vars := by
  rw [QueryResult.append, Finmap.mem_union, mem_shiftVars]

/-- Variables of the left result keep their value. -/
theorem value_append_left {self other : QueryResult} {var source : String}
    (h : var ∈ self.vars) : (self.append other).value var source = self.value var source := by
  obtain ⟨i, hi⟩ := Finmap.mem_iff.mp h
  have hlt := self.vars_lt hi
  simp only [QueryResult.value, QueryResult.append, Finmap.lookup_union_left h, hi,
    Option.bind_some, List.getElem?_append_left hlt]

/-- Variables that only the right result binds have its value. -/
theorem value_append_right {self other : QueryResult} {var source : String}
    (h : var ∉ self.vars) : (self.append other).value var source = other.value var source := by
  simp only [QueryResult.value, QueryResult.append, Finmap.lookup_union_right h, lookup_shiftVars]
  cases other.vars.lookup var with
  | none => rfl
  | some i =>
    simp only [Option.map_some, Option.bind_some]
    rw [List.getElem?_append_right (Nat.le_add_left _ _), Nat.add_sub_cancel]

/-- A result that agrees with a concatenation agrees with both parts. -/
theorem agree_append_iff {a b c : QueryResult} {source otherSource : String}
    (hab : Agree a source b source) :
    Agree (a.append b) source c otherSource ↔
      Agree a source c otherSource ∧ Agree b source c otherSource := by
  constructor
  · intro h
    constructor
    · intro var text otherText ha hc
      have hmem : var ∈ a.vars := (value_isSome_iff source).mp (Option.isSome_of_eq_some ha)
      exact h var text otherText ((value_append_left hmem).trans ha) hc
    · intro var text otherText hb hc
      by_cases hmem : var ∈ a.vars
      · obtain ⟨left, ha⟩ :=
          Option.isSome_iff_exists.mp ((value_isSome_iff source).mpr hmem)
        have hleft := h var left otherText ((value_append_left hmem).trans ha) hc
        rw [← hleft, hab var left text ha hb]
      · exact h var text otherText ((value_append_right hmem).trans hb) hc
  · rintro ⟨ha, hb⟩ var text otherText htext hc
    by_cases hmem : var ∈ a.vars
    · exact ha var text otherText ((value_append_left hmem).symm.trans htext) hc
    · exact hb var text otherText ((value_append_right hmem).symm.trans htext) hc

end WeggliEnhance.QueryResults
