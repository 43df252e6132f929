import WeggliEnhance.PositiveCandidates

/-!
# Where negations look

A `not:` statement is meant to look between its neighbours: behind the last
recorded capture allocated before it and in front of the first one allocated
after it. The builder stores the index of the former, and the engine looks
for the latter in the slot that follows. When that slot holds a block, which
is never recorded, the upper bound is lost.
-/

namespace WeggliEnhance.NegationWindow

open SourceText SyntaxTree QueryText ThirdParty QueryTrees QueryResults QueryEngine CompoundJoin
  Memoization PatternBuilder BuilderEmission BuilderSpecification QueryTreeConstruction
  CaptureNumbering PositiveCandidates FallibleState

/-- The nearest recorded capture allocated before a site. -/
def NearestBefore (captures : List Capture) (site i : ℕ) : Prop :=
  i < site ∧ recordedAt captures i = true ∧ ∀ j, i < j → j < site → recordedAt captures j = false

/-- The nearest recorded capture allocated from a site on. -/
def NearestAfter (captures : List Capture) (site i : ℕ) : Prop :=
  site ≤ i ∧ recordedAt captures i = true ∧ ∀ j, site ≤ j → j < i → recordedAt captures j = false

/-- A match starts between the neighbours of a site in a candidate. A missing
neighbour sets no bound. -/
structure InWindow (tree : QueryTree) (site : ℕ) (candidate n : QueryResult) : Prop where
  /-- Not before the end of the neighbour in front. -/
  lower : ∀ i c, NearestBefore tree.captures site i →
    candidate.getCaptureResult tree.id i = some c → c.range.stop ≤ n.startOffset
  /-- Not after the start of the neighbour behind. -/
  upper : ∀ i c, NearestAfter tree.captures site i →
    candidate.getCaptureResult tree.id i = some c → n.startOffset ≤ c.range.start

/-- No block separates a site from its neighbours, unless nothing is recorded
behind it. -/
def Undisturbed (captures : List Capture) (site : ℕ) : Prop :=
  (∀ i, site ≤ i → recordedAt captures i = false) ∨
    recordedAt captures site = true ∧ (site = 0 ∨ recordedAt captures (site - 1) = true)

section Slots

theorem lastRecorded_append (captures : List Capture) (capture : Capture) :
    lastRecorded (captures ++ [capture]) =
      if capture.isRecorded then (captures.length : ℤ) else lastRecorded captures := by
  unfold lastRecorded
  rw [List.zipIdx_append, List.reverse_append, List.zipIdx_singleton, List.reverse_singleton,
    List.singleton_append, List.find?_cons]
  by_cases h : capture.isRecorded = true <;> simp [h]

theorem recordedAt_append {captures : List Capture} {capture : Capture} {i : ℕ} :
    recordedAt (captures ++ [capture]) i =
      if i = captures.length then capture.isRecorded else recordedAt captures i := by
  unfold recordedAt
  rcases Nat.lt_trichotomy i captures.length with hlt | rfl | hgt
  · rw [List.getElem?_append_left hlt, if_neg (by omega)]
  · rw [List.getElem?_concat_length, if_pos rfl, Option.any_some]
  · rw [if_neg (by omega), List.getElem?_eq_none (by simp; omega),
      List.getElem?_eq_none (by omega)]

/-- The slot after the last recorded capture: only blocks follow it, and it is
the first slot or a recorded capture stands in front of it. -/
theorem lastRecorded_spec (captures : List Capture) :
    ∃ next : ℕ, lastRecorded captures = (next : ℤ) - 1 ∧ next ≤ captures.length ∧
      (∀ j, next ≤ j → recordedAt captures j = false) ∧
      (next = 0 ∨ recordedAt captures (next - 1) = true) := by
  induction captures using List.reverseRecOn with
  | nil => exact ⟨0, rfl, le_rfl, fun j _ => rfl, .inl rfl⟩
  | append_singleton captures capture ih =>
    obtain ⟨next, hlast, hle, hnone, hfront⟩ := ih
    rw [lastRecorded_append, List.length_append, List.length_singleton]
    by_cases hrecorded : capture.isRecorded = true
    · rw [if_pos hrecorded]
      refine ⟨captures.length + 1, by omega, le_rfl, ?_, .inr ?_⟩
      · intro j hj
        rw [recordedAt_append, if_neg (by omega)]
        exact hnone j (by omega)
      · rw [Nat.add_sub_cancel, recordedAt_append, if_pos rfl, hrecorded]
    · rw [if_neg hrecorded]
      refine ⟨next, hlast, by omega, ?_, ?_⟩
      · intro j hj
        rw [recordedAt_append]
        split_ifs
        · simpa using hrecorded
        · exact hnone j hj
      · refine hfront.imp_right ?_
        intro hbefore
        have hlt := lt_of_recordedAt hbefore
        rw [recordedAt_append, if_neg (by omega), hbefore]

theorem recordedAt_take {captures : List Capture} {site i : ℕ} :
    recordedAt (captures.take site) i = if i < site then recordedAt captures i else false := by
  unfold recordedAt
  rw [List.getElem?_take]
  split_ifs <;> rfl

/-- The slot after the last recorded capture in front of a site. -/
structure NextSlot (captures : List Capture) (site next : ℕ) : Prop where
  /-- The slot does not lie behind the site. -/
  le : next ≤ site
  /-- Only blocks stand between the slot and the site. -/
  blocks : ∀ j, next ≤ j → j < site → recordedAt captures j = false
  /-- A recorded capture stands in front of the slot, unless it is the first. -/
  front : next = 0 ∨ recordedAt captures (next - 1) = true

/-- A placed negation knows the slot. -/
theorem exists_nextSlot {captures : List Capture} {negation : NegativeQuery} {site : ℕ}
    (h : Placed captures negation site) :
    ∃ next : ℕ, negation.previousCaptureIndex = (next : ℤ) - 1 ∧ NextSlot captures site next := by
  obtain ⟨hsite, hprevious⟩ := h
  obtain ⟨next, hlast, hle, hnone, hfront⟩ := lastRecorded_spec (captures.take site)
  rw [List.length_take_of_le hsite] at hle
  refine ⟨next, hprevious.trans hlast, hle, ?_, ?_⟩
  · intro j hj hlt
    have hfalse := hnone j hj
    rwa [recordedAt_take, if_pos hlt] at hfalse
  · refine hfront.imp_right ?_
    intro hbefore
    rw [recordedAt_take] at hbefore
    split_ifs at hbefore
    exact hbefore

section Neighbours

variable {captures : List Capture} {site next : ℕ} (slot : NextSlot captures site next)

include slot

/-- The neighbour in front stands right before the slot. -/
theorem nearestBefore_iff {i : ℕ} : NearestBefore captures site i ↔ i + 1 = next := by
  have hle := slot.le
  constructor
  · rintro ⟨hlt, hi, hbetween⟩
    rcases Nat.lt_trichotomy (i + 1) next with hsmall | heq | hlarge
    · have hfalse := hbetween (next - 1) (by omega) (by omega)
      rcases slot.front with hzero | htrue
      · omega
      · rw [htrue] at hfalse
        cases hfalse
    · exact heq
    · rw [slot.blocks i (by omega) hlt] at hi
      cases hi
  · rintro rfl
    have hrecorded : recordedAt captures i = true := by simpa using slot.front
    exact ⟨by omega, hrecorded, fun j hj hlt => slot.blocks j (by omega) hlt⟩

/-- A recorded capture in the slot is the neighbour behind. -/
theorem nearestAfter_iff (hnext : recordedAt captures next = true) {i : ℕ} :
    NearestAfter captures site i ↔ i = next := by
  have hle := slot.le
  have hsite : next = site := by
    by_contra hne
    rw [slot.blocks next le_rfl (by omega)] at hnext
    cases hnext
  subst hsite
  constructor
  · rintro ⟨hge, -, hbetween⟩
    by_contra hne
    rw [hbetween next le_rfl (by omega)] at hnext
    cases hnext
  · rintro rfl
    exact ⟨le_rfl, hnext, fun j hj hlt => by omega⟩

/-- A site is undisturbed when the slot is recorded or nothing behind is. -/
theorem undisturbed_iff :
    Undisturbed captures site ↔
      (∀ i, site ≤ i → recordedAt captures i = false) ∨ recordedAt captures next = true := by
  have hle := slot.le
  refine or_congr_right ?_
  constructor
  · rintro ⟨hsite, hfront⟩
    have heq : next = site := by
      by_contra hne
      rcases hfront with hzero | hbefore
      · omega
      · rw [slot.blocks (site - 1) (by omega) (by omega)] at hbefore
        cases hbefore
    rwa [heq]
  · intro hnext
    have heq : next = site := by
      by_contra hne
      rw [slot.blocks next le_rfl (by omega)] at hnext
      cases hnext
    subst heq
    exact ⟨hnext, slot.front⟩

end Neighbours

end Slots

section Filter

/-- What the test of the negation filter says. -/
theorem negationApplies_iff {queryId : ℕ} {previous : ℤ} {source : String}
    {candidate n : QueryResult} :
    negationApplies queryId previous source candidate n = true ↔
      Agree n source candidate source ∧
      (∀ c, candidate.getCaptureResult queryId (asU32 previous) = some c →
        c.range.stop ≤ n.startOffset) ∧
      ∀ c, candidate.getCaptureResult queryId (asU32 (previous + 1)) = some c →
        n.startOffset ≤ c.range.start := by
  have hmerge : (n.merge candidate source false).isNone = true ↔
      ¬Agree n source candidate source := by
    rw [← conflicts_eq_false_iff, QueryResult.merge]
    cases conflicts n source candidate source <;> simp
  unfold negationApplies
  split_ifs with hnone hlow hhigh
  · simp [hmerge.mp hnone]
  · obtain ⟨c, hc, hlt⟩ := (Option.any_eq_true _ _).mp hlow
    have hstart := of_decide_eq_true hlt
    simp only [false_iff]
    rintro ⟨-, hlower, -⟩
    have hle := hlower c hc
    omega
  · obtain ⟨c, hc, hlt⟩ := (Option.any_eq_true _ _).mp hhigh
    have hstart := of_decide_eq_true hlt
    simp only [false_iff]
    rintro ⟨-, -, hupper⟩
    have hle := hupper c hc
    omega
  · refine ⟨fun _ => ⟨Classical.not_not.mp (mt hmerge.mpr hnone), ?_, ?_⟩, fun _ => rfl⟩
    · intro c hc
      rw [hc] at hlow
      simpa using hlow
    · intro c hc
      rw [hc] at hhigh
      simpa using hhigh

/-- Once the filter returns, a single candidate is discarded exactly if some
match of a negative query rules it out. -/
theorem discarded_iff {source : String} {run : QueryTree → Node → Except Panic (List QueryResult)}
    {tree : QueryTree} {root : Node} {candidate : QueryResult} {kept : List QueryResult}
    (hfilter : filterNegations source run tree root [candidate] = .ok kept) {sites : List ℕ}
    (hsites : tree.negations.length ≤ sites.length) :
    kept = [] ↔ ∃ entry ∈ tree.negations.zip sites, ∃ found, run entry.1.qt root = .ok found ∧
      ∃ n ∈ found,
        negationApplies tree.id entry.1.previousCaptureIndex source candidate n = true := by
  have htest : ∀ negation : NegativeQuery, (do
      let negativeResults ← run negation.qt root
      pure (negativeResults.any
        (negationApplies tree.id negation.previousCaptureIndex source candidate))) =
        (.ok true : Except Panic Bool) ↔
      ∃ found, run negation.qt root = .ok found ∧ ∃ n ∈ found,
        negationApplies tree.id negation.previousCaptureIndex source candidate n = true := by
    intro negation
    cases run negation.qt root with
    | error panic => simp [bind, Except.bind]
    | ok found => simp [bind, Except.bind, pure, Except.pure]
  rw [filterNegations, filterNegations] at hfilter
  obtain ⟨matched, hmatched, hrest⟩ := exists_of_bind_eq_ok hfilter
  have hkept : kept = [] ↔ matched = true := by
    cases hrest
    cases matched <;> simp
  rw [hkept, anyM_eq_ok hmatched]
  simp only [htest]
  constructor
  · rintro ⟨negation, hnegation, h⟩
    rw [← List.map_fst_zip hsites] at hnegation
    obtain ⟨entry, hentry, rfl⟩ := List.mem_map.mp hnegation
    exact ⟨entry, hentry, h⟩
  · rintro ⟨entry, hentry, h⟩
    exact ⟨entry.1, (List.of_mem_zip hentry).1, h⟩

end Filter

section Bounds

variable {tree : QueryTree} {candidate n : QueryResult} {site next : ℕ} {source : String}

theorem asU32_of_lt {i : ℕ} (h : i < 2 ^ 32) : asU32 i = i := by
  unfold asU32
  omega

/-- A capture that is not recorded has no entry. -/
theorem getCaptureResult_eq_none (hcandidate : Candidate tree candidate) {i : ℕ}
    (h : recordedAt tree.captures i = false) : candidate.getCaptureResult tree.id i = none := by
  rw [← Option.not_isSome_iff_eq_none, hcandidate.recorded, h]
  exact Bool.false_ne_true

/-- The stored index gives the lower bound of the window. -/
theorem lower_iff (hcandidate : Candidate tree candidate) (hfit : tree.captures.length < 2 ^ 32)
    (slot : NextSlot tree.captures site next) (hsite : site ≤ tree.captures.length) :
    (∀ c, candidate.getCaptureResult tree.id (asU32 ((next : ℤ) - 1)) = some c →
        c.range.stop ≤ n.startOffset) ↔
      ∀ i c, NearestBefore tree.captures site i → candidate.getCaptureResult tree.id i = some c →
        c.range.stop ≤ n.startOffset := by
  have hle := slot.le
  simp only [nearestBefore_iff slot]
  cases next with
  | zero =>
    have hwrap : asU32 (((0 : ℕ) : ℤ) - 1) = 2 ^ 32 - 1 := by decide
    have hout : recordedAt tree.captures (2 ^ 32 - 1) = false := by
      rw [recordedAt, List.getElem?_eq_none (by omega)]
      rfl
    rw [hwrap, getCaptureResult_eq_none hcandidate hout]
    constructor
    · intro _ i c hi
      omega
    · intro _ c hc
      cases hc
  | succ p =>
    have hindex : asU32 (((p + 1 : ℕ) : ℤ) - 1) = p := by
      unfold asU32
      omega
    rw [hindex]
    constructor
    · intro h i c hi
      have hip : i = p := by omega
      rw [hip]
      exact h c
    · intro h c
      exact h p c rfl

/-- At an undisturbed site the slot gives the upper bound of the window. -/
theorem upper_iff (hcandidate : Candidate tree candidate)
    (slot : NextSlot tree.captures site next) (hundisturbed : Undisturbed tree.captures site) :
    (∀ c, candidate.getCaptureResult tree.id next = some c → n.startOffset ≤ c.range.start) ↔
      ∀ i c, NearestAfter tree.captures site i → candidate.getCaptureResult tree.id i = some c →
        n.startOffset ≤ c.range.start := by
  by_cases hnext : recordedAt tree.captures next = true
  · simp only [nearestAfter_iff slot hnext]
    constructor
    · rintro h i c rfl
      exact h c
    · intro h c
      exact h next c rfl
  · have hnone : ∀ i, site ≤ i → recordedAt tree.captures i = false :=
      ((undisturbed_iff slot).mp hundisturbed).resolve_right hnext
    rw [getCaptureResult_eq_none hcandidate (by simpa using hnext)]
    constructor
    · rintro - i c ⟨hge, hrecorded, -⟩
      rw [hnone i hge] at hrecorded
      cases hrecorded
    · intro _ c hc
      cases hc

/-- At an undisturbed site the filter enforces the window. -/
theorem negationApplies_iff_inWindow (hcandidate : Candidate tree candidate)
    (hfit : tree.captures.length < 2 ^ 32) {negation : NegativeQuery}
    (hplaced : Placed tree.captures negation site)
    (hundisturbed : Undisturbed tree.captures site) :
    negationApplies tree.id negation.previousCaptureIndex source candidate n = true ↔
      Agree n source candidate source ∧ InWindow tree site candidate n := by
  obtain ⟨next, hprevious, slot⟩ := exists_nextSlot hplaced
  have hle := slot.le
  have hsite := hplaced.1
  rw [negationApplies_iff, hprevious, sub_add_cancel, asU32_of_lt (by omega),
    lower_iff hcandidate hfit slot hsite, upper_iff hcandidate slot hundisturbed]
  exact and_congr_right fun _ => ⟨fun h => ⟨h.1, h.2⟩, fun h => ⟨h.lower, h.upper⟩⟩

end Bounds

section Separation

/-- A candidate whose entries lie apart, in the order of their captures. -/
def spacedCandidate (tree : QueryTree) : QueryResult where
  captures := ((List.range tree.captures.length).filter (recordedAt tree.captures)).map fun i =>
    ⟨⟨3 * i, 3 * i + 2⟩, tree.id, i⟩
  vars := ∅
  function := ⟨0, 0⟩
  vars_lt := lookup_empty_lt

/-- A match without variables that starts at an offset. -/
def strayMatch (offset : ℕ) : QueryResult where
  captures := []
  vars := ∅
  function := ⟨offset, offset⟩
  vars_lt := @nothing_recorded

variable {externals : Externals} {constraints : RegexMap} {tree : QueryTree}

theorem agree_strayMatch (offset : ℕ) (candidate : QueryResult) (source : String) :
    Agree (strayMatch offset) source candidate source := by
  intro var text otherText htext
  have hmem := (value_isSome_iff source).mp (Option.isSome_of_eq_some htext)
  exact absurd hmem Finmap.notMem_empty

theorem range_spacedCandidate {i : ℕ} {c : CaptureResult}
    (h : (spacedCandidate tree).getCaptureResult tree.id i = some c) :
    c.range.start = 3 * i ∧ c.range.stop = 3 * i + 2 := by
  obtain ⟨hmem, rfl, -⟩ := mem_of_getCaptureResult h
  obtain ⟨j, -, rfl⟩ := List.mem_map.mp hmem
  exact ⟨rfl, rfl⟩

/-- The spaced entries make a candidate. -/
theorem candidate_spacedCandidate (hwell : WellFormed externals constraints tree) :
    Candidate tree (spacedCandidate tree) where
  recorded i := by
    rw [getCaptureResult_isSome_iff]
    constructor
    · rintro ⟨c, hc, rfl, -⟩
      obtain ⟨j, hj, rfl⟩ := List.mem_map.mp hc
      exact (List.mem_filter.mp hj).2
    · intro hrecorded
      have hrange : i ∈ List.range tree.captures.length :=
        List.mem_range.mpr (lt_of_recordedAt hrecorded)
      exact ⟨_, List.mem_map_of_mem (List.mem_filter.mpr ⟨hrange, hrecorded⟩), rfl, rfl⟩
  ordered := by
    refine (pairwise_pattern_captures hwell.layout hwell.layout).imp ?_
    intro p q hpq i hi j hj c d hc hd
    have hlt := hpq i hi j hj
    have hstop := (range_spacedCandidate hc).2
    have hstart := (range_spacedCandidate hd).1
    omega

/-- A recorded capture behind a site has a nearest one in front of it. -/
theorem exists_nearestAfter {captures : List Capture} {site i : ℕ}
    (hi : recordedAt captures i = true) (hle : site ≤ i) :
    ∃ q ≤ i, NearestAfter captures site q := by
  have hexists : ∃ j, site ≤ j ∧ recordedAt captures j = true := ⟨i, hle, hi⟩
  obtain ⟨hge, hrecorded⟩ := Nat.find_spec hexists
  refine ⟨Nat.find hexists, Nat.find_min' hexists ⟨hle, hi⟩, hge, hrecorded, ?_⟩
  intro j hj hlt
  have hnot := Nat.find_min hexists hlt
  simpa [hj] using hnot

/-- A recorded capture before a site has a nearest one behind it. -/
theorem exists_nearestBefore {captures : List Capture} {site i : ℕ}
    (hi : recordedAt captures i = true) (hlt : i < site) :
    ∃ p, i ≤ p ∧ NearestBefore captures site p := by
  have hle : i ≤ site - 1 := by omega
  have hbound := Nat.findGreatest_le (P := fun j => recordedAt captures j = true) (site - 1)
  have hspec := Nat.findGreatest_spec (P := fun j => recordedAt captures j = true) hle hi
  refine ⟨Nat.findGreatest (fun j => recordedAt captures j = true) (site - 1),
    Nat.le_findGreatest hle hi, by omega, hspec, ?_⟩
  intro j hj hjsite
  have hnot := Nat.findGreatest_is_greatest hj (by omega)
  simpa using hnot

/-- A match that starts inside an entry lies in no window. -/
theorem not_inWindow_strayMatch (hwell : WellFormed externals constraints tree) {i : ℕ}
    (hi : recordedAt tree.captures i = true) (site : ℕ) :
    ¬InWindow tree site (spacedCandidate tree) (strayMatch (3 * i + 1)) := by
  intro hwindow
  have hentry : ∀ j, recordedAt tree.captures j = true →
      ∃ c, (spacedCandidate tree).getCaptureResult tree.id j = some c :=
    fun j hj => Option.isSome_iff_exists.mp
      (((candidate_spacedCandidate hwell).recorded j).mpr hj)
  by_cases hsite : site ≤ i
  · obtain ⟨q, hq, hnearest⟩ := exists_nearestAfter hi hsite
    obtain ⟨c, hc⟩ := hentry q hnearest.2.1
    have hupper : 3 * i + 1 ≤ c.range.start := hwindow.upper q c hnearest hc
    have hstart := (range_spacedCandidate hc).1
    omega
  · obtain ⟨p, hp, hnearest⟩ := exists_nearestBefore hi (Nat.lt_of_not_le hsite)
    obtain ⟨c, hc⟩ := hentry p hnearest.2.1
    have hlower : c.range.stop ≤ 3 * i + 1 := hwindow.lower p c hnearest hc
    have hstop := (range_spacedCandidate hc).2
    omega

/-- At a disturbed site the filter has no upper bound: a match inside an entry
behind the site rules the candidate out. -/
theorem negationApplies_of_disturbed (hwell : WellFormed externals constraints tree)
    (hfit : tree.captures.length < 2 ^ 32) {negation : NegativeQuery} {site i : ℕ}
    (hplaced : Placed tree.captures negation site) (hdisturbed : ¬Undisturbed tree.captures site)
    (hi : site ≤ i) (source : String) :
    negationApplies tree.id negation.previousCaptureIndex source (spacedCandidate tree)
      (strayMatch (3 * i + 1)) = true := by
  obtain ⟨next, hprevious, slot⟩ := exists_nextSlot hplaced
  have hcandidate := candidate_spacedCandidate hwell
  have hle := slot.le
  have hsite := hplaced.1
  rw [undisturbed_iff slot, not_or, Bool.not_eq_true] at hdisturbed
  rw [negationApplies_iff, hprevious, sub_add_cancel, asU32_of_lt (by omega),
    lower_iff hcandidate hfit slot hsite, getCaptureResult_eq_none hcandidate hdisturbed.2]
  refine ⟨agree_strayMatch _ _ source, ?_, fun c hc => by cases hc⟩
  intro p c hnearest hc
  have hlt := hnearest.1
  have hstop := (range_spacedCandidate hc).2
  have hoffset : (strayMatch (3 * i + 1)).startOffset = 3 * i + 1 := rfl
  omega

end Separation

/-- The negation filter looks between the neighbours of each site: it discards
a candidate exactly if some match of a negative query on the same root agrees
with it and starts in the window of that negation. The matches are those that
running the negative query returns, whatever they are. -/
def EnforcesWindows (tree : QueryTree) (sites : List ℕ) : Prop :=
  ∀ (source : String) (root : Node) (run : QueryTree → Node → Except Panic (List QueryResult))
    (candidate : QueryResult) (kept : List QueryResult), Candidate tree candidate →
    filterNegations source run tree root [candidate] = .ok kept →
    (kept = [] ↔ ∃ entry ∈ tree.negations.zip sites, ∃ found, run entry.1.qt root = .ok found ∧
      ∃ n ∈ found, Agree n source candidate source ∧ InWindow tree entry.2 candidate n)

section Windows

variable {externals : Externals} {constraints : RegexMap} {tree : QueryTree} {sites : List ℕ}

/-- Undisturbed sites suffice. -/
theorem enforcesWindows_of_undisturbed (hcaptures : tree.captures.length < 2 ^ 32)
    (hplaced : List.Forall₂ (Placed tree.captures) tree.negations sites)
    (hundisturbed : ∀ site ∈ sites, Undisturbed tree.captures site) :
    EnforcesWindows tree sites := by
  intro source root run candidate kept hcandidate hfilter
  obtain ⟨hlength, hzip⟩ := List.forall₂_iff_zip.mp hplaced
  have happlies : ∀ entry ∈ tree.negations.zip sites, ∀ n,
      negationApplies tree.id entry.1.previousCaptureIndex source candidate n = true ↔
        Agree n source candidate source ∧ InWindow tree entry.2 candidate n := by
    rintro ⟨negation, site⟩ hentry n
    exact negationApplies_iff_inWindow hcandidate hcaptures (hzip hentry)
      (hundisturbed site (List.of_mem_zip hentry).2)
  rw [discarded_iff hfilter hlength.le]
  constructor
  · rintro ⟨entry, hentry, found, hfound, n, hn, h⟩
    exact ⟨entry, hentry, found, hfound, n, hn, (happlies entry hentry n).mp h⟩
  · rintro ⟨entry, hentry, found, hfound, n, hn, h⟩
    exact ⟨entry, hentry, found, hfound, n, hn, (happlies entry hentry n).mpr h⟩

/-- Runs that cannot panic let the filter return. -/
theorem exists_filterNegations (source : String) (found : List QueryResult) (tree : QueryTree)
    (root : Node) (candidate : QueryResult) :
    ∃ kept, filterNegations source (fun _ _ => (.ok found : Except Panic (List QueryResult)))
      tree root [candidate] = .ok kept := by
  have htest : tree.negations.anyM (fun negation => do
      let negativeResults ← (.ok found : Except Panic (List QueryResult))
      pure (negativeResults.any
        (negationApplies tree.id negation.previousCaptureIndex source candidate))) = .ok _ :=
    anyM_ok _ tree.negations
  rw [filterNegations, htest]
  exact ⟨_, rfl⟩

/-- One disturbed site is enough to discard a candidate without cause. -/
theorem undisturbed_of_enforcesWindows (hwell : WellFormed externals constraints tree)
    (hcaptures : tree.captures.length < 2 ^ 32)
    (hplaced : List.Forall₂ (Placed tree.captures) tree.negations sites)
    (hwindows : EnforcesWindows tree sites) {site : ℕ} (hsite : site ∈ sites) :
    Undisturbed tree.captures site := by
  by_contra hdisturbed
  obtain ⟨hlength, hzip⟩ := List.forall₂_iff_zip.mp hplaced
  rw [← List.map_snd_zip hlength.ge] at hsite
  obtain ⟨entry, hentry, rfl⟩ := List.mem_map.mp hsite
  obtain ⟨i, hi, hrecorded⟩ : ∃ i, entry.2 ≤ i ∧ recordedAt tree.captures i = true := by
    by_contra hnone
    refine hdisturbed (.inl ?_)
    intro i hi
    by_contra hi'
    exact hnone ⟨i, hi, by simpa using hi'⟩
  have happlies := negationApplies_of_disturbed hwell hcaptures (hzip hentry) hdisturbed hi ""
  obtain ⟨kept, hfilter⟩ := exists_filterNegations "" [strayMatch (3 * i + 1)] tree (token 0 "" 0 0)
    (spacedCandidate tree)
  have hdiscarded := (discarded_iff hfilter hlength.le).mpr
    ⟨entry, hentry, _, rfl, _, List.mem_singleton_self _, happlies⟩
  obtain ⟨other, -, found, hfound, n, hn, -, hinside⟩ :=
    (hwindows _ _ _ _ _ (candidate_spacedCandidate hwell) hfilter).mp hdiscarded
  cases hfound
  rw [List.mem_singleton.mp hn] at hinside
  exact not_inWindow_strayMatch hwell hrecorded other.2 hinside

end Windows

/-- Negations look between their neighbours exactly when no block stands next
to them on the way to a recorded capture behind them. For every text that
`_build_query_tree` generates and tree-sitter compiles, the negation filter
enforces the windows of all negations if and only if all their sites are
undisturbed. Whatever the cache holds by then, the positive part of the query
yields candidates in the sense of the filter. -/
theorem enforcesWindows_iff {externals : Externals} (hreports : externals.ReportsCaptures)
    (hfit : externals.CapturesFit) {query : String} {fuel id : ℕ} {up : Option Node} {node : Node}
    {multiPattern strict : Bool} {constraints : RegexMap}
    (hheight : node.height ≤ (if multiPattern then fuel + 1 else fuel)) {built : BuiltText}
    (hbuilt : buildText (buildFuel externals fuel) up node multiPattern strict
      (.new query id constraints) = .ok built)
    (haccepted : externals.queryError built.text = none) :
    (EnforcesWindows (treeOf id built) built.builder.negationSites ↔
      ∀ site ∈ built.builder.negationSites, Undisturbed built.builder.captures site) ∧
    ∀ (source : String) (root : Node) (cache : Table CacheKey (List QueryResult))
      (collected : List (List QueryResult)), Sound KeyIds cache →
      (runFrom (patternResults externals source (cachedRun externals source) (treeOf id built) root)
        cache).1 = .ok collected →
      ∀ candidate ∈ mergePatterns source collected, Candidate (treeOf id built) candidate := by
  have hcomplete := outcome_ok (complete_buildText
    (buildSpec_buildFuel externals query fuel) up hheight strict id constraints) hbuilt
  have hlayout : TextLayout built.builder.captures 0 built.text := hcomplete.layout
  have hfinished := finished_treeOf hcomplete haccepted
  have hwell := hfinished.wellFormed (treeOf id built) (mem_trees_self _)
  obtain ⟨tags, hemits⟩ := hcomplete.emits
  have hplaced := (hemits.consistent (consistent_new query id constraints)).placed
  have hcaptures : (treeOf id built).captures.length < 2 ^ 32 := by
    have hcount := hfit built.text haccepted
    rwa [Query.captureNames, eraseDups_captureNames hlayout, List.length_map,
      List.length_range] at hcount
  refine ⟨⟨?_, ?_⟩, ?_⟩
  · intro hwindows site hsite
    exact undisturbed_of_enforcesWindows hwell hcaptures hplaced hwindows hsite
  · intro hundisturbed
    exact enforcesWindows_of_undisturbed hcaptures hplaced hundisturbed
  · intro source root cache collected hcache hrun candidate hmem
    exact candidate_of_mem_mergePatterns hreports hfinished.wellFormed hcache hrun hmem

/-- The block `{c;}` at an offset. -/
def innerBlock (id start : ℕ) : Node :=
  rule id "compound_statement" start (start + 4)
    [token (id + 1) "\x7b" start (start + 1), nameStatement (id + 2) (start + 1) (start + 2),
     token (id + 5) "\x7d" (start + 3) (start + 4)]

/-- The pattern `{a;not:b;{c;}d;}`: a block follows the negation. -/
def blockedPattern : Node :=
  rule 1 "compound_statement" 0 16
    [token 2 "\x7b" 0 1, nameStatement 3 1 2,
     rule 6 "labeled_statement" 3 9
      [rule 7 "statement_identifier" 3 6 [], token 8 ":" 6 7, nameStatement 9 7 8],
     innerBlock 12 9, nameStatement 18 13 14, token 21 "\x7d" 15 16]

/-- The text of that pattern. -/
def blockedText : String := "\x7ba;not:b;\x7bc;\x7dd;\x7d"

/-- The text generated for the block of that pattern. -/
def blockedBuilt : Except BuildError BuiltText :=
  buildText (buildFuel sampleExternals 3)
    (some (rule 0 "translation_unit" 0 16 [blockedPattern])) blockedPattern true false
    (.new blockedText 1 ∅)

/-- The hypotheses are met by the block of that pattern. -/
theorem enforcesWindows_iff_blocked :
    ∃ built, blockedBuilt = .ok built ∧ built.builder.negationSites = [1] ∧
      ((EnforcesWindows (treeOf 1 built) built.builder.negationSites ↔
        ∀ site ∈ built.builder.negationSites, Undisturbed built.builder.captures site) ∧
      ∀ (source : String) (root : Node) (cache : Table CacheKey (List QueryResult))
        (collected : List (List QueryResult)), Sound KeyIds cache →
        (runFrom (patternResults sampleExternals source (cachedRun sampleExternals source)
          (treeOf 1 built) root) cache).1 = .ok collected →
        ∀ candidate ∈ mergePatterns source collected, Candidate (treeOf 1 built) candidate) := by
  have hshape : blockedBuilt.map (fun built => (built.builder.negationSites,
      sampleExternals.queryError built.text)) = .ok ([1], none) := by decide +kernel
  obtain ⟨built, hbuilt, hfacts⟩ := exists_of_map_eq_ok hshape
  rw [Prod.mk.injEq] at hfacts
  exact ⟨built, hbuilt, hfacts.1, enforcesWindows_iff sampleExternals_reportsMatches.captures
    sampleExternals_capturesFit (by decide) hbuilt hfacts.2⟩

/-- The block of a program in which `b;` comes last. -/
def blockedBody : Node :=
  rule 1 "compound_statement" 0 12
    [token 2 "\x7b" 0 1, nameStatement 3 1 2, innerBlock 6 3, nameStatement 12 7 8,
     nameStatement 15 9 10, token 18 "\x7d" 11 12]

/-- The text of that block. -/
def blockedSource : String := "\x7ba;\x7bc;\x7dd;b;\x7d"

/-- The candidate that the program has: `a`, the `c` of a block, and `d`. -/
def blockedCandidate : QueryResult where
  captures := [⟨⟨1, 2⟩, 1, 0⟩, ⟨⟨4, 5⟩, 3, 0⟩, ⟨⟨7, 8⟩, 1, 2⟩]
  vars := ∅
  function := ⟨1, 2⟩
  vars_lt := lookup_empty_lt

/-- The only match of the negation, behind `d`. -/
def blockedMatch : QueryResult where
  captures := [⟨⟨9, 10⟩, 2, 0⟩, ⟨⟨9, 10⟩, 2, 1⟩]
  vars := ∅
  function := ⟨9, 10⟩
  vars_lt := lookup_empty_lt

/-- In that program the only match of the negation lies behind `d`, and still
the candidate is discarded. -/
theorem block_hides_bound :
    ∃ built, blockedBuilt = .ok built ∧ built.builder.negationSites = [1] ∧
      (runFrom (patternResults sampleExternals blockedSource
        (cachedRun sampleExternals blockedSource) (treeOf 1 built) blockedBody) []).1.map
          (mergePatterns blockedSource) = .ok [blockedCandidate, blockedCandidate] ∧
      (built.builder.negations.map fun negation =>
        (runFrom (matchInternal sampleExternals blockedSource negation.qt blockedBody) []).1) =
          [.ok [blockedMatch]] ∧
      ¬InWindow (treeOf 1 built) 1 blockedCandidate blockedMatch ∧
      (runFrom (matchInternal sampleExternals blockedSource (treeOf 1 built) blockedBody) []).1 =
        .ok [] := by
  have hshape : blockedBuilt.map (fun built => (built.builder.negationSites,
      (List.range 3).map (recordedAt built.builder.captures))) =
        .ok ([1], [true, false, true]) := by decide +kernel
  have hpositive : blockedBuilt.map (fun built =>
      (runFrom (patternResults sampleExternals blockedSource
        (cachedRun sampleExternals blockedSource) (treeOf 1 built) blockedBody) []).1.map
          (mergePatterns blockedSource)) = .ok (.ok [blockedCandidate, blockedCandidate]) := by
    decide +kernel
  have hnegative : blockedBuilt.map (fun built => built.builder.negations.map fun negation =>
      (runFrom (matchInternal sampleExternals blockedSource negation.qt blockedBody) []).1) =
        .ok [.ok [blockedMatch]] := by decide +kernel
  have hresult : blockedBuilt.map (fun built => (runFrom (matchInternal sampleExternals
      blockedSource (treeOf 1 built) blockedBody) []).1) = .ok (.ok []) := by decide +kernel
  obtain ⟨built, hbuilt, hsites⟩ := exists_of_map_eq_ok hshape
  rw [hbuilt] at hpositive hnegative hresult
  rw [Prod.mk.injEq] at hsites
  refine ⟨built, hbuilt, hsites.1, Except.ok.inj hpositive, Except.ok.inj hnegative, ?_,
    Except.ok.inj hresult⟩
  intro hwindow
  have hrecorded : recordedAt built.builder.captures 0 = true ∧
      recordedAt built.builder.captures 1 = false ∧
      recordedAt built.builder.captures 2 = true := by
    simpa [List.range_succ] using hsites.2
  have hnearest : NearestAfter built.builder.captures 1 2 := by
    refine ⟨by decide, hrecorded.2.2, ?_⟩
    intro j hj hlt
    have hone : j = 1 := by omega
    rw [hone]
    exact hrecorded.2.1
  have hupper := hwindow.upper 2 ⟨⟨7, 8⟩, 1, 2⟩ hnearest rfl
  exact absurd hupper (by decide)

end WeggliEnhance.NegationWindow
