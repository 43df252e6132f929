import WeggliEnhance.PatternBuilder
import WeggliEnhance.QueryEngine

/-!
# Regex constraints of a rule

`rules.rs`: every constraint is written `var=regex` or `var!=regex`, with or
without the dollar sign of the variable. The parser normalises the variable
and stores one constraint for each. The matching engine later asks the map
for the constraint of a variable, so of several constraints listed for one
variable only the last one is ever checked.
-/

namespace WeggliEnhance.RegexRules

open SourceText SyntaxTree ThirdParty QueryTrees QueryEngine PatternBuilder

/-- The ways a list of constraints can be rejected. -/
inductive RegexError where
  /-- An argument without an equals sign. -/
  | invalidArg (text : String)
  /-- An expression that does not compile. -/
  | invalidRegex (message : String)
  deriving DecidableEq

/-- `Regex::new`: compile an expression or report why it is invalid. -/
abbrev Compile := String → Except String Regex

/-- `text.splitn(2, '=')`: the text before the first equals sign, and the
text after it if there is one. -/
def splitArgument (text : String) : String × Option String :=
  match text.toList.span (· != '=') with
  | (var, []) => (String.ofList var, none)
  | (var, _ :: raw) => (String.ofList var, some (String.ofList raw))

/-- The variable with its dollar sign, which the user may leave out. -/
def normalize (var : String) : String := if startsWith var '$' then var else "$" ++ var

/-- `text.ends_with(last)` for a single character. -/
def endsWith (text : String) (last : Char) : Bool := text.toList.getLast? == some last

/-- The body of the loop of `process_regexes`. -/
def processRegex (compile : Compile) (result : RegexMap) (r : String) :
    Except RegexError RegexMap :=
  match splitArgument r with
  | (_, none) => .error (.invalidArg r)
  | (var, some raw) =>
    let normalized := normalize var
    let negative := endsWith normalized '!'
    let name := if negative then String.ofList normalized.toList.dropLast else normalized
    match compile raw with
    | .error message => .error (.invalidRegex message)
    | .ok regex => .ok (result.insert name (negative, regex))

/-- `process_regexes`. -/
def processRegexes (compile : Compile) (regexes : List String) : Except RegexError RegexMap :=
  regexes.foldlM (processRegex compile) ∅

/-- A constraint as a rule lists it. The text of a constraint determines the
variable it is about. -/
structure Entry (compile : Compile) where
  /-- Name of the variable without its dollar sign. -/
  name : String
  /-- Whether the dollar sign is written. -/
  dollar : Bool
  /-- Whether values must not match. -/
  negative : Bool
  /-- Text of the regular expression. -/
  raw : String
  /-- The compiled expression. -/
  regex : Regex
  /-- An equals sign would end the name. -/
  name_free : '=' ∉ name.toList
  /-- An exclamation mark would negate the constraint. -/
  name_plain : name.toList.getLast? ≠ some '!'
  /-- A dollar sign that is not written does not begin the name either. -/
  name_written : dollar = false → name.toList.head? ≠ some '$'
  /-- The expression is valid. -/
  compiles : compile raw = .ok regex

section Entries

variable {compile : Compile} {externals : Externals}

/-- The variable of the search pattern that a constraint is about. -/
def Entry.var (entry : Entry compile) : String := "$" ++ entry.name

/-- The argument `v=re`, `$v=re`, `v!=re` or `$v!=re`. -/
def Entry.text (entry : Entry compile) : String :=
  (if entry.dollar then "$" else "") ++ entry.name ++ (if entry.negative then "!=" else "=") ++
    entry.raw

/-- A value that the constraint rules out. -/
def Entry.Violated (externals : Externals) (entry : Entry compile) (value : String) : Prop :=
  externals.isMatch entry.regex value = some entry.negative

/-- A value that the constraint allows. -/
def Entry.Satisfied (externals : Externals) (entry : Entry compile) (value : String) : Prop :=
  externals.isMatch entry.regex value = some !entry.negative

/-- Everything before the equals sign of an argument. -/
def Entry.left (entry : Entry compile) : List Char :=
  (if entry.dollar then ['$'] else []) ++ entry.name.toList ++
    if entry.negative then ['!'] else []

theorem toList_text (entry : Entry compile) :
    entry.text.toList = entry.left ++ '=' :: entry.raw.toList := by
  unfold Entry.text Entry.left
  cases entry.dollar <;> cases entry.negative <;> simp

theorem left_free (entry : Entry compile) : '=' ∉ entry.left := by
  have hfree := entry.name_free
  unfold Entry.left
  cases entry.dollar <;> cases entry.negative <;> simp [hfree]

/-- An argument is split where it was put together. -/
theorem splitArgument_text (entry : Entry compile) :
    splitArgument entry.text = (String.ofList entry.left, some entry.raw) := by
  have hkept : ∀ c ∈ entry.left, (c != '=') = true := by
    intro c hc
    have hne : c ≠ '=' := fun heq => left_free entry (heq ▸ hc)
    simpa using hne
  have hspan : entry.text.toList.span (· != '=') = (entry.left, '=' :: entry.raw.toList) := by
    rw [toList_text, List.span_eq_takeWhile_dropWhile, List.takeWhile_append_of_pos hkept,
      List.dropWhile_append_of_pos hkept]
    simp
  rw [splitArgument, hspan]
  simp only [String.ofList_toList]

/-- Normalising restores the dollar sign. -/
theorem toList_normalize (entry : Entry compile) :
    (normalize (String.ofList entry.left)).toList =
      '$' :: entry.name.toList ++ if entry.negative then ['!'] else [] := by
  unfold normalize startsWith Entry.left
  cases hdollar : entry.dollar with
  | true => simp
  | false =>
    have hhead := entry.name_written hdollar
    have hplain : (entry.name.toList ++ if entry.negative then ['!'] else []).head? ≠ some '$' := by
      cases hname : entry.name.toList with
      | nil => cases entry.negative <;> simp
      | cons c chars =>
        rw [hname] at hhead
        simpa using hhead
    have htest : ((entry.name.toList ++ if entry.negative then ['!'] else []).head? ==
        some '$') = false := by simpa only [beq_eq_false_iff_ne] using hplain
    simp only [Bool.false_eq_true, if_false, List.nil_append, String.toList_ofList, htest,
      String.toList_append]
    rfl

/-- One constraint is stored under its variable. -/
theorem processRegex_text (regexes : RegexMap) (entry : Entry compile) :
    processRegex compile regexes entry.text =
      .ok (regexes.insert entry.var (entry.negative, entry.regex)) := by
  have hchars := toList_normalize entry
  have hplain := entry.name_plain
  have hvar : entry.var.toList = '$' :: entry.name.toList := by simp [Entry.var]
  have hnegative : endsWith (normalize (String.ofList entry.left)) '!' = entry.negative := by
    unfold endsWith
    rw [hchars]
    cases entry.negative with
    | true =>
      rw [if_pos rfl, List.getLast?_concat]
      rfl
    | false =>
      cases hname : entry.name.toList with
      | nil => simp
      | cons c chars =>
        rw [hname] at hplain
        simpa [List.getLast?_cons_cons] using hplain
  have hname : (if entry.negative then
      String.ofList (normalize (String.ofList entry.left)).toList.dropLast
      else normalize (String.ofList entry.left)) = entry.var := by
    apply String.toList_injective
    rw [hvar]
    cases hneg : entry.negative with
    | true =>
      rw [if_pos rfl, String.toList_ofList, hchars, hneg]
      simp only [if_true, List.dropLast_concat]
    | false =>
      rw [if_neg Bool.false_ne_true, hchars, hneg]
      simp
  rw [processRegex, splitArgument_text]
  simp only [hnegative, hname, entry.compiles]

/-- All constraints of the list stored in turn. -/
def storeAll (entries : List (Entry compile)) (regexes : RegexMap) : RegexMap :=
  entries.foldl (fun stored entry => stored.insert entry.var (entry.negative, entry.regex)) regexes

/-- A list of constraints is always accepted. -/
theorem processRegexes_text (entries : List (Entry compile)) :
    processRegexes compile (entries.map Entry.text) = .ok (storeAll entries ∅) := by
  unfold processRegexes storeAll
  generalize (∅ : RegexMap) = regexes
  induction entries generalizing regexes with
  | nil => rfl
  | cons entry entries ih =>
    rw [List.map_cons, List.foldlM_cons, processRegex_text, List.foldl_cons]
    exact ih _

/-- The constraint listed last for a variable. -/
def lastEntry (entries : List (Entry compile)) (name : String) : Option (Entry compile) :=
  (entries.filter fun entry => entry.name == name).getLast?

theorem storeAll_concat (entries : List (Entry compile)) (entry : Entry compile)
    (regexes : RegexMap) :
    storeAll (entries ++ [entry]) regexes =
      (storeAll entries regexes).insert entry.var (entry.negative, entry.regex) := by
  rw [storeAll, List.foldl_append]
  rfl

theorem lastEntry_concat (entries : List (Entry compile)) (entry : Entry compile) (name : String) :
    lastEntry (entries ++ [entry]) name =
      if entry.name = name then some entry else lastEntry entries name := by
  unfold lastEntry
  rw [List.filter_append]
  by_cases hname : entry.name = name
  · rw [if_pos hname, List.filter_cons_of_pos (by simpa using hname), List.filter_nil,
      List.getLast?_concat]
  · rw [if_neg hname, List.filter_cons_of_neg (by simpa using hname), List.filter_nil,
      List.append_nil]

theorem var_eq_iff {entry : Entry compile} {name : String} :
    "$" ++ name = entry.var ↔ entry.name = name := by
  constructor
  · intro h
    have hchars := congrArg String.toList h
    simp only [Entry.var, String.toList_append, List.append_cancel_left_eq] at hchars
    exact (String.toList_injective hchars).symm
  · rintro rfl
    rfl

/-- The map keeps the constraint listed last for each variable. -/
theorem lookup_storeAll (entries : List (Entry compile)) (name : String) :
    (storeAll entries ∅).lookup ("$" ++ name) =
      (lastEntry entries name).map fun entry => (entry.negative, entry.regex) := by
  induction entries using List.reverseRecOn with
  | nil => exact Finmap.lookup_empty _
  | append_singleton entries entry ih =>
    rw [storeAll_concat, lastEntry_concat]
    by_cases hname : entry.name = name
    · rw [var_eq_iff.mpr hname, Finmap.lookup_insert, if_pos hname, Option.map_some]
    · have hvar : "$" ++ name ≠ entry.var := fun heq => hname (var_eq_iff.mp heq)
      rw [Finmap.lookup_insert_of_ne _ hvar, if_neg hname, ih]

theorem mem_of_lastEntry {entries : List (Entry compile)} {name : String} {last : Entry compile}
    (h : lastEntry entries name = some last) : last ∈ entries ∧ last.name = name := by
  have hmem := List.mem_filter.mp (List.mem_of_getLast? h)
  exact ⟨hmem.1, beq_iff_eq.mp hmem.2⟩

theorem lastEntry_eq_none_iff {entries : List (Entry compile)} {name : String} :
    lastEntry entries name = none ↔ ∀ entry ∈ entries, entry.name ≠ name := by
  rw [lastEntry, List.getLast?_eq_none_iff, List.filter_eq_nil_iff]
  simp only [beq_iff_eq]

/-- What the engine decides about a value of a variable. -/
def check (externals : Externals) (regexes : RegexMap) (name source : String) (node : Node) :
    Except Panic Bool :=
  accepts externals source (.variable ("$" ++ name) (regexes.lookup ("$" ++ name))) node

/-- The engine asks the constraint listed last. -/
theorem check_storeAll {entries : List (Entry compile)} {name : String} {last : Entry compile}
    (hlast : lastEntry entries name = some last) (source : String) (node : Node) :
    (check externals (storeAll entries ∅) name source node = .ok false ↔
      last.Violated externals (slice source node.range)) ∧
    (check externals (storeAll entries ∅) name source node = .ok true ↔
      last.Satisfied externals (slice source node.range)) := by
  unfold check Entry.Violated Entry.Satisfied
  rw [lookup_storeAll, hlast, Option.map_some]
  simp only [accepts]
  cases externals.isMatch last.regex (slice source node.range) with
  | none => simp
  | some found => cases found <;> cases last.negative <;> simp

/-- Without a constraint every value is accepted. -/
theorem check_unconstrained {entries : List (Entry compile)} {name : String}
    (hnone : lastEntry entries name = none) (source : String) (node : Node) :
    check externals (storeAll entries ∅) name source node = .ok true := by
  unfold check
  rw [lookup_storeAll, hnone, Option.map_none]
  rfl

/-- Every listed constraint is enforced: the list is accepted, a value that
violates some constraint of its variable is rejected, and a value that
satisfies all of them is accepted. -/
def Enforces (externals : Externals) (compile : Compile) (entries : List (Entry compile)) : Prop :=
  ∃ regexes, processRegexes compile (entries.map Entry.text) = .ok regexes ∧
    ∀ (name source : String) (node : Node),
      ((∃ entry ∈ entries, entry.name = name ∧
          entry.Violated externals (slice source node.range)) →
        check externals regexes name source node = .ok false) ∧
      ((∀ entry ∈ entries, entry.name = name →
          entry.Satisfied externals (slice source node.range)) →
        check externals regexes name source node = .ok true)

/-- What an enforced constraint rules out, the one listed last rules out. -/
theorem violated_of_enforces {entries : List (Entry compile)}
    (h : Enforces externals compile entries) {entry last : Entry compile} (hentry : entry ∈ entries)
    (hlast : lastEntry entries entry.name = some last) {value : String}
    (hviolated : entry.Violated externals value) : last.Violated externals value := by
  obtain ⟨regexes, hprocessed, hchecked⟩ := h
  rw [processRegexes_text] at hprocessed
  cases hprocessed
  let node : Node := ⟨0, "identifier", true, none, ⟨0, utf8Len value.toList⟩, []⟩
  have hslice : slice value node.range = value := slice_whole value
  have hrejected := (hchecked entry.name value node).1 ⟨entry, hentry, rfl, by rwa [hslice]⟩
  have hdecided := (check_storeAll hlast value node).1.mp hrejected
  rwa [hslice] at hdecided

/-- All constraints of a list are enforced exactly when the one listed last
for a variable rules out everything that another one for it rules out. -/
theorem enforces_iff (externals : Externals) (compile : Compile) (entries : List (Entry compile)) :
    Enforces externals compile entries ↔
      ∀ entry ∈ entries, ∀ last, lastEntry entries entry.name = some last →
        ∀ value, entry.Violated externals value → last.Violated externals value := by
  constructor
  · intro henforces entry hentry last hlast value hviolated
    exact violated_of_enforces henforces hentry hlast hviolated
  · intro hlasts
    refine ⟨_, processRegexes_text entries, ?_⟩
    intro name source node
    constructor
    · rintro ⟨entry, hentry, rfl, hviolated⟩
      cases hlast : lastEntry entries entry.name with
      | none => exact absurd rfl (lastEntry_eq_none_iff.mp hlast entry hentry)
      | some last =>
        exact (check_storeAll hlast source node).1.mpr (hlasts entry hentry last hlast _ hviolated)
    · intro hsatisfied
      cases hlast : lastEntry entries name with
      | none => exact check_unconstrained hlast source node
      | some last =>
        obtain ⟨hmem, hname⟩ := mem_of_lastEntry hlast
        exact (check_storeAll hlast source node).2.mpr (hsatisfied last hmem hname)

end Entries

/-- An engine for expressions without special characters, which match where
their text occurs. -/
def literalExternals : Externals :=
  { sampleExternals with isMatch := fun regex text => some (contains text regex.pattern) }

/-- Compile an expression of letters and digits. -/
def compileLiteral : Compile := fun raw =>
  if raw.toList.all Char.isAlphanum then .ok ⟨raw⟩ else .error "not a literal"

/-- The constraint `$x=a`: a value contains an `a`. -/
def containsA : Entry compileLiteral :=
  ⟨"x", true, false, "a", ⟨"a"⟩, by decide, by decide, by decide, by rfl⟩

/-- The constraint `x!=b`: a value does not contain a `b`. -/
def containsNoB : Entry compileLiteral :=
  ⟨"x", false, true, "b", ⟨"b"⟩, by decide, by decide, by decide, by rfl⟩

/-- A value with neither letter violates the first constraint only, and it is
the second one that the engine checks. -/
theorem not_enforces_pair :
    ¬ Enforces literalExternals compileLiteral [containsA, containsNoB] := by
  intro henforces
  have hfirst : containsA.Violated literalExternals "c" := by rfl
  have hlast : lastEntry [containsA, containsNoB] "x" = some containsNoB := by rfl
  have hviolated := violated_of_enforces henforces List.mem_cons_self hlast hfirst
  unfold Entry.Violated at hviolated
  exact absurd hviolated (by decide)

end WeggliEnhance.RegexRules
