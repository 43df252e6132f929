import WeggliEnhance.DirectoryWalk

/-!
# Selecting the source files

`cli.rs` and the first half of `main.rs`: from the arguments of the command
line to the list of source files. The files below the path are filtered by
extension and by the expressions of `--exclude` and `--include`; the process
ends if an expression is invalid or no file is left.
-/

namespace WeggliEnhance.FileSelection

open SourceText ThirdParty FallibleState RegexRules RuleFiles DirectoryWalk

/-- What clap found on the command line. -/
structure Matches where
  /-- The argument `RULES`. -/
  rules : Option String
  /-- The argument `PATH`. -/
  path : Option String
  /-- The value of `--output`. -/
  output : Option String
  /-- The values of `--extensions`. -/
  extensions : List String
  /-- The values of `--include`. -/
  includes : List String
  /-- The values of `--exclude`. -/
  excludes : List String
  /-- Occurrences of `--limit`. -/
  limit : ℕ
  /-- Occurrences of `--unique`. -/
  unique : ℕ
  /-- Occurrences of `--force`. -/
  force : ℕ
  /-- Occurrences of `--line-numbers`. -/
  lineNumbers : ℕ

/-- The parsed arguments. -/
structure Args where
  /-- Where the source files are. -/
  codePath : String
  /-- Where the rule files are. -/
  rulePath : String
  /-- Where the SARIF document goes, if there is to be one. -/
  outputPath : Option String
  /-- The extensions of source files. -/
  extensions : List String
  /-- Only the first match in each function. -/
  limit : Bool
  /-- Different variables have different values. -/
  unique : Bool
  /-- Search with erroneous patterns. -/
  forceQuery : Bool
  /-- Expressions of which one has to match a path. -/
  includes : List String
  /-- Expressions of which none may match a path. -/
  excludes : List String
  /-- Print line numbers. -/
  enableLineNumbers : Bool

/-- A path relative to the current directory. -/
def absolutePath (currentDir path : String) : String :=
  if isAbsolute path then path else join currentDir path

/-- `parse_arguments`. The parser knows no argument `cpp`, so the extensions
of C++ are never the default. -/
def parseArguments (currentDir : String) (found : Matches) : Args where
  codePath := absolutePath currentDir (found.path.getD ".")
  rulePath := absolutePath currentDir (found.rules.getD ".")
  outputPath := found.output
  extensions := if found.extensions.isEmpty then ["c", "h"] else found.extensions
  limit := 0 < found.limit
  unique := 0 < found.unique
  forceQuery := 0 < found.force
  includes := found.includes
  excludes := found.excludes
  enableLineNumbers := 0 < found.lineNumbers

/-- The system that the process runs on. -/
structure System where
  /-- Tree-sitter, the regex engine and the source files. -/
  externals : Externals
  /-- Syntax errors of search patterns. -/
  flags : SearchPatterns.ErrorFlags
  /-- `Regex::new`. -/
  compile : Compile
  /-- What the file system holds at a path. -/
  root : String → Root
  /-- `fs::read_to_string`. -/
  readText : String → Option String
  /-- `serde_yaml::from_str`. -/
  parseYaml : String → Option Rules
  /-- `std::env::current_dir()`. -/
  currentDir : String

variable (system : System)

/-- The closure `helper_regex`. -/
def helperRegex (patterns : List String) : Except Stop (List Regex) :=
  patterns.mapM fun pattern =>
    match system.compile pattern with
    | .ok regex => .ok regex
    | .error _ => .error .exit

/-- `is_match(..).unwrap()` on a path. -/
def matchesPath (path : String) (regex : Regex) : Except Stop Bool :=
  match system.externals.isMatch regex path with
  | some found => .ok found
  | none => .error .panic

/-- The closure given to `retain`. -/
def retains (excludeRe includeRe : List Regex) (path : String) : Except Stop Bool := do
  if ← excludeRe.anyM (matchesPath system path) then return false
  if includeRe.isEmpty then return true
  includeRe.anyM (matchesPath system path)

/-- The loop of `retain`. -/
def retain (excludeRe includeRe : List Regex) : List String → Except Stop (List String)
  | [] => .ok []
  | path :: paths => do
    let kept ← retains system excludeRe includeRe path
    let rest ← retain excludeRe includeRe paths
    return if kept then path :: rest else rest

/-- The filter on the collected paths. -/
def filterFiles (excludeRe includeRe : List Regex) (files : List String) :
    Except Stop (List String) :=
  if !excludeRe.isEmpty || !includeRe.isEmpty then retain system excludeRe includeRe files
  else .ok files

/-- The files that are searched. -/
def collectFiles (args : Args) : Except Stop (List String) := do
  let excludeRe ← helperRegex system args.excludes
  let includeRe ← helperRegex system args.includes
  let files ← filterFiles system excludeRe includeRe
    (iterFiles args.codePath (system.root args.codePath) args.extensions)
  if files.isEmpty then throw .exit else return files

/-- `rule_path_seek`: rule files that cannot be read or parsed are left out. -/
def rulePathSeek (rulePath : String) : List Rules :=
  (iterFiles rulePath (system.root rulePath) ["yaml"]).filterMap fun path =>
    (system.readText path).bind system.parseYaml

section Selection

variable {system} {args : Args} {excludeRe includeRe : List Regex}

/-- The walk lists the path: names without a leading dot lead to it from the
root, and its extension is one of those asked for. -/
def Found (system : System) (args : Args) (path : String) : Prop :=
  (∃ names, (system.root args.codePath).Leads names ∧
    Visible args.codePath (system.root args.codePath) names ∧ path = follow args.codePath names) ∧
  ∃ ext ∈ args.extensions, extension path = some ext

/-- The path is listed and passes the expressions of the command line. -/
structure Chosen (system : System) (args : Args) (path : String) : Prop where
  /-- The walk lists it. -/
  found : Found system args path
  /-- No expression of `--exclude` matches. -/
  excluded : ∀ pattern ∈ args.excludes, ∃ regex, system.compile pattern = .ok regex ∧
    system.externals.isMatch regex path = some false
  /-- Some expression of `--include` matches, if there is one. -/
  included : args.includes = [] ∨ ∃ pattern ∈ args.includes, ∃ regex,
    system.compile pattern = .ok regex ∧ system.externals.isMatch regex path = some true

/-- What the closure given to `retain` decides. -/
def Passes (system : System) (excludeRe includeRe : List Regex) (path : String) : Prop :=
  (∀ regex ∈ excludeRe, system.externals.isMatch regex path = some false) ∧
    (includeRe = [] ∨ ∃ regex ∈ includeRe, system.externals.isMatch regex path = some true)

/-- Some expression cannot be evaluated on the path. -/
def Fails (system : System) (regexes : List Regex) (path : String) : Prop :=
  ∃ regex ∈ regexes, system.externals.isMatch regex path = none

theorem matchesPath_eq_ok {path : String} {regex : Regex} {found : Bool} :
    matchesPath system path regex = .ok found ↔
      system.externals.isMatch regex path = some found := by
  unfold matchesPath
  cases system.externals.isMatch regex path <;> simp

theorem matchesPath_eq_error {path : String} {regex : Regex} {stop : Stop}
    (h : matchesPath system path regex = .error stop) :
    stop = .panic ∧ system.externals.isMatch regex path = none := by
  unfold matchesPath at h
  cases hmatch : system.externals.isMatch regex path with
  | none =>
    rw [hmatch] at h
    cases h
    exact ⟨rfl, rfl⟩
  | some found =>
    rw [hmatch] at h
    cases h

theorem fails_of_anyM {path : String} {regexes : List Regex} {stop : Stop}
    (h : regexes.anyM (matchesPath system path) = .error stop) :
    stop = .panic ∧ Fails system regexes path := by
  obtain ⟨regex, hregex, herror⟩ := anyM_eq_error h
  obtain ⟨rfl, hnone⟩ := matchesPath_eq_error herror
  exact ⟨rfl, regex, hregex, hnone⟩

theorem outcome_retains (path : String) :
    Outcome (fun stop => stop = .panic ∧ Fails system (excludeRe ++ includeRe) path)
      (retains system excludeRe includeRe path)
      fun kept => kept = true ↔ Passes system excludeRe includeRe path := by
  unfold retains
  cases hexclude : excludeRe.anyM (matchesPath system path) with
  | error stop =>
    obtain ⟨hstop, regex, hregex, hnone⟩ := fails_of_anyM hexclude
    exact ⟨hstop, regex, List.mem_append_left _ hregex, hnone⟩
  | ok matched =>
    cases matched with
    | true =>
      obtain ⟨regex, hregex, hmatch⟩ := (anyM_eq_ok hexclude).mp rfl
      refine iff_of_false Bool.false_ne_true ?_
      intro hpasses
      have hfalse := hpasses.1 regex hregex
      rw [matchesPath_eq_ok.mp hmatch] at hfalse
      cases hfalse
    | false =>
      have hall : ∀ regex ∈ excludeRe, system.externals.isMatch regex path = some false :=
        fun regex hregex => matchesPath_eq_ok.mp (anyM_eq_false hexclude regex hregex)
      cases includeRe with
      | nil => exact iff_of_true rfl ⟨hall, .inl rfl⟩
      | cons first rest =>
        change Outcome _ ((first :: rest).anyM (matchesPath system path)) _
        cases hinclude : (first :: rest).anyM (matchesPath system path) with
        | error stop =>
          obtain ⟨hstop, regex, hregex, hnone⟩ := fails_of_anyM hinclude
          exact ⟨hstop, regex, List.mem_append_right _ hregex, hnone⟩
        | ok kept =>
          refine (anyM_eq_ok hinclude).trans ?_
          simp only [matchesPath_eq_ok]
          exact ⟨fun h => ⟨hall, .inr h⟩, fun h => h.2.resolve_left (List.cons_ne_nil _ _)⟩

/-- The loop keeps the paths that pass, in their order. -/
theorem outcome_retain (paths : List String) :
    Outcome (fun stop => stop = .panic ∧ ∃ path ∈ paths, Fails system (excludeRe ++ includeRe) path)
      (retain system excludeRe includeRe paths) fun kept =>
        kept.Sublist paths ∧
          ∀ path, path ∈ kept ↔ path ∈ paths ∧ Passes system excludeRe includeRe path := by
  induction paths with
  | nil => exact ⟨.slnil, fun path => by simp⟩
  | cons first paths ih =>
    have hfirst : Outcome _ (retains system excludeRe includeRe first) _ := outcome_retains first
    rw [retain]
    cases hretains : retains system excludeRe includeRe first with
    | error stop =>
      rw [hretains] at hfirst
      exact ⟨hfirst.1, first, List.mem_cons_self, hfirst.2⟩
    | ok kept =>
      rw [hretains] at hfirst
      cases hrest : retain system excludeRe includeRe paths with
      | error stop =>
        rw [hrest] at ih
        obtain ⟨hstop, path, hpath, hfails⟩ := ih
        exact ⟨hstop, path, List.mem_cons_of_mem first hpath, hfails⟩
      | ok rest =>
        rw [hrest] at ih
        obtain ⟨hsublist, hmem⟩ := ih
        change (if kept then first :: rest else rest).Sublist _ ∧ _
        by_cases hpasses : Passes system excludeRe includeRe first
        · rw [hfirst.mpr hpasses]
          refine ⟨hsublist.cons_cons first, ?_⟩
          intro path
          change path ∈ first :: rest ↔ _
          rw [List.mem_cons, List.mem_cons, hmem, or_and_right]
          refine or_congr_left ?_
          constructor
          · rintro rfl
            exact ⟨rfl, hpasses⟩
          · exact And.left
        · have hdropped : kept = false := Bool.eq_false_iff.mpr fun h => hpasses (hfirst.mp h)
          rw [hdropped]
          refine ⟨hsublist.cons first, ?_⟩
          intro path
          change path ∈ rest ↔ _
          rw [List.mem_cons, hmem, or_and_right]
          refine (or_iff_right ?_).symm
          rintro ⟨rfl, h⟩
          exact hpasses h

/-- The compiled expressions are those of the command line. -/
theorem outcome_helperRegex (patterns : List String) :
    Outcome (fun stop => stop = .exit ∧
        ∃ pattern ∈ patterns, ∃ message, system.compile pattern = .error message)
      (helperRegex system patterns)
      (List.Forall₂ (fun pattern regex => system.compile pattern = .ok regex) patterns) := by
  induction patterns with
  | nil => exact .nil
  | cons first patterns ih =>
    unfold helperRegex at ih ⊢
    rw [List.mapM_cons]
    cases hfirst : system.compile first with
    | error message => exact ⟨rfl, first, List.mem_cons_self, message, hfirst⟩
    | ok regex =>
      cases hrest : patterns.mapM (fun pattern => match system.compile pattern with
          | .ok regex => (.ok regex : Except Stop Regex)
          | .error _ => .error .exit) with
      | error stop =>
        rw [hrest] at ih
        obtain ⟨hstop, pattern, hpattern, herror⟩ := ih
        exact ⟨hstop, pattern, List.mem_cons_of_mem first hpattern, herror⟩
      | ok regexes =>
        rw [hrest] at ih
        exact .cons hfirst ih

theorem exists_regex_iff {patterns : List String} {regexes : List Regex}
    (h : List.Forall₂ (fun pattern regex => system.compile pattern = .ok regex) patterns regexes)
    {holds : Regex → Prop} :
    (∃ regex ∈ regexes, holds regex) ↔
      ∃ pattern ∈ patterns, ∃ regex, system.compile pattern = .ok regex ∧ holds regex := by
  induction h with
  | nil => simp
  | @cons pattern regex patterns regexes hfirst _ ih =>
    simp only [List.exists_mem_cons_iff, ih, hfirst, Except.ok.injEq, exists_eq_left']

theorem forall_regex_iff {patterns : List String} {regexes : List Regex}
    (h : List.Forall₂ (fun pattern regex => system.compile pattern = .ok regex) patterns regexes)
    {holds : Regex → Prop} :
    (∀ regex ∈ regexes, holds regex) ↔
      ∀ pattern ∈ patterns, ∃ regex, system.compile pattern = .ok regex ∧ holds regex := by
  induction h with
  | nil => simp
  | @cons pattern regex patterns regexes hfirst _ ih =>
    simp only [List.forall_mem_cons, ih, hfirst, Except.ok.injEq, exists_eq_left']

/-- The files that are left once the expressions are compiled. -/
theorem outcome_filterFiles (paths : List String) :
    Outcome (fun stop => stop = .panic ∧ ∃ path ∈ paths, Fails system (excludeRe ++ includeRe) path)
      (filterFiles system excludeRe includeRe paths) fun kept =>
        kept.Sublist paths ∧
          ∀ path, path ∈ kept ↔ path ∈ paths ∧ Passes system excludeRe includeRe path := by
  by_cases hnone : excludeRe = [] ∧ includeRe = []
  · obtain ⟨rfl, rfl⟩ := hnone
    refine ⟨List.Sublist.refl paths, fun path => (and_iff_left ?_).symm⟩
    exact ⟨List.forall_mem_nil _, .inl rfl⟩
  · have hsome : (!excludeRe.isEmpty || !includeRe.isEmpty) = true := by
      rw [not_and_or] at hnone
      simpa using hnone
    rw [filterFiles, if_pos hsome]
    exact outcome_retain paths

theorem collectFiles_eq (hexclude : helperRegex system args.excludes = .ok excludeRe)
    (hinclude : helperRegex system args.includes = .ok includeRe) :
    collectFiles system args = (filterFiles system excludeRe includeRe (iterFiles args.codePath
      (system.root args.codePath) args.extensions)).bind fun files =>
        if files.isEmpty then .error .exit else .ok files := by
  rw [collectFiles, hexclude, hinclude]
  rfl

theorem chosen_iff (hnamed : WellNamed (system.root args.codePath).tree)
    (hexclude : List.Forall₂ (fun pattern regex => system.compile pattern = .ok regex)
      args.excludes excludeRe)
    (hinclude : List.Forall₂ (fun pattern regex => system.compile pattern = .ok regex)
      args.includes includeRe) {path : String} :
    Chosen system args path ↔
      path ∈ iterFiles args.codePath (system.root args.codePath) args.extensions ∧
        Passes system excludeRe includeRe path := by
  have hempty : includeRe = [] ↔ args.includes = [] := by
    rw [← List.length_eq_zero_iff, ← hinclude.length_eq, List.length_eq_zero_iff]
  rw [mem_iterFiles hnamed, Passes, forall_regex_iff hexclude, hempty, exists_regex_iff hinclude]
  exact ⟨fun h => ⟨h.found, h.excluded, h.included⟩, fun h => ⟨h.1, h.2.1, h.2.2⟩⟩

/-- No file is searched twice. -/
theorem nodup_collectFiles (hnamed : WellNamed (system.root args.codePath).tree)
    {files : List String} (h : collectFiles system args = .ok files) : files.Nodup := by
  obtain ⟨excludeRe, -, h⟩ := exists_of_bind_eq_ok h
  obtain ⟨includeRe, -, h⟩ := exists_of_bind_eq_ok h
  obtain ⟨kept, hkept, h⟩ := exists_of_bind_eq_ok h
  obtain ⟨hsublist, -⟩ := outcome_ok (outcome_filterFiles _) hkept
  split_ifs at h
  cases h
  exact (nodup_iterFiles hnamed _ _).sublist hsublist

end Selection

/-- What the outcome of the selection says about the files: they are those
that are chosen, an expression is invalid or nothing is chosen, or an
expression cannot be evaluated on a listed path. -/
def Selects (system : System) (args : Args) : Except Stop (List String) → Prop
  | .ok files => files ≠ [] ∧ files.Nodup ∧ ∀ path, path ∈ files ↔ Chosen system args path
  | .error .exit =>
    (∃ pattern ∈ args.excludes ++ args.includes, ∃ message,
      system.compile pattern = .error message) ∨ ∀ path, ¬Chosen system args path
  | .error .panic => ∃ path, Found system args path ∧
    ∃ pattern ∈ args.excludes ++ args.includes, ∃ regex,
      system.compile pattern = .ok regex ∧ system.externals.isMatch regex path = none

/-- What is searched. Whatever the command line asks for and the file system
holds, the files that are collected are exactly those that visible names lead
to through readable directories, with one of the extensions, that no
expression of `--exclude` matches and that some expression of `--include`
matches if there is one; each is there once. The process exits only because an
expression is invalid or no such file exists, and panics only because an
expression cannot be evaluated on a listed path. -/
theorem collectFiles_selects {system : System} {args : Args}
    (hnamed : WellNamed (system.root args.codePath).tree) :
    Selects system args (collectFiles system args) := by
  have hexclude : Outcome _ (helperRegex system args.excludes) _ :=
    outcome_helperRegex args.excludes
  have hinclude : Outcome _ (helperRegex system args.includes) _ :=
    outcome_helperRegex args.includes
  cases hexcludeRe : helperRegex system args.excludes with
  | error stop =>
    rw [hexcludeRe] at hexclude
    obtain ⟨rfl, pattern, hpattern, herror⟩ := hexclude
    rw [collectFiles, hexcludeRe]
    exact .inl ⟨pattern, List.mem_append_left _ hpattern, herror⟩
  | ok excludeRe =>
    rw [hexcludeRe] at hexclude
    cases hincludeRe : helperRegex system args.includes with
    | error stop =>
      rw [hincludeRe] at hinclude
      obtain ⟨rfl, pattern, hpattern, herror⟩ := hinclude
      rw [collectFiles, hexcludeRe, hincludeRe]
      exact .inl ⟨pattern, List.mem_append_right _ hpattern, herror⟩
    | ok includeRe =>
      rw [hincludeRe] at hinclude
      have hfiltered : Outcome _ (filterFiles system excludeRe includeRe
          (iterFiles args.codePath (system.root args.codePath) args.extensions)) _ :=
        outcome_filterFiles _
      have hchosen : ∀ path, Chosen system args path ↔ _ :=
        fun path => chosen_iff hnamed hexclude hinclude
      rw [collectFiles_eq hexcludeRe hincludeRe]
      cases hfiles : filterFiles system excludeRe includeRe
          (iterFiles args.codePath (system.root args.codePath) args.extensions) with
      | error stop =>
        rw [hfiles] at hfiltered
        obtain ⟨rfl, path, hpath, hfails⟩ := hfiltered
        refine ⟨path, (mem_iterFiles hnamed).mp hpath, ?_⟩
        exact (exists_regex_iff (List.rel_append hexclude hinclude)).mp hfails
      | ok files =>
        rw [hfiles] at hfiltered
        obtain ⟨hsublist, hmem⟩ := hfiltered
        cases files with
        | nil =>
          refine .inr fun path h => ?_
          exact List.not_mem_nil ((hmem path).mpr ((hchosen path).mp h))
        | cons first files =>
          refine ⟨List.cons_ne_nil first files, (nodup_iterFiles hnamed _ _).sublist hsublist, ?_⟩
          exact fun path => (hmem path).trans (hchosen path).symm

/-- A directory with a source file, a hidden directory, another one with tests
and a text file. -/
def sampleCode : FileTree :=
  .dir true [.mk "f.c" .file, .mk ".git" (.dir true [.mk "h.c" .file]),
    .mk "tests" (.dir true [.mk "g.c" .file]), .mk "notes.txt" .file]

/-- The text of a rule file. -/
def sampleYaml (issue : String) : String :=
  "issue: " ++ issue ++ "\ndescription: sample\nrules:\n- reason: reason\n  regexes: []\n" ++
    "  patterns:\n  - '" ++ samplePatternText ++ "'\n"

/-- The directories of source files and of rule files. -/
def sampleFiles (path : String) : Root :=
  if path = "/code" then ⟨false, sampleCode⟩
  else if path = "/rules" then ⟨false, .dir true [.mk "a.yaml" .file, .mk "b.yaml" .file]⟩
  else ⟨false, .error⟩

/-- The sample programs and two rule files on a disk. -/
def sampleSystem : System where
  externals := { sampleEnvironment.externals with
    isMatch := fun regex text => some (contains text regex.pattern)
    read := fun path => sampleExternals.read (entryName path) }
  flags := sampleEnvironment.flags
  compile := compileLiteral
  root := sampleFiles
  readText path :=
    if path = "/rules/a.yaml" then some (sampleYaml "first")
    else if path = "/rules/b.yaml" then some (sampleYaml "second")
    else none
  parseYaml text :=
    if text = sampleYaml "first" then some (sampleRules "first")
    else if text = sampleYaml "second" then some (sampleRules "second")
    else none
  currentDir := "/"

/-- The arguments of `weggli-enhance rules code --exclude tests`. -/
def sampleArgs : Args :=
  parseArguments "/" ⟨some "rules", some "code", none, [], [], ["tests"], 0, 0, 0, 0⟩

theorem wellNamed_sampleCode : WellNamed sampleCode := by
  have hsingle : ∀ name, Proper name → WellNamed (.dir true [.mk name .file]) := by
    intro name hproper
    exact .dir (List.nodup_singleton _) (List.forall_mem_singleton.mpr hproper)
      (List.forall_mem_singleton.mpr .file)
  refine .dir (by decide) (by decide) ?_
  simp only [List.forall_mem_cons]
  exact ⟨.file, hsingle "h.c" (by decide), hsingle "g.c" (by decide), .file, List.forall_mem_nil _⟩

theorem root_sampleArgs : sampleSystem.root sampleArgs.codePath = ⟨false, sampleCode⟩ := by
  have hpath : sampleArgs.codePath = "/code" := by decide +kernel
  rw [hpath]
  change sampleFiles "/code" = _
  rw [sampleFiles, if_pos rfl]

theorem collectFiles_sampleArgs : collectFiles sampleSystem sampleArgs = .ok ["/code/f.c"] := by
  decide +kernel

theorem wellNamed_sampleArgs : WellNamed (sampleSystem.root sampleArgs.codePath).tree := by
  rw [root_sampleArgs]
  exact wellNamed_sampleCode

/-- Only one of the four files of the sample directory is searched. -/
theorem collectFiles_selects_sample :
    WellNamed (sampleSystem.root sampleArgs.codePath).tree ∧
      ∀ path, path ∈ ["/code/f.c"] ↔ Chosen sampleSystem sampleArgs path := by
  have hselects := @collectFiles_selects sampleSystem sampleArgs wellNamed_sampleArgs
  rw [collectFiles_sampleArgs] at hselects
  exact ⟨wellNamed_sampleArgs, hselects.2.2⟩

end WeggliEnhance.FileSelection
