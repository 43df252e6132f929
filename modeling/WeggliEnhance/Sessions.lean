import WeggliEnhance.FileSelection
import WeggliEnhance.TerminalReport

/-!
# Sessions

`main` from the command line to its end: the source files are selected, the
rule files are read, and the loop over them writes documents or prints to the
terminal. The threads of every pipeline take turns in any order. A session
nevertheless always exists, and any two sessions from the same start end alike.
-/

namespace WeggliEnhance.Sessions

open ThirdParty PipelineWork PipelineSchedules ChainFilter RuleFiles RunAgreement DirectoryWalk
  FileSelection CompletedRuns TerminalReport

/-- What the loop over rule files reads of the system and the arguments. -/
def environment (system : System) (args : Args) (files : List String) (outputPath : String) :
    Environment where
  externals := system.externals
  flags := system.flags
  compile := system.compile
  files := files
  options := ⟨args.limit, args.unique⟩
  forceQuery := args.forceQuery
  outputPath := outputPath
  currentDir := system.currentDir

/-- What a session leaves behind. -/
structure Ending where
  /-- What became of the rule files, with an output path. -/
  handled : List Handled
  /-- What became of them on the terminal. -/
  shown : List Shown
  /-- The disk. -/
  disk : Disk

/-- A session of `main`, from a disk to its end. -/
inductive Session (system : System) (style : Style) (args : Args) (disk : Disk) : Ending → Prop
  /-- The process ends before any rule file is read. -/
  | stopped {stop : Stop} : collectFiles system args = .error stop →
    Session system style args disk ⟨[], [], disk⟩
  /-- Documents are written. -/
  | reported {files : List String} {path : String} {handled : List Handled} {final : Disk} :
    collectFiles system args = .ok files → args.outputPath = some path →
    MainRun (environment system args files path) (rulePathSeek system args.rulePath) disk handled
      final → Session system style args disk ⟨handled, [], final⟩
  /-- Results are printed. -/
  | printed {files : List String} {shown : List Shown} :
    collectFiles system args = .ok files → args.outputPath = none →
    TerminalRun (environment system args files "") style args.enableLineNumbers
      (rulePathSeek system args.rulePath) shown → Session system style args disk ⟨[], shown, disk⟩

/-- What became of a rule file in two runs on the terminal. -/
structure SameShown (entry entry' : Shown) : Prop where
  /-- The same results survived. -/
  survived : entry.survived.Perm entry'.survived
  /-- Both were printed or none was. -/
  output : entry.output = none ↔ entry'.output = none

/-- Sessions that end alike, up to the order of results. -/
structure SameEnding (ending ending' : Ending) : Prop where
  /-- The same rule files are handled in the same way. -/
  handled : List.Forall₂ SameHandled ending.handled ending'.handled
  /-- The same rule files are shown in the same way. -/
  shown : List.Forall₂ SameShown ending.shown ending'.shown
  /-- The documents on the disk are the same. -/
  disk : SameDisk ending.disk ending'.disk

section Terminal

variable {env : Environment} {style : Style} {numbers : Bool} {shown shown' : List Shown}

/-- Printing panics or not, whatever the order of the results. -/
theorem printTerminal_perm (style : Style) (numbers : Bool) {results results' : List ResultsCtx}
    (h : results.Perm results') :
    printTerminal style numbers results = none ↔ printTerminal style numbers results' = none := by
  rw [printTerminal, printTerminal, Option.map_eq_none_iff, Option.map_eq_none_iff,
    mapM_eq_none_iff, mapM_eq_none_iff]
  simp only [h.mem_iff]

/-- The ways a run on the terminal can begin with a rule file. -/
theorem terminalRun_cons {file : Rules} {rest : List Rules}
    (h : TerminalRun env style numbers (file :: rest) shown) :
    match compileRules env file with
    | .error _ => shown = []
    | .ok [] => TerminalRun env style numbers rest shown
    | .ok work => ¬Healthy env.externals work env.options (.start env.files) ∧ shown = [] ∨
        ∃ pipeline, Run env.externals work env.options (.start env.files) pipeline ∧
          pipeline.Finished ∧ ∃ later,
            shown = ⟨filterChainableResults pipeline.collected, printTerminal style numbers
              (filterChainableResults pipeline.collected)⟩ :: later ∧
            match printTerminal style numbers (filterChainableResults pipeline.collected) with
            | none => later = []
            | some _ => TerminalRun env style numbers rest later := by
  cases h with
  | exit hcompile => rw [hcompile]
  | skip hcompile hrest =>
    rw [hcompile]
    exact hrest
  | @abort _ _ work hcompile hwork hpanic =>
    rw [hcompile]
    cases work with
    | nil => exact absurd rfl hwork
    | cons item work => exact .inl ⟨hpanic, rfl⟩
  | @crash _ _ work pipeline hcompile hwork hrun hfinished hnone =>
    rw [hcompile]
    cases work with
    | nil => exact absurd rfl hwork
    | cons item work =>
      refine .inr ⟨pipeline, hrun, hfinished, [], ?_⟩
      rw [hnone]
      exact ⟨rfl, rfl⟩
  | @print _ _ work pipeline text later hcompile hwork hrun hfinished hsome hrest =>
    rw [hcompile]
    cases work with
    | nil => exact absurd rfl hwork
    | cons item work =>
      refine .inr ⟨pipeline, hrun, hfinished, later, ?_⟩
      rw [hsome]
      exact ⟨rfl, hrest⟩

/-- Two runs on the terminal over the same rule files agree. The induction is
on the rule files that are left. -/
theorem terminalRuns_agree {rules : List Rules} (h : TerminalRun env style numbers rules shown)
    (h' : TerminalRun env style numbers rules shown') : List.Forall₂ SameShown shown shown' := by
  induction rules generalizing shown shown' with
  | nil =>
    cases h
    cases h'
    exact .nil
  | cons file rest ih =>
    have hfirst := terminalRun_cons h
    have hfirst' := terminalRun_cons h'
    cases hcompile : compileRules env file with
    | error stop =>
      rw [hcompile] at hfirst hfirst'
      rw [hfirst, hfirst']
      exact .nil
    | ok work =>
      rw [hcompile] at hfirst hfirst'
      cases work with
      | nil => exact ih hfirst hfirst'
      | cons item work =>
        rcases hfirst with ⟨hpanic, rfl⟩ | ⟨pipeline, hrun, hfinished, later, rfl, hlater⟩
        · rcases hfirst' with ⟨-, rfl⟩ | ⟨pipeline', hrun', hfinished', -⟩
          · exact .nil
          · exact absurd (healthy_of_finished hrun' hfinished') hpanic
        · rcases hfirst' with ⟨hpanic, -⟩ | ⟨pipeline', hrun', hfinished', later', rfl, hlater'⟩
          · exact absurd (healthy_of_finished hrun hfinished) hpanic
          · have hsurvived := survived_perm_of_runs hrun hfinished hrun' hfinished'
            have houtput := printTerminal_perm style numbers hsurvived
            refine .cons ⟨hsurvived, houtput⟩ ?_
            generalize printTerminal style numbers
              (filterChainableResults pipeline.collected) = output at houtput hlater
            generalize printTerminal style numbers
              (filterChainableResults pipeline'.collected) = output' at houtput hlater'
            cases output with
            | none =>
              rw [houtput.mp rfl] at hlater'
              rw [hlater, hlater']
              exact .nil
            | some text =>
              cases output' with
              | none => cases houtput.mpr rfl
              | some text' => exact ih hlater hlater'

end Terminal

section Sessions

variable {system : System} {style : Style} {args : Args} {disk : Disk} {ending ending' : Ending}

/-- There is always a session. -/
theorem exists_session (system : System) (style : Style) (args : Args) (disk : Disk) :
    ∃ ending, Session system style args disk ending := by
  cases hfiles : collectFiles system args with
  | error stop => exact ⟨_, .stopped hfiles⟩
  | ok files =>
    cases hpath : args.outputPath with
    | some path =>
      obtain ⟨handled, final, hrun⟩ := exists_mainRun (environment system args files path)
        (rulePathSeek system args.rulePath) disk
      exact ⟨_, .reported hfiles hpath hrun⟩
    | none =>
      obtain ⟨shown, hrun⟩ := exists_terminalRun (environment system args files "") style
        args.enableLineNumbers (rulePathSeek system args.rulePath)
      exact ⟨_, .printed hfiles hpath hrun⟩

/-- Sessions from the same start end alike. -/
theorem sessions_agree (hcode : WellNamed (system.root args.codePath).tree)
    (h : Session system style args disk ending) (h' : Session system style args disk ending') :
    SameEnding ending ending' := by
  cases h with
  | stopped hstop =>
    cases h' with
    | stopped => exact ⟨.nil, .nil, sameDisk_refl disk⟩
    | reported hfiles => cases hstop.symm.trans hfiles
    | printed hfiles => cases hstop.symm.trans hfiles
  | reported hfiles hpath hrun =>
    cases h' with
    | stopped hstop => cases hstop.symm.trans hfiles
    | reported hfiles' hpath' hrun' =>
      cases hfiles.symm.trans hfiles'
      cases hpath.symm.trans hpath'
      have hnodup := nodup_collectFiles hcode hfiles
      obtain ⟨hhandled, hdisk⟩ := runs_agree hnodup hrun hrun' (sameDisk_refl disk)
      exact ⟨hhandled, .nil, hdisk⟩
    | printed _ hpath' => cases hpath.symm.trans hpath'
  | printed hfiles hpath hrun =>
    cases h' with
    | stopped hstop => cases hstop.symm.trans hfiles
    | reported _ hpath' => cases hpath.symm.trans hpath'
    | printed hfiles' _ hrun' =>
      cases hfiles.symm.trans hfiles'
      exact ⟨.nil, terminalRuns_agree hrun hrun', sameDisk_refl disk⟩

end Sessions

/-- The outcome of the program does not depend on its threads. Whatever the
command line asks for and the file system holds, there is a session, and every
session ends like that one: it handles or shows as many rule files, with the
same survivors up to order, writes or prints the same of them, and leaves the
same documents up to the order of their results. -/
theorem session_determined {system : System} {args : Args}
    (hcode : WellNamed (system.root args.codePath).tree) (style : Style) (disk : Disk) :
    ∃ ending, Session system style args disk ending ∧
      ∀ ending', Session system style args disk ending' → SameEnding ending ending' := by
  obtain ⟨ending, h⟩ := exists_session system style args disk
  exact ⟨ending, h, fun ending' h' => sessions_agree hcode h h'⟩

/-- The arguments of `weggli-enhance rules code --exclude tests -o out.sarif`. -/
def reportArgs : Args := { sampleArgs with outputPath := some "out.sarif" }

theorem wellNamed_reportArgs : WellNamed (sampleSystem.root reportArgs.codePath).tree :=
  wellNamed_sampleArgs

/-- A session over the sample directory that writes a report. -/
theorem session_determined_sample :
    ∃ ending, Session sampleSystem Style.uncoloured reportArgs emptyDisk ending ∧
      ∀ ending', Session sampleSystem Style.uncoloured reportArgs emptyDisk ending' →
        SameEnding ending ending' :=
  session_determined wellNamed_reportArgs Style.uncoloured emptyDisk

end WeggliEnhance.Sessions
