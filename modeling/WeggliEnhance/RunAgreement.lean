import WeggliEnhance.RuleFiles

/-!
# Runs agree

The loop over rule files starts threads for every rule file, and the order in
which their results arrive is not determined. A run nevertheless always
exists, and any two runs from the same start handle the same rule files, with
the same survivors up to order, end in the same way and leave the same
documents up to the order of their results.
-/

namespace WeggliEnhance.RunAgreement

open ThirdParty PipelineWork PipelineSchedules ChainFilter SarifReport RuleFiles

/-- What became of a rule file in two runs. -/
structure SameHandled (file file' : Handled) : Prop where
  /-- The same results survived. -/
  survived : file.survived.Perm file'.survived
  /-- The same became of both documents. -/
  document : file.document = file'.document

/-- Documents with the same results up to order. -/
structure SameDocument (document document' : Document) : Prop where
  /-- The rules are the same. -/
  rules : document.rules = document'.rules
  /-- The results are the same up to order. -/
  results : document.results.Perm document'.results

/-- Disks with the same documents up to the order of results. -/
structure SameDisk (disk disk' : Disk) : Prop where
  /-- The directories are the same. -/
  isDir : disk.isDir = disk'.isDir
  /-- The same paths can be written to. -/
  writing : disk.writing = disk'.writing
  /-- The documents correspond. -/
  documents : ∀ path, Option.Rel SameDocument (disk.documents path) (disk'.documents path)

theorem sameDisk_refl (disk : Disk) : SameDisk disk disk where
  isDir := rfl
  writing := rfl
  documents path := by
    cases disk.documents path with
    | none => exact .none
    | some document => exact .some ⟨rfl, List.Perm.refl _⟩

section Runs

variable {env : Environment} {disk disk' final final' : Disk} {handled handled' : List Handled}

theorem targetPath_of_sameDisk (h : SameDisk disk disk') :
    targetPath env disk' = targetPath env disk := by
  rw [targetPath, targetPath, h.isDir]

theorem sameDisk_write {document document' : Document} (h : SameDisk disk disk')
    (hdocument : SameDocument document document') (path : String) :
    SameDisk (disk.write path document) (disk'.write path document') where
  isDir := by rw [(write_keeps path document).1, (write_keeps path document').1, h.isDir]
  writing := by rw [(write_keeps path document).2, (write_keeps path document').2, h.writing]
  documents other := by
    have hwriting : disk'.writing path = disk.writing path := by rw [h.writing]
    rw [Disk.write, Disk.write, hwriting]
    by_cases hother : other = path
    · rw [hother]
      cases disk.writing path with
      | whole =>
        simp only [Function.update_self]
        exact .some hdocument
      | refused => exact h.documents path
      | broken =>
        simp only [Function.update_self]
        exact .none
    · cases disk.writing path <;> simp only [Function.update_of_ne hother] <;>
        exact h.documents other

/-- The reports that two finished pipelines give rise to. -/
theorem generateSarif_of_runs {work : List WorkItem} {pipeline pipeline' : Pipeline}
    (hfiles : env.files.Nodup) (hrun : Run env.externals work env.options (.start env.files) pipeline)
    (hfinished : pipeline.Finished)
    (hrun' : Run env.externals work env.options (.start env.files) pipeline')
    (hfinished' : pipeline'.Finished) (descriptors : List ReportingDescriptor) :
    Option.Rel SameDocument (generateSarif (filterChainableResults pipeline.collected) descriptors)
      (generateSarif (filterChainableResults pipeline'.collected) descriptors) := by
  have hfindings := findings_perm_of_runs hfiles hrun hfinished hrun' hfinished'
  unfold generateSarif
  generalize uniqueResults (filterChainableResults pipeline.collected) = unique at hfindings ⊢
  generalize uniqueResults (filterChainableResults pipeline'.collected) = unique' at hfindings ⊢
  cases hfindings with
  | none => exact .none
  | some hperm => exact .some ⟨rfl, hperm.map sarifResult⟩

/-- Two finished pipelines over the same files leave the same survivors. -/
theorem survived_perm_of_runs {work : List WorkItem} {pipeline pipeline' : Pipeline}
    (hrun : Run env.externals work env.options (.start env.files) pipeline)
    (hfinished : pipeline.Finished)
    (hrun' : Run env.externals work env.options (.start env.files) pipeline')
    (hfinished' : pipeline'.Finished) :
    (filterChainableResults pipeline.collected).Perm
      (filterChainableResults pipeline'.collected) :=
  filterChainableResults_perm ((collected_perm_of_finished hrun hfinished).trans
    (collected_perm_of_finished hrun' hfinished').symm)

/-- The ways a run can begin with a rule file, by what its compilation gives. -/
theorem mainRun_cons {file : Rules} {rest : List Rules}
    (h : MainRun env (file :: rest) disk handled final) :
    match compileRules env file with
    | .error _ => handled = [] ∧ final = disk
    | .ok [] => MainRun env rest disk handled final
    | .ok work => (¬Healthy env.externals work env.options (.start env.files) ∧ handled = [] ∧
          final = disk) ∨
        ∃ pipeline, Run env.externals work env.options (.start env.files) pipeline ∧
          pipeline.Finished ∧
          match generateSarif (filterChainableResults pipeline.collected) (descriptors file) with
          | none => handled = [⟨filterChainableResults pipeline.collected, none⟩] ∧ final = disk
          | some document => ∃ later,
            handled = ⟨filterChainableResults pipeline.collected,
              some (disk.writing (targetPath env disk))⟩ :: later ∧
              (disk.writing (targetPath env disk) ≠ .whole ∧ later = [] ∧
                final = disk.write (targetPath env disk) document ∨
              disk.writing (targetPath env disk) = .whole ∧
                MainRun env rest (disk.write (targetPath env disk) document) later final) := by
  cases h with
  | exit hcompile =>
    rw [hcompile]
    exact ⟨rfl, rfl⟩
  | skip hcompile hrest =>
    rw [hcompile]
    exact hrest
  | @abort _ _ _ work hcompile hwork hpanic =>
    rw [hcompile]
    cases work with
    | nil => exact absurd rfl hwork
    | cons item work => exact .inl ⟨hpanic, rfl, rfl⟩
  | @crash _ _ _ work pipeline hcompile hwork hrun hfinished hnone =>
    rw [hcompile]
    cases work with
    | nil => exact absurd rfl hwork
    | cons item work =>
      refine .inr ⟨pipeline, hrun, hfinished, ?_⟩
      rw [hnone]
      exact ⟨rfl, rfl⟩
  | @fail _ _ _ work pipeline document hcompile hwork hrun hfinished hsome hwriting =>
    rw [hcompile]
    cases work with
    | nil => exact absurd rfl hwork
    | cons item work =>
      refine .inr ⟨pipeline, hrun, hfinished, ?_⟩
      rw [hsome]
      exact ⟨[], rfl, .inl ⟨hwriting, rfl, rfl⟩⟩
  | @report _ _ _ _ work pipeline document later hcompile hwork hrun hfinished hsome hwriting
      hrest =>
    rw [hcompile]
    cases work with
    | nil => exact absurd rfl hwork
    | cons item work =>
      refine .inr ⟨pipeline, hrun, hfinished, ?_⟩
      rw [hsome, hwriting]
      exact ⟨later, rfl, .inr ⟨rfl, hrest⟩⟩

/-- Two runs over the same rule files from corresponding disks agree. The
induction is on the rule files that are left. -/
theorem runs_agree (hfiles : env.files.Nodup) {rules : List Rules}
    (h : MainRun env rules disk handled final) (h' : MainRun env rules disk' handled' final')
    (hdisk : SameDisk disk disk') :
    List.Forall₂ SameHandled handled handled' ∧ SameDisk final final' := by
  induction rules generalizing disk disk' handled handled' with
  | nil =>
    cases h
    cases h'
    exact ⟨.nil, hdisk⟩
  | cons file rest ih =>
    have hfirst := mainRun_cons h
    have hfirst' := mainRun_cons h'
    cases hcompile : compileRules env file with
    | error stop =>
      rw [hcompile] at hfirst hfirst'
      obtain ⟨rfl, rfl⟩ := hfirst
      obtain ⟨rfl, rfl⟩ := hfirst'
      exact ⟨.nil, hdisk⟩
    | ok work =>
      rw [hcompile] at hfirst hfirst'
      cases work with
      | nil => exact ih hfirst hfirst' hdisk
      | cons item work =>
        rcases hfirst with ⟨hpanic, rfl, rfl⟩ | ⟨pipeline, hrun, hfinished, hreport⟩
        · rcases hfirst' with ⟨-, rfl, rfl⟩ | ⟨pipeline', hrun', hfinished', -⟩
          · exact ⟨.nil, hdisk⟩
          · exact absurd (healthy_of_finished hrun' hfinished') hpanic
        · rcases hfirst' with ⟨hpanic, -, -⟩ | ⟨pipeline', hrun', hfinished', hreport'⟩
          · exact absurd (healthy_of_finished hrun hfinished) hpanic
          · have hsurvived := survived_perm_of_runs hrun hfinished hrun' hfinished'
            have hdocuments := generateSarif_of_runs hfiles hrun hfinished hrun' hfinished'
              (descriptors file)
            generalize generateSarif (filterChainableResults pipeline.collected)
              (descriptors file) = document at hdocuments hreport
            generalize generateSarif (filterChainableResults pipeline'.collected)
              (descriptors file) = document' at hdocuments hreport'
            cases hdocuments with
            | none =>
              obtain ⟨rfl, rfl⟩ := hreport
              obtain ⟨rfl, rfl⟩ := hreport'
              exact ⟨.cons ⟨hsurvived, rfl⟩ .nil, hdisk⟩
            | some hdocument =>
              obtain ⟨later, rfl, hrest⟩ := hreport
              obtain ⟨later', rfl, hrest'⟩ := hreport'
              rw [targetPath_of_sameDisk hdisk, ← hdisk.writing] at hrest' ⊢
              rcases hrest with ⟨hfailed, rfl, rfl⟩ | ⟨hwritten, hrest⟩
              · rcases hrest' with ⟨-, rfl, rfl⟩ | ⟨hwritten, -⟩
                · exact ⟨.cons ⟨hsurvived, rfl⟩ .nil, sameDisk_write hdisk hdocument _⟩
                · exact absurd hwritten hfailed
              · rcases hrest' with ⟨hfailed, -⟩ | ⟨-, hrest'⟩
                · exact absurd hwritten hfailed
                · obtain ⟨hlater, hfinal⟩ := ih hrest hrest' (sameDisk_write hdisk hdocument _)
                  exact ⟨.cons ⟨hsurvived, rfl⟩ hlater, hfinal⟩

/-- The loop can always be run: it never gets stuck between two rule files. -/
theorem exists_mainRun (env : Environment) (rules : List Rules) (disk : Disk) :
    ∃ handled final, MainRun env rules disk handled final := by
  induction rules generalizing disk with
  | nil => exact ⟨[], disk, .done disk⟩
  | cons file rest ih =>
    cases hcompile : compileRules env file with
    | error stop => exact ⟨[], disk, .exit hcompile⟩
    | ok work =>
      cases work with
      | nil =>
        obtain ⟨handled, final, hrest⟩ := ih disk
        exact ⟨handled, final, .skip hcompile hrest⟩
      | cons item work =>
        have hwork : item :: work ≠ [] := List.cons_ne_nil item work
        by_cases hhealthy : Healthy env.externals (item :: work) env.options (.start env.files)
        · obtain ⟨pipeline, hrun, hfinished⟩ := exists_finished_run hhealthy
          cases hreport : generateSarif (filterChainableResults pipeline.collected)
              (descriptors file) with
          | none => exact ⟨_, disk, .crash hcompile hwork hrun hfinished hreport⟩
          | some document =>
            by_cases hwriting : disk.writing (targetPath env disk) = .whole
            · obtain ⟨handled, final, hrest⟩ := ih (disk.write (targetPath env disk) document)
              exact ⟨_, final, .report hcompile hwork hrun hfinished hreport hwriting hrest⟩
            · exact ⟨_, _, .fail hcompile hwork hrun hfinished hreport hwriting⟩
        · exact ⟨[], disk, .abort hcompile hwork hhealthy⟩

end Runs

end WeggliEnhance.RunAgreement
