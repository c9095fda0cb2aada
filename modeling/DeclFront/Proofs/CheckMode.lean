import DeclFront.Command
import DeclFront.Proofs.Reports
import DeclFront.Proofs.Supervision

/-! The command as a check of files. Its exit code says whether all of them are clean, and it prints
something exactly if they are not. How much of the faults it prints, and in which form, is another
matter, on which the exit code does not depend. -/

namespace DeclFront

/-! ### Options -/

namespace Options

/-- The options ask for a check of some files. -/
structure Checks (o : Options) : Prop where
  lexFile : o.lexFile = none
  parseFile : o.parseFile = none
  files : o.files ≠ []

theorem config_eq (o : Options) :
    o.config =
      { policy := if o.keepGoing then .accumulate else .failFast
        maxDiagnostics := o.maxDiagnostics
        maxParallelJobs := o.jobs.map (max · 1) } := by
  unfold config
  cases o.jobs <;> rfl

theorem config_maxSourceBytes (o : Options) : o.config.maxSourceBytes = defaultSourceBytes := by
  rw [config_eq]

theorem config_maxDiagnostics (o : Options) : o.config.maxDiagnostics = o.maxDiagnostics := by
  rw [config_eq]

theorem permitLimit_lt_max {n : Nat} :
    Supervisor.permitLimit < max n 1 ↔ Supervisor.permitLimit < n := by
  unfold Supervisor.permitLimit
  omega

theorem config_exceeds (o : Options) :
    o.config.maxParallelJobs.any (Supervisor.permitLimit < ·) =
      o.jobs.any (Supervisor.permitLimit < ·) := by
  rw [config_eq]
  cases o.jobs with
  | none => rfl
  | some n => exact decide_eq_decide.mpr permitLimit_lt_max

end Options

/-! ### What is printed -/

theorem join_eq_empty_iff {ss : List String} : String.join ss = "" ↔ ∀ s ∈ ss, s = "" := by
  induction ss with
  | nil => simp
  | cons s ss ih => simp [String.join_cons, ih]

theorem Diagnostic.render_ne_empty (file text : String) (d : Diagnostic) :
    d.render file text ≠ "" := by
  unfold Diagnostic.render
  generalize lineInfo text d.span.start = info
  simp [String.append_eq_empty_iff]

variable {screen : Screen} {plain : Bool}

theorem renderAll_eq_empty_iff {file text : String} {ds : List Diagnostic} :
    renderAll screen plain file text ds = "" ↔ ds = [] := by
  rw [renderAll, join_eq_empty_iff]
  refine ⟨fun h => ?_, by rintro rfl; simp⟩
  cases ds with
  | nil => rfl
  | cons d ds =>
    have hfirst := h _ List.mem_cons_self
    dsimp only at hfirst
    split at hfirst
    · simp [String.append_eq_empty_iff] at hfirst
    · exact absurd hfirst (d.render_ne_empty file text)

namespace Command

theorem renderOutcome_ne_empty {name text : String} {o : Outcome}
    (h : renderOutcome screen plain name o = some text) : text ≠ "" := by
  have hreport {ds : List Diagnostic} {source : String}
      (h : (if ds.isEmpty then none else some (renderAll screen plain name source ds)) = some text) :
      text ≠ "" := by
    cases ds with
    | nil => cases h
    | cons d ds =>
      cases h
      exact mt renderAll_eq_empty_iff.mp (List.cons_ne_nil d ds)
  cases o with
  | completed u ds source => exact hreport h
  | cancelled =>
    cases h
    simp [String.append_eq_empty_iff]
  | failed f =>
    cases f with
    | compile ds source => exact hreport h
    | _ =>
      cases h
      simp [String.append_eq_empty_iff]

/-- Only a clean job leaves nothing to be shown. -/
theorem renderOutcome_eq_none_iff {storage : Storage} {config : Config} {source : Source}
    {name : String} :
    renderOutcome screen plain name (Job.run storage config source .never).outcome = none ↔
      (Job.run storage config source .never).outcome.isClean = true := by
  obtain ⟨f, hf, ho⟩ | ⟨text, -, hreports⟩ := run_reports storage config source
  · rw [ho]
    cases f with
    | compile ds text => cases hf
    | _ => simp [renderOutcome, Outcome.isClean]
  · generalize (Job.run storage config source .never).outcome = o at hreports ⊢
    cases hreports with
    | clean _ _ => simp [renderOutcome, Outcome.isClean]
    | failed hne _ => simp [renderOutcome, Outcome.isClean, hne]
    | completed _ hne _ => simp [renderOutcome, Outcome.isClean, hne]

/-! ### Checks -/

/-- What the job for a file comes to if nobody stops it. -/
abbrev checked (storage : Storage) (config : Config) (file : String) : Outcome :=
  (Job.run storage config (.path file) .never).outcome

abbrev reportOn (storage : Storage) (screen : Screen) (o : Options) : CommandResult :=
  report screen o.plain (o.files.map (fun file => (file, checked storage o.config file)))

variable {storage : Storage} {o o' : Options}

/-- A check reports on its files, unless it was asked for more jobs at once than can be set up. -/
theorem execute_checks (h : o.Checks) :
    execute storage screen o =
      if o.jobs.any (Supervisor.permitLimit < ·) then .panicked
      else .exited (reportOn storage screen o) := by
  have hall := @Supervisor.runAll_eq storage (.ofConfig o.config) nofun (o.files.map Source.path)
  have hfiles : o.files.isEmpty = false := by simpa using h.files
  simp only [execute, h.lexFile, h.parseFile, hfiles, Bool.false_eq_true, if_false]
  rw [checkMode, Supervisor.ofConfig?, Options.config_exceeds]
  cases o.jobs.any (Supervisor.permitLimit < ·) with
  | true => rfl
  | false =>
    simp only [Bool.false_eq_true, if_false, hall, List.map_map]
    rfl

theorem reportOn_exitCode :
    (reportOn storage screen o).exitCode =
      if o.files.all (fun file => (checked storage o.config file).isClean) then 0 else 1 := by
  have hnone : (o.files.map (checked storage o.config)).any (fun r => r.state == .cancelled) =
      false := by
    rw [List.any_map]
    refine List.any_eq_false.mpr (fun file _ hcancelled => ?_)
    have hne := Phase.run_never_ne_cancelled storage o.config (.path file)
    cases ho : checked storage o.config file <;> simp_all [Outcome.state]
  have houtcomes : (o.files.map (fun file => (file, checked storage o.config file))).map (·.2) =
      o.files.map (checked storage o.config) := List.map_map
  rw [reportOn, report, houtcomes, exitCode, hnone, List.all_map]
  rfl

theorem reportOn_stderr :
    (reportOn storage screen o).stderr = String.join (o.files.filterMap (fun file =>
      renderOutcome screen o.plain file (checked storage o.config file))) := by
  rw [reportOn, report]
  simp only [List.filterMap_map]
  rfl

theorem reportOn_silent_iff :
    (reportOn storage screen o).stderr = "" ↔ (reportOn storage screen o).exitCode = 0 := by
  have hall : (∀ s ∈ o.files.filterMap (fun file =>
        renderOutcome screen o.plain file (checked storage o.config file)), s = "") ↔
      ∀ file ∈ o.files, (checked storage o.config file).isClean = true := by
    constructor
    · intro h file hfile
      have hiff := @renderOutcome_eq_none_iff screen o.plain storage o.config (.path file) file
      refine hiff.mp (Option.eq_none_iff_forall_ne_some.mpr (fun text htext => ?_))
      exact renderOutcome_ne_empty htext (h text (List.mem_filterMap.mpr ⟨file, hfile, htext⟩))
    · intro h s hs
      obtain ⟨file, hfile, hs⟩ := List.mem_filterMap.mp hs
      rw [renderOutcome_eq_none_iff.mpr (h file hfile)] at hs
      cases hs
  rw [reportOn_stderr, reportOn_exitCode, join_eq_empty_iff, hall]
  simp

/-- The exit code depends on the files alone, so it may as well be read off the jobs that stop at the
first fault. -/
theorem reportOn_exitCode_failFast (limit : Nat) :
    (reportOn storage screen o).exitCode = if o.files.all (fun file => (checked storage
      { policy := .failFast, maxDiagnostics := limit } file).isClean) then 0 else 1 := by
  have hclean (file : String) : (checked storage o.config file).isClean = (checked storage
      { policy := .failFast, maxDiagnostics := limit } file).isClean := by
    rw [Bool.eq_iff_iff, run_isClean_iff, run_isClean_iff, Options.config_maxSourceBytes]
  rw [reportOn_exitCode]
  simp only [hclean]

/-- A check of files exits with zero if each of them is clean when its first fault ends the job, and
with one otherwise, no matter how many faults are asked for and how they are shown. For each file, one
after the other, it prints what there is to show for its job, which is nothing exactly if the file is
clean. So it prints nothing exactly if it exits with zero. -/
theorem check_exit_code (storage : Storage) (screen : Screen) {o : Options} (h : o.Checks)
    (hj : o.jobs = none) :
    let config : Config := { policy := if o.keepGoing then .accumulate else .failFast,
                             maxDiagnostics := o.maxDiagnostics }
    ∃ r, execute storage screen o = .exited r ∧
      (∀ limit, r.exitCode = if o.files.all (fun file => (checked storage
          { policy := .failFast, maxDiagnostics := limit } file).isClean) then 0 else 1) ∧
      (∀ screen' o', o'.Checks → o'.files = o.files → o'.jobs = none →
        (execute storage screen' o').exitCode = r.exitCode) ∧
      r.stdout = "" ∧ (r.stderr = "" ↔ r.exitCode = 0) ∧
      r.stderr = String.join (o.files.filterMap (fun file =>
        renderOutcome screen o.plain file (checked storage config file))) ∧
      ∀ file ∈ o.files, renderOutcome screen o.plain file (checked storage config file) = none ↔
        (checked storage config file).isClean = true := by
  intro config
  have hconfig : o.config = config := by rw [Options.config_eq, hj]; rfl
  have hexited {screen : Screen} {o : Options} (h : o.Checks) (hj : o.jobs = none) :
      execute storage screen o = .exited (reportOn storage screen o) := by
    rw [execute_checks h, hj]
    rfl
  refine ⟨_, hexited h hj, reportOn_exitCode_failFast, fun screen' o' h' hfiles hj' => ?_, rfl,
    reportOn_silent_iff, hconfig ▸ reportOn_stderr, fun file _ => renderOutcome_eq_none_iff⟩
  rw [hexited h' hj', CommandEnd.exitCode, reportOn_exitCode_failFast 0, hfiles,
    ← reportOn_exitCode_failFast 0]

/-- The second file has a fault, which is shown in one form on a terminal and in another elsewhere. -/
theorem check_exit_code_terminal :
    let storage : Storage := fun path =>
      if path = "a" then .ok ⟨11, .ok "import a.b;".toUTF8⟩ else .ok ⟨8, .ok "import a".toUTF8⟩
    let terminal : Screen := ⟨true, fun file _ view => file ++ ": " ++ view.message⟩
    let o : Options := ⟨["a", "b"], true, none, 100, false, none, none⟩
    (∃ r, execute storage terminal o = .exited r ∧ r.exitCode = 1 ∧
      r.stderr = "b: Expected ';', found end of file\n") ∧
    (execute storage terminal { o with plain := true, keepGoing := false }).exitCode = 1 := by
  intro storage terminal o
  have hchecks : o.Checks := ⟨rfl, rfl, nofun⟩
  have hchecks' : { o with plain := true, keepGoing := false }.Checks := ⟨rfl, rfl, nofun⟩
  obtain ⟨r, hr, hcode, hsame, -, -, hstderr, -⟩ :=
    check_exit_code storage terminal hchecks rfl
  have hone : r.exitCode = 1 := by
    rw [hcode 100]
    decide +kernel
  refine ⟨⟨r, hr, hone, ?_⟩, (hsame terminal _ hchecks' rfl rfl).trans hone⟩
  rw [hstderr]
  decide +kernel

end Command

end DeclFront
