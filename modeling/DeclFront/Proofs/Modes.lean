import DeclFront.Proofs.CheckMode
import DeclFront.Proofs.FirstFault

/-! The three modes of the command on one file. A check needs what printing the tree needs, and that
needs what printing the tokens needs; all that a check can add are the findings of the rules. -/

namespace DeclFront

/-! ### What is wrong with a text -/

namespace Job

variable {config : Config} {text : String} {tokens : List Token} {u : CompilationUnit}

theorem faults_of_parsed (hl : lex text = .ok tokens) (hp : parse tokens = .ok u) :
    faults text = checkUnit .accumulate u := by
  obtain ⟨rfl, hnone⟩ := parse_eq_ok_iff.mp hp
  rw [faults_of_ok hl, hnone, List.nil_append]

/-- Nothing is wrong with a text if it can be lexed and parsed and the rules find nothing. -/
theorem faults_eq_nil_iff :
    faults text = [] ↔ ∃ tokens u, lex text = .ok tokens ∧ parse tokens = .ok u ∧
      checkUnit .accumulate u = [] := by
  constructor
  · intro h
    cases hl : lex text with
    | error ds =>
      obtain ⟨d, more, rfl, -⟩ := lexFailFast_of_error hl
      cases (faults_of_error hl).symm.trans h
    | ok tokens =>
      rw [faults_of_ok hl] at h
      obtain ⟨hparsed, hchecked⟩ := List.append_eq_nil_iff.mp h
      exact ⟨tokens, _, rfl, parse_eq_ok_iff.mpr ⟨rfl, hparsed⟩, hchecked⟩
  · rintro ⟨tokens, u, hl, hp, hchecked⟩
    rw [faults_of_parsed hl hp, hchecked]

/-- A job on a text that can be parsed reports what the rules find, in order and cut short. -/
theorem process_diagnostics (hl : lex text = .ok tokens) (hp : parse tokens = .ok u) :
    (process config .never text).1.diagnostics =
      capDiagnostics config.maxDiagnostics (sortDiagnostics (checkUnit config.policy u)) := by
  cases hpolicy : config.policy with
  | accumulate =>
    rw [process_accumulate hpolicy hl, faults_of_parsed hl hp]
    rfl
  | failFast =>
    rw [process_failFast hpolicy hl, faults_of_parsed hl hp, checkUnit_failFast]
    cases checkUnit .accumulate u with
    | nil => simp [Outcome.diagnostics, sortDiagnostics_nil]
    | cons d more => simp [Outcome.diagnostics, sortDiagnostics_singleton]

end Job

/-! ### Modes -/

namespace Command

variable {storage : Storage} {screen : Screen} {file : String} {o : Options}

theorem lexMode_exit_iff :
    (lexMode storage screen o file).exitCode = 0 ↔ ∃ text tokens,
      (Source.path file).read storage defaultSourceBytes = .ok text ∧ lex text = .ok tokens := by
  rw [lexMode, withSource, Options.config_maxSourceBytes]
  cases (Source.path file).read storage defaultSourceBytes with
  | error f => simp [failure]
  | ok text =>
    cases hl : lex text with
    | error ds => simp [reject, failure, hl]
    | ok tokens => simp [success, hl]

theorem parseMode_of_parsed {text : String} {tokens : List Token} {u : CompilationUnit}
    (hread : (Source.path file).read storage defaultSourceBytes = .ok text)
    (hl : lex text = .ok tokens) (hp : parse tokens = .ok u) :
    parseMode storage screen o file = success (u.dump.block 0 ++ "\n") := by
  rw [parseMode, withSource, Options.config_maxSourceBytes, hread]
  simp only [hl, hp]

theorem parseMode_exit_iff :
    (parseMode storage screen o file).exitCode = 0 ↔ ∃ text tokens u,
      (Source.path file).read storage defaultSourceBytes = .ok text ∧ lex text = .ok tokens ∧
      parse tokens = .ok u := by
  rw [parseMode, withSource, Options.config_maxSourceBytes]
  cases (Source.path file).read storage defaultSourceBytes with
  | error f => simp [failure]
  | ok text =>
    cases hl : lex text with
    | error ds => simp [reject, failure, hl]
    | ok tokens => cases hp : parse tokens <;> simp [reject, failure, success, hl, hp]

/-- Zero is the code of clean files only, also if the number of jobs ends the check. -/
theorem execute_clean (h : o.Checks) (hzero : (execute storage screen o).exitCode = 0) :
    ∀ file ∈ o.files, (checked storage o.config file).isClean = true := by
  rw [execute_checks h] at hzero
  cases hmany : o.jobs.any (Supervisor.permitLimit < ·) with
  | true => simp [hmany, CommandEnd.exitCode] at hzero
  | false =>
    rw [hmany, if_neg Bool.false_ne_true, CommandEnd.exitCode, reportOn_exitCode] at hzero
    split at hzero
    · next hall => exact List.all_eq_true.mp hall
    · cases hzero

theorem execute_lexFile (h : o.lexFile = some file) :
    execute storage screen o = .exited (lexMode storage screen o file) := by
  simp only [execute, h]

theorem execute_parseFile (hl : o.lexFile = none) (hp : o.parseFile = some file) :
    execute storage screen o = .exited (parseMode storage screen o file) := by
  simp only [execute, hl, hp]

/-- A file that passes the check can be parsed, and one that can be parsed can be lexed, with any
other options. If it can be parsed, the check reports what the rules find in the unit that is printed,
and nothing else. -/
theorem modes_agree (storage : Storage) (screen : Screen) {file : String} {c p l : Options}
    (hc : c.Checks) (hcfile : c.files = [file]) (hp : p.lexFile = none)
    (hpfile : p.parseFile = some file) (hlfile : l.lexFile = some file) :
    let check := execute storage screen c
    let print := execute storage screen p
    (check.exitCode = 0 → print.exitCode = 0) ∧
    (print.exitCode = 0 → (execute storage screen l).exitCode = 0) ∧
    (print.exitCode = 0 → ∃ text tokens u,
      (Source.path file).read storage defaultSourceBytes = .ok text ∧ lex text = .ok tokens ∧
      parse tokens = .ok u ∧ print = .exited ⟨0, u.dump.block 0 ++ "\n", ""⟩ ∧
      (checked storage c.config file).diagnostics =
        capDiagnostics c.maxDiagnostics (sortDiagnostics (checkUnit c.config.policy u)) ∧
      ∀ d ∈ (checked storage c.config file).diagnostics,
        d.cause = .semantic ∧ ∃ d₀ ∈ checkUnit c.config.policy u, d₀.Noted d) := by
  intro check print
  have hparsed : print.exitCode = 0 ↔ ∃ text tokens u,
      (Source.path file).read storage defaultSourceBytes = .ok text ∧ lex text = .ok tokens ∧
      parse tokens = .ok u := by
    rw [show print = _ from execute_parseFile hp hpfile]
    exact parseMode_exit_iff
  have hlexed : (execute storage screen l).exitCode = 0 ↔ ∃ text tokens,
      (Source.path file).read storage defaultSourceBytes = .ok text ∧ lex text = .ok tokens := by
    rw [execute_lexFile hlfile]
    exact lexMode_exit_iff
  refine ⟨fun hcheck => ?_, fun hparse => ?_, fun hparse => ?_⟩
  · have hclean := execute_clean hc hcheck file (by simp [hcfile])
    obtain ⟨text, hread, hnone⟩ := run_isClean_iff.mp hclean
    obtain ⟨tokens, u, hlex, hparse, -⟩ := Job.faults_eq_nil_iff.mp hnone
    rw [Options.config_maxSourceBytes] at hread
    exact hparsed.mpr ⟨text, tokens, u, hread, hlex, hparse⟩
  · obtain ⟨text, tokens, u, hread, hlex, -⟩ := hparsed.mp hparse
    exact hlexed.mpr ⟨text, tokens, hread, hlex⟩
  · obtain ⟨text, tokens, u, hread, hlex, hunit⟩ := hparsed.mp hparse
    have hprinted : print = .exited ⟨0, u.dump.block 0 ++ "\n", ""⟩ := by
      rw [show print = _ from execute_parseFile hp hpfile, parseMode_of_parsed hread hlex hunit]
      rfl
    have hreport : (checked storage c.config file).diagnostics =
        capDiagnostics c.maxDiagnostics (sortDiagnostics (checkUnit c.config.policy u)) := by
      rw [checked, run_never_outcome, Options.config_maxSourceBytes, hread,
        ← Options.config_maxDiagnostics]
      exact Job.process_diagnostics hlex hunit
    refine ⟨text, tokens, u, hread, hlex, hunit, hprinted, hreport, fun d hd => ?_⟩
    rw [hreport] at hd
    obtain ⟨d₀, hmem, hnoted⟩ := mem_capDiagnostics hd
    have hfound : d₀ ∈ checkUnit c.config.policy u := mem_sortDiagnostics.mp hmem
    have hsemantic : d₀.cause = .semantic := checkUnit_semantic hfound
    obtain ⟨more, rfl⟩ := hnoted
    exact ⟨hsemantic, d₀, hfound, more, rfl⟩

/-- The check keeps going, and the tokens are asked for with a number of jobs. -/
theorem modes_agree_import :
    let storage : Storage := fun _ => .ok ⟨11, .ok "import a.b;".toUTF8⟩
    let screen : Screen := ⟨false, fun _ _ _ => ""⟩
    let c : Options := ⟨["a"], true, none, 100, false, none, none⟩
    let p : Options := ⟨[], false, none, 100, false, none, some "a"⟩
    let l : Options := ⟨[], false, some 0, 100, false, some "a", none⟩
    (execute storage screen c).exitCode = 0 ∧ (execute storage screen p).exitCode = 0 ∧
      (execute storage screen l).exitCode = 0 ∧
      ∃ tokens u, lex "import a.b;" = .ok tokens ∧ parse tokens = .ok u ∧
        execute storage screen p = .exited ⟨0, u.dump.block 0 ++ "\n", ""⟩ := by
  intro storage screen c p l
  have hc : c.Checks := ⟨rfl, rfl, nofun⟩
  obtain ⟨hparse, hlex, hunit⟩ :=
    modes_agree storage screen hc rfl (p := p) rfl rfl (l := l) rfl
  have hclean : (execute storage screen c).exitCode = 0 := by decide +kernel
  have hbytes : String.fromUTF8? "import a.b;".toByteArray = some "import a.b;" := by decide +kernel
  have hread : (Source.path "a").read storage defaultSourceBytes = .ok "import a.b;" := by
    simp [Source.read, storage, decodeText, hbytes, defaultSourceBytes]
  obtain ⟨text, tokens, u, htext, hlexed, hparsed, hprinted, -⟩ := hunit (hparse hclean)
  obtain rfl : text = "import a.b;" := Except.ok.inj (htext.symm.trans hread)
  exact ⟨hclean, hparse hclean, hlex (hparse hclean), tokens, u, hlexed, hparsed, hprinted⟩

end Command

end DeclFront
