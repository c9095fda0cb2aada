import DeclFront.Proofs.Policies

/-! Each stage can stop at its first fault or keep all of them. The two ways give the same if there
is no fault, and otherwise the first one gives the head of what the second one keeps. -/

namespace DeclFront

theorem lexFailFast_eq_ok_iff {s : String} {tokens : List Token} :
    lexFailFast s = .ok tokens ↔ lex s = .ok tokens := by
  refine ⟨fun h => ?_, lexFailFast_of_ok⟩
  cases hl : lex s with
  | ok tokens' =>
    have hh := (lexFailFast_of_ok hl).symm.trans h
    rw [Except.ok.inj hh]
  | error ds =>
    obtain ⟨d, more, -, hfast⟩ := lexFailFast_of_error hl
    cases hfast.symm.trans h

theorem lexFailFast_eq_error_iff {s : String} {d : Diagnostic} :
    lexFailFast s = .error d ↔ ∃ more, lex s = .error (d :: more) := by
  cases hl : lex s with
  | ok tokens => simp [lexFailFast_of_ok hl]
  | error ds =>
    obtain ⟨d', more, rfl, hfast⟩ := lexFailFast_of_error hl
    simp [hfast]

section Parser

variable {tokens : List Token} {u : CompilationUnit} {d : Diagnostic} {ds : List Diagnostic}

theorem parseAsking_accumulate_iff :
    (parseAsking .accumulate .never tokens).1 = .complete u ds ↔
      (Attempts.ofTokens tokens).unit = u ∧ (Attempts.ofTokens tokens).diagnostics = ds := by
  rw [parseAsking_never]
  simp

theorem parseAsking_failFast_complete_iff :
    (parseAsking .failFast .never tokens).1 = .complete u [] ↔
      (Attempts.ofTokens tokens).unit = u ∧ (Attempts.ofTokens tokens).diagnostics = [] := by
  rw [parseAsking_never]
  cases hd : (Attempts.ofTokens tokens).diagnostics with
  | nil => simp
  | cons d more => simp

theorem parseAsking_failFast_failed_iff :
    (parseAsking .failFast .never tokens).1 = .failed d ↔
      ∃ more, (Attempts.ofTokens tokens).diagnostics = d :: more := by
  rw [parseAsking_never]
  cases hd : (Attempts.ofTokens tokens).diagnostics with
  | nil => simp
  | cons d' more => simp

theorem parse_eq_ok_iff :
    parse tokens = .ok u ↔
      (Attempts.ofTokens tokens).unit = u ∧ (Attempts.ofTokens tokens).diagnostics = [] := by
  rw [parse, parseAsking_never]
  cases (Attempts.ofTokens tokens).diagnostics with
  | nil => simp
  | cons d more => simp

theorem parse_eq_error_iff :
    parse tokens = .error ds ↔ ds ≠ [] ∧ (Attempts.ofTokens tokens).diagnostics = ds := by
  rw [parse, parseAsking_never]
  cases (Attempts.ofTokens tokens).diagnostics with
  | nil => simp [eq_comm]
  | cons d more =>
    simp only [Except.error.injEq]
    constructor
    · rintro rfl
      exact ⟨by simp, rfl⟩
    · exact fun h => h.2

end Parser

/-- Lexing, parsing and checking stop at the first of the faults that they would find if they went
on, and give the same as then if there are none. -/
theorem first_fault_of_each_stage :
    (∀ s tokens, lexFailFast s = .ok tokens ↔ lex s = .ok tokens) ∧
    (∀ s d, lexFailFast s = .error d ↔ ∃ more, lex s = .error (d :: more)) ∧
    (∀ tokens,
      let fast := (parseAsking .failFast .never tokens).1
      let full := (parseAsking .accumulate .never tokens).1
      (∀ u, fast = .complete u [] ↔ full = .complete u []) ∧
      (∀ d, fast = .failed d ↔ ∃ u more, full = .complete u (d :: more)) ∧
      (∀ u, parse tokens = .ok u ↔ fast = .complete u []) ∧
      ∀ ds, parse tokens = .error ds ↔ ds ≠ [] ∧ ∃ u, full = .complete u ds) ∧
    ∀ u, checkUnit .failFast u = (checkUnit .accumulate u).take 1 := by
  refine ⟨fun _ _ => lexFailFast_eq_ok_iff, fun _ _ => lexFailFast_eq_error_iff, fun tokens => ?_,
    checkUnit_failFast⟩
  intro fast full
  refine ⟨fun u => ?_, fun d => ?_, fun u => ?_, fun ds => ?_⟩
  · rw [parseAsking_failFast_complete_iff, parseAsking_accumulate_iff]
  · rw [parseAsking_failFast_failed_iff]
    simp [full, parseAsking_accumulate_iff]
  · rw [parse_eq_ok_iff, parseAsking_failFast_complete_iff]
  · rw [parse_eq_error_iff]
    simp [full, parseAsking_accumulate_iff]

end DeclFront
