import DeclFront.Proofs.Policies

/-! What a job that nobody stops reports on its text. All that is wrong with a text is one list,
whatever the configuration; a policy keeps its head or the whole of it, and the cap cuts it short. -/

namespace DeclFront

/-! ### Capped reports -/

/-- The same diagnostic, perhaps with more notes behind its own. -/
def Diagnostic.Noted (d d' : Diagnostic) : Prop :=
  ∃ more, d' = { d with notes := d.notes ++ more }

theorem Diagnostic.Noted.refl (d : Diagnostic) : d.Noted d := ⟨[], by simp⟩

theorem mem_capDiagnostics {limit : Nat} {ds : List Diagnostic} {d : Diagnostic}
    (h : d ∈ capDiagnostics limit ds) : ∃ d₀ ∈ ds, d₀.Noted d := by
  by_cases hfits : limit = 0 ∨ ds.length ≤ limit
  · rw [capDiagnostics_of_fits hfits] at h
    exact ⟨d, h, .refl d⟩
  · rw [capDiagnostics, if_neg hfits] at h
    rcases List.mem_append.mp h with h | h
    · exact ⟨d, List.mem_of_mem_take (List.dropLast_subset _ h), .refl d⟩
    · obtain ⟨d₀, hlast, rfl⟩ := Option.map_eq_some_iff.mp (Option.mem_toList.mp h)
      exact ⟨d₀, List.mem_of_mem_take (List.mem_of_getLast? hlast), _, rfl⟩

/-- A cap never hides that there is something to report. -/
theorem capDiagnostics_eq_nil_iff {limit : Nat} {ds : List Diagnostic} :
    capDiagnostics limit ds = [] ↔ ds = [] := by
  refine ⟨fun h => ?_, by rintro rfl; simp⟩
  by_cases hfits : limit = 0 ∨ ds.length ≤ limit
  · rwa [capDiagnostics_of_fits hfits] at h
  · rw [capDiagnostics, if_neg hfits] at h
    obtain ⟨-, hlast⟩ := List.append_eq_nil_iff.mp h
    have hkept : ds.take limit = [] := by simpa using hlast
    have hlimit : limit ≠ 0 := fun hz => hfits (.inl hz)
    simpa [hlimit] using hkept

theorem sortDiagnostics_eq_nil_iff {ds : List Diagnostic} : sortDiagnostics ds = [] ↔ ds = [] := by
  rw [← List.length_eq_zero_iff, ← List.length_eq_zero_iff, sortDiagnostics, List.length_mergeSort]

theorem sortDiagnostics_singleton (d : Diagnostic) : sortDiagnostics [d] = [d] :=
  List.mergeSort_singleton d

/-! ### All that is wrong -/

namespace Job

/-- All that is wrong with a text: its lexical faults, and if it has none, those of the parser and
behind them those of the rules. -/
def faults (text : String) : List Diagnostic :=
  match lex text with
  | .error ds => ds
  | .ok tokens =>
    (Attempts.ofTokens tokens).diagnostics ++ checkUnit .accumulate (Attempts.ofTokens tokens).unit

variable {config : Config} {text : String} {tokens : List Token} {ds : List Diagnostic}

theorem faults_of_error (h : lex text = .error ds) : faults text = ds := by simp [faults, h]

theorem faults_of_ok (h : lex text = .ok tokens) :
    faults text = (Attempts.ofTokens tokens).diagnostics ++
      checkUnit .accumulate (Attempts.ofTokens tokens).unit := by simp [faults, h]

theorem process_error (h : lex text = .error ds) :
    (process config .never text).1 =
      failedWith config (if config.policy = .failFast then ds.take 1 else ds) text := by
  obtain ⟨d, more, rfl, hfast⟩ := lexFailFast_of_error h
  rw [process_never]
  cases config.policy with
  | accumulate => simp [lexBy, h]
  | failFast => simp [lexBy, hfast, mapError_error]

theorem process_accumulate (hp : config.policy = .accumulate) (h : lex text = .ok tokens) :
    (process config .never text).1 = .completed (Attempts.ofTokens tokens).unit
      (capDiagnostics config.maxDiagnostics (sortDiagnostics (faults text))) text := by
  rw [process_never, faults_of_ok h, hp]
  simp [lexBy, h, finish, hp]

/-- Under fail-fast the first of all faults ends the job, whichever stage it comes from. -/
theorem process_failFast (hp : config.policy = .failFast) (h : lex text = .ok tokens) :
    (process config .never text).1 = match faults text with
      | [] => .completed (Attempts.ofTokens tokens).unit [] text
      | d :: _ => .failed (.compile [d] text) := by
  rw [process_never, faults_of_ok h, hp]
  simp only [lexBy, lexFailFast_of_ok h, mapError_ok]
  cases (Attempts.ofTokens tokens).diagnostics with
  | cons d more => simp [failedWith]
  | nil =>
    have hfirst := checkUnit_failFast (Attempts.ofTokens tokens).unit
    cases hc : checkUnit .accumulate (Attempts.ofTokens tokens).unit with
    | nil => simp [finish, hp, hfirst, hc, sortDiagnostics_nil]
    | cons d more => simp [finish, hp, hfirst, hc, failedWith]

/-! ### Outcomes -/

/-- What a job comes to: it is clean if nothing is wrong with its text; else it fails or completes
with a report that is not empty and whose diagnostics are among the faults of the text. -/
inductive Reports (text : String) : Outcome → Prop
  | clean {tokens : List Token} : lex text = .ok tokens → faults text = [] →
      Reports text (.completed (Attempts.ofTokens tokens).unit [] text)
  | failed {ds : List Diagnostic} : ds ≠ [] → (∀ d ∈ ds, ∃ d₀ ∈ faults text, d₀.Noted d) →
      Reports text (.failed (.compile ds text))
  | completed {tokens : List Token} {ds : List Diagnostic} : lex text = .ok tokens → ds ≠ [] →
      (∀ d ∈ ds, ∃ d₀ ∈ faults text, d₀.Noted d) →
      Reports text (.completed (Attempts.ofTokens tokens).unit ds text)

theorem process_reports (config : Config) (text : String) :
    Reports text (process config .never text).1 := by
  cases h : lex text with
  | error ds =>
    obtain ⟨d, more, rfl, -⟩ := lexFailFast_of_error h
    rw [process_error h, failedWith]
    refine .failed (fun hnil => ?_) (fun d' hd' => ?_)
    · have hkept := capDiagnostics_eq_nil_iff.mp hnil
      split at hkept <;> simp at hkept
    · obtain ⟨d₀, hmem, hnoted⟩ := mem_capDiagnostics hd'
      refine ⟨d₀, ?_, hnoted⟩
      rw [faults_of_error h]
      split at hmem
      · exact List.mem_of_mem_take hmem
      · exact hmem
  | ok tokens =>
    cases hp : config.policy with
    | accumulate =>
      rw [process_accumulate hp h]
      cases hf : faults text with
      | nil =>
        rw [sortDiagnostics_nil, capDiagnostics_nil]
        exact .clean h hf
      | cons d more =>
        rw [← hf]
        refine .completed h (fun hnil => ?_) (fun d' hd' => ?_)
        · have hnone := sortDiagnostics_eq_nil_iff.mp (capDiagnostics_eq_nil_iff.mp hnil)
          cases hf.symm.trans hnone
        · obtain ⟨d₀, hmem, hnoted⟩ := mem_capDiagnostics hd'
          exact ⟨d₀, mem_sortDiagnostics.mp hmem, hnoted⟩
    | failFast =>
      rw [process_failFast hp h]
      cases hf : faults text with
      | nil => exact .clean h hf
      | cons d more =>
        refine .failed (by simp) (fun d' hd' => ?_)
        obtain rfl := List.mem_singleton.mp hd'
        exact ⟨d', by simp [hf], .refl d'⟩

theorem Reports.isClean_iff {o : Outcome} (h : Reports text o) :
    o.isClean = true ↔ faults text = [] := by
  have hnonempty {ds : List Diagnostic} (hne : ds ≠ [])
      (hds : ∀ d ∈ ds, ∃ d₀ ∈ faults text, d₀.Noted d) : faults text ≠ [] := by
    obtain ⟨d, hd⟩ := List.exists_mem_of_ne_nil ds hne
    obtain ⟨d₀, hmem, -⟩ := hds d hd
    exact List.ne_nil_of_mem hmem
  cases h with
  | clean _ hf => simp [Outcome.isClean, hf]
  | failed hne hds => simp [Outcome.isClean, hnonempty hne hds]
  | completed _ hne hds => simp [Outcome.isClean, hne, hnonempty hne hds]

theorem Reports.text?_eq {o : Outcome} (h : Reports text o) : o.text? = some text := by
  cases h <;> rfl

end Job

/-- A job either does not get hold of its text, or reports on it. -/
theorem run_reports (storage : Storage) (config : Config) (source : Source) :
    (∃ f : JobFailure, f.isUnread = true ∧
      (Job.run storage config source .never).outcome = .failed f) ∨
    ∃ text, source.read storage config.maxSourceBytes = .ok text ∧
      Job.Reports text (Job.run storage config source .never).outcome := by
  rw [run_never_outcome]
  cases hread : source.read storage config.maxSourceBytes with
  | error f => exact .inl ⟨f, Source.read_error hread, rfl⟩
  | ok text => exact .inr ⟨text, rfl, Job.process_reports config text⟩

/-- Whether a job is clean depends on its text alone, and not on what is done about faults. -/
theorem run_isClean_iff {storage : Storage} {config : Config} {source : Source} :
    (Job.run storage config source .never).outcome.isClean = true ↔
      ∃ text, source.read storage config.maxSourceBytes = .ok text ∧ Job.faults text = [] := by
  rw [run_never_outcome]
  cases source.read storage config.maxSourceBytes with
  | error f => simp [Outcome.isClean]
  | ok text => simp [(Job.process_reports config text).isClean_iff]

end DeclFront
