import DeclFront.Proofs.Blame
import DeclFront.Proofs.Phases
import DeclFront.Proofs.QuotedLiterals
import DeclFront.Proofs.Stateful

/-! Stopping at the first fault, and keeping all of them. Stage by stage the first way ends with the
first fault of the second; over a whole job the order of the report hides which one that was. -/

namespace DeclFront

/-! ### Lexing -/

namespace Cursor

variable {c c' : Cursor} {t : Token} {d : Diagnostic}

/-- The test at which the reading of tokens ends. -/
abbrev atEnd (t : Token) : Fallible.Stateful Cursor Bool := pure t.isEnd

theorem rejects_of_token (h : c.next? = some (.ok t, c')) : Fallible.Rejects draw atEnd c t c' := by
  refine ⟨c', next_of_some h, ?_⟩
  rw [atEnd, next?_proper h]
  rfl

theorem finishes_of_fault (h : c.next? = some (.error d, c')) :
    Fallible.Finishes draw atEnd c (.error d) c' := .unsupplied (next_of_some h)

theorem finishes_of_none (h : c.next? = none) :
    Fallible.Finishes draw atEnd c (.ok (.endAt c.limit)) ⟨c.limit, []⟩ :=
  .accepted (next_of_none h) rfl

/-- Drawing token after token ends at the first fault. A limit above the number of characters is
high enough. -/
theorem drain_eq (c : Cursor) {limit : Nat} (hlimit : c.rest.length < limit) :
    ((Fallible.drainUntil draw atEnd limit).run c).1 =
      match c.results.filterMap Diagnostic.of? with
      | [] => .ok (c.results.filterMap Except.toOption ++ [.endAt c.limit])
      | d :: _ => .error d := by
  obtain ⟨limit, rfl⟩ := Nat.exists_eq_add_one_of_ne_zero (Nat.ne_of_gt (Nat.zero_lt_of_lt hlimit))
  fun_induction results c generalizing limit with
  | case1 c r c' hn ih =>
    have hshorter := next?_shorter hn
    cases r with
    | error d =>
      rw [Fallible.run_drainUntil_finishes (finishes_of_fault hn)]
      rfl
    | ok t =>
      obtain ⟨limit, rfl⟩ : ∃ n, limit = n + 1 := ⟨limit - 1, by omega⟩
      rw [Fallible.run_drainUntil_rejects (rejects_of_token hn), ih limit (by omega),
        next?_limit hn]
      show _ = match c'.results.filterMap Diagnostic.of? with
        | [] => Except.ok (t :: c'.results.filterMap Except.toOption ++ [Token.endAt c.limit])
        | d :: _ => .error d
      cases c'.results.filterMap Diagnostic.of? <;> rfl
  | case2 c hn =>
    rw [Fallible.run_drainUntil_finishes (finishes_of_none hn)]
    rfl

end Cursor

theorem lexFailFast_eq (s : String) :
    lexFailFast s = match (lexResults s).filterMap Diagnostic.of? with
      | [] => .ok ((lexResults s).filterMap Except.toOption ++ [endToken s])
      | d :: _ => .error d := by
  have hdrained := Cursor.drain_eq (Cursor.ofText s) (Nat.lt_succ_self _)
  rw [Cursor.limit_ofText] at hdrained
  exact hdrained

theorem lexFailFast_of_ok {s : String} {tokens : List Token} (h : lex s = .ok tokens) :
    lexFailFast s = .ok tokens := by
  rw [lex_eq] at h
  rw [lexFailFast_eq]
  split at h <;> cases h
  next hd => rw [hd]

theorem lexFailFast_of_error {s : String} {ds : List Diagnostic} (h : lex s = .error ds) :
    ∃ d rest, ds = d :: rest ∧ lexFailFast s = .error d := by
  have hds := lex_eq_error h
  rw [lexFailFast_eq, ← hds]
  cases ds with
  | nil =>
    rw [lex_eq, ← hds] at h
    cases h
  | cons d rest => exact ⟨d, rest, rfl, rfl⟩

theorem Cursor.results_lexical {c : Cursor} {d : Diagnostic} (h : .error d ∈ c.results) :
    d.isLexical = true := by
  fun_induction results c with
  | case1 c r c' hn ih =>
    rcases List.mem_cons.mp h with rfl | h
    · obtain ⟨skipped, sc, -, -, -, hr, -⟩ := next?_eq_some hn
      unfold Scanned.placed at hr
      split at hr <;> cases hr
      rfl
    · exact ih h
  | case2 c hn => cases h

theorem lex_error_lexical {s : String} {ds : List Diagnostic} {d : Diagnostic}
    (h : lex s = .error ds) (hd : d ∈ ds) : d.isLexical = true := by
  rw [lex_eq_error h] at hd
  obtain ⟨r, hr, he⟩ := List.mem_filterMap.mp hd
  rw [of?_eq_some.mp he] at hr
  exact Cursor.results_lexical hr

/-! ### Parsing -/

theorem cutAtEnd_mem {tokens : List Token} (h : ∃ t ∈ tokens, t.isEnd = true) :
    (cutAtEnd tokens).2 ∈ tokens := by
  obtain ⟨t, hfind⟩ := Option.isSome_iff_exists.mp (List.find?_isSome.mpr h)
  have hcut : (cutAtEnd tokens).2 = t := by simp [cutAtEnd, hfind]
  rw [hcut]
  exact List.mem_of_find?_eq_some hfind

theorem lex_ends {s : String} {tokens : List Token} (h : lex s = .ok tokens) :
    ∃ t ∈ tokens, t.isEnd = true := by
  obtain ⟨ts, -, rfl⟩ := lex_eq_ok_iff.mp h
  exact ⟨endToken s, by simp, rfl⟩

theorem lex_diagnostics_blame {s : String} {tokens : List Token} {d : Diagnostic}
    (h : lex s = .ok tokens) (hd : d ∈ (Attempts.ofTokens tokens).diagnostics) :
    ∃ t ∈ tokens, Blames t d := by
  obtain ⟨t, ht, hblame⟩ := Attempts.diagnostics_blame rfl hd
  refine ⟨t, ?_, hblame⟩
  -- The end mark is one of the tokens too, since every text has one.
  rcases List.mem_cons.mp ht with rfl | ht
  · exact cutAtEnd_mem (lex_ends h)
  · exact List.takeWhile_subset _ ht

/-- No fault of the parser is lexical, since the lexer has seen to the literals. -/
theorem lex_diagnostics_not_lexical {s : String} {tokens : List Token} {d : Diagnostic}
    (h : lex s = .ok tokens) (hd : d ∈ (Attempts.ofTokens tokens).diagnostics) :
    d.isLexical = false := by
  obtain ⟨t, ht, hblame⟩ := lex_diagnostics_blame h hd
  cases hblame with
  | illegal => rfl
  | misplaced => rfl
  | literal hl =>
    rcases lex_readLiteral_error h ht hl with ⟨type, rfl⟩ | rfl
    · rfl
    · rfl

/-! ### Checks -/

theorem Rules.accept_cons (r : Rule) (seen : Seen) (rules : Rules) (member : Member) :
    accept ((r, seen) :: rules) member =
      ((r.accept seen member).1, r, (r.accept seen member).2) :: accept rules member := rfl

theorem Rules.acceptAll_eq (member : Member) (rules : Rules) :
    acceptAll member rules = match (rules.accept member).filterMap (·.1) with
      | [] => .ok ((rules.accept member).map (·.2))
      | d :: _ => .error d := by
  induction rules with
  | nil => rfl
  | cons rule rules ih =>
    obtain ⟨r, seen⟩ := rule
    rw [acceptAll, accept_cons, ih]
    generalize r.accept seen member = result
    generalize accept rules member = results
    obtain ⟨fault, seen'⟩ := result
    cases fault with
    | some d => rfl
    | none =>
      have hskip : ((none, r, seen') :: results).filterMap (·.1) = results.filterMap (·.1) := rfl
      rw [hskip]
      cases results.filterMap (·.1) <;> rfl

theorem Rules.firstFault?_eq_head? (rules : Rules) (members : List (Spanned Member)) :
    rules.firstFault? members = (rules.faults members).head? := by
  induction members generalizing rules with
  | nil => rfl
  | cons m members ih =>
    rw [firstFault?, faults, acceptAll_eq]
    cases (rules.accept m.node).filterMap (·.1) with
    | nil => exact ih _
    | cons d rest => rfl

theorem modifierFault?_semantic {earlier : List Modifier} {ms : List (Spanned Modifier)}
    {d : Diagnostic} (h : modifierFault? earlier ms = some d) : d.cause = .semantic := by
  induction ms generalizing earlier with
  | nil => cases h
  | cons m ms ih =>
    rw [modifierFault?] at h
    split at h
    · cases h
      rfl
    · split at h
      · cases h
        rfl
      · exact ih h

theorem parameterFault?_semantic {earlier : List String} {ps : List (Spanned Param)}
    {d : Diagnostic} (h : parameterFault? earlier ps = some d) : d.cause = .semantic := by
  induction ps generalizing earlier with
  | nil => cases h
  | cons p ps ih =>
    rw [parameterFault?] at h
    split at h
    · cases h
      rfl
    · exact ih h

theorem initializerFault?_semantic {t : TypeNode} {init : Spanned Literal} {d : Diagnostic}
    (h : initializerFault? t init = some d) : d.cause = .semantic := by
  unfold initializerFault? at h
  split at h
  · cases h
    rfl
  · split at h <;> cases h
    rfl

theorem Rule.accept_semantic {r : Rule} {seen : Seen} {m : Member} {d : Diagnostic}
    (h : (r.accept seen m).1 = some d) : d.cause = .semantic := by
  unfold accept at h
  split at h
  · exact modifierFault?_semantic h
  · exact parameterFault?_semantic h
  · split at h <;> cases h
    rfl
  · split at h <;> cases h
    rfl
  · obtain ⟨init, -, hinit⟩ := Option.bind_eq_some_iff.mp h
    exact initializerFault?_semantic hinit
  · cases h

theorem Rules.faults_semantic {rules : Rules} {members : List (Spanned Member)} {d : Diagnostic}
    (h : d ∈ rules.faults members) : d.cause = .semantic := by
  induction members generalizing rules with
  | nil => cases h
  | cons m members ih =>
    rcases List.mem_append.mp h with h | h
    · obtain ⟨result, hresult, hfault⟩ := List.mem_filterMap.mp h
      obtain ⟨⟨r, seen⟩, -, rfl⟩ := List.mem_map.mp hresult
      exact Rule.accept_semantic hfault
    · exact ih h

theorem checkUnit_failFast (u : CompilationUnit) :
    checkUnit .failFast u = (checkUnit .accumulate u).take 1 := by
  rw [checkUnit, checkUnit, Rules.firstFault?_eq_head?, List.take_one]

theorem checkUnit_semantic {policy : Policy} {u : CompilationUnit} {d : Diagnostic}
    (h : d ∈ checkUnit policy u) : d.cause = .semantic := by
  cases policy with
  | accumulate => exact Rules.faults_semantic h
  | failFast =>
    rw [checkUnit_failFast] at h
    exact Rules.faults_semantic (List.mem_of_mem_take h)

/-! ### Reports -/

theorem capDiagnostics_of_fits {limit : Nat} {ds : List Diagnostic}
    (h : limit = 0 ∨ ds.length ≤ limit) : capDiagnostics limit ds = ds := if_pos h

@[simp] theorem capDiagnostics_zero (ds : List Diagnostic) : capDiagnostics 0 ds = ds :=
  capDiagnostics_of_fits (.inl rfl)

@[simp] theorem capDiagnostics_nil (limit : Nat) : capDiagnostics limit [] = [] :=
  capDiagnostics_of_fits (.inr (Nat.zero_le limit))

@[simp] theorem capDiagnostics_singleton (limit : Nat) (d : Diagnostic) :
    capDiagnostics limit [d] = [d] := by
  have hfits : limit = 0 ∨ [d].length ≤ limit := by
    simp only [List.length_singleton]
    omega
  exact capDiagnostics_of_fits hfits

theorem mem_sortDiagnostics {d : Diagnostic} {ds : List Diagnostic} :
    d ∈ sortDiagnostics ds ↔ d ∈ ds := List.mem_mergeSort

theorem sortDiagnostics_nil : sortDiagnostics [] = [] := List.mergeSort_nil

/-! ### Jobs -/

/-- The source could not be had, or not as a whole. -/
def JobFailure.isUnread : JobFailure → Bool
  | io _ _ | tooLarge _ _ _ => true
  | compile _ _ | aborted _ => false

/-- The job ended without a text. -/
def Outcome.isUnread : Outcome → Bool
  | failed f => f.isUnread
  | _ => false

theorem Source.read_error {storage : Storage} {limit : Nat} {source : Source} {f : JobFailure}
    (h : source.read storage limit = .error f) : f.isUnread = true := by
  cases source with
  | inline name text => cases h
  | path p =>
    rw [Source.read] at h
    cases hs : storage p with
    | error e =>
      rw [hs] at h
      cases h
      rfl
    | ok stored =>
      rw [hs, mapError_ok, ok_bind] at h
      by_cases hsize : limit < stored.size
      · simp only [hsize, if_true] at h
        cases h
        rfl
      · simp only [hsize, if_false] at h
        cases hc : stored.content >>= decodeText with
        | error e =>
          simp only [hc] at h
          cases h
          rfl
        | ok text => simp [hc] at h

theorem run_never_outcome (storage : Storage) (config : Config) (source : Source) :
    (Job.run storage config source .never).outcome =
      match source.read storage config.maxSourceBytes with
      | .error f => .failed f
      | .ok text => (Job.process config .never text).1 := by
  unfold Job.run
  cases source.read storage config.maxSourceBytes <;> rfl

theorem process_never (config : Config) (text : String) :
    (Job.process config .never text).1 =
      match Job.lexBy config.policy text with
      | .error ds => Job.failedWith config ds text
      | .ok tokens =>
        match config.policy, (Attempts.ofTokens tokens).diagnostics with
        | .failFast, d :: _ => Job.failedWith config [d] text
        | _, ds => Job.finish config text (Attempts.ofTokens tokens).unit ds := by
  unfold Job.process
  cases Job.lexBy config.policy text with
  | error ds => rfl
  | ok tokens =>
    have hparse := parseAsking_never config.policy tokens
    simp only
    generalize parseAsking config.policy .never tokens = parsed at hparse ⊢
    obtain ⟨result, asked⟩ := parsed
    simp only at hparse
    subst hparse
    cases config.policy with
    | accumulate => rfl
    | failFast => cases (Attempts.ofTokens tokens).diagnostics <;> rfl

/-- How the outcomes of the two policies belong together: both are clean, neither could read the
source, or the first one has a single fault that the second one reports as well. -/
inductive Agree : Outcome → Outcome → Prop
  | clean (u : CompilationUnit) (text : String) :
      Agree (.completed u [] text) (.completed u [] text)
  | unread {f : JobFailure} : f.isUnread = true → Agree (.failed f) (.failed f)
  | lexical {d : Diagnostic} (ds : List Diagnostic) (text : String) : d.isLexical = true →
      Agree (.failed (.compile [d] text)) (.failed (.compile (d :: ds) text))
  | reported {d : Diagnostic} {ds : List Diagnostic} (u : CompilationUnit) (text : String) :
      d.isLexical = false → d ∈ ds → Agree (.failed (.compile [d] text)) (.completed u ds text)

theorem finish_agree (config : Config) (text : String) (u : CompilationUnit) :
    Agree (Job.finish { config with policy := .failFast } text u [])
      (Job.finish { config with policy := .accumulate, maxDiagnostics := 0 } text u []) := by
  have hfirst := checkUnit_failFast u
  simp only [Job.finish, List.nil_append, capDiagnostics_zero]
  cases hd : checkUnit .accumulate u with
  | nil =>
    rw [hd] at hfirst
    simp only [hfirst, List.take_nil, sortDiagnostics_nil, capDiagnostics_nil]
    exact .clean u text
  | cons d ds =>
    rw [hd] at hfirst
    have hmem : d ∈ checkUnit .accumulate u := by simp [hd]
    have hsemantic : d.isLexical = false := by simp [Diagnostic.isLexical, checkUnit_semantic hmem]
    simp only [hfirst, List.take_succ_cons, List.take_zero, Job.failedWith, capDiagnostics_singleton]
    exact .reported u text hsemantic (mem_sortDiagnostics.mpr (by simp))

theorem process_agree (config : Config) (text : String) :
    Agree (Job.process { config with policy := .failFast } .never text).1
      (Job.process { config with policy := .accumulate, maxDiagnostics := 0 } .never text).1 := by
  rw [process_never, process_never]
  cases hl : lex text with
  | error ds =>
    obtain ⟨d, rest, rfl, hfast⟩ := lexFailFast_of_error hl
    have hlexical : d.isLexical = true := lex_error_lexical hl List.mem_cons_self
    simp only [Job.lexBy, hl, hfast, mapError_error, Job.failedWith, capDiagnostics_zero,
      capDiagnostics_singleton]
    exact .lexical rest text hlexical
  | ok tokens =>
    have hfast := lexFailFast_of_ok hl
    simp only [Job.lexBy, hl, hfast, mapError_ok]
    cases hd : (Attempts.ofTokens tokens).diagnostics with
    | cons d ds =>
      -- The checks run all the same, so the fault may end up anywhere in the report.
      have hmem : d ∈ (Attempts.ofTokens tokens).diagnostics := by simp [hd]
      simp only [Job.failedWith, capDiagnostics_singleton, Job.finish, capDiagnostics_zero]
      exact .reported _ text (lex_diagnostics_not_lexical hl hmem) (mem_sortDiagnostics.mpr (by simp))
    | nil => exact finish_agree config text _

theorem run_agree (storage : Storage) (config : Config) (source : Source) :
    Agree (Job.run storage { config with policy := .failFast } source .never).outcome
      (Job.run storage { config with policy := .accumulate, maxDiagnostics := 0 } source
        .never).outcome := by
  rw [run_never_outcome, run_never_outcome]
  cases hread : source.read storage config.maxSourceBytes with
  | error f => exact .unread (Source.read_error hread)
  | ok text => exact process_agree config text

/-- A job that stops at the first fault completes exactly if the job that keeps all of them has none
to report, and without a text both fail alike. Otherwise its one fault is among those of the other
job: the first one if it is lexical, and somewhere in a report on a completed job if not. -/
theorem policies_agree (storage : Storage) (config : Config) (source : Source) :
    let fast := (Job.run storage { config with policy := .failFast } source .never).outcome
    let full := (Job.run storage { config with policy := .accumulate, maxDiagnostics := 0 } source
      .never).outcome
    (fast.state = .completed ↔ full.isClean = true) ∧
    (fast.state = .completed → ∃ unit text,
      fast = .completed unit [] text ∧ full = .completed unit [] text) ∧
    (∀ f : JobFailure, f.isUnread = true → (fast = .failed f ↔ full = .failed f)) ∧
    (fast.state ≠ .completed → fast.isUnread = false → ∃ e text,
      fast = .failed (.compile [e] text) ∧ full.text? = some text ∧ e ∈ full.diagnostics ∧
      (e.isLexical = true → ∃ others, full = .failed (.compile (e :: others) text)) ∧
      (e.isLexical = false → full.state = .completed)) := by
  intro fast full
  have hagree : Agree fast full := run_agree storage config source
  generalize fast = fast at hagree ⊢
  generalize full = full at hagree ⊢
  cases hagree with
  | clean u text =>
    refine ⟨by simp [Outcome.state, Outcome.isClean], fun _ => ⟨u, text, rfl, rfl⟩, by simp, ?_⟩
    intro hstate
    exact absurd rfl hstate
  | @unread f hf =>
    refine ⟨by simp [Outcome.state, Outcome.isClean], nofun, fun _ _ => Iff.rfl, ?_⟩
    intro _ hread
    exact absurd (hf.symm.trans hread) (by simp)
  | @lexical d ds text hd =>
    refine ⟨by simp [Outcome.state, Outcome.isClean], nofun, ?_, ?_⟩
    · intro f hf
      constructor
      · rintro ⟨⟩
        cases hf
      · rintro ⟨⟩
        cases hf
    · intro _ _
      exact ⟨d, text, rfl, rfl, List.mem_cons_self, fun _ => ⟨ds, rfl⟩, by simp [hd]⟩
  | @reported d ds u text hd hmem =>
    have hne : ds ≠ [] := List.ne_nil_of_mem hmem
    refine ⟨by simp [Outcome.state, Outcome.isClean, hne], nofun, ?_, ?_⟩
    · intro f hf
      refine ⟨?_, nofun⟩
      rintro ⟨⟩
      cases hf
    · intro _ _
      exact ⟨d, text, rfl, rfl, hmem, by simp [hd], fun _ => rfl⟩

/-- Two semicolons are two faults; the job that stops early names one of them. -/
theorem policies_agree_two_semicolons :
    let storage : Storage := fun _ => .error .notFound
    let fast := (Job.run storage { policy := .failFast } (.inline "a" ";;") .never).outcome
    let full := (Job.run storage { policy := .accumulate, maxDiagnostics := 0 } (.inline "a" ";;")
      .never).outcome
    fast.state ≠ .completed ∧ fast.isUnread = false ∧ full.state = .completed ∧
      ∃ e text, fast = .failed (.compile [e] text) ∧ e ∈ full.diagnostics := by
  have hagree := policies_agree (fun _ => .error .notFound) {} (.inline "a" ";;")
  have hstate : (Job.run (fun _ => .error .notFound) { policy := .failFast } (.inline "a" ";;")
      .never).outcome.state ≠ .completed := by decide +kernel
  have hread : (Job.run (fun _ => .error .notFound) { policy := .failFast } (.inline "a" ";;")
      .never).outcome.isUnread = false := by decide +kernel
  obtain ⟨e, text, hfast, -, hmem, -⟩ := hagree.2.2.2 hstate hread
  exact ⟨hstate, hread, by decide +kernel, e, text, hfast, hmem⟩

end DeclFront
