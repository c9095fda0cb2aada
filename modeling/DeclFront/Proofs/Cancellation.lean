import DeclFront.Proofs.Phases
import DeclFront.Proofs.Scanning

/-! Stopping a job. A positive answer to any question of a job ends it with nothing to show, and
negative answers leave no trace. -/

namespace DeclFront

variable {storage : Storage} {config : Config} {source : Source} {b : Interrupt} {n m : Nat}
  {p : Phase} {o : Outcome}

namespace Phase

theorem Ends.calm (h : Ends storage config source .never n p m o)
    (hb : ∀ j, n ≤ j → j < m → b j = false) : Ends storage config source b n p m o := by
  induction h with
  | done => exact .done
  | @ask n m p o hl h ih =>
    have hn : b n = false := hb n (Nat.le_refl n) h.le
    exact .proceed hl hn (ih (fun j hj hm => hb j (by omega) hm))

/-- The first positive answer ends the job. -/
theorem Ends.stopped {i : Nat} (h : Ends storage config source .never n p m o) (hn : n ≤ i)
    (hi : i < m) (hb : b i = true) (hbefore : ∀ j, n ≤ j → j < i → b j = false) :
    Ends storage config source b n p (i + 1) .cancelled := by
  induction h with
  | done => omega
  | @ask n m p o hl h ih =>
    by_cases he : n = i
    · subst he
      exact .cancel hl hb
    · have hgo : b n = false := hbefore n (Nat.le_refl n) (by omega)
      have hlater := ih (by omega) hi (fun j hj hji => hbefore j (by omega) hji)
      exact .proceed hl hgo hlater

end Phase

/-! ### Runs -/

theorem run_published (storage : Storage) (config : Config) (source : Source) (b : Interrupt) :
    (Job.run storage config source b).published =
      if b 0 then [.idle, .cancelled]
      else [.idle, .running, (Job.run storage config source b).outcome.state] := by
  unfold Job.run
  cases b 0 <;> rfl

theorem run_of_ends (h : Phase.Ends storage config source b 0 .entering m o) :
    Job.run storage config source b =
      ⟨o, m, if b 0 then [.idle, .cancelled] else [.idle, .running, o.state]⟩ := by
  have hpub := run_published storage config source b
  obtain ⟨hasked, houtcome⟩ := h.unique (Phase.run_ends storage config source b)
  generalize Job.run storage config source b = run at hpub hasked houtcome ⊢
  obtain ⟨outcome, asked, published⟩ := run
  simp only at hpub hasked houtcome
  rw [hpub, hasked, houtcome]

theorem run_calm (hb : ∀ j < (Job.run storage config source .never).asked, b j = false) :
    Job.run storage config source b = Job.run storage config source .never := by
  have hcalm := Phase.run_ends storage config source .never
  have hfirst : b 0 = false := hb 0 (hcalm.of_live rfl).1
  have hends := hcalm.calm (fun j _ hj => hb j hj)
  rw [run_of_ends hends, run_of_ends hcalm, hfirst]
  rfl

theorem run_stopped {i : Nat} (hi : i < (Job.run storage config source .never).asked)
    (hb : b i = true) (hbefore : ∀ j < i, b j = false) :
    Job.run storage config source b = ⟨.cancelled, i + 1,
      if i = 0 then [.idle, .cancelled] else [.idle, .running, .cancelled]⟩ := by
  have hcalm := Phase.run_ends storage config source .never
  have hends := hcalm.stopped (Nat.zero_le i) hi hb (fun j _ hj => hbefore j hj)
  rw [run_of_ends hends]
  by_cases hz : i = 0
  · subst hz
    simp [hb]
  · have hfirst : b 0 = false := hbefore 0 (by omega)
    simp [hz, hfirst, Outcome.state]

/-! ### Questions -/

/-- How many steps of the parser are tried: all of them, or those up to the first fault. -/
def tried (policy : Policy) (faults : List (Option Diagnostic)) : Nat :=
  match policy with
  | .accumulate => faults.length
  | .failFast => min ((faults.takeWhile Option.isNone).length + 1) faults.length

theorem walk_never_asked (policy : Policy) (n : Nat) (faults : List (Option Diagnostic)) :
    (walk policy .never n faults).2 = n + tried policy faults := by
  induction faults generalizing n with
  | nil => cases policy <;> simp [walk, tried]
  | cons fault faults ih =>
    by_cases hp : Phase.Passes policy fault
    · rw [Phase.walk_passes hp rfl, ih]
      rcases hp with rfl | rfl
      · simp only [tried, List.length_cons]
        omega
      · cases policy <;> simp [tried] <;> omega
    · obtain ⟨rfl, d, rfl⟩ := Phase.not_passes hp
      simp [walk, Interrupt.never, tried]

/-- How many imports and members are tried: none behind a faulty package clause, and none behind the
first fault, unless faults are kept. -/
def Attempts.tried (policy : Policy) (a : Attempts) : Nat :=
  match policy, a.package.bind Diagnostic.of? with
  | .failFast, some _ => 0
  | _, _ => DeclFront.tried policy (a.imports.map Diagnostic.of? ++ a.members.map Diagnostic.of?)

theorem Attempts.tried_faults (policy : Policy) (a : Attempts) :
    DeclFront.tried policy a.faults = a.tried policy + 1 := by
  unfold Attempts.tried Attempts.faults DeclFront.tried
  cases policy with
  | accumulate => simp
  | failFast =>
    cases a.package.bind Diagnostic.of? with
    | none => simp only [List.cons_append, Option.isNone_none, List.takeWhile_cons_of_pos,
        List.length_cons]; omega
    | some d => simp

/-- How often a job asks that nobody stops. -/
def Job.questions (storage : Storage) (config : Config) (source : Source) : Nat :=
  match source.read storage config.maxSourceBytes with
  | .error _ => 1
  | .ok text =>
    match Job.lexBy config.policy text with
    | .error _ => 2
    | .ok tokens =>
      match (parseAsking config.policy .never tokens).1 with
      | .failed _ => 3 + (Attempts.ofTokens tokens).tried config.policy
      | _ => 4 + (Attempts.ofTokens tokens).tried config.policy

theorem parseAsking_never_asked (policy : Policy) (tokens : List Token) :
    (parseAsking policy .never tokens).2 = (Attempts.ofTokens tokens).tried policy + 1 := by
  have hasked := walk_never_asked policy 0 (Attempts.ofTokens tokens).faults
  rw [Attempts.tried_faults, Nat.zero_add] at hasked
  rw [parseAsking_eq_walk]
  generalize walk policy .never 0 (Attempts.ofTokens tokens).faults = w at hasked ⊢
  obtain ⟨stop, asked⟩ := w
  cases stop with
  | none => exact hasked
  | some stop => cases stop <;> exact hasked

theorem run_never_asked (storage : Storage) (config : Config) (source : Source) :
    (Job.run storage config source .never).asked = Job.questions storage config source := by
  have hshift : (fun n => Interrupt.never (n + 2)) = Interrupt.never := rfl
  unfold Job.run Job.questions
  rw [hshift]
  cases source.read storage config.maxSourceBytes with
  | error failure => rfl
  | ok text =>
    simp only [Job.process]
    cases Job.lexBy config.policy text with
    | error ds => rfl
    | ok tokens =>
      have hasked := parseAsking_never_asked config.policy tokens
      have hne := parseAsking_never_ne_interrupted config.policy tokens
      simp only
      generalize parseAsking config.policy .never tokens = parsed at hasked hne ⊢
      match parsed, hasked, hne with
      | (.failed d, asked), hasked, _ =>
        simp only [Interrupt.never, Bool.false_eq_true, if_false] at hasked ⊢
        omega
      | (.complete u ds, asked), hasked, _ =>
        simp only [Interrupt.never, Bool.false_eq_true, if_false] at hasked ⊢
        omega
      | (.interrupted, asked), _, hne => exact absurd rfl hne

/-- The first positive answer ends the job with nothing to show for it, and at once. Negative
answers leave everything as it is when nobody is asked. How many questions there are depends on how
far the job gets. -/
theorem cancellation_all_or_nothing (storage : Storage) (config : Config) (source : Source)
    (answers : Interrupt) :
    let calm := Job.run storage config source .never
    let run := Job.run storage config source answers
    (∀ i < calm.asked, answers i = true → (∀ j < i, answers j = false) →
      run.outcome = .cancelled ∧ run.asked = i + 1 ∧
        run.outcome.unit? = none ∧ run.outcome.text? = none ∧ run.outcome.diagnostics = [] ∧
        run.published = if i = 0 then [.idle, .cancelled] else [.idle, .running, .cancelled]) ∧
    ((∀ i < calm.asked, answers i = false) → run = calm) ∧
    calm.outcome ≠ .cancelled ∧
    calm.published = [.idle, .running, calm.outcome.state] ∧
    calm.asked = Job.questions storage config source := by
  intro calm run
  refine ⟨fun i hi hb hbefore => ?_, run_calm, Phase.run_never_ne_cancelled storage config source,
    run_published storage config source .never, run_never_asked storage config source⟩
  have hrun : run = _ := run_stopped hi hb hbefore
  rw [hrun]
  exact ⟨rfl, rfl, rfl, rfl, rfl, rfl⟩

/-- Stopped when the parser is about to read the only member. -/
theorem cancellation_before_member :
    let run := Job.run (fun _ => .error .notFound) { policy := .accumulate } (.inline "a" ";")
      (fun n => n == 3)
    run.outcome = .cancelled ∧ run.asked = 4 ∧ run.published = [.idle, .running, .cancelled] := by
  let semicolon : Token := ⟨.punct .semicolon, String.ofList [';'], ⟨0, 1⟩⟩
  let config : Config := { policy := .accumulate }
  let storage : Storage := fun _ => .error .notFound
  have hscan : scan ';' [] = (Split.mk [';'] []).accept (.punct .semicolon) := by rfl
  have hnext : (Cursor.mk 0 [';']).next? = some (.ok semicolon, ⟨1, []⟩) := by
    rw [Cursor.next?_solid (by decide) (by decide), hscan]
    rfl
  have hresults : lexResults ";" = [semicolon].map .ok := by
    rw [lexResults, show Cursor.ofText ";" = ⟨0, [';']⟩ from rfl, Cursor.results_of_some hnext,
      Cursor.results_of_none (by simp [Cursor.next?, lead])]
    rfl
  have hlex : Job.lexBy .accumulate ";" = .ok ([semicolon] ++ [endToken ";"]) :=
    lex_eq_ok_iff.mpr ⟨[semicolon], hresults, rfl⟩
  have hasked : 3 < (Job.run storage config (.inline "a" ";") .never).asked := by
    rw [run_never_asked]
    simp only [Job.questions, Source.read, config, hlex, parseAsking_never]
    omega
  have hstop := (cancellation_all_or_nothing storage config (.inline "a" ";") (fun n => n == 3)).1
    3 hasked rfl (by decide)
  exact ⟨hstop.1, hstop.2.1, hstop.2.2.2.2.2⟩

end DeclFront
