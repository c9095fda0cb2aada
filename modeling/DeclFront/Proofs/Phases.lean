import DeclFront.Job
import DeclFront.Proofs.Attempts

/-! A job as a machine that stops at every question: in each phase it waits for one answer, and the
answer decides about the next phase. Run with all its answers at hand, the machine is the job. -/

namespace DeclFront

/-! ### A parser that nobody stops -/

theorem walk_never (policy : Policy) (n : Nat) (faults : List (Option Diagnostic)) :
    (walk policy .never n faults).1 =
      match policy with
      | .accumulate => none
      | .failFast => (faults.filterMap id).head?.map .failed := by
  induction faults generalizing n with
  | nil => cases policy <;> rfl
  | cons fault faults ih =>
    cases policy with
    | accumulate => exact ih (n + 1)
    | failFast =>
      cases fault with
      | none => exact ih (n + 1)
      | some d => rfl

/-- Unless it keeps its faults, the parser ends with the first of them. -/
theorem parseAsking_never (policy : Policy) (tokens : List Token) :
    (parseAsking policy .never tokens).1 =
      match policy, (Attempts.ofTokens tokens).diagnostics with
      | .failFast, d :: _ => .failed d
      | _, ds => .complete (Attempts.ofTokens tokens).unit ds := by
  have hwalk := walk_never policy 0 (Attempts.ofTokens tokens).faults
  rw [parseAsking_eq_walk]
  generalize hd : (Attempts.ofTokens tokens).diagnostics = ds
  rw [Attempts.diagnostics] at hd
  rw [hd] at hwalk
  generalize walk policy .never 0 (Attempts.ofTokens tokens).faults = w at hwalk ⊢
  obtain ⟨halt, asked⟩ := w
  simp only at hwalk
  subst hwalk
  cases policy with
  | accumulate => rfl
  | failFast => cases ds <;> rfl

theorem parseAsking_never_ne_interrupted (policy : Policy) (tokens : List Token) :
    (parseAsking policy .never tokens).1 ≠ .interrupted := by
  rw [parseAsking_never]
  split <;> simp

/-! ### Phases -/

/-- How far a job has come when it asks whether to stop. -/
inductive Phase
  | entering
  | loaded (text : String)
  /-- The next step of the parser has this fault, if any, and those behind it have the others. -/
  | parsing (text : String) (attempts : Attempts) (fault : Option Diagnostic)
      (left : List (Option Diagnostic))
  | parsed (text : String) (unit : CompilationUnit) (faults : List Diagnostic)
  | ended (outcome : Outcome)

namespace Phase

def isLive : Phase → Bool
  | ended _ => false
  | _ => true

/-- The phase before the steps of the parser that are left. -/
def before (text : String) (attempts : Attempts) : List (Option Diagnostic) → Phase
  | [] => parsed text attempts.unit attempts.diagnostics
  | fault :: left => parsing text attempts fault left

section Machine

variable (storage : Storage) (config : Config) (source : Source)

/-- What a job does when it is told to go on. -/
def proceed : Phase → Phase
  | entering =>
    match source.read storage config.maxSourceBytes with
    | .error failure => ended (.failed failure)
    | .ok text => loaded text
  | loaded text =>
    match Job.lexBy config.policy text with
    | .error ds => ended (Job.failedWith config ds text)
    | .ok tokens => before text (Attempts.ofTokens tokens) (Attempts.ofTokens tokens).faults
  | parsing text attempts fault left =>
    match config.policy, fault with
    | .failFast, some d => ended (Job.failedWith config [d] text)
    | _, _ => before text attempts left
  | parsed text unit faults => ended (Job.finish config text unit faults)
  | ended outcome => ended outcome

/-- The next phase after an answer to the question whether to stop. -/
def answer (stop : Bool) (p : Phase) : Phase :=
  if stop && p.isLive then ended .cancelled else p.proceed storage config source

/-- With these answers, a job that is in a phase after some questions ends after some more, and with
this outcome. -/
inductive Ends (answers : Interrupt) : Nat → Phase → Nat → Outcome → Prop
  | done {n : Nat} {o : Outcome} : Ends answers n (ended o) n o
  | ask {n m : Nat} {p : Phase} {o : Outcome} (hl : p.isLive = true)
      (h : Ends answers (n + 1) (p.answer storage config source (answers n)) m o) :
      Ends answers n p m o

end Machine

variable {storage : Storage} {config : Config} {source : Source} {answers b : Interrupt}
  {n m : Nat} {p : Phase} {o : Outcome}

theorem answer_true (hl : p.isLive = true) :
    p.answer storage config source true = ended .cancelled := by
  simp [answer, hl]

theorem answer_false : p.answer storage config source false = p.proceed storage config source := rfl

theorem before_ne_ended (text : String) (attempts : Attempts) (left : List (Option Diagnostic))
    (o : Outcome) : before text attempts left ≠ ended o := by
  cases left <;> simp [before]

/-! ### Ends are unique -/

theorem Ends.le (h : Ends storage config source answers n p m o) : n ≤ m := by
  induction h with
  | done => exact Nat.le_refl _
  | ask _ _ ih => omega

theorem Ends.of_ended {o' : Outcome} (h : Ends storage config source answers n (ended o') m o) :
    m = n ∧ o = o' := by
  cases h with
  | done => exact ⟨rfl, rfl⟩
  | ask hl _ => cases hl

theorem Ends.of_live (hl : p.isLive = true) (h : Ends storage config source answers n p m o) :
    n < m ∧ Ends storage config source answers (n + 1)
      (p.answer storage config source (answers n)) m o := by
  cases h with
  | done => cases hl
  | ask _ h => exact ⟨h.le, h⟩

theorem Ends.unique {m' : Nat} {o' : Outcome} (h : Ends storage config source answers n p m o)
    (h' : Ends storage config source answers n p m' o') : m' = m ∧ o' = o := by
  induction h with
  | done => exact h'.of_ended
  | ask hl _ ih => exact ih (h'.of_live hl).2

/-! ### The machine is the job -/

theorem Ends.cancel (hl : p.isLive = true) (hb : answers n = true) :
    Ends storage config source answers n p (n + 1) .cancelled := by
  refine .ask hl ?_
  rw [hb, answer_true hl]
  exact .done

theorem Ends.proceed (hl : p.isLive = true) (hb : answers n = false)
    (h : Ends storage config source answers (n + 1) (p.proceed storage config source) m o) :
    Ends storage config source answers n p m o := by
  refine .ask hl ?_
  rwa [hb, answer_false]

/-- The parser goes on behind this fault, or lack of one. -/
def Passes (policy : Policy) (fault : Option Diagnostic) : Prop :=
  policy = .accumulate ∨ fault = none

theorem not_passes {policy : Policy} {fault : Option Diagnostic} (h : ¬ Passes policy fault) :
    policy = .failFast ∧ ∃ d, fault = some d := by
  cases policy with
  | accumulate => exact absurd (.inl rfl) h
  | failFast =>
    cases fault with
    | none => exact absurd (.inr rfl) h
    | some d => exact ⟨rfl, d, rfl⟩

theorem walk_passes {policy : Policy} {fault : Option Diagnostic} (h : Passes policy fault)
    (hb : b n = false) (left : List (Option Diagnostic)) :
    walk policy b n (fault :: left) = walk policy b (n + 1) left := by
  rcases h with rfl | rfl
  · simp only [walk, hb, Bool.false_eq_true, if_false]
  · cases policy <;> simp only [walk, hb, Bool.false_eq_true, if_false]

theorem proceed_passes {fault : Option Diagnostic} (h : Passes config.policy fault) (text : String)
    (attempts : Attempts) (left : List (Option Diagnostic)) :
    Phase.proceed storage config source (parsing text attempts fault left) =
      before text attempts left := by
  rcases h with h | rfl
  · simp only [Phase.proceed, h]
  · cases hp : config.policy <;> simp only [Phase.proceed, hp]

section Walk

variable (storage config source answers) (text : String) (attempts : Attempts)

/-- A walk through the steps that are left, begun after so many questions of the parser, goes like
the machine. If the walk gets through, the machine is in front of the checks. -/
def WalksAs (n : Nat) (left : List (Option Diagnostic)) : Option Halt × Nat → Prop
  | (some (.failed d), m) => Ends storage config source answers (n + 2) (before text attempts left)
      (m + 2) (Job.failedWith config [d] text)
  | (some .interrupted, m) => Ends storage config source answers (n + 2)
      (before text attempts left) (m + 2) .cancelled
  | (none, m) => ∀ k o, Ends storage config source answers (m + 2) (before text attempts []) k o →
      Ends storage config source answers (n + 2) (before text attempts left) k o

variable {storage config source answers text attempts}

theorem WalksAs.cons {left left' : List (Option Diagnostic)} {w : Option Halt × Nat}
    (h : WalksAs storage config source answers text attempts (n + 1) left w)
    (hgo : ∀ k o, Ends storage config source answers (n + 2 + 1) (before text attempts left) k o →
      Ends storage config source answers (n + 2) (before text attempts left') k o) :
    WalksAs storage config source answers text attempts n left' w := by
  have hn : n + 1 + 2 = n + 2 + 1 := rfl
  match w, h with
  | (some (.failed d), m), h => exact hgo _ _ (hn ▸ h)
  | (some .interrupted, m), h => exact hgo _ _ (hn ▸ h)
  | (none, m), h => exact fun k o hk => hgo _ _ (hn ▸ h k o hk)

variable (storage config source answers text attempts)

theorem walk_walksAs (left : List (Option Diagnostic)) (n : Nat) :
    WalksAs storage config source answers text attempts n left
      (walk config.policy (fun k => answers (k + 2)) n left) := by
  induction left generalizing n with
  | nil => exact fun k o h => h
  | cons fault left ih =>
    have hl : (before text attempts (fault :: left)).isLive = true := rfl
    cases hb : answers (n + 2) with
    | true =>
      simp only [walk, hb, if_true]
      exact .cancel hl hb
    | false =>
      by_cases hpass : Passes config.policy fault
      · rw [walk_passes (b := fun k => answers (k + 2)) hpass hb]
        refine (ih (n + 1)).cons (fun k o h => .proceed hl hb ?_)
        rwa [before, proceed_passes hpass]
      · obtain ⟨hp, d, rfl⟩ := not_passes hpass
        simp only [walk, hb, hp, Bool.false_eq_true, if_false]
        refine .proceed hl hb ?_
        simp only [before, Phase.proceed, hp]
        exact .done

end Walk

theorem process_ends (storage : Storage) (config : Config) (source : Source) (b : Interrupt)
    (text : String) :
    Ends storage config source b 2 ((loaded text).proceed storage config source)
      ((Job.process config (fun n => b (n + 2)) text).2 + 2)
      (Job.process config (fun n => b (n + 2)) text).1 := by
  cases hlex : Job.lexBy config.policy text with
  | error ds =>
    simp only [Job.process, Phase.proceed, hlex]
    exact .done
  | ok tokens =>
    have hw := walk_walksAs storage config source b text (Attempts.ofTokens tokens)
      (Attempts.ofTokens tokens).faults 0
    simp only [Job.process, Phase.proceed, hlex, parseAsking_eq_walk]
    generalize walk config.policy (fun k => b (k + 2)) 0 (Attempts.ofTokens tokens).faults = w at hw ⊢
    match w, hw with
    | (some (.failed d), m), hw => exact hw
    | (some .interrupted, m), hw => exact hw
    | (none, m), hw =>
      refine hw _ _ ?_
      have hl : (before text (Attempts.ofTokens tokens) []).isLive = true := rfl
      cases hb : b (m + 2) with
      | true =>
        simp only [hb, if_true]
        exact .cancel hl hb
      | false =>
        simp only [hb, Bool.false_eq_true, if_false]
        exact .proceed hl hb .done

/-- Stopped at every question, the job gets where it gets in one go. -/
theorem run_ends (storage : Storage) (config : Config) (source : Source) (b : Interrupt) :
    Ends storage config source b 0 .entering (Job.run storage config source b).asked
      (Job.run storage config source b).outcome := by
  unfold Job.run
  cases h0 : b 0 with
  | true => exact .cancel rfl h0
  | false =>
    refine .proceed rfl h0 ?_
    rw [Phase.proceed]
    cases hread : source.read storage config.maxSourceBytes with
    | error failure => exact .done
    | ok text =>
      cases h1 : b 1 with
      | true => exact .cancel rfl h1
      | false => exact .proceed rfl h1 (process_ends storage config source b text)

/-! ### Only an answer cancels -/

theorem finish_ne_cancelled (config : Config) (text : String) (u : CompilationUnit)
    (ds : List Diagnostic) : Job.finish config text u ds ≠ .cancelled := by
  unfold Job.finish
  dsimp only
  split <;> simp [Job.failedWith]

/-- What follows a phase when nobody stops the job. -/
inductive Next (storage : Storage) (config : Config) (source : Source) : Phase → Phase → Prop
  | ending {p : Phase} {o : Outcome} : o ≠ .cancelled → Next storage config source p (ended o)
  | reading {text : String} : source.read storage config.maxSourceBytes = .ok text →
      Next storage config source entering (loaded text)
  | lexing {text : String} {tokens : List Token} : Job.lexBy config.policy text = .ok tokens →
      Next storage config source (loaded text)
        (before text (Attempts.ofTokens tokens) (Attempts.ofTokens tokens).faults)
  | parsing {text : String} {attempts : Attempts} {fault : Option Diagnostic}
      {left : List (Option Diagnostic)} :
      Next storage config source (parsing text attempts fault left) (before text attempts left)

theorem proceed_next (hl : p.isLive = true) :
    Next storage config source p (p.proceed storage config source) := by
  cases p with
  | entering =>
    rw [Phase.proceed]
    cases hread : source.read storage config.maxSourceBytes with
    | error failure => exact .ending (by simp)
    | ok text => exact .reading hread
  | loaded text =>
    rw [Phase.proceed]
    cases hlex : Job.lexBy config.policy text with
    | error ds => exact .ending (by simp [Job.failedWith])
    | ok tokens => exact .lexing hlex
  | parsing text attempts fault left =>
    by_cases hpass : Passes config.policy fault
    · rw [proceed_passes hpass]
      exact .parsing
    · obtain ⟨hp, d, rfl⟩ := not_passes hpass
      simp only [Phase.proceed, hp]
      exact .ending (by simp [Job.failedWith])
  | parsed text unit faults => exact .ending (finish_ne_cancelled config text unit faults)
  | ended o => cases hl

theorem proceed_ne_cancelled (hl : p.isLive = true) :
    p.proceed storage config source ≠ ended .cancelled := by
  have hnext : Next storage config source p (p.proceed storage config source) := proceed_next hl
  generalize p.proceed storage config source = q at hnext
  intro hq
  cases hnext with
  | ending ho => exact ho (ended.inj hq)
  | reading _ => cases hq
  | lexing _ => exact before_ne_ended _ _ _ _ hq
  | parsing => exact before_ne_ended _ _ _ _ hq

theorem before_ne_entering (text : String) (attempts : Attempts)
    (left : List (Option Diagnostic)) : before text attempts left ≠ entering := by
  cases left <;> simp [before]

theorem answer_ne_entering (stop : Bool) (hl : p.isLive = true) :
    p.answer storage config source stop ≠ entering := by
  cases stop with
  | true => simp [answer_true hl]
  | false =>
    have hnext : Next storage config source p (p.proceed storage config source) := proceed_next hl
    rw [answer_false]
    generalize p.proceed storage config source = q at hnext
    cases hnext with
    | ending _ => simp
    | reading _ => simp
    | lexing _ => exact before_ne_entering _ _ _
    | parsing => exact before_ne_entering _ _ _

theorem Ends.never_ne_cancelled (h : Ends storage config source .never n p m o)
    (hp : p ≠ ended .cancelled) : o ≠ .cancelled := by
  induction h with
  | done =>
    rintro rfl
    exact hp rfl
  | ask hl _ ih => exact ih (proceed_ne_cancelled hl)

theorem run_never_ne_cancelled (storage : Storage) (config : Config) (source : Source) :
    (Job.run storage config source .never).outcome ≠ .cancelled :=
  (run_ends storage config source .never).never_ne_cancelled (by simp)

end Phase

end DeclFront
