import DeclFront.Proofs.Phases
import DeclFront.Supervisor

/-! One job under supervision. It is asked to stop, started, polled and finished, each at any time
when that is possible; whatever the order, what it shows and what it comes to is its own affair. -/

namespace DeclFront

inductive Stage
  | queued
  | running (phase : Phase)
  | finished (outcome : Outcome)

/-- A submitted job, with the states it has published and whether its source has been read. -/
structure Task where
  number : Nat
  source : Source
  cancelled : Bool
  stage : Stage
  published : List JobState
  hasRead : Bool

inductive Action
  | cancel
  | start
  | poll
  | finish
deriving DecidableEq, Repr

namespace Task

def fresh (number : Nat) (source : Source) : Task :=
  ⟨number, source, false, .queued, [.idle], false⟩

/-- What someone who waits for the job gets. -/
def outcome? (t : Task) : Option Outcome :=
  match t.stage with
  | .finished o => some o
  | _ => none

/-- What the supervisor keeps of the job. -/
def handle (t : Task) : Handle := ⟨t.number, t.source, t.cancelled, t.outcome?⟩

/-- The job is between its start and its end, and holds a permit. -/
def isRunning (t : Task) : Bool :=
  match t.stage with
  | .running _ => true
  | _ => false

/-- Nothing has been decided about the job but that it may run. -/
def isEntering (t : Task) : Bool :=
  match t.stage with
  | .queued | .running .entering => true
  | _ => false

section Machine

variable (storage : Storage) (config : Config)

/-- Answers the question that a running job has come to. A job that enters shows so and reads its
source. -/
def poll (p : Phase) (t : Task) : Task :=
  let enters := t.isEntering && !t.cancelled
  { t with
    stage := .running (p.answer storage config t.source t.cancelled)
    published := if enters then t.published ++ [.running] else t.published
    hasRead := t.hasRead || enters }

/-- What becomes of a job by an action, if that is possible. -/
def perform? (action : Action) (t : Task) : Option Task :=
  match action, t.stage with
  | .cancel, _ => some { t with cancelled := true }
  | .start, .queued => some { t with stage := .running .entering }
  | .poll, .running p => if p.isLive then some (t.poll storage config p) else none
  | .finish, .running (.ended o) =>
    some { t with stage := .finished o, published := t.published ++ [o.state] }
  | _, _ => none

end Machine

variable {storage : Storage} {config : Config} {t t' : Task} {action : Action}

theorem perform?_eq_some (h : t.perform? storage config action = some t') :
    (action = .cancel ∧ t' = { t with cancelled := true }) ∨
    (action = .start ∧ t.stage = .queued ∧ t' = { t with stage := .running .entering }) ∨
    (action = .poll ∧ ∃ p, t.stage = .running p ∧ p.isLive = true ∧
      t' = t.poll storage config p) ∨
    (action = .finish ∧ ∃ o, t.stage = .running (.ended o) ∧
      t' = { t with stage := .finished o, published := t.published ++ [o.state] }) := by
  unfold perform? at h
  split at h
  · cases h
    exact .inl ⟨rfl, rfl⟩
  · next hs =>
    cases h
    exact .inr (.inl ⟨rfl, hs, rfl⟩)
  · next p hs =>
    by_cases hl : p.isLive = true
    · simp only [hl, if_true, Option.some.injEq] at h
      exact .inr (.inr (.inl ⟨rfl, p, hs, hl, h.symm⟩))
    · simp only [hl, Bool.false_eq_true, if_false] at h
      cases h
  · next o hs =>
    cases h
    exact .inr (.inr (.inr ⟨rfl, o, hs, rfl⟩))
  · cases h

theorem outcome?_eq_some {o : Outcome} : t.outcome? = some o ↔ t.stage = .finished o := by
  unfold outcome?
  split
  · next hs => simp [hs]
  · next hne => simpa using hne o

theorem outcome?_of_isRunning (h : t.isRunning = true) : t.outcome? = none := by
  cases ho : t.outcome? with
  | none => rfl
  | some o => simp [isRunning, outcome?_eq_some.mp ho] at h

theorem isEntering_eq_true (h : t.isEntering = true) :
    t.stage = .queued ∨ t.stage = .running .entering := by
  unfold isEntering at h
  split at h
  · next hs => exact .inl hs
  · next hs => exact .inr hs
  · cases h

/-! ### Histories -/

/-- The job has come from its submission to where it is by these actions. -/
inductive Reached (storage : Storage) (config : Config) (number : Nat) (source : Source) :
    List Action → Task → Prop
  | fresh : Reached storage config number source [] (.fresh number source)
  | act {actions : List Action} {action : Action} {t t' : Task} :
      Reached storage config number source actions t →
      t.perform? storage config action = some t' →
      Reached storage config number source (actions ++ [action]) t'

theorem pair_sublist_concat {α : Type} {a b c : α} {l : List α} :
    [a, b].Sublist (l ++ [c]) ↔ [a, b].Sublist l ∨ b = c ∧ a ∈ l := by
  rw [← List.reverse_sublist, ← @List.reverse_sublist _ [a, b] l]
  simp only [List.reverse_append, List.reverse_cons, List.reverse_nil, List.nil_append,
    List.singleton_append, List.sublist_cons_iff, List.cons.injEq]
  constructor
  · rintro (h | ⟨r, ⟨hb, rfl⟩, hr⟩)
    · exact .inl h
    · exact .inr ⟨hb, by simpa using hr⟩
  · rintro (h | ⟨hb, ha⟩)
    · exact .inl h
    · exact .inr ⟨[a], ⟨hb, rfl⟩, by simpa using ha⟩

/-- The phase is one that the job gets to if nobody stops it. -/
def OnTrack (storage : Storage) (config : Config) (source : Source) (p : Phase) : Prop :=
  ∃ n m, p.Ends storage config source .never n m
    (Job.run storage config source .never).outcome

/-- The job was asked to stop before it started. It has not read its source, and never will. -/
def Doomed (t : Task) : Prop :=
  t.cancelled = true ∧ t.hasRead = false ∧
    (t.stage = .running .entering ∨ t.stage = .running (.ended .cancelled) ∨
      t.stage = .finished .cancelled)

/-- What holds of a job after these actions. -/
structure Sound (storage : Storage) (config : Config) (number : Nat) (source : Source)
    (actions : List Action) (t : Task) : Prop where
  number_eq : t.number = number
  source_eq : t.source = source
  flag : t.cancelled = true ↔ .cancel ∈ actions
  waiting : t.stage = .queued ↔ .start ∉ actions
  published : t.published =
    .idle :: ((if t.hasRead then [.running] else []) ++ (t.outcome?.map Outcome.state).toList)
  unread : t.isEntering = true → t.hasRead = false
  onTrack : ∀ p, t.stage = .running p →
    OnTrack storage config source p ∨ p = .ended .cancelled ∧ t.cancelled = true
  outcome : ∀ o, t.stage = .finished o →
    o = (Job.run storage config source .never).outcome ∨ o = .cancelled
  asked : t.stage = .finished .cancelled → [.cancel, .finish].Sublist actions
  doomed : [.cancel, .start].Sublist actions → t.Doomed

variable {number : Nat} {source : Source} {actions : List Action}

theorem onTrack_entering (storage : Storage) (config : Config) (source : Source) :
    OnTrack storage config source .entering :=
  ⟨0, _, Phase.run_ends storage config source .never⟩

theorem OnTrack.proceed {p : Phase} (h : OnTrack storage config source p) (hl : p.isLive = true) :
    OnTrack storage config source (p.answer storage config source false) := by
  obtain ⟨n, m, hends⟩ := h
  exact ⟨n + 1, m, (hends.of_live hl).2⟩

theorem OnTrack.outcome_eq {o : Outcome} (h : OnTrack storage config source (.ended o)) :
    o = (Job.run storage config source .never).outcome := by
  obtain ⟨n, m, hends⟩ := h
  exact hends.of_ended.2.symm

theorem sound_fresh (storage : Storage) (config : Config) (number : Nat) (source : Source) :
    Sound storage config number source [] (.fresh number source) where
  number_eq := rfl
  source_eq := rfl
  flag := by simp [fresh]
  waiting := by simp [fresh]
  published := rfl
  unread := fun _ => rfl
  onTrack := by
    intro p hp
    cases hp
  outcome := by
    intro o ho
    cases ho
  asked := by
    intro ho
    cases ho
  doomed := by
    intro hs
    cases hs

theorem Sound.doomed_before (h : Sound storage config number source actions t)
    (hne : action ≠ .start) (hs : [.cancel, .start].Sublist (actions ++ [action])) : t.Doomed := by
  rcases pair_sublist_concat.mp hs with hs | ⟨he, -⟩
  · exact h.doomed hs
  · exact absurd he.symm hne

theorem Sound.cancel (h : Sound storage config number source actions t) :
    Sound storage config number source (actions ++ [.cancel]) { t with cancelled := true } where
  number_eq := h.number_eq
  source_eq := h.source_eq
  flag := by simp
  waiting := by simpa using h.waiting
  published := h.published
  unread := h.unread
  onTrack := fun p hp => (h.onTrack p hp).imp_right (fun ⟨he, _⟩ => ⟨he, rfl⟩)
  outcome := h.outcome
  asked := fun ho => pair_sublist_concat.mpr (.inl (h.asked ho))
  doomed := by
    intro hs
    obtain ⟨-, hread, hstage⟩ := h.doomed_before (by simp) hs
    exact ⟨rfl, hread, hstage⟩

theorem Sound.start (h : Sound storage config number source actions t) (hq : t.stage = .queued) :
    Sound storage config number source (actions ++ [.start])
      { t with stage := .running .entering } where
  number_eq := h.number_eq
  source_eq := h.source_eq
  flag := by simpa using h.flag
  waiting := by simp
  published := by simpa [outcome?, hq] using h.published
  unread := fun _ => h.unread (by simp [isEntering, hq])
  onTrack := by
    intro p hp
    cases hp
    exact .inl (onTrack_entering storage config source)
  outcome := by
    intro o ho
    cases ho
  asked := by
    intro ho
    cases ho
  doomed := by
    intro hs
    rcases pair_sublist_concat.mp hs with hs | ⟨-, hcancel⟩
    · -- A job that is waiting has not been started before.
      obtain ⟨-, -, hstage⟩ := h.doomed hs
      simp [hq] at hstage
    · exact ⟨h.flag.mpr hcancel, h.unread (by simp [isEntering, hq]), .inl rfl⟩

theorem Sound.poll {p : Phase} (h : Sound storage config number source actions t)
    (hp : t.stage = .running p) (hl : p.isLive = true) :
    Sound storage config number source (actions ++ [.poll]) (t.poll storage config p) where
  number_eq := h.number_eq
  source_eq := h.source_eq
  flag := by simpa [Task.poll] using h.flag
  waiting := by simpa [Task.poll, hp] using h.waiting
  published := by
    by_cases he : (t.isEntering && !t.cancelled) = true
    · have hread : t.hasRead = false := h.unread (Bool.and_eq_true_iff.mp he).1
      simp [Task.poll, he, h.published, hread, outcome?, hp]
    · simp [Task.poll, he, h.published, outcome?, hp]
  unread := by
    intro he
    rcases isEntering_eq_true he with hs | hs
    · cases hs
    · exact absurd (Stage.running.inj hs) (Phase.answer_ne_entering t.cancelled hl)
  onTrack := by
    intro q hq
    cases hq
    rw [h.source_eq]
    cases hc : t.cancelled with
    | true => exact .inr ⟨Phase.answer_true hl, hc⟩
    | false =>
      rcases h.onTrack p hp with htrack | ⟨rfl, -⟩
      · exact .inl (htrack.proceed hl)
      · cases hl
  outcome := by
    intro o ho
    cases ho
  asked := by
    intro ho
    cases ho
  doomed := by
    intro hs
    obtain ⟨hcancelled, hread, hstage⟩ := h.doomed_before (by simp) hs
    refine ⟨hcancelled, by simp [Task.poll, hread, hcancelled], .inr (.inl ?_)⟩
    simp [Task.poll, hcancelled, Phase.answer_true hl]

theorem Sound.finish {o : Outcome} (h : Sound storage config number source actions t)
    (hp : t.stage = .running (.ended o)) :
    Sound storage config number source (actions ++ [.finish])
      { t with stage := .finished o, published := t.published ++ [o.state] } where
  number_eq := h.number_eq
  source_eq := h.source_eq
  flag := by simpa using h.flag
  waiting := by simpa [hp] using h.waiting
  published := by simp [h.published, outcome?, hp]
  unread := by
    intro he
    cases he
  onTrack := by
    intro p hp
    cases hp
  outcome := by
    intro o' ho
    cases ho
    exact (h.onTrack _ hp).imp OnTrack.outcome_eq (fun ⟨he, _⟩ => Phase.ended.inj he)
  asked := by
    intro ho
    cases ho
    refine pair_sublist_concat.mpr (.inr ⟨rfl, h.flag.mp ?_⟩)
    -- Left to itself the job would not have ended like this.
    rcases h.onTrack _ hp with htrack | ⟨-, hcancelled⟩
    · exact absurd htrack.outcome_eq.symm (Phase.run_never_ne_cancelled storage config source)
    · exact hcancelled
  doomed := by
    intro hs
    obtain ⟨hcancelled, hread, hstage⟩ := h.doomed_before (by simp) hs
    refine ⟨hcancelled, hread, .inr (.inr ?_)⟩
    simpa [hp] using hstage

theorem Sound.perform (h : Sound storage config number source actions t)
    (hp : t.perform? storage config action = some t') :
    Sound storage config number source (actions ++ [action]) t' := by
  rcases perform?_eq_some hp with ⟨rfl, rfl⟩ | ⟨rfl, hq, rfl⟩ | ⟨rfl, p, hr, hl, rfl⟩ |
    ⟨rfl, o, ho, rfl⟩
  · exact h.cancel
  · exact h.start hq
  · exact h.poll hr hl
  · exact h.finish ho

theorem Reached.sound (h : Reached storage config number source actions t) :
    Sound storage config number source actions t := by
  induction h with
  | fresh => exact sound_fresh storage config number source
  | act _ hp ih => exact ih.perform hp

theorem perform?_finished {o : Outcome} (hp : t.perform? storage config action = some t')
    (ho : t.outcome? = some o) : t'.outcome? = some o ∧ t'.published = t.published := by
  have hs : t.stage = .finished o := outcome?_eq_some.mp ho
  -- A finished job can only be asked to stop, and does not care.
  rcases perform?_eq_some hp with ⟨-, rfl⟩ | ⟨-, hq, -⟩ | ⟨-, p, hr, -⟩ | ⟨-, o', hr, -⟩
  · exact ⟨ho, rfl⟩
  · cases hs.symm.trans hq
  · cases hs.symm.trans hr
  · cases hs.symm.trans hr

end Task

/-! ### Work to be done -/

def Job.stepCount (config : Config) (text : String) : Nat :=
  match Job.lexBy config.policy text with
  | .error _ => 0
  | .ok tokens => (Attempts.ofTokens tokens).faults.length

/-- How many questions a job asks at most from here on. -/
def Phase.questionsLeft (storage : Storage) (config : Config) (source : Source) : Phase → Nat
  | entering =>
    match source.read storage config.maxSourceBytes with
    | .error _ => 1
    | .ok text => Job.stepCount config text + 3
  | loaded text => Job.stepCount config text + 2
  | parsing _ _ _ left => left.length + 2
  | parsed _ _ _ => 1
  | ended _ => 0

/-- How often a job has to be started, polled and finished at most from here on. -/
def Task.work (storage : Storage) (config : Config) (t : Task) : Nat :=
  match t.stage with
  | .queued => Phase.entering.questionsLeft storage config t.source + 2
  | .running p => p.questionsLeft storage config t.source + 1
  | .finished _ => 0

section Work

variable {storage : Storage} {config : Config} {source : Source} {t t' : Task} {action : Action}

theorem questionsLeft_before (text : String) (attempts : Attempts) (left : List (Option Diagnostic)) :
    (Phase.before text attempts left).questionsLeft storage config source = left.length + 1 := by
  cases left <;> rfl

theorem questionsLeft_pos {p : Phase} (hl : p.isLive = true) :
    0 < p.questionsLeft storage config source := by
  cases p with
  | entering =>
    rw [Phase.questionsLeft]
    cases source.read storage config.maxSourceBytes <;> simp
  | loaded text => simp [Phase.questionsLeft]
  | parsing text attempts fault left => simp [Phase.questionsLeft]
  | parsed text unit faults => simp [Phase.questionsLeft]
  | ended o => cases hl

theorem questionsLeft_proceed_lt {p : Phase} (hl : p.isLive = true) :
    (p.proceed storage config source).questionsLeft storage config source <
      p.questionsLeft storage config source := by
  have hnext : Phase.Next storage config source p (p.proceed storage config source) :=
    Phase.proceed_next hl
  generalize p.proceed storage config source = q at hnext
  cases hnext with
  | ending _ => exact questionsLeft_pos hl
  | reading hread => simp [Phase.questionsLeft, hread]
  | @lexing text tokens hlex =>
    have hcount : Job.stepCount config text = (Attempts.ofTokens tokens).faults.length := by
      simp [Job.stepCount, hlex]
    rw [questionsLeft_before, ← hcount]
    exact Nat.lt_succ_self _
  | parsing =>
    rw [questionsLeft_before]
    exact Nat.lt_succ_self _

theorem questionsLeft_answer_lt {p : Phase} (stop : Bool) (hl : p.isLive = true) :
    (p.answer storage config source stop).questionsLeft storage config source <
      p.questionsLeft storage config source := by
  cases stop with
  | true =>
    rw [Phase.answer_true hl]
    exact questionsLeft_pos hl
  | false => exact questionsLeft_proceed_lt hl

theorem Task.work_perform? (h : t.perform? storage config action = some t') :
    t'.work storage config + (if action = .cancel then 0 else 1) ≤ t.work storage config := by
  rcases perform?_eq_some h with ⟨rfl, rfl⟩ | ⟨rfl, hq, rfl⟩ | ⟨rfl, p, hr, hl, rfl⟩ |
    ⟨rfl, o, ho, rfl⟩
  · exact Nat.le_refl _
  · simp [work, hq]
  · have hlt : (p.answer storage config t.source t.cancelled).questionsLeft storage config t.source <
      p.questionsLeft storage config t.source := questionsLeft_answer_lt t.cancelled hl
    simp only [work, Task.poll, hr, reduceCtorEq, if_false]
    omega
  · simp [work, ho, Phase.questionsLeft]

theorem Task.exists_perform? (h : t.outcome? = none) :
    ∃ action t', action ≠ .cancel ∧ (action = .start → t.isRunning = false) ∧
      t.perform? storage config action = some t' := by
  cases hs : t.stage with
  | queued =>
    refine ⟨.start, { t with stage := .running .entering }, by simp, fun _ => ?_, ?_⟩
    · simp [isRunning, hs]
    · simp [perform?, hs]
  | finished o =>
    rw [outcome?_eq_some.mpr hs] at h
    cases h
  | running p =>
    by_cases hl : p.isLive = true
    · exact ⟨.poll, t.poll storage config p, by simp, nofun, by simp [perform?, hs, hl]⟩
    · cases p with
      | ended o =>
        refine ⟨.finish, { t with stage := .finished o, published := t.published ++ [o.state] },
          by simp, nofun, ?_⟩
        simp [perform?, hs]
      | _ => exact absurd rfl hl

end Work

end DeclFront
