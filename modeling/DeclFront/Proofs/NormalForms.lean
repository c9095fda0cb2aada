import Mathlib.Logic.Relation
import DeclFront.Proofs.Stateful

/-! Tests that are put together from leaves, and their normal form with negations at the leaves only.
To move a negation towards the leaves changes neither the answer of a test, a failure included, nor
the leaves that are run for it. -/

namespace DeclFront.Fallible

/-! ### The laws -/

section Laws

variable {m : Type → Type} [Monad m] [LawfulMonad m] {α : Type}

theorem negate_negate (p : α → m Bool) : negate (negate p) = p := by
  funext a
  simp [negate]

theorem negate_both (p q : α → m Bool) :
    negate (both p q) = either (negate p) (negate q) := by
  funext a
  simp only [negate, both, either, bind_assoc, pure_bind]
  refine bind_congr (fun b => ?_)
  cases b <;> simp

theorem negate_either (p q : α → m Bool) :
    negate (either p q) = both (negate p) (negate q) := by
  funext a
  simp only [negate, both, either, bind_assoc, pure_bind]
  refine bind_congr (fun b => ?_)
  cases b <;> simp

end Laws

/-! ### Conditions -/

/-- How a test is put together from its leaves. -/
inductive Condition (ι : Type)
  | leaf (i : ι)
  | both (p q : Condition ι)
  | either (p q : Condition ι)
  | negate (p : Condition ι)
deriving DecidableEq, Repr

namespace Condition

variable {ι α : Type} {p p' q q' : Condition ι}

/-- The test, with a test of its own for each leaf. -/
def test {m : Type → Type} [Monad m] (step : ι → α → m Bool) : Condition ι → α → m Bool
  | leaf i => step i
  | both p q => Fallible.both (p.test step) (q.test step)
  | either p q => Fallible.either (p.test step) (q.test step)
  | negate p => Fallible.negate (p.test step)

/-- One negation is moved towards the leaves, or two of them are taken away, somewhere in the
condition. -/
inductive Moves : Condition ι → Condition ι → Prop
  | double (p : Condition ι) : Moves (negate (negate p)) p
  | throughBoth (p q : Condition ι) : Moves (negate (both p q)) (either (negate p) (negate q))
  | throughEither (p q : Condition ι) : Moves (negate (either p q)) (both (negate p) (negate q))
  | bothFirst (q : Condition ι) {p p' : Condition ι} : Moves p p' → Moves (both p q) (both p' q)
  | bothSecond (p : Condition ι) {q q' : Condition ι} : Moves q q' → Moves (both p q) (both p q')
  | eitherFirst (q : Condition ι) {p p' : Condition ι} : Moves p p' →
      Moves (either p q) (either p' q)
  | eitherSecond (p : Condition ι) {q q' : Condition ι} : Moves q q' →
      Moves (either p q) (either p q')
  | inside {p p' : Condition ι} : Moves p p' → Moves (negate p) (negate p')

def isNormal : Condition ι → Bool
  | leaf _ => true
  | both p q => p.isNormal && q.isNormal
  | either p q => p.isNormal && q.isNormal
  | negate (leaf _) => true
  | negate _ => false

mutual

def normal : Condition ι → Condition ι
  | leaf i => leaf i
  | both p q => both p.normal q.normal
  | either p q => either p.normal q.normal
  | negate p => p.opposite

/-- The negation of the condition, with its negations at the leaves. -/
def opposite : Condition ι → Condition ι
  | leaf i => negate (leaf i)
  | both p q => either p.opposite q.opposite
  | either p q => both p.opposite q.opposite
  | negate p => p.normal

end

theorem Moves.test_eq {m : Type → Type} [Monad m] [LawfulMonad m] (step : ι → α → m Bool)
    (h : p.Moves q) : q.test step = p.test step := by
  induction h with
  | double p => simp only [test, negate_negate]
  | throughBoth p q => simp only [test, negate_both]
  | throughEither p q => simp only [test, negate_either]
  | bothFirst q _ ih => simp only [test, ih]
  | bothSecond p _ ih => simp only [test, ih]
  | eitherFirst q _ ih => simp only [test, ih]
  | eitherSecond p _ ih => simp only [test, ih]
  | inside _ ih => simp only [test, ih]

abbrev MovesTo : Condition ι → Condition ι → Prop := Relation.ReflTransGen Moves

theorem MovesTo.test_eq {m : Type → Type} [Monad m] [LawfulMonad m] (step : ι → α → m Bool)
    (h : p.MovesTo q) : q.test step = p.test step := by
  induction h with
  | refl => rfl
  | tail _ hmove ih => rw [hmove.test_eq, ih]

/-! ### The normal form -/

theorem MovesTo.both (hp : p.MovesTo p') (hq : q.MovesTo q') :
    (both p q).MovesTo (both p' q') :=
  (hp.lift (fun p => Condition.both p q) (fun _ _ h => .bothFirst q h)).trans
    (hq.lift (fun q => Condition.both p' q) (fun _ _ h => .bothSecond p' h))

theorem MovesTo.either (hp : p.MovesTo p') (hq : q.MovesTo q') :
    (either p q).MovesTo (either p' q') :=
  (hp.lift (fun p => Condition.either p q) (fun _ _ h => .eitherFirst q h)).trans
    (hq.lift (fun q => Condition.either p' q) (fun _ _ h => .eitherSecond p' h))

theorem movesTo_normal_and_opposite (p : Condition ι) :
    p.MovesTo p.normal ∧ (negate p).MovesTo p.opposite := by
  induction p with
  | leaf i => exact ⟨.refl, .refl⟩
  | both p q ihp ihq =>
    exact ⟨ihp.1.both ihq.1, .head (.throughBoth p q) (ihp.2.either ihq.2)⟩
  | either p q ihp ihq =>
    exact ⟨ihp.1.either ihq.1, .head (.throughEither p q) (ihp.2.both ihq.2)⟩
  | negate p ih => exact ⟨ih.2, .head (.double p) ih.1⟩

theorem isNormal_normal_and_opposite (p : Condition ι) :
    p.normal.isNormal = true ∧ p.opposite.isNormal = true := by
  induction p with
  | leaf i => exact ⟨rfl, rfl⟩
  | both p q ihp ihq => simp [normal, opposite, isNormal, ihp, ihq]
  | either p q ihp ihq => simp [normal, opposite, isNormal, ihp, ihq]
  | negate p ih => exact ⟨ih.2, ih.1⟩

theorem normal_of_isNormal (h : p.isNormal = true) : p.normal = p := by
  fun_induction isNormal p with
  | case1 i => rfl
  | case2 p q ihp ihq | case3 p q ihp ihq =>
    rw [Bool.and_eq_true] at h
    rw [normal, ihp h.1, ihq h.2]
  | case4 i => rfl
  | case5 p hp => cases h

theorem Moves.normal_eq (h : p.Moves q) : q.normal = p.normal ∧ q.opposite = p.opposite := by
  induction h with
  | double p => exact ⟨rfl, rfl⟩
  | throughBoth p q => exact ⟨rfl, rfl⟩
  | throughEither p q => exact ⟨rfl, rfl⟩
  | bothFirst q _ ih | bothSecond p _ ih | eitherFirst q _ ih | eitherSecond p _ ih =>
    simp [normal, opposite, ih]
  | inside _ ih => exact ⟨ih.2, ih.1⟩

theorem MovesTo.normal_eq (h : p.MovesTo q) : q.normal = p.normal := by
  induction h with
  | refl => rfl
  | tail _ hmove ih => rw [hmove.normal_eq.1, ih]

/-- Whatever is moved first, the moves come to one normal form. -/
theorem normal_iff : p.MovesTo q ∧ q.isNormal = true ↔ q = p.normal := by
  constructor
  · rintro ⟨hmoves, hnormal⟩
    rw [← hmoves.normal_eq, normal_of_isNormal hnormal]
  · rintro rfl
    exact ⟨p.movesTo_normal_and_opposite.1, p.isNormal_normal_and_opposite.1⟩

/-! ### Which leaves are run -/

/-- The leaves that a test asks, in their order, and its answer: a test of two stops behind the first
unless its answer leaves the matter open, and a failure stops everything. -/
inductive Evaluates (answer : ι → Except Diagnostic Bool) :
    Condition ι → List ι → Except Diagnostic Bool → Prop
  | leaf (i : ι) : Evaluates answer (leaf i) [i] (answer i)
  | negate {p : Condition ι} {asked : List ι} {r : Except Diagnostic Bool} :
      Evaluates answer p asked r → Evaluates answer (negate p) asked (r.map (! ·))
  | bothStops {p q : Condition ι} {asked : List ι} {r : Except Diagnostic Bool} :
      Evaluates answer p asked r → r ≠ .ok true → Evaluates answer (both p q) asked r
  | bothGoes {p q : Condition ι} {asked more : List ι} {r : Except Diagnostic Bool} :
      Evaluates answer p asked (.ok true) → Evaluates answer q more r →
      Evaluates answer (both p q) (asked ++ more) r
  | eitherStops {p q : Condition ι} {asked : List ι} {r : Except Diagnostic Bool} :
      Evaluates answer p asked r → r ≠ .ok false → Evaluates answer (either p q) asked r
  | eitherGoes {p q : Condition ι} {asked more : List ι} {r : Except Diagnostic Bool} :
      Evaluates answer p asked (.ok false) → Evaluates answer q more r →
      Evaluates answer (either p q) (asked ++ more) r

/-- Steps that may fail, with a list of the leaves that were run. -/
abbrev Recording (ι : Type) := ExceptT Diagnostic (StateM (List ι))

/-- A leaf that is put on the list when it is run. -/
def recorded (leaf : ι → α → Except Diagnostic Bool) (i : ι) (a : α) : Recording ι Bool := do
  modify (· ++ [i])
  MonadExcept.ofExcept (leaf i a)

theorem run_recorded (leaf : ι → α → Except Diagnostic Bool) (i : ι) (a : α) (log : List ι) :
    (recorded leaf i a).run log = (leaf i a, log ++ [i]) := by
  unfold recorded
  cases leaf i a <;> rfl

theorem evaluates_test (p : Condition ι) (leaf : ι → α → Except Diagnostic Bool) (a : α) :
    ∃ asked, Evaluates (leaf · a) p asked (p.test leaf a) ∧
      ∀ log, (p.test (recorded leaf) a).run log = (p.test leaf a, log ++ asked) := by
  induction p with
  | leaf i => exact ⟨[i], .leaf i, run_recorded leaf i a⟩
  | negate p ih =>
    obtain ⟨asked, heval, hrun⟩ := ih
    have htest : (negate p).test leaf a = (p.test leaf a).map (! ·) := by
      rw [test, Fallible.negate]
      cases p.test leaf a <;> rfl
    refine ⟨asked, htest ▸ heval.negate, fun log => ?_⟩
    rw [htest, test, Fallible.negate, run_bind, hrun]
    cases p.test leaf a <;> rfl
  | both p q ihp ihq =>
    obtain ⟨asked, heval, hrun⟩ := ihp
    obtain ⟨more, hmore, hrest⟩ := ihq
    simp only [test, Fallible.both, run_bind, hrun]
    generalize p.test leaf a = r at heval ⊢
    -- The second test is run only behind a first one that holds.
    rcases r with d | _ | _
    · exact ⟨asked, .bothStops heval nofun, fun log => rfl⟩
    · exact ⟨asked, .bothStops heval nofun, fun log => rfl⟩
    · refine ⟨asked ++ more, .bothGoes heval hmore, fun log => ?_⟩
      rw [← List.append_assoc]
      exact hrest (log ++ asked)
  | either p q ihp ihq =>
    obtain ⟨asked, heval, hrun⟩ := ihp
    obtain ⟨more, hmore, hrest⟩ := ihq
    simp only [test, Fallible.either, run_bind, hrun]
    generalize p.test leaf a = r at heval ⊢
    -- The second test is run only behind a first one that does not hold.
    rcases r with d | _ | _
    · exact ⟨asked, .eitherStops heval nofun, fun log => rfl⟩
    · refine ⟨asked ++ more, .eitherGoes heval hmore, fun log => ?_⟩
      rw [← List.append_assoc]
      exact hrest (log ++ asked)
    · exact ⟨asked, .eitherStops heval nofun, fun log => rfl⟩

/-- A condition has one normal form, in which negations stand at the leaves, and the test of it is the
same step: whatever its leaves do to a state, and wherever they fail, it gives the same answer and
leaves the same state. In particular it asks the same leaves in the same order, and these are the
ones that a test which stops as early as it can has to ask. -/
theorem normal_form_agrees (p : Condition ι) (a : α) :
    (∀ q, p.MovesTo q ∧ q.isNormal = true ↔ q = p.normal) ∧
    (∀ (σ : Type) (step : ι → α → ExceptT Diagnostic (StateM σ) Bool),
      p.normal.test step a = p.test step a) ∧
    ∀ leaf : ι → α → Except Diagnostic Bool, p.normal.test leaf a = p.test leaf a ∧
      ∃ asked, (p.test (recorded leaf) a).run [] = (p.test leaf a, asked) ∧
        (p.normal.test (recorded leaf) a).run [] = (p.test leaf a, asked) ∧
        Evaluates (leaf · a) p asked (p.test leaf a) ∧
        Evaluates (leaf · a) p.normal asked (p.test leaf a) := by
  have hmoves := p.movesTo_normal_and_opposite.1
  refine ⟨fun q => normal_iff, fun σ step => congrFun (hmoves.test_eq step) a, fun leaf => ?_⟩
  have htest : p.normal.test leaf a = p.test leaf a := congrFun (hmoves.test_eq leaf) a
  have hrecorded : p.normal.test (recorded leaf) a = p.test (recorded leaf) a :=
    congrFun (hmoves.test_eq (recorded leaf)) a
  obtain ⟨asked, heval, hrun⟩ := p.evaluates_test leaf a
  obtain ⟨asked', heval', hrun'⟩ := p.normal.evaluates_test leaf a
  have hsame : asked' = asked := by
    have hlogs := (hrun' []).symm.trans (hrecorded ▸ hrun [])
    simpa using congrArg Prod.snd hlogs
  rw [htest, hsame] at heval'
  exact ⟨htest, asked, hrun [], hrecorded ▸ hrun [], heval, heval'⟩

end Condition

end DeclFront.Fallible
