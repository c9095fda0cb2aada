import DeclFront.Grammar.Declaration

/-! Reading a whole unit: a package clause, imports and members. The policy decides what becomes of
a production that fails: it ends the run, or it is kept and reading goes on behind the next
semicolon. -/

namespace DeclFront

/-- What to do about a diagnostic: stop, or keep it and go on. -/
inductive Policy
  | failFast
  | accumulate
deriving DecidableEq, Repr

/-- Answers to the question whether to stop, by the number of times it was asked before. -/
abbrev Interrupt := Nat → Bool

def Interrupt.never : Interrupt := fun _ => false

inductive Halt
  | failed (d : Diagnostic)
  | interrupted
deriving DecidableEq, Repr

def skipPast (ts : List Token) : List Token :=
  (ts.dropWhile (fun t => !t.isPunct .semicolon)).drop 1

theorem skipPast_le (ts : List Token) : (skipPast ts).length ≤ ts.length - 1 := by
  have hd := (List.dropWhile_sublist (l := ts) (fun t => !t.isPunct .semicolon)).length_le
  simp only [skipPast, List.length_drop]
  omega

theorem skipPast_lt {ts : List Token} (h : ts ≠ []) (stop : Stop) :
    (skipPast (stop.rest ts)).length < ts.length := by
  have hs := skipPast_le (stop.rest ts)
  have hp := List.length_pos_iff.mpr h
  simp only [Stop.rest, List.length_drop] at hs ⊢
  omega

def atClause (c : Clause) (ts : List Token) : Bool :=
  ts.head?.any (fun t => t.kind == .keyword (.clause c))

/-- How far a run has come: the tokens ahead, what was read, the faults that were kept, and how
often it has asked whether to stop. -/
structure Progress where
  rest : List Token
  unit : CompilationUnit := .empty
  kept : List Diagnostic := []
  asked : Nat := 0

abbrev Halting := Option Halt × Progress

def Halting.goOn (run : Halting) (next : Progress → Halting) : Halting :=
  match run with
  | (none, p) => next p
  | halted => halted

namespace Progress

variable {α : Type}

/-- Hands the fault of a production back, or keeps it and goes on behind the next semicolon. -/
def record (policy : Policy) (stop : Stop) (p : Progress) : Halting :=
  let rest := stop.rest p.rest
  match policy with
  | .failFast => (some (.failed stop.diagnostic), { p with rest })
  | .accumulate => (none, { p with rest := skipPast rest, kept := p.kept ++ [stop.diagnostic] })

def take (policy : Policy) (read : (ts : List Token) → Reading α ts)
    (add : CompilationUnit → α → CompilationUnit) (p : Progress) : Halting :=
  match read p.rest with
  | .ok r => (none, { p with rest := r.rest, unit := add p.unit r.value })
  | .error stop => p.record policy stop

theorem take_lt {policy : Policy} {read : (ts : List Token) → Reading α ts}
    {add : CompilationUnit → α → CompilationUnit} {p p' : Progress} (hne : p.rest ≠ [])
    (h : p.take policy read add = (none, p')) : p'.rest.length < p.rest.length := by
  unfold take at h
  split at h
  · next r _ =>
    cases h
    exact r.shorter
  · next stop _ =>
    cases policy with
    | failFast => cases h
    | accumulate =>
      cases h
      exact skipPast_lt hne stop

def ask (interrupt : Interrupt) (next : Progress → Halting) (p : Progress) : Halting :=
  let asked := { p with asked := p.asked + 1 }
  if interrupt p.asked then (some .interrupted, asked) else next asked

theorem ask_eq_none {interrupt : Interrupt} {next : Progress → Halting} {p p' : Progress}
    (h : p.ask interrupt next = (none, p')) :
    next { p with asked := p.asked + 1 } = (none, p') := by
  unfold ask at h
  split at h
  · cases h
  · exact h

/-- Runs a production again and again, asking before each time, as long as there is more for it. -/
def takeAll (policy : Policy) (interrupt : Interrupt) (more : List Token → Bool)
    (read : (ts : List Token) → Reading α ts) (add : CompilationUnit → α → CompilationUnit)
    (p : Progress) : Halting :=
  if _hmore : p.rest ≠ [] ∧ more p.rest then
    match _h : p.ask interrupt (take policy read add) with
    | (none, p') => takeAll policy interrupt more read add p'
    | (some halt, p') => (some halt, p')
  else (none, p)
termination_by p.rest.length
decreasing_by exact take_lt (p := { p with asked := p.asked + 1 }) _hmore.1 (ask_eq_none _h)

/-- Reads the clause in front of everything else, if there is one. -/
def takePackage (policy : Policy) (eof : Token) (p : Progress) : Halting :=
  if atClause .package p.rest then
    p.take policy (readPackage eof) CompilationUnit.withPackage
  else (none, p)

def takeImports (policy : Policy) (interrupt : Interrupt) (eof : Token) : Progress → Halting :=
  takeAll policy interrupt (atClause .imports) (readImport eof) CompilationUnit.withImport

def takeMembers (policy : Policy) (interrupt : Interrupt) (eof : Token) : Progress → Halting :=
  takeAll policy interrupt (fun _ => true) (readMember eof) CompilationUnit.withMember

end Progress

/-- Reads a unit. The first question comes before the package clause, the others before each import
and each member. -/
def readUnit (policy : Policy) (interrupt : Interrupt) (tokens : List Token) : Halting :=
  let (ts, eof) := cutAtEnd tokens
  let head := ({ rest := ts } : Progress).ask interrupt (Progress.takePackage policy eof)
  let imports := head.goOn (Progress.takeImports policy interrupt eof)
  imports.goOn (Progress.takeMembers policy interrupt eof)

inductive ParseOutcome
  | complete (unit : CompilationUnit) (diagnostics : List Diagnostic)
  | failed (d : Diagnostic)
  | interrupted

/-- What reading a unit comes to, and how often it asked whether to stop. -/
def parseAsking (policy : Policy) (interrupt : Interrupt) (tokens : List Token) :
    ParseOutcome × Nat :=
  match readUnit policy interrupt tokens with
  | (none, p) => (.complete p.unit p.kept, p.asked)
  | (some (.failed d), p) => (.failed d, p.asked)
  | (some .interrupted, p) => (.interrupted, p.asked)

def parse (tokens : List Token) : Except (List Diagnostic) CompilationUnit :=
  match (parseAsking .accumulate .never tokens).1 with
  | .complete u [] => .ok u
  | .complete _ ds => .error ds
  | .failed d => .error [d]
  | .interrupted => .error [.strayInterrupt]

end DeclFront
