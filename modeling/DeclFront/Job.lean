import DeclFront.Check
import DeclFront.Lexer
import DeclFront.Storage

/-! A job: one source read, lexed, parsed and checked. Between these steps, and between the
declarations of the unit, it asks whether to stop; a job that stops reports nothing. -/

namespace DeclFront

def defaultSourceBytes : Nat := 100 * 1024 * 1024

def defaultMaxDiagnostics : Nat := 100

structure Config where
  policy : Policy := .failFast
  /-- Diagnostics kept for each job; zero keeps all. -/
  maxDiagnostics : Nat := defaultMaxDiagnostics
  /-- Jobs that may run at once; nothing stands for as many as the machine has processors. -/
  maxParallelJobs : Option Nat := none
  maxSourceBytes : Nat := defaultSourceBytes

/-- At least one job may run. -/
def Config.withParallelJobs (n : Nat) (c : Config) : Config :=
  { c with maxParallelJobs := some (max n 1) }

inductive Source
  | path (path : String)
  | inline (name text : String)
deriving DecidableEq, Repr

def Source.name : Source → String
  | path p => p
  | inline n _ => n

inductive JobFailure
  | io (source : String) (error : FileError)
  | tooLarge (source : String) (size limit : Nat)
  /-- The diagnostics that ended the job, with the text they point into. -/
  | compile (diagnostics : List Diagnostic) (text : String)
  /-- The worker that ran the job panicked or was taken away. -/
  | aborted (message : String)

def JobFailure.message : JobFailure → String
  | io source error => "cannot read '" ++ source ++ "': " ++ error.message
  | tooLarge source size limit =>
    "source '" ++ source ++ "' is too large (" ++ toString size ++ " bytes, max " ++
      toString limit ++ " bytes)"
  | compile diagnostics _ => toString diagnostics.length ++ " compile error(s)"
  | aborted message => "job aborted: " ++ message

/-- Reads a source. The size of a file is checked before it is read; an inline text has none. -/
def Source.read (storage : Storage) (limit : Nat) : Source → Except JobFailure String
  | inline _ text => .ok text
  | path p => do
    let stored ← (storage p).mapError (.io p)
    if limit < stored.size then throw (.tooLarge p stored.size limit)
    (stored.content >>= decodeText).mapError (.io p)

inductive JobState
  | idle
  | running
  | completed
  | failed
  | cancelled
deriving DecidableEq, Repr

namespace JobState

def isTerminal : JobState → Bool
  | idle | running => false
  | completed | failed | cancelled => true

def name : JobState → String
  | idle => "idle"
  | running => "running"
  | completed => "completed"
  | failed => "failed"
  | cancelled => "cancelled"

def label : JobState → String
  | idle => "Idle"
  | running => "Running"
  | completed => "Completed"
  | failed => "Failed"
  | cancelled => "Cancelled"

end JobState

inductive Outcome
  | completed (unit : CompilationUnit) (diagnostics : List Diagnostic) (text : String)
  | failed (failure : JobFailure)
  | cancelled

namespace Outcome

def state : Outcome → JobState
  | completed _ _ _ => .completed
  | failed _ => .failed
  | cancelled => .cancelled

def diagnostics : Outcome → List Diagnostic
  | completed _ ds _ => ds
  | failed (.compile ds _) => ds
  | _ => []

/-- The text that was parsed, if the job got that far. -/
def text? : Outcome → Option String
  | completed _ _ text => some text
  | failed (.compile _ text) => some text
  | _ => none

def unit? : Outcome → Option CompilationUnit
  | completed u _ _ => some u
  | _ => none

def failure? : Outcome → Option JobFailure
  | failed f => some f
  | _ => none

def isClean : Outcome → Bool
  | completed _ ds _ => ds.isEmpty
  | _ => false

end Outcome

/-- Keeps the first diagnostics and notes on the last of them how many were dropped. -/
def capDiagnostics (limit : Nat) (ds : List Diagnostic) : List Diagnostic :=
  if limit = 0 ∨ ds.length ≤ limit then ds
  else
    let note := toString (ds.length - limit) ++ " more diagnostic(s) not shown"
    let kept := ds.take limit
    kept.dropLast ++ (kept.getLast?.map (Diagnostic.withNote note)).toList

/-- In the order of the text; what starts at the same place keeps its order. -/
def sortDiagnostics (ds : List Diagnostic) : List Diagnostic :=
  ds.mergeSort (fun a b => decide (a.span.start ≤ b.span.start))

namespace Job

def failedWith (config : Config) (ds : List Diagnostic) (text : String) : Outcome :=
  .failed (.compile (capDiagnostics config.maxDiagnostics ds) text)

/-- All tokens of a text, or the lexical diagnostics that the policy asks for. -/
def lexBy (policy : Policy) (text : String) : Except (List Diagnostic) (List Token) :=
  match policy with
  | .failFast => (lexFailFast text).mapError (fun d => [d])
  | .accumulate => lex text

/-- What a job makes of a unit and the faults that its parser reported. -/
def finish (config : Config) (text : String) (u : CompilationUnit) (ds : List Diagnostic) :
    Outcome :=
  let checked := checkUnit config.policy u
  match config.policy, checked with
  | .failFast, d :: rest => failedWith config (d :: rest) text
  | _, _ =>
    .completed u (capDiagnostics config.maxDiagnostics (sortDiagnostics (ds ++ checked))) text

/-- Takes a text from its tokens to an outcome, with the number of questions asked. -/
def process (config : Config) (interrupt : Interrupt) (text : String) : Outcome × Nat :=
  match lexBy config.policy text with
  | .error ds => (failedWith config ds text, 0)
  | .ok tokens =>
    match parseAsking config.policy interrupt tokens with
    | (.failed d, asked) => (failedWith config [d] text, asked)
    | (.interrupted, asked) => (.cancelled, asked)
    | (.complete u ds, asked) =>
      if interrupt asked then (.cancelled, asked + 1)
      else (finish config text u ds, asked + 1)

end Job

structure JobRun where
  outcome : Outcome
  asked : Nat
  published : List JobState

/-- Runs a job. It asks whether to stop before reading its source, after that, between the
declarations, and before the checks. -/
def Job.run (storage : Storage) (config : Config) (source : Source) (interrupt : Interrupt) :
    JobRun :=
  if interrupt 0 then ⟨.cancelled, 1, [.idle, .cancelled]⟩
  else
    let (outcome, asked) :=
      match source.read storage config.maxSourceBytes with
      | .error failure => (.failed failure, 1)
      | .ok text =>
        if interrupt 1 then (.cancelled, 2)
        else
          let (outcome, asked) := Job.process config (fun n => interrupt (n + 2)) text
          (outcome, asked + 2)
    ⟨outcome, asked, [.idle, .running, outcome.state]⟩

end DeclFront
