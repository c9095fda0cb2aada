import DeclFront.Dump
import DeclFront.Report
import DeclFront.Supervisor

/-! The command: what it prints and the code it exits with, as a function of the storage, the screen
and the options. -/

namespace DeclFront

structure Options where
  files : List String
  keepGoing : Bool
  jobs : Option Nat
  maxDiagnostics : Nat
  plain : Bool
  lexFile : Option String
  parseFile : Option String
deriving DecidableEq, Repr

def Options.config (o : Options) : Config :=
  let base : Config :=
    { policy := if o.keepGoing then .accumulate else .failFast, maxDiagnostics := o.maxDiagnostics }
  match o.jobs with
  | some n => base.withParallelJobs n
  | none => base

structure CommandResult where
  exitCode : Nat
  stdout : String
  stderr : String
deriving DecidableEq, Repr

/-- How a command ends. What a panic prints is up to the runtime. -/
inductive CommandEnd
  | exited (result : CommandResult)
  | panicked
deriving DecidableEq, Repr

def CommandEnd.exitCode : CommandEnd → Nat
  | exited r => r.exitCode
  | panicked => 101

namespace Command

def trimEnd (s : String) : String :=
  String.ofList (s.toList.reverse.dropWhile isBlank).reverse

def failure (message : String) : CommandResult :=
  ⟨1, "", if message.isEmpty then "" else message ++ "\n"⟩

def success (output : String) : CommandResult := ⟨0, output, ""⟩

def withSource (storage : Storage) (config : Config) (file : String)
    (use : String → CommandResult) : CommandResult :=
  match (Source.path file).read storage config.maxSourceBytes with
  | .error f => failure ("Error: " ++ f.message)
  | .ok text => use text

/-- What is shown for one outcome; nothing for a clean one. -/
def renderOutcome (screen : Screen) (plain : Bool) (name : String) (o : Outcome) : Option String :=
  match o with
  | .cancelled => some (name ++ ": cancelled\n")
  | .completed _ ds text | .failed (.compile ds text) =>
    if ds.isEmpty then none else some (renderAll screen plain name text ds)
  | .failed f => some ("error: " ++ f.message ++ "\n")

/-- A cancelled job outweighs a failed one, and that outweighs a clean one. -/
def exitCode (outcomes : List Outcome) : Nat :=
  if outcomes.any (fun o => o.state == .cancelled) then 130
  else if outcomes.all Outcome.isClean then 0
  else 1

def report (screen : Screen) (plain : Bool) (outcomes : List (String × Outcome)) : CommandResult :=
  ⟨exitCode (outcomes.map (·.2)), "",
    String.join (outcomes.filterMap (fun (name, o) => renderOutcome screen plain name o))⟩

section Modes

variable (storage : Storage) (screen : Screen)

def reject (o : Options) (file text : String) (ds : List Diagnostic) : CommandResult :=
  failure (trimEnd (renderAll screen o.plain file text ds))

/-- Prints the tokens of a file, a line each. -/
def lexMode (o : Options) (file : String) : CommandResult :=
  withSource storage o.config file (fun text =>
    match lex text with
    | .error ds => reject screen o file text ds
    | .ok tokens => success (String.join (tokens.map (fun t => t.dump.line ++ "\n"))))

def parseMode (o : Options) (file : String) : CommandResult :=
  withSource storage o.config file (fun text =>
    match lex text with
    | .error ds => reject screen o file text ds
    | .ok tokens =>
      match parse tokens with
      | .error ds => reject screen o file text ds
      | .ok u => success (u.dump.block 0 ++ "\n"))

/-- Runs a job for every file and reports all outcomes. -/
def checkMode (o : Options) : CommandEnd :=
  match Supervisor.ofConfig? o.config with
  | none => .panicked
  | some s => .exited (report screen o.plain (s.runAll storage (o.files.map Source.path)).1)

def execute (o : Options) : CommandEnd :=
  match o.lexFile, o.parseFile with
  | some file, _ => .exited (lexMode storage screen o file)
  | none, some file => .exited (parseMode storage screen o file)
  | none, none =>
    if o.files.isEmpty then .exited (failure "Error: no input files (see --help)")
    else checkMode storage screen o

end Modes

end Command

end DeclFront
