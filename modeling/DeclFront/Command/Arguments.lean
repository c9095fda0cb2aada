import DeclFront.Command

/-! The arguments of the command line, as far as the command itself reads them. They are taken from
left to right; a value that was given is looked at only when the next flag, option or file, or the
end, shows that it is complete. -/

namespace DeclFront

def programName : String := "kestrel"

def version : String := "0.1.0"

inductive UsageError
  | unknownArgument
  | invalidValue
  | valueValidation
  | argumentConflict
  | tooManyValues
  | displayHelp
  | displayVersion
deriving DecidableEq, Repr

namespace UsageError

def name : UsageError → String
  | unknownArgument => "UnknownArgument"
  | invalidValue => "InvalidValue"
  | valueValidation => "ValueValidation"
  | argumentConflict => "ArgumentConflict"
  | tooManyValues => "TooManyValues"
  | displayHelp => "DisplayHelp"
  | displayVersion => "DisplayVersion"

/-- Being asked for help or the version is no failure. -/
def exitCode : UsageError → Nat
  | displayHelp | displayVersion => 0
  | _ => 2

end UsageError

inductive Flag
  | keepGoing
  | plain
  | help
  | version
deriving DecidableEq, Repr

inductive Setting
  | jobs
  | maxDiagnostics
  | lexFile
  | parseFile
deriving DecidableEq, Repr

inductive Switch
  | flag (f : Flag)
  | setting (s : Setting)
deriving DecidableEq, Repr

def Switch.ofLong? : String → Option Switch
  | "keep-going" => some (.flag .keepGoing)
  | "plain" => some (.flag .plain)
  | "help" => some (.flag .help)
  | "version" => some (.flag .version)
  | "jobs" => some (.setting .jobs)
  | "max-diagnostics" => some (.setting .maxDiagnostics)
  | "lex" => some (.setting .lexFile)
  | "parse" => some (.setting .parseFile)
  | _ => none

def Switch.ofShort? : Char → Option Switch
  | 'k' => some (.flag .keepGoing)
  | 'h' => some (.flag .help)
  | 'V' => some (.flag .version)
  | 'j' => some (.setting .jobs)
  | _ => none

/-- Values that were given but not looked at yet. -/
inductive Pending
  | nothing
  | files (paths : List String)
  | setting (s : Setting) (value : Option String)

structure Taken where
  files : List String := []
  flags : List Flag := []
  jobs : Option Nat := none
  maxDiagnostics : Option Nat := none
  lexFile : Option String := none
  parseFile : Option String := none
  pending : Pending := .nothing
  /-- Everything from here on is a file. -/
  filesOnly : Bool := false

def countLimit : Nat := 18446744073709551615

/-- A number that fits 64 bits; a plus sign may stand before it. -/
def readCount (s : String) : Except UsageError Nat :=
  let digits := match s.toList with
    | '+' :: cs => cs
    | cs => cs
  if digits.isEmpty || !digits.all Char.isDigit || countLimit < digitsValue digits then
    .error .valueValidation
  else .ok (digitsValue digits)

def readPath (s : String) : Except UsageError String :=
  if s.isEmpty then .error .invalidValue else .ok s

namespace Taken

def assign {α : Type} (old : Option α) (new : Except UsageError α) : Except UsageError (Option α) :=
  if old.isSome then .error .argumentConflict else new.map some

def give (t : Taken) (value : String) : Setting → Except UsageError Taken
  | .jobs => do
    let v ← assign t.jobs (readCount value)
    return { t with jobs := v }
  | .maxDiagnostics => do
    let v ← assign t.maxDiagnostics (readCount value)
    return { t with maxDiagnostics := v }
  | .lexFile => do
    let v ← assign t.lexFile (readPath value)
    return { t with lexFile := v }
  | .parseFile => do
    let v ← assign t.parseFile (readPath value)
    return { t with parseFile := v }

/-- Looks at the values that were given last. -/
def settle (t : Taken) : Except UsageError Taken :=
  match t.pending with
  | .nothing => .ok t
  | .files paths => do
    let paths ← paths.mapM readPath
    return { t with files := t.files ++ paths, pending := .nothing }
  | .setting _ none => .error .invalidValue
  | .setting s (some value) => ({ t with pending := .nothing } : Taken).give value s

def raise (f : Flag) (t : Taken) : Except UsageError Taken := do
  let t ← t.settle
  match f with
  | .help => throw .displayHelp
  | .version => throw .displayVersion
  | f =>
    if t.flags.contains f then throw .argumentConflict
    else return { t with flags := f :: t.flags }

/-- A setting with its value attached, or one whose value is still to come. -/
def set (s : Setting) (value : Option String) (t : Taken) : Except UsageError Taken := do
  let t ← t.settle
  match value with
  | some value => t.give value s
  | none => return { t with pending := .setting s none }

def long (name : String) (value : Option String) (t : Taken) : Except UsageError Taken :=
  match Switch.ofLong? name, value with
  | none, _ => .error .unknownArgument
  | some (.flag _), some _ => .error .tooManyValues
  | some (.flag f), none => t.raise f
  | some (.setting s), value => t.set s value

/-- Letters behind one dash: flags, and at the end a setting with what is left as its value. -/
def short : List Char → Taken → Except UsageError Taken
  | [], t => .ok t
  | c :: rest, t =>
    match Switch.ofShort? c with
    | none => .error .unknownArgument
    | some (.flag f) => do
      let t ← t.raise f
      short rest t
    | some (.setting s) =>
      match rest with
      | [] => t.set s none
      | '=' :: value => t.set s (some (String.ofList value))
      | value => t.set s (some (String.ofList value))

def file (path : String) (t : Taken) : Except UsageError Taken :=
  match t.pending with
  | .files paths => .ok { t with pending := .files (paths ++ [path]) }
  | _ => do
    let t ← t.settle
    return { t with pending := .files [path] }

def cutAtEquals (cs : List Char) : String × Option String :=
  let name := String.ofList (cs.takeWhile (· != '='))
  match cs.dropWhile (· != '=') with
  | [] => (name, none)
  | _ :: value => (name, some (String.ofList value))

def take (t : Taken) (arg : String) : Except UsageError Taken :=
  if t.filesOnly then t.file arg
  else
    match arg.toList with
    | ['-', '-'] => .ok { t with filesOnly := true }
    | '-' :: '-' :: cs =>
      let (name, value) := cutAtEquals cs
      t.long name value
    | '-' :: c :: cs => short (c :: cs) t
    | _ =>
      match t.pending with
      | .setting s none => .ok { t with pending := .setting s (some arg) }
      | _ => t.file arg

/-- The two debug modes exclude each other and files. -/
def conflicts (t : Taken) : Bool :=
  t.parseFile.isSome && (t.lexFile.isSome || !t.files.isEmpty) ||
    t.lexFile.isSome && !t.files.isEmpty

def options (t : Taken) : Options :=
  { files := t.files, keepGoing := t.flags.contains .keepGoing, jobs := t.jobs
    maxDiagnostics := t.maxDiagnostics.getD defaultMaxDiagnostics
    plain := t.flags.contains .plain, lexFile := t.lexFile, parseFile := t.parseFile }

end Taken

def Options.ofArguments (args : List String) : Except UsageError Options := do
  let taken ← args.foldlM Taken.take {}
  let taken ← taken.settle
  if taken.conflicts then throw .argumentConflict
  return taken.options

end DeclFront
