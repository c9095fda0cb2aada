import DeclFront.Command.Arguments

/-! The executable: reads the files that the options name, runs the command on them, and prints what
it gives. It has no graphical reports. -/

open DeclFront

/-- A failed access in the terms of the library. -/
def fileError : IO.Error → FileError
  | .noFileOrDirectory .. => .notFound
  | .inappropriateType .. => .isDirectory
  | .invalidArgument .. => .invalidName
  | e => .other (toString e)

def readStored (path : String) : IO (Except FileError Stored) := do
  try
    let bytes ← IO.FS.readBinFile path
    return .ok ⟨bytes.size, .ok bytes⟩
  catch e => return .error (fileError e)

/-- Prints what a command gives. -/
def finish (end_ : CommandEnd) : IO UInt32 := do
  if let .exited result := end_ then
    (← IO.getStdout).putStr result.stdout
    (← IO.getStderr).putStr result.stderr
  return end_.exitCode.toUInt32

def runOptions (o : Options) : IO UInt32 := do
  let mut found : List (String × Except FileError Stored) := []
  for path in o.lexFile.toList ++ o.parseFile.toList ++ o.files do
    found := (path, ← readStored path) :: found
  let files := found
  let storage : Storage := fun path => (files.lookup path).getD (.error .notFound)
  finish (Command.execute storage ⟨false, fun _ _ _ => ""⟩ o)

def main (args : List String) : IO UInt32 := do
  match Options.ofArguments args with
  | .ok o => runOptions o
  | .error .displayVersion =>
    (← IO.getStdout).putStrLn (programName ++ " " ++ version)
    return 0
  | .error e =>
    (← IO.getStderr).putStrLn e.name
    return e.exitCode.toUInt32
