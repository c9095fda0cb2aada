import DeclFront.Diagnostic
import DeclFront.Source.Lines

/-! Diagnostics as they are shown. As plain text they have a title, the place, the line with the
faulty part underlined, and then notes and hints. -/

namespace DeclFront

def spaces (n : Nat) : String := String.ofList (List.replicate n ' ')

/-- Carets for the part of a span that lies on its first line, and at least one. -/
def underline (span : Span) (column : Nat) (line : List Char) : String :=
  let available := width line - (column - 1)
  String.ofList (List.replicate (max (min span.length available) 1) '^')

def Diagnostic.render (file source : String) (d : Diagnostic) : String :=
  let info := lineInfo source d.span.start
  let gutter := spaces (toString info.line).length
  d.cause.title ++ ": " ++ d.message ++ "\n" ++
    "  --> " ++ file ++ ":" ++ toString info.line ++ ":" ++ toString info.column ++ "\n" ++
    "  " ++ gutter ++ " |\n" ++
    "  " ++ toString info.line ++ " | " ++ String.ofList info.text ++ "\n" ++
    "  " ++ gutter ++ " | " ++ spaces (info.column - 1) ++
      underline d.span info.column info.text ++ "\n" ++
    String.join (d.notes.map (fun n => "  = note: " ++ n ++ "\n")) ++
    String.join (d.hints.map (fun h => "  = hint: " ++ h ++ "\n"))

/-- What a graphical report is made of. -/
structure ReportView where
  code : String
  message : String
  help : Option String
  label : Option String
  offset : Nat
  length : Nat
deriving DecidableEq, Repr

def Diagnostic.view (d : Diagnostic) : ReportView :=
  ⟨d.cause.code, d.message, d.help?, d.label?, d.span.start, d.span.length⟩

/-- Where diagnostics are shown: whether it is a terminal, and how the graphical report on a file
looks there. -/
structure Screen where
  isTerminal : Bool
  graphical : (file source : String) → ReportView → String

/-- All diagnostics of one source, one after the other; as graphical reports on a terminal, unless
plain text is asked for. -/
def renderAll (screen : Screen) (plain : Bool) (file source : String) (ds : List Diagnostic) :
    String :=
  let graphical := !plain && screen.isTerminal
  String.join (ds.map (fun d =>
    if graphical then screen.graphical file source d.view ++ "\n" else d.render file source))

end DeclFront
