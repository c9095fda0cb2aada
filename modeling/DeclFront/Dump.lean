import DeclFront.Text.Quoted
import DeclFront.Tree.Unit

/-! Values written out with the names of their parts, on one line or spread over many. -/

namespace DeclFront

/-- A written value: a word, a value with a name before it, or values between brackets. -/
inductive Dump
  | word (text : String)
  | named (name : String) (value : Dump)
  /-- Brackets that are set off with spaces on one line, if so flagged. -/
  | group (opening closing : String) (spaced : Bool) (items : List Dump)

namespace Dump

/-- Parts in parentheses, in order. -/
def tuple (name : String) (items : List Dump) : Dump := group (name ++ "(") ")" false items

/-- Parts in braces, by their names. -/
def record (name : String) (fields : List (String × Dump)) : Dump :=
  group (name ++ " \x7b") "\x7d" true (fields.map (fun f => named f.1 f.2))

def list (items : List Dump) : Dump := group "[" "]" false items

def text (s : String) : Dump := word (quoteText s)

def option : Option Dump → Dump
  | none => word "None"
  | some d => tuple "Some" [d]

mutual

/-- The value on one line. -/
def line : Dump → String
  | word text => text
  | named name value => name ++ ": " ++ value.line
  | group opening closing spaced items =>
    if spaced then opening ++ " " ++ lineItems items ++ " " ++ closing
    else opening ++ lineItems items ++ closing

def lineItems : List Dump → String
  | [] => ""
  | [d] => d.line
  | d :: rest => d.line ++ ", " ++ lineItems rest

end

def indentation (depth : Nat) : String := String.ofList (List.replicate (4 * depth) ' ')

mutual

/-- The value with every part on a line of its own, at a depth. -/
def block (depth : Nat) : Dump → String
  | word text => text
  | named name value => name ++ ": " ++ value.block depth
  | group opening closing _ [] => opening ++ closing
  | group opening closing _ (d :: rest) =>
    opening ++ "\n" ++ blockItems (depth + 1) (d :: rest) ++ indentation depth ++ closing

def blockItems (depth : Nat) : List Dump → String
  | [] => ""
  | d :: rest => indentation depth ++ d.block depth ++ ",\n" ++ blockItems depth rest

end

end Dump

def Span.dump (s : Span) : Dump :=
  .record "Span" [("start", .word (toString s.start)), ("end", .word (toString s.stop))]

def dumpSpanned (node : Dump) (span : Span) : Dump :=
  .record "Spanned" [("node", node), ("span", span.dump)]

def TokenKind.dump : TokenKind → Dump
  | keyword k => .tuple "Keyword" [.word k.label]
  | punct p => .tuple "Punctuation" [.word p.label]
  | ident => .word "Ident"
  | intLit => .word "IntLiteral"
  | floatLit => .word "FloatLiteral"
  | charLit => .word "CharLiteral"
  | stringLit => .word "StringLiteral"
  | eof => .word "Eof"

def Token.dump (t : Token) : Dump :=
  .record "Token" [("kind", t.kind.dump), ("text", .text t.text), ("span", t.span.dump)]

def Name.dump (n : Name) : Dump :=
  .record "QualifiedName" [("segments", .list (n.segments.map Dump.text))]

def dumpReference (n : Name) : Dump := .record "ReferenceType" [("name", n.dump)]

mutual

def TypeNode.dump : TypeNode → Dump
  | .primitive p => .tuple "Primitive" [.word p.label]
  | .reference n => .tuple "Reference" [dumpReference n]
  | .parameterized raw args =>
    .tuple "Parameterized" [.record "ParameterizedType"
      [("raw", dumpReference raw), ("args", .list (TypeArg.dumpList args))]]
  | .array element span =>
    .tuple "Array" [.record "ArrayType" [("element", dumpSpanned element.dump span)]]

def TypeArg.dump : TypeArg → Dump
  | .type t span => dumpSpanned (.tuple "Type" [t.dump]) span
  | .wildcard span => dumpSpanned (.tuple "Wildcard" [.option none]) span
  | .bounded b t boundSpan span =>
    dumpSpanned (.tuple "Wildcard"
      [.option (some (.tuple b.label [dumpSpanned t.dump boundSpan]))]) span

def TypeArg.dumpList : List TypeArg → List Dump
  | [] => []
  | a :: rest => a.dump :: TypeArg.dumpList rest

end

def Literal.dump : Literal → Dump
  | int v => .tuple "Int" [.word (toString v)]
  | long v => .tuple "Long" [.word (toString v)]
  | float v => .tuple "Float" [.word (v.write .plain)]
  | double v => .tuple "Double" [.word (v.write .plain)]
  | char c => .tuple "Char" [.word (quoteChar c)]
  | string s => .tuple "String" [.text s]
  | bool b => .tuple "Bool" [.word (toString b)]
  | null => .word "Null"

def ReturnType.dump : ReturnType → Dump
  | void => .word "Void"
  | type t => .tuple "Type" [t.dump]

def Import.dump (i : Import) : Dump :=
  .record "ImportDecl" [("path", i.path.dump), ("wildcard", .word (toString i.wildcard))]

/-- A part with its span. -/
def Spanned.dump {α : Type} (f : α → Dump) (s : Spanned α) : Dump := dumpSpanned (f s.node) s.span

def dumpModifiers (ms : List (Spanned Modifier)) : Dump :=
  .list (ms.map (Spanned.dump (fun m => .word m.label)))

def Param.dump (p : Param) : Dump :=
  .record "Param" [("is_final", .word (toString p.isFinal)), ("ty", p.type.dump TypeNode.dump),
    ("name", p.name.dump Dump.text)]

def Member.dump : Member → Dump
  | field f => .tuple "Field" [.record "FieldDecl" [("modifiers", dumpModifiers f.modifiers),
      ("ty", f.type.dump TypeNode.dump), ("name", f.name.dump Dump.text),
      ("init", .option (f.init.map (Spanned.dump Literal.dump)))]]
  | method m => .tuple "Method" [.record "MethodDecl" [("modifiers", dumpModifiers m.modifiers),
      ("return_type", m.returns.dump ReturnType.dump), ("name", m.name.dump Dump.text),
      ("params", .list (m.params.map (Spanned.dump Param.dump)))]]

def CompilationUnit.dump (u : CompilationUnit) : Dump :=
  .record "CompilationUnit" [("package", .option (u.package.map (Spanned.dump Name.dump))),
    ("imports", .list (u.imports.map (Spanned.dump Import.dump))),
    ("members", .list (u.members.map (Spanned.dump Member.dump)))]

end DeclFront
