/-! Where sources are read from. A storage answers a path with what a look at it shows: its size,
and its bytes or the reason why they cannot be had. -/

namespace DeclFront

inductive FileError
  | notFound
  | notDirectory
  | isDirectory
  | nameTooLong
  | invalidName
  | notText
  /-- A failure of the system with its own words. -/
  | other (message : String)
deriving DecidableEq, Repr

def FileError.message : FileError → String
  | notFound => "No such file or directory (os error 2)"
  | notDirectory => "Not a directory (os error 20)"
  | isDirectory => "Is a directory (os error 21)"
  | nameTooLong => "File name too long (os error 36)"
  | invalidName => "file name contained an unexpected NUL byte"
  | notText => "stream did not contain valid UTF-8"
  | other message => message

structure Stored where
  size : Nat
  content : Except FileError ByteArray

abbrev Storage := String → Except FileError Stored

/-- The text of a file, unless its bytes are no text. -/
def decodeText (bytes : ByteArray) : Except FileError String :=
  match String.fromUTF8? bytes with
  | some s => .ok s
  | none => .error .notText

end DeclFront
