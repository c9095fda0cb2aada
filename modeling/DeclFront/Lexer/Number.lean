import DeclFront.Lexer.Fault

/-! Numeric lexemes. Only the shape is checked here; the value is read later. -/

namespace DeclFront

def isNumeral (c : Char) : Bool := c.isDigit || c == '_'

def isWordPart (c : Char) : Bool := c.isAlphanum || c == '_'

def isExponentMark (c : Char) : Bool := c == 'e' || c == 'E'

def isSign (c : Char) : Bool := c == '+' || c == '-'

def isLongMark (c : Char) : Bool := c == 'L' || c == 'l'

def isFloatMark (c : Char) : Bool := c == 'f' || c == 'F'

def isDoubleMark (c : Char) : Bool := c == 'd' || c == 'D'

/-- The two characters stand next to each other somewhere in the text. -/
def hasPair (a b : Char) (cs : List Char) : Bool := (cs.zip cs.tail).contains (a, b)

/-- An underscore at the end of the lexeme or beside its point. -/
def hasStrayUnderscore (lexeme : List Char) : Bool :=
  lexeme.getLast? == some '_' || hasPair '_' '.' lexeme || hasPair '.' '_' lexeme

/-- Digits and, unless the first character is a point, a fraction. The flag tells whether a
point was read. -/
def mantissa (first : Char) (rest : List Char) : Split × Bool :=
  let digits := (Split.mk [first] rest).run isNumeral
  if first == '.' then (digits, true)
  else
    match digits.rest with
    | '.' :: d :: _ => if d.isDigit then (digits.step.run isNumeral, true) else (digits, false)
    | _ => (digits, false)

/-- Word characters right after a number make it faulty, and so does a stray underscore. -/
def numberEnd (kind : TokenKind) (s : Split) : Scanned :=
  if s.sees isWordPart then (s.run isWordPart).reject (.number .trailing)
  else if hasStrayUnderscore s.taken then s.reject (.number .strayUnderscore)
  else s.accept kind

def numberSuffix (isFloat : Bool) (s : Split) : Scanned :=
  if s.sees isLongMark then
    if isFloat then s.step.reject (.number .longFloat) else numberEnd .intLit s.step
  else if s.sees (fun c => isFloatMark c || isDoubleMark c) then
    numberEnd .floatLit s.step
  else numberEnd (if isFloat then .floatLit else .intLit) s

/-- Scans the number that starts with the given character, a digit or a point before a digit. -/
def scanNumber (first : Char) (rest : List Char) : Scanned :=
  let m := mantissa first rest
  if m.1.sees isExponentMark then
    let e := m.1.step.stepIf isSign
    if e.sees Char.isDigit then numberSuffix true (e.run isNumeral)
    else e.reject (.number .emptyExponent)
  else numberSuffix m.2 m.1

theorem ahead_mantissa (first : Char) (rest : List Char) :
    (Split.mk [first] rest).Ahead (mantissa first rest).1 := by
  have h := (Split.mk [first] rest).ahead_run isNumeral
  unfold mantissa
  dsimp only
  split
  · exact h
  · split
    · split
      · exact h.trans ((Split.ahead_step _).trans (Split.ahead_run _ _))
      · exact h
    · exact h

theorem ahead_numberEnd (kind : TokenKind) (s : Split) : s.Ahead (numberEnd kind s).toSplit := by
  unfold numberEnd
  split
  · exact s.ahead_run _
  · split <;> exact .refl s

theorem ahead_numberSuffix (isFloat : Bool) (s : Split) :
    s.Ahead (numberSuffix isFloat s).toSplit := by
  unfold numberSuffix
  split
  · split
    · exact s.ahead_step
    · exact s.ahead_step.trans (ahead_numberEnd _ _)
  · split
    · exact s.ahead_step.trans (ahead_numberEnd _ _)
    · exact ahead_numberEnd _ _

theorem ahead_scanNumber (first : Char) (rest : List Char) :
    (Split.mk [first] rest).Ahead (scanNumber first rest).toSplit := by
  have h := ahead_mantissa first rest
  unfold scanNumber
  simp only
  split
  · have h' := h.trans ((Split.ahead_step _).trans (Split.ahead_stepIf isSign _))
    split
    · exact h'.trans ((Split.ahead_run _ _).trans (ahead_numberSuffix _ _))
    · exact h'
  · exact h.trans (ahead_numberSuffix _ _)

end DeclFront
