import DeclFront.Proofs.LiteralValues

/-! Every text and every character can be written as a literal. Only the backslash, the quote and the
end of a line have to be escaped; some other characters may be. -/

namespace DeclFront

variable {text values : List Char} {quote : Char}

/-! ### Writing -/

/-- The letter that stands for a character behind a backslash. -/
def escapeLetter? : Char → Option Char
  | '\n' => some 'n'
  | '\t' => some 't'
  | '\r' => some 'r'
  | '\x00' => some '0'
  | '\\' => some '\\'
  | '\'' => some '\''
  | '"' => some '"'
  | _ => none

/-- What cannot stand for itself between the quotes. -/
def isReserved (quote c : Char) : Bool := c == '\\' || c == quote || c == '\n'

/-- A character as it is written between the quotes. If it has an escape, it is escaped where it has
to be and where that is wished for. -/
def escape (quote : Char) (wish : Bool) (c : Char) : List Char :=
  match escapeLetter? c with
  | some e => if wish || isReserved quote c then ['\\', e] else [c]
  | none => [c]

/-- Escapes every character. The wishes are told by the place of the character. -/
def escapeAll (quote : Char) (wish : ℕ → Bool) : List Char → List Char
  | [] => []
  | c :: cs => escape quote (wish 0) c ++ escapeAll quote (fun i => wish (i + 1)) cs

/-- The literal in quotes that stands for some characters. -/
def inQuotes (quote : Char) (wish : ℕ → Bool) (cs : List Char) : String :=
  String.ofList (quote :: (escapeAll quote wish cs ++ [quote]))

/-! ### Reading back -/

theorem escapeValue?_letter {c e : Char} (h : escapeLetter? c = some e) :
    escapeValue? e = some c := by
  unfold escapeLetter? at h
  split at h <;> cases h <;> rfl

theorem reserved_of_no_letter {c : Char} (hquote : quote = '"' ∨ quote = '\'')
    (h : escapeLetter? c = none) : isReserved quote c = false := by
  rw [← Bool.not_eq_true]
  intro hc
  simp only [isReserved, Bool.or_eq_true, beq_iff_eq] at hc
  rcases hc with (rfl | rfl) | rfl
  · cases h
  · rcases hquote with rfl | rfl <;> cases h
  · cases h

theorem fits_of_not_reserved {c : Char} (h : isReserved quote c = false) :
    (Piece.plain c).Fits quote := by
  simp only [isReserved, Bool.or_eq_false_iff, beq_eq_false_iff_ne] at h
  exact ⟨h.2, h.1.2, h.1.1⟩

/-- What is written for a character is one piece, and it has that character as its value. -/
theorem escape_piece (hquote : quote = '"' ∨ quote = '\'') (wish : Bool) (c : Char) :
    ∃ p : Piece, p.Fits quote ∧ p.spelling = escape quote wish c ∧ p.value? = some c := by
  unfold escape
  cases hletter : escapeLetter? c with
  | none =>
    have hplain := reserved_of_no_letter hquote hletter
    exact ⟨.plain c, fits_of_not_reserved hplain, rfl, rfl⟩
  | some e =>
    have hvalue : escapeValue? e = some c := escapeValue?_letter hletter
    by_cases hc : (wish || isReserved quote c) = true
    · refine ⟨.escaped e, ?_, by simp [hc, Piece.spelling], hvalue⟩
      rw [Piece.Fits, hvalue]
      rfl
    · obtain ⟨-, hplain⟩ : wish = false ∧ isReserved quote c = false := by simpa using hc
      exact ⟨.plain c, fits_of_not_reserved hplain, by simp [hc, Piece.spelling], rfl⟩

theorem escapeAll_pieces (hquote : quote = '"' ∨ quote = '\'') (wish : ℕ → Bool)
    (cs : List Char) :
    ∃ pieces : List Piece, (∀ p ∈ pieces, p.Fits quote) ∧
      pieces.flatMap Piece.spelling = escapeAll quote wish cs ∧
      pieces.map Piece.value? = cs.map some := by
  induction cs generalizing wish with
  | nil => exact ⟨[], by simp, rfl, rfl⟩
  | cons c cs ih =>
    obtain ⟨p, hp, hspelling, hvalue⟩ := escape_piece hquote (wish 0) c
    obtain ⟨pieces, hpieces, hspellings, hvalues⟩ := ih (fun i => wish (i + 1))
    refine ⟨p :: pieces, List.forall_mem_cons.mpr ⟨hp, hpieces⟩, ?_, ?_⟩
    · rw [List.flatMap_cons, hspelling, hspellings, escapeAll]
    · rw [List.map_cons, List.map_cons, hvalue, hvalues]

theorem inQuotes_spelled (hquote : quote = '"' ∨ quote = '\'') (wish : ℕ → Bool)
    (cs : List Char) : Spelled quote (inQuotes quote wish cs).toList cs := by
  obtain ⟨pieces, hpieces, hspelling, hvalues⟩ := escapeAll_pieces hquote wish cs
  refine ⟨pieces, hpieces, ?_, hvalues⟩
  rw [inQuotes, String.toList_ofList, hspelling]

theorem Spelled.string_lexeme (h : Spelled '"' text values) : Lexeme .stringLit text := by
  obtain ⟨pieces, hpieces, rfl, -⟩ := h
  exact .string hpieces

theorem Spelled.character_lexeme {c : Char} (h : Spelled '\'' text [c]) :
    Lexeme .charLit text := by
  obtain ⟨pieces, hpieces, rfl, hvalues⟩ := h
  have hlength : pieces.length = 1 := by simpa using congrArg List.length hvalues
  obtain ⟨p, rfl⟩ := List.length_eq_one_iff.mp hlength
  have hp : p.Fits '\'' := hpieces p (by simp)
  simpa using Lexeme.character hp

/-- Written in quotes with the necessary escapes, and whatever other escapes are wished for, every
text is one literal that stands for it, and so is every single character. -/
theorem every_text_expressible :
    (∀ (s : String) (wish : ℕ → Bool),
      let text := inQuotes '"' wish s.toList
      let t : Token := ⟨.stringLit, text, ⟨0, text.utf8ByteSize⟩⟩
      lex text = .ok [t, endToken text] ∧ readLiteral t = .ok (.string s)) ∧
    ∀ (c : Char) (wish : ℕ → Bool),
      let text := inQuotes '\'' wish [c]
      let t : Token := ⟨.charLit, text, ⟨0, text.utf8ByteSize⟩⟩
      lex text = .ok [t, endToken text] ∧ readLiteral t = .ok (.char c) := by
  constructor
  · intro s wish text t
    have hspelled : Spelled '"' text.toList s.toList := inQuotes_spelled (.inl rfl) wish s.toList
    have hread := readLiteral_string (t := t) rfl hspelled
    rw [String.ofList_toList] at hread
    exact ⟨hspelled.string_lexeme.lex_eq, hread⟩
  · intro c wish text t
    have hspelled : Spelled '\'' text.toList [c] := inQuotes_spelled (.inr rfl) wish [c]
    exact ⟨hspelled.character_lexeme.lex_eq, readLiteral_character rfl hspelled⟩

end DeclFront
