import DeclFront.Proofs.LineBreak
import DeclFront.Proofs.Numerals
import DeclFront.Proofs.QuotedLiterals

/-! The lexical grammar. The scanner accepts exactly the lexemes of the grammar, whatever text they
are cut from. -/

namespace DeclFront

variable {first : Char} {cs rest tail : List Char} {k : TokenKind}

/-! ### Quoted texts -/

/-- A plain character ends neither the text nor its line, and an escape has a meaning. -/
def Piece.Fits (quote : Char) : Piece → Prop
  | plain c => c ≠ '\n' ∧ c ≠ quote ∧ c ≠ '\\'
  | escaped c => (escapeValue? c).isSome = true

theorem QuotedBody.scan_pieces {quote : Char} {pieces : List Piece} (hn : quote ≠ '\n')
    (hb : quote ≠ '\\') (h : ∀ p ∈ pieces, p.Fits quote) (rest : List Char) :
    scan quote (pieces.flatMap Piece.spelling ++ quote :: rest) = ⟨pieces, .closed, rest⟩ := by
  induction pieces with
  | nil => exact scan_close hn rest
  | cons p pieces ih =>
    obtain ⟨hp, hmore⟩ := List.forall_mem_cons.mp h
    cases p with
    | plain c =>
      obtain ⟨hline, hquote, hslash⟩ := hp
      simp only [List.flatMap_cons, Piece.spelling, List.cons_append, List.nil_append]
      rw [scan_plain hline hquote hslash, ih hmore]
      rfl
    | escaped c =>
      have hline : c ≠ '\n' := by
        rintro rfl
        cases hp
      simp only [List.flatMap_cons, Piece.spelling, List.cons_append, List.nil_append]
      rw [scan_escaped hb hline, ih hmore]
      rfl

theorem QuotedBody.pieces_fit {quote : Char} {before : Nat}
    (h : unknownEscape? before (scan quote cs).pieces = none) :
    ∀ p ∈ (scan quote cs).pieces, p.Fits quote := by
  have hvalue := value?_of_unknownEscape? h
  have hplain : ∀ c, .plain c ∈ (scan quote cs).pieces → c ≠ '\n' ∧ c ≠ quote ∧ c ≠ '\\' := by
    clear h hvalue
    fun_induction scan quote cs with
    | case1 => simp
    | case2 rest => simp
    | case3 c rest hne hc => simp
    | case4 c hne hc hb => simp
    | case5 c hne hc hb rest => simp
    | case6 c hne hc hb e rest hne' ih => simpa [QuotedBody.cons] using ih
    | case7 d rest hne hc hb ih =>
      intro c hmem
      rcases List.mem_cons.mp hmem with he | hmem
      · cases he
        exact ⟨hne, by simpa using hc, by simpa using hb⟩
      · exact ih c hmem
  intro p hp
  cases p with
  | plain c => exact hplain c hp
  | escaped c => exact Option.isSome_iff_exists.mpr (hvalue _ hp)

theorem unknownEscape?_fits {quote : Char} {pieces : List Piece} (h : ∀ p ∈ pieces, p.Fits quote)
    (before : Nat) : unknownEscape? before pieces = none := by
  induction pieces generalizing before with
  | nil => rfl
  | cons p pieces ih =>
    obtain ⟨hp, hmore⟩ := List.forall_mem_cons.mp h
    cases p with
    | plain c => exact ih hmore _
    | escaped c =>
      have hknown : (escapeValue? c).isNone = false := by
        rw [Option.isNone_eq_false_iff]
        exact hp
      simp [unknownEscape?, hknown, ih hmore]

/-! ### Lexemes -/

inductive Lexeme : TokenKind → List Char → Prop
  | word {c : Char} {cs : List Char} (hc : isIdentStart c = true)
      (hcs : cs.all isIdentPart = true) : Lexeme (wordKind (c :: cs)) (c :: cs)
  | number {k : TokenKind} {cs : List Char} (hn : Numeral k cs)
      (hu : hasStrayUnderscore cs = false) : Lexeme k cs
  | string {pieces : List Piece} (h : ∀ p ∈ pieces, p.Fits '"') :
      Lexeme .stringLit ('"' :: (pieces.flatMap Piece.spelling ++ ['"']))
  | character {p : Piece} (h : p.Fits '\'') : Lexeme .charLit ('\'' :: (p.spelling ++ ['\'']))
  | mark (p : Punctuation) : Lexeme (.punct p) [p.char]

theorem scanString_sound (h : (scanString rest).outcome = .ok k) :
    Lexeme k (scanString rest).taken := by
  obtain rfl : k = .stringLit := by
    rcases scanString_outcome rest with ho | ho | ⟨f, ho, -⟩ <;> cases ho.symm.trans h
    rfl
  obtain ⟨hclosed, hknown⟩ := scanString_closed h
  have hlexeme := Lexeme.string (QuotedBody.pieces_fit hknown)
  rw [toSplit_scanString]
  simpa [QuotedBody.split, QuotedBody.lexeme, hclosed, Ending.spelling] using hlexeme

theorem scanCharacter_sound (h : (scanCharacter rest).outcome = .ok k) :
    Lexeme k (scanCharacter rest).taken := by
  obtain rfl : k = .charLit := by
    rcases scanCharacter_outcome rest with ho | ⟨f, -, ho⟩ | ⟨f, ho, -⟩ <;> cases ho.symm.trans h
    rfl
  obtain ⟨hclosed, hknown, p, hp⟩ := scanCharacter_closed h
  have hfits : p.Fits '\'' := QuotedBody.pieces_fit hknown p (by simp [hp])
  have hlexeme := Lexeme.character hfits
  rw [toSplit_scanCharacter]
  simpa [QuotedBody.split, QuotedBody.lexeme, hclosed, hp, Ending.spelling] using hlexeme

/-- What the scanner accepts is a lexeme of the grammar. -/
theorem scan_sound (h : (scan first rest).outcome = .ok k) : Lexeme k (scan first rest).taken := by
  unfold scan at h ⊢
  by_cases hw : isIdentStart first = true
  · simp only [hw, if_true] at h ⊢
    cases h
    exact .word hw List.all_takeWhile
  simp only [hw, Bool.false_eq_true, if_false] at h ⊢
  by_cases hd : (first.isDigit || first == '.' && rest.head?.any Char.isDigit) = true
  · rw [if_pos hd] at h ⊢
    simp only [Bool.or_eq_true, Bool.and_eq_true, beq_iff_eq] at hd
    obtain ⟨hn, hu⟩ := scanNumber_sound hd h
    exact .number hn hu
  rw [if_neg hd] at h ⊢
  by_cases hs : (first == '"') = true
  · rw [if_pos hs] at h ⊢
    exact scanString_sound h
  rw [if_neg hs] at h ⊢
  by_cases hq : (first == '\'') = true
  · rw [if_pos hq] at h ⊢
    exact scanCharacter_sound h
  rw [if_neg hq] at h ⊢
  unfold scanMark at h ⊢
  split at h
  · next p hp =>
    cases h
    rw [← Punctuation.ofChar?_eq_some hp]
    exact .mark p
  · cases h

theorem Lexeme.solid (h : Lexeme k (first :: cs)) : first ≠ '/' ∧ isBlank first = false := by
  generalize htext : first :: cs = text at h
  cases h with
  | word hc _ =>
    obtain ⟨rfl, -⟩ := List.cons.inj htext
    obtain ⟨hslash, hblank, -⟩ := isIdentStart_solid hc
    exact ⟨hslash, hblank⟩
  | number hn _ =>
    subst htext
    rcases hn.start with hd | ⟨rfl, -⟩
    · obtain ⟨hslash, hblank, -⟩ := isDigit_solid hd
      exact ⟨hslash, hblank⟩
    · decide
  | string _ =>
    obtain ⟨rfl, -⟩ := List.cons.inj htext
    decide
  | character _ =>
    obtain ⟨rfl, -⟩ := List.cons.inj htext
    decide
  | mark p =>
    obtain ⟨rfl, -⟩ := List.cons.inj htext
    cases p <;> decide

/-- A lexeme of the grammar is taken as a whole if nothing that follows goes on with it. -/
theorem scan_complete (h : Lexeme k (first :: cs)) (ht : apart tail = true) :
    scan first (cs ++ tail) = (Split.mk (first :: cs) tail).accept k := by
  generalize htext : first :: cs = text at h ⊢
  cases h with
  | @word c cs' hc hcs =>
    obtain ⟨rfl, rfl⟩ := List.cons.inj htext
    refine scan_word hc hcs ?_
    rw [detached, head?_any_apart ht (fun c hc => .inl hc)]
    rfl
  | number hn hu =>
    subst htext
    have hscan : scan first (cs ++ tail) = scanNumber first (cs ++ tail) := by
      rcases hn.start with hd | ⟨rfl, d, ds, rfl, hd⟩
      · simp [scan, (isDigit_solid hd).2.2, hd]
      · simp [scan, isIdentStart, hd]
    rw [hscan, scanNumber_complete hn ht hu]
  | string h =>
    obtain ⟨rfl, rfl⟩ := List.cons.inj htext
    show scanString _ = _
    simp only [List.append_assoc, List.singleton_append]
    unfold scanString
    rw [QuotedBody.scan_pieces (by decide) (by decide) h]
    simp [unknownEscape?_fits h, QuotedBody.split, QuotedBody.lexeme, Ending.spelling]
  | @character p h =>
    obtain ⟨rfl, rfl⟩ := List.cons.inj htext
    have hone : ∀ q ∈ [p], q.Fits '\'' := by simpa using h
    have hbody := QuotedBody.scan_pieces (by decide) (by decide) hone tail
    show scanCharacter _ = _
    simp only [List.append_assoc, List.singleton_append, List.flatMap_cons, List.flatMap_nil,
      List.nil_append] at hbody ⊢
    unfold scanCharacter
    rw [hbody]
    simp [unknownEscape?_fits hone, QuotedBody.split, QuotedBody.lexeme, Ending.spelling]
  | mark p =>
    obtain ⟨rfl, rfl⟩ := List.cons.inj htext
    refine scan_mark (fun _ => head?_any_apart ht (fun c hc => .inl ?_))
    simp [isIdentPart, Char.isAlphanum, hc]

/-! ### Lexemes of a kind -/

theorem NumberMark.kind {isFloat : Bool} (h : NumberMark isFloat k cs) :
    k = .intLit ∨ k = .floatLit := by
  cases h with
  | int => exact .inl rfl
  | float => exact .inr rfl
  | long _ => exact .inl rfl
  | sized _ => exact .inr rfl

theorem Numeral.kind (h : Numeral k cs) : k = .intLit ∨ k = .floatLit := by
  cases h with
  | parts _ _ hm => exact hm.kind

theorem wordKind_cases (lexeme : List Char) :
    wordKind lexeme = .ident ∨ ∃ word, wordKind lexeme = .keyword word := by
  unfold wordKind
  cases Keyword.ofSpelling? (String.ofList lexeme) with
  | none => exact .inl rfl
  | some word => exact .inr ⟨word, rfl⟩

theorem Lexeme.numeral (h : Lexeme k cs) (hk : k = .intLit ∨ k = .floatLit) :
    Numeral k cs ∧ hasStrayUnderscore cs = false := by
  cases h with
  | @word c cs hc hcs =>
    rcases wordKind_cases (c :: cs) with hw | ⟨word, hw⟩ <;> simp [hw] at hk
  | number hn hu => exact ⟨hn, hu⟩
  | string _ => simp at hk
  | character _ => simp at hk
  | mark p => simp at hk

theorem Lexeme.string_pieces (h : Lexeme .stringLit cs) :
    ∃ pieces : List Piece, (∀ p ∈ pieces, p.Fits '"') ∧
      cs = '"' :: (pieces.flatMap Piece.spelling ++ ['"']) := by
  generalize hk : TokenKind.stringLit = kind at h
  cases h with
  | @word c cs hc hcs =>
    rcases wordKind_cases (c :: cs) with hw | ⟨word, hw⟩ <;> simp [hw] at hk
  | number hn hu => rcases hn.kind with rfl | rfl <;> cases hk
  | @string pieces h => exact ⟨pieces, h, rfl⟩
  | character _ => cases hk
  | mark p => cases hk

theorem Lexeme.character_piece (h : Lexeme .charLit cs) :
    ∃ p : Piece, p.Fits '\'' ∧ cs = '\'' :: (p.spelling ++ ['\'']) := by
  generalize hk : TokenKind.charLit = kind at h
  cases h with
  | @word c cs hc hcs =>
    rcases wordKind_cases (c :: cs) with hw | ⟨word, hw⟩ <;> simp [hw] at hk
  | number hn hu => rcases hn.kind with rfl | rfl <;> cases hk
  | string _ => cases hk
  | @character p h => exact ⟨p, h, rfl⟩
  | mark p => cases hk

end DeclFront
