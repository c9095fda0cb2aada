import DeclFront.Proofs.Scanning
import DeclFront.Tree.Literal

/-! Quoted tokens of a text can always be read: the lexer lets no escape through that has no meaning,
and what stands between the quotes is decoded piece by piece. -/

namespace DeclFront

/-! ### Pieces -/

theorem QuotedBody.plain_ne_backslash (quote : Char) (cs : List Char) {c : Char}
    (h : .plain c ∈ (scan quote cs).pieces) : c ≠ '\\' := by
  fun_induction scan quote cs with
  | case1 => cases h
  | case2 rest => cases h
  | case3 c rest hne hc => cases h
  | case4 c hne hc hb => cases h
  | case5 c hne hc hb rest => cases h
  | case6 c hne hc hb e rest hne' ih =>
    rcases List.mem_cons.mp h with he | hmem
    · cases he
    · exact ih hmem
  | case7 d rest hne hc hb ih =>
    rcases List.mem_cons.mp h with he | hmem
    · cases he
      simpa using hb
    · exact ih hmem

theorem unescape?_plain {c : Char} (hc : c ≠ '\\') (cs : List Char) :
    unescape? (c :: cs) = (unescape? cs).map (c :: ·) := by
  rw [unescape?.eq_def]
  simp only [beq_iff_eq, hc, if_false]
  cases unescape? cs <;> rfl

theorem unescape?_escaped (c : Char) (cs : List Char) :
    unescape? ('\\' :: c :: cs) = (escapeValue? c).bind (fun v => (unescape? cs).map (v :: ·)) := by
  rw [unescape?.eq_def]
  simp only [beq_self_eq_true, if_true]
  cases escapeValue? c with
  | none => rfl
  | some v => cases unescape? cs <;> rfl

theorem value?_of_unknownEscape? {before : Nat} {pieces : List Piece}
    (h : unknownEscape? before pieces = none) : ∀ p ∈ pieces, ∃ v, p.value? = some v := by
  induction pieces generalizing before with
  | nil => simp
  | cons p pieces ih =>
    cases p with
    | plain c => exact List.forall_mem_cons.mpr ⟨⟨c, rfl⟩, ih h⟩
    | escaped c =>
      rw [unknownEscape?] at h
      split at h
      · cases h
      · next hc =>
        have hvalue : (escapeValue? c).isSome = true := by simpa [Option.isSome_iff_ne_none] using hc
        exact List.forall_mem_cons.mpr ⟨Option.isSome_iff_exists.mp hvalue, ih h⟩

theorem unescape?_pieces {pieces : List Piece} (hplain : ∀ c, .plain c ∈ pieces → c ≠ '\\')
    (hvalue : ∀ p ∈ pieces, ∃ v, p.value? = some v) :
    ∃ values, unescape? (pieces.flatMap Piece.spelling) = some values ∧
      pieces.map Piece.value? = values.map some := by
  induction pieces with
  | nil => exact ⟨[], rfl, rfl⟩
  | cons p pieces ih =>
    obtain ⟨v, hv⟩ := hvalue p List.mem_cons_self
    obtain ⟨values, hread, hmap⟩ := ih (fun c hc => hplain c (List.mem_cons_of_mem _ hc))
      (fun q hq => hvalue q (List.mem_cons_of_mem _ hq))
    refine ⟨v :: values, ?_, by simp [hv, hmap]⟩
    cases p with
    | plain c =>
      have hc : c ≠ '\\' := hplain c List.mem_cons_self
      cases hv
      rw [List.flatMap_cons, Piece.spelling, List.singleton_append, unescape?_plain hc, hread]
      rfl
    | escaped c =>
      have hv' : escapeValue? c = some v := hv
      rw [List.flatMap_cons, Piece.spelling, List.cons_append, List.singleton_append,
        unescape?_escaped, hv', hread]
      rfl

/-! ### Quoted texts -/

theorem quotedBody?_quoted {quote : Char} (hq : quote.utf8Size = 1) (body : List Char) :
    quotedBody? (quote :: (body ++ [quote])) = some body := by
  have hlast : (body ++ [quote]).getLast? = some quote := List.getLast?_concat
  have hinit : (body ++ [quote]).dropLast = body := List.dropLast_concat
  cases hb : body ++ [quote] with
  | nil => simp [hb] at hlast
  | cons c rest => simp [quotedBody?, hq, ← hb, hlast, hinit]

/-- A closed literal in which every escape has a meaning is read as its pieces say. -/
theorem readQuoted?_lexeme {quote : Char} {cs : List Char} {before : Nat} (hq : quote.utf8Size = 1)
    (hclosed : (QuotedBody.scan quote cs).ending = .closed)
    (hknown : unknownEscape? before (QuotedBody.scan quote cs).pieces = none) :
    ∃ values, readQuoted? (String.ofList ((QuotedBody.scan quote cs).lexeme quote)) = some values ∧
      (QuotedBody.scan quote cs).pieces.map Piece.value? = values.map some := by
  have hplain : ∀ c, .plain c ∈ (QuotedBody.scan quote cs).pieces → c ≠ '\\' :=
    fun c hc => QuotedBody.plain_ne_backslash quote cs hc
  obtain ⟨values, hread, hvalues⟩ := unescape?_pieces hplain (value?_of_unknownEscape? hknown)
  refine ⟨values, ?_, hvalues⟩
  rw [readQuoted?, String.toList_ofList, QuotedBody.lexeme, hclosed, Ending.spelling,
    List.cons_append, quotedBody?_quoted hq]
  exact hread

theorem scanString_closed {rest : List Char} (h : (scanString rest).outcome = .ok .stringLit) :
    (QuotedBody.scan '"' rest).ending = .closed ∧
      unknownEscape? 1 (QuotedBody.scan '"' rest).pieces = none := by
  unfold scanString at h
  dsimp only at h
  split at h
  · next hclosed =>
    split at h
    · cases h
    · next hknown => exact ⟨hclosed, hknown⟩
  · cases h

theorem scanCharacter_closed {rest : List Char} (h : (scanCharacter rest).outcome = .ok .charLit) :
    (QuotedBody.scan '\'' rest).ending = .closed ∧
      unknownEscape? 1 (QuotedBody.scan '\'' rest).pieces = none ∧
      ∃ p, (QuotedBody.scan '\'' rest).pieces = [p] := by
  unfold scanCharacter at h
  dsimp only at h
  split at h
  · next hclosed =>
    split at h
    · cases h
    · next hknown =>
      split at h
      · next p hp => exact ⟨hclosed, hknown, p, hp⟩
      · cases h
      · cases h
  · cases h

/-! ### Tokens -/

theorem scan_quoted {first : Char} {rest : List Char} {k : TokenKind}
    (h : (scan first rest).outcome = .ok k) :
    (k = .stringLit → scan first rest = scanString rest) ∧
      (k = .charLit → scan first rest = scanCharacter rest) := by
  rcases scan_cases first rest with ⟨-, he⟩ | he | he | he | he <;> rw [he] at h ⊢
  · have hk : wordKind (first :: rest.takeWhile isIdentPart) = k := Except.ok.inj h
    unfold wordKind at hk
    split at hk <;> subst hk <;> simp
  · rcases scanNumber_outcome first rest with ⟨why, ho⟩ | ho | ho <;> cases ho.symm.trans h <;> simp
  · rcases scanString_outcome rest with ho | ho | ⟨f, ho, -⟩ <;> cases ho.symm.trans h
    simp
  · rcases scanCharacter_outcome rest with ho | ⟨f, -, ho⟩ | ⟨f, ho, -⟩ <;> cases ho.symm.trans h
    simp
  · unfold scanMark at h
    split at h <;> cases h
    simp

theorem Found.readQuoted?_string {s : Scanned} (h : Found s) (hk : s.outcome = .ok .stringLit) :
    ∃ values, readQuoted? (String.ofList s.taken) = some values := by
  cases h with
  | openComment hne => cases hk
  | lexeme first rest =>
    have hscan : scan first rest = scanString rest := (scan_quoted hk).1 rfl
    rw [hscan] at hk ⊢
    obtain ⟨hclosed, hknown⟩ := scanString_closed hk
    obtain ⟨values, hread, -⟩ := readQuoted?_lexeme (by rfl) hclosed hknown
    rw [toSplit_scanString]
    exact ⟨values, hread⟩

theorem Found.readQuoted?_char {s : Scanned} (h : Found s) (hk : s.outcome = .ok .charLit) :
    ∃ c, readQuoted? (String.ofList s.taken) = some [c] := by
  cases h with
  | openComment hne => cases hk
  | lexeme first rest =>
    have hscan : scan first rest = scanCharacter rest := (scan_quoted hk).2 rfl
    rw [hscan] at hk ⊢
    obtain ⟨hclosed, hknown, p, hp⟩ := scanCharacter_closed hk
    obtain ⟨values, hread, hvalues⟩ := readQuoted?_lexeme (by rfl) hclosed hknown
    have hlength : values.length = 1 := by simpa [hp] using (congrArg List.length hvalues).symm
    obtain ⟨c, rfl⟩ := List.length_eq_one_iff.mp hlength
    rw [toSplit_scanCharacter]
    exact ⟨c, hread⟩

theorem readIntLiteral_error {t : Token} {d : Diagnostic} (h : readIntLiteral t = .error d) :
    ∃ type, d = .literalOutOfRange t.text type t.span := by
  unfold readIntLiteral at h
  split at h
  · split at h <;> cases h
    exact ⟨_, rfl⟩
  · split at h <;> cases h
    exact ⟨_, rfl⟩

theorem readFloatLiteral_error {t : Token} {d : Diagnostic} (h : readFloatLiteral t = .error d) :
    ∃ type, d = .literalOutOfRange t.text type t.span := by
  unfold readFloatLiteral at h
  dsimp only at h
  split at h
  · split at h <;> cases h
    exact ⟨_, rfl⟩
  · split at h <;> cases h
    exact ⟨_, rfl⟩

/-- A literal of a text cannot be read if it is a number out of range or no literal at all. -/
theorem lex_readLiteral_error {s : String} {tokens : List Token} {t : Token} {d : Diagnostic}
    (h : lex s = .ok tokens) (ht : t ∈ tokens) (hd : readLiteral t = .error d) :
    (∃ type, d = .literalOutOfRange t.text type t.span) ∨ d = .illegalToken t "literal" := by
  -- Only the end mark has not been scanned, and it is no literal.
  have hquoted (hk : t.kind ≠ .eof) :
      ∃ sc, Found sc ∧ sc.outcome = .ok t.kind ∧ t.text = String.ofList sc.taken := by
    rcases lex_found h ht with rfl | hfound
    · exact absurd rfl hk
    · exact hfound
  unfold readLiteral at hd
  split at hd
  · exact .inl (readIntLiteral_error hd)
  · exact .inl (readFloatLiteral_error hd)
  · next hk =>
    obtain ⟨sc, hfound, hkind, htext⟩ := hquoted (by simp [hk])
    obtain ⟨c, hread⟩ := hfound.readQuoted?_char (hkind.trans (congrArg _ hk))
    simp [htext, hread] at hd
  · next hk =>
    obtain ⟨sc, hfound, hkind, htext⟩ := hquoted (by simp [hk])
    obtain ⟨values, hread⟩ := hfound.readQuoted?_string (hkind.trans (congrArg _ hk))
    simp [htext, hread] at hd
  · cases hd
  · cases hd
  · cases hd
    exact .inr rfl

end DeclFront
