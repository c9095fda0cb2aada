import DeclFront.Lexer

/-! What one step of the lexer does: it skips trivia, takes a lexeme, and says which token that is or
where it is wrong. -/

namespace DeclFront

/-! ### Trivia -/

/-- The text is trivia if the other one follows: blanks, comments that run up to a new line or to the
end, and closed block comments. -/
inductive Trivia : List Char → List Char → Prop
  | none {rest : List Char} : Trivia [] rest
  | blank {c : Char} {cs rest : List Char} (hc : isBlank c = true) (h : Trivia cs rest) :
      Trivia (c :: cs) rest
  | line {body cs rest : List Char} (hb : '\n' ∉ body)
      (he : (cs ++ rest).head?.all (· == '\n') = true) (h : Trivia cs rest) :
      Trivia ('/' :: '/' :: (body ++ cs)) rest
  | block {body cs rest : List Char} (hb : ∀ xs ys, body ≠ xs ++ '*' :: '/' :: ys)
      (h : Trivia cs rest) : Trivia ('/' :: '*' :: (body ++ '*' :: '/' :: cs)) rest

theorem blockBody?_eq_some {cs closed rest : List Char} (h : blockBody? cs = some (closed, rest)) :
    ∃ body, closed = body ++ ['*', '/'] ∧ ∀ xs ys, body ≠ xs ++ '*' :: '/' :: ys := by
  fun_induction blockBody? cs generalizing closed rest with
  | case1 r =>
    cases h
    exact ⟨[], rfl, by simp⟩
  | case2 c r hne ih =>
    obtain ⟨⟨b, t⟩, hb, he⟩ := Option.map_eq_some_iff.mp h
    cases he
    obtain ⟨body, rfl, hbody⟩ := ih hb
    refine ⟨c :: body, rfl, ?_⟩
    rintro xs ys heq
    cases xs with
    | nil =>
      -- Then the comment would have been closed one character earlier.
      cases heq
      exact hne _ rfl (blockBody?_append hb).symm
    | cons x xs => exact hbody xs ys (List.cons.inj heq).2
  | case3 => cases h

theorem lead_cons {c : Char} (hc : c ≠ '/') (cs : List Char) :
    lead (c :: cs) = if isBlank c then (lead cs).after [c] else ⟨[], c :: cs, false⟩ := by
  rw [lead.eq_def]
  split
  · next heq => exact absurd (List.cons.inj heq).1 hc
  · next heq => exact absurd (List.cons.inj heq).1 hc
  · next heq =>
    cases heq
    rfl
  · next heq => cases heq

theorem lead_trivia (cs : List Char) : Trivia (lead cs).skipped (lead cs).rest := by
  fun_induction lead cs with
  | case1 rest ih =>
    refine .line ?_ ?_ ih
    · intro hmem
      simpa using List.all_eq_true.mp List.all_takeWhile _ hmem
    · simp only [Lead.after, lead_append]
      have hh := List.head?_dropWhile_not (· != '\n') rest
      cases hd : (rest.dropWhile (· != '\n')).head? with
      | none => rfl
      | some c => simpa [hd] using hh
  | case2 rest body rest' h ih =>
    obtain ⟨body, rfl, hbody⟩ := blockBody?_eq_some h
    simpa [Lead.after] using Trivia.block hbody ih
  | case3 rest h => exact .none
  | case4 c rest _ _ hc ih => exact .blank hc ih
  | case5 c rest _ _ hc => exact .none
  | case6 => exact .none

/-! ### Lexemes -/

def LexicalFault.Within (lexeme : List Char) (f : LexicalFault) : Prop :=
  ∀ start, start ≤ (f.span start lexeme).start ∧
    (f.span start lexeme).start < (f.span start lexeme).stop ∧
    (f.span start lexeme).stop ≤ start + width lexeme

/-- The fault points at some characters of the lexeme. -/
def LexicalFault.Marks (lexeme : List Char) (f : LexicalFault) : Prop :=
  ∃ before part after, lexeme = before ++ (part ++ after) ∧ part ≠ [] ∧
    ∀ start, f.span start lexeme = ⟨start + width before, start + width before + width part⟩

theorem LexicalFault.Marks.within {lexeme : List Char} {f : LexicalFault} (h : f.Marks lexeme) :
    f.Within lexeme := by
  obtain ⟨before, part, after, rfl, hne, hspan⟩ := h
  intro start
  have hpos := width_pos hne
  simp only [hspan, width_append]
  omega

theorem numberEnd_outcome (kind : TokenKind) (s : Split) :
    (∃ why, (numberEnd kind s).outcome = .error (.number why)) ∨
      (numberEnd kind s).outcome = .ok kind := by
  unfold numberEnd
  split
  · exact .inl ⟨_, rfl⟩
  · split
    · exact .inl ⟨_, rfl⟩
    · exact .inr rfl

theorem numberSuffix_outcome (isFloat : Bool) (s : Split) :
    (∃ why, (numberSuffix isFloat s).outcome = .error (.number why)) ∨
      (numberSuffix isFloat s).outcome = .ok .intLit ∨
      (numberSuffix isFloat s).outcome = .ok .floatLit := by
  unfold numberSuffix
  split
  · split
    · exact .inl ⟨_, rfl⟩
    · exact (numberEnd_outcome .intLit _).imp_right .inl
  · split
    · exact (numberEnd_outcome .floatLit _).imp_right .inr
    · cases isFloat with
      | true => exact (numberEnd_outcome .floatLit _).imp_right .inr
      | false => exact (numberEnd_outcome .intLit _).imp_right .inl

theorem scanNumber_outcome (first : Char) (rest : List Char) :
    (∃ why, (scanNumber first rest).outcome = .error (.number why)) ∨
      (scanNumber first rest).outcome = .ok .intLit ∨
      (scanNumber first rest).outcome = .ok .floatLit := by
  unfold scanNumber
  dsimp only
  split
  · split
    · exact numberSuffix_outcome _ _
    · exact .inl ⟨_, rfl⟩
  · exact numberSuffix_outcome _ _

theorem unknownEscape?_eq_some {before : Nat} {pieces : List Piece} {f : LexicalFault}
    (h : unknownEscape? before pieces = some f) :
    ∃ c xs ys, pieces = xs ++ .escaped c :: ys ∧
      f = .unknownEscape c (before + width (xs.flatMap Piece.spelling)) := by
  induction pieces generalizing before with
  | nil => cases h
  | cons p pieces ih =>
    have hlater (h : unknownEscape? (before + width p.spelling) pieces = some f) :
        ∃ c xs ys, p :: pieces = xs ++ .escaped c :: ys ∧
          f = .unknownEscape c (before + width (xs.flatMap Piece.spelling)) := by
      obtain ⟨c, xs, ys, rfl, rfl⟩ := ih h
      exact ⟨c, p :: xs, ys, rfl, by simp [Nat.add_assoc]⟩
    cases p with
    | plain c => exact hlater h
    | escaped c =>
      rw [unknownEscape?] at h
      split at h
      · cases h
        exact ⟨c, [], pieces, rfl, by simp⟩
      · exact hlater h

theorem scanString_outcome (rest : List Char) :
    (scanString rest).outcome = .ok .stringLit ∨
      (scanString rest).outcome = .error .openString ∨
      ∃ f, (scanString rest).outcome = .error f ∧
        unknownEscape? 1 (QuotedBody.scan '"' rest).pieces = some f := by
  unfold scanString
  dsimp only
  split
  · split
    · next f hf => exact .inr (.inr ⟨f, rfl, hf⟩)
    · exact .inl rfl
  · exact .inr (.inl rfl)

theorem scanCharacter_outcome (rest : List Char) :
    (scanCharacter rest).outcome = .ok .charLit ∨
      (∃ f ∈ [LexicalFault.openChar, .emptyChar, .crowdedChar],
        (scanCharacter rest).outcome = .error f) ∨
      ∃ f, (scanCharacter rest).outcome = .error f ∧
        unknownEscape? 1 (QuotedBody.scan '\'' rest).pieces = some f := by
  unfold scanCharacter
  dsimp only
  split
  · split
    · next f hf => exact .inr (.inr ⟨f, rfl, hf⟩)
    · split
      · exact .inl rfl
      · exact .inr (.inl ⟨_, by simp, rfl⟩)
      · exact .inr (.inl ⟨_, by simp, rfl⟩)
  · exact .inr (.inl ⟨_, by simp, rfl⟩)

theorem scan_cases (first : Char) (rest : List Char) :
    (isIdentStart first = true ∧ scan first rest = scanWord first rest) ∨
      scan first rest = scanNumber first rest ∨ scan first rest = scanString rest ∨
      scan first rest = scanCharacter rest ∨ scan first rest = scanMark first rest := by
  unfold scan
  split
  · next hw => exact .inl ⟨hw, rfl⟩
  · split
    · exact .inr (.inl rfl)
    · split
      · exact .inr (.inr (.inl rfl))
      · split
        · exact .inr (.inr (.inr (.inl rfl)))
        · exact .inr (.inr (.inr (.inr rfl)))

/-- A token is a word, a number, a quoted text or a mark. -/
theorem scan_eq_ok {first : Char} {rest : List Char} {k : TokenKind}
    (h : (scan first rest).outcome = .ok k) :
    (isIdentStart first = true ∧ k = wordKind (first :: rest.takeWhile isIdentPart) ∧
      (scan first rest).taken = first :: rest.takeWhile isIdentPart) ∨
    k ∈ [TokenKind.intLit, .floatLit, .stringLit, .charLit] ∨
    ∃ p, k = .punct p ∧ (scan first rest).taken = [p.char] := by
  rcases scan_cases first rest with ⟨hw, he⟩ | he | he | he | he <;> rw [he] at h ⊢
  · cases h
    exact .inl ⟨hw, rfl, rfl⟩
  · rcases scanNumber_outcome first rest with ⟨why, ho⟩ | ho | ho <;> cases ho.symm.trans h
    · exact .inr (.inl (by simp))
    · exact .inr (.inl (by simp))
  · rcases scanString_outcome rest with ho | ho | ⟨f, ho, -⟩ <;> cases ho.symm.trans h
    exact .inr (.inl (by simp))
  · rcases scanCharacter_outcome rest with ho | ⟨f, -, ho⟩ | ⟨f, ho, -⟩ <;> cases ho.symm.trans h
    exact .inr (.inl (by simp))
  · cases hp : Punctuation.ofChar? first with
    | none => simp [scanMark, hp, Split.reject] at h
    | some p =>
      simp only [scanMark, hp, Split.accept, Except.ok.injEq] at h ⊢
      exact .inr (.inr ⟨p, h.symm, by rw [Punctuation.ofChar?_eq_some hp]⟩)

theorem scan_taken_ne_nil (first : Char) (rest : List Char) : (scan first rest).taken ≠ [] := by
  obtain ⟨more, ht, -⟩ := ahead_scan first rest
  simp [ht]

theorem LexicalFault.marks {lexeme : List Char} {f : LexicalFault} (hne : lexeme ≠ [])
    (hf : ∀ c place, f = .unknownEscape c place →
      ∃ before after, lexeme = before ++ '\\' :: c :: after ∧ place = width before) :
    f.Marks lexeme := by
  cases f with
  | unknownEscape c place =>
    obtain ⟨before, after, hsplit, rfl⟩ := hf c place rfl
    exact ⟨before, ['\\', c], after, by simpa using hsplit, by simp, fun _ => rfl⟩
  | _ => exact ⟨[], lexeme, [], by simp, hne, fun _ => rfl⟩

theorem escape_marks {quote c : Char} {place : Nat} {rest : List Char} (hq : quote.utf8Size = 1)
    (h : unknownEscape? 1 (QuotedBody.scan quote rest).pieces = some (.unknownEscape c place)) :
    ∃ before after, (QuotedBody.scan quote rest).lexeme quote = before ++ '\\' :: c :: after ∧
      place = width before := by
  obtain ⟨c', xs, ys, hpieces, heq⟩ := unknownEscape?_eq_some h
  cases heq
  refine ⟨quote :: xs.flatMap Piece.spelling, ys.flatMap Piece.spelling ++
    (QuotedBody.scan quote rest).ending.spelling quote, ?_, ?_⟩
  · simp [QuotedBody.lexeme, hpieces, Piece.spelling]
  · rw [width_cons, hq]

theorem scan_unknownEscape {first c : Char} {rest : List Char} {place : Nat}
    (h : (scan first rest).outcome = .error (.unknownEscape c place)) :
    ∃ before after, (scan first rest).taken = before ++ '\\' :: c :: after ∧
      place = width before := by
  rcases scan_cases first rest with ⟨-, he⟩ | he | he | he | he <;> rw [he] at h ⊢
  · cases h
  · rcases scanNumber_outcome first rest with ⟨why, ho⟩ | ho | ho <;> cases ho.symm.trans h
  · rcases scanString_outcome rest with ho | ho | ⟨f, ho, hf⟩ <;> cases ho.symm.trans h
    rw [toSplit_scanString]
    exact escape_marks rfl hf
  · rcases scanCharacter_outcome rest with ho | ⟨f, hm, ho⟩ | ⟨f, ho, hf⟩ <;> cases ho.symm.trans h
    · simp at hm
    · rw [toSplit_scanCharacter]
      exact escape_marks rfl hf
  · unfold scanMark at h
    split at h <;> cases h

/-! ### Steps -/

/-- What is found behind the trivia: a lexeme, or a block comment without an end. -/
inductive Found : Scanned → Prop
  | lexeme (first : Char) (rest : List Char) : Found (scan first rest)
  | openComment {cs : List Char} (hne : cs ≠ []) : Found ((Split.mk cs []).reject .openComment)

theorem Found.taken_ne_nil {s : Scanned} (h : Found s) : s.taken ≠ [] := by
  cases h with
  | lexeme first rest => exact scan_taken_ne_nil first rest
  | openComment hne => exact hne

theorem Found.fault_marks {s : Scanned} {f : LexicalFault} (h : Found s)
    (hf : s.outcome = .error f) : f.Marks s.taken := by
  refine LexicalFault.marks h.taken_ne_nil (fun c place hc => ?_)
  subst hc
  cases h with
  | lexeme first rest => exact scan_unknownEscape hf
  | openComment hne => cases hf

theorem Found.kind_ne_eof {s : Scanned} {k : TokenKind} (h : Found s) (hk : s.outcome = .ok k) :
    k ≠ .eof := by
  rintro rfl
  cases h with
  | openComment hne => cases hk
  | lexeme first rest =>
    rcases scan_eq_ok hk with ⟨-, hw, -⟩ | hm | ⟨p, hp, -⟩
    · unfold wordKind at hw
      split at hw <;> cases hw
    · simp at hm
    · cases hp

theorem Scanned.placed_eq_ok {s : Scanned} {start : Nat} {t : Token} (h : s.placed start = .ok t) :
    s.outcome = .ok t.kind ∧ t.text = String.ofList s.taken ∧
      t.span = ⟨start, start + width s.taken⟩ := by
  unfold placed at h
  split at h
  · next k hk =>
    cases h
    exact ⟨hk, rfl, rfl⟩
  · cases h

theorem Scanned.placed_eq_error {s : Scanned} {start : Nat} {d : Diagnostic}
    (h : s.placed start = .error d) :
    ∃ f, s.outcome = .error f ∧ d.span = f.span start s.taken := by
  unfold placed at h
  split at h
  · cases h
  · next f hf =>
    cases h
    exact ⟨f, hf, rfl⟩

/-- A step of the lexer skips trivia and then takes what it finds. -/
theorem Cursor.next?_eq_some {c c' : Cursor} {r : Except Diagnostic Token}
    (h : c.next? = some (r, c')) :
    ∃ skipped s, Found s ∧ c.rest = skipped ++ s.whole ∧ Trivia skipped s.whole ∧
      r = s.placed (c.offset + width skipped) ∧
      c' = ⟨c.offset + width skipped + width s.taken, s.rest⟩ := by
  have happ := lead_append c.rest
  have htrivia := lead_trivia c.rest
  unfold next? at h
  dsimp only at h
  split at h
  · cases h
  · next first rest hrest =>
    rw [hrest] at happ htrivia
    cases h
    split
    · refine ⟨_, _, .openComment (by simp), ?_, ?_, rfl, rfl⟩
      · simpa [Split.whole, Split.reject] using happ.symm
      · simpa [Split.whole, Split.reject] using htrivia
    · have hwhole : (scan first rest).whole = first :: rest := (ahead_scan first rest).whole_eq
      exact ⟨_, _, .lexeme first rest, hwhole ▸ happ.symm, hwhole ▸ htrivia, rfl, rfl⟩

theorem Cursor.next?_eq_none {c : Cursor} (h : c.next? = none) : Trivia c.rest [] := by
  have happ := lead_append c.rest
  have htrivia := lead_trivia c.rest
  unfold next? at h
  dsimp only at h
  split at h
  · next hrest =>
    rw [hrest, List.append_nil] at happ
    rwa [hrest, happ] at htrivia
  · cases h

theorem Cursor.next?_solid {c : Char} (hc : c ≠ '/') (hb : isBlank c = false) (o : Nat)
    (cs : List Char) :
    (Cursor.mk o (c :: cs)).next? =
      some ((scan c cs).placed o, ⟨o + width (scan c cs).taken, (scan c cs).rest⟩) := by
  simp [next?, lead_cons hc, hb]

/-! ### Whole texts -/

theorem utf8ByteSize_eq_width (s : String) : s.utf8ByteSize = width s.toList := by
  have hof (cs : List Char) : (String.ofList cs).utf8ByteSize = width cs := by
    induction cs with
    | nil => rfl
    | cons c cs ih =>
      rw [String.ofList_cons, String.utf8ByteSize_append, String.utf8ByteSize_singleton, ih,
        width_cons]
  simpa using hof s.toList

theorem Cursor.limit_ofText (s : String) : (ofText s).limit = s.utf8ByteSize := by
  rw [utf8ByteSize_eq_width, limit, ofText, Nat.zero_add]

namespace Cursor

variable {c c' : Cursor} {r : Except Diagnostic Token} {t : Token} {d : Diagnostic}

theorem next_of_some (h : c.next? = some (r, c')) : c.next = (r, c') := by simp [next, h]

theorem next_of_none (h : c.next? = none) : c.next = (.ok (.endAt c.limit), ⟨c.limit, []⟩) := by
  simp [next, h]

theorem next?_limit (h : c.next? = some (r, c')) : c'.limit = c.limit := by
  obtain ⟨skipped, s, -, hrest, -, -, rfl⟩ := next?_eq_some h
  simp only [limit, hrest, Split.whole, width_append, Nat.add_assoc]

theorem next?_proper (h : c.next? = some (.ok t, c')) : t.isEnd = false := by
  obtain ⟨skipped, s, hfound, -, -, hr, -⟩ := next?_eq_some h
  have hkind := hfound.kind_ne_eof (Scanned.placed_eq_ok hr.symm).1
  simpa [Token.isEnd] using hkind

theorem tokenize_of_token (h : c.next? = some (.ok t, c')) :
    c.tokenize = (t :: c'.tokenize.1, c'.tokenize.2) := by
  have hopen : ¬ t.isEnd = true := by simp [next?_proper h]
  rw [tokenize]
  split
  · next hn =>
    cases hn.symm.trans (next_of_some h)
    rw [dif_neg hopen]
  · next hn => cases hn.symm.trans (next_of_some h)

theorem tokenize_of_fault (h : c.next? = some (.error d, c')) :
    c.tokenize = (c'.tokenize.1, d :: c'.tokenize.2) := by
  rw [tokenize]
  split
  · next hn => cases hn.symm.trans (next_of_some h)
  · next hn =>
    cases hn.symm.trans (next_of_some h)
    rfl

theorem tokenize_of_none (h : c.next? = none) : c.tokenize = ([.endAt c.limit], []) := by
  rw [tokenize]
  split
  · next hn =>
    cases hn.symm.trans (next_of_none h)
    rfl
  · next hn => cases hn.symm.trans (next_of_none h)

end Cursor

theorem Cursor.results_of_some {c c' : Cursor} {r : Except Diagnostic Token}
    (h : c.next? = some (r, c')) : c.results = r :: c'.results := by
  rw [results]
  split
  · next hn =>
    cases hn.symm.trans h
    rfl
  · next hn => cases hn.symm.trans h

theorem Cursor.results_of_none {c : Cursor} (h : c.next? = none) : c.results = [] := by
  rw [results]
  split
  · next hn => cases hn.symm.trans h
  · rfl

theorem Cursor.results_congr {c c' : Cursor} (h : c.next? = c'.next?) : c.results = c'.results := by
  cases hn : c'.next? with
  | none => rw [results_of_none (h.trans hn), results_of_none hn]
  | some p => rw [results_of_some (h.trans hn), results_of_some hn]

theorem Cursor.results_found {c : Cursor} {t : Token} (h : .ok t ∈ c.results) :
    ∃ sc, Found sc ∧ sc.outcome = .ok t.kind ∧ t.text = String.ofList sc.taken := by
  fun_induction results c with
  | case1 c r c' hn ih =>
    rcases List.mem_cons.mp h with rfl | h
    · obtain ⟨skipped, sc, hfound, -, -, hr, -⟩ := next?_eq_some hn
      obtain ⟨hkind, htext, -⟩ := Scanned.placed_eq_ok hr.symm
      exact ⟨sc, hfound, hkind, htext⟩
    · exact ih h
  | case2 c hn => cases h

/-- The loop of the lexer takes its readings apart. -/
theorem Cursor.tokenize_eq (c : Cursor) :
    c.tokenize = (c.results.filterMap Except.toOption ++ [.endAt c.limit],
      c.results.filterMap Diagnostic.of?) := by
  fun_induction results c with
  | case1 c r c' hn ih =>
    rw [next?_limit hn] at ih
    cases r with
    | ok t =>
      rw [tokenize_of_token hn, ih]
      rfl
    | error d =>
      rw [tokenize_of_fault hn, ih]
      rfl
  | case2 c hn => exact tokenize_of_none hn

theorem lex_eq (s : String) :
    lex s = match (lexResults s).filterMap Diagnostic.of? with
      | [] => .ok ((lexResults s).filterMap Except.toOption ++ [endToken s])
      | faults => .error faults := by
  rw [lex, lexResults, Cursor.tokenize_eq, Cursor.limit_ofText]
  cases (Cursor.ofText s).results.filterMap Diagnostic.of? <;> rfl

theorem lex_eq_ok_iff {s : String} {tokens : List Token} :
    lex s = .ok tokens ↔ ∃ ts, lexResults s = ts.map .ok ∧ tokens = ts ++ [endToken s] := by
  rw [lex_eq]
  split
  · next hd =>
    obtain ⟨ts, hts⟩ := Diagnostic.exists_map_ok (List.filterMap_eq_nil_iff.mp hd)
    have htokens : (lexResults s).filterMap Except.toOption = ts := by
      simp [hts, List.filterMap_map, Function.comp_def, Except.toOption]
    rw [htokens, Except.ok.injEq]
    constructor
    · rintro rfl
      exact ⟨ts, hts, rfl⟩
    · rintro ⟨us, hus, rfl⟩
      rw [(List.map_inj_right (by simp)).mp (hts.symm.trans hus)]
  · next hd =>
    refine ⟨nofun, ?_⟩
    rintro ⟨ts, hts, -⟩
    exact absurd (by simp [hts, Diagnostic.of?]) hd

theorem lex_found {s : String} {tokens : List Token} {t : Token} (h : lex s = .ok tokens)
    (ht : t ∈ tokens) :
    t = endToken s ∨
      ∃ sc, Found sc ∧ sc.outcome = .ok t.kind ∧ t.text = String.ofList sc.taken := by
  obtain ⟨ts, hts, rfl⟩ := lex_eq_ok_iff.mp h
  rcases List.mem_append.mp ht with ht | ht
  · refine .inr (Cursor.results_found (c := Cursor.ofText s) ?_)
    rw [show (Cursor.ofText s).results = ts.map .ok from hts]
    exact List.mem_map_of_mem ht
  · exact .inl (by simpa using ht)

theorem lex_eq_error {s : String} {ds : List Diagnostic} (h : lex s = .error ds) :
    ds = (lexResults s).filterMap Diagnostic.of? := by
  rw [lex_eq] at h
  split at h
  · cases h
  · cases h
    rfl

end DeclFront
