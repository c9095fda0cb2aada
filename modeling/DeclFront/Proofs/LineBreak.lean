import DeclFront.Proofs.Tiling

/-! No lexeme runs past its line. A text in front of a new line is read as it would be read alone,
whatever stands behind the new line, and reading then starts afresh. -/

namespace DeclFront

variable {more : List Char}

/-! ### Lexemes in front of a new line -/

section Split

variable {p : Char → Bool} {s : Split}

theorem takeWhile_newline (hp : p '\n' = false) (cs : List Char) :
    (cs ++ '\n' :: more).takeWhile p = cs.takeWhile p := by
  induction cs with
  | nil => simp [hp]
  | cons c cs ih => by_cases hc : p c = true <;> simp [hc, ih]

theorem dropWhile_newline (hp : p '\n' = false) (cs : List Char) :
    (cs ++ '\n' :: more).dropWhile p = cs.dropWhile p ++ '\n' :: more := by
  induction cs with
  | nil => simp [hp]
  | cons c cs ih => by_cases hc : p c = true <;> simp [hc, ih]

theorem head?_any_newline (hp : p '\n' = false) (cs : List Char) :
    (cs ++ '\n' :: more).head?.any p = cs.head?.any p := by
  cases cs with
  | nil => simp [hp]
  | cons c cs => rfl

/-- The same cut of a text that goes on with a new line. -/
def Split.goingOn (more : List Char) (s : Split) : Split := ⟨s.taken, s.rest ++ '\n' :: more⟩

theorem Split.sees_goingOn (hp : p '\n' = false) : (s.goingOn more).sees p = s.sees p :=
  head?_any_newline hp s.rest

theorem Split.step_goingOn (h : s.sees p = true) :
    (s.goingOn more).step = s.step.goingOn more := by
  obtain ⟨taken, rest⟩ := s
  cases rest with
  | nil => simp [Split.sees] at h
  | cons c rest => rfl

theorem Split.stepIf_goingOn (hp : p '\n' = false) :
    (s.goingOn more).stepIf p = (s.stepIf p).goingOn more := by
  unfold Split.stepIf
  rw [Split.sees_goingOn hp]
  by_cases h : s.sees p = true
  · simp only [h, if_true]
    exact Split.step_goingOn h
  · simp only [h, Bool.false_eq_true, if_false]

theorem Split.run_goingOn (hp : p '\n' = false) :
    (s.goingOn more).run p = (s.run p).goingOn more := by
  simp only [Split.run, Split.goingOn, takeWhile_newline hp, dropWhile_newline hp]

end Split

def Scanned.goingOn (more : List Char) (s : Scanned) : Scanned := ⟨s.toSplit.goingOn more, s.outcome⟩

theorem mantissa_goingOn (first : Char) (rest : List Char) :
    mantissa first (rest ++ '\n' :: more) =
      ((mantissa first rest).1.goingOn more, (mantissa first rest).2) := by
  have hrun : (Split.mk [first] (rest ++ '\n' :: more)).run isNumeral =
      ((Split.mk [first] rest).run isNumeral).goingOn more :=
    Split.run_goingOn (s := ⟨[first], rest⟩) (by decide)
  unfold mantissa
  simp only [hrun]
  generalize (Split.mk [first] rest).run isNumeral = digits
  obtain ⟨taken, left⟩ := digits
  by_cases hf : (first == '.') = true
  · simp only [hf, if_true]
  simp only [hf, Bool.false_eq_true, if_false]
  -- The point belongs to the number only if a digit stands behind it on the same line.
  rcases left with _ | ⟨c, _ | ⟨d, left⟩⟩
  · rfl
  · by_cases hc : c = '.'
    · subst hc
      rfl
    · simp [Split.goingOn, hc]
  · by_cases hc : c = '.'
    · subst hc
      by_cases hd : d.isDigit = true
      · simp only [Split.goingOn, List.cons_append, hd, if_true, Split.step]
        exact congrArg (·, true) (Split.run_goingOn (s := ⟨taken ++ ['.'], d :: left⟩) (by decide))
      · simp [Split.goingOn, hd]
    · simp [Split.goingOn, hc]

theorem numberEnd_goingOn (kind : TokenKind) (s : Split) :
    numberEnd kind (s.goingOn more) = (numberEnd kind s).goingOn more := by
  unfold numberEnd
  rw [Split.sees_goingOn (by decide)]
  by_cases hw : s.sees isWordPart = true
  · simp only [hw, if_true, Split.run_goingOn (show isWordPart '\n' = false by decide)]
    rfl
  · simp only [hw, Bool.false_eq_true, if_false]
    by_cases hu : hasStrayUnderscore s.taken = true
    · simp only [Split.goingOn, hu, if_true]
      rfl
    · simp only [Split.goingOn, hu, Bool.false_eq_true, if_false]
      rfl

theorem numberSuffix_goingOn (isFloat : Bool) (s : Split) :
    numberSuffix isFloat (s.goingOn more) = (numberSuffix isFloat s).goingOn more := by
  unfold numberSuffix
  rw [Split.sees_goingOn (by decide), Split.sees_goingOn (by decide)]
  by_cases hl : s.sees isLongMark = true
  · simp only [hl, if_true, Split.step_goingOn hl]
    cases isFloat with
    | true => rfl
    | false => exact numberEnd_goingOn .intLit s.step
  · simp only [hl, Bool.false_eq_true, if_false]
    by_cases hm : s.sees (fun c => isFloatMark c || isDoubleMark c) = true
    · simp only [hm, if_true, Split.step_goingOn hm]
      exact numberEnd_goingOn .floatLit s.step
    · simp only [hm, Bool.false_eq_true, if_false]
      exact numberEnd_goingOn _ s

theorem scanNumber_goingOn (first : Char) (rest : List Char) :
    scanNumber first (rest ++ '\n' :: more) = (scanNumber first rest).goingOn more := by
  unfold scanNumber
  simp only [mantissa_goingOn, Split.sees_goingOn (show isExponentMark '\n' = false by decide)]
  by_cases he : (mantissa first rest).1.sees isExponentMark = true
  · simp only [he, if_true, Split.step_goingOn he, Split.stepIf_goingOn (show isSign '\n' = false by decide),
      Split.sees_goingOn (show Char.isDigit '\n' = false by decide)]
    by_cases hd : ((mantissa first rest).1.step.stepIf isSign).sees Char.isDigit = true
    · simp only [hd, if_true, Split.run_goingOn (show isNumeral '\n' = false by decide)]
      exact numberSuffix_goingOn true _
    · simp only [hd, Bool.false_eq_true, if_false]
      rfl
  · simp only [he, Bool.false_eq_true, if_false]
    exact numberSuffix_goingOn _ _

theorem QuotedBody.scan_close {quote : Char} (hq : quote ≠ '\n') (rest : List Char) :
    scan quote (quote :: rest) = ⟨[], .closed, rest⟩ := by
  rw [scan.eq_def]
  split
  · next h => cases h
  · next h => exact absurd (List.cons.inj h).1 hq
  · next h =>
    cases h
    simp

theorem QuotedBody.scan_plain {quote c : Char} (hn : c ≠ '\n') (hq : c ≠ quote) (hb : c ≠ '\\')
    (rest : List Char) : scan quote (c :: rest) = (scan quote rest).cons (.plain c) := by
  rw [scan.eq_def]
  split
  · next h => cases h
  · next h => exact absurd (List.cons.inj h).1 hn
  · next h =>
    cases h
    simp [hq, hb]

theorem QuotedBody.scan_escaped {quote e : Char} (hq : quote ≠ '\\') (he : e ≠ '\n')
    (rest : List Char) : scan quote ('\\' :: e :: rest) = (scan quote rest).cons (.escaped e) := by
  have hq' : ('\\' == quote) = false := by simpa using hq.symm
  simp [scan, hq']

theorem QuotedBody.scan_goingOn {quote : Char} (hq : quote ≠ '\n') (cs : List Char) :
    scan quote (cs ++ '\n' :: more) =
      ⟨(scan quote cs).pieces, (scan quote cs).ending, (scan quote cs).rest ++ '\n' :: more⟩ := by
  fun_induction QuotedBody.scan quote cs with
  | case1 => simp [scan]
  | case2 rest => simp [scan]
  | case3 c rest hne hc =>
    obtain rfl : c = quote := by simpa using hc
    exact scan_close hq _
  | case4 c hne hc hb => simp_all [scan]
  | case5 c rest hne hc hb => simp_all [scan]
  | case6 c hne hc hb e rest hne' ih =>
    obtain rfl : c = '\\' := by simpa using hb
    have hslash : quote ≠ '\\' := fun h => hc (by simp [h])
    rw [List.cons_append, List.cons_append, scan_escaped hslash hne', ih]
    rfl
  | case7 c rest hne hc hb ih =>
    rw [List.cons_append, scan_plain hne (by simpa using hc) (by simpa using hb), ih]
    rfl

theorem scanString_goingOn (rest : List Char) :
    scanString (rest ++ '\n' :: more) = (scanString rest).goingOn more := by
  unfold scanString
  rw [QuotedBody.scan_goingOn (by decide)]
  generalize QuotedBody.scan '"' rest = body
  obtain ⟨pieces, ending, left⟩ := body
  cases ending with
  | closed =>
    cases he : unknownEscape? 1 pieces with
    | none => simp only [he]; rfl
    | some fault => simp only [he]; rfl
  | cut => rfl
  | cutAfterBackslash => rfl

theorem scanCharacter_goingOn (rest : List Char) :
    scanCharacter (rest ++ '\n' :: more) = (scanCharacter rest).goingOn more := by
  unfold scanCharacter
  rw [QuotedBody.scan_goingOn (by decide)]
  generalize QuotedBody.scan '\'' rest = body
  obtain ⟨pieces, ending, left⟩ := body
  cases ending with
  | closed =>
    cases he : unknownEscape? 1 pieces with
    | some fault => simp only [he]; rfl
    | none => rcases pieces with _ | ⟨p, _ | ⟨q, pieces⟩⟩ <;> simp only [he] <;> rfl
  | cut => rfl
  | cutAfterBackslash => rfl

theorem scanWord_goingOn (first : Char) (rest : List Char) :
    scanWord first (rest ++ '\n' :: more) = (scanWord first rest).goingOn more := by
  have hrun : (Split.mk [first] (rest ++ '\n' :: more)).run isIdentPart =
      ((Split.mk [first] rest).run isIdentPart).goingOn more :=
    Split.run_goingOn (s := ⟨[first], rest⟩) (by decide)
  unfold scanWord
  simp only [hrun]
  rfl

theorem scanMark_goingOn (first : Char) (rest : List Char) :
    scanMark first (rest ++ '\n' :: more) = (scanMark first rest).goingOn more := by
  unfold scanMark
  cases Punctuation.ofChar? first <;> rfl

/-- No scanner looks behind a new line. -/
theorem scan_goingOn (first : Char) (rest : List Char) :
    scan first (rest ++ '\n' :: more) = (scan first rest).goingOn more := by
  unfold scan
  rw [head?_any_newline (by decide), scanWord_goingOn, scanNumber_goingOn, scanString_goingOn,
    scanCharacter_goingOn, scanMark_goingOn]
  repeat' split
  all_goals rfl

/-! ### Trivia in front of a new line -/

theorem blockBody?_append_tail {cs body rest : List Char} (h : blockBody? cs = some (body, rest))
    (tail : List Char) : blockBody? (cs ++ tail) = some (body, rest ++ tail) := by
  fun_induction blockBody? cs generalizing body rest with
  | case1 r =>
    cases h
    rfl
  | case2 c r hne ih =>
    obtain ⟨⟨b, t⟩, hb, he⟩ := Option.map_eq_some_iff.mp h
    cases he
    -- A comment that is closed later has another character behind this one already.
    have hr : r ≠ [] := by
      rintro rfl
      cases hb
    obtain ⟨d, r, rfl⟩ := List.exists_cons_of_ne_nil hr
    have hopen : ∀ rest, c = '*' → d :: (r ++ tail) = '/' :: rest → False := by
      intro rest hc hd
      obtain ⟨rfl, -⟩ := List.cons.inj hd
      exact hne r hc rfl
    have hmore : blockBody? (d :: (r ++ tail)) = some (b, t ++ tail) := ih hb
    rw [List.cons_append, List.cons_append, blockBody?.eq_2 _ _ hopen, hmore]
    rfl
  | case3 => cases h

/-- The trivia of a text that goes on with a new line. The new line is skipped as well if nothing
else is left. -/
def Lead.goingOn (more : List Char) (l : Lead) : Lead :=
  if l.rest = [] then (lead ('\n' :: more)).after l.skipped
  else ⟨l.skipped, l.rest ++ '\n' :: more, l.isOpen⟩

theorem Lead.goingOn_after (l : Lead) (cs : List Char) :
    (l.after cs).goingOn more = (l.goingOn more).after cs := by
  unfold Lead.goingOn
  by_cases h : l.rest = []
  · simp [Lead.after, h]
  · simp [Lead.after, h]

theorem lead_line (rest : List Char) :
    lead ('/' :: '/' :: rest) =
      (lead (rest.dropWhile (· != '\n'))).after ('/' :: '/' :: rest.takeWhile (· != '\n')) := by
  rw [lead]

theorem lead_block {rest body rest' : List Char} (h : blockBody? rest = some (body, rest')) :
    lead ('/' :: '*' :: rest) = (lead rest').after ('/' :: '*' :: body) := by
  rw [lead]
  split
  · next hb =>
    cases hb.symm.trans h
    rfl
  · next hb => cases hb.symm.trans h

theorem lead_goingOn {cs : List Char} (h : (lead cs).isOpen = false) :
    lead (cs ++ '\n' :: more) = (lead cs).goingOn more := by
  fun_induction lead cs with
  | case1 rest ih =>
    rw [List.cons_append, List.cons_append, lead_line, takeWhile_newline (p := (· != '\n')) rfl,
      dropWhile_newline (p := (· != '\n')) rfl, ih h, Lead.goingOn_after]
  | case2 rest body rest' hb ih =>
    rw [List.cons_append, List.cons_append, lead_block (blockBody?_append_tail hb _), ih h,
      Lead.goingOn_after]
  | case3 rest hb => cases h
  | case4 c rest _ _ hc ih =>
    have hslash : c ≠ '/' := by
      rintro rfl
      revert hc
      decide
    rw [List.cons_append, lead_cons hslash, if_pos hc, ih h, Lead.goingOn_after]
  | case5 c rest hline hblock hc =>
    -- A slash at the end of the line does not meet what opens a comment.
    have hnext : ∀ d r, d ≠ '\n' → rest ++ '\n' :: more = d :: r → ∃ r, rest = d :: r := by
      intro d r hd he
      cases rest with
      | nil => exact absurd (List.cons.inj he).1.symm hd
      | cons e rest => exact ⟨rest, by rw [(List.cons.inj he).1]⟩
    have hline' : ∀ r, c = '/' → rest ++ '\n' :: more = '/' :: r → False := by
      intro r hslash he
      obtain ⟨r, hr⟩ := hnext _ r (by decide) he
      exact hline r hslash hr
    have hblock' : ∀ r, c = '/' → rest ++ '\n' :: more = '*' :: r → False := by
      intro r hslash he
      obtain ⟨r, hr⟩ := hnext _ r (by decide) he
      exact hblock r hslash hr
    rw [List.cons_append, lead.eq_3 _ _ hline' hblock', if_neg hc]
    simp [Lead.goingOn]
  | case6 => rfl

/-! ### Readings in front of a new line -/

theorem lead_open {cs : List Char} (h : (lead cs).isOpen = true) : (lead cs).rest ≠ [] := by
  fun_induction lead cs with
  | case1 rest ih => exact ih h
  | case2 rest body rest' hb ih => exact ih h
  | case3 rest hb => simp
  | case4 c rest _ _ hc ih => exact ih h
  | case5 c rest _ _ hc => simp
  | case6 => cases h

theorem lead_newline (more : List Char) : lead ('\n' :: more) = (lead more).after ['\n'] := by
  rw [lead_cons (by decide), if_pos (by decide)]

def shiftReading (offset : Nat) : Except Diagnostic Token → Except Diagnostic Token
  | .ok t => .ok (t.shift offset)
  | .error d => .error (d.shift offset)

theorem Scanned.placed_add (s : Scanned) (start offset : Nat) :
    s.placed (start + offset) = shiftReading offset (s.placed start) := by
  have hswap (n : Nat) : start + offset + n = start + n + offset := Nat.add_right_comm ..
  unfold placed
  cases s.outcome with
  | ok kind => simp only [shiftReading, Token.shift, Span.shift, hswap]
  | error fault =>
    cases fault <;>
      simp only [shiftReading, Diagnostic.shift, Span.shift, LexicalFault.toDiagnostic,
        LexicalFault.span, hswap, Nat.add_right_comm _ offset]

namespace Cursor

/-- The same place in a text that goes on with a new line. -/
def goingOn (more : List Char) (c : Cursor) : Cursor := ⟨c.offset, c.rest ++ '\n' :: more⟩

variable {c c' : Cursor} {r : Except Diagnostic Token}

theorem next?_goingOn (ho : (lead c.rest).isOpen = false) (h : c.next? = some (r, c')) :
    (c.goingOn more).next? = some (r, c'.goingOn more) := by
  unfold next? at h ⊢
  simp only [goingOn, lead_goingOn ho]
  cases hrest : (lead c.rest).rest with
  | nil => simp [hrest] at h
  | cons first rest =>
    simp only [hrest, ho, Bool.false_eq_true, if_false, Option.some.injEq] at h
    cases h
    simp only [Lead.goingOn, hrest, ho, List.cons_append, reduceCtorEq, Bool.false_eq_true,
      if_false, scan_goingOn]
    rfl

theorem next?_goingOn_end (h : c.next? = none) :
    (c.goingOn more).next? = (Cursor.mk (c.limit + 1) more).next? := by
  have hrest : (lead c.rest).rest = [] := by
    unfold next? at h
    dsimp only at h
    split at h
    · next he => exact he
    · cases h
  have hskip : (lead c.rest).skipped = c.rest := by simpa [hrest] using lead_append c.rest
  have ho : (lead c.rest).isOpen = false :=
    Bool.eq_false_iff.mpr (fun ho => lead_open ho hrest)
  have hsize : ('\n' : Char).utf8Size = 1 := rfl
  unfold next?
  simp only [goingOn, lead_goingOn ho, Lead.goingOn, hrest, if_true, hskip, lead_newline, Lead.after,
    limit, width_append, width_cons, width_nil, hsize, Nat.add_assoc, Nat.add_zero]

theorem next?_add (o offset : Nat) (cs : List Char) :
    (Cursor.mk (o + offset) cs).next? =
      (Cursor.mk o cs).next?.map (fun p => (shiftReading offset p.1, ⟨p.2.offset + offset, p.2.rest⟩)) := by
  unfold next?
  cases hrest : (lead cs).rest with
  | nil => simp [hrest]
  | cons first rest =>
    simp only [hrest, Option.map_some, Option.some.injEq]
    generalize (if (lead cs).isOpen then _ else scan first rest) = s
    have hstart : o + offset + width (lead cs).skipped = o + width (lead cs).skipped + offset :=
      Nat.add_right_comm ..
    rw [hstart, Scanned.placed_add, Nat.add_right_comm _ offset]

theorem results_add (o offset : Nat) (cs : List Char) :
    (Cursor.mk (o + offset) cs).results = (Cursor.mk o cs).results.map (shiftReading offset) := by
  generalize hc : Cursor.mk o cs = c
  fun_induction results c generalizing o cs with
  | case1 c r c' hn ih =>
    subst hc
    have hn' := next?_add o offset cs
    rw [hn, Option.map_some] at hn'
    rw [results_of_some hn', ih c'.offset c'.rest rfl, List.map_cons]
  | case2 c hn =>
    subst hc
    have hn' := next?_add o offset cs
    rw [hn, Option.map_none] at hn'
    rw [results_of_none hn', List.map_nil]

theorem results_open (h : (lead c.rest).isOpen = true) :
    ∃ d, .error d ∈ c.results ∧ d.message = "Unterminated block comment" := by
  obtain ⟨first, rest, hrest⟩ := List.exists_cons_of_ne_nil (lead_open h)
  let d := LexicalFault.openComment.toDiagnostic (c.offset + width (lead c.rest).skipped)
    (first :: rest)
  have hn : ∃ c', c.next? = some (.error d, c') := by
    unfold next?
    simp only [hrest, h, if_true]
    exact ⟨_, rfl⟩
  obtain ⟨c', hn⟩ := hn
  rw [results_of_some hn]
  exact ⟨d, List.mem_cons_self, rfl⟩

theorem results_goingOn (h : ∀ d, .error d ∈ c.results → d.message ≠ "Unterminated block comment") :
    (c.goingOn more).results = c.results ++ (Cursor.mk (c.limit + 1) more).results := by
  fun_induction results c with
  | case1 c r c' hn ih =>
    have ho : (lead c.rest).isOpen = false := by
      refine Bool.eq_false_iff.mpr (fun ho => ?_)
      obtain ⟨d, hd, hm⟩ := results_open ho
      rw [results_of_some hn] at hd
      exact h d hd hm
    have hmore := ih (fun d hd => h d (List.mem_cons_of_mem _ hd))
    rw [results_of_some (next?_goingOn ho hn), hmore, next?_limit hn, List.cons_append]
  | case2 c hn => rw [results_congr (next?_goingOn_end hn), List.nil_append]

end Cursor

/-- No lexeme and no fault reaches past its line: two texts with a new line between them are read
one after the other, unless the first one ends in an open block comment. -/
theorem lexResults_line_break (s t : String)
    (h : ∀ d, .error d ∈ lexResults s → d.message ≠ "Unterminated block comment") :
    lexResults (s ++ "\n" ++ t) =
      lexResults s ++ (lexResults t).map (shiftReading (s.utf8ByteSize + 1)) := by
  have hjoin : Cursor.ofText (s ++ "\n" ++ t) = (Cursor.ofText s).goingOn t.toList := by
    simp [Cursor.ofText, Cursor.goingOn]
  have hadd := Cursor.results_add 0 (s.utf8ByteSize + 1) t.toList
  rw [Nat.zero_add] at hadd
  unfold lexResults
  rw [hjoin, Cursor.results_goingOn h, Cursor.limit_ofText, hadd]
  rfl

/-- An open string whose last character is a backslash. -/
theorem lexResults_line_break_open_string :
    (∀ d, .error d ∈ lexResults "\"a\\" → d.message ≠ "Unterminated block comment") ∧
      lexResults ("\"a\\" ++ "\n" ++ "b") =
        lexResults "\"a\\" ++ (lexResults "b").map (shiftReading 4) := by
  have hscan : scan '"' ['a', '\\'] = (Split.mk ['"', 'a', '\\'] []).reject .openString := by rfl
  have hnext : (Cursor.ofText "\"a\\").next? =
      some (.error (LexicalFault.openString.toDiagnostic 0 ['"', 'a', '\\']), ⟨3, []⟩) := by
    rw [show Cursor.ofText "\"a\\" = ⟨0, ['"', 'a', '\\']⟩ from rfl,
      Cursor.next?_solid (by decide) (by decide), hscan]
    rfl
  have hresults : lexResults "\"a\\" =
      [.error (LexicalFault.openString.toDiagnostic 0 ['"', 'a', '\\'])] := by
    rw [lexResults, Cursor.results_of_some hnext, Cursor.results_of_none (by simp [Cursor.next?, lead])]
  have h : ∀ d, .error d ∈ lexResults "\"a\\" → d.message ≠ "Unterminated block comment" := by
    intro d hd
    rw [hresults, List.mem_singleton, Except.error.injEq] at hd
    subst hd
    decide
  exact ⟨h, lexResults_line_break "\"a\\" "b" h⟩

end DeclFront
