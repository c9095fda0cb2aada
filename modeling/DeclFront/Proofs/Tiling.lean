import DeclFront.Proofs.Scanning

/-! The lexer goes over a text once, from left to right, and leaves nothing out: tokens and faults
stand one behind the other, and between tokens there is trivia. -/

namespace DeclFront

/-- What a text reads between the two offsets of a span, each at the boundary of a character. -/
def Span.Covers (s : String) (sp : Span) (part : String) : Prop :=
  ∃ before after, s = before ++ part ++ after ∧
    sp = ⟨before.utf8ByteSize, before.utf8ByteSize + part.utf8ByteSize⟩

namespace Cursor

variable {s : String} {c c' : Cursor} {r : Except Diagnostic Token}

def after : Nat → Cursor → Cursor
  | 0, c => c
  | n + 1, c => after n c.next.2

/-- The cursor stands between two characters of a text, with the right ones ahead of it. -/
def IsAt (s : String) (c : Cursor) : Prop :=
  ∃ before, s.toList = before ++ c.rest ∧ c.offset = width before

theorem isAt_ofText (s : String) : (ofText s).IsAt s := ⟨[], rfl, rfl⟩

theorem IsAt.limit_eq (h : c.IsAt s) : c.limit = s.utf8ByteSize := by
  obtain ⟨before, hs, ho⟩ := h
  rw [utf8ByteSize_eq_width, hs, width_append, limit, ho]

theorem IsAt.isValid (h : c.IsAt s) : (String.Pos.Raw.mk c.offset).IsValid s := by
  obtain ⟨before, hs, ho⟩ := h
  refine String.Pos.Raw.isValid_iff_exists_append.mpr
    ⟨String.ofList before, String.ofList c.rest, ?_, ?_⟩
  · rw [← String.toList_inj, hs]
    simp
  · ext
    show c.offset = (String.ofList before).utf8ByteSize
    rw [utf8ByteSize_eq_width, String.toList_ofList, ho]

theorem IsAt.next (h : c.IsAt s) : c.next.2.IsAt s := by
  cases hn : c.next? with
  | none =>
    rw [next_of_none hn]
    exact ⟨s.toList, by simp, by rw [h.limit_eq, utf8ByteSize_eq_width]⟩
  | some p =>
    obtain ⟨before, hs, ho⟩ := h
    obtain ⟨skipped, sc, -, hrest, -, -, hc'⟩ := next?_eq_some hn
    rw [next_of_some hn, hc']
    refine ⟨before ++ (skipped ++ sc.taken), ?_, ?_⟩
    · simp [hs, hrest, Split.whole]
    · simp [ho, Nat.add_assoc]

theorem IsAt.after (h : c.IsAt s) (n : Nat) : (c.after n).IsAt s := by
  induction n generalizing c with
  | zero => exact h
  | succ n ih => exact ih h.next

/-! ### Single readings -/

theorem next_after_of_none (h : c.next? = none) (n : Nat) :
    (c.after n).next.1 = .ok (.endAt c.limit) := by
  induction n generalizing c with
  | zero => exact congrArg Prod.fst (next_of_none h)
  | succ n ih =>
    have hend : (⟨c.limit, []⟩ : Cursor).next? = none := by simp [next?, lead]
    rw [after, next_of_none h, ih hend]
    rfl

/-- What a reading owes to the text: the span of a token holds its spelling, ends at the new cursor
and is separated from the old one by trivia; a fault lies between the two; and unless the text is at
its end for good, the cursor has moved. -/
def Accounts (s : String) (c : Cursor) : Except Diagnostic Token × Cursor → Prop
  | (.ok t, c') =>
    t.span.Covers s t.text ∧ t.span.stop = c'.offset ∧
      (∃ skipped ahead, c.rest = skipped ++ ahead ∧ Trivia skipped ahead ∧
        t.span.start = c.offset + width skipped) ∧
      if t.isEnd then t = endToken s ∧ ∀ n, (c.after n).next.1 = .ok (endToken s)
      else c.offset < c'.offset
  | (.error d, c') =>
    c.offset ≤ d.span.start ∧ d.span.start < d.span.stop ∧ d.span.stop ≤ c'.offset ∧
      c.offset < c'.offset

theorem IsAt.accounts (h : c.IsAt s) : c.Accounts s c.next := by
  have hlimit := h.limit_eq
  obtain ⟨before, hs, ho⟩ := h
  cases hn : c.next? with
  | none =>
    rw [next_of_none hn, hlimit]
    refine ⟨⟨s, "", by simp [Token.endAt], by simp [Token.endAt, Span.point]⟩, rfl, ?_, ?_⟩
    · refine ⟨c.rest, [], by simp, next?_eq_none hn, ?_⟩
      rw [← hlimit]
      rfl
    · rw [if_pos (by rfl)]
      exact ⟨rfl, fun n => by rw [next_after_of_none hn n, hlimit, endToken]⟩
  | some p =>
    obtain ⟨r, c'⟩ := p
    obtain ⟨skipped, sc, hfound, hrest, htrivia, hr, hc'⟩ := next?_eq_some hn
    have hpos := width_pos hfound.taken_ne_nil
    rw [next_of_some hn]
    cases r with
    | ok t =>
      obtain ⟨hkind, htext, hspan⟩ := Scanned.placed_eq_ok hr.symm
      subst hc'
      refine ⟨⟨String.ofList (before ++ skipped), String.ofList sc.rest, ?_, ?_⟩, by rw [hspan],
        ⟨skipped, _, hrest, htrivia, by rw [hspan]⟩, ?_⟩
      · rw [← String.toList_inj]
        simp [hs, hrest, htext, Split.whole]
      · simp [hspan, htext, utf8ByteSize_eq_width, ho]
      · rw [if_neg (by simpa [Token.isEnd] using hfound.kind_ne_eof hkind)]
        show c.offset < c.offset + width skipped + width sc.taken
        omega
    | error d =>
      obtain ⟨f, hf, hspan⟩ := Scanned.placed_eq_error hr.symm
      subst hc'
      obtain ⟨hstart, hlt, hstop⟩ := (hfound.fault_marks hf).within (c.offset + width skipped)
      simp only [Accounts, hspan]
      omega

theorem offset_le_next (h : c.IsAt s) : c.offset ≤ c.next.2.offset := by
  have hacc := h.accounts
  generalize c.next = p at hacc
  obtain ⟨r, c'⟩ := p
  cases r with
  | error d => exact Nat.le_of_lt hacc.2.2.2
  | ok t =>
    obtain ⟨⟨before, after, -, hsp⟩, hstop, ⟨skipped, ahead, -, -, hstart⟩, -⟩ := hacc
    simp only [hsp] at hstop hstart
    show c.offset ≤ c'.offset
    omega

/-! ### Runs -/

def proceeds : Except Diagnostic Token → Bool
  | .ok t => !t.isEnd
  | .error _ => true

theorem countP_readings_of_none (h : c.next? = none) (n : Nat) :
    (c.readings n).countP proceeds = 0 := by
  induction n generalizing c with
  | zero => rfl
  | succ n ih =>
    have hend : (⟨c.limit, []⟩ : Cursor).next? = none := by simp [next?, lead]
    rw [readings, next_of_none h,
      List.countP_cons_of_neg (by simp [proceeds, Token.isEnd, Token.endAt]), ih hend]

theorem countP_readings_le (c : Cursor) (n : Nat) :
    (c.readings n).countP proceeds ≤ c.rest.length := by
  induction n generalizing c with
  | zero => simp [readings]
  | succ n ih =>
    cases hn : c.next? with
    | none =>
      rw [countP_readings_of_none hn]
      exact Nat.zero_le _
    | some p =>
      obtain ⟨r, c'⟩ := p
      have hlt := next?_shorter hn
      have hle := ih c'
      simp only [readings, next_of_some hn, List.countP_cons]
      split <;> omega

end Cursor

/-- Tokens tile a text that starts at an offset: it is made of their spellings, where their spans
say, and of trivia between them. -/
inductive Tiles : Nat → List Char → List Token → Prop
  | done {o : Nat} {cs : List Char} (h : Trivia cs []) : Tiles o cs []
  | token {o : Nat} {skipped lexeme rest : List Char} {t : Token} {ts : List Token}
      (hskip : Trivia skipped (lexeme ++ rest)) (hne : lexeme ≠ [])
      (htext : t.text = String.ofList lexeme)
      (hspan : t.span = ⟨o + width skipped, o + width skipped + width lexeme⟩)
      (htiles : Tiles (o + width skipped + width lexeme) rest ts) :
      Tiles o (skipped ++ (lexeme ++ rest)) (t :: ts)

theorem results_tiles {c : Cursor} {ts : List Token} (h : c.results = ts.map .ok) :
    Tiles c.offset c.rest ts := by
  fun_induction Cursor.results c generalizing ts with
  | case1 c r c' hn ih =>
    cases ts with
    | nil => cases h
    | cons t ts =>
      obtain ⟨rfl, hmore⟩ := List.cons.inj h
      obtain ⟨skipped, sc, hfound, hrest, htrivia, hr, rfl⟩ := Cursor.next?_eq_some hn
      obtain ⟨-, htext, hspan⟩ := Scanned.placed_eq_ok hr.symm
      rw [hrest, Split.whole]
      exact .token htrivia hfound.taken_ne_nil htext hspan (ih hmore)
  | case2 c hn =>
    obtain rfl : ts = [] := by simpa using h.symm
    exact .done (Cursor.next?_eq_none hn)

/-- The order in which things stand in a text: one ends before the next one starts. -/
def Span.Before (a b : Span) : Prop := a.start < b.start ∧ a.stop ≤ b.start

theorem Tiles.ordered {o : Nat} {cs : List Char} {ts : List Token} (h : Tiles o cs ts) :
    (∀ t ∈ ts, o ≤ t.span.start ∧ t.span.start < t.span.stop ∧ t.span.stop ≤ o + width cs) ∧
      ts.Pairwise (fun a b => a.span.Before b.span) := by
  induction h with
  | done _ => exact ⟨by simp, .nil⟩
  | @token o skipped lexeme rest t ts _ hne _ hspan _ ih =>
    obtain ⟨hmem, hpair⟩ := ih
    have hpos := width_pos hne
    simp only [width_append]
    refine ⟨List.forall_mem_cons.mpr ⟨?_, fun u hu => ?_⟩, .cons (fun u hu => ?_) hpair⟩
    · simp only [hspan]
      omega
    · have := hmem u hu
      omega
    · have := hmem u hu
      simp only [Span.Before, hspan]
      omega

def Span.contains (b : Nat) (sp : Span) : Bool := sp.start ≤ b && b < sp.stop

/-- Every byte belongs to one token, or else to trivia. -/
theorem Tiles.covers {o : Nat} {cs : List Char} {ts : List Token} (h : Tiles o cs ts) {b : Nat}
    (hlo : o ≤ b) (hhi : b < o + width cs) :
    ts.countP (·.span.contains b) = 1 ∨
      ∃ before gap rest, cs = before ++ (gap ++ rest) ∧ Trivia gap rest ∧
        o + width before ≤ b ∧ b < o + width before + width gap := by
  induction h with
  | @done o cs h => exact .inr ⟨[], cs, [], by simp, h, by simpa using hlo, by simpa using hhi⟩
  | @token o skipped lexeme rest t ts hskip _ _ hspan htiles ih =>
    simp only [width_append] at hhi
    by_cases hgap : b < o + width skipped
    · exact .inr ⟨[], skipped, lexeme ++ rest, by simp, hskip, by simpa using hlo,
        by simpa using hgap⟩
    by_cases htok : b < o + width skipped + width lexeme
    · have hlater : ts.countP (·.span.contains b) = 0 := by
        refine List.countP_eq_zero.mpr (fun u hu => ?_)
        have hstart := (htiles.ordered.1 u hu).1
        simp only [Span.contains, Bool.and_eq_true, decide_eq_true_eq]
        omega
      have ht : t.span.contains b = true := by
        simp only [Span.contains, hspan, Bool.and_eq_true, decide_eq_true_eq]
        omega
      exact .inl (by simp [ht, hlater])
    · have ht : ¬ t.span.contains b = true := by
        simp only [Span.contains, hspan, Bool.and_eq_true, decide_eq_true_eq]
        omega
      simp only [List.countP_cons, ht, if_false, Nat.add_zero, Bool.false_eq_true]
      rcases ih (by omega) (by omega) with hone | ⟨before, gap, more, rfl, hgap', hb, hb'⟩
      · exact .inl hone
      · refine .inr ⟨skipped ++ (lexeme ++ before), gap, more, by simp, hgap', ?_, ?_⟩ <;>
          simp only [width_append] <;> omega

theorem results_faults (c : Cursor) :
    (∀ d ∈ c.results.filterMap Diagnostic.of?, c.offset ≤ d.span.start ∧
      d.span.start < d.span.stop) ∧
    (c.results.filterMap Diagnostic.of?).Pairwise (fun a b => a.span.Before b.span) := by
  fun_induction Cursor.results c with
  | case1 c r c' hn ih =>
    obtain ⟨hmem, hpair⟩ := ih
    obtain ⟨skipped, sc, hfound, -, -, hr, rfl⟩ := Cursor.next?_eq_some hn
    have hlater {d : Diagnostic} (hd : d ∈ (Cursor.results _).filterMap Diagnostic.of?) :
        c.offset + width skipped + width sc.taken ≤ d.span.start := (hmem d hd).1
    have hrest : ∀ d ∈ (Cursor.results _).filterMap Diagnostic.of?,
        c.offset ≤ d.span.start ∧ d.span.start < d.span.stop :=
      fun d hd => ⟨by have := hlater hd; omega, (hmem d hd).2⟩
    cases r with
    | ok t =>
      rw [List.filterMap_cons_none rfl]
      exact ⟨hrest, hpair⟩
    | error e =>
      obtain ⟨f, hf, hspan⟩ := Scanned.placed_eq_error hr.symm
      obtain ⟨hstart, hlt, hstop⟩ := (hfound.fault_marks hf).within (c.offset + width skipped)
      simp only [List.filterMap_cons, Diagnostic.of?]
      refine ⟨List.forall_mem_cons.mpr ⟨?_, hrest⟩, .cons (fun d hd => ?_) hpair⟩
      · rw [hspan]
        omega
      · have := hlater hd
        rw [Span.Before, hspan]
        omega
  | case2 c hn => exact ⟨by simp, .nil⟩

theorem results_isEnd {c : Cursor} {ts : List Token} {t : Token} (h : c.results = ts.map .ok)
    (ht : t ∈ ts) : t.isEnd = false := by
  obtain ⟨sc, hfound, hkind, -⟩ := Cursor.results_found (h ▸ List.mem_map_of_mem ht)
  simpa [Token.isEnd] using hfound.kind_ne_eof hkind

/-- What a text as a whole owes to its tokens, or to its faults if it has some. -/
def LexAccounts (s : String) : Except (List Diagnostic) (List Token) → Prop
  | .ok tokens =>
    (∃ ts, tokens = ts ++ [endToken s] ∧ (∀ t ∈ ts, t.isEnd = false) ∧ Tiles 0 s.toList ts) ∧
      tokens.Pairwise (fun a b => a.span.Before b.span) ∧
      ∀ b < s.utf8ByteSize, tokens.countP (·.span.contains b) = 1 ∨
        ∃ before gap rest, s.toList = before ++ (gap ++ rest) ∧ Trivia gap rest ∧
          width before ≤ b ∧ b < width before + width gap
  | .error ds =>
    (∀ d ∈ ds, d.span.start < d.span.stop) ∧ ds.Pairwise (fun a b => a.span.Before b.span)

theorem lexAccounts (s : String) : LexAccounts s (lex s) := by
  cases h : lex s with
  | error ds =>
    obtain ⟨hmem, hpair⟩ := results_faults (Cursor.ofText s)
    rw [lex_eq_error h]
    exact ⟨fun d hd => (hmem d hd).2, hpair⟩
  | ok tokens =>
    obtain ⟨ts, hts, rfl⟩ := lex_eq_ok_iff.mp h
    have htiles : Tiles 0 s.toList ts := results_tiles hts
    obtain ⟨hmem, hpair⟩ := htiles.ordered
    refine ⟨⟨ts, rfl, fun t ht => results_isEnd hts ht, htiles⟩, ?_, fun b hb => ?_⟩
    · refine List.pairwise_append.mpr ⟨hpair, by simp, fun t ht u hu => ?_⟩
      obtain rfl : u = endToken s := by simpa using hu
      have := hmem t ht
      simp only [Span.Before, endToken, Token.endAt, Span.point, utf8ByteSize_eq_width]
      omega
    · rw [utf8ByteSize_eq_width] at hb
      rcases htiles.covers (Nat.zero_le b) (by omega) with hone | hgap
      · have hend : (endToken s).span.contains b = false := by
          rw [show (endToken s).span = ⟨s.utf8ByteSize, s.utf8ByteSize⟩ from rfl]
          simp [Span.contains]
        exact .inl (by simp [List.countP_append, hone, hend])
      · exact .inr (by simpa using hgap)

/-- Whatever the text and however often the lexer is asked, the cursor stays between two characters
and never goes back; each reading accounts for the part of the text that the cursor passed; there are
no more readings before the end mark than characters; and the tokens of a whole text tile it, or
its faults stand one behind the other. -/
theorem lex_tiling (s : String) :
    (∀ n, let c := (Cursor.ofText s).after n
      c.IsAt s ∧ (String.Pos.Raw.mk c.offset).IsValid s ∧ c.offset ≤ s.utf8ByteSize ∧
        c.offset ≤ c.next.2.offset ∧ c.Accounts s c.next) ∧
    (∀ n, ((Cursor.ofText s).readings n).countP Cursor.proceeds ≤ s.length) ∧
    LexAccounts s (lex s) := by
  refine ⟨fun n => ?_, fun n => ?_, lexAccounts s⟩
  · have hat := (Cursor.isAt_ofText s).after n
    have hlimit := hat.limit_eq
    rw [Cursor.limit] at hlimit
    exact ⟨hat, hat.isValid, by omega, Cursor.offset_le_next hat, hat.accounts⟩
  · rw [← String.length_toList]
    exact Cursor.countP_readings_le (Cursor.ofText s) n

end DeclFront
