import DeclFront.Proofs.Lexemes

/-! What stands between the tokens of a text does not matter. Tokens that are written down again
with other separators between them are read as the same tokens. -/

namespace DeclFront

variable {c : Char} {cs rest : List Char} {k : TokenKind}

/-! ### Separators -/

/-- Blanks, comments with the new line that ends them, and closed block comments. -/
inductive Separator : List Char → Prop
  | none : Separator []
  | blank {c : Char} {cs : List Char} (hc : isBlank c = true) (h : Separator cs) :
      Separator (c :: cs)
  | line {body cs : List Char} (hb : '\n' ∉ body) (h : Separator cs) :
      Separator ('/' :: '/' :: (body ++ '\n' :: cs))
  | block {body cs : List Char} (hb : ∀ xs ys, body ≠ xs ++ '*' :: '/' :: ys) (h : Separator cs) :
      Separator ('/' :: '*' :: (body ++ '*' :: '/' :: cs))

theorem blockBody?_closed {body : List Char} (h : ∀ xs ys, body ≠ xs ++ '*' :: '/' :: ys)
    (rest : List Char) :
    blockBody? (body ++ '*' :: '/' :: rest) = some (body ++ ['*', '/'], rest) := by
  induction body with
  | nil => rfl
  | cons c body ih =>
    have hbody : ∀ xs ys, body ≠ xs ++ '*' :: '/' :: ys := by
      rintro xs ys rfl
      exact h (c :: xs) ys rfl
    -- The slash of the closing mark is never met by a star of the body: another star is between.
    have hopen : ∀ more, c = '*' → body ++ '*' :: '/' :: rest = '/' :: more → False := by
      rintro more rfl hmore
      cases body with
      | nil => cases hmore
      | cons d body =>
        obtain ⟨rfl, -⟩ := List.cons.inj hmore
        exact h [] body rfl
    rw [List.cons_append, blockBody?.eq_2 _ _ hopen, ih hbody]
    rfl

theorem lead_after_after (l : Lead) (xs ys : List Char) :
    (l.after ys).after xs = l.after (xs ++ ys) := by
  simp [Lead.after]

theorem lead_separator (h : Separator cs) (rest : List Char) :
    lead (cs ++ rest) = (lead rest).after cs := by
  induction h with
  | none => rfl
  | @blank c cs hc _ ih =>
    have hslash : c ≠ '/' := by
      rintro rfl
      revert hc
      decide
    rw [List.cons_append, lead_cons hslash, if_pos hc, ih, lead_after_after]
    rfl
  | @line body cs hb _ ih =>
    have hline : ∀ d ∈ body, (d != '\n') = true := by
      intro d hd
      rw [bne_iff_ne]
      rintro rfl
      exact hb hd
    have htake : (body ++ '\n' :: (cs ++ rest)).takeWhile (· != '\n') = body := by
      simp [List.takeWhile_append_of_pos hline]
    have hdrop : (body ++ '\n' :: (cs ++ rest)).dropWhile (· != '\n') = '\n' :: (cs ++ rest) := by
      simp [List.dropWhile_append_of_pos hline]
    simp only [List.cons_append, List.append_assoc]
    rw [lead_line, htake, hdrop, lead_newline, ih, lead_after_after, lead_after_after]
    simp
  | @block body cs hb _ ih =>
    simp only [List.cons_append, List.append_assoc]
    rw [lead_block (blockBody?_closed hb _), ih, lead_after_after]
    simp

theorem isBlank_apart (hc : isBlank c = true) : (isIdentPart c || c == '.') = false := by
  rw [← Bool.not_eq_true, Bool.or_eq_true, beq_iff_eq]
  rintro (hi | rfl)
  · have hword : isIdentStart c = true ∨ c.isDigit = true := by
      simp only [isIdentPart, isIdentStart, Char.isAlphanum, Bool.or_eq_true, beq_iff_eq] at hi ⊢
      grind
    rcases hword with hs | hd
    · simp [(isIdentStart_solid hs).2.1] at hc
    · simp [(isDigit_solid hd).2.1] at hc
  · revert hc
    decide

theorem Separator.apart (h : Separator cs) (hne : cs ≠ []) (rest : List Char) :
    apart (cs ++ rest) = true := by
  cases h with
  | none => exact absurd rfl hne
  | blank hc _ => simp [DeclFront.apart, isBlank_apart hc]
  | line _ _ => rfl
  | block _ _ => rfl

/-! ### Tokens and separators in a text -/

theorem Separator.spells (h : Separator cs) : Spells cs rest (· = []) := by
  intro o
  refine ⟨[], o + width cs, Cursor.results_congr ?_, rfl⟩
  simp only [Cursor.next?, lead_separator h, Lead.after, width_append, Nat.add_assoc]

theorem Lexeme.ne_nil (h : Lexeme k cs) : cs ≠ [] := by
  cases h with
  | number hn _ =>
    cases hn with
    | parts hd _ _ => simp [hd.ne_nil]
  | _ => simp

theorem Lexeme.spells (h : Lexeme k cs) (hr : apart rest = true) :
    Spells cs rest (fun us => ∃ t, us = [t] ∧ t.kind = k ∧ t.text = String.ofList cs) := by
  obtain ⟨first, cs, rfl⟩ := List.exists_cons_of_ne_nil h.ne_nil
  intro o
  obtain ⟨hslash, hblank⟩ := h.solid
  have hn := Cursor.next?_solid hslash hblank o (cs ++ rest)
  rw [scan_complete h hr] at hn
  exact ⟨_, _, Cursor.reads_token hn, _, rfl, rfl, rfl⟩

/-- A text that is one lexeme has one token, which covers all of it. -/
theorem Lexeme.lex_eq {text : String} (h : Lexeme k text.toList) :
    lex text = .ok [⟨k, text, ⟨0, text.utf8ByteSize⟩⟩, endToken text] := by
  obtain ⟨first, cs, htext⟩ := List.exists_cons_of_ne_nil h.ne_nil
  rw [htext] at h
  obtain ⟨hslash, hblank⟩ := h.solid
  have hscan := scan_complete h (show apart [] = true from rfl)
  rw [List.append_nil] at hscan
  have hn := Cursor.next?_solid hslash hblank 0 cs
  rw [hscan] at hn
  have hend (o : Nat) : (Cursor.mk o []).results = [] :=
    Cursor.results_of_none (by simp [Cursor.next?, lead])
  have hresults : lexResults text = [.ok ⟨k, text, ⟨0, text.utf8ByteSize⟩⟩] := by
    have hone := Cursor.results_of_some hn
    rw [lexResults, Cursor.ofText, htext, hone]
    simp only [Split.accept, hend, Scanned.placed, ← htext, String.ofList_toList, Nat.zero_add,
      utf8ByteSize_eq_width]
  exact lex_eq_ok_iff.mpr ⟨[⟨k, text, ⟨0, text.utf8ByteSize⟩⟩], hresults, rfl⟩

/-- What is left of a token that has no place in a text. -/
def Token.unplaced (t : Token) : TokenKind × String := (t.kind, t.text)

/-- Tokens, each with the separator behind it, as one text. -/
def weave : List (Token × String) → String
  | [] => ""
  | (t, gap) :: more => t.text ++ gap ++ weave more

theorem weave_spells {spaced : List (Token × String)}
    (hlex : ∀ p ∈ spaced, Lexeme p.1.kind p.1.text.toList)
    (hgaps : ∀ p ∈ spaced, Separator p.2.toList) (hne : ∀ p ∈ spaced.dropLast, p.2 ≠ "") :
    Spells (weave spaced).toList []
      (fun us => us.map Token.unplaced = (spaced.map Prod.fst).map Token.unplaced) := by
  induction spaced with
  | nil =>
    intro o
    exact ⟨[], o, by simp [Cursor.Reads, weave], rfl⟩
  | cons p more ih =>
    obtain ⟨t, gap⟩ := p
    obtain ⟨hword, hwords⟩ := List.forall_mem_cons.mp hlex
    obtain ⟨hgap, hgaps⟩ := List.forall_mem_cons.mp hgaps
    have hmore := ih hwords hgaps (fun q hq => hne q (by
      cases more with
      | nil => simp at hq
      | cons q' more => exact List.mem_cons_of_mem _ hq))
    -- Only the last separator may be empty, and then nothing follows it.
    have hapart : apart (gap.toList ++ ((weave more).toList ++ [])) = true := by
      by_cases hempty : gap = ""
      · have hlast : more = [] := by
          cases more with
          | nil => rfl
          | cons q more => exact absurd hempty (hne (t, gap) (by simp))
        subst hempty hlast
        rfl
      · exact hgap.apart (by simpa using hempty) _
    have htext : (weave ((t, gap) :: more)).toList =
        t.text.toList ++ (gap.toList ++ (weave more).toList) := by
      simp [weave]
    rw [htext]
    refine ((hword.spells (by simpa using hapart)).append (hgap.spells.append hmore)).imp ?_
    rintro _ ⟨_, _, rfl, ⟨u, rfl, hkind, htext⟩, _, us, rfl, rfl, hus⟩
    simpa [Token.unplaced, hkind, htext] using hus

theorem lex_lexemes {source : String} {ts : List Token}
    (h : lex source = .ok (ts ++ [endToken source])) :
    ∀ t ∈ ts, t.isEnd = false ∧ Lexeme t.kind t.text.toList := by
  intro t ht
  obtain ⟨us, hus, heq⟩ := lex_eq_ok_iff.mp h
  obtain rfl := List.append_cancel_right heq
  have hend : t.isEnd = false := results_isEnd hus ht
  rcases lex_found h (List.mem_append_left _ ht) with rfl | ⟨sc, hfound, hkind, htext⟩
  · cases hend
  · rw [htext, String.toList_ofList]
    cases hfound with
    | lexeme first rest => exact ⟨hend, scan_sound hkind⟩
    | openComment _ => cases hkind

theorem lex_lexeme {source : String} {tokens : List Token} {t : Token}
    (h : lex source = .ok tokens) (ht : t ∈ tokens) (hk : t.kind ≠ .eof) :
    Lexeme t.kind t.text.toList := by
  obtain ⟨ts, -, rfl⟩ := lex_eq_ok_iff.mp h
  rcases List.mem_append.mp ht with hmem | hend
  · exact (lex_lexemes h t hmem).2
  · obtain rfl := List.mem_singleton.mp hend
    exact absurd rfl hk

/-- The tokens of a text, written down again with other separators between them, are read as the
same tokens, and there is nothing else before the end mark. Only in front of the first token and
behind the last one may the separator be empty. -/
theorem lex_respaced {source front : String} {spaced : List (Token × String)}
    (h : lex source = .ok (spaced.map Prod.fst ++ [endToken source]))
    (hfront : Separator front.toList) (hgaps : ∀ p ∈ spaced, Separator p.2.toList)
    (hne : ∀ p ∈ spaced.dropLast, p.2 ≠ "") :
    ∃ us, lex (front ++ weave spaced) = .ok (us ++ [endToken (front ++ weave spaced)]) ∧
      us.map Token.unplaced = (spaced.map Prod.fst).map Token.unplaced ∧
      ∀ u ∈ us, u.isEnd = false := by
  have hlex : ∀ p ∈ spaced, Lexeme p.1.kind p.1.text.toList :=
    fun p hp => (lex_lexemes h p.1 (List.mem_map_of_mem hp)).2
  obtain ⟨us, o, hreads, _, us, rfl, rfl, hus⟩ :=
    (hfront.spells.append (weave_spells hlex hgaps hne)) 0
  have hresults : lexResults (front ++ weave spaced) = us.map .ok := by
    have hall := Cursor.Reads.all (by simpa using hreads)
    simpa [lexResults, Cursor.ofText] using hall
  have hok := lex_eq_ok_iff.mpr ⟨us, hresults, rfl⟩
  exact ⟨us, hok, hus, fun u hu => (lex_lexemes hok u hu).1⟩

theorem lex_of_toOption {source : String} {tokens : List Token}
    (h : (lex source).toOption = some tokens) : lex source = .ok tokens := by
  cases hlex : lex source with
  | error ds =>
    rw [hlex] at h
    cases h
  | ok us =>
    rw [hlex] at h
    cases h
    rfl

/-- A number that starts with a point, and a star with comments on both sides. -/
theorem lex_respaced_around_star :
    let spaced : List (Token × String) := [(⟨.ident, "a", ⟨0, 1⟩⟩, "/***/"),
      (⟨.floatLit, ".5", ⟨1, 3⟩⟩, " "), (⟨.punct .star, "*", ⟨3, 4⟩⟩, "//*\n"),
      (⟨.intLit, "1", ⟨4, 5⟩⟩, "")]
    ∃ us, lex ("\t" ++ weave spaced) = .ok (us ++ [endToken ("\t" ++ weave spaced)]) ∧
      us.map Token.unplaced =
        [(.ident, "a"), (.floatLit, ".5"), (.punct .star, "*"), (.intLit, "1")] := by
  intro spaced
  have hlex : lex "a.5*1" = .ok (spaced.map Prod.fst ++ [endToken "a.5*1"]) :=
    lex_of_toOption (by decide +kernel)
  have hblock : Separator "/***/".toList := by
    refine @Separator.block ['*'] [] (fun xs ys h => ?_) .none
    have hlen := congrArg List.length h
    simp only [List.length_cons, List.length_nil, List.length_append] at hlen
    omega
  have hblank {c : Char} (hc : isBlank c = true) : Separator [c] := .blank hc .none
  have hgaps : ∀ p ∈ spaced, Separator p.2.toList := by
    simp only [spaced, List.forall_mem_cons, List.not_mem_nil, false_imp_iff, implies_true,
      and_true]
    exact ⟨hblock, hblank (by decide), @Separator.line ['*'] [] (by decide) .none, .none⟩
  have hfront : Separator "\t".toList := hblank (by decide)
  obtain ⟨us, hus, hsame, -⟩ := lex_respaced hlex hfront hgaps (by decide)
  exact ⟨us, hus, hsame⟩

end DeclFront
