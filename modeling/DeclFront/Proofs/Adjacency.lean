import DeclFront.Proofs.Respacing

/-! Words right behind numbers. A number that a letter, a digit or an underscore follows at once is
one faulty lexeme, so no word starts where a number ends. The dollar sign is part of words too, but
a number does not look for it: behind a number, the words that start with it are taken as words. -/

namespace DeclFront

variable {s : String} {c : Cursor} {k : TokenKind} {first : Char} {rest : List Char} {t u : Token}
  {us : List Token}

/-! ### Characters -/

def TokenKind.isNumber (k : TokenKind) : Bool := k == .intLit || k == .floatLit

def TokenKind.isWord : TokenKind → Bool
  | ident | keyword _ => true
  | _ => false

theorem eq_dollar_of_isIdentStart {c : Char} (h : isIdentStart c = true)
    (hw : isWordPart c = false) : c = '$' := by
  simp only [isWordPart, Char.isAlphanum, Bool.or_eq_false_iff] at hw
  simpa [isIdentStart, hw.1.1, hw.2] using h

theorem wordKind_dollar (cs : List Char) : wordKind ('$' :: cs) = .ident := by
  have hall : ∀ word ∈ Keyword.all, word.spelling.toList.head? ≠ some '$' := by decide
  have hnone : Keyword.ofSpelling? (String.ofList ('$' :: cs)) = none := by
    refine List.find?_eq_none.mpr (fun word hword heq => hall word hword ?_)
    rw [beq_iff_eq.mp heq, String.toList_ofList]
    rfl
  rw [wordKind, hnone]

/-! ### The end of a number -/

theorem numberEnd_ends {kind : TokenKind} {sp : Split} (h : (numberEnd kind sp).outcome = .ok k) :
    (numberEnd kind sp).sees isWordPart = false := by
  by_cases hw : sp.sees isWordPart = true
  · simp [numberEnd, hw, Split.reject] at h
  · rw [(numberEnd_sound h).2.2]
    exact Bool.eq_false_iff.mpr hw

theorem numberSuffix_ends {isFloat : Bool} {sp : Split}
    (h : (numberSuffix isFloat sp).outcome = .ok k) :
    (numberSuffix isFloat sp).sees isWordPart = false := by
  unfold numberSuffix at h ⊢
  by_cases hl : sp.sees isLongMark = true
  · cases isFloat with
    | true => simp [hl, Split.reject] at h
    | false =>
      simp only [hl, if_true, Bool.false_eq_true, if_false] at h ⊢
      exact numberEnd_ends h
  simp only [hl, Bool.false_eq_true, if_false] at h ⊢
  by_cases hs : sp.sees (fun c => isFloatMark c || isDoubleMark c) = true
  · simp only [hs, if_true] at h ⊢
    exact numberEnd_ends h
  · simp only [hs, Bool.false_eq_true, if_false] at h ⊢
    exact numberEnd_ends h

theorem scanNumber_ends (h : (scanNumber first rest).outcome = .ok k) :
    (scanNumber first rest).sees isWordPart = false := by
  unfold scanNumber at h ⊢
  dsimp only at h ⊢
  split at h
  · next hexp =>
    split at h
    · next hdigit =>
      rw [if_pos hexp, if_pos hdigit]
      exact numberSuffix_ends h
    · cases h
  · next hexp =>
    rw [if_neg hexp]
    exact numberSuffix_ends h

/-- No letter, digit or underscore stands right behind a number. -/
theorem scan_number_ends (h : (scan first rest).outcome = .ok k) (hk : k.isNumber = true) :
    (scan first rest).sees isWordPart = false := by
  rcases scan_cases first rest with ⟨-, he⟩ | he | he | he | he <;> rw [he] at h ⊢
  · cases h
    rcases wordKind_cases ((Split.mk [first] rest).run isIdentPart).taken with hw | ⟨word, hw⟩ <;>
      simp [hw, TokenKind.isNumber] at hk
  · exact scanNumber_ends h
  · rcases scanString_outcome rest with ho | ho | ⟨f, ho, -⟩ <;> cases ho.symm.trans h
    cases hk
  · rcases scanCharacter_outcome rest with ho | ⟨f, -, ho⟩ | ⟨f, ho, -⟩ <;> cases ho.symm.trans h
    cases hk
  · unfold scanMark at h
    split at h <;> cases h
    cases hk

theorem scan_word_start (h : (scan first rest).outcome = .ok k) (hk : k.isWord = true) :
    isIdentStart first = true ∧ k = wordKind (first :: rest.takeWhile isIdentPart) := by
  rcases scan_eq_ok h with ⟨hw, hkind, -⟩ | hmem | ⟨p, rfl, -⟩
  · exact ⟨hw, hkind⟩
  · simp only [List.mem_cons, List.not_mem_nil, or_false] at hmem
    rcases hmem with rfl | rfl | rfl | rfl <;> cases hk
  · cases hk

/-! ### Neighbours in a text -/

theorem Found.exists_scan {sc : Scanned} (h : Found sc) (hk : sc.outcome = .ok k) :
    ∃ first rest, sc = scan first rest := by
  cases h with
  | lexeme first rest => exact ⟨first, rest, rfl⟩
  | openComment _ => cases hk

/-- The lexer goes on right behind a token, with what its scanner has left. -/
theorem Cursor.results_behind {before : List Token} (hc : c.IsAt s)
    (h : c.results = (before ++ t :: us).map .ok) :
    ∃ first rest, (scan first rest).outcome = .ok t.kind ∧
      (Cursor.mk t.span.stop (scan first rest).rest).IsAt s ∧
      (Cursor.mk t.span.stop (scan first rest).rest).results = us.map .ok := by
  induction before generalizing c with
  | nil =>
    cases hn : c.next? with
    | none => simp [results_of_none hn] at h
    | some p =>
      obtain ⟨r, c'⟩ := p
      have hat := hc.next
      rw [next_of_some hn] at hat
      rw [results_of_some hn] at h
      obtain ⟨rfl, hmore⟩ := List.cons.inj h
      obtain ⟨skipped, sc, hfound, -, -, hr, rfl⟩ := next?_eq_some hn
      obtain ⟨hkind, -, hspan⟩ := Scanned.placed_eq_ok hr.symm
      obtain ⟨first, rest, rfl⟩ := hfound.exists_scan hkind
      rw [hspan]
      exact ⟨first, rest, hkind, hat, hmore⟩
  | cons b before ih =>
    cases hn : c.next? with
    | none => simp [results_of_none hn] at h
    | some p =>
      obtain ⟨r, c'⟩ := p
      have hat := hc.next
      rw [next_of_some hn] at hat
      rw [results_of_some hn] at h
      exact ih hat (List.cons.inj h).2

/-- A token that starts at the cursor is the next one, with no trivia in front of it. -/
theorem Cursor.results_at (h : c.results = us.map .ok) (hu : u ∈ us)
    (hstart : u.span.start = c.offset) :
    ∃ first rest, c.rest = first :: rest ∧ (scan first rest).outcome = .ok u.kind ∧
      u.text = String.ofList (scan first rest).taken := by
  cases hn : c.next? with
  | none =>
    rw [results_of_none hn] at h
    obtain rfl : us = [] := by simpa using h.symm
    cases hu
  | some p =>
    obtain ⟨r, c'⟩ := p
    rw [results_of_some hn] at h
    obtain ⟨v, vs, rfl⟩ := List.exists_cons_of_ne_nil (List.ne_nil_of_mem hu)
    obtain ⟨rfl, hmore⟩ := List.cons.inj h
    obtain ⟨skipped, sc, hfound, hrest, -, hr, rfl⟩ := next?_eq_some hn
    obtain ⟨hkind, htext, hspan⟩ := Scanned.placed_eq_ok hr.symm
    have hpos := width_pos hfound.taken_ne_nil
    rcases List.mem_cons.mp hu with rfl | hlater
    · have hskip : skipped = [] := by
        cases skipped with
        | nil => rfl
        | cons b bs =>
          have := width_pos (List.cons_ne_nil b bs)
          rw [hspan] at hstart
          dsimp only at hstart
          omega
      obtain ⟨first, rest, rfl⟩ := hfound.exists_scan hkind
      have hwhole : (scan first rest).whole = first :: rest := (ahead_scan first rest).whole_eq
      exact ⟨first, rest, by rw [hrest, hskip, hwhole]; rfl, hkind, htext⟩
    · have hlow := ((results_tiles hmore).ordered.1 u hlater).1
      dsimp only at hlow
      omega

/-- Where no letter, digit or underscore comes next, a word that comes next starts with a dollar
sign. -/
theorem Cursor.word_at (h : c.results = us.map .ok) (hends : c.rest.head?.any isWordPart = false)
    (hu : u ∈ us) (hw : u.kind.isWord = true) (hstart : u.span.start = c.offset) :
    (∃ more, c.rest = '$' :: more) ∧ u.kind = .ident ∧ u.text.toList.head? = some '$' := by
  obtain ⟨first, rest, hrest, hkind, htext⟩ := results_at h hu hstart
  obtain ⟨hidentStart, hident⟩ := scan_word_start hkind hw
  have hpart : isWordPart first = false := by simpa [hrest] using hends
  obtain rfl := eq_dollar_of_isIdentStart hidentStart hpart
  obtain ⟨more, htaken, -⟩ := ahead_scan '$' rest
  refine ⟨⟨rest, hrest⟩, hident.trans (wordKind_dollar _), ?_⟩
  rw [htext, htaken, String.toList_ofList]
  rfl

theorem Cursor.word_of_dollar {more : List Char} (h : c.results = us.map .ok)
    (hrest : c.rest = '$' :: more) : ∃ u ∈ us, u.kind = .ident ∧ u.span.start = c.offset := by
  have hn := next?_solid (c := '$') (by decide) (by decide) c.offset more
  rw [← hrest] at hn
  rw [results_of_some hn] at h
  cases us with
  | nil => cases h
  | cons u us =>
    have hplaced : (scan '$' more).placed c.offset = .ok u := (List.cons.inj h).1
    have hword : (scan '$' more).outcome = .ok .ident := congrArg Except.ok (wordKind_dollar _)
    obtain ⟨hkind, -, hspan⟩ := Scanned.placed_eq_ok hplaced
    exact ⟨u, List.mem_cons_self, Except.ok.inj (hkind.symm.trans hword), by rw [hspan]⟩

/-- Of the tokens that tile a text, those that start where one ends stand behind it. -/
theorem Tiles.mem_behind {o : Nat} {cs : List Char} {before : List Token}
    (h : Tiles o cs (before ++ t :: us)) (hu : u ∈ before ++ t :: us)
    (hstart : u.span.start = t.span.stop) : u ∈ us := by
  obtain ⟨hsizes, horder⟩ := h.ordered
  have hsize := hsizes t (by simp)
  rcases List.mem_append.mp hu with hu | hu
  · have hearlier := ((List.pairwise_append.mp horder).2.2 u hu t List.mem_cons_self).1
    omega
  · rcases List.mem_cons.mp hu with rfl | hu
    · omega
    · exact hu

theorem append_inj_of_width {xs xs' ys ys' : List Char} (h : xs ++ xs' = ys ++ ys')
    (hw : width xs = width ys) : xs' = ys' := by
  induction xs generalizing ys with
  | nil =>
    cases ys with
    | nil => exact h
    | cons y ys =>
      have := width_pos (List.cons_ne_nil y ys)
      simp only [width_nil] at hw
      omega
  | cons x xs ih =>
    cases ys with
    | nil =>
      have := width_pos (List.cons_ne_nil x xs)
      simp only [width_nil] at hw
      omega
    | cons y ys =>
      obtain ⟨rfl, hmore⟩ := List.cons.inj h
      simp only [width_cons] at hw
      exact ih hmore (by omega)

/-- What a text reads behind the cursor starts with a dollar sign. -/
theorem Cursor.IsAt.covers_dollar (hc : c.IsAt s) :
    Span.Covers s ⟨c.offset, c.offset + 1⟩ "$" ↔ ∃ rest, c.rest = '$' :: rest := by
  obtain ⟨before, hs, ho⟩ := hc
  constructor
  · rintro ⟨b, a, rfl, hspan⟩
    have hsize : c.offset = width b.toList := by
      rw [← utf8ByteSize_eq_width]
      exact congrArg Span.start hspan
    have htext : b.toList ++ ('$' :: a.toList) = before ++ c.rest := by
      rw [← hs]
      simp
    exact ⟨a.toList, (append_inj_of_width htext (by omega)).symm⟩
  · rintro ⟨rest, hrest⟩
    refine ⟨String.ofList before, String.ofList rest, ?_, ?_⟩
    · rw [← String.toList_inj, hs, hrest]
      simp
    · simp only [ho, utf8ByteSize_eq_width, String.toList_ofList]
      rfl

/-- A word that starts where a number ends is an identifier with a dollar sign in front, and there
is one exactly if the text goes on with that sign. So a number is never glued to a word that starts
with a letter or an underscore. -/
theorem word_behind_number {source : String} {tokens : List Token} {t : Token}
    (h : lex source = .ok tokens) (ht : t ∈ tokens) (hn : t.kind.isNumber = true) :
    (∀ u ∈ tokens, u.kind.isWord = true → u.span.start = t.span.stop →
      u.kind = .ident ∧ u.text.toList.head? = some '$') ∧
    ((∃ u ∈ tokens, u.kind.isWord = true ∧ u.span.start = t.span.stop) ↔
      Span.Covers source ⟨t.span.stop, t.span.stop + 1⟩ "$") := by
  obtain ⟨ts, hts, rfl⟩ := lex_eq_ok_iff.mp h
  -- The end mark is neither a number nor a word.
  have hproper : ∀ u ∈ ts ++ [endToken source], u.kind.isNumber = true ∨ u.kind.isWord = true →
      u ∈ ts := by
    intro u hu hk
    rcases List.mem_append.mp hu with hu | hend
    · exact hu
    · obtain rfl := List.mem_singleton.mp hend
      rcases hk with hk | hk <;> cases hk
  obtain ⟨before, us, rfl⟩ := List.append_of_mem (hproper t ht (.inl hn))
  obtain ⟨first, rest, hkind, hat, hbehind⟩ :=
    Cursor.results_behind (Cursor.isAt_ofText source) hts
  have hword : ∀ u ∈ before ++ t :: us ++ [endToken source], u.kind.isWord = true →
      u.span.start = t.span.stop → (∃ more, (scan first rest).rest = '$' :: more) ∧
        u.kind = .ident ∧ u.text.toList.head? = some '$' := by
    intro u hu hw hstart
    have hmem := (results_tiles hts).mem_behind (hproper u hu (.inr hw)) hstart
    exact Cursor.word_at hbehind (scan_number_ends hkind hn) hmem hw hstart
  refine ⟨fun u hu hw hstart => (hword u hu hw hstart).2, ?_⟩
  rw [hat.covers_dollar]
  constructor
  · rintro ⟨u, hu, hw, hstart⟩
    exact (hword u hu hw hstart).1
  · rintro ⟨more, hrest⟩
    obtain ⟨u, hu, hident, hstart⟩ := Cursor.word_of_dollar hbehind hrest
    exact ⟨u, by simp [hu], by rw [hident]; rfl, hstart⟩

/-- A number with an exponent and a mark, and a word with a dollar sign right behind it. -/
theorem word_behind_number_marked :
    let t : Token := ⟨.floatLit, "1e5f", ⟨2, 6⟩⟩
    let tokens : List Token := [⟨.ident, "x", ⟨0, 1⟩⟩, t, ⟨.ident, "$int", ⟨6, 10⟩⟩,
      endToken "x 1e5f$int"]
    lex "x 1e5f$int" = .ok tokens ∧ (∃ u ∈ tokens, u.kind.isWord = true ∧ u.span.start = 6) ∧
      ∀ u ∈ tokens, u.kind.isWord = true → u.span.start = 6 →
        u.kind = .ident ∧ u.text.toList.head? = some '$' := by
  intro t tokens
  have hlex : lex "x 1e5f$int" = .ok tokens := lex_of_toOption (by decide +kernel)
  have hcovers : Span.Covers "x 1e5f$int" ⟨6, 7⟩ "$" := ⟨"x 1e5f", "int", rfl, rfl⟩
  obtain ⟨hwords, hiff⟩ := word_behind_number hlex (show t ∈ tokens by simp [tokens]) rfl
  exact ⟨hlex, hiff.mpr hcovers, hwords⟩

/-- The word starts where the number ends. -/
theorem lex_dollar_behind_number :
    let t : Token := ⟨.intLit, "1", ⟨0, 1⟩⟩
    let u : Token := ⟨.ident, "$", ⟨1, 2⟩⟩
    lex "1$" = .ok [t, u, endToken "1$"] ∧ t.kind.isNumber = true ∧ u.kind.isWord = true ∧
      u.span.start = t.span.stop :=
  ⟨lex_of_toOption (by decide +kernel), rfl, rfl, rfl⟩

end DeclFront
