import DeclFront.Proofs.Layout
import DeclFront.Proofs.Reports

/-! Where a report points. Each diagnostic of a job stands on whole characters of its text: on a
part that the lexer could not read, or else on one token, which is the one it speaks of. -/

namespace DeclFront

/-! ### Places in a text -/

theorem Span.Covers.bounds {s part : String} {sp : Span} (h : sp.Covers s part) :
    sp.start ≤ sp.stop ∧ sp.stop ≤ s.utf8ByteSize := by
  obtain ⟨before, after, rfl, rfl⟩ := h
  simp only [String.utf8ByteSize_append]
  omega

theorem Span.Covers.isValid {s part : String} {sp : Span} (h : sp.Covers s part) :
    (String.Pos.Raw.mk sp.start).IsValid s ∧ (String.Pos.Raw.mk sp.stop).IsValid s := by
  obtain ⟨before, after, rfl, rfl⟩ := h
  constructor
  · refine String.Pos.Raw.isValid_iff_exists_append.mpr ⟨before, part ++ after, ?_, rfl⟩
    rw [String.append_assoc]
  · refine String.Pos.Raw.isValid_iff_exists_append.mpr ⟨before ++ part, after, rfl, ?_⟩
    ext
    simp

theorem Span.Covers.lt {s part : String} {sp : Span} (h : sp.Covers s part) (hne : part ≠ "") :
    sp.start < sp.stop := by
  obtain ⟨before, after, -, rfl⟩ := h
  have hpos : part.utf8ByteSize ≠ 0 := fun hz => hne (String.utf8ByteSize_eq_zero_iff.mp hz)
  show before.utf8ByteSize < before.utf8ByteSize + part.utf8ByteSize
  omega

theorem covers_of_toList {s : String} (before part after : List Char)
    (h : s.toList = before ++ (part ++ after)) :
    Span.Covers s ⟨width before, width before + width part⟩ (String.ofList part) := by
  refine ⟨String.ofList before, String.ofList after, ?_, ?_⟩
  · rw [← String.toList_inj, h]
    simp
  · simp [utf8ByteSize_eq_width]

/-! ### Tokens and lexical faults -/

theorem Tiles.covers_text {s : String} {cs : List Char} {o : Nat} {ts : List Token}
    (h : Tiles o cs ts) (before : List Char) (hs : s.toList = before ++ cs) (ho : o = width before) :
    ∀ t ∈ ts, t.span.Covers s t.text := by
  induction h generalizing before with
  | done _ => simp
  | @token o skipped lexeme rest t ts _ _ htext hspan _ ih =>
    subst ho
    refine List.forall_mem_cons.mpr ⟨?_, ?_⟩
    · have hcovers : Span.Covers s _ (String.ofList lexeme) :=
        covers_of_toList (before ++ skipped) lexeme rest (by simpa using hs)
      rwa [width_append, ← hspan, ← htext] at hcovers
    · exact ih (before ++ (skipped ++ lexeme)) (by simpa using hs) (by simp [Nat.add_assoc])

theorem lex_covers {s : String} {tokens : List Token} {t : Token} (h : lex s = .ok tokens)
    (ht : t ∈ tokens) : t.span.Covers s t.text := by
  obtain ⟨ts, hts, rfl⟩ := lex_eq_ok_iff.mp h
  have htiles : Tiles 0 s.toList ts := results_tiles hts
  rcases List.mem_append.mp ht with ht | ht
  · exact htiles.covers_text [] rfl rfl t ht
  · obtain rfl := List.mem_singleton.mp ht
    exact ⟨s, "", by simp [endToken, Token.endAt], by simp [endToken, Token.endAt, Span.point]⟩

/-- A lexical fault points at some characters of the text. -/
theorem Cursor.results_marks {s : String} {c : Cursor} {d : Diagnostic} (hc : c.IsAt s)
    (h : .error d ∈ c.results) : ∃ part, part ≠ "" ∧ d.span.Covers s part := by
  fun_induction results c with
  | case1 c r c' hn ih =>
    rcases List.mem_cons.mp h with rfl | h
    · obtain ⟨before, hs, ho⟩ := hc
      obtain ⟨skipped, sc, hfound, hrest, -, hr, -⟩ := next?_eq_some hn
      obtain ⟨f, hf, hspan⟩ := Scanned.placed_eq_error hr.symm
      obtain ⟨pre, part, post, htaken, hne, hmarks⟩ := hfound.fault_marks hf
      have hcovers := covers_of_toList (s := s) (before ++ (skipped ++ pre)) part (post ++ sc.rest)
        (by simp [hs, hrest, Split.whole, htaken])
      refine ⟨String.ofList part, by simpa using hne, ?_⟩
      simpa [hspan, hmarks, ho, Nat.add_assoc] using hcovers
    · have hat := hc.next
      rw [next_of_some hn] at hat
      exact ih hat h
  | case2 c hn => cases h

/-! ### The parser and the rules -/

/-- The diagnostic stands on the token, and if it speaks of a token at all, it is that one. -/
def Diagnostic.StandsOn (t : Token) (d : Diagnostic) : Prop :=
  d.span = t.span ∧ ∀ u expected, d.cause = .illegalToken u expected → u = t

theorem standsOn_illegal (t : Token) (expected message : String) (notes hints : List String) :
    Diagnostic.StandsOn t ⟨.illegalToken t expected, message, t.span, notes, hints⟩ := by
  refine ⟨rfl, ?_⟩
  rintro u expected ⟨⟩
  rfl

variable {text : String} {tokens : List Token} {d : Diagnostic}

theorem parser_standsOn (h : lex text = .ok tokens)
    (hd : d ∈ (Attempts.ofTokens tokens).diagnostics) : ∃ t ∈ tokens, d.StandsOn t := by
  obtain ⟨t, ht, hblame⟩ := lex_diagnostics_blame h hd
  refine ⟨t, ht, ?_⟩
  cases hblame with
  | illegal => exact standsOn_illegal ..
  | misplaced => exact ⟨rfl, nofun⟩
  | literal hl =>
    rcases lex_readLiteral_error h ht hl with ⟨type, rfl⟩ | rfl
    · exact ⟨rfl, nofun⟩
    · exact standsOn_illegal ..

/-- What the rules find stands on tokens: a unit is read from its tokens alone, so it is the twin of
itself, place by place. -/
theorem rules_standOn (h : lex text = .ok tokens)
    (hd : d ∈ checkUnit .accumulate (Attempts.ofTokens tokens).unit) :
    ∃ t ∈ tokens, d.StandsOn t := by
  have hend : tokens.any Token.isEnd = true := List.any_eq_true.mpr (lex_ends h)
  have htokens : Twins tokens tokens tokens tokens := twins_of_unplaced rfl
  have hself := ofTokens_twins htokens hend
  have htwins : d.Twins tokens tokens d :=
    List.forall₂_same.mp (checkUnit_twins .accumulate hself.unit_members) d hd
  obtain ⟨t, t', ⟨-, -, i, hi, -⟩, hspan, -⟩ := htwins.span
  refine ⟨t, List.mem_of_getElem? hi, hspan, fun u expected hu => ?_⟩
  cases hu.symm.trans (checkUnit_semantic hd)

/-! ### Reports -/

/-- Where a diagnostic comes from: the lexer could not read some characters, or it could read all of
them and one of its tokens is to blame. -/
inductive Diagnostic.Traced (text : String) (d : Diagnostic) : Prop
  | lexer {ds : List Diagnostic} {part : String} : lex text = .error ds → d.isLexical = true →
      (∃ d₀ ∈ ds, d₀.Noted d) → part ≠ "" → d.span.Covers text part → Traced text d
  | token {tokens : List Token} {t : Token} : lex text = .ok tokens → d.isLexical = false →
      t ∈ tokens → d.StandsOn t → Traced text d

theorem Job.faults_traced {d₀ : Diagnostic} (h : d₀ ∈ Job.faults text) (hn : d₀.Noted d) :
    d.Traced text := by
  have hnoted := hn
  obtain ⟨more, rfl⟩ := hn
  cases hl : lex text with
  | error ds =>
    rw [faults_of_error hl] at h
    have hlexical : d₀.isLexical = true := lex_error_lexical hl h
    rw [lex_eq_error hl] at h
    obtain ⟨r, hr, he⟩ := List.mem_filterMap.mp h
    rw [of?_eq_some.mp he] at hr
    obtain ⟨part, hne, hcovers⟩ := Cursor.results_marks (Cursor.isAt_ofText text) hr
    exact .lexer hl hlexical ⟨d₀, lex_eq_error hl ▸ h, hnoted⟩ hne hcovers
  | ok tokens =>
    rw [faults_of_ok hl] at h
    rcases List.mem_append.mp h with hd | hd
    · obtain ⟨t, ht, hon⟩ := parser_standsOn hl hd
      have hsyntactic : d₀.isLexical = false := lex_diagnostics_not_lexical hl hd
      exact .token hl hsyntactic ht hon
    · obtain ⟨t, ht, hon⟩ := rules_standOn hl hd
      have hsemantic : d₀.isLexical = false := by simp [Diagnostic.isLexical, checkUnit_semantic hd]
      exact .token hl hsemantic ht hon

theorem Ordered.eq_of_span {t u : Token} (h : Ordered tokens) (ht : t ∈ tokens) (hu : u ∈ tokens)
    (hs : u.span = t.span) : u = t := by
  obtain ⟨i, hi⟩ := List.getElem?_of_mem ht
  obtain ⟨j, hj⟩ := List.getElem?_of_mem hu
  have hij : i ≤ j := (h.start_le_iff hi hj).mp (Nat.le_of_eq (by rw [hs]))
  have hji : j ≤ i := (h.start_le_iff hj hi).mp (Nat.le_of_eq (by rw [hs]))
  obtain rfl := Nat.le_antisymm hij hji
  exact Option.some.inj (hj.symm.trans hi)

theorem Diagnostic.Traced.covers (h : d.Traced text) : ∃ part, d.span.Covers text part := by
  cases h with
  | lexer _ _ _ _ hcovers => exact ⟨_, hcovers⟩
  | token hl _ ht hon => exact ⟨_, hon.1 ▸ lex_covers hl ht⟩

theorem Job.Reports.traced {o : Outcome} (h : Job.Reports text o) :
    ∀ d ∈ o.diagnostics, d.Traced text := by
  intro d hd
  have hfault : ∃ d₀ ∈ Job.faults text, d₀.Noted d := by
    cases h with
    | clean _ _ => cases hd
    | failed _ hds => exact hds d hd
    | completed _ _ hds => exact hds d hd
  obtain ⟨d₀, hmem, hnoted⟩ := hfault
  exact Job.faults_traced hmem hnoted

/-- Whatever a job reports on a text lies within it and between whole characters. What the lexer
reports takes up some characters; all else stands exactly on one token of the text, and if it speaks
of a token that it did not expect, that is the token. -/
theorem report_faithful (storage : Storage) (config : Config) (source : Source) {text : String}
    (h : (Job.run storage config source .never).outcome.text? = some text) :
    source.read storage config.maxSourceBytes = .ok text ∧
    ∀ d ∈ (Job.run storage config source .never).outcome.diagnostics,
      d.span.start ≤ d.span.stop ∧ d.span.stop ≤ text.utf8ByteSize ∧
      (String.Pos.Raw.mk d.span.start).IsValid text ∧
      (String.Pos.Raw.mk d.span.stop).IsValid text ∧
      (d.isLexical = true → d.span.start < d.span.stop ∧
        ∃ ds, lex text = .error ds ∧ ∃ d₀ ∈ ds, d₀.Noted d) ∧
      (d.isLexical = false → ∃ tokens, lex text = .ok tokens ∧ ∃ t ∈ tokens,
        d.span = t.span ∧ (∀ u ∈ tokens, u.span = d.span → u = t) ∧
        ∀ u expected, d.cause = .illegalToken u expected → u = t) := by
  obtain ⟨f, hf, ho⟩ | ⟨text', hread, hreports⟩ := run_reports storage config source
  · rw [ho] at h
    cases f <;> cases hf <;> cases h
  · obtain rfl : text' = text := Option.some.inj (hreports.text?_eq.symm.trans h)
    refine ⟨hread, fun d hd => ?_⟩
    have htraced := hreports.traced d hd
    obtain ⟨part, hcovers⟩ := htraced.covers
    refine ⟨hcovers.bounds.1, hcovers.bounds.2, hcovers.isValid.1, hcovers.isValid.2, ?_, ?_⟩
    · intro hlexical
      cases htraced with
      | token _ hne _ _ => cases hne.symm.trans hlexical
      | lexer hl _ hfault hne hcovers => exact ⟨hcovers.lt hne, _, hl, hfault⟩
    · intro hlexical
      cases htraced with
      | lexer _ hne _ _ _ => cases hne.symm.trans hlexical
      | token hl _ ht hon =>
        obtain ⟨hspan, htoken⟩ := hon
        exact ⟨_, hl, _, ht, hspan,
          fun u hu hs => (lex_ordered hl).eq_of_span ht hu (hs.trans hspan), htoken⟩

/-- The token in the way stands behind a comment with a letter of two bytes. -/
theorem report_faithful_behind_comment :
    let storage : Storage := fun _ => .error .notFound
    let source : Source := .inline "a" "import a /*é*/ b;"
    let o := (Job.run storage {} source .never).outcome
    o.text? = some "import a /*é*/ b;" ∧
      o.diagnostics = [.illegalToken ⟨.ident, "b", ⟨16, 17⟩⟩ "';'"] ∧
      ∃ tokens, lex "import a /*é*/ b;" = .ok tokens ∧
        ∃ t ∈ tokens, t = ⟨.ident, "b", ⟨16, 17⟩⟩ := by
  intro storage source o
  have htext : o.text? = some "import a /*é*/ b;" := by decide +kernel
  have hreport : o.diagnostics = [.illegalToken ⟨.ident, "b", ⟨16, 17⟩⟩ "';'"] := by
    decide +kernel
  have hmem : Diagnostic.illegalToken ⟨.ident, "b", ⟨16, 17⟩⟩ "';'" ∈ o.diagnostics := by
    simp [hreport]
  obtain ⟨-, -, -, -, -, htoken⟩ := (report_faithful storage {} source htext).2 _ hmem
  obtain ⟨tokens, hl, t, ht, -, -, hsame⟩ := htoken rfl
  exact ⟨htext, hreport, tokens, hl, t, ht, (hsame _ _ rfl).symm⟩

end DeclFront
