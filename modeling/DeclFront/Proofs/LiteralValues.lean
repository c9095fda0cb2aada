import DeclFront.Proofs.DecimalTexts
import DeclFront.Proofs.Reading
import DeclFront.Proofs.Respacing

/-! What the literals of a text are worth. The scanner settles the shape of a literal and its value is
read from the text later on. Every shape that the scanner lets through has a value, so a literal can
only fail by being too large for its type. -/

namespace DeclFront

variable {cs ds text values : List Char} {quote : Char} {v : ℚ} {f : BinaryFormat}

/-! ### Quoted literals -/

/-- A text in quotes and the characters that it stands for: a plain one for itself, an escape for its
value. -/
def Spelled (quote : Char) (text values : List Char) : Prop :=
  ∃ pieces : List Piece, (∀ p ∈ pieces, p.Fits quote) ∧
    text = quote :: (pieces.flatMap Piece.spelling ++ [quote]) ∧
    pieces.map Piece.value? = values.map some

theorem Piece.Fits.value? {p : Piece} (h : p.Fits quote) : ∃ v, p.value? = some v := by
  cases p with
  | plain c => exact ⟨c, rfl⟩
  | escaped c => exact Option.isSome_iff_exists.mp h

theorem exists_values {pieces : List Piece} (h : ∀ p ∈ pieces, p.Fits quote) :
    ∃ values, unescape? (pieces.flatMap Piece.spelling) = some values ∧
      pieces.map Piece.value? = values.map some := by
  have hplain : ∀ c, .plain c ∈ pieces → c ≠ '\\' := fun c hc => (h _ hc).2.2
  have hvalue : ∀ p ∈ pieces, ∃ v, p.value? = some v := fun p hp => (h p hp).value?
  exact unescape?_pieces hplain hvalue

theorem Spelled.readQuoted? {text : String} (hq : quote.utf8Size = 1)
    (h : Spelled quote text.toList values) : DeclFront.readQuoted? text = some values := by
  obtain ⟨pieces, hfits, htext, hvalues⟩ := h
  obtain ⟨values', hread, hvalues'⟩ := exists_values hfits
  have hsame : values' = values := by
    have hmaps : values'.map some = values.map some := hvalues'.symm.trans hvalues
    exact List.map_injective_iff.mpr (Option.some_injective _) hmaps
  rw [DeclFront.readQuoted?, htext, quotedBody?_quoted hq, ← hsame]
  exact hread

theorem Lexeme.string_spelled (h : Lexeme .stringLit text) : ∃ values, Spelled '"' text values := by
  obtain ⟨pieces, hfits, htext⟩ := h.string_pieces
  obtain ⟨values, -, hvalues⟩ := exists_values hfits
  exact ⟨values, pieces, hfits, htext, hvalues⟩

theorem Lexeme.character_spelled (h : Lexeme .charLit text) : ∃ c, Spelled '\'' text [c] := by
  obtain ⟨p, hfits, htext⟩ := h.character_piece
  obtain ⟨c, hc⟩ := hfits.value?
  refine ⟨c, [p], by simpa using hfits, by simpa using htext, by simp [hc]⟩

theorem readLiteral_string {t : Token} (hk : t.kind = .stringLit)
    (h : Spelled '"' t.text.toList values) : readLiteral t = .ok (.string (String.ofList values)) := by
  have hread : readQuoted? t.text = some values := h.readQuoted? (by rfl)
  simp only [readLiteral, hk, hread]

theorem readLiteral_character {t : Token} {c : Char} (hk : t.kind = .charLit)
    (h : Spelled '\'' t.text.toList [c]) : readLiteral t = .ok (.char c) := by
  have hread : readQuoted? t.text = some [c] := h.readQuoted? (by rfl)
  simp only [readLiteral, hk, hread]

/-! ### Marks -/

theorem stripLast?_concat (p : Char → Bool) (cs : List Char) (m : Char) :
    stripLast? p (cs ++ [m]) = if p m then some cs else none := by
  simp [stripLast?]

theorem stripLast?_eq_none {p : Char → Bool} (h : ∀ c ∈ cs, p c = false) :
    stripLast? p cs = none := by
  cases cs using List.reverseRecOn with
  | nil => rfl
  | append_singleton cs m =>
    have hm : p m = false := h m (by simp)
    simp [stripLast?_concat, hm]

/-! ### Integers -/

/-- The text of an integer and the number that its digits denote. The flag tells whether it has the
mark of a long one. -/
inductive IntegerText : Bool → List Char → ℕ → Prop
  | int {ds : List Char} (hd : isRun ds = true) :
      IntegerText false ds (Nat.ofDigitChars 10 (withoutUnderscores ds) 0)
  | long {ds : List Char} {m : Char} (hd : isRun ds = true) (hm : isLongMark m = true) :
      IntegerText true (ds ++ [m]) (Nat.ofDigitChars 10 (withoutUnderscores ds) 0)

theorem Numeral.integer_text (h : Numeral .intLit cs) : ∃ long n, IntegerText long cs n := by
  generalize hk : TokenKind.intLit = kind at h
  cases h with
  | @parts isFloat ds es ms hd he hm =>
    generalize hf : (isFloat || !es.isEmpty) = point at hm
    -- A mantissa with a point and an exponent make it no integer.
    have hwhole (hpoint : point = false) : isRun ds = true ∧ es = [] := by
      rw [hpoint, Bool.or_eq_false_iff] at hf
      refine ⟨?_, by simpa using hf.2⟩
      rw [hf.1] at hd
      cases hd with
      | whole hd => exact hd
    cases hm with
    | int =>
      obtain ⟨hrun, rfl⟩ := hwhole rfl
      rw [List.append_nil, List.append_nil]
      exact ⟨false, _, .int hrun⟩
    | float => cases hk
    | long hm =>
      obtain ⟨hrun, rfl⟩ := hwhole rfl
      rw [List.append_nil]
      exact ⟨true, _, .long hrun hm⟩
    | sized hm => cases hk

theorem readSigned?_digits (bits : ℕ) (h : isDigits ds = true) :
    readSigned? (bits + 1) ds =
      if Nat.ofDigitChars 10 ds 0 < 2 ^ bits then some (Nat.ofDigitChars 10 ds 0 : ℤ) else none := by
  simp only [readSigned?, readInteger?_digits h, Nat.add_sub_cancel, Nat.pow_eq]
  generalize Nat.ofDigitChars 10 ds 0 = n
  by_cases hn : n < 2 ^ bits
  · have hfits : -((2 ^ bits : ℕ) : ℤ) ≤ n ∧ (n : ℤ) < (2 ^ bits : ℕ) := by omega
    rw [if_pos hn, Option.filter_some, if_pos (decide_eq_true hfits)]
  · have hfits : ¬ (-((2 ^ bits : ℕ) : ℤ) ≤ n ∧ (n : ℤ) < (2 ^ bits : ℕ)) := by omega
    rw [if_neg hn, Option.filter_some, if_neg (by simpa using hfits)]

theorem readLiteral_integer {t : Token} {long : Bool} {n : ℕ} (hk : t.kind = .intLit)
    (h : IntegerText long t.text.toList n) :
    readLiteral t =
      if long then
        if n < 2 ^ 63 then .ok (.long n) else .error (.literalOutOfRange t.text "long" t.span)
      else
        if n < 2 ^ 31 then .ok (.int n) else .error (.literalOutOfRange t.text "int" t.span) := by
  have hint : readLiteral t = readIntLiteral t := by simp only [readLiteral, hk]
  rw [hint, readIntLiteral]
  generalize htext : t.text.toList = text at h
  cases h with
  | int hd =>
    have hmark : ∀ c ∈ text, isLongMark c = false := by
      intro c hc
      have hnumeral := isRun_all hd c hc
      rw [← Bool.not_eq_true]
      intro hlong
      simp only [isLongMark, Bool.or_eq_true, beq_iff_eq] at hlong
      rcases hlong with rfl | rfl <;> cases hnumeral
    have hread : readSigned? 32 _ = _ := readSigned?_digits 31 (withoutUnderscores_run hd)
    rw [stripLast?_eq_none hmark]
    by_cases hn : Nat.ofDigitChars 10 (withoutUnderscores text) 0 < 2 ^ 31
    · rw [if_pos hn] at hread
      simp only [hread, hn, Bool.false_eq_true, if_false, if_true]
    · rw [if_neg hn] at hread
      simp only [hread, hn, Bool.false_eq_true, if_false]
  | @long ds m hd hm =>
    have hread : readSigned? 64 _ = _ := readSigned?_digits 63 (withoutUnderscores_run hd)
    rw [stripLast?_concat, if_pos hm]
    by_cases hn : Nat.ofDigitChars 10 (withoutUnderscores ds) 0 < 2 ^ 63
    · rw [if_pos hn] at hread
      simp only [hread, hn, if_true]
    · rw [if_neg hn] at hread
      simp only [hread, hn, if_true, if_false]

/-- The token is read as the number if the number is in the range of its type, and else it is
rejected for that. -/
structure ReadsInteger (t : Token) (long : Bool) (n : ℕ) : Prop where
  isInt : readLiteral t = .ok (.int n) ↔ long = false ∧ n ≤ 2 ^ 31 - 1
  isLong : readLiteral t = .ok (.long n) ↔ long = true ∧ n ≤ 2 ^ 63 - 1
  outOfRange : ¬ (long = false ∧ n ≤ 2 ^ 31 - 1) → ¬ (long = true ∧ n ≤ 2 ^ 63 - 1) →
    ∃ type, readLiteral t = .error (.literalOutOfRange t.text type t.span)

theorem IntegerText.reads {t : Token} {long : Bool} {n : ℕ} (hk : t.kind = .intLit)
    (h : IntegerText long t.text.toList n) : ReadsInteger t long n := by
  have hread := readLiteral_integer hk h
  cases long with
  | false =>
    rw [if_neg Bool.false_ne_true] at hread
    by_cases hn : n < 2 ^ 31
    · rw [if_pos hn] at hread
      refine ⟨iff_of_true hread ⟨rfl, by omega⟩, iff_of_false ?_ (by simp), fun hnot => ?_⟩
      · simp [hread]
      · exact absurd ⟨rfl, by omega⟩ hnot
    · rw [if_neg hn] at hread
      refine ⟨iff_of_false ?_ (by omega), iff_of_false ?_ (by simp), fun _ _ => ⟨_, hread⟩⟩
      · simp [hread]
      · simp [hread]
  | true =>
    rw [if_pos rfl] at hread
    by_cases hn : n < 2 ^ 63
    · rw [if_pos hn] at hread
      refine ⟨iff_of_false ?_ (by simp), iff_of_true hread ⟨rfl, by omega⟩, fun _ hnot => ?_⟩
      · simp [hread]
      · exact absurd ⟨rfl, by omega⟩ hnot
    · rw [if_neg hn] at hread
      refine ⟨iff_of_false ?_ (by simp), iff_of_false ?_ (by omega), fun _ _ => ⟨_, hread⟩⟩
      · simp [hread]
      · simp [hread]

/-! ### Numbers with a fraction -/

/-- The text of a number with a fraction, the format that it is rounded to and the number that it
denotes. -/
inductive FloatText : BinaryFormat → List Char → ℚ → Prop
  | plain {ds : List Char} {v : ℚ} (hv : DecimalText (withoutUnderscores ds) v) :
      FloatText .double ds v
  | double {ds : List Char} {m : Char} {v : ℚ} (hv : DecimalText (withoutUnderscores ds) v)
      (hm : isDoubleMark m = true) : FloatText .double (ds ++ [m]) v
  | single {ds : List Char} {m : Char} {v : ℚ} (hv : DecimalText (withoutUnderscores ds) v)
      (hm : isFloatMark m = true) : FloatText .single (ds ++ [m]) v

/-- The literal is the number, rounded to the format. -/
inductive Rounded : BinaryFormat → ℚ → Literal → Prop
  | float {d : Decimal} {x : Finite .single} (hd : d.negative = false)
      (hx : d.toFinite? .single = some x) : Rounded .single d.absValue (.float x)
  | double {d : Decimal} {x : Finite .double} (hd : d.negative = false)
      (hx : d.toFinite? .double = some x) : Rounded .double d.absValue (.double x)

theorem Numeral.float_text (h : Numeral .floatLit cs) : ∃ f v, FloatText f cs v := by
  generalize hk : TokenKind.floatLit = kind at h
  cases h with
  | @parts isFloat ds es ms hd he hm =>
    obtain ⟨v, hv⟩ := hd.decimal_text he
    generalize (isFloat || !es.isEmpty) = point at hm
    cases hm with
    | int => cases hk
    | float =>
      rw [List.append_nil]
      exact ⟨.double, v, .plain hv⟩
    | long hm => cases hk
    | sized hm =>
      rcases (Bool.or_eq_true _ _).mp hm with hm | hm
      · exact ⟨.single, v, .single hv hm⟩
      · exact ⟨.double, v, .double hv hm⟩

/-- The token is read as the number, rounded to the format, and is rejected if that is infinite. -/
structure ReadsFloat (t : Token) (f : BinaryFormat) (v : ℚ) : Prop where
  finite : v < f.overflow → ∃ l, readLiteral t = .ok l ∧ Rounded f v l
  outOfRange : f.overflow ≤ v →
    ∃ type, readLiteral t = .error (.literalOutOfRange t.text type t.span)

theorem readsFloat_of_eq {t : Token} (type : String) {literal : Finite f → Literal}
    (hf : ∀ d : Decimal, d.toFinite? f = none ↔ f.overflow ≤ d.absValue)
    (hl : ∀ {d : Decimal} {x : Finite f}, d.negative = false → d.toFinite? f = some x →
      Rounded f d.absValue (literal x))
    (hv : DecimalText (withoutUnderscores ds) v)
    (hread : readLiteral t = match readFinite? f (withoutUnderscores ds) with
      | some x => .ok (literal x)
      | none => .error (.literalOutOfRange t.text type t.span)) : ReadsFloat t f v := by
  obtain ⟨d, hd, hsign, rfl⟩ := read?_decimalText hv
  have hfinite : readFinite? f (withoutUnderscores ds) = d.toFinite? f := by
    rw [readFinite?, hd]
    rfl
  rw [hfinite] at hread
  constructor
  · intro hlt
    have hne : d.toFinite? f ≠ none := fun hnone => absurd hlt (not_lt.mpr ((hf d).mp hnone))
    obtain ⟨x, hx⟩ := Option.ne_none_iff_exists'.mp hne
    rw [hx] at hread
    exact ⟨literal x, hread, hl hsign hx⟩
  · intro hle
    rw [(hf d).mpr hle] at hread
    exact ⟨type, hread⟩

theorem FloatText.reads {t : Token} (hk : t.kind = .floatLit)
    (h : FloatText f t.text.toList v) : ReadsFloat t f v := by
  have hfloat : readLiteral t = readFloatLiteral t := by simp only [readLiteral, hk]
  generalize htext : t.text.toList = text at h
  cases h with
  | plain hv =>
    -- No mark is cut off, for a decimal number has no such letter in it.
    have hmarks := hv.not_mark
    have hsingle : stripLast? isFloatMark text = none :=
      stripLast?_eq_none (fun c hc => (hmarks c hc).1)
    have hdouble : stripLast? isDoubleMark text = none :=
      stripLast?_eq_none (fun c hc => (hmarks c hc).2)
    apply readsFloat_of_eq "double" toFinite?_double .double hv
    simp only [hfloat, readFloatLiteral, htext, hsingle, hdouble, Option.getD_none]
    cases readFinite? .double (withoutUnderscores text) <;> rfl
  | @double ds m _ hv hm =>
    have hsingle : isFloatMark m = false := by
      simp only [isDoubleMark, Bool.or_eq_true, beq_iff_eq] at hm
      rcases hm with rfl | rfl <;> rfl
    apply readsFloat_of_eq "double" toFinite?_double .double hv
    simp only [hfloat, readFloatLiteral, htext, stripLast?_concat, hsingle, hm, Bool.false_eq_true,
      if_false, if_true, Option.getD_some]
    cases readFinite? .double (withoutUnderscores ds) <;> rfl
  | @single ds m _ hv hm =>
    apply readsFloat_of_eq "float" toFinite?_single .float hv
    simp only [hfloat, readFloatLiteral, htext, stripLast?_concat, hm, if_true]
    cases readFinite? .single (withoutUnderscores ds) <;> rfl

/-! ### Literals -/

/-- The kinds of the tokens that stand for a value. -/
def TokenKind.isLiteral : TokenKind → Bool
  | .intLit => true
  | .floatLit => true
  | .charLit => true
  | .stringLit => true
  | .keyword (.constant _) => true
  | _ => false

theorem readInit_gives {t : Token} {l : Literal} (h : readLiteral t = .ok l) (eof : Token)
    (rest : List Token) : (readInit eof (t :: rest)).Gives id ⟨l, t.span⟩ rest := by
  simp [readInit, h]

section

variable {t : Token} (h : Lexeme t.kind t.text.toList)
include h

theorem Lexeme.reads_character (hk : t.kind = .charLit) :
    ∃ c, Spelled '\'' t.text.toList [c] ∧ readLiteral t = .ok (.char c) := by
  obtain ⟨c, hc⟩ := (hk ▸ h).character_spelled
  exact ⟨c, hc, readLiteral_character hk hc⟩

theorem Lexeme.reads_string (hk : t.kind = .stringLit) :
    ∃ s : String, Spelled '"' t.text.toList s.toList ∧ readLiteral t = .ok (.string s) := by
  obtain ⟨values, hvalues⟩ := (hk ▸ h).string_spelled
  refine ⟨String.ofList values, ?_, readLiteral_string hk hvalues⟩
  rw [String.toList_ofList]
  exact hvalues

theorem Lexeme.reads_integer (hk : t.kind = .intLit) :
    ∃ long n, IntegerText long t.text.toList n ∧ ReadsInteger t long n := by
  obtain ⟨hnumeral, -⟩ := (hk ▸ h).numeral (.inl rfl)
  obtain ⟨long, n, hn⟩ := hnumeral.integer_text
  exact ⟨long, n, hn, hn.reads hk⟩

theorem Lexeme.reads_float (hk : t.kind = .floatLit) :
    ∃ f v, FloatText f t.text.toList v ∧ ReadsFloat t f v := by
  obtain ⟨hnumeral, -⟩ := (hk ▸ h).numeral (.inr rfl)
  obtain ⟨f, v, hv⟩ := hnumeral.float_text
  exact ⟨f, v, hv, hv.reads hk⟩

theorem Lexeme.reads_literal (hl : t.kind.isLiteral = true) :
    (∃ l, readLiteral t = .ok l) ∨
      ∃ type, readLiteral t = .error (.literalOutOfRange t.text type t.span) := by
  cases hk : t.kind with
  | charLit =>
    obtain ⟨c, -, hread⟩ := h.reads_character hk
    exact .inl ⟨_, hread⟩
  | stringLit =>
    obtain ⟨s, -, hread⟩ := h.reads_string hk
    exact .inl ⟨_, hread⟩
  | intLit =>
    obtain ⟨long, n, -, hread⟩ := h.reads_integer hk
    by_cases hint : long = false ∧ n ≤ 2 ^ 31 - 1
    · exact .inl ⟨_, hread.isInt.mpr hint⟩
    by_cases hlong : long = true ∧ n ≤ 2 ^ 63 - 1
    · exact .inl ⟨_, hread.isLong.mpr hlong⟩
    · exact .inr (hread.outOfRange hint hlong)
  | floatLit =>
    obtain ⟨f, v, -, hread⟩ := h.reads_float hk
    by_cases hv : v < f.overflow
    · obtain ⟨l, hl, -⟩ := hread.finite hv
      exact .inl ⟨l, hl⟩
    · exact .inr (hread.outOfRange (not_lt.mp hv))
  | keyword word =>
    cases word with
    | constant c =>
      cases c with
      | truth b => exact .inl ⟨.bool b, by simp only [readLiteral, hk]⟩
      | null => exact .inl ⟨.null, by simp only [readLiteral, hk]⟩
    | _ => simp [hk, TokenKind.isLiteral] at hl
  | punct p => simp [hk, TokenKind.isLiteral] at hl
  | ident => simp [hk, TokenKind.isLiteral] at hl
  | eof => simp [hk, TokenKind.isLiteral] at hl

end

/-- Every literal of a text has a value, which is placed where the literal stands, unless it is a
number out of the range of its type. Quoted literals stand for their characters. An integer is worth
what its digits denote, and is out of range exactly if that exceeds the greatest number of its type.
A number with a fraction is a decimal number, and is out of range exactly if it is rounded to
infinity. -/
theorem lexed_literals {source : String} {tokens : List Token} {t : Token}
    (h : lex source = .ok tokens) (ht : t ∈ tokens) (hl : t.kind.isLiteral = true) :
    ((∃ l, readLiteral t = .ok l ∧
        ∀ eof rest, (readInit eof (t :: rest)).Gives id ⟨l, t.span⟩ rest) ∨
      ∃ type, readLiteral t = .error (.literalOutOfRange t.text type t.span)) ∧
    (t.kind = .charLit → ∃ c, Spelled '\'' t.text.toList [c] ∧ readLiteral t = .ok (.char c)) ∧
    (t.kind = .stringLit →
      ∃ s : String, Spelled '"' t.text.toList s.toList ∧ readLiteral t = .ok (.string s)) ∧
    (t.kind = .intLit → ∃ long n, IntegerText long t.text.toList n ∧ ReadsInteger t long n) ∧
    (t.kind = .floatLit → ∃ f v, FloatText f t.text.toList v ∧ ReadsFloat t f v) := by
  have hend : t.kind ≠ .eof := by
    intro hk
    rw [hk] at hl
    cases hl
  have hlexeme : Lexeme t.kind t.text.toList := lex_lexeme h ht hend
  refine ⟨?_, hlexeme.reads_character, hlexeme.reads_string, hlexeme.reads_integer,
    hlexeme.reads_float⟩
  rcases hlexeme.reads_literal hl with ⟨l, hread⟩ | hout
  · exact .inl ⟨l, hread, readInit_gives hread⟩
  · exact .inr hout

/-- Groups of digits in the fraction, a signed exponent and a mark. -/
theorem lexed_literals_signed_exponent :
    let t : Token := ⟨.floatLit, "3.402_823_5e+38f", ⟨1, 17⟩⟩
    lex " 3.402_823_5e+38f;" =
        .ok [t, ⟨.punct .semicolon, ";", ⟨17, 18⟩⟩, endToken " 3.402_823_5e+38f;"] ∧
      ∃ f v, FloatText f t.text.toList v ∧ ReadsFloat t f v := by
  intro t
  have hlex : lex " 3.402_823_5e+38f;" =
      .ok [t, ⟨.punct .semicolon, ";", ⟨17, 18⟩⟩, endToken " 3.402_823_5e+38f;"] :=
    lex_of_toOption (by decide +kernel)
  have hread := lexed_literals hlex (List.mem_cons_self) rfl
  exact ⟨hlex, hread.2.2.2.2 rfl⟩

end DeclFront
