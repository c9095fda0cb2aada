import DeclFront.Proofs.Numerals
import DeclFront.Proofs.Overflow
import DeclFront.Tree.Literal

/-! Decimal numbers as texts: digits, a fraction and a power of ten, and the number they denote. Every
such text is read as that number, and what the scanner takes for a number is such a text once its
mark and its underscores are gone. -/

namespace DeclFront

variable {cs ds es fs ws : List Char} {e : ℤ} {v : ℚ}

/-! ### The grammar -/

/-- One digit or more. -/
def isDigits (ds : List Char) : Bool := !ds.isEmpty && ds.all Char.isDigit

/-- Nothing, or a point and the digits behind it. -/
inductive FractionText : List Char → List Char → Prop
  | none : FractionText [] []
  | point {fs : List Char} (hf : isDigits fs = true) : FractionText ('.' :: fs) fs

/-- Nothing, or the mark of an exponent, a sign or none, and digits; and the power that is meant. -/
inductive PowerText : List Char → ℤ → Prop
  | none : PowerText [] 0
  | plain {m : Char} {ds : List Char} (hm : isExponentMark m = true) (hd : isDigits ds = true) :
      PowerText (m :: ds) (Nat.ofDigitChars 10 ds 0)
  | plus {m : Char} {ds : List Char} (hm : isExponentMark m = true) (hd : isDigits ds = true) :
      PowerText (m :: '+' :: ds) (Nat.ofDigitChars 10 ds 0)
  | minus {m : Char} {ds : List Char} (hm : isExponentMark m = true) (hd : isDigits ds = true) :
      PowerText (m :: '-' :: ds) (-(Nat.ofDigitChars 10 ds 0 : ℤ))

/-- A decimal number with at least one digit, and its value. -/
inductive DecimalText : List Char → ℚ → Prop
  | parts {ws point fs es : List Char} {e : ℤ} (hw : ws.all Char.isDigit = true)
      (hf : FractionText point fs) (hne : ws ++ fs ≠ []) (he : PowerText es e) :
      DecimalText (ws ++ point ++ es)
        ((Nat.ofDigitChars 10 ws 0 + Nat.ofDigitChars 10 fs 0 / 10 ^ fs.length) * 10 ^ e)

/-! ### Reading -/

theorem isDigits_cons (h : isDigits ds = true) :
    ∃ d rest, ds = d :: rest ∧ d.isDigit = true ∧ ∀ c ∈ ds, c.isDigit = true := by
  cases ds with
  | nil => cases h
  | cons d rest =>
    have hall : ∀ c ∈ d :: rest, c.isDigit = true := by simpa [isDigits] using h
    exact ⟨d, rest, rfl, hall d List.mem_cons_self, hall⟩

theorem isDigit_ne_sign {c : Char} (h : c.isDigit = true) : c ≠ '+' ∧ c ≠ '-' := by
  constructor <;> rintro rfl <;> cases h

theorem takeSign_of_ne {c : Char} (h : c ≠ '+' ∧ c ≠ '-') : takeSign (c :: cs) = (false, c :: cs) := by
  unfold takeSign
  split
  · next heq => exact absurd (List.cons.inj heq).1 h.1
  · next heq => exact absurd (List.cons.inj heq).1 h.2
  · rfl

theorem readInteger?_digits (h : isDigits ds = true) :
    readInteger? ds = some (Nat.ofDigitChars 10 ds 0 : ℤ) := by
  obtain ⟨d, rest, rfl, hd, hall⟩ := isDigits_cons h
  have hdigits : (d :: rest).all Char.isDigit = true := List.all_eq_true.mpr hall
  simp [readInteger?, takeSign_of_ne (isDigit_ne_sign hd), hdigits, digitsValue, Nat.ofDigitChars_eq_foldl]

theorem readExponent?_text (h : PowerText es e) : readExponent? es = some e := by
  have hmark {m : Char} (hm : isExponentMark m = true) (cs : List Char) :
      readExponent? (m :: cs) = readInteger? cs := by
    exact if_pos hm
  cases h with
  | none => rfl
  | plain hm hd => rw [hmark hm, readInteger?_digits hd]
  | plus hm hd =>
    have hread := readInteger?_digits hd
    obtain ⟨d, rest, rfl, hdigit, -⟩ := isDigits_cons hd
    rw [readInteger?, takeSign_of_ne (isDigit_ne_sign hdigit)] at hread
    rw [hmark hm, readInteger?]
    exact hread
  | @minus m ds hm hd =>
    obtain ⟨d, rest, rfl, -, hall⟩ := isDigits_cons hd
    have hdigits : (d :: rest).all Char.isDigit = true := List.all_eq_true.mpr hall
    have hsign : takeSign ('-' :: d :: rest) = (true, d :: rest) := rfl
    rw [hmark hm, readInteger?, hsign]
    simp only [List.isEmpty_cons, hdigits, Bool.not_true, Bool.or_self, Bool.false_eq_true, if_false,
      if_true]
    rfl

theorem PowerText.head (h : PowerText es e) :
    es.head?.any Char.isDigit = false ∧ ∀ rest, es ≠ '.' :: rest := by
  have hmark {m : Char} (hm : isExponentMark m = true) : m.isDigit = false ∧ m ≠ '.' := by
    simp only [isExponentMark, Bool.or_eq_true, beq_iff_eq] at hm
    rcases hm with rfl | rfl <;> decide
  cases h with
  | none => simp
  | plain hm _ => simp [hmark hm]
  | plus hm _ => simp [hmark hm]
  | minus hm _ => simp [hmark hm]

theorem digits_span (hd : ∀ c ∈ ds, c.isDigit = true) (hc : cs.head?.any Char.isDigit = false) :
    (ds ++ cs).takeWhile Char.isDigit = ds ∧ (ds ++ cs).dropWhile Char.isDigit = cs := by
  have hrun := Split.run_all [] hd hc
  simpa [Split.run] using hrun

theorem takeSign_text (hw : ws.all Char.isDigit = true) (hf : FractionText cs fs)
    (hne : ws ++ fs ≠ []) : takeSign (ws ++ cs ++ es) = (false, ws ++ cs ++ es) := by
  cases ws with
  | cons w ws =>
    have hdigit : w.isDigit = true := List.all_eq_true.mp hw w List.mem_cons_self
    exact takeSign_of_ne (isDigit_ne_sign hdigit)
  | nil =>
    cases hf with
    | none => exact absurd rfl hne
    | point _ => exact takeSign_of_ne (by decide)

theorem scaled_digits (ws fs : List Char) (e : ℤ) :
    (Nat.ofDigitChars 10 (ws ++ fs) 0 : ℚ) * 10 ^ (e - fs.length) =
      (Nat.ofDigitChars 10 ws 0 + Nat.ofDigitChars 10 fs 0 / 10 ^ fs.length) * 10 ^ e := by
  rw [Nat.ofDigitChars_append, Nat.ofDigitChars_eq_ofDigitChars_zero, zpow_sub₀ (by norm_num),
    zpow_natCast]
  push_cast
  field_simp

theorem read?_decimalText (h : DecimalText cs v) :
    ∃ d, Decimal.read? cs = some d ∧ d.negative = false ∧ d.absValue = v := by
  cases h with
  | @parts ws point fs es e hw hf hne he =>
    refine ⟨⟨false, Nat.ofDigitChars 10 (ws ++ fs) 0, e - fs.length⟩, ?_, rfl,
      scaled_digits ws fs e⟩
    have hempty : (ws ++ fs).isEmpty = false := by simpa using hne
    have hwhole := List.all_eq_true.mp hw
    obtain ⟨hdigit, hpoint⟩ := he.head
    unfold Decimal.read?
    rw [takeSign_text hw hf hne, List.append_assoc]
    dsimp only
    cases hf with
    | none =>
      -- The exponent ends the digits and does not look like a fraction.
      obtain ⟨htake, hdrop⟩ := digits_span hwhole hdigit
      rw [List.nil_append, htake, hdrop]
      split
      · exact absurd rfl (hpoint _)
      · simp only [hempty, Bool.false_eq_true, if_false, readExponent?_text he]
        rfl
    | point hf =>
      obtain ⟨-, -, -, -, hall⟩ := isDigits_cons hf
      obtain ⟨htake, hdrop⟩ := digits_span hwhole (show ('.' :: (fs ++ es)).head?.any _ = _ from rfl)
      obtain ⟨htake', hdrop'⟩ := digits_span hall hdigit
      rw [List.cons_append, htake, hdrop]
      simp only [htake', hdrop', hempty, Bool.false_eq_true, if_false, readExponent?_text he]
      rfl

/-! ### Characters -/

/-- What a decimal number is made of. -/
def isDecimalPart (c : Char) : Bool := c.isDigit || c == '.' || isExponentMark c || isSign c

theorem isDecimalPart_digits (h : ds.all Char.isDigit = true) : ds.all isDecimalPart = true := by
  apply List.all_eq_true.mpr
  intro c hc
  have hdigit : c.isDigit = true := List.all_eq_true.mp h c hc
  simp [isDecimalPart, hdigit]

theorem DecimalText.all_parts (h : DecimalText cs v) : cs.all isDecimalPart = true := by
  have hrun {ds : List Char} (hd : isDigits ds = true) : ds.all isDecimalPart = true := by
    rw [isDigits, Bool.and_eq_true] at hd
    exact isDecimalPart_digits hd.2
  have hmark {m : Char} (hm : isExponentMark m = true) : isDecimalPart m = true := by
    simp [isDecimalPart, hm]
  cases h with
  | @parts ws point fs es e hw hf hne he =>
    have hpoint : point.all isDecimalPart = true := by
      cases hf with
      | none => rfl
      | point hf => simp [hrun hf, isDecimalPart]
    have hpower : es.all isDecimalPart = true := by
      cases he with
      | none => rfl
      | plain hm hd => simp [hmark hm, hrun hd]
      | plus hm hd => simp [hmark hm, hrun hd, show isDecimalPart '+' = true from rfl]
      | minus hm hd => simp [hmark hm, hrun hd, show isDecimalPart '-' = true from rfl]
    rw [List.all_append, List.all_append, isDecimalPart_digits hw, hpoint, hpower]
    rfl

theorem DecimalText.not_mark (h : DecimalText (withoutUnderscores ds) v) :
    ∀ c ∈ ds, isFloatMark c = false ∧ isDoubleMark c = false := by
  intro c hc
  by_cases hne : c = '_'
  · subst hne
    decide
  · have hmem : c ∈ withoutUnderscores ds := List.mem_filter.mpr ⟨hc, by simpa using hne⟩
    have hpart : isDecimalPart c = true := List.all_eq_true.mp h.all_parts c hmem
    simp only [← Bool.not_eq_true, isFloatMark, isDoubleMark, Bool.or_eq_true, beq_iff_eq]
    constructor
    · rintro (rfl | rfl) <;> cases hpart
    · rintro (rfl | rfl) <;> cases hpart

/-! ### The numbers of the scanner -/

theorem withoutUnderscores_append (cs ds : List Char) :
    withoutUnderscores (cs ++ ds) = withoutUnderscores cs ++ withoutUnderscores ds :=
  List.filter_append cs ds

theorem withoutUnderscores_cons {c : Char} (h : c ≠ '_') (cs : List Char) :
    withoutUnderscores (c :: cs) = c :: withoutUnderscores cs :=
  List.filter_cons_of_pos (by simpa using h)

theorem withoutUnderscores_run (h : isRun ds = true) : isDigits (withoutUnderscores ds) = true := by
  have hall := isRun_all h
  obtain ⟨d, ds, rfl, hd, -⟩ := exists_cons_of_isRun h
  have hfirst := withoutUnderscores_cons (isDigit_ne_underscore hd) ds
  have hdigits : ∀ c ∈ withoutUnderscores (d :: ds), c.isDigit = true := by
    intro c hc
    obtain ⟨hmem, hne⟩ := List.mem_filter.mp hc
    have hnumeral := hall c hmem
    simp only [bne_iff_ne, ne_eq] at hne
    simpa [isNumeral, hne] using hnumeral
  rw [isDigits, Bool.and_eq_true]
  exact ⟨by simp [hfirst], List.all_eq_true.mpr hdigits⟩

theorem Exponent.power (h : Exponent es) : ∃ e, PowerText (withoutUnderscores es) e := by
  have hmark {m : Char} (hm : isExponentMark m = true) : m ≠ '_' := by
    rintro rfl
    cases hm
  cases h with
  | none => exact ⟨0, .none⟩
  | plain hm hd =>
    rw [withoutUnderscores_cons (hmark hm)]
    exact ⟨_, .plain hm (withoutUnderscores_run hd)⟩
  | signed hm hs hd =>
    rw [isSign, Bool.or_eq_true, beq_iff_eq, beq_iff_eq] at hs
    rw [withoutUnderscores_cons (hmark hm)]
    rcases hs with rfl | rfl
    · rw [withoutUnderscores_cons (by decide)]
      exact ⟨_, .plus hm (withoutUnderscores_run hd)⟩
    · rw [withoutUnderscores_cons (by decide)]
      exact ⟨_, .minus hm (withoutUnderscores_run hd)⟩

theorem Mantissa.fraction_text {isFloat : Bool} (h : Mantissa isFloat ds) :
    ∃ ws point fs, withoutUnderscores ds = ws ++ point ∧ ws.all Char.isDigit = true ∧
      FractionText point fs ∧ ws ++ fs ≠ [] := by
  have hrun {ds : List Char} (hd : isRun ds = true) :
      withoutUnderscores ds ≠ [] ∧ (withoutUnderscores ds).all Char.isDigit = true := by
    simpa [isDigits] using withoutUnderscores_run hd
  cases h with
  | whole hd => exact ⟨_, [], [], by simp, (hrun hd).2, .none, by simpa using (hrun hd).1⟩
  | @point ds fs hd hf =>
    refine ⟨_, _, _, ?_, (hrun hd).2, .point (withoutUnderscores_run hf), by simp [(hrun hd).1]⟩
    rw [withoutUnderscores_append, withoutUnderscores_cons (by decide)]
  | @fraction fs hf =>
    refine ⟨[], _, _, ?_, rfl, .point (withoutUnderscores_run hf), (hrun hf).1⟩
    rw [withoutUnderscores_cons (by decide), List.nil_append]

/-- The digits that the scanner takes denote a decimal number. -/
theorem Mantissa.decimal_text {isFloat : Bool} (hd : Mantissa isFloat ds) (he : Exponent es) :
    ∃ v, DecimalText (withoutUnderscores (ds ++ es)) v := by
  obtain ⟨ws, point, fs, hsplit, hw, hf, hne⟩ := hd.fraction_text
  obtain ⟨e, hpower⟩ := he.power
  rw [withoutUnderscores_append, hsplit]
  exact ⟨_, .parts hw hf hne hpower⟩

end DeclFront
