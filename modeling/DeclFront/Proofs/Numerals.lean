import DeclFront.Proofs.TypeSpelling

/-! The grammar of numbers: digits, a fraction, an exponent and a mark. The scanner accepts nothing
else, and it takes such a number as a whole wherever nothing stands behind that goes on with it. -/

namespace DeclFront

variable {c first : Char} {cs rest tail : List Char} {k : TokenKind}

/-! ### Characters -/

/-- The text that follows goes on neither with a word nor with a number. -/
def apart (tail : List Char) : Bool := !tail.head?.any (fun c => isIdentPart c || c == '.')

theorem head?_any_apart {p : Char → Bool} (ht : apart tail = true)
    (hp : ∀ c, p c = true → isIdentPart c = true ∨ c = '.') : tail.head?.any p = false := by
  cases tail with
  | nil => rfl
  | cons c tail =>
    simp only [apart, List.head?_cons, Option.any_some, Bool.not_eq_true', Bool.or_eq_false_iff,
      beq_eq_false_iff_ne] at ht
    rw [List.head?_cons, Option.any_some, ← Bool.not_eq_true]
    intro hc
    rcases hp c hc with hi | hdot
    · simp [ht.1] at hi
    · exact ht.2 hdot

theorem isDigit_solid (h : c.isDigit = true) :
    c ≠ '/' ∧ isBlank c = false ∧ isIdentStart c = false := by
  have hcode : 48 ≤ c.toNat ∧ c.toNat ≤ 57 := by
    simp only [Char.isDigit, Bool.and_eq_true, decide_eq_true_eq, UInt32.le_iff_toNat_le,
      ge_iff_le] at h
    exact h
  refine ⟨?_, ?_, ?_⟩
  · rintro rfl
    revert hcode
    decide
  · simp only [isBlank, inRanges, blankRanges, List.any_cons, List.any_nil, Bool.or_eq_false_iff,
      Bool.and_eq_false_iff, decide_eq_false_iff_not, and_true]
    omega
  · rw [← Bool.not_eq_true]
    intro hs
    simp [(isIdentStart_solid hs).2.2] at h

theorem isDigit_ne_dot (h : c.isDigit = true) : (c == '.') = false := by
  rw [beq_eq_false_iff_ne]
  rintro rfl
  revert h
  decide

theorem isDigit_ne_underscore (h : c.isDigit = true) : c ≠ '_' := by
  rintro rfl
  revert h
  decide

theorem isIdentPart_of_isNumeral (h : isNumeral c = true) : isIdentPart c = true := by
  simp only [isNumeral, Bool.or_eq_true, beq_iff_eq] at h
  rcases h with h | rfl
  · simp [isIdentPart, Char.isAlphanum, h]
  · rfl

theorem isIdentPart_of_isWordPart (h : isWordPart c = true) : isIdentPart c = true := by
  rw [isIdentPart, Bool.or_eq_true]
  exact .inl h

theorem isIdentPart_of_mark (h : isExponentMark c = true ∨ isLongMark c = true ∨
    isFloatMark c = true ∨ isDoubleMark c = true) : isIdentPart c = true := by
  simp only [isExponentMark, isLongMark, isFloatMark, isDoubleMark, Bool.or_eq_true,
    beq_iff_eq] at h
  rcases h with (rfl | rfl) | (rfl | rfl) | (rfl | rfl) | rfl | rfl <;> rfl

/-! ### Numbers -/

/-- A digit, and behind it digits and underscores. -/
def isRun : List Char → Bool
  | [] => false
  | d :: ds => d.isDigit && ds.all isNumeral

/-- Digits with or without a fraction; the flag tells whether there is one. -/
inductive Mantissa : Bool → List Char → Prop
  | whole {ds : List Char} (hd : isRun ds = true) : Mantissa false ds
  | point {ds fs : List Char} (hd : isRun ds = true) (hf : isRun fs = true) :
      Mantissa true (ds ++ '.' :: fs)
  | fraction {fs : List Char} (hf : isRun fs = true) : Mantissa true ('.' :: fs)

inductive Exponent : List Char → Prop
  | none : Exponent []
  | plain {m : Char} {ds : List Char} (hm : isExponentMark m = true) (hd : isRun ds = true) :
      Exponent (m :: ds)
  | signed {m s : Char} {ds : List Char} (hm : isExponentMark m = true) (hs : isSign s = true)
      (hd : isRun ds = true) : Exponent (m :: s :: ds)

/-- The mark behind the digits, and the kind of number that it makes of them. -/
inductive NumberMark : Bool → TokenKind → List Char → Prop
  | int : NumberMark false .intLit []
  | float : NumberMark true .floatLit []
  | long {m : Char} (hm : isLongMark m = true) : NumberMark false .intLit [m]
  | sized {isFloat : Bool} {m : Char} (hm : (isFloatMark m || isDoubleMark m) = true) :
      NumberMark isFloat .floatLit [m]

inductive Numeral : TokenKind → List Char → Prop
  | parts {k : TokenKind} {isFloat : Bool} {ds es ms : List Char} (hd : Mantissa isFloat ds)
      (he : Exponent es) (hm : NumberMark (isFloat || !es.isEmpty) k ms) :
      Numeral k (ds ++ es ++ ms)

theorem takeWhile_run {d : Char} (h : d.isDigit = true) (ds : List Char) :
    isRun ((d :: ds).takeWhile isNumeral) = true := by
  have hd : isNumeral d = true := by simp [isNumeral, h]
  simp [hd, isRun, h, List.all_takeWhile]

theorem exists_cons_of_isRun {ds : List Char} (h : isRun ds = true) :
    ∃ d ds', ds = d :: ds' ∧ d.isDigit = true ∧ ∀ c ∈ ds', isNumeral c = true := by
  cases ds with
  | nil => cases h
  | cons d ds =>
    simp only [isRun, Bool.and_eq_true, List.all_eq_true] at h
    exact ⟨d, ds, rfl, h.1, h.2⟩

theorem isRun_all {ds : List Char} (h : isRun ds = true) : ∀ d ∈ ds, isNumeral d = true := by
  obtain ⟨d, ds, rfl, hd, hds⟩ := exists_cons_of_isRun h
  exact List.forall_mem_cons.mpr ⟨by simp [isNumeral, hd], hds⟩

theorem Split.run_all {p : Char → Bool} {xs : List Char} (taken : List Char)
    (hxs : ∀ x ∈ xs, p x = true) (hr : rest.head?.any p = false) :
    (Split.mk taken (xs ++ rest)).run p = ⟨taken ++ xs, rest⟩ := by
  have hrest : rest.takeWhile p = [] ∧ rest.dropWhile p = rest := by
    cases rest with
    | nil => simp
    | cons c rest =>
      have hc : p c = false := by simpa using hr
      simp [hc]
  simp [Split.run, List.takeWhile_append_of_pos hxs, List.dropWhile_append_of_pos hxs, hrest]

/-! ### What is taken is a number -/

theorem mantissa_sound
    (h : first.isDigit = true ∨ first = '.' ∧ rest.head?.any Char.isDigit = true) :
    Mantissa (mantissa first rest).2 (mantissa first rest).1.taken := by
  rcases h with hd | ⟨rfl, hd⟩
  · have hwhole : isRun (first :: rest.takeWhile isNumeral) = true := by
      simp [isRun, hd, List.all_takeWhile]
    unfold mantissa
    simp only [isDigit_ne_dot hd, Bool.false_eq_true, if_false, Split.run]
    split
    · next d left hleft =>
      by_cases hf : d.isDigit = true
      · have hpoint := Mantissa.point hwhole (takeWhile_run hf left)
        simpa only [hf, if_true, Split.step, hleft, List.cons_append, List.nil_append,
          List.append_assoc] using hpoint
      · simp only [hf, Bool.false_eq_true, if_false]
        exact .whole hwhole
    · exact .whole hwhole
  · cases rest with
    | nil => cases hd
    | cons d rest => exact .fraction (takeWhile_run hd rest)

theorem numberEnd_sound {kind : TokenKind} {s : Split} (h : (numberEnd kind s).outcome = .ok k) :
    k = kind ∧ hasStrayUnderscore s.taken = false ∧ numberEnd kind s = s.accept kind := by
  unfold numberEnd at h ⊢
  by_cases hw : s.sees isWordPart = true
  · simp [hw, Split.reject] at h
  · by_cases hu : hasStrayUnderscore s.taken = true
    · simp [hw, hu, Split.reject] at h
    · simp only [hw, hu, Bool.false_eq_true, if_false, Split.accept, Except.ok.injEq] at h ⊢
      exact ⟨h.symm, trivial, trivial⟩

theorem Split.exists_step {p : Char → Bool} {s : Split} (h : s.sees p = true) :
    ∃ c rest, p c = true ∧ s.rest = c :: rest ∧ s.step = ⟨s.taken ++ [c], rest⟩ := by
  obtain ⟨taken, rest⟩ := s
  cases rest with
  | nil => cases h
  | cons c rest => exact ⟨c, rest, by simpa [Split.sees] using h, rfl, rfl⟩

theorem numberSuffix_sound {isFloat : Bool} {s : Split}
    (h : (numberSuffix isFloat s).outcome = .ok k) :
    ∃ ms, NumberMark isFloat k ms ∧ (numberSuffix isFloat s).taken = s.taken ++ ms ∧
      hasStrayUnderscore (s.taken ++ ms) = false := by
  unfold numberSuffix at h ⊢
  by_cases hl : s.sees isLongMark = true
  · obtain ⟨m, rest, hm, -, hstep⟩ := Split.exists_step hl
    cases isFloat with
    | true => simp [hl, Split.reject] at h
    | false =>
      simp only [hl, if_true, Bool.false_eq_true, if_false, hstep] at h ⊢
      obtain ⟨rfl, hu, he⟩ := numberEnd_sound h
      exact ⟨[m], .long hm, by rw [he]; rfl, hu⟩
  simp only [hl, Bool.false_eq_true, if_false] at h ⊢
  by_cases hs : s.sees (fun c => isFloatMark c || isDoubleMark c) = true
  · obtain ⟨m, rest, hm, -, hstep⟩ := Split.exists_step hs
    simp only [hs, if_true, hstep] at h ⊢
    obtain ⟨rfl, hu, he⟩ := numberEnd_sound h
    exact ⟨[m], .sized hm, by rw [he]; rfl, hu⟩
  · simp only [hs, Bool.false_eq_true, if_false] at h ⊢
    obtain ⟨rfl, hu, he⟩ := numberEnd_sound h
    refine ⟨[], ?_, by rw [he]; simp [Split.accept], by simpa using hu⟩
    cases isFloat with
    | true => exact .float
    | false => exact .int

theorem scanNumber_sound
    (hstart : first.isDigit = true ∨ first = '.' ∧ rest.head?.any Char.isDigit = true)
    (h : (scanNumber first rest).outcome = .ok k) :
    Numeral k (scanNumber first rest).taken ∧
      hasStrayUnderscore (scanNumber first rest).taken = false := by
  have hm := mantissa_sound hstart
  unfold scanNumber at h ⊢
  generalize mantissa first rest = m at hm h ⊢
  obtain ⟨⟨taken, left⟩, isFloat⟩ := m
  dsimp only at hm h ⊢
  by_cases he : (Split.mk taken left).sees isExponentMark = true
  · obtain ⟨e, left, hmark, -, hstep⟩ := Split.exists_step he
    simp only [he, if_true, hstep] at h ⊢
    -- The sign, if there is one, belongs to the exponent.
    have hsign : ∃ sign left', (Split.mk (taken ++ [e]) left).stepIf isSign =
        ⟨taken ++ [e] ++ sign, left'⟩ ∧
        ∀ ds, isRun ds = true → Exponent (e :: (sign ++ ds)) := by
      unfold Split.stepIf
      by_cases hs : (Split.mk (taken ++ [e]) left).sees isSign = true
      · obtain ⟨s, left', hsign, -, hstep'⟩ := Split.exists_step hs
        exact ⟨[s], left', by rw [if_pos hs, hstep'], fun ds hd => .signed hmark hsign hd⟩
      · exact ⟨[], left, by rw [if_neg hs]; simp, fun ds hd => .plain hmark hd⟩
    obtain ⟨sign, left', hsplit, hexp⟩ := hsign
    rw [hsplit] at h ⊢
    by_cases hd : (Split.mk (taken ++ [e] ++ sign) left').sees Char.isDigit = true
    · obtain ⟨d, left'', hdigit, hleft, -⟩ := Split.exists_step hd
      obtain rfl : left' = d :: left'' := hleft
      simp only [hd, if_true] at h ⊢
      obtain ⟨ms, hmarks, htaken, hu⟩ := numberSuffix_sound h
      have hexp := hexp _ (takeWhile_run hdigit left'')
      rw [htaken]
      refine ⟨?_, hu⟩
      have hnum := Numeral.parts hm hexp (show NumberMark _ k ms by simpa using hmarks)
      simpa [Split.run] using hnum
    · rw [if_neg hd] at h
      cases h
  · simp only [he, Bool.false_eq_true, if_false] at h ⊢
    obtain ⟨ms, hmarks, htaken, hu⟩ := numberSuffix_sound h
    rw [htaken]
    refine ⟨?_, hu⟩
    have hnum := Numeral.parts hm .none (show NumberMark _ k ms by simpa using hmarks)
    simpa using hnum

/-! ### A number is taken as a whole -/

theorem mantissa_complete {isFloat : Bool} (h : Mantissa isFloat (first :: cs))
    (hr : rest.head?.any (fun c => isNumeral c || c == '.') = false) :
    mantissa first (cs ++ rest) = (⟨first :: cs, rest⟩, isFloat) := by
  have hnumeral : rest.head?.any isNumeral = false ∧ ∀ more, rest ≠ '.' :: more := by
    cases rest with
    | nil => simp
    | cons c rest => simpa using hr
  obtain ⟨hstop, hdot⟩ := hnumeral
  generalize htext : first :: cs = text at h
  cases h with
  | whole hd =>
    obtain ⟨d, ds, rfl, hdigit, hds⟩ := exists_cons_of_isRun hd
    obtain ⟨rfl, rfl⟩ := List.cons.inj htext
    unfold mantissa
    simp only [Split.run_all _ hds hstop, isDigit_ne_dot hdigit, Bool.false_eq_true, if_false]
    split
    · exact absurd rfl (hdot _)
    · rfl
  | point hd hf =>
    have hnumerals := isRun_all hf
    obtain ⟨d, ds, rfl, hdigit, hds⟩ := exists_cons_of_isRun hd
    obtain ⟨f, fs, rfl, hfdigit, -⟩ := exists_cons_of_isRun hf
    obtain ⟨rfl, rfl⟩ : first = d ∧ cs = ds ++ '.' :: f :: fs := by simpa using htext
    have hwhole : (Split.mk [first] (ds ++ '.' :: (f :: fs ++ rest))).run isNumeral =
        ⟨[first] ++ ds, '.' :: (f :: fs ++ rest)⟩ := Split.run_all _ hds (by rfl)
    have hfraction := Split.run_all ([first] ++ ds ++ ['.']) hnumerals hstop
    unfold mantissa
    simp only [List.append_assoc, List.cons_append] at hwhole hfraction ⊢
    simp only [hwhole, isDigit_ne_dot hdigit, Bool.false_eq_true, if_false, hfdigit, if_true,
      Split.step, List.cons_append, List.append_assoc, hfraction]
    simp
  | fraction hf =>
    obtain ⟨rfl, rfl⟩ := List.cons.inj htext
    unfold mantissa
    simp only [Split.run_all _ (isRun_all hf) hstop, beq_self_eq_true, if_true]
    rfl

theorem NumberMark.head?_any {isFloat : Bool} {ms : List Char} {p : Char → Bool}
    (h : NumberMark isFloat k ms) (ht : apart tail = true)
    (hp : ∀ c, p c = true → isIdentPart c = true ∨ c = '.')
    (hmarks : ['L', 'l', 'f', 'F', 'd', 'D'].any p = false) :
    (ms ++ tail).head?.any p = false := by
  have hmark : ∀ m ∈ ['L', 'l', 'f', 'F', 'd', 'D'], p m = false := by
    simpa only [List.any_eq_false, Bool.not_eq_true] using hmarks
  cases h with
  | int => exact head?_any_apart ht hp
  | float => exact head?_any_apart ht hp
  | @long m hm =>
    refine hmark m ?_
    simp only [isLongMark, Bool.or_eq_true, beq_iff_eq] at hm
    rcases hm with rfl | rfl <;> simp
  | @sized _ m hm =>
    refine hmark m ?_
    simp only [isFloatMark, isDoubleMark, Bool.or_eq_true, beq_iff_eq] at hm
    rcases hm with (rfl | rfl) | rfl | rfl <;> simp

theorem numberEnd_complete {s : Split} (ht : apart s.rest = true)
    (hu : hasStrayUnderscore s.taken = false) : numberEnd k s = s.accept k := by
  have hw : s.sees isWordPart = false :=
    head?_any_apart ht (fun c hc => .inl (isIdentPart_of_isWordPart hc))
  simp [numberEnd, hw, hu]

theorem numberSuffix_complete {isFloat : Bool} {ms taken : List Char} (h : NumberMark isFloat k ms)
    (ht : apart tail = true) (hu : hasStrayUnderscore (taken ++ ms) = false) :
    numberSuffix isFloat ⟨taken, ms ++ tail⟩ = (Split.mk (taken ++ ms) tail).accept k := by
  have hnone : tail.head?.any isLongMark = false ∧
      tail.head?.any (fun c => isFloatMark c || isDoubleMark c) = false := by
    refine ⟨head?_any_apart ht (fun c hc => ?_), head?_any_apart ht (fun c hc => ?_)⟩
    · exact .inl (isIdentPart_of_mark (.inr (.inl hc)))
    · rw [Bool.or_eq_true] at hc
      exact .inl (isIdentPart_of_mark (.inr (.inr hc)))
  have hend := numberEnd_complete (k := k) (s := ⟨taken ++ ms, tail⟩) ht hu
  unfold numberSuffix
  cases h with
  | int => simpa [Split.sees, hnone] using hend
  | float => simpa [Split.sees, hnone] using hend
  | long hm => simpa [Split.sees, hm, Split.step] using hend
  | @sized _ m hm =>
    have hlong : isLongMark m = false := by
      simp only [isFloatMark, isDoubleMark, Bool.or_eq_true, beq_iff_eq] at hm
      rcases hm with (rfl | rfl) | rfl | rfl <;> rfl
    rw [Bool.or_eq_true] at hm
    simpa [Split.sees, hlong, hm, Split.step] using hend

theorem Exponent.head?_any {es : List Char} {p : Char → Bool} (h : Exponent es)
    (hr : rest.head?.any p = false) (hmarks : ['e', 'E'].any p = false) :
    (es ++ rest).head?.any p = false := by
  have hmark {m : Char} (hm : isExponentMark m = true) : p m = false := by
    simp only [List.any_eq_false, Bool.not_eq_true] at hmarks
    exact hmarks m (by simpa [isExponentMark] using hm)
  cases h with
  | none => exact hr
  | plain hm _ => exact hmark hm
  | signed hm _ _ => exact hmark hm

/-- The exponent is read as a whole, and what is left is the mark. -/
theorem Exponent.split {m : Char} {es : List Char} (h : Exponent (m :: es))
    (hr : rest.head?.any isNumeral = false) (taken : List Char) :
    ((Split.mk (taken ++ [m]) (es ++ rest)).stepIf isSign).sees Char.isDigit = true ∧
      ((Split.mk (taken ++ [m]) (es ++ rest)).stepIf isSign).run isNumeral =
        ⟨taken ++ m :: es, rest⟩ := by
  have hhead {ds : List Char} (hd : isRun ds = true) :
      (ds ++ rest).head?.any Char.isDigit = true ∧ (ds ++ rest).head?.any isSign = false := by
    obtain ⟨d, ds, rfl, hdigit, -⟩ := exists_cons_of_isRun hd
    refine ⟨hdigit, ?_⟩
    simp only [List.cons_append, List.head?_cons, Option.any_some, isSign, Bool.or_eq_false_iff,
      beq_eq_false_iff_ne]
    constructor <;> rintro rfl <;> simp at hdigit
  cases h with
  | plain hm hd =>
    have hsplit : (Split.mk (taken ++ [m]) (es ++ rest)).stepIf isSign =
        ⟨taken ++ [m], es ++ rest⟩ := by
      simp only [Split.stepIf, Split.sees, (hhead hd).2, Bool.false_eq_true, if_false]
    rw [hsplit, Split.run_all _ (isRun_all hd) hr]
    exact ⟨(hhead hd).1, by simp⟩
  | @signed _ s ds hm hs hd =>
    have hsplit : (Split.mk (taken ++ [m]) (s :: ds ++ rest)).stepIf isSign =
        ⟨taken ++ [m] ++ [s], ds ++ rest⟩ := by
      simp [Split.stepIf, Split.sees, hs, Split.step]
    rw [hsplit, Split.run_all _ (isRun_all hd) hr]
    exact ⟨(hhead hd).1, by simp⟩

theorem Mantissa.ne_nil {isFloat : Bool} {ds : List Char} (h : Mantissa isFloat ds) : ds ≠ [] := by
  cases h with
  | whole hd =>
    rintro rfl
    cases hd
  | point _ _ => simp
  | fraction _ => simp

theorem scanNumber_complete (h : Numeral k (first :: cs)) (ht : apart tail = true)
    (hu : hasStrayUnderscore (first :: cs) = false) :
    scanNumber first (cs ++ tail) = (Split.mk (first :: cs) tail).accept k := by
  generalize htext : first :: cs = text at h hu ⊢
  cases h with
  | @parts isFloat ds es ms hd he hm =>
    obtain ⟨d, ds, rfl⟩ := List.exists_cons_of_ne_nil hd.ne_nil
    obtain ⟨rfl, rfl⟩ : first = d ∧ cs = ds ++ (es ++ ms) := by simpa using htext
    -- Behind the digits stands neither a digit nor a point, behind the exponent no digit.
    have hdigits : (ms ++ tail).head?.any (fun c => isNumeral c || c == '.') = false := by
      refine hm.head?_any ht (fun c hc => ?_) (by rfl)
      rw [Bool.or_eq_true, beq_iff_eq] at hc
      exact hc.imp_left isIdentPart_of_isNumeral
    have hnumeral : (ms ++ tail).head?.any isNumeral = false :=
      hm.head?_any ht (fun c hc => .inl (isIdentPart_of_isNumeral hc)) (by rfl)
    have hmantissa := mantissa_complete hd (he.head?_any hdigits (by rfl))
    have hmarks := numberSuffix_complete hm ht hu
    unfold scanNumber
    simp only [List.append_assoc, List.cons_append] at hmantissa hmarks ⊢
    rw [hmantissa]
    cases es with
    | nil =>
      have hnone : (Split.mk (first :: ds) (ms ++ tail)).sees isExponentMark = false :=
        hm.head?_any ht (fun c hc => .inl (isIdentPart_of_mark (.inl hc))) (by rfl)
      simpa [hnone] using hmarks
    | cons m es =>
      have hmark : isExponentMark m = true := by cases he <;> assumption
      have hsees : (Split.mk (first :: ds) (m :: es ++ (ms ++ tail))).sees isExponentMark = true :=
        hmark
      have hstep : (Split.mk (first :: ds) (m :: es ++ (ms ++ tail))).step =
          ⟨first :: ds ++ [m], es ++ (ms ++ tail)⟩ := rfl
      obtain ⟨hdigit, hrun⟩ := he.split hnumeral (first :: ds)
      dsimp only
      rw [if_pos hsees, hstep, if_pos hdigit, hrun]
      simpa using hmarks

theorem Numeral.start (h : Numeral k (first :: cs)) :
    first.isDigit = true ∨ first = '.' ∧ ∃ d ds, cs = d :: ds ∧ d.isDigit = true := by
  generalize htext : first :: cs = text at h
  cases h with
  | @parts isFloat ds es ms hd he hm =>
    cases hd with
    | whole hd =>
      obtain ⟨d, ds, rfl, hdigit, -⟩ := exists_cons_of_isRun hd
      obtain ⟨rfl, -⟩ := List.cons.inj htext
      exact .inl hdigit
    | point hd _ =>
      obtain ⟨d, ds, rfl, hdigit, -⟩ := exists_cons_of_isRun hd
      obtain ⟨rfl, -⟩ := List.cons.inj htext
      exact .inl hdigit
    | fraction hf =>
      obtain ⟨d, ds, rfl, hdigit, -⟩ := exists_cons_of_isRun hf
      obtain ⟨rfl, rfl⟩ : first = '.' ∧ cs = d :: (ds ++ (es ++ ms)) := by simpa using htext
      exact .inr ⟨rfl, d, _, rfl, hdigit⟩

end DeclFront
