import DeclFront.Proofs.Respacing
import Mathlib.Data.List.Chain

/-! Underscores in numbers. They group digits, so each of them should stand between two digits. The
scanner sees to that at the end of a number and beside its point, but not in front of a letter: an
exponent or a mark may follow an underscore. The numbers that are accepted are described exactly, and
so is which of them have all their underscores between digits. -/

namespace DeclFront

variable {k : TokenKind} {cs ds es ms : List Char} {run : List Char → Bool} {isFloat : Bool}

/-! ### The grammar -/

/-- Digits and underscores, with a digit at both ends. -/
def isTidyRun (ds : List Char) : Bool :=
  ds.head?.any Char.isDigit && ds.getLast?.any Char.isDigit && ds.all isNumeral

/-- Digits in front of some text. Where nothing follows they are tidy, and where a letter follows
they are what `run` asks for. -/
def runBefore (run : List Char → Bool) (next ds : List Char) : Bool :=
  if next.isEmpty then isTidyRun ds else run ds

/-- Digits with or without a fraction. In front of the point they are tidy. -/
inductive MantissaText (run : List Char → Bool) : Bool → List Char → Prop
  | whole {ds : List Char} (hd : run ds = true) : MantissaText run false ds
  | point {ds fs : List Char} (hd : isTidyRun ds = true) (hf : run fs = true) :
      MantissaText run true (ds ++ '.' :: fs)
  | fraction {fs : List Char} (hf : run fs = true) : MantissaText run true ('.' :: fs)

inductive ExponentText (run : List Char → Bool) : List Char → Prop
  | none : ExponentText run []
  | plain {m : Char} {ds : List Char} (hm : isExponentMark m = true) (hd : run ds = true) :
      ExponentText run (m :: ds)
  | signed {m s : Char} {ds : List Char} (hm : isExponentMark m = true) (hs : isSign s = true)
      (hd : run ds = true) : ExponentText run (m :: s :: ds)

/-- The text of a number, given what digits in front of a letter have to be. -/
inductive NumberText (run : List Char → Bool) : TokenKind → List Char → Prop
  | parts {k : TokenKind} {isFloat : Bool} {ds es ms : List Char}
      (hd : MantissaText (runBefore run (es ++ ms)) isFloat ds)
      (he : ExponentText (runBefore run ms) es) (hm : NumberMark (isFloat || !es.isEmpty) k ms) :
      NumberText run k (ds ++ es ++ ms)

/-! ### Digits -/

theorem isTidyRun_iff : isTidyRun ds = true ↔ isRun ds = true ∧ ds.getLast? ≠ some '_' := by
  cases ds with
  | nil => simp [isTidyRun, isRun]
  | cons d ds =>
    obtain ⟨init, last, hlast⟩ := List.eq_nil_or_concat (d :: ds) |>.resolve_left (by simp)
    have hget : (d :: ds).getLast? = some last := by rw [hlast]; simp
    have hmem : last ∈ d :: ds := by rw [hlast]; simp
    simp only [isTidyRun, isRun, hget, List.head?_cons, Option.any_some, Bool.and_eq_true, ne_eq,
      Option.some.injEq, List.all_cons]
    constructor
    · rintro ⟨⟨hd, hl⟩, -, hds⟩
      exact ⟨⟨hd, hds⟩, isDigit_ne_underscore hl⟩
    · rintro ⟨⟨hd, hds⟩, hl⟩
      have hnumeral : isNumeral d = true := by simp [isNumeral, hd]
      have hall : isNumeral last = true := by
        rcases List.mem_cons.mp hmem with rfl | hmem
        · exact hnumeral
        · exact List.all_eq_true.mp hds last hmem
      refine ⟨⟨hd, ?_⟩, hnumeral, hds⟩
      simpa [isNumeral, hl] using hall

theorem isRun_of_isTidyRun (h : isTidyRun ds = true) : isRun ds = true := (isTidyRun_iff.mp h).1

/-! ### Neighbours -/

/-- No underscore stands beside a point. -/
def OffPoint (a b : Char) : Prop := ¬ (a = '_' ∧ b = '.') ∧ ¬ (a = '.' ∧ b = '_')

/-- No underscore stands in front of a letter. -/
def OffLetter (a b : Char) : Prop := ¬ (a = '_' ∧ b.isAlpha = true)

theorem hasPair_cons_cons (a b x y : Char) (cs : List Char) :
    hasPair a b (x :: y :: cs) = false ↔
      ¬ (x = a ∧ y = b) ∧ hasPair a b (y :: cs) = false := by
  have hzip : (x :: y :: cs).zip (x :: y :: cs).tail = (x, y) :: (y :: cs).zip cs := rfl
  rw [hasPair, hzip, List.contains_cons, Bool.or_eq_false_iff, beq_eq_false_iff_ne, ne_eq,
    Prod.mk.injEq, eq_comm, @eq_comm _ b]
  rfl

theorem isChain_offPoint_iff (cs : List Char) :
    cs.IsChain OffPoint ↔ hasPair '_' '.' cs = false ∧ hasPair '.' '_' cs = false := by
  induction cs with
  | nil => simp [hasPair]
  | cons x cs ih =>
    cases cs with
    | nil => simp [hasPair]
    | cons y cs =>
      rw [List.isChain_cons_cons, ih, hasPair_cons_cons, hasPair_cons_cons, OffPoint]
      tauto

theorem hasStrayUnderscore_eq_false_iff (cs : List Char) :
    hasStrayUnderscore cs = false ↔ cs.getLast? ≠ some '_' ∧ cs.IsChain OffPoint := by
  rw [isChain_offPoint_iff]
  simp only [hasStrayUnderscore, Bool.or_eq_false_iff, beq_eq_false_iff_ne]
  tauto

/-- What two neighbours in a number may always be. -/
structure Neighbours (R : Char → Char → Prop) : Prop where
  numerals : ∀ a b, isNumeral a = true → isNumeral b = true → R a b
  digit : ∀ d c, d.isDigit = true → R d c
  point : ∀ d, d.isDigit = true → R '.' d
  letter : ∀ m, m.isAlpha = true → ∀ c, R m c
  sign : ∀ s, isSign s = true → ∀ c, R s c

theorem neighbours_offPoint : Neighbours OffPoint where
  numerals a b ha hb := by
    refine ⟨?_, ?_⟩
    · rintro ⟨rfl, rfl⟩
      cases hb
    · rintro ⟨rfl, rfl⟩
      cases ha
  digit d c hd := by
    refine ⟨?_, ?_⟩ <;> rintro ⟨rfl, rfl⟩ <;> cases hd
  point d hd := by
    refine ⟨?_, ?_⟩ <;> rintro ⟨h, rfl⟩
    · cases h
    · cases hd
  letter m hm c := by
    refine ⟨?_, ?_⟩ <;> rintro ⟨rfl, rfl⟩ <;> cases hm
  sign s hs c := by
    refine ⟨?_, ?_⟩ <;> rintro ⟨rfl, rfl⟩ <;> cases hs

theorem isNumeral_isAlpha {c : Char} (h : isNumeral c = true) : c.isAlpha = false := by
  rw [← Bool.not_eq_true]
  intro ha
  simp only [isNumeral, Bool.or_eq_true, beq_iff_eq] at h
  rcases h with hd | rfl
  · have hsolid := (isDigit_solid hd).2.2
    simp [isIdentStart, ha] at hsolid
  · cases ha

theorem neighbours_offLetter : Neighbours OffLetter where
  numerals a b _ hb := by
    rintro ⟨-, h⟩
    simp [isNumeral_isAlpha hb] at h
  digit d c hd := by
    rintro ⟨rfl, -⟩
    cases hd
  point d hd := by
    rintro ⟨h, -⟩
    cases h
  letter m hm c := by
    rintro ⟨rfl, -⟩
    cases hm
  sign s hs c := by
    rintro ⟨rfl, -⟩
    cases hs

/-! ### Neighbours in a number -/

theorem isChain_run {R : Char → Char → Prop} (hR : Neighbours R) (h : isRun ds = true) :
    ds.IsChain R := by
  have hpairs : ds.Pairwise R := List.pairwise_of_forall_mem_list (fun a ha b hb =>
    hR.numerals a b (isRun_all h a ha) (isRun_all h b hb))
  exact hpairs.isChain

theorem getLast?_cons_run (c : Char) (h : isRun ds = true) : (c :: ds).getLast? = ds.getLast? := by
  obtain ⟨d, ds, rfl, -, -⟩ := exists_cons_of_isRun h
  simp

theorem isChain_point {R : Char → Char → Prop} (hR : Neighbours R) (h : isRun ds = true) :
    ('.' :: ds).IsChain R := by
  have hchain := isChain_run hR h
  obtain ⟨d, ds, rfl, hd, -⟩ := exists_cons_of_isRun h
  exact List.isChain_cons_cons.mpr ⟨hR.point d hd, hchain⟩

theorem isChain_cons_letter {R : Char → Char → Prop} {m : Char} (hm : ∀ c, R m c)
    (h : ds.IsChain R) : (m :: ds).IsChain R := by
  cases ds with
  | nil => exact List.isChain_singleton m
  | cons d ds => exact List.isChain_cons_cons.mpr ⟨hm d, h⟩

theorem isAlpha_of_isExponentMark {m : Char} (h : isExponentMark m = true) : m.isAlpha = true := by
  simp only [isExponentMark, Bool.or_eq_true, beq_iff_eq] at h
  rcases h with rfl | rfl <;> rfl

theorem NumberMark.isAlpha (h : NumberMark isFloat k ms) : ∀ m ∈ ms, m.isAlpha = true := by
  intro m hm
  cases h with
  | int => cases hm
  | float => cases hm
  | long hl =>
    obtain rfl := List.mem_singleton.mp hm
    simp only [isLongMark, Bool.or_eq_true, beq_iff_eq] at hl
    rcases hl with rfl | rfl <;> rfl
  | sized hs =>
    obtain rfl := List.mem_singleton.mp hm
    simp only [isFloatMark, isDoubleMark, Bool.or_eq_true, beq_iff_eq] at hs
    rcases hs with (rfl | rfl) | rfl | rfl <;> rfl

theorem NumberMark.isChain {R : Char → Char → Prop} (h : NumberMark isFloat k ms) :
    ms.IsChain R := by
  cases h with
  | int => exact List.isChain_nil
  | float => exact List.isChain_nil
  | long _ => exact List.isChain_singleton _
  | sized _ => exact List.isChain_singleton _

theorem MantissaText.isChain {R : Char → Char → Prop} (hR : Neighbours R)
    (hrun : ∀ ds, run ds = true → isRun ds = true) (h : MantissaText run isFloat ds) :
    ds.IsChain R := by
  cases h with
  | whole hd => exact isChain_run hR (hrun _ hd)
  | @point ds fs hd hf =>
    refine List.isChain_append.mpr
      ⟨isChain_run hR (isRun_of_isTidyRun hd), isChain_point hR (hrun _ hf), ?_⟩
    intro a ha c _
    have hlast : ds.getLast?.any Char.isDigit = true := by
      simp only [isTidyRun, Bool.and_eq_true] at hd
      exact hd.1.2
    rw [Option.mem_def.mp ha] at hlast
    exact hR.digit a c hlast
  | fraction hf => exact isChain_point hR (hrun _ hf)

theorem ExponentText.isChain {R : Char → Char → Prop} (hR : Neighbours R)
    (hrun : ∀ ds, run ds = true → isRun ds = true) (h : ExponentText run es) : es.IsChain R := by
  cases h with
  | none => exact List.isChain_nil
  | plain hm hd =>
    have hletter := hR.letter _ (isAlpha_of_isExponentMark hm)
    exact isChain_cons_letter hletter (isChain_run hR (hrun _ hd))
  | signed hm hs hd =>
    have hletter := hR.letter _ (isAlpha_of_isExponentMark hm)
    have hsign := hR.sign _ hs
    exact isChain_cons_letter hletter (isChain_cons_letter hsign (isChain_run hR (hrun _ hd)))

/-- A number ends its digits with the last of its runs. -/
theorem MantissaText.getLast?_eq (hrun : ∀ ds, run ds = true → isRun ds = true)
    (h : MantissaText run isFloat ds) : ∃ r, run r = true ∧ ds.getLast? = r.getLast? := by
  cases h with
  | whole hd => exact ⟨ds, hd, rfl⟩
  | @point ds fs hd hf =>
    refine ⟨fs, hf, ?_⟩
    have hne : fs.getLast? ≠ Option.none := by
      obtain ⟨d, fs, rfl, -, -⟩ := exists_cons_of_isRun (hrun _ hf)
      simp
    obtain ⟨c, hc⟩ := Option.ne_none_iff_exists'.mp hne
    rw [List.getLast?_append, getLast?_cons_run '.' (hrun _ hf), hc]
    rfl
  | fraction hf => exact ⟨_, hf, getLast?_cons_run '.' (hrun _ hf)⟩

theorem ExponentText.getLast?_eq (hrun : ∀ ds, run ds = true → isRun ds = true)
    (h : ExponentText run es) (hne : es ≠ []) : ∃ r, run r = true ∧ es.getLast? = r.getLast? := by
  cases h with
  | none => exact absurd rfl hne
  | plain hm hd => exact ⟨_, hd, getLast?_cons_run _ (hrun _ hd)⟩
  | @signed m s ds hm hs hd =>
    refine ⟨ds, hd, ?_⟩
    rw [List.getLast?_cons_cons, getLast?_cons_run s (hrun _ hd)]

theorem MantissaText.mantissa (hrun : ∀ ds, run ds = true → isRun ds = true)
    (h : MantissaText run isFloat ds) : Mantissa isFloat ds := by
  cases h with
  | whole hd => exact .whole (hrun _ hd)
  | point hd hf => exact .point (isRun_of_isTidyRun hd) (hrun _ hf)
  | fraction hf => exact .fraction (hrun _ hf)

theorem ExponentText.exponent (hrun : ∀ ds, run ds = true → isRun ds = true)
    (h : ExponentText run es) : Exponent es := by
  cases h with
  | none => exact .none
  | plain hm hd => exact .plain hm (hrun _ hd)
  | signed hm hs hd => exact .signed hm hs (hrun _ hd)

theorem NumberMark.head_isAlpha (hm : NumberMark isFloat k ms) :
    ∀ c ∈ ms.head?, c.isAlpha = true :=
  fun c hc => hm.isAlpha c (List.mem_of_mem_head? hc)

/-- What follows the digits of a number, if anything does, is a letter. -/
theorem Exponent.head_isAlpha (he : Exponent es) (hm : NumberMark isFloat k ms) :
    ∀ c ∈ (es ++ ms).head?, c.isAlpha = true := by
  cases he with
  | none => exact hm.head_isAlpha
  | plain he _ =>
    intro c hc
    cases hc
    exact isAlpha_of_isExponentMark he
  | signed he _ _ =>
    intro c hc
    cases hc
    exact isAlpha_of_isExponentMark he

theorem runBefore_isRun {next : List Char} (hrun : ∀ ds, run ds = true → isRun ds = true)
    (ds : List Char) (h : runBefore run next ds = true) : isRun ds = true := by
  unfold runBefore at h
  by_cases hn : next.isEmpty = true
  · rw [if_pos hn] at h
    exact isRun_of_isTidyRun h
  · rw [if_neg hn] at h
    exact hrun ds h

theorem runBefore_of_head {c : Char} {next : List Char} (h : runBefore run next ds = true)
    (hc : c ∈ next.head?) : run ds = true := by
  cases next with
  | nil => cases hc
  | cons _ _ => exact h

theorem NumberText.isChain {R : Char → Char → Prop} (hR : Neighbours R)
    (hrun : ∀ ds, run ds = true → isRun ds = true)
    (hbefore : ∀ ds, run ds = true → ∀ a ∈ ds.getLast?, ∀ c, c.isAlpha = true → R a c)
    (h : NumberText run k cs) : cs.IsChain R := by
  cases h with
  | @parts isFloat ds es ms hd he hm =>
    have hnext := (he.exponent (runBefore_isRun hrun)).head_isAlpha hm
    have htail : (es ++ ms).IsChain R := by
      refine List.isChain_append.mpr ⟨he.isChain hR (runBefore_isRun hrun), hm.isChain, ?_⟩
      intro a ha c hc
      have hne : es ≠ [] := by
        rintro rfl
        cases ha
      obtain ⟨r, hr, hlast⟩ := he.getLast?_eq (runBefore_isRun hrun) hne
      exact hbefore r (runBefore_of_head hr hc) a (hlast ▸ ha) c (hm.head_isAlpha c hc)
    rw [List.append_assoc]
    refine List.isChain_append.mpr ⟨hd.isChain hR (runBefore_isRun hrun), htail, ?_⟩
    intro a ha c hc
    obtain ⟨r, hr, hlast⟩ := hd.getLast?_eq (runBefore_isRun hrun)
    exact hbefore r (runBefore_of_head hr hc) a (hlast ▸ ha) c (hnext c hc)

theorem isTidyRun_getLast? (h : isTidyRun ds = true) : ds.getLast? ≠ some '_' :=
  (isTidyRun_iff.mp h).2

theorem NumberText.getLast?_ne (hrun : ∀ ds, run ds = true → isRun ds = true)
    (h : NumberText run k cs) : cs.getLast? ≠ some '_' := by
  cases h with
  | @parts isFloat ds es ms hd he hm =>
    cases ms using List.reverseRecOn with
    | nil =>
      cases es using List.reverseRecOn with
      | nil =>
        obtain ⟨r, hr, hlast⟩ := hd.getLast?_eq (runBefore_isRun hrun)
        simpa [hlast] using isTidyRun_getLast? hr
      | append_singleton es e =>
        obtain ⟨r, hr, hlast⟩ := he.getLast?_eq (runBefore_isRun hrun) (by simp)
        have htidy := isTidyRun_getLast? hr
        rw [← hlast] at htidy
        simpa using htidy
    | append_singleton ms m =>
      have hletter := hm.isAlpha m (by simp)
      intro hlast
      obtain rfl : m = '_' := by simpa using hlast
      cases hletter

/-! ### What the scanner takes -/

theorem NumberText.numeral (hrun : ∀ ds, run ds = true → isRun ds = true)
    (h : NumberText run k cs) : Numeral k cs := by
  cases h with
  | parts hd he hm =>
    exact .parts (hd.mantissa (runBefore_isRun hrun)) (he.exponent (runBefore_isRun hrun)) hm

/-- A number without stray underscores, in which digits in front of a letter are what `run` asks
for. -/
theorem Numeral.text (h : Numeral k cs) (hlast : cs.getLast? ≠ some '_')
    (hpoint : cs.IsChain OffPoint)
    (hrun : ∀ xs ds c ys, cs = xs ++ (ds ++ c :: ys) → isRun ds = true → c.isAlpha = true →
      run ds = true) : NumberText run k cs := by
  cases h with
  | @parts isFloat ds es ms hd he hm =>
    have hbefore : ∀ xs r next, ds ++ es ++ ms = xs ++ (r ++ next) → isRun r = true →
        (∀ c ∈ next.head?, c.isAlpha = true) → runBefore run next r = true := by
      intro xs r next htext hr hnext
      cases next with
      | nil =>
        -- An underscore at the end of the last run would end the whole number.
        refine isTidyRun_iff.mpr ⟨hr, fun hr' => hlast ?_⟩
        rw [htext, List.append_nil, List.getLast?_append, hr']
        rfl
      | cons c next => exact hrun xs r c next htext hr (hnext c rfl)
    have hnext := he.head_isAlpha hm
    refine .parts ?_ ?_ hm
    · cases hd with
      | whole hd => exact .whole (hbefore [] ds (es ++ ms) (by simp) hd hnext)
      | @point ds fs hd hf =>
        refine .point ?_ (hbefore (ds ++ ['.']) fs (es ++ ms) (by simp) hf hnext)
        refine isTidyRun_iff.mpr ⟨hd, fun hds => ?_⟩
        have hjoint : ∀ a ∈ ds.getLast?, OffPoint a '.' := by
          have hsplit : ds ++ '.' :: fs ++ es ++ ms = ds ++ '.' :: (fs ++ es ++ ms) := by simp
          rw [hsplit] at hpoint
          exact fun a ha => (List.isChain_append.mp hpoint).2.2 a ha '.' rfl
        exact (hjoint '_' hds).1 ⟨rfl, rfl⟩
      | @fraction fs hf => exact .fraction (hbefore ['.'] fs (es ++ ms) (by simp) hf hnext)
    · cases he with
      | none => exact .none
      | @plain e es he hd =>
        exact .plain he (hbefore (ds ++ [e]) es ms (by simp) hd hm.head_isAlpha)
      | @signed e s es he hs hd =>
        exact .signed he hs (hbefore (ds ++ [e, s]) es ms (by simp) hd hm.head_isAlpha)

/-- The numbers that the scanner takes: digits in front of a letter may end with underscores. -/
theorem numberText_isRun_iff :
    NumberText isRun k cs ↔ Numeral k cs ∧ hasStrayUnderscore cs = false := by
  rw [hasStrayUnderscore_eq_false_iff]
  constructor
  · intro h
    refine ⟨h.numeral (fun _ hd => hd), h.getLast?_ne (fun _ hd => hd), ?_⟩
    refine h.isChain neighbours_offPoint (fun _ hd => hd) (fun ds hd a ha c hc => ?_)
    have hnumeral := isRun_all hd a (List.mem_of_mem_getLast? ha)
    refine ⟨?_, ?_⟩
    · rintro ⟨-, rfl⟩
      cases hc
    · rintro ⟨rfl, -⟩
      cases hnumeral
  · rintro ⟨hn, hlast, hpoint⟩
    exact hn.text hlast hpoint (fun _ _ _ _ _ hd _ => hd)

/-- Among them, those with every underscore between digits have none in front of a letter. -/
theorem numberText_isTidyRun_iff (h : NumberText isRun k cs) :
    NumberText isTidyRun k cs ↔ cs.IsChain OffLetter := by
  obtain ⟨hn, hu⟩ := numberText_isRun_iff.mp h
  obtain ⟨hlast, hpoint⟩ := (hasStrayUnderscore_eq_false_iff cs).mp hu
  constructor
  · intro ht
    refine ht.isChain neighbours_offLetter (fun _ hd => isRun_of_isTidyRun hd) ?_
    rintro ds hd a ha c - ⟨rfl, -⟩
    exact isTidyRun_getLast? hd ha
  · intro hletter
    refine hn.text hlast hpoint (fun xs ds c ys htext hd hc => ?_)
    refine isTidyRun_iff.mpr ⟨hd, fun hds => ?_⟩
    rw [htext] at hletter
    have hjoint := (List.isChain_append.mp (List.isChain_append.mp hletter).2.1).2.2
    exact hjoint '_' hds c rfl ⟨rfl, hc⟩

/-- A text of the grammar is lexed as one number. -/
theorem NumberText.lex_eq {text : String} (h : NumberText isRun k text.toList) :
    lex text = .ok [⟨k, text, ⟨0, text.utf8ByteSize⟩⟩, endToken text] := by
  obtain ⟨hn, hu⟩ := numberText_isRun_iff.mp h
  exact (Lexeme.number hn hu).lex_eq

/-- The numbers of a text, exactly: digits, a fraction, an exponent and a mark, where every
underscore stands between digits but for those at the end of digits in front of a letter. A number
has all of them between digits if and only if none stands in front of a letter. Every number of that
form is the only token of its own text. -/
theorem lexed_numbers {source : String} {tokens : List Token} {t : Token}
    (h : lex source = .ok tokens) (ht : t ∈ tokens) (hk : t.kind = .intLit ∨ t.kind = .floatLit) :
    NumberText isRun t.kind t.text.toList ∧
      (NumberText isTidyRun t.kind t.text.toList ↔ t.text.toList.IsChain OffLetter) ∧
      ∀ kind (text : String), NumberText isRun kind text.toList →
        lex text = .ok [⟨kind, text, ⟨0, text.utf8ByteSize⟩⟩, endToken text] := by
  have hend : t.kind ≠ .eof := by
    rcases hk with hk | hk <;> simp [hk]
  have hnumber : NumberText isRun t.kind t.text.toList :=
    numberText_isRun_iff.mpr ((lex_lexeme h ht hend).numeral hk)
  exact ⟨hnumber, numberText_isTidyRun_iff hnumber, fun _ _ htext => htext.lex_eq⟩

/-- Underscores in the digits, the fraction and the exponent, and a mark. -/
theorem lexed_numbers_grouped :
    let t : Token := ⟨.floatLit, "1_0.2_5e-1_0f", ⟨1, 14⟩⟩
    lex " 1_0.2_5e-1_0f" = .ok [t, endToken " 1_0.2_5e-1_0f"] ∧
      NumberText isRun t.kind t.text.toList ∧
      (NumberText isTidyRun t.kind t.text.toList ↔ t.text.toList.IsChain OffLetter) := by
  intro t
  have hlex : lex " 1_0.2_5e-1_0f" = .ok [t, endToken " 1_0.2_5e-1_0f"] :=
    lex_of_toOption (by decide +kernel)
  have hnumber := lexed_numbers hlex List.mem_cons_self (.inr rfl)
  exact ⟨hlex, hnumber.1, hnumber.2.1⟩

/-- The underscore stands between a digit and a letter. -/
theorem lex_underscore_before_mark :
    lex "1_L" = .ok [⟨.intLit, "1_L", ⟨0, 3⟩⟩, endToken "1_L"] ∧
      ¬ NumberText isTidyRun .intLit "1_L".toList := by
  have hnumeral : Numeral .intLit (['1', '_'] ++ [] ++ ['L']) :=
    .parts (.whole rfl) .none (.long rfl)
  have htext : NumberText isRun .intLit "1_L".toList :=
    numberText_isRun_iff.mpr ⟨hnumeral, rfl⟩
  refine ⟨lex_of_toOption (by decide +kernel), fun htidy => ?_⟩
  have hletter := (numberText_isTidyRun_iff htext).mp htidy
  have hpair : OffLetter '_' 'L' := by
    have hchain : ['1', '_', 'L'].IsChain OffLetter := hletter
    simp only [List.isChain_cons_cons] at hchain
    exact hchain.2.1
  exact hpair ⟨rfl, rfl⟩

end DeclFront
