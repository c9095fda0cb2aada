import DeclFront.Proofs.Stepping
import DeclFront.Proofs.Tiling
import DeclFront.Proofs.TypeExactness

/-! The spelling of a type is canonical. Read as a text, it gives the same type again, and every type
that is read from a text is of the form for which this holds. -/

namespace DeclFront

/-! ### Well-formed types -/

/-- `[A-Za-z_$][A-Za-z0-9_$]*`, and no reserved word. -/
def isIdentifier (s : String) : Bool :=
  match s.toList with
  | [] => false
  | c :: cs => isIdentStart c && cs.all isIdentPart && (Keyword.ofSpelling? s).isNone

def Name.isWellFormed (n : Name) : Bool := !n.segments.isEmpty && n.segments.all isIdentifier

mutual

/-- Names are made of identifiers, and type arguments are reference types, at least one of them. -/
def TypeNode.isWellFormed : TypeNode → Bool
  | .primitive _ => true
  | .reference n => n.isWellFormed
  | .parameterized raw args =>
    raw.isWellFormed && !args.isEmpty && TypeArg.areWellFormed args
  | .array element _ => element.isWellFormed

def TypeArg.isWellFormed : TypeArg → Bool
  | .type t _ => t.isReference && t.isWellFormed
  | .wildcard _ => true
  | .bounded _ t _ _ => t.isReference && t.isWellFormed

def TypeArg.areWellFormed : List TypeArg → Bool
  | [] => true
  | a :: rest => a.isWellFormed && TypeArg.areWellFormed rest

end

mutual

theorem TypeNode.text_unplaced : (t : TypeNode) → t.unplaced.text = t.text
  | .primitive _ => rfl
  | .reference _ => rfl
  | .parameterized raw args => by
    simp [TypeNode.unplaced, TypeNode.text, TypeArg.listText_unplaced args]
  | .array element _ => by simp [TypeNode.unplaced, TypeNode.text, element.text_unplaced]

theorem TypeArg.text_unplaced : (a : TypeArg) → a.unplaced.text = a.text
  | .type t _ => t.text_unplaced
  | .wildcard _ => rfl
  | .bounded b t _ _ => by simp [TypeArg.unplaced, TypeArg.text, t.text_unplaced]

theorem TypeArg.listText_unplaced :
    (args : List TypeArg) → TypeArg.listText (TypeArg.unplacedList args) = TypeArg.listText args
  | [] => rfl
  | [a] => by simp [TypeArg.unplacedList, TypeArg.listText, a.text_unplaced]
  | a :: b :: rest => by
    have hrest := TypeArg.listText_unplaced (b :: rest)
    simp only [TypeArg.unplacedList, TypeArg.listText, a.text_unplaced] at hrest ⊢
    rw [hrest]

end

mutual

theorem TypeNode.isWellFormed_unplaced : (t : TypeNode) → t.unplaced.isWellFormed = t.isWellFormed
  | .primitive _ => rfl
  | .reference _ => rfl
  | .parameterized raw args => by
    have hargs := TypeArg.areWellFormed_unplaced args
    cases args <;> simp_all [TypeNode.unplaced, TypeNode.isWellFormed, TypeArg.unplacedList]
  | .array element _ => element.isWellFormed_unplaced

theorem TypeArg.isWellFormed_unplaced : (a : TypeArg) → a.unplaced.isWellFormed = a.isWellFormed
  | .type t _ => by
    simp [TypeArg.unplaced, TypeArg.isWellFormed, TypeNode.isReference, t.isWellFormed_unplaced]
  | .wildcard _ => rfl
  | .bounded _ t _ _ => by
    simp [TypeArg.unplaced, TypeArg.isWellFormed, TypeNode.isReference, t.isWellFormed_unplaced]

theorem TypeArg.areWellFormed_unplaced :
    (args : List TypeArg) →
      TypeArg.areWellFormed (TypeArg.unplacedList args) = TypeArg.areWellFormed args
  | [] => rfl
  | a :: rest => by
    simp [TypeArg.unplacedList, TypeArg.areWellFormed, a.isWellFormed_unplaced,
      TypeArg.areWellFormed_unplaced rest]

end

/-! ### Words, marks and blanks -/

theorem isIdentifier_iff {s : String} :
    isIdentifier s = true ↔ ∃ c cs, s = String.ofList (c :: cs) ∧ isIdentStart c = true ∧
      cs.all isIdentPart = true ∧ wordKind (c :: cs) = .ident := by
  have hkind : wordKind s.toList = .ident ↔ (Keyword.ofSpelling? s).isNone = true := by
    simp only [wordKind, String.ofList_toList]
    cases Keyword.ofSpelling? s <;> simp
  unfold isIdentifier
  split
  · next hs =>
    refine ⟨nofun, ?_⟩
    rintro ⟨c, cs, rfl, -⟩
    simp at hs
  · next c cs hs =>
    rw [hs] at hkind
    simp only [Bool.and_eq_true, ← hkind]
    constructor
    · rintro ⟨⟨hc, hcs⟩, hk⟩
      exact ⟨c, cs, by simp [← hs], hc, hcs, hk⟩
    · rintro ⟨c', cs', rfl, hc, hcs, hk⟩
      obtain ⟨rfl, rfl⟩ := List.cons.inj ((String.toList_ofList ..).symm.trans hs)
      exact ⟨⟨hc, hcs⟩, hk⟩

theorem isIdentStart_solid {c : Char} (h : isIdentStart c = true) :
    c ≠ '/' ∧ isBlank c = false ∧ c.isDigit = false := by
  have hcode : (65 ≤ c.toNat ∧ c.toNat ≤ 90) ∨ (97 ≤ c.toNat ∧ c.toNat ≤ 122) ∨
      c.toNat = 95 ∨ c.toNat = 36 := by
    have halpha : c.isAlpha = (decide ('A'.val ≤ c.val ∧ c.val ≤ 'Z'.val) ||
      decide ('a'.val ≤ c.val) && decide (c.val ≤ 'z'.val)) := rfl
    simp only [isIdentStart, halpha, Bool.or_eq_true, Bool.and_eq_true, decide_eq_true_eq,
      beq_iff_eq, UInt32.le_iff_toNat_le] at h
    rcases h with ((h | h) | rfl) | rfl
    · exact .inl h
    · exact .inr (.inl h)
    · decide
    · decide
  refine ⟨?_, ?_, ?_⟩
  · rintro rfl
    revert hcode
    decide
  · simp only [isBlank, inRanges, blankRanges, List.any_cons, List.any_nil, Bool.or_eq_false_iff,
      Bool.and_eq_false_iff, decide_eq_false_iff_not, and_true]
    omega
  · rw [← Bool.not_eq_true]
    intro hd
    simp only [Char.isDigit, Bool.and_eq_true, decide_eq_true_eq, UInt32.le_iff_toNat_le,
      ge_iff_le] at hd
    have hd' : 48 ≤ c.toNat ∧ c.toNat ≤ 57 := hd
    omega

/-- The text that follows does not go on with a word. -/
def detached (rest : List Char) : Bool := !rest.head?.any isIdentPart

theorem scan_word {c : Char} {cs rest : List Char} (hc : isIdentStart c = true)
    (hcs : cs.all isIdentPart = true) (hr : detached rest = true) :
    scan c (cs ++ rest) = (Split.mk (c :: cs) rest).accept (wordKind (c :: cs)) := by
  have htake : rest.takeWhile isIdentPart = [] ∧ rest.dropWhile isIdentPart = rest := by
    cases rest with
    | nil => simp
    | cons d ds =>
      have hd : isIdentPart d = false := by simpa [detached] using hr
      simp [hd]
  have hall := List.all_eq_true.mp hcs
  simp [scan, hc, scanWord, Split.run, List.takeWhile_append_of_pos hall,
    List.dropWhile_append_of_pos hall, htake]

theorem scan_mark {p : Punctuation} {rest : List Char}
    (hp : p = .dot → rest.head?.any Char.isDigit = false) :
    scan p.char rest = (Split.mk [p.char] rest).accept (.punct p) := by
  have hscan : scan p.char rest = scanMark p.char rest := by
    cases p with
    | dot => simp [scan, Punctuation.char, hp rfl, isIdentStart]
    | _ => rfl
  rw [hscan, scanMark, Punctuation.ofChar?_char]

def Cursor.Reads (c : Cursor) (ts : List Token) (c' : Cursor) : Prop :=
  c.results = ts.map .ok ++ c'.results

theorem Cursor.Reads.append {a b c : Cursor} {ts us : List Token} (h : a.Reads ts b)
    (h' : b.Reads us c) : a.Reads (ts ++ us) c := by
  unfold Reads at *
  simp [h, h']

theorem Cursor.reads_token {c c' : Cursor} {t : Token} (h : c.next? = some (.ok t, c')) :
    c.Reads [t] c' := results_of_some h

theorem Cursor.reads_blank (o : Nat) (cs : List Char) :
    (Cursor.mk o (' ' :: cs)).Reads [] ⟨o + 1, cs⟩ := by
  have hsize : (' ' : Char).utf8Size = 1 := rfl
  have hblank : isBlank ' ' = true := by decide
  refine results_congr ?_
  simp only [next?, lead_cons (show ' ' ≠ '/' by decide), hblank, if_true, Lead.after,
    List.cons_append, List.nil_append, width_cons, hsize, Nat.add_assoc]

/-- Followed by the rest, the text is read as tokens of a certain form. -/
def Spells (cs rest : List Char) (form : List Token → Prop) : Prop :=
  ∀ o, ∃ ts o', (Cursor.mk o (cs ++ rest)).Reads ts ⟨o', rest⟩ ∧ form ts

section Spells

variable {xs ys rest : List Char} {P Q : List Token → Prop}

theorem Spells.append (hx : Spells xs (ys ++ rest) P) (hy : Spells ys rest Q) :
    Spells (xs ++ ys) rest (fun ts => ∃ us vs, ts = us ++ vs ∧ P us ∧ Q vs) := by
  intro o
  obtain ⟨us, o', hus, hP⟩ := hx o
  obtain ⟨vs, o'', hvs, hQ⟩ := hy o'
  exact ⟨us ++ vs, o'', by simpa using hus.append hvs, us, vs, rfl, hP, hQ⟩

theorem Spells.imp (h : Spells xs rest P) (hPQ : ∀ ts, P ts → Q ts) : Spells xs rest Q := by
  intro o
  obtain ⟨ts, o', hts, hP⟩ := h o
  exact ⟨ts, o', hts, hPQ ts hP⟩

theorem spells_word {c : Char} (hc : isIdentStart c = true) (hcs : xs.all isIdentPart = true)
    (hr : detached rest = true) :
    Spells (c :: xs) rest (fun ts => ∃ t, ts = [t] ∧ t.kind = wordKind (c :: xs) ∧
      t.text = String.ofList (c :: xs)) := by
  intro o
  obtain ⟨hslash, hblank, -⟩ := isIdentStart_solid hc
  have hn := Cursor.next?_solid hslash hblank o (xs ++ rest)
  rw [scan_word hc hcs hr] at hn
  exact ⟨_, _, Cursor.reads_token hn, _, rfl, rfl, rfl⟩

theorem spells_mark (p : Punctuation) (hp : p = .dot → rest.head?.any Char.isDigit = false) :
    Spells [p.char] rest (fun ts => ∃ t, ts = [t] ∧ t.kind = .punct p) := by
  intro o
  have hsolid : p.char ≠ '/' ∧ isBlank p.char = false := by cases p <;> decide
  have hn := Cursor.next?_solid hsolid.1 hsolid.2 o rest
  rw [scan_mark hp] at hn
  exact ⟨_, _, Cursor.reads_token hn, _, rfl, rfl⟩

theorem spells_blank : Spells [' '] rest (· = []) :=
  fun o => ⟨[], o + 1, Cursor.reads_blank o rest, rfl⟩

theorem spells_identifier {s : String} (h : isIdentifier s = true) (hr : detached rest = true) :
    Spells s.toList rest (fun ts => ∃ t, ts = [t] ∧ t.kind = .ident ∧ t.text = s) := by
  obtain ⟨c, cs, rfl, hc, hcs, hk⟩ := isIdentifier_iff.mp h
  simpa only [String.toList_ofList, hk] using spells_word hc hcs hr

theorem Keyword.spelling_shape (k : Keyword) :
    ∃ c cs, k.spelling.toList = c :: cs ∧ isIdentStart c = true ∧ cs.all isIdentPart = true ∧
      wordKind (c :: cs) = .keyword k := by
  have hall : ∀ k ∈ Keyword.all,
      (k.spelling.toList.head?.any isIdentStart && k.spelling.toList.tail.all isIdentPart &&
        wordKind k.spelling.toList == .keyword k) = true := by
    decide
  have hk := hall k k.mem_all
  cases hs : k.spelling.toList with
  | nil => simp [hs] at hk
  | cons c cs => exact ⟨c, cs, rfl, by simpa [hs, and_assoc] using hk⟩

theorem spells_keyword (k : Keyword) (hr : detached rest = true) :
    Spells k.spelling.toList rest (fun ts => ∃ t, ts = [t] ∧ t.kind = .keyword k) := by
  obtain ⟨c, cs, hs, hc, hcs, hk⟩ := k.spelling_shape
  rw [hs]
  refine (spells_word hc hcs hr).imp ?_
  rintro _ ⟨t, rfl, hkind, -⟩
  exact ⟨t, rfl, hkind.trans hk⟩

theorem segments_spell {segs : List String} (hne : segs ≠ []) (h : segs.all isIdentifier = true)
    (hr : detached rest = true) :
    Spells (['.'].intercalate (segs.map String.toList)) rest (NameOf · ⟨segs⟩) := by
  induction segs with
  | nil => exact absurd rfl hne
  | cons s more ih =>
    simp only [List.all_cons, Bool.and_eq_true] at h
    cases more with
    | nil =>
      rw [show ['.'].intercalate ([s].map String.toList) = s.toList by simp]
      refine (spells_identifier h.1 hr).imp ?_
      rintro _ ⟨i, rfl, hi, rfl⟩
      exact .one hi
    | cons s' more =>
      have hdigit : (['.'].intercalate ((s' :: more).map String.toList) ++ rest).head?.any
          Char.isDigit = false := by
        have hs' : isIdentifier s' = true := List.all_eq_true.mp h.2 s' List.mem_cons_self
        obtain ⟨c, cs, rfl, hc, -, -⟩ := isIdentifier_iff.mp hs'
        cases more <;> simp [(isIdentStart_solid hc).2.2]
      have htext : ['.'].intercalate ((s :: s' :: more).map String.toList) = s.toList ++
          ([Punctuation.dot.char] ++ ['.'].intercalate ((s' :: more).map String.toList)) := by
        simp [Punctuation.char]
      rw [htext]
      refine ((spells_identifier h.1 (by rfl)).append
        ((spells_mark .dot (fun _ => hdigit)).append (ih (by simp) h.2))).imp ?_
      rintro _ ⟨_, _, rfl, ⟨i, rfl, hi, rfl⟩, _, ts, rfl, ⟨d, rfl, hd⟩, hn⟩
      exact .more hi hd hn

theorem Name.spells {n : Name} (h : n.isWellFormed = true) (hr : detached rest = true) :
    Spells n.text.toList rest (NameOf · n) := by
  simp only [Name.isWellFormed, Bool.and_eq_true, Bool.not_eq_true', List.isEmpty_eq_false_iff] at h
  rw [Name.text, String.toList_intercalate]
  exact segments_spell h.1 h.2 hr

end Spells

/-! ### Types -/

theorem TypeOf.base {ts : List Token} {b : TypeNode} (h : BaseOf ts b) : TypeOf ts b := by
  simpa [TypeNode.wrapped] using TypeOf.dims h .none

theorem DimsOf.snoc {ds : List Token} {n : Nat} {l r : Token} (h : DimsOf ds n)
    (hl : l.kind = .punct .leftBracket) (hr : r.kind = .punct .rightBracket) :
    DimsOf (ds ++ [l, r]) (n + 1) := by
  induction h with
  | none => exact .more hl hr .none
  | more hl' hr' _ ih => exact .more hl' hr' ih

theorem TypeOf.array {ts : List Token} {t : TypeNode} {l r : Token} (h : TypeOf ts t)
    (hl : l.kind = .punct .leftBracket) (hr : r.kind = .punct .rightBracket) :
    TypeOf (ts ++ [l, r]) (.array t default) := by
  cases h with
  | dims hb hd =>
    have hh := TypeOf.dims hb (hd.snoc hl hr)
    simpa [wrapped_succ, List.append_assoc] using hh

mutual

theorem TypeNode.spells : (t : TypeNode) → t.isWellFormed = true → (rest : List Char) →
    detached rest = true → Spells t.text.toList rest (TypeOf · t.unplaced)
  | .primitive p, _, rest, hr => by
    intro o
    obtain ⟨ts, o', hts, w, rfl, hw⟩ := spells_keyword (.primitive p) hr o
    exact ⟨[w], o', hts, .base (.primitive hw)⟩
  | .reference n, h, rest, hr => by
    intro o
    obtain ⟨ts, o', hts, hn⟩ := Name.spells h hr o
    exact ⟨ts, o', hts, .base (.reference hn)⟩
  | .parameterized raw args, h, rest, hr => by
    simp only [TypeNode.isWellFormed, Bool.and_eq_true, Bool.not_eq_true',
      List.isEmpty_eq_false_iff] at h
    obtain ⟨⟨hraw, hne⟩, hargs⟩ := h
    have htext : (TypeNode.parameterized raw args).text.toList = raw.text.toList ++
        ([Punctuation.leftAngle.char] ++ ((TypeArg.listText args).toList ++
          [Punctuation.rightAngle.char])) := by
      simp [TypeNode.text, Punctuation.char]
    rw [htext]
    refine ((Name.spells hraw (by rfl)).append ((spells_mark .leftAngle nofun).append
      ((TypeArg.listSpells args hne hargs _ (by rfl)).append
        (spells_mark .rightAngle nofun)))).imp ?_
    rintro _ ⟨ns, _, rfl, hn, _, _, rfl, ⟨l, rfl, hl⟩, as, _, rfl, has, r, rfl, hr⟩
    exact .base (.parameterized hn hl has hr)
  | .array element span, h, rest, hr => by
    have htext : (TypeNode.array element span).text.toList = element.text.toList ++
        ([Punctuation.leftBracket.char] ++ [Punctuation.rightBracket.char]) := by
      simp [TypeNode.text, Punctuation.char]
    rw [htext]
    refine ((element.spells h _ (by rfl)).append
      ((spells_mark .leftBracket nofun).append (spells_mark .rightBracket nofun))).imp ?_
    rintro _ ⟨ts, _, rfl, ht, _, _, rfl, ⟨l, rfl, hl⟩, r, rfl, hr⟩
    exact ht.array hl hr

theorem TypeArg.spells : (a : TypeArg) → a.isWellFormed = true → (rest : List Char) →
    detached rest = true → Spells a.text.toList rest (ArgOf · a.unplaced)
  | .type t _, h, rest, hr => by
    simp only [TypeArg.isWellFormed, TypeNode.isReference, Bool.and_eq_true,
      Bool.not_eq_true'] at h
    exact (t.spells h.2 rest hr).imp (fun ts ht => .type ht (by simpa using h.1))
  | .wildcard span, _, rest, _ => by
    rw [show (TypeArg.wildcard span).text.toList = [Punctuation.question.char] by
      simp [TypeArg.text, Punctuation.char]]
    refine (spells_mark .question nofun).imp ?_
    rintro _ ⟨q, rfl, hq⟩
    exact .wildcard hq
  | .bounded b t bs span, h, rest, hr => by
    simp only [TypeArg.isWellFormed, TypeNode.isReference, Bool.and_eq_true,
      Bool.not_eq_true'] at h
    have htext : (TypeArg.bounded b t bs span).text.toList = [Punctuation.question.char] ++
        ([' '] ++ ((Keyword.bound b).spelling.toList ++ ([' '] ++ t.text.toList))) := by
      simp [TypeArg.text, Punctuation.char, Keyword.spelling]
    rw [htext]
    refine ((spells_mark .question nofun).append (spells_blank.append
      ((spells_keyword (.bound b) (by rfl)).append
        (spells_blank.append (t.spells h.2 rest hr))))).imp ?_
    rintro _ ⟨_, _, rfl, ⟨q, rfl, hq⟩, _, _, rfl, rfl, _, _, rfl, ⟨w, rfl, hw⟩, _, ts, rfl, rfl, ht⟩
    exact .bounded hq hw ht (by simpa using h.1)

theorem TypeArg.listSpells : (args : List TypeArg) → args ≠ [] →
    TypeArg.areWellFormed args = true → (rest : List Char) → detached rest = true →
    Spells (TypeArg.listText args).toList rest (ArgsOf · (TypeArg.unplacedList args))
  | [], hne, _, _, _ => absurd rfl hne
  | [a], _, h, rest, hr => by
    simp only [TypeArg.areWellFormed, Bool.and_eq_true] at h
    exact (a.spells h.1 rest hr).imp (fun ts ha => .one ha)
  | a :: b :: more, _, h, rest, hr => by
    simp only [TypeArg.areWellFormed, Bool.and_eq_true] at h
    have hmore := TypeArg.listSpells (b :: more) (by simp)
      (by simpa only [TypeArg.areWellFormed, Bool.and_eq_true] using h.2) rest hr
    have htext : (TypeArg.listText (a :: b :: more)).toList = a.text.toList ++
        ([Punctuation.comma.char] ++ ([' '] ++ (TypeArg.listText (b :: more)).toList)) := by
      simp [TypeArg.listText, Punctuation.char]
    rw [htext]
    refine ((a.spells h.1 _ (by rfl)).append ((spells_mark .comma nofun).append
      (spells_blank.append hmore))).imp ?_
    rintro _ ⟨as, _, rfl, ha, _, _, rfl, ⟨c, rfl, hc⟩, _, bs, rfl, rfl, hb⟩
    exact .more ha hc hb

end

theorem Cursor.Reads.all {o o' : Nat} {cs : List Char} {ts : List Token}
    (h : (Cursor.mk o cs).Reads ts ⟨o', []⟩) : (Cursor.mk o cs).results = ts.map .ok := by
  have hend : (Cursor.mk o' []).results = [] :=
    Cursor.results_of_none (by simp [Cursor.next?, lead])
  rw [h, hend, List.append_nil]

theorem TypeNode.lex_text {t : TypeNode} (h : t.isWellFormed = true) :
    ∃ ts, lex t.text = .ok (ts ++ [endToken t.text]) ∧ TypeOf ts t.unplaced := by
  obtain ⟨ts, o, hts, ht⟩ := t.spells h [] rfl 0
  rw [List.append_nil] at hts
  exact ⟨ts, lex_eq_ok_iff.mpr ⟨ts, hts.all, rfl⟩, ht⟩

/-! ### What is read is well-formed -/

def ProperIdents (ts : List Token) : Prop := ∀ t ∈ ts, t.kind = .ident → isIdentifier t.text = true

theorem ProperIdents.left {ts us : List Token} (h : ProperIdents (ts ++ us)) : ProperIdents ts :=
  fun t ht => h t (List.mem_append_left _ ht)

theorem ProperIdents.right {ts us : List Token} (h : ProperIdents (ts ++ us)) : ProperIdents us :=
  fun t ht => h t (List.mem_append_right _ ht)

theorem ProperIdents.tail {t : Token} {ts : List Token} (h : ProperIdents (t :: ts)) :
    ProperIdents ts := fun u hu => h u (List.mem_cons_of_mem _ hu)

theorem NameOf.isWellFormed {ts : List Token} {n : Name} (h : NameOf ts n) (hi : ProperIdents ts) :
    n.isWellFormed = true := by
  induction h with
  | one hk => simp [Name.isWellFormed, hi _ List.mem_cons_self hk]
  | more hk _ _ ih =>
    have hn := ih hi.tail.tail
    simp_all [Name.isWellFormed, hi _ List.mem_cons_self hk]

theorem isWellFormed_wrapped (n : Nat) (t : TypeNode) :
    (t.wrapped n).isWellFormed = t.isWellFormed := by
  induction n with
  | zero => rfl
  | succ n ih => rw [wrapped_succ, TypeNode.isWellFormed, ih]

mutual

theorem TypeOf.isWellFormed {ts : List Token} {t : TypeNode} :
    TypeOf ts t → ProperIdents ts → t.isWellFormed = true
  | .dims hb _, hi => (isWellFormed_wrapped _ _).trans (hb.isWellFormed hi.left)

theorem BaseOf.isWellFormed {ts : List Token} {b : TypeNode} :
    BaseOf ts b → ProperIdents ts → b.isWellFormed = true
  | .primitive _, _ => rfl
  | .reference hn, hi => hn.isWellFormed hi
  | .parameterized hn _ ha _, hi => by
    obtain ⟨hne, hargs⟩ := ha.areWellFormed hi.right.tail.left
    simp [TypeNode.isWellFormed, hn.isWellFormed hi.left, hne, hargs]

theorem ArgsOf.areWellFormed {ts : List Token} {args : List TypeArg} :
    ArgsOf ts args → ProperIdents ts → args ≠ [] ∧ TypeArg.areWellFormed args = true
  | .one ha, hi => ⟨by simp, by simp [TypeArg.areWellFormed, ha.isWellFormed hi]⟩
  | .more ha _ hr, hi =>
    ⟨by simp, by simp [TypeArg.areWellFormed, ha.isWellFormed hi.left,
      (hr.areWellFormed hi.right.tail).2]⟩

theorem ArgOf.isWellFormed {ts : List Token} {a : TypeArg} :
    ArgOf ts a → ProperIdents ts → a.isWellFormed = true
  | .type ht hp, hi => by
    simp [TypeArg.isWellFormed, TypeNode.isReference, hp, ht.isWellFormed hi]
  | .wildcard _, _ => rfl
  | .bounded _ _ ht hp, hi => by
    simp [TypeArg.isWellFormed, TypeNode.isReference, hp, ht.isWellFormed hi.tail.tail]

end

theorem scan_ident {first : Char} {rest : List Char} (h : (scan first rest).outcome = .ok .ident) :
    isIdentifier (String.ofList (scan first rest).taken) = true := by
  rcases scan_eq_ok h with ⟨hc, hk, ht⟩ | hm | ⟨p, hp, -⟩
  · rw [ht]
    exact isIdentifier_iff.mpr ⟨first, _, rfl, hc, List.all_takeWhile, hk.symm⟩
  · simp at hm
  · cases hp

theorem lex_properIdents {s : String} {tokens : List Token} (h : lex s = .ok tokens) :
    ProperIdents tokens := by
  intro t ht hk
  rcases lex_found h ht with rfl | ⟨sc, hfound, hkind, htext⟩
  · cases hk
  · rw [htext]
    rw [hk] at hkind
    cases hfound with
    | lexeme first rest => exact scan_ident hkind
    | openComment _ => cases hkind

/-! ### The round trip -/

theorem ahead_ofTokens {s : String} {ts : List Token} (h : lex s = .ok (ts ++ [endToken s])) :
    (TokenStream.ofTokens (ts ++ [endToken s])).ahead = (ts, endToken s) := by
  obtain ⟨us, hus, heq⟩ := lex_eq_ok_iff.mp h
  obtain rfl := List.append_cancel_right heq
  have hts : ∀ t ∈ ts, t.isEnd = false := fun t ht => results_isEnd hus ht
  have hend : (endToken s).isEnd = true := rfl
  have hfind : ts.find? Token.isEnd = none := List.find?_eq_none.mpr (by simpa using hts)
  simp only [TokenStream.ahead, TokenStream.ofTokens, List.drop_zero, List.find?_append, hfind,
    List.takeWhile_append_of_pos (show ∀ t ∈ ts, (!t.isEnd) = true by simpa using hts)]
  simp [hend]

theorem TypeNode.reread {t : TypeNode} (h : t.isWellFormed = true) :
    ∃ tokens r s, lex t.text = .ok tokens ∧
      TokenStream.type.run (TokenStream.ofTokens tokens) = (.ok r, s) ∧
      r.node.unplaced = t.unplaced ∧ s.atEnd = true := by
  obtain ⟨ts, hlex, ht⟩ := t.lex_text h
  have hends : t.unplaced.EndsAt [] := by
    refine ⟨rfl, ?_⟩
    cases t.unplaced with
    | reference n => exact ⟨rfl, rfl⟩
    | _ => trivial
  obtain ⟨r, hr, hv, hrest⟩ := (typesExactAt (endToken t.text) ts t.unplaced []).mpr
    ⟨ts, by simp, ht, hends⟩
  refine ⟨_, _, _, hlex, TokenStream.type_run_ok (ahead_ofTokens hlex) hr, hv, ?_⟩
  have hend : (endToken t.text).isEnd = true := rfl
  simp [TokenStream.atEnd, TokenStream.peek, TokenStream.peekNth, TokenStream.ofTokens, hrest, hend]

theorem type_isWellFormed {source : String} {stream s : TokenStream} {r : Spanned TypeNode}
    (hlex : lex source = .ok stream.tokens) (h : TokenStream.type.run stream = (.ok r, s)) :
    r.node.isWellFormed = true := by
  obtain ⟨p, hp, rfl⟩ := TokenStream.readType_of_run h
  obtain ⟨used, hts, ht, -⟩ := (typesExactAt _ _ _ _).mp ⟨p, hp, rfl, rfl⟩
  have hsub : ∀ t ∈ used, t ∈ stream.tokens := by
    intro t hu
    have hmem : t ∈ stream.ahead.1 := hts ▸ List.mem_append_left _ hu
    exact List.mem_of_mem_drop ((List.takeWhile_sublist _).subset hmem)
  rw [← TypeNode.isWellFormed_unplaced]
  exact ht.isWellFormed (fun t hu => lex_properIdents hlex t (hsub t hu))

/-- A type is spelled in one way: a well-formed type is read back from its spelling, which takes up
all of it, and a type that was read from any text is well-formed, is read back from its spelling and
then spelled in the same way. -/
theorem type_spelling_canonical :
    (∀ t : TypeNode, t.isWellFormed = true → ∃ tokens r s, lex t.text = .ok tokens ∧
      TokenStream.type.run (TokenStream.ofTokens tokens) = (.ok r, s) ∧
      r.node.unplaced = t.unplaced ∧ s.atEnd = true) ∧
    ∀ (source : String) (stream s : TokenStream) (r : Spanned TypeNode),
      lex source = .ok stream.tokens → TokenStream.type.run stream = (.ok r, s) →
      r.node.isWellFormed = true ∧ ∃ tokens r' s', lex r.node.text = .ok tokens ∧
        TokenStream.type.run (TokenStream.ofTokens tokens) = (.ok r', s') ∧
        r'.node.unplaced = r.node.unplaced ∧ r'.node.text = r.node.text ∧ s'.atEnd = true := by
  refine ⟨fun t h => t.reread h, fun source stream s r hlex hrun => ?_⟩
  have hr := type_isWellFormed hlex hrun
  obtain ⟨tokens, r', s', hlex', hrun', heq, hend⟩ := r.node.reread hr
  refine ⟨hr, tokens, r', s', hlex', hrun', heq, ?_, hend⟩
  rw [← r'.node.text_unplaced, heq, r.node.text_unplaced]

theorem type_spelling_canonical_nested :
    let t : TypeNode := .array (.parameterized ⟨["util", "Map"]⟩ [
      .type (.reference ⟨["K"]⟩) default,
      .bounded .upper (.array (.primitive .int) default) default default]) default
    t.isWellFormed = true ∧ ∃ tokens r s, lex t.text = .ok tokens ∧
      TokenStream.type.run (TokenStream.ofTokens tokens) = (.ok r, s) ∧
      r.node.unplaced = t.unplaced ∧ r.node.isWellFormed = true := by
  intro t
  have ht : t.isWellFormed = true := by decide
  obtain ⟨tokens, r, s, hlex, hrun, heq, -⟩ := type_spelling_canonical.1 t ht
  exact ⟨ht, tokens, r, s, hlex, hrun, heq,
    (type_spelling_canonical.2 t.text (.ofTokens tokens) s r hlex hrun).1⟩

end DeclFront
