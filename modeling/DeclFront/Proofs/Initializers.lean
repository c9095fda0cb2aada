import Mathlib
import DeclFront.Proofs.Findings
import DeclFront.Proofs.Members

/-! The values of accepted initializers, held against the ranges of the integral types. Three places
keep them in range: the reader of literals, the test of int literals against narrow types, and the
table of what may initialize what. None of them looks at the value of a character, so a character
literal is in range unless the field is a `char` and the character takes two code units. -/

namespace DeclFront

variable {bits : Nat} {cs : List Char} {v : Int} {range : Int × Int} {p : Primitive} {l : Literal}

/-! ### Ranges -/

def Within (range : Int × Int) (v : Int) : Prop := range.1 ≤ v ∧ v ≤ range.2

/-- The least and the greatest number of so many bits, one of them for the sign. -/
def signedRange (bits : Nat) : Int × Int := (-2 ^ (bits - 1), 2 ^ (bits - 1) - 1)

/-- The least and the greatest value of an integral type. -/
def Primitive.range? : Primitive → Option (Int × Int)
  | byte => some (signedRange 8)
  | short => some (signedRange 16)
  | char => some (0, 2 ^ 16 - 1)
  | int => some (signedRange 32)
  | long => some (signedRange 64)
  | _ => none

/-- The value of a literal that stands for an integer; a character stands for its code point. -/
def Literal.integer? : Literal → Option Int
  | int v => some v
  | long v => some v
  | char c => some c.toNat
  | _ => none

/-! ### What the reader of literals grants -/

theorem readSigned?_within (h : readSigned? bits cs = some v) : Within (signedRange bits) v := by
  obtain ⟨-, hv⟩ := Option.filter_eq_some_iff.mp h
  obtain ⟨hlow, hhigh⟩ := of_decide_eq_true hv
  rw [Nat.pow_eq, Int.natCast_pow] at hlow hhigh
  exact ⟨hlow, Int.le_sub_one_of_lt hhigh⟩

def Literal.Bounded : Literal → Prop
  | int v => Within (signedRange 32) v
  | long v => Within (signedRange 64) v
  | _ => True

theorem readIntLiteral_bounded {t : Token} (h : readIntLiteral t = .ok l) : l.Bounded := by
  unfold readIntLiteral at h
  split at h
  · split at h
    · next v hv =>
      cases h
      exact readSigned?_within hv
    · cases h
  · split at h
    · next v hv =>
      cases h
      exact readSigned?_within hv
    · cases h

theorem readFloatLiteral_bounded {t : Token} (h : readFloatLiteral t = .ok l) : l.Bounded := by
  unfold readFloatLiteral at h
  split at h
  · split at h
    · cases h
      trivial
    · cases h
  · dsimp only at h
    split at h
    · cases h
      trivial
    · cases h

theorem readLiteral_bounded {t : Token} (h : readLiteral t = .ok l) : l.Bounded := by
  unfold readLiteral at h
  split at h
  · exact readIntLiteral_bounded h
  · exact readFloatLiteral_bounded h
  · split at h
    · cases h
      trivial
    · cases h
  · split at h
    · cases h
      trivial
    · cases h
  · cases h
    trivial
  · cases h
    trivial
  · cases h

/-! ### What the rule grants -/

theorem Within.wider {range' : Int × Int} (h : Within range v) (hlow : range'.1 ≤ range.1)
    (hhigh : range.2 ≤ range'.2) : Within range' v :=
  ⟨Int.le_trans hlow h.1, Int.le_trans h.2 hhigh⟩

theorem range?_cases (hp : p.range? = some range) :
    p.narrowRange? = some range ∨ (p = .int ∧ range = signedRange 32) ∨
      (p = .long ∧ range = signedRange 64) := by
  cases p <;> cases hp <;> decide

/-- An int literal that the reader and the narrow types let through is in range. -/
theorem within_of_int (hp : p.range? = some range) (hv : Within (signedRange 32) v)
    (hnarrow : ¬ ∃ q, Overflows (.primitive p) (.int v) q) : Within range v := by
  rcases range?_cases hp with hrange | ⟨-, rfl⟩ | ⟨-, rfl⟩
  · by_contra hout
    exact hnarrow ⟨p, rfl, range, v, hrange, rfl, hout⟩
  · exact hv
  · exact hv.wider (by decide) (by decide)

theorem assignable_cases (hp : p.range? = some range) (ha : assignable (.primitive p) l = true) :
    (∃ v, l = .int v) ∨ (p = .long ∧ ∃ v, l = .long v) ∨
      ((p = .char ∨ p = .int ∨ p = .long) ∧ ∃ c, l = .char c) := by
  revert hp ha
  cases p <;> cases l <;> simp [Primitive.range?, assignable, assignablePrimitive]

theorem code_within (c : Char) : Within (0, 0x10FFFF) c.toNat := by
  have hvalid : c.toNat < 0xD800 ∨ (0xDFFF < c.toNat ∧ c.toNat < 0x110000) := c.valid
  unfold Within
  omega

/-- The code point of a character is in range for `int` and `long`, and for `char` if it is a single
code unit. -/
theorem code_within_iff {c : Char} (hp : p.range? = some range)
    (hc : p = .char ∨ p = .int ∨ p = .long) :
    Within range c.toNat ↔ (p = .char → c.toNat < 2 ^ 16) := by
  have hcode := code_within c
  rcases hc with rfl | rfl | rfl
  · cases hp
    simp only [Within, forall_const] at hcode ⊢
    omega
  · cases hp
    exact iff_of_true (hcode.wider (by decide) (by decide)) (by simp)
  · cases hp
    exact iff_of_true (hcode.wider (by decide) (by decide)) (by simp)

theorem not_unfit_of_accepted {t : TypeNode} {l : Spanned Literal}
    (h : initializerFault? t l = none) : ¬ Unfit t l.node := by
  have hverdict := initializerFault?_verdict t l
  rw [h] at hverdict
  cases hverdict with
  | clean hfit => exact hfit

/-- An integral field of a parsed text, with an initializer that the rule accepts, gets an integer.
This is in the range of the field's type, except for a character of two code units in a `char`. -/
theorem accepted_initializer_fits {source : String} {tokens : List Token} {u : CompilationUnit}
    {f : Field} {l : Spanned Literal} {seen : Seen} (hu : u.ParsedFrom source tokens)
    (hf : .field f ∈ u.members.map (·.node)) (ht : f.type.node = .primitive p)
    (hp : p.range? = some range) (hl : f.init = some l)
    (ha : (Rule.initializers.accept seen (.field f)).1 = none) :
    ∃ v, l.node.integer? = some v ∧
      (Within range v ↔ (p = .char → ∀ c, l.node = .char c → c.toNat < 2 ^ 16)) := by
  obtain ⟨token, -, hread⟩ := hu.exists_literal hf hl
  have hbounded : l.node.Bounded := readLiteral_bounded hread
  have haccepted : initializerFault? (.primitive p) l = none := by
    simpa [Rule.accept, hl, ht] using ha
  obtain ⟨hassign, hnarrow⟩ := not_or.mp (not_unfit_of_accepted haccepted)
  rw [not_not, ← assignable_iff] at hassign
  rcases assignable_cases hp hassign with ⟨v, hv⟩ | ⟨rfl, v, hv⟩ | ⟨htype, c, hc⟩
  · rw [hv] at hbounded hnarrow ⊢
    exact ⟨v, rfl, iff_of_true (within_of_int hp hbounded hnarrow) (by simp)⟩
  · rw [hv] at hbounded ⊢
    cases hp
    exact ⟨v, rfl, iff_of_true hbounded (by simp)⟩
  · rw [hc]
    refine ⟨c.toNat, rfl, (code_within_iff hp htype).trans ?_⟩
    simp

/-- A character of a single code unit for a `char`, and one of two for a `long`. -/
theorem accepted_initializer_fits_characters :
    let source := "char a='é';long b='😀';"
    let a : Field := ⟨[], ⟨.primitive .char, ⟨0, 4⟩⟩, ⟨"a", ⟨5, 6⟩⟩, some ⟨.char 'é', ⟨7, 11⟩⟩⟩
    let b : Field :=
      ⟨[], ⟨.primitive .long, ⟨12, 16⟩⟩, ⟨"b", ⟨17, 18⟩⟩, some ⟨.char '😀', ⟨19, 25⟩⟩⟩
    let u : CompilationUnit := ⟨none, [], [⟨.field a, ⟨0, 12⟩⟩, ⟨.field b, ⟨12, 26⟩⟩]⟩
    (∃ tokens, u.ParsedFrom source tokens) ∧
      (Rule.initializers.accept [] (.field a)).1 = none ∧
      (Rule.initializers.accept [] (.field b)).1 = none ∧
      Within (0, 2 ^ 16 - 1) ('é'.toNat : Int) ∧ Within (signedRange 64) ('😀'.toNat : Int) := by
  intro source a b u
  let mark (q : Punctuation) (n : Nat) : Token := ⟨.punct q, q.spelling, ⟨n, n + 1⟩⟩
  let tokens : List Token :=
    [⟨.keyword (.primitive .char), "char", ⟨0, 4⟩⟩, ⟨.ident, "a", ⟨5, 6⟩⟩, mark .equals 6,
      ⟨.charLit, "'é'", ⟨7, 11⟩⟩, mark .semicolon 11,
      ⟨.keyword (.primitive .long), "long", ⟨12, 16⟩⟩, ⟨.ident, "b", ⟨17, 18⟩⟩, mark .equals 18,
      ⟨.charLit, "'😀'", ⟨19, 25⟩⟩, mark .semicolon 25, .endAt 26]
  have hlex : lex source = .ok tokens := lex_of_toOption (by decide +kernel)
  have hparse : (parseAsking .failFast .never tokens).1 = .complete u [] := by
    rw [parseAsking_eq_walk]
    cbv
  have hu : u.ParsedFrom source tokens := ⟨hlex, _, _, _, hparse⟩
  have ha : (Rule.initializers.accept [] (.field a)).1 = none := by decide
  have hb : (Rule.initializers.accept [] (.field b)).1 = none := by decide
  obtain ⟨v, hv, hfits⟩ := accepted_initializer_fits hu (by simp [u]) rfl rfl rfl ha
  obtain ⟨w, hw, hfits'⟩ := accepted_initializer_fits hu (by simp [u]) rfl rfl rfl hb
  cases hv
  cases hw
  refine ⟨⟨tokens, hu⟩, ha, hb, hfits.mpr ?_, hfits'.mpr (by simp)⟩
  rintro - c hc
  cases hc
  decide

/-- The code point of the character exceeds the greatest value of the field. -/
theorem wide_character_accepted :
    let source := "char c='😀';"
    let c : Field := ⟨[], ⟨.primitive .char, ⟨0, 4⟩⟩, ⟨"c", ⟨5, 6⟩⟩, some ⟨.char '😀', ⟨7, 13⟩⟩⟩
    let u : CompilationUnit := ⟨none, [], [⟨.field c, ⟨0, 14⟩⟩]⟩
    (∃ tokens, u.ParsedFrom source tokens) ∧
      (Rule.initializers.accept [] (.field c)).1 = none ∧
      Primitive.range? .char = some (0, 65535) ∧ (Literal.char '😀').integer? = some 128512 ∧
      ¬ Within (0, 65535) 128512 := by
  intro source c u
  let mark (q : Punctuation) (n : Nat) : Token := ⟨.punct q, q.spelling, ⟨n, n + 1⟩⟩
  let tokens : List Token :=
    [⟨.keyword (.primitive .char), "char", ⟨0, 4⟩⟩, ⟨.ident, "c", ⟨5, 6⟩⟩, mark .equals 6,
      ⟨.charLit, "'😀'", ⟨7, 13⟩⟩, mark .semicolon 13, .endAt 14]
  have hlex : lex source = .ok tokens := lex_of_toOption (by decide +kernel)
  have hparse : (parseAsking .failFast .never tokens).1 = .complete u [] := by
    rw [parseAsking_eq_walk]
    cbv
  refine ⟨⟨tokens, hlex, _, _, _, hparse⟩, by decide, by decide, by decide, ?_⟩
  unfold Within
  omega

end DeclFront
