import Mathlib.Data.List.Basic
import DeclFront.Text.Quoted

/-! Quoted texts as they are shown. No escape is the beginning of another one, and none begins with
a closing quote, so a quoted text can be told from whatever follows it. -/

namespace DeclFront

variable {style : QuoteStyle} {c c' quote : Char} {cs cs' x y : List Char}

/-! ### Code points -/

theorem toDigits_long {n : Nat} (h : 16 ≤ n) :
    Nat.toDigits 16 n = Nat.toDigits 16 (n / 16) ++ [Nat.digitChar (n % 16)] :=
  Nat.toDigits_of_base_le (by decide) h

theorem digitChar_inj : ∀ m < 16, ∀ n < 16, Nat.digitChar m = Nat.digitChar n → m = n := by decide

theorem toDigits_ne_long {m n : Nat} (hm : m < 16) (hn : 16 ≤ n) :
    Nat.toDigits 16 m ≠ Nat.toDigits 16 n := by
  intro h
  rw [Nat.toDigits_of_lt_base hm, toDigits_long hn] at h
  have hlength := congrArg List.length h
  have hpos : 0 < (Nat.toDigits 16 (n / 16)).length := Nat.length_toDigits_pos
  rw [List.length_append, List.length_singleton, List.length_singleton] at hlength
  omega

theorem toDigits_inj {m n : Nat} (h : Nat.toDigits 16 m = Nat.toDigits 16 n) : m = n := by
  induction m using Nat.strongRecOn generalizing n with
  | _ m ih =>
    rcases Nat.lt_or_ge m 16 with hm | hm <;> rcases Nat.lt_or_ge n 16 with hn | hn
    · rw [Nat.toDigits_of_lt_base hm, Nat.toDigits_of_lt_base hn] at h
      exact digitChar_inj m hm n hn (List.singleton_inj.mp h)
    · exact absurd h (toDigits_ne_long hm hn)
    · exact absurd h.symm (toDigits_ne_long hn hm)
    · rw [toDigits_long hm, toDigits_long hn] at h
      obtain ⟨hfront, hlast⟩ := List.append_inj' h rfl
      have hquot : m / 16 = n / 16 := ih (m / 16) (by omega) hfront
      have hrem : m % 16 = n % 16 := digitChar_inj _ (Nat.mod_lt _ (by decide)) _
        (Nat.mod_lt _ (by decide)) (List.singleton_inj.mp hlast)
      omega

theorem brace_not_mem_toDigits (n : Nat) : '\x7d' ∉ Nat.toDigits 16 n := by
  have hdigit : ∀ m < 16, '\x7d' ≠ Nat.digitChar m := by decide
  induction n using Nat.strongRecOn with
  | _ n ih =>
    rcases Nat.lt_or_ge n 16 with hn | hn
    · rw [Nat.toDigits_of_lt_base hn, List.mem_singleton]
      exact hdigit n hn
    · rw [toDigits_long hn, List.mem_append, List.mem_singleton]
      rintro (hmem | hlast)
      · exact ih (n / 16) (by omega) hmem
      · exact hdigit _ (Nat.mod_lt _ (by decide)) hlast

/-- Two texts without a mark that is put behind each of them. -/
theorem append_cons_cut {m : Char} (hcs : m ∉ cs) (hcs' : m ∉ cs')
    (h : cs ++ m :: x = cs' ++ m :: y) : cs = cs' ∧ x = y := by
  induction cs generalizing cs' with
  | nil =>
    cases cs' with
    | nil => exact ⟨rfl, List.tail_eq_of_cons_eq h⟩
    | cons d ds =>
      obtain ⟨rfl, -⟩ := List.cons.inj h
      exact absurd List.mem_cons_self hcs'
  | cons c cs ih =>
    cases cs' with
    | nil =>
      obtain ⟨rfl, -⟩ := List.cons.inj h
      exact absurd List.mem_cons_self hcs
    | cons d ds =>
      obtain ⟨rfl, htail⟩ := List.cons.inj h
      obtain ⟨rfl, rfl⟩ := ih (fun hm => hcs (List.mem_cons_of_mem _ hm))
        (fun hm => hcs' (List.mem_cons_of_mem _ hm)) htail
      exact ⟨rfl, rfl⟩

/-! ### Escapes -/

/-- What a letter behind a backslash stands for. -/
def shortEscape : Char → Char
  | '0' => '\x00'
  | 't' => '\t'
  | 'r' => '\r'
  | 'n' => '\n'
  | c => c

/-- The forms of an escaped character: a backslash with one letter, a code point, or the character
itself. -/
inductive EscapeForm (style : QuoteStyle) (c : Char) : List Char → Prop
  | short (letter : Char) : letter ≠ 'u' → shortEscape letter = c →
      EscapeForm style c ['\\', letter]
  | code : EscapeForm style c ('\\' :: 'u' :: '\x7b' :: (Nat.toDigits 16 c.toNat ++ ['\x7d']))
  | plain : c ≠ '\\' → style.escapes c = false → EscapeForm style c [c]

theorem QuoteStyle.eq_of_escapes (h : style.escapes c = true) : c = '\'' ∨ c = '"' := by
  cases style <;> simp [escapes] at h <;> simp [h]

theorem escapeChar_form (style : QuoteStyle) (c : Char) :
    EscapeForm style c (escapeChar style c).toList := by
  unfold escapeChar
  split_ifs with hnull htab hreturn hline hquote hcode
  · exact .short '0' (by decide) (beq_iff_eq.mp hnull).symm
  · exact .short 't' (by decide) (beq_iff_eq.mp htab).symm
  · exact .short 'r' (by decide) (beq_iff_eq.mp hreturn).symm
  · exact .short 'n' (by decide) (beq_iff_eq.mp hline).symm
  · have hquoted : c = '\\' ∨ c = '\'' ∨ c = '"' := by
      rw [Bool.or_eq_true, beq_iff_eq] at hquote
      exact hquote.imp_right QuoteStyle.eq_of_escapes
    have hlist : ("\\" ++ c.toString).toList = ['\\', c] := by simp
    rw [hlist]
    rcases hquoted with rfl | rfl | rfl <;> exact .short _ (by decide) rfl
  · have hlist : (codeEscape c).toList =
        '\\' :: 'u' :: '\x7b' :: (Nat.toDigits 16 c.toNat ++ ['\x7d']) := by
      simp [codeEscape, hexDigits]
    rw [hlist]
    exact .code
  · obtain ⟨hslash, hescapes⟩ : c ≠ '\\' ∧ style.escapes c = false := by simpa using hquote
    rw [Char.toString_eq_singleton, String.toList_singleton]
    exact .plain hslash hescapes

theorem escapeChar_cut
    (h : (escapeChar style c).toList ++ x = (escapeChar style c').toList ++ y) :
    c = c' ∧ x = y := by
  have hc := escapeChar_form style c
  have hc' := escapeChar_form style c'
  generalize (escapeChar style c).toList = cs at h hc
  generalize (escapeChar style c').toList = cs' at h hc'
  -- The first two characters tell the forms apart.
  cases hc with
  | short _ hletter hvalue =>
    cases hc' with
    | short _ _ hvalue' =>
      obtain ⟨-, hrest⟩ := List.cons.inj h
      obtain ⟨rfl, htail⟩ := List.cons.inj hrest
      exact ⟨hvalue.symm.trans hvalue', htail⟩
    | code => exact absurd (List.cons.inj (List.cons.inj h).2).1 hletter
    | plain hne _ => exact absurd (List.cons.inj h).1.symm hne
  | code =>
    cases hc' with
    | short _ hletter _ => exact absurd (List.cons.inj (List.cons.inj h).2).1.symm hletter
    | code =>
      have hdigits : Nat.toDigits 16 c.toNat ++ '\x7d' :: x =
          Nat.toDigits 16 c'.toNat ++ '\x7d' :: y := by simpa using h
      obtain ⟨hnat, htail⟩ :=
        append_cons_cut (brace_not_mem_toDigits _) (brace_not_mem_toDigits _) hdigits
      exact ⟨Char.toNat_inj.mp (toDigits_inj hnat), htail⟩
    | plain hne _ => exact absurd (List.cons.inj h).1.symm hne
  | plain hne _ =>
    cases hc' with
    | short _ _ _ | code => exact absurd (List.cons.inj h).1 hne
    | plain _ _ => exact List.cons.inj h

theorem escapeChar_head (hquote : style.escapes quote = true) :
    ∃ d ds, (escapeChar style c).toList = d :: ds ∧ d ≠ quote := by
  have hc := escapeChar_form style c
  have hslash : '\\' ≠ quote := by
    rcases QuoteStyle.eq_of_escapes hquote with rfl | rfl <;> decide
  generalize (escapeChar style c).toList = cs at hc
  cases hc with
  | short _ _ _ | code => exact ⟨_, _, rfl, hslash⟩
  | plain _ hescapes =>
    refine ⟨_, _, rfl, ?_⟩
    rintro rfl
    exact Bool.noConfusion (hescapes.symm.trans hquote)

/-- Escaped characters up to a closing quote. -/
theorem escaped_cut (hquote : style.escapes quote = true)
    (h : (String.join (cs.map (escapeChar style))).toList ++ quote :: x =
      (String.join (cs'.map (escapeChar style))).toList ++ quote :: y) :
    cs = cs' ∧ x = y := by
  induction cs generalizing cs' with
  | nil =>
    cases cs' with
    | nil => exact ⟨rfl, List.tail_eq_of_cons_eq h⟩
    | cons c' cs' =>
      obtain ⟨d, ds, hd, hne⟩ := escapeChar_head (c := c') hquote
      simp [String.join_cons, hd] at h
      exact absurd h.1.symm hne
  | cons c cs ih =>
    cases cs' with
    | nil =>
      obtain ⟨d, ds, hd, hne⟩ := escapeChar_head (c := c) hquote
      simp [String.join_cons, hd] at h
      exact absurd h.1 hne
    | cons c' cs' =>
      simp only [List.map_cons, String.join_cons, String.toList_append, List.append_assoc] at h
      obtain ⟨rfl, hrest⟩ := escapeChar_cut h
      obtain ⟨rfl, rfl⟩ := ih hrest
      exact ⟨rfl, rfl⟩

theorem quoteText_cut {s t : String}
    (h : (quoteText s).toList ++ x = (quoteText t).toList ++ y) : s = t ∧ x = y := by
  simp only [quoteText, String.toList_append, List.append_assoc] at h
  have hquote : QuoteStyle.double.escapes '"' = true := rfl
  obtain ⟨hlist, hrest⟩ := escaped_cut hquote (List.append_cancel_left h)
  exact ⟨String.toList_inj.mp hlist, hrest⟩

theorem quoteChar_cut (h : (quoteChar c).toList ++ x = (quoteChar c').toList ++ y) :
    c = c' ∧ x = y := by
  simp only [quoteChar, String.toList_append, List.append_assoc] at h
  obtain ⟨rfl, hrest⟩ := escapeChar_cut (List.append_cancel_left h)
  exact ⟨rfl, List.append_cancel_left hrest⟩

end DeclFront
