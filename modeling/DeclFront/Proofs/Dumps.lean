import Mathlib
import DeclFront.Dump
import DeclFront.Proofs.Escapes

/-! What a printed tree shows of the unit. A part is printed over many lines, and nothing of it is
lost: going down the tree, each part can be told from what is printed behind it. -/

namespace DeclFront

/-- The end of a line stands first, or nothing does. -/
def Stops (x : List Char) : Prop := ∀ c ∈ x.head?, c = ',' ∨ c = '\n'

/-- A text of one line that can be followed by a comma. -/
def isInline (s : String) : Bool := s.toList.all (fun c => c != ',' && c != '\n')

theorem isInline_iff {s : String} : isInline s = true ↔ ∀ c ∈ s.toList, c ≠ ',' ∧ c ≠ '\n' := by
  simp [isInline]

namespace Dump

/-- If both are printed alike in front of the ends of their lines, the proposition holds, and what
follows is alike as well. -/
def Shows (d e : Dump) (p : Prop) : Prop :=
  ∀ (depth : Nat) (x y : List Char), Stops x → Stops y →
    (d.block depth).toList ++ x = (e.block depth).toList ++ y → p ∧ x = y

variable {α : Type} {a b n m : String} {d e : Dump} {p q : Prop} {depth : Nat} {x y : List Char}

/-- Every item ends with its line. -/
theorem stops_line (x : List Char) : Stops (",\n".toList ++ x) := by
  intro c hc
  exact .inl (Option.mem_some.mp hc).symm

theorem Shows.imp (h : Shows d e p) (hpq : p → q) : Shows d e q := by
  intro depth x y hx hy heq
  obtain ⟨hp, hrest⟩ := h depth x y hx hy heq
  exact ⟨hpq hp, hrest⟩

theorem Shows.symm (h : Shows d e p) : Shows e d p := by
  intro depth x y hx hy heq
  obtain ⟨hp, hrest⟩ := h depth y x hy hx heq.symm
  exact ⟨hp, hrest.symm⟩

/-! ### Words -/

theorem inline_cut {cs cs' : List Char} (hcs : ∀ c ∈ cs, c ≠ ',' ∧ c ≠ '\n')
    (hcs' : ∀ c ∈ cs', c ≠ ',' ∧ c ≠ '\n') (hx : Stops x) (hy : Stops y)
    (h : cs ++ x = cs' ++ y) : cs = cs' ∧ x = y := by
  induction cs generalizing cs' with
  | nil =>
    cases cs' with
    | nil => exact ⟨rfl, h⟩
    | cons c cs' =>
      obtain rfl : x = c :: (cs' ++ y) := h
      exact absurd (hx c rfl) (not_or.mpr (hcs' c List.mem_cons_self))
  | cons c cs ih =>
    cases cs' with
    | nil =>
      obtain rfl : c :: (cs ++ x) = y := h
      exact absurd (hy c rfl) (not_or.mpr (hcs c List.mem_cons_self))
    | cons c' cs' =>
      obtain ⟨rfl, htail⟩ := List.cons.inj h
      obtain ⟨rfl, rfl⟩ := ih (fun d hd => hcs d (List.mem_cons_of_mem _ hd))
        (fun d hd => hcs' d (List.mem_cons_of_mem _ hd)) htail
      exact ⟨rfl, rfl⟩

theorem shows_word (ha : isInline a = true) (hb : isInline b = true) :
    Shows (.word a) (.word b) (a = b) := by
  intro depth x y hx hy h
  obtain ⟨hlist, hrest⟩ := inline_cut (isInline_iff.mp ha) (isInline_iff.mp hb) hx hy h
  exact ⟨String.toList_inj.mp hlist, hrest⟩

theorem shows_text (s t : String) : Shows (.text s) (.text t) (s = t) := by
  intro depth x y _ _ h
  exact quoteText_cut h

/-! ### Groups -/

theorem shows_tuple (h : Shows d e p) : Shows (.tuple n [d]) (.tuple n [e]) p := by
  intro depth x y _ _ heq
  simp only [tuple, block, blockItems, String.toList_append, List.append_assoc,
    List.append_right_inj] at heq
  obtain ⟨hp, hrest⟩ := h _ _ _ (stops_line _) (stops_line _) heq
  simp only [List.append_right_inj] at hrest
  exact ⟨hp, hrest⟩

theorem stops_newline (x : List Char) : Stops ("\n".toList ++ x) := by
  intro c hc
  exact .inr (Option.mem_some.mp hc).symm

/-- The first line of a word or a tuple. -/
inductive Opens : Dump → String → Prop
  | word {a : String} : isInline a = true → Opens (.word a) a
  | tuple {n : String} {d : Dump} : isInline (n ++ "(") = true → Opens (.tuple n [d]) (n ++ "(")

theorem Opens.line (h : Opens d a) (depth : Nat) (hx : Stops x) :
    isInline a = true ∧ ∃ rest, (d.block depth).toList ++ x = a.toList ++ rest ∧ Stops rest := by
  cases h with
  | word ha => exact ⟨ha, x, rfl, hx⟩
  | tuple hn =>
    refine ⟨hn, ?_⟩
    simp only [Dump.tuple, block, String.toList_append, List.append_assoc, List.append_right_inj]
    exact ⟨_, rfl, stops_newline _⟩

/-- What begins with different lines is not printed alike. -/
theorem shows_of_opens_ne (hd : Opens d a) (he : Opens e b) (hne : a ≠ b) : Shows d e p := by
  intro depth x y hx hy heq
  obtain ⟨ha, rest, hrest, hstop⟩ := hd.line depth hx
  obtain ⟨hb, rest', hrest', hstop'⟩ := he.line depth hy
  rw [hrest, hrest'] at heq
  obtain ⟨hline, -⟩ := inline_cut (isInline_iff.mp ha) (isInline_iff.mp hb) hstop hstop' heq
  exact absurd (String.toList_inj.mp hline) hne

theorem shows_tuple_ne (h : isInline (n ++ "(") = true ∧ isInline (m ++ "(") = true ∧
    n ++ "(" ≠ m ++ "(") : Shows (.tuple n [d]) (.tuple m [e]) p := by
  obtain ⟨hn, hm, hne⟩ := h
  exact shows_of_opens_ne (.tuple hn) (.tuple hm) hne

/-- Fields of the same names, and what they show. -/
inductive FieldsShow : List (String × Dump) → List (String × Dump) → Prop → Prop
  | nil : FieldsShow [] [] True
  | cons {fs gs : List (String × Dump)} (name : String) {d e : Dump} {p q : Prop} :
      d.Shows e p → FieldsShow fs gs q → FieldsShow ((name, d) :: fs) ((name, e) :: gs) (p ∧ q)

variable {fs gs : List (String × Dump)}

theorem FieldsShow.cut (h : FieldsShow fs gs p)
    (heq : (blockItems depth (fs.map (fun f => named f.1 f.2))).toList ++ x =
      (blockItems depth (gs.map (fun f => named f.1 f.2))).toList ++ y) : p ∧ x = y := by
  induction h with
  | nil => exact ⟨trivial, heq⟩
  | cons name hd _ ih =>
    simp only [List.map_cons, blockItems, block, String.toList_append, List.append_assoc,
      List.append_right_inj] at heq
    obtain ⟨hp, hrest⟩ := hd _ _ _ (stops_line _) (stops_line _) heq
    obtain ⟨hq, hxy⟩ := ih (List.append_cancel_left hrest)
    exact ⟨⟨hp, hq⟩, hxy⟩

theorem shows_record (h : FieldsShow ((a, d) :: fs) ((a, e) :: gs) p) :
    Shows (.record n ((a, d) :: fs)) (.record n ((a, e) :: gs)) p := by
  intro depth x y _ _ heq
  simp only [record, List.map_cons, block, String.toList_append, List.append_assoc,
    List.append_right_inj] at heq
  obtain ⟨hp, hrest⟩ := h.cut heq
  simp only [List.append_right_inj] at hrest
  exact ⟨hp, hrest⟩

theorem indentation_succ (depth : Nat) :
    (indentation (depth + 1)).toList = (indentation depth).toList ++ [' ', ' ', ' ', ' '] := by
  simp [indentation, Nat.mul_add, List.replicate_add]

section Lists

variable {f : α → Dump} {R : α → α → Prop} {as bs : List α}

/-- Items at one depth up to the bracket that closes their list. -/
theorem items_cut (h : ∀ a ∈ as, ∀ b, Shows (f a) (f b) (R a b))
    (heq : (blockItems (depth + 1) (as.map f)).toList ++ ((indentation depth).toList ++ ']' :: x) =
      (blockItems (depth + 1) (bs.map f)).toList ++ ((indentation depth).toList ++ ']' :: y)) :
    List.Forall₂ R as bs ∧ x = y := by
  induction as generalizing bs with
  | nil =>
    cases bs with
    | nil => exact ⟨.nil, by simpa [blockItems] using heq⟩
    | cons b bs => simp [blockItems, indentation_succ] at heq
  | cons a as ih =>
    cases bs with
    | nil => simp [blockItems, indentation_succ] at heq
    | cons b bs =>
      simp only [List.map_cons, blockItems, String.toList_append, List.append_assoc,
        List.append_right_inj] at heq
      obtain ⟨hab, hrest⟩ := h a List.mem_cons_self b _ _ _ (stops_line _) (stops_line _) heq
      obtain ⟨hmore, hxy⟩ := ih (fun a' ha => h a' (List.mem_cons_of_mem _ ha))
        (List.append_cancel_left hrest)
      exact ⟨.cons hab hmore, hxy⟩

theorem shows_list (h : ∀ a ∈ as, ∀ b, Shows (f a) (f b) (R a b)) :
    Shows (.list (as.map f)) (.list (bs.map f)) (List.Forall₂ R as bs) := by
  intro depth x y _ _ heq
  cases as with
  | nil =>
    cases bs with
    | nil => exact ⟨.nil, by simpa [list, block] using heq⟩
    | cons b bs => simp [list, block] at heq
  | cons a as =>
    cases bs with
    | nil => simp [list, block] at heq
    | cons b bs =>
      simp only [list, List.map_cons, block, String.toList_append, List.append_assoc,
        List.append_right_inj] at heq
      rw [← List.map_cons, ← List.map_cons] at heq
      exact items_cut h heq

theorem shows_option (o o' : Option α) (h : ∀ a ∈ o, ∀ b, Shows (f a) (f b) (R a b)) :
    Shows (.option (o.map f)) (.option (o'.map f)) (Option.Rel R o o') := by
  intro depth x y hx hy heq
  cases o with
  | none =>
    cases o' with
    | none => exact ⟨.none, by simpa [option, block] using heq⟩
    | some b => simp [option, tuple, block] at heq
  | some a =>
    cases o' with
    | none => simp [option, tuple, block] at heq
    | some b => exact (shows_tuple (h a rfl b)).imp .some depth x y hx hy heq

end Lists

theorem shows_none_some : Shows (.option none) (.option (some d)) p :=
  shows_of_opens_ne (.word (by decide)) (.tuple (by decide)) (by decide)

end Dump

/-! ### Numbers and labels -/

/-- Digits, with points among them. -/
def Numeric (cs : List Char) : Prop := ∀ c ∈ cs, c.isDigit = true ∨ c = '.'

theorem Numeric.isInline {cs : List Char} (h : Numeric cs) :
    isInline (String.ofList cs) = true := by
  rw [isInline_iff, String.toList_ofList]
  intro c hc
  have hnumeric := h c hc
  constructor <;> (rintro rfl; exact absurd hnumeric (by decide))

theorem numeric_toDigits (n : Nat) : Numeric (Nat.toDigits 10 n) :=
  fun _ hc => .inl (Nat.isDigit_of_mem_toDigits (by decide) (by decide) hc)

theorem isInline_nat (n : Nat) : isInline (toString n) = true := by
  rw [Nat.toString_eq_ofList_toDigits]
  exact (numeric_toDigits n).isInline

theorem isInline_append {s t : String} (hs : isInline s = true) (ht : isInline t = true) :
    isInline (s ++ t) = true := by
  rw [isInline, String.toList_append, List.all_append, Bool.and_eq_true]
  exact ⟨hs, ht⟩

theorem isInline_int (v : Int) : isInline (toString v) = true := by
  cases v with
  | ofNat n => exact isInline_nat n
  | negSucc n => exact isInline_append (by decide) (isInline_nat (n + 1))

open Dump

theorem shows_nat (m n : Nat) : Shows (.word (toString m)) (.word (toString n)) (m = n) :=
  (shows_word (isInline_nat m) (isInline_nat n)).imp Nat.repr_inj.mp

theorem shows_int (v w : Int) : Shows (.word (toString v)) (.word (toString w)) (v = w) :=
  (shows_word (isInline_int v) (isInline_int w)).imp Int.repr_inj.mp

theorem shows_bool (b c : Bool) : Shows (.word (toString b)) (.word (toString c)) (b = c) := by
  refine (shows_word ?_ ?_).imp ?_
  · cases b <;> decide
  · cases c <;> decide
  · cases b <;> cases c <;> decide

theorem Primitive.shows_label (p q : Primitive) :
    Shows (.word p.label) (.word q.label) (p = q) := by
  refine (shows_word ?_ ?_).imp ?_
  · cases p <;> decide
  · cases q <;> decide
  · cases p <;> cases q <;> decide

theorem Modifier.shows_label (m n : Modifier) :
    Shows (.word m.label) (.word n.label) (m = n) := by
  refine (shows_word ?_ ?_).imp ?_
  · cases m <;> decide
  · cases n <;> decide
  · cases m <;> cases n <;> decide

theorem Span.shows (s t : Span) : Shows s.dump t.dump (s = t) := by
  refine (shows_record (.cons _ (shows_nat _ _) (.cons _ (shows_nat _ _) .nil))).imp ?_
  rintro ⟨hstart, hstop, -⟩
  obtain ⟨start, stop⟩ := s
  obtain rfl : start = t.start := hstart
  obtain rfl : stop = t.stop := hstop
  rfl

theorem shows_spanned {d e : Dump} {p : Prop} (h : Shows d e p) (s t : Span) :
    Shows (dumpSpanned d s) (dumpSpanned e t) (p ∧ s = t) := by
  refine (shows_record (.cons _ h (.cons _ (s.shows t) .nil))).imp ?_
  rintro ⟨hp, hs, -⟩
  exact ⟨hp, hs⟩

/-! ### Names and types -/

theorem eq_of_forall₂ {α : Type} {as bs : List α} (h : List.Forall₂ Eq as bs) : as = bs := by
  rwa [List.forall₂_eq_eq_eq] at h

theorem Name.shows (m n : Name) : Shows m.dump n.dump (m = n) := by
  refine (shows_record (.cons _ (shows_list (fun s _ t => shows_text s t)) .nil)).imp ?_
  rintro ⟨hsegments, -⟩
  obtain ⟨segments⟩ := m
  obtain rfl : segments = n.segments := eq_of_forall₂ hsegments
  rfl

theorem shows_reference (m n : Name) : Shows (dumpReference m) (dumpReference n) (m = n) :=
  (shows_record (.cons _ (m.shows n) .nil)).imp And.left

theorem TypeArg.dumpList_eq (args : List TypeArg) :
    TypeArg.dumpList args = args.map TypeArg.dump := by
  induction args with
  | nil => rfl
  | cons a args ih => rw [TypeArg.dumpList, List.map_cons, ih]

mutual

theorem TypeNode.shows : ∀ t u : TypeNode, Shows t.dump u.dump (t = u)
  | .primitive p, .primitive q => (shows_tuple (p.shows_label q)).imp (congrArg _)
  | .reference m, .reference n => (shows_tuple (shows_reference m n)).imp (congrArg _)
  | .parameterized m args, .parameterized n args' => by
    have hargs : Shows (.list (TypeArg.dumpList args)) (.list (TypeArg.dumpList args'))
        (args = args') := by
      rw [TypeArg.dumpList_eq, TypeArg.dumpList_eq]
      exact (shows_list (TypeArg.shows_all args)).imp eq_of_forall₂
    refine (shows_tuple (shows_record
      (.cons _ (shows_reference m n) (.cons _ hargs .nil)))).imp ?_
    rintro ⟨rfl, rfl, -⟩
    rfl
  | .array e s, .array e' s' => by
    refine (shows_tuple (shows_record
      (.cons _ (shows_spanned (e.shows e') s s') .nil))).imp ?_
    rintro ⟨⟨rfl, rfl⟩, -⟩
    rfl
  | .primitive _, .reference _ | .primitive _, .parameterized _ _ | .primitive _, .array _ _
  | .reference _, .primitive _ | .reference _, .parameterized _ _ | .reference _, .array _ _
  | .parameterized _ _, .primitive _ | .parameterized _ _, .reference _
  | .parameterized _ _, .array _ _ | .array _ _, .primitive _ | .array _ _, .reference _
  | .array _ _, .parameterized _ _ => shows_tuple_ne (by decide)

theorem TypeArg.shows : ∀ a b : TypeArg, Shows a.dump b.dump (a = b)
  | .type t s, .type t' s' => by
    refine (shows_spanned (shows_tuple (t.shows t')) s s').imp ?_
    rintro ⟨rfl, rfl⟩
    rfl
  | .wildcard s, .wildcard s' => by
    refine (shows_spanned (shows_tuple (shows_word (by decide) (by decide))) s s').imp ?_
    rintro ⟨-, rfl⟩
    rfl
  | .bounded .upper t u s, .bounded .upper t' u' s'
  | .bounded .lower t u s, .bounded .lower t' u' s' => by
    refine (shows_spanned (shows_tuple (shows_tuple (shows_tuple
      (shows_spanned (t.shows t') u u')))) s s').imp ?_
    rintro ⟨⟨rfl, rfl⟩, rfl⟩
    rfl
  | .bounded .upper _ _ s, .bounded .lower _ _ s' | .bounded .lower _ _ s, .bounded .upper _ _ s' =>
    (shows_spanned (shows_tuple (shows_tuple (shows_tuple_ne (by decide)))) s s').imp And.left
  | .wildcard s, .bounded _ _ _ s' => (shows_spanned (shows_tuple shows_none_some) s s').imp And.left
  | .bounded _ _ _ s, .wildcard s' =>
    (shows_spanned (shows_tuple shows_none_some.symm) s s').imp And.left
  | .type _ s, .wildcard s' | .type _ s, .bounded _ _ _ s' | .wildcard s, .type _ s'
  | .bounded _ _ _ s, .type _ s' =>
    (shows_spanned (shows_tuple_ne (by decide)) s s').imp And.left

theorem TypeArg.shows_all : ∀ args : List TypeArg, ∀ a ∈ args, ∀ b, Shows a.dump b.dump (a = b)
  | [], _, ha, _ => by cases ha
  | a :: args, a', ha, b => by
    rcases List.mem_cons.mp ha with h | ha
    · rw [h]
      exact TypeArg.shows a b
    · exact TypeArg.shows_all args a' ha b

end

/-! ### Literals -/

/-- The same literal, or two numbers with a point that are written the same. -/
inductive Literal.Alike : Literal → Literal → Prop
  | refl (l : Literal) : Alike l l
  | float {v w : Finite .single} : v.write .plain = w.write .plain → Alike (.float v) (.float w)
  | double {v w : Finite .double} : v.write .plain = w.write .plain → Alike (.double v) (.double w)

theorem Numeric.subset {cs ds : List Char} (h : Numeric cs) (hsub : ds ⊆ cs) : Numeric ds :=
  fun c hc => h c (hsub hc)

theorem Numeric.append {cs ds : List Char} (hcs : Numeric cs) (hds : Numeric ds) :
    Numeric (cs ++ ds) :=
  fun c hc => (List.mem_append.mp hc).elim (hcs c) (hds c)

theorem Numeric.cons_point {cs : List Char} (h : Numeric cs) : Numeric ('.' :: cs) := by
  intro c hc
  rcases List.mem_cons.mp hc with rfl | hc
  · exact .inr rfl
  · exact h c hc

theorem numeric_zeros (n : Nat) : Numeric (List.replicate n '0') := by
  intro c hc
  rw [List.eq_of_mem_replicate hc]
  exact .inl (by decide)

theorem isInline_writePositional {ds : List Char} (h : Numeric ds) (order : Int) :
    isInline (writePositional ds order) = true := by
  unfold writePositional
  split
  · exact isInline_append (by decide) ((numeric_zeros _).append h).isInline
  · have hwhole := (h.subset (List.take_subset (order.toNat + 1) ds)).append
      (numeric_zeros (order.toNat + 1 - ds.length))
    have hfraction := h.subset (List.drop_subset (order.toNat + 1) ds)
    refine (hwhole.append (Numeric.cons_point ?_)).isInline
    split
    · exact numeric_zeros 1
    · exact hfraction

theorem isInline_writeExponential {ds : List Char} (h : Numeric ds) (order : Int) :
    isInline (writeExponential ds order) = true := by
  unfold writeExponential
  refine isInline_append (isInline_append (Numeric.isInline ?_) (by decide)) (isInline_int order)
  split
  · next first second rest =>
    have hfirst : Numeric [first] := h.subset (by simp)
    exact hfirst.append (h.subset (List.subset_cons_self first _)).cons_point
  · exact h

theorem Finite.numeric_shortest {f : BinaryFormat} (x : Finite f) : Numeric x.shortest.1 := by
  refine (numeric_toDigits x.rounding.shortest.1).subset (fun c hc => ?_)
  have hdropped : c ∈ (Nat.toDigits 10 x.rounding.shortest.1).reverse.dropWhile (· == '0') :=
    List.mem_reverse.mp hc
  exact List.mem_reverse.mp ((List.dropWhile_sublist _).subset hdropped)

theorem Finite.isInline_write {f : BinaryFormat} (x : Finite f) :
    isInline (x.write .plain) = true := by
  have hsign : isInline (if x.negative then "-" else "") = true := by cases x.negative <;> decide
  have hdigits := x.numeric_shortest
  unfold write
  generalize x.shortest = shortest at hdigits
  obtain ⟨ds, order⟩ := shortest
  dsimp only at hdigits ⊢
  by_cases hzero : x.magnitude = 0
  · rw [if_pos hzero]
    exact isInline_append hsign (t := "0.0") (by decide)
  · rw [if_neg hzero]
    refine isInline_append hsign ?_
    split_ifs
    · exact isInline_writePositional hdigits order
    · exact isInline_writeExponential hdigits order

theorem Dump.shows_char (c d : Char) :
    Shows (.word (quoteChar c)) (.word (quoteChar d)) (c = d) :=
  fun _ _ _ _ _ h => quoteChar_cut h

/-- The first line of a literal, which tells its kind. -/
def Literal.opening : Literal → String
  | int _ => "Int" ++ "("
  | long _ => "Long" ++ "("
  | float _ => "Float" ++ "("
  | double _ => "Double" ++ "("
  | char _ => "Char" ++ "("
  | string _ => "String" ++ "("
  | bool _ => "Bool" ++ "("
  | null => "Null"

theorem Literal.opens (l : Literal) : Opens l.dump l.opening := by
  cases l with
  | null => exact .word (by decide)
  | _ => exact .tuple (by decide)

theorem Literal.shows (a b : Literal) : Shows a.dump b.dump (a.Alike b) := by
  cases a <;> cases b
  case int.int v w => exact (shows_tuple (shows_int v w)).imp (fun h => h ▸ .refl _)
  case long.long v w => exact (shows_tuple (shows_int v w)).imp (fun h => h ▸ .refl _)
  case float.float v w =>
    exact (shows_tuple (shows_word v.isInline_write w.isInline_write)).imp .float
  case double.double v w =>
    exact (shows_tuple (shows_word v.isInline_write w.isInline_write)).imp .double
  case char.char c d => exact (shows_tuple (shows_char c d)).imp (fun h => h ▸ .refl _)
  case string.string s t => exact (shows_tuple (shows_text s t)).imp (fun h => h ▸ .refl _)
  case bool.bool b c => exact (shows_tuple (shows_bool b c)).imp (fun h => h ▸ .refl _)
  case null.null => exact (shows_word (by decide) (by decide)).imp (fun _ => .refl _)
  all_goals exact shows_of_opens_ne (Literal.opens _) (Literal.opens _) (by simp [opening])

/-! ### Units -/

/-- Parts at the same place that are alike. -/
def Spanned.Alike {α : Type} (R : α → α → Prop) (s t : Spanned α) : Prop :=
  R s.node t.node ∧ s.span = t.span

/-- The same members but for initializers, which may differ as literals that are alike. -/
inductive Member.Alike : Member → Member → Prop
  | field {f g : Field} : f.modifiers = g.modifiers → f.type = g.type → f.name = g.name →
      Option.Rel (Spanned.Alike Literal.Alike) f.init g.init → Alike (.field f) (.field g)
  | method (m : Method) : Alike (.method m) (.method m)

theorem Spanned.shows {α : Type} {f : α → Dump} {R : α → α → Prop}
    (h : ∀ a b, Shows (f a) (f b) (R a b)) (s t : Spanned α) :
    Shows (s.dump f) (t.dump f) (s.Alike R t) :=
  shows_spanned (h s.node t.node) s.span t.span

theorem Spanned.shows_eq {α : Type} {f : α → Dump} (h : ∀ a b, Shows (f a) (f b) (a = b))
    (s t : Spanned α) : Shows (s.dump f) (t.dump f) (s = t) := by
  refine (s.shows h t).imp ?_
  rintro ⟨hnode, hspan⟩
  obtain ⟨node, span⟩ := s
  obtain rfl : node = t.node := hnode
  obtain rfl : span = t.span := hspan
  rfl

theorem shows_list_eq {α : Type} {f : α → Dump} (h : ∀ a b, Shows (f a) (f b) (a = b))
    (as bs : List α) : Shows (.list (as.map f)) (.list (bs.map f)) (as = bs) :=
  (shows_list (fun a _ b => h a b)).imp eq_of_forall₂

theorem shows_modifiers (ms ns : List (Spanned Modifier)) :
    Shows (dumpModifiers ms) (dumpModifiers ns) (ms = ns) :=
  shows_list_eq (Spanned.shows_eq Modifier.shows_label) ms ns

theorem ReturnType.shows : ∀ r r' : ReturnType, Shows r.dump r'.dump (r = r')
  | .void, .void => (shows_word (by decide) (by decide)).imp (fun _ => rfl)
  | .type t, .type u => (shows_tuple (t.shows u)).imp (congrArg _)
  | .void, .type _ => shows_of_opens_ne (.word (by decide)) (.tuple (by decide)) (by decide)
  | .type _, .void => shows_of_opens_ne (.tuple (by decide)) (.word (by decide)) (by decide)

theorem Import.shows (i j : Import) : Shows i.dump j.dump (i = j) := by
  obtain ⟨path, wildcard⟩ := i
  obtain ⟨path', wildcard'⟩ := j
  refine (shows_record (.cons _ (path.shows path') (.cons _ (shows_bool _ _) .nil))).imp ?_
  rintro ⟨rfl, rfl, -⟩
  rfl

theorem Param.shows (p q : Param) : Shows p.dump q.dump (p = q) := by
  obtain ⟨isFinal, type, name⟩ := p
  obtain ⟨isFinal', type', name'⟩ := q
  refine (shows_record (.cons _ (shows_bool isFinal isFinal')
    (.cons _ (type.shows_eq TypeNode.shows type')
      (.cons _ (name.shows_eq shows_text name') .nil)))).imp ?_
  rintro ⟨rfl, rfl, rfl, -⟩
  rfl

theorem Member.shows : ∀ m n : Member, Shows m.dump n.dump (m.Alike n)
  | .field f, .field g => by
    have hinit := shows_option (R := Spanned.Alike Literal.Alike) f.init g.init
      (fun l _ l' => l.shows Literal.shows l')
    refine (shows_tuple (shows_record (.cons _ (shows_modifiers f.modifiers g.modifiers)
      (.cons _ (f.type.shows_eq TypeNode.shows g.type)
        (.cons _ (f.name.shows_eq shows_text g.name) (.cons _ hinit .nil)))))).imp ?_
    rintro ⟨hmodifiers, htype, hname, hinit, -⟩
    exact .field hmodifiers htype hname hinit
  | .method ⟨modifiers, returns, name, params⟩, .method ⟨modifiers', returns', name', params'⟩ => by
    refine (shows_tuple (shows_record (.cons _ (shows_modifiers modifiers modifiers')
      (.cons _ (returns.shows_eq ReturnType.shows returns')
        (.cons _ (name.shows_eq shows_text name')
          (.cons _ (shows_list_eq (Spanned.shows_eq Param.shows) params params') .nil)))))).imp ?_
    rintro ⟨rfl, rfl, rfl, rfl, -⟩
    exact .method _
  | .field _, .method _ | .method _, .field _ => shows_tuple_ne (by decide)

theorem eq_of_optionRel {α : Type} {o o' : Option α} (h : Option.Rel Eq o o') : o = o' := by
  cases h with
  | none => rfl
  | some h => rw [h]

/-- Two units that are printed alike are the same but for initializers with a point, and these are
written the same. -/
theorem CompilationUnit.block_dump_inj {u v : CompilationUnit}
    (h : u.dump.block 0 = v.dump.block 0) :
    u.package = v.package ∧ u.imports = v.imports ∧
      List.Forall₂ (Spanned.Alike Member.Alike) u.members v.members := by
  have hpackage := shows_option (R := Eq) u.package v.package
    (fun p _ p' => p.shows_eq Name.shows p')
  have hmembers : Shows (.list (u.members.map (Spanned.dump Member.dump)))
      (.list (v.members.map (Spanned.dump Member.dump)))
      (List.Forall₂ (Spanned.Alike Member.Alike) u.members v.members) :=
    shows_list (fun m _ n => m.shows Member.shows n)
  have hunit : Shows u.dump v.dump _ := shows_record (.cons _ hpackage
    (.cons _ (shows_list_eq (Spanned.shows_eq Import.shows) u.imports v.imports)
      (.cons _ hmembers .nil)))
  have hstop : Stops [] := nofun
  obtain ⟨⟨hpackages, himports, hmembers, -⟩, -⟩ := hunit 0 [] [] hstop hstop (by rw [h])
  exact ⟨eq_of_optionRel hpackages, himports, hmembers⟩

end DeclFront
