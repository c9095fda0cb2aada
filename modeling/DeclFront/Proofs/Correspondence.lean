import DeclFront.Proofs.Framing
import Mathlib.Data.List.Forall2

/-! Two lists of tokens that differ in nothing but the spans are read in the same way. Every reader
takes the same branch on both, and where its result has a place, that is the place of a token. -/

namespace DeclFront

/-! ### Twins -/

/-- Tokens that read the same and have the same number in two lists. -/
structure Twin (source target : List Token) (t t' : Token) : Prop where
  kind : t'.kind = t.kind
  text : t'.text = t.text
  number : ∃ i : Nat, source[i]? = some t ∧ target[i]? = some t'

abbrev Twins (source target : List Token) : List Token → List Token → Prop :=
  List.Forall₂ (Twin source target)

def Span.Twins (source target : List Token) (s s' : Span) : Prop :=
  ∃ t t', Twin source target t t' ∧ s = t.span ∧ s' = t'.span

/-- The same part of a tree, with the place of a token in each list. -/
def Spanned.Twins {α : Type} (source target : List Token) (a b : Spanned α) : Prop :=
  b.node = a.node ∧ a.span.Twins source target b.span

inductive Cause.Twins (source target : List Token) : Cause → Cause → Prop
  | illegal {t t' : Token} (h : Twin source target t t') (expected : String) :
      Twins source target (.illegalToken t expected) (.illegalToken t' expected)
  | same {c : Cause} (hc : ∀ t expected, c ≠ .illegalToken t expected) : Twins source target c c

/-- The same note, except for the place of an earlier declaration. -/
inductive TwinNotes (source target : List Token) : String → String → Prop
  | same (note : String) : TwinNotes source target note note
  | declared {s s' : Span} (h : s.Twins source target s') :
      TwinNotes source target (Diagnostic.firstDeclaredAt s) (Diagnostic.firstDeclaredAt s')

structure Diagnostic.Twins (source target : List Token) (d d' : Diagnostic) : Prop where
  cause : d.cause.Twins source target d'.cause
  message : d'.message = d.message
  hints : d'.hints = d.hints
  notes : List.Forall₂ (TwinNotes source target) d.notes d'.notes
  span : d.span.Twins source target d'.span

inductive TwinResults {α : Type} (source target : List Token) (R : α → α → Prop) :
    Except Diagnostic α → Except Diagnostic α → Prop
  | ok {a b : α} (h : R a b) : TwinResults source target R (.ok a) (.ok b)
  | error {d d' : Diagnostic} (h : d.Twins source target d') :
      TwinResults source target R (.error d) (.error d')

/-- Both readings succeed, with related values, or both fail at the same place. -/
inductive Reading.Twins {α : Type} {us vs : List Token} (source target : List Token)
    (R : α → α → Prop) : Reading α us → Reading α vs → Prop
  | ok {p : Parsed α us} {q : Parsed α vs} (hv : R p.value q.value)
      (hr : DeclFront.Twins source target p.rest q.rest) : Twins source target R (.ok p) (.ok q)
  | error {s s' : Stop} (hd : s.diagnostic.Twins source target s'.diagnostic)
      (hl : s'.left = s.left) : Twins source target R (.error s) (.error s')

/-- Seen in a certain way the two are the same. -/
def Alike {α β : Type} (view : α → β) (a b : α) : Prop := view b = view a

/-! Parts of a tree: what has the place of a token in one has it in the other, and the rest is the
same up to its places. -/

structure Param.Twins (source target : List Token) (p q : Param) : Prop where
  isFinal : q.isFinal = p.isFinal
  type : q.type.node.unplaced = p.type.node.unplaced
  name : p.name.Twins source target q.name

structure Field.Twins (source target : List Token) (f g : Field) : Prop where
  modifiers : List.Forall₂ (Spanned.Twins source target) f.modifiers g.modifiers
  type : g.type.node.unplaced = f.type.node.unplaced
  name : f.name.Twins source target g.name
  init : Option.Rel (Spanned.Twins source target) f.init g.init

structure Method.Twins (source target : List Token) (m n : Method) : Prop where
  modifiers : List.Forall₂ (Spanned.Twins source target) m.modifiers n.modifiers
  returns : n.returns.node.unplaced = m.returns.node.unplaced
  name : m.name.Twins source target n.name
  params : List.Forall₂ (fun p q => p.node.Twins source target q.node) m.params n.params

inductive Member.Twins (source target : List Token) : Member → Member → Prop
  | field {f g : Field} (h : f.Twins source target g) : Twins source target (.field f) (.field g)
  | method {m n : Method} (h : m.Twins source target n) :
      Twins source target (.method m) (.method n)

variable {α β : Type} {source target us us' : List Token} {t t' eof eof' : Token}

theorem Twin.span (h : Twin source target t t') : t.span.Twins source target t'.span :=
  ⟨t, t', h, rfl, rfl⟩

theorem Twin.isPunct (h : Twin source target t t') (p : Punctuation) :
    t'.isPunct p = t.isPunct p := by
  rw [Token.isPunct, Token.isPunct, h.kind]

theorem Twin.argumentHint (h : Twin source target t t') :
    primitiveArgumentHint t' = primitiveArgumentHint t := by
  unfold primitiveArgumentHint
  rw [h.text]

theorem Diagnostic.Twins.of_span {c : Cause} {message : String} {notes hints : List String}
    {s s' : Span} (hc : ∀ t expected, c ≠ .illegalToken t expected)
    (h : s.Twins source target s') :
    Diagnostic.Twins source target ⟨c, message, s, notes, hints⟩ ⟨c, message, s', notes, hints⟩ :=
  ⟨.same hc, rfl, rfl, List.forall₂_same.mpr (fun note _ => .same note), h⟩

theorem Twin.illegal (h : Twin source target t t') (expected : String) :
    (Diagnostic.illegalToken t expected).Twins source target (.illegalToken t' expected) := by
  have hdescribe : t'.describe = t.describe := by
    rw [Token.describe, Token.describe, h.kind, h.text]
  refine ⟨.illegal h expected, ?_, rfl, .nil, h.span⟩
  simp only [Diagnostic.illegalToken, Diagnostic.ofCause, hdescribe]

theorem Twin.misplaced (h : Twin source target t t') :
    (Diagnostic.misplacedClause t).Twins source target (.misplacedClause t') := by
  refine ⟨.same nofun, ?_, rfl, .nil, h.span⟩
  simp only [Diagnostic.misplacedClause, Diagnostic.syntactic, Diagnostic.ofCause, h.text]

theorem Span.Twins.outOfRange {s s' : Span} (h : s.Twins source target s') (text type : String) :
    (Diagnostic.literalOutOfRange text type s).Twins source target
      (.literalOutOfRange text type s') := .of_span nofun h

theorem Diagnostic.Twins.withNote {d d' : Diagnostic} {n n' : String}
    (h : d.Twins source target d') (hn : TwinNotes source target n n') :
    (d.withNote n).Twins source target (d'.withNote n') :=
  ⟨h.cause, h.message, h.hints, List.rel_append h.notes (.cons hn .nil), h.span⟩

theorem Diagnostic.Twins.withHint {d d' : Diagnostic} (h : d.Twins source target d')
    (hint : String) : (d.withHint hint).Twins source target (d'.withHint hint) :=
  ⟨h.cause, h.message, congrArg (· ++ [hint]) h.hints, h.notes, h.span⟩

/-! ### Readings one after the other -/

section Readings

variable {ts ts' : List Token} {R : α → α → Prop} {S : β → β → Prop}

theorem Reading.Twins.bind {x : Reading α us} {y : Reading α us'} {f : Parsed α us → Reading β ts}
    {g : Parsed α us' → Reading β ts'} (h : x.Twins source target R y)
    (hfg : ∀ p q, R p.value q.value → DeclFront.Twins source target p.rest q.rest →
      (f p).Twins source target S (g q)) :
    Reading.Twins source target S (x >>= f) (y >>= g) := by
  cases h with
  | ok hv hr => exact hfg _ _ hv hr
  | error hd hl => exact .error hd hl

theorem Reading.Twins.map {x : Reading α us} {y : Reading α us'} {f : Parsed α us → Parsed β ts}
    {g : Parsed α us' → Parsed β ts'} (h : x.Twins source target R y)
    (hfg : ∀ p q, R p.value q.value →
      S (f p).value (g q).value ∧ (f p).rest = p.rest ∧ (g q).rest = q.rest) :
    Reading.Twins source target S (x >>= fun p => pure (f p)) (y >>= fun q => pure (g q)) := by
  refine h.bind (fun p q hv hr => ?_)
  obtain ⟨hS, hf, hg⟩ := hfg p q hv
  exact .ok hS (by rwa [hf, hg])

theorem Twins.error {d d' : Diagnostic} (h : Twins source target us us')
    (hd : d.Twins source target d') :
    Reading.Twins source target R (.error (.before us d) : Reading α ts)
      (.error (.before us' d') : Reading α ts') :=
  .error hd h.length_eq.symm

end Readings

/-! ### Single tokens and names -/

section Readers

variable (he : Twin source target eof eof') (h : Twins source target us us')

include h in
theorem Twins.atPunct_eq (p : Punctuation) : atPunct p us' = atPunct p us := by
  cases h with
  | nil => rfl
  | cons ht _ => simpa only [atPunct_cons] using ht.isPunct p

include he h

theorem Twins.current : Twin source target (current eof us) (current eof' us') := by
  cases h with
  | nil => exact he
  | cons ht _ => exact ht

theorem readKind_twins (kind : TokenKind) (expected : String) :
    (readKind kind expected eof us).Twins source target (Twin source target)
      (readKind kind expected eof' us') := by
  cases h with
  | nil => exact Twins.error .nil (he.illegal expected)
  | cons ht hts =>
    unfold readKind
    simp only [ht.kind]
    split
    · exact .ok ht hts
    · exact Twins.error (.cons ht hts) (ht.illegal expected)

theorem readIdent_twins :
    (readIdent eof us).Twins source target (Spanned.Twins source target) (readIdent eof' us') :=
  (readKind_twins he h _ _).map (fun _ _ hv => ⟨⟨hv.text, hv.span⟩, rfl, rfl⟩)

theorem readPunct_twins (p : Punctuation) :
    (readPunct p eof us).Twins source target (Alike (fun _ => ())) (readPunct p eof' us') :=
  (readKind_twins he h _ _).map (fun _ _ _ => ⟨rfl, rfl, rfl⟩)

omit he in
theorem dottedTail_twins :
    (dottedTail us').1.map (·.node) = (dottedTail us).1.map (·.node) ∧
      Twins source target (dottedTail us).2 (dottedTail us').2 := by
  fun_induction dottedTail us generalizing us' with
  | case1 d i rest hdi ih =>
    cases h with
    | cons hd h =>
      cases h with
      | @cons _ i' _ rest' hi h =>
        obtain ⟨hnodes, hrest⟩ := ih h
        simp only [dottedTail, hd.isPunct, hi.kind, hdi, if_true, List.map_cons, hi.text, hnodes]
        exact ⟨trivial, hrest⟩
  | case2 d i rest hdi =>
    cases h with
    | cons hd h =>
      cases h with
      | cons hi h =>
        simp only [dottedTail, hd.isPunct, hi.kind, hdi, Bool.false_eq_true, if_false]
        exact ⟨trivial, .cons hd (.cons hi h)⟩
  | case3 us hus =>
    rcases h with _ | ⟨hd, _ | ⟨hi, h⟩⟩
    · exact ⟨rfl, .nil⟩
    · exact ⟨rfl, .cons hd .nil⟩
    · exact absurd rfl (hus _ _ _)

theorem readName_twins :
    (readName eof us).Twins source target (Alike Spanned.node) (readName eof' us') := by
  refine (readIdent_twins he h).bind (fun first first' hv hr => ?_)
  obtain ⟨hnodes, hrest⟩ := dottedTail_twins hr
  refine .ok ?_ hrest
  simp only [Alike, hv.1, hnodes]

/-! ### Types -/

theorem arraySuffix_twins {b b' : Spanned TypeNode} (hb : b'.node.unplaced = b.node.unplaced) :
    (∃ a a' rest rest', arraySuffix eof b us = .ok (a, rest) ∧
      arraySuffix eof' b' us' = .ok (a', rest') ∧ a'.node.unplaced = a.node.unplaced ∧
      Twins source target rest rest') ∨
    ∃ s s', arraySuffix eof b us = .error s ∧ arraySuffix eof' b' us' = .error s' ∧
      s.diagnostic.Twins source target s'.diagnostic ∧ s'.left = s.left := by
  fun_induction arraySuffix eof b us generalizing b' us' with
  | case1 b =>
    cases h with
    | nil => exact .inl ⟨b, b', [], [], rfl, by simp [arraySuffix], hb, .nil⟩
  | case2 b l hl =>
    cases h with
    | cons hd h =>
      cases h with
      | nil =>
        refine .inr ⟨_, .before [] (.illegalToken eof' "']'"), rfl, ?_, he.illegal "']'", rfl⟩
        simp only [arraySuffix, hd.isPunct, hl, if_true]
  | case3 b l hl =>
    cases h with
    | cons hd h =>
      cases h with
      | nil =>
        refine .inl ⟨b, b', [l], _, rfl, ?_, hb, .cons hd .nil⟩
        simp only [arraySuffix, hd.isPunct, hl, Bool.false_eq_true, if_false]
  | case4 b l r rest hl hr ih =>
    cases h with
    | cons hd h =>
      cases h with
      | @cons _ r' _ rest' hi h =>
        simp only [arraySuffix, hd.isPunct, hi.isPunct, hl, hr, if_true]
        exact ih h (by simp [TypeNode.unplaced, hb])
  | case5 b l r rest hl hr =>
    cases h with
    | cons hd h =>
      cases h with
      | @cons _ r' _ rest' hi h =>
        refine .inr ⟨_, .before (r' :: rest') (.illegalToken r' "']'"), rfl, ?_,
          hi.illegal "']'", (List.Forall₂.cons hi h).length_eq.symm⟩
        simp only [arraySuffix, hd.isPunct, hi.isPunct, hl, hr, if_true, Bool.false_eq_true,
          if_false]
  | case6 b l r rest hl =>
    cases h with
    | cons hd h =>
      cases h with
      | @cons _ r' _ rest' hi h =>
        refine .inl ⟨b, b', _, _, rfl, ?_, hb, .cons hd (.cons hi h)⟩
        simp only [arraySuffix, hd.isPunct, hl, Bool.false_eq_true, if_false]

theorem readReference_twins
    (ht : (readType eof us).Twins source target (Alike (·.node.unplaced)) (readType eof' us')) :
    (readReference eof us).Twins source target (Alike (·.node.unplaced))
      (readReference eof' us') := by
  have hfirst := Twins.current he h
  have hhint := hfirst.argumentHint
  rw [readReference, readReference]
  refine ht.bind (fun p q hv hr => ?_)
  have htype : q.value.node.unplaced = p.value.node.unplaced := hv
  have hprimitive : q.value.node.isPrimitive = p.value.node.isPrimitive := by
    rw [← isPrimitive_unplaced, htype, isPrimitive_unplaced]
  dsimp only
  rw [hprimitive, hhint]
  split
  · exact Twins.error hr ((hfirst.illegal _).withHint _)
  · exact .ok hv hr

theorem readArg_twins (ht : ∀ vs vs', vs.length ≤ us.length → Twins source target vs vs' →
      (readType eof vs).Twins source target (Alike (·.node.unplaced)) (readType eof' vs')) :
    (readArg eof us).Twins source target (Alike TypeArg.unplaced) (readArg eof' us') := by
  have htype (hv : Twins source target us us') :=
    readReference_twins he hv (ht _ _ (Nat.le_refl _) hv)
  cases h with
  | nil =>
    rw [readArg, readArg]
    exact (htype .nil).map (fun _ _ hv => ⟨by simpa [Alike, TypeArg.unplaced] using hv, rfl, rfl⟩)
  | @cons q q' after after' hq hafter =>
    rw [readArg, readArg, hq.isPunct]
    have hbound : boundAt? after' = boundAt? after := by
      cases hafter with
      | nil => rfl
      | cons hw _ => simp [boundAt?, hw.kind]
    rw [hbound]
    split
    · split
      · have hdrop := List.forall₂_drop 1 hafter
        have hread := ht _ _ (by simp only [List.length_drop, List.length_cons]; omega) hdrop
        exact (readReference_twins he hdrop hread).map
          (fun _ _ hv => ⟨by simpa [Alike, TypeArg.unplaced] using hv, rfl, rfl⟩)
      · exact .ok rfl hafter
    · exact (htype (.cons hq hafter)).map
        (fun _ _ hv => ⟨by simpa [Alike, TypeArg.unplaced] using hv, rfl, rfl⟩)

theorem readArgs_twins (ht : ∀ vs vs', vs.length ≤ us.length → Twins source target vs vs' →
      (readType eof vs).Twins source target (Alike (·.node.unplaced)) (readType eof' vs')) :
    (readArgs eof us).Twins source target (Alike TypeArg.unplacedList) (readArgs eof' us') := by
  induction hn : us.length using Nat.strongRecOn generalizing us us' with
  | _ n ih =>
    subst hn
    rw [readArgs, readArgs]
    refine (readArg_twins he h ht).bind (fun arg arg' hv hr => ?_)
    have hlt := arg.shorter
    simp only [Alike] at hv
    rw [hr.atPunct_eq]
    split
    · have hshort : (arg.rest.drop 1).length < us.length := by
        simp only [List.length_drop]
        omega
      have hmore := ih _ hshort (List.forall₂_drop 1 hr)
        (fun vs vs' hle => ht vs vs' (by omega)) rfl
      exact hmore.map (fun _ _ hv' => ⟨by simp_all [Alike, TypeArg.unplacedList], rfl, rfl⟩)
    · exact .ok (by simp [Alike, TypeArg.unplacedList, hv]) hr

theorem readBase_twins (ht : ∀ vs vs', vs.length < us.length → Twins source target vs vs' →
      (readType eof vs).Twins source target (Alike (·.node.unplaced)) (readType eof' vs')) :
    (readBase eof us).Twins source target (Alike (·.node.unplaced)) (readBase eof' us') := by
  have hfirst := Twins.current he h
  rw [readBase, readBase, hfirst.kind]
  split
  · exact (readKind_twins he h _ _).map (fun _ _ _ => ⟨rfl, rfl, rfl⟩)
  · split
    · refine (readName_twins he h).bind (fun name name' hv hr => ?_)
      have hlt := name.shorter
      simp only [Alike] at hv
      rw [hr.atPunct_eq]
      split
      · have hargs := readArgs_twins he (List.forall₂_drop 1 hr) (fun vs vs' hle => ht vs vs' (by
          simp only [List.length_drop] at hle
          omega))
        refine hargs.bind (fun args args' hv' hr' => ?_)
        exact (readPunct_twins he hr' _).map
          (fun _ _ _ => ⟨by simp_all [Alike, TypeNode.unplaced], rfl, rfl⟩)
      · exact .ok (by simp [Alike, hv]) hr
    · exact Twins.error h (hfirst.illegal _)

theorem readType_twins :
    (readType eof us).Twins source target (Alike (·.node.unplaced)) (readType eof' us') := by
  -- Type arguments are read from shorter lists, so the induction is on the length.
  induction hn : us.length using Nat.strongRecOn generalizing us us' with
  | _ n ih =>
    subst hn
    have hbase := readBase_twins he h (fun vs vs' hlt hvs => ih vs.length hlt hvs rfl)
    cases hb : readBase eof us with
    | error s =>
      rw [hb] at hbase
      cases hb' : readBase eof' us' with
      | ok _ =>
        rw [hb'] at hbase
        cases hbase
      | error s' =>
        rw [hb'] at hbase
        rw [readType_error hb, readType_error hb']
        cases hbase with
        | error hd hl => exact .error hd hl
    | ok base =>
      rw [hb] at hbase
      cases hb' : readBase eof' us' with
      | error s' =>
        rw [hb'] at hbase
        cases hbase
      | ok base' =>
        rw [hb'] at hbase
        cases hbase with
        | ok hv hr =>
          obtain ⟨a, a', rest, rest', hs, hs', ha, hrest⟩ | ⟨s, s', hs, hs', hd, hl⟩ :=
            arraySuffix_twins he hr hv
          · obtain ⟨r, hread, rfl, rfl⟩ := readType_suffix_ok hb hs
            obtain ⟨r', hread', rfl, rfl⟩ := readType_suffix_ok hb' hs'
            rw [hread, hread']
            exact .ok ha hrest
          · rw [readType_suffix_error hb hs, readType_suffix_error hb' hs']
            exact .error hd hl

theorem resolveType_twins :
    (resolveType eof us).Twins source target (Alike (·.node.unplaced)) (resolveType eof' us') := by
  have hread := readType_twins he h
  unfold resolveType
  generalize readType eof us = x at hread
  generalize readType eof' us' = y at hread
  cases hread with
  | ok hv hr => exact .ok hv hr
  | error hd _ => exact Twins.error h hd

/-! ### Declarations -/

theorem readPackage_twins :
    (readPackage eof us).Twins source target (Alike Spanned.node) (readPackage eof' us') := by
  cases h with
  | nil => exact Twins.error .nil (he.illegal _)
  | cons hw h =>
    refine (readName_twins he h).bind (fun name name' hv hr => ?_)
    exact (readPunct_twins he hr _).map (fun _ _ _ => ⟨hv, rfl, rfl⟩)

theorem readImportEnd_twins :
    (readImportEnd eof us).Twins source target (Alike Prod.fst) (readImportEnd eof' us') := by
  unfold readImportEnd
  rw [h.atPunct_eq]
  split
  · refine (readPunct_twins he (List.forall₂_drop 1 h) _).bind (fun star star' _ hr => ?_)
    exact (readPunct_twins he hr _).map (fun _ _ _ => ⟨rfl, rfl, rfl⟩)
  · exact (readPunct_twins he h _).map (fun _ _ _ => ⟨rfl, rfl, rfl⟩)

theorem readImport_twins :
    (readImport eof us).Twins source target (Alike Spanned.node) (readImport eof' us') := by
  cases h with
  | nil => exact Twins.error .nil (he.illegal _)
  | cons hw h =>
    refine (readName_twins he h).bind (fun path path' hv hr => ?_)
    refine (readImportEnd_twins he hr).map (fun tail tail' hv' => ⟨?_, rfl, rfl⟩)
    simp only [Alike] at hv hv'
    simp [Alike, hv, hv']

omit he in
theorem takeModifiers_twins :
    List.Forall₂ (Spanned.Twins source target) (takeModifiers us).1 (takeModifiers us').1 ∧
      Twins source target (takeModifiers us).2 (takeModifiers us').2 := by
  induction h with
  | nil => exact ⟨.nil, .nil⟩
  | cons ht hts ih =>
    simp only [takeModifiers, ht.kind]
    split
    · exact ⟨.cons ⟨rfl, ht.span⟩ ih.1, ih.2⟩
    · exact ⟨.nil, .cons ht hts⟩

theorem readReturn_twins :
    (readReturn eof us).Twins source target (Alike (·.node.unplaced)) (readReturn eof' us') := by
  have hfirst := Twins.current he h
  unfold readReturn
  rw [hfirst.kind]
  split
  · exact (readKind_twins he h _ _).map (fun _ _ _ => ⟨rfl, rfl, rfl⟩)
  · split
    · refine (resolveType_twins he h).map (fun p q hv => ⟨?_, rfl, rfl⟩)
      exact congrArg ReturnType.type hv
    · exact Twins.error h (hfirst.illegal _)

theorem readTypedName_twins :
    (readTypedName eof us).Twins source target
      (fun p q => q.1.node.unplaced = p.1.node.unplaced ∧ p.2.Twins source target q.2)
      (readTypedName eof' us') := by
  have hfirst := Twins.current he h
  unfold readTypedName
  rw [hfirst.kind]
  split
  · exact Twins.error h (hfirst.illegal _)
  · refine (resolveType_twins he h).bind (fun type type' hv hr => ?_)
    exact (readIdent_twins he hr).map (fun _ _ hv' => ⟨⟨hv, hv'⟩, rfl, rfl⟩)

theorem readParam_twins :
    (readParam eof us).Twins source target (fun p q => p.node.Twins source target q.node)
      (readParam eof' us') := by
  have hfirst := Twins.current he h
  unfold readParam
  rw [hfirst.kind]
  split
  · exact (readTypedName_twins he (List.forall₂_drop 1 h)).map
      (fun _ _ hv => ⟨⟨rfl, hv.1, hv.2⟩, rfl, rfl⟩)
  · exact (readTypedName_twins he h).map (fun _ _ hv => ⟨⟨rfl, hv.1, hv.2⟩, rfl, rfl⟩)

theorem readParams_twins :
    (readParams eof us).Twins source target
      (List.Forall₂ (fun p q => p.node.Twins source target q.node)) (readParams eof' us') := by
  induction hn : us.length using Nat.strongRecOn generalizing us us' with
  | _ n ih =>
    subst hn
    rw [readParams, readParams]
    refine (readParam_twins he h).bind (fun param param' hv hr => ?_)
    have hlt := param.shorter
    rw [hr.atPunct_eq]
    split
    · have hshort : (param.rest.drop 1).length < us.length := by
        simp only [List.length_drop]
        omega
      exact (ih _ hshort (List.forall₂_drop 1 hr) rfl).map
        (fun _ _ hv' => ⟨.cons hv hv', rfl, rfl⟩)
    · exact .ok (.cons hv .nil) hr

theorem readParamsEnd_twins :
    (readParamsEnd eof us).Twins source target
      (List.Forall₂ (fun p q => p.node.Twins source target q.node)) (readParamsEnd eof' us') := by
  unfold readParamsEnd
  rw [h.atPunct_eq]
  split
  · exact (readPunct_twins he h _).map (fun _ _ _ => ⟨.nil, rfl, rfl⟩)
  · refine (readParams_twins he h).bind (fun params params' hv hr => ?_)
    exact (readPunct_twins he hr _).map (fun _ _ _ => ⟨hv, rfl, rfl⟩)

theorem readMethodEnd_twins :
    (readMethodEnd eof us).Twins source target
      (fun p q => List.Forall₂ (fun p q => p.node.Twins source target q.node) p.1 q.1)
      (readMethodEnd eof' us') := by
  refine (readPunct_twins he h _).bind (fun left left' _ hr => ?_)
  refine (readParamsEnd_twins he hr).bind (fun params params' hv hr' => ?_)
  exact (readPunct_twins he hr' _).map (fun _ _ _ => ⟨hv, rfl, rfl⟩)

omit he h in
theorem readLiteral_twins (ht : Twin source target t t') :
    TwinResults source target Eq (readLiteral t) (readLiteral t') := by
  have hint : TwinResults source target Eq (readIntLiteral t) (readIntLiteral t') := by
    unfold readIntLiteral
    rw [ht.text]
    split <;> split
    · exact .ok rfl
    · exact .error (ht.span.outOfRange _ _)
    · exact .ok rfl
    · exact .error (ht.span.outOfRange _ _)
  have hfloat : TwinResults source target Eq (readFloatLiteral t) (readFloatLiteral t') := by
    unfold readFloatLiteral
    rw [ht.text]
    dsimp only
    split <;> split
    · exact .ok rfl
    · exact .error (ht.span.outOfRange _ _)
    · exact .ok rfl
    · exact .error (ht.span.outOfRange _ _)
  unfold readLiteral
  rw [ht.kind, ht.text]
  split
  · exact hint
  · exact hfloat
  · split
    · exact .ok rfl
    · exact .error (.of_span nofun ht.span)
  · split
    · exact .ok rfl
    · exact .error (.of_span nofun ht.span)
  · exact .ok rfl
  · exact .ok rfl
  · exact .error (ht.illegal _)

theorem readInit_twins :
    (readInit eof us).Twins source target (Spanned.Twins source target) (readInit eof' us') := by
  cases h with
  | nil => exact Twins.error .nil (he.illegal _)
  | cons ht hts =>
    have hliteral := readLiteral_twins ht
    unfold readInit
    dsimp only
    generalize readLiteral _ = x at hliteral
    generalize readLiteral _ = y at hliteral
    cases hliteral with
    | ok hv =>
      subst hv
      exact .ok ⟨rfl, ht.span⟩ hts
    | error hd => exact Twins.error (.cons ht hts) hd

theorem readFieldEnd_twins :
    (readFieldEnd eof us).Twins source target
      (fun p q => Option.Rel (Spanned.Twins source target) p.1 q.1) (readFieldEnd eof' us') := by
  unfold readFieldEnd
  rw [h.atPunct_eq]
  split
  · refine (readInit_twins he (List.forall₂_drop 1 h)).bind (fun init init' hv hr => ?_)
    exact (readPunct_twins he hr _).map (fun _ _ _ => ⟨.some hv, rfl, rfl⟩)
  · exact (readPunct_twins he h _).map (fun _ _ _ => ⟨.none, rfl, rfl⟩)

theorem readMemberBody_twins {mods mods' : List (Spanned Modifier)}
    (hmods : List.Forall₂ (Spanned.Twins source target) mods mods') :
    (readMemberBody mods eof us).Twins source target (fun p q => p.1.Twins source target q.1)
      (readMemberBody mods' eof' us') := by
  refine (readReturn_twins he h).bind (fun returns returns' hret hr => ?_)
  refine (readIdent_twins he hr).bind (fun name name' hname hr' => ?_)
  dsimp only
  rw [hr'.atPunct_eq]
  split
  · exact (readMethodEnd_twins he hr').map
      (fun _ _ hv => ⟨.method ⟨hmods, hret, hname, hv⟩, rfl, rfl⟩)
  · have hnode : returns'.value.node.unplaced = returns.value.node.unplaced := hret
    cases hret : returns.value.node with
    | void =>
      cases hret' : returns'.value.node with
      | type _ => simp [hret, hret', ReturnType.unplaced] at hnode
      | void => exact Twins.error hr' (((Twins.current he hr').illegal _).withNote (.same _))
    | type t =>
      cases hret' : returns'.value.node with
      | void => simp [hret, hret', ReturnType.unplaced] at hnode
      | type t' =>
        have htype : t'.unplaced = t.unplaced := by
          simpa [hret, hret', ReturnType.unplaced] using hnode
        exact (readFieldEnd_twins he hr').map
          (fun _ _ hv => ⟨.field ⟨hmods, htype, hname, hv⟩, rfl, rfl⟩)

theorem readMember_twins :
    (readMember eof us).Twins source target (fun a b => a.node.Twins source target b.node)
      (readMember eof' us') := by
  have hfirst := Twins.current he h
  unfold readMember
  rw [hfirst.kind]
  split
  · exact Twins.error h hfirst.misplaced
  · obtain ⟨hmods, hrest⟩ := takeModifiers_twins h
    exact (readMemberBody_twins he hrest hmods).map (fun _ _ hv => ⟨hv, rfl, rfl⟩)

end Readers

/-! ### Units -/

section Units

variable {R : α → α → Prop}

theorem TwinResults.fault {x y : Except Diagnostic α} (h : TwinResults source target R x y) :
    Option.Rel (Diagnostic.Twins source target) (Diagnostic.of? x) (Diagnostic.of? y) := by
  cases h with
  | ok _ => exact .none
  | error hd => exact .some hd

theorem TwinResults.part {x y : Except Diagnostic α} (h : TwinResults source target R x y) :
    Option.Rel R x.toOption y.toOption := by
  cases h with
  | ok hv => exact .some hv
  | error _ => exact .none

theorem skipPast_twins (h : Twins source target us us') :
    Twins source target (skipPast us) (skipPast us') := by
  refine List.forall₂_drop 1 ?_
  induction h with
  | nil => exact .nil
  | cons ht hts ih =>
    simp only [List.dropWhile_cons, ht.isPunct]
    split
    · exact ih
    · exact .cons ht hts

theorem attempt_twins {read read' : (ts : List Token) → Reading α ts}
    (h : Twins source target us us') (hr : (read us).Twins source target R (read' us')) :
    TwinResults source target R (attempt read us).1 (attempt read' us').1 ∧
      Twins source target (attempt read us).2 (attempt read' us').2 := by
  unfold attempt
  generalize read us = x at hr
  generalize read' us' = y at hr
  cases hr with
  | ok hv hrest => exact ⟨.ok hv, hrest⟩
  | @error s s' hd hl =>
    refine ⟨.error hd, skipPast_twins ?_⟩
    simp only [Stop.rest, hl, ← h.length_eq]
    exact List.forall₂_drop _ h

theorem Twins.atClause_eq (h : Twins source target us us') (c : Clause) :
    atClause c us' = atClause c us := by
  cases h with
  | nil => rfl
  | cons ht _ => simp [atClause, ht.kind]

theorem tryImports_twins (he : Twin source target eof eof') (h : Twins source target us us') :
    List.Forall₂ (TwinResults source target (Alike Spanned.node)) (tryImports eof us).1
        (tryImports eof' us').1 ∧
      Twins source target (tryImports eof us).2 (tryImports eof' us').2 := by
  induction hn : us.length using Nat.strongRecOn generalizing us us' with
  | _ n ih =>
    subst hn
    rw [tryImports.eq_def eof us, tryImports.eq_def eof' us']
    by_cases hc : atClause .imports us = true
    · have hne : us ≠ [] := by
        rintro rfl
        cases hc
      obtain ⟨hresult, hrest⟩ := attempt_twins h (readImport_twins he h)
      obtain ⟨hresults, hrest'⟩ := ih _ (attempt_lt _ hne) hrest rfl
      rw [dif_pos hc, dif_pos ((h.atClause_eq _).trans hc)]
      exact ⟨.cons hresult hresults, hrest'⟩
    · have hc' : ¬ atClause .imports us' = true := by rwa [h.atClause_eq]
      rw [dif_neg hc, dif_neg hc']
      exact ⟨.nil, h⟩

theorem tryMembers_twins (he : Twin source target eof eof') (h : Twins source target us us') :
    List.Forall₂ (TwinResults source target (fun a b => a.node.Twins source target b.node))
      (tryMembers eof us) (tryMembers eof' us') := by
  induction hn : us.length using Nat.strongRecOn generalizing us us' with
  | _ n ih =>
    subst hn
    cases h with
    | nil =>
      rw [tryMembers, tryMembers]
      exact .nil
    | cons ht hts =>
      have htwins : Twins source target (_ :: _) (_ :: _) := .cons ht hts
      obtain ⟨hresult, hrest⟩ := attempt_twins htwins (readMember_twins he htwins)
      rw [tryMembers, tryMembers]
      exact .cons hresult (ih _ (attempt_lt _ (by simp)) hrest rfl)

structure Attempts.Twins (source target : List Token) (a b : Attempts) : Prop where
  package : Option.Rel (TwinResults source target (Alike Spanned.node)) a.package b.package
  imports : List.Forall₂ (TwinResults source target (Alike Spanned.node)) a.imports b.imports
  members : List.Forall₂ (TwinResults source target (fun a b => a.node.Twins source target b.node))
    a.members b.members

theorem cutAtEnd_cons_end (h : t.isEnd = true) (ts : List Token) :
    cutAtEnd (t :: ts) = ([], t) := by
  simp [cutAtEnd, h]

theorem cutAtEnd_cons (h : t.isEnd = false) {ts : List Token} (hend : ts.any Token.isEnd = true) :
    cutAtEnd (t :: ts) = (t :: (cutAtEnd ts).1, (cutAtEnd ts).2) := by
  obtain ⟨u, hfind⟩ := Option.isSome_iff_exists.mp (List.isSome_find?.trans hend)
  simp [cutAtEnd, h, hfind]

theorem Twin.isEnd (h : Twin source target t t') : t'.isEnd = t.isEnd := by
  rw [Token.isEnd, Token.isEnd, h.kind]

theorem Twins.any_isEnd (h : Twins source target us us') :
    us'.any Token.isEnd = us.any Token.isEnd := by
  induction h with
  | nil => rfl
  | cons ht _ ih => rw [List.any_cons, List.any_cons, ht.isEnd, ih]

theorem cutAtEnd_twins (h : Twins source target us us') (hend : us.any Token.isEnd = true) :
    Twins source target (cutAtEnd us).1 (cutAtEnd us').1 ∧
      Twin source target (cutAtEnd us).2 (cutAtEnd us').2 := by
  induction h with
  | nil => cases hend
  | @cons t t' us us' ht hts ih =>
    by_cases hlast : t.isEnd = true
    · rw [cutAtEnd_cons_end hlast, cutAtEnd_cons_end (ht.isEnd.trans hlast)]
      exact ⟨.nil, ht⟩
    · have hopen : t.isEnd = false := by simpa using hlast
      have hmore : us.any Token.isEnd = true := by simpa [hopen] using hend
      obtain ⟨hrest, heof⟩ := ih hmore
      rw [cutAtEnd_cons hopen hmore,
        cutAtEnd_cons (ht.isEnd.trans hopen) (Twins.any_isEnd hts |>.trans hmore)]
      exact ⟨.cons ht hrest, heof⟩

/-- Two lists of tokens that are twins throughout are taken apart in the same way. -/
theorem ofTokens_twins (h : Twins source target us us') (hend : us.any Token.isEnd = true) :
    (Attempts.ofTokens us).Twins source target (Attempts.ofTokens us') := by
  obtain ⟨hts, heof⟩ := cutAtEnd_twins h hend
  have hclause := hts.atClause_eq .package
  cases hc : atClause .package (cutAtEnd us).1 with
  | false =>
    rw [ofTokens_no_package rfl hc, ofTokens_no_package rfl (hclause.trans hc)]
    obtain ⟨himports, hrest⟩ := tryImports_twins heof hts
    exact ⟨.none, himports, tryMembers_twins heof hrest⟩
  | true =>
    rw [ofTokens_package rfl hc, ofTokens_package rfl (hclause.trans hc)]
    obtain ⟨hpackage, hrest⟩ := attempt_twins hts (readPackage_twins heof hts)
    obtain ⟨himports, hrest'⟩ := tryImports_twins heof hrest
    exact ⟨.some hpackage, himports, tryMembers_twins heof hrest'⟩

theorem Attempts.Twins.diagnostics {a b : Attempts} (h : a.Twins source target b) :
    List.Forall₂ (Diagnostic.Twins source target) a.diagnostics b.diagnostics := by
  have hpackage : Option.Rel (Diagnostic.Twins source target) (a.package.bind Diagnostic.of?)
      (b.package.bind Diagnostic.of?) := by
    have hp := h.package
    generalize a.package = p at hp
    generalize b.package = q at hp
    cases hp with
    | none => exact .none
    | some hp => exact hp.fault
  refine List.rel_filterMap (fun _ _ hd => hd) (List.rel_append (.cons hpackage ?_) ?_)
  · exact List.rel_map (fun _ _ hr => hr.fault) h.imports
  · exact List.rel_map (fun _ _ hr => hr.fault) h.members

end Units

end DeclFront
