import Mathlib
import DeclFront.Proofs.Layout
import DeclFront.Proofs.Members

/-! Signatures tell methods apart. A signature is a text, and it can be taken to pieces again since
identifiers have no commas and no parentheses in them, and since no word is both a primitive type and
an identifier. -/

namespace DeclFront

variable {t t' : TypeNode} {m m' : Method}

/-! ### Erased types -/

/-- The name of the innermost element, unless that is primitive. -/
def TypeNode.named? : TypeNode → Option Name
  | .primitive _ => none
  | .reference n => some n
  | .parameterized raw _ => some raw
  | .array e _ => e.named?

/-- The type is the one of that name, with or without type arguments. -/
def TypeNode.IsOf (n : Name) (t : TypeNode) : Prop :=
  t = .reference n ∨ ∃ args, t = .parameterized n args

/-- The types differ in type arguments at most. -/
inductive SameButArguments : TypeNode → TypeNode → Prop
  | primitive (p : Primitive) : SameButArguments (.primitive p) (.primitive p)
  | named {t t' : TypeNode} {n : Name} : t.IsOf n → t'.IsOf n → SameButArguments t t'
  | array {e e' : TypeNode} (s s' : Span) : SameButArguments e e' →
      SameButArguments (.array e s) (.array e' s')

/-- The types are the same when arguments and places are left out. -/
def SameErasure (t t' : TypeNode) : Prop := t.erasure.unplaced = t'.erasure.unplaced

theorem TypeNode.IsOf.erasure_eq {n : Name} (h : t.IsOf n) : t.erasure = .reference n := by
  rcases h with rfl | ⟨args, rfl⟩ <;> rfl

theorem SameButArguments.sameErasure (h : SameButArguments t t') : SameErasure t t' := by
  induction h with
  | primitive p => rfl
  | named ht ht' => rw [SameErasure, ht.erasure_eq, ht'.erasure_eq]
  | array s s' _ ih =>
    rw [SameErasure] at ih
    simp only [SameErasure, TypeNode.erasure, TypeNode.unplaced, ih]

theorem TypeNode.depth_unplaced (t : TypeNode) : t.unplaced.depth = t.depth := by
  fun_induction TypeNode.depth t with
  | case1 element _ ih => simp [TypeNode.unplaced, TypeNode.depth, ih]
  | case2 t ht => cases t <;> simp_all [TypeNode.unplaced, TypeNode.depth]

theorem TypeNode.depth_erasure (t : TypeNode) : t.erasure.depth = t.depth := by
  fun_induction TypeNode.erasure t <;> simp_all [TypeNode.depth]

theorem TypeNode.isPrimitive_erasure (t : TypeNode) : t.erasure.isPrimitive = t.isPrimitive := by
  cases t <;> rfl

theorem TypeNode.named?_unplaced (t : TypeNode) : t.unplaced.named? = t.named? := by
  fun_induction TypeNode.named? t <;> simp_all [TypeNode.unplaced, TypeNode.named?]

theorem TypeNode.named?_erasure (t : TypeNode) : t.erasure.named? = t.named? := by
  fun_induction TypeNode.erasure t <;> simp_all [TypeNode.named?]

theorem TypeNode.isWellFormed_erasure (h : t.isWellFormed = true) :
    t.erasure.isWellFormed = true := by
  fun_induction TypeNode.erasure t <;> simp_all [TypeNode.isWellFormed]

/-- Types of one erasure agree in all that an erased type shows. -/
theorem SameErasure.shape (h : SameErasure t t') :
    t.depth = t'.depth ∧ t.isPrimitive = t'.isPrimitive ∧ t.named? = t'.named? := by
  refine ⟨?_, ?_, ?_⟩
  · rw [← t.depth_erasure, ← t.erasure.depth_unplaced, h, TypeNode.depth_unplaced,
      TypeNode.depth_erasure]
  · rw [← t.isPrimitive_erasure, ← isPrimitive_unplaced, h, isPrimitive_unplaced,
      TypeNode.isPrimitive_erasure]
  · rw [← t.named?_erasure, ← t.erasure.named?_unplaced, h, TypeNode.named?_unplaced,
      TypeNode.named?_erasure]

/-! ### Their spelling -/

/-- Both types can be read back from the text that they share. -/
theorem TypeNode.unplaced_eq_of_text (ht : t.isWellFormed = true) (ht' : t'.isWellFormed = true)
    (h : t.text = t'.text) : t.unplaced = t'.unplaced := by
  obtain ⟨tokens, r, s, hlex, hrun, hr, -⟩ := t.reread ht
  obtain ⟨tokens', r', s', hlex', hrun', hr', -⟩ := t'.reread ht'
  rw [h, hlex'] at hlex
  obtain rfl := Except.ok.inj hlex
  rw [hrun'] at hrun
  obtain rfl := Except.ok.inj (congrArg Prod.fst hrun)
  exact hr.symm.trans hr'

theorem TypeNode.text_ne_empty (h : t.isWellFormed = true) : t.text ≠ "" := by
  intro hempty
  obtain ⟨ts, hlex, ht⟩ := t.lex_text h
  obtain ⟨w, more, rfl, -⟩ := ht.head
  have hnone : lex "" = .ok [endToken ""] := lex_of_toOption (by decide +kernel)
  rw [hempty, hnone] at hlex
  have hlength := congrArg List.length (Except.ok.inj hlex)
  simp at hlength

/-- A character of a type without type arguments. -/
def isPlain (c : Char) : Bool := isIdentPart c || c == '.' || c == '[' || c == ']'

theorem isIdentPart_of_start {c : Char} (h : isIdentStart c = true) : isIdentPart c = true := by
  simp only [isIdentStart, Bool.or_eq_true] at h
  simp only [isIdentPart, Char.isAlphanum, Bool.or_eq_true]
  exact h.imp_left (fun h => h.imp_left Or.inl)

theorem isIdentifier_isIdentPart {s : String} (h : isIdentifier s = true) {c : Char}
    (hc : c ∈ s.toList) : isIdentPart c = true := by
  obtain ⟨first, cs, rfl, hfirst, hcs, -⟩ := isIdentifier_iff.mp h
  rw [String.toList_ofList] at hc
  rcases List.mem_cons.mp hc with rfl | hc
  · exact isIdentPart_of_start hfirst
  · exact List.all_eq_true.mp hcs c hc

theorem mem_intercalate {α : Type} {sep : List α} {ls : List (List α)} {a : α}
    (h : a ∈ sep.intercalate ls) : a ∈ sep ∨ ∃ l ∈ ls, a ∈ l := by
  induction ls with
  | nil => simp at h
  | cons l ls ih =>
    cases ls with
    | nil => exact .inr ⟨l, by simp, by simpa using h⟩
    | cons l' ls =>
      rw [List.intercalate_cons_cons, List.mem_append, List.mem_append] at h
      rcases h with (h | h) | h
      · exact .inr ⟨l, by simp, h⟩
      · exact .inl h
      · rcases ih h with h | ⟨l'', hl, h⟩
        · exact .inl h
        · exact .inr ⟨l'', List.mem_cons_of_mem _ hl, h⟩

theorem Name.text_isPlain {n : Name} (h : n.isWellFormed = true) {c : Char}
    (hc : c ∈ n.text.toList) : isPlain c = true := by
  simp only [Name.isWellFormed, Bool.and_eq_true, List.all_eq_true] at h
  rw [Name.text, String.toList_intercalate] at hc
  rcases mem_intercalate hc with hc | ⟨l, hl, hc⟩
  · obtain rfl : c = '.' := by simpa using hc
    rfl
  · obtain ⟨s, hs, rfl⟩ := List.mem_map.mp hl
    simp [isPlain, isIdentifier_isIdentPart (h.2 s hs) hc]

theorem Primitive.spelling_isPlain (p : Primitive) {c : Char} (hc : c ∈ p.spelling.toList) :
    isPlain c = true := by
  have hspelling : (Keyword.primitive p).spelling = p.spelling := rfl
  obtain ⟨first, cs, hs, hfirst, hcs, -⟩ := (Keyword.primitive p).spelling_shape
  rw [← hspelling, hs] at hc
  rcases List.mem_cons.mp hc with rfl | hc
  · simp [isPlain, isIdentPart_of_start hfirst]
  · simp [isPlain, List.all_eq_true.mp hcs c hc]

theorem TypeNode.text_erasure_isPlain (h : t.isWellFormed = true) {c : Char}
    (hc : c ∈ t.erasure.text.toList) : isPlain c = true := by
  fun_induction TypeNode.erasure t with
  | case1 p => exact p.spelling_isPlain hc
  | case2 n => exact Name.text_isPlain h hc
  | case3 raw args =>
    simp only [TypeNode.isWellFormed, Bool.and_eq_true] at h
    exact Name.text_isPlain h.1.1 hc
  | case4 e s ih =>
    simp only [TypeNode.text, String.toList_append, List.mem_append] at hc
    rcases hc with hc | hc
    · exact ih h hc
    · have hbrackets : c = '[' ∨ c = ']' := by simpa using hc
      rcases hbrackets with rfl | rfl <;> rfl

/-! ### Signatures -/

/-- Texts with commas between them can be told apart again. -/
theorem intercalate_comma_injective {xs ys : List (List Char)}
    (hx : ∀ x ∈ xs, x ≠ [] ∧ ',' ∉ x) (hy : ∀ y ∈ ys, y ≠ [] ∧ ',' ∉ y)
    (h : [','].intercalate xs = [','].intercalate ys) : xs = ys := by
  have hne {zs : List (List Char)} (hz : ∀ z ∈ zs, z ≠ [] ∧ ',' ∉ z)
      (hnil : [','].intercalate zs = []) : zs = [] := by
    match zs with
    | [] => rfl
    | [z] => simp [(hz z (by simp)).1] at hnil
    | z :: z' :: zs => simp at hnil
  by_cases hxs : xs = []
  · subst hxs
    exact (hne hy h.symm).symm
  · by_cases hys : ys = []
    · subst hys
      exact hne hx h
    · rw [← List.splitOn_intercalate ',' (fun x hm => (hx x hm).2) hxs, h,
        List.splitOn_intercalate ',' (fun y hm => (hy y hm).2) hys]

theorem Method.toList_signature (m : Method) :
    m.signature.toList = m.name.node.toList ++ '(' ::
      ([','].intercalate (m.types.map (·.erasure.text.toList)) ++ [')']) := by
  simp [Method.signature, Method.types, Function.comp_def]

theorem Method.WellFormed.erased_text (h : m.WellFormed) {x : List Char}
    (hx : x ∈ m.types.map (·.erasure.text.toList)) : x ≠ [] ∧ ∀ c ∈ x, isPlain c = true := by
  obtain ⟨t, ht, rfl⟩ := List.mem_map.mp hx
  have hne := TypeNode.text_ne_empty (TypeNode.isWellFormed_erasure (h.types t ht))
  exact ⟨by simpa using hne, fun c hc => TypeNode.text_erasure_isPlain (h.types t ht) hc⟩

/-- No sign that a signature is put together with stands in one of its parts. -/
theorem Method.WellFormed.parts_eq (h : m.WellFormed) (h' : m'.WellFormed)
    (heq : m.signature = m'.signature) : m.name.node = m'.name.node ∧
      m.types.map (·.erasure.text.toList) = m'.types.map (·.erasure.text.toList) := by
  have hlists := congrArg String.toList heq
  rw [m.toList_signature, m'.toList_signature] at hlists
  have hname : '(' ∉ m.name.node.toList := by
    intro hc
    exact absurd (isIdentifier_isIdentPart h.name hc) (by decide)
  have htypes : '(' ∉ [','].intercalate (m.types.map (·.erasure.text.toList)) ++ [')'] := by
    intro hc
    rcases List.mem_append.mp hc with hc | hc
    · rcases mem_intercalate hc with hc | ⟨x, hx, hc⟩
      · simp at hc
      · exact absurd ((h.erased_text hx).2 _ hc) (by decide)
    · simp at hc
  obtain ⟨hnames, -, htails⟩ := (List.append_cons_inj_of_notMem hname htypes).mp hlists
  have hcomma {m : Method} (h : m.WellFormed) :
      ∀ x ∈ m.types.map (·.erasure.text.toList), x ≠ [] ∧ ',' ∉ x := by
    intro x hx
    refine ⟨(h.erased_text hx).1, fun hc => ?_⟩
    exact absurd ((h.erased_text hx).2 _ hc) (by decide)
  exact ⟨String.toList_injective hnames, intercalate_comma_injective (hcomma h) (hcomma h')
    (List.append_cancel_right htails)⟩

theorem SameErasure.text_eq (h : SameErasure t t') : t.erasure.text = t'.erasure.text := by
  rw [← t.erasure.text_unplaced, h, TypeNode.text_unplaced]

theorem sameErasure_of_texts {ts ts' : List TypeNode} (h : ∀ t ∈ ts, t.isWellFormed = true)
    (h' : ∀ t ∈ ts', t.isWellFormed = true)
    (heq : ts.map (·.erasure.text.toList) = ts'.map (·.erasure.text.toList)) :
    List.Forall₂ SameErasure ts ts' := by
  induction ts generalizing ts' with
  | nil =>
    obtain rfl : ts' = [] := by simpa using heq.symm
    exact .nil
  | cons t ts ih =>
    cases ts' with
    | nil => cases heq
    | cons t' ts' =>
      obtain ⟨htext, hrest⟩ := List.cons.inj heq
      have hsame : SameErasure t t' := TypeNode.unplaced_eq_of_text
        (TypeNode.isWellFormed_erasure (h t List.mem_cons_self))
        (TypeNode.isWellFormed_erasure (h' t' List.mem_cons_self)) (String.toList_injective htext)
      exact .cons hsame (ih (fun t ht => h t (List.mem_cons_of_mem _ ht))
        (fun t ht => h' t (List.mem_cons_of_mem _ ht)) hrest)

theorem Method.WellFormed.signature_eq_iff (h : m.WellFormed) (h' : m'.WellFormed) :
    m.signature = m'.signature ↔
      m.name.node = m'.name.node ∧ List.Forall₂ SameErasure m.types m'.types := by
  constructor
  · intro heq
    obtain ⟨hname, htexts⟩ := h.parts_eq h' heq
    exact ⟨hname, sameErasure_of_texts h.types h'.types htexts⟩
  · rintro ⟨hname, htypes⟩
    have htexts : m'.types.map (·.erasure.text.toList) = m.types.map (·.erasure.text.toList) :=
      map_eq_of_forall₂ htypes (fun _ _ hp => by rw [hp.text_eq])
    apply String.toList_injective
    rw [m.toList_signature, m'.toList_signature, hname, htexts]

/-- Methods of parsed texts share a signature exactly if they share their name and, one by one, the
erased types of their parameters. So they clash if their types differ in type arguments only, and do
not clash if their parameters differ in number, or somewhere in depth, in being primitive, or in the
full name of a type. -/
theorem signatures_identify {source source' : String} {tokens tokens' : List Token}
    {u u' : CompilationUnit} (hu : u.ParsedFrom source tokens) (hu' : u'.ParsedFrom source' tokens')
    (hm : .method m ∈ u.members.map (·.node)) (hm' : .method m' ∈ u'.members.map (·.node)) :
    (m.signature = m'.signature ↔
      m.name.node = m'.name.node ∧ List.Forall₂ SameErasure m.types m'.types) ∧
    (m.name.node = m'.name.node → List.Forall₂ SameButArguments m.types m'.types →
      m.signature = m'.signature) ∧
    (m.types.length ≠ m'.types.length → m.signature ≠ m'.signature) ∧
    ∀ (i : Nat) (t t' : TypeNode), m.types[i]? = some t → m'.types[i]? = some t' →
      t.depth ≠ t'.depth ∨ t.isPrimitive ≠ t'.isPrimitive ∨ t.named? ≠ t'.named? →
      m.signature ≠ m'.signature := by
  have hiff := (hu.method_wellFormed hm).signature_eq_iff (hu'.method_wellFormed hm')
  refine ⟨hiff, fun hname htypes => ?_, fun hlength heq => ?_, fun i t t' ht ht' hne heq => ?_⟩
  · exact hiff.mpr ⟨hname, htypes.imp (fun _ _ h => h.sameErasure)⟩
  · exact hlength (hiff.mp heq).2.length_eq
  · obtain ⟨hi, rfl⟩ := List.getElem?_eq_some_iff.mp ht
    obtain ⟨hi', rfl⟩ := List.getElem?_eq_some_iff.mp ht'
    have hsame : SameErasure m.types[i] m'.types[i] := (hiff.mp heq).2.get hi hi'
    obtain ⟨hdepth, hprimitive, hnamed⟩ := hsame.shape
    rcases hne with hne | hne | hne
    · exact hne hdepth
    · exact hne hprimitive
    · exact hne hnamed

/-- A method of one parameter clashes with a copy whose type has no argument, and not with one whose
type is an array. -/
theorem signatures_identify_generic :
    let source := "void f(a<b>c);void f(a c);void f(a[]c);"
    let method (o : Nat) (t : TypeNode) (stop name : Nat) : Method :=
      ⟨[], ⟨.void, ⟨o, o + 4⟩⟩, ⟨"f", ⟨o + 5, o + 6⟩⟩,
        [⟨⟨false, ⟨t, ⟨o + 7, stop⟩⟩, ⟨"c", ⟨name, name + 1⟩⟩⟩, ⟨o + 7, name + 1⟩⟩]⟩
    let generic := method 0 (.parameterized ⟨["a"]⟩ [.type (.reference ⟨["b"]⟩) ⟨9, 10⟩]) 11 11
    let raw := method 14 (.reference ⟨["a"]⟩) 22 23
    let array := method 26 (.array (.reference ⟨["a"]⟩) ⟨33, 34⟩) 36 36
    let u : CompilationUnit := ⟨none, [], [⟨.method generic, ⟨0, 14⟩⟩, ⟨.method raw, ⟨14, 26⟩⟩,
      ⟨.method array, ⟨26, 39⟩⟩]⟩
    ∃ tokens, u.ParsedFrom source tokens ∧ generic.signature = raw.signature ∧
      generic.signature ≠ array.signature := by
  intro source method generic raw array u
  let mark (p : Punctuation) (n : Nat) : Token := ⟨.punct p, p.spelling, ⟨n, n + 1⟩⟩
  let word (text : String) (n : Nat) : Token := ⟨.ident, text, ⟨n, n + 1⟩⟩
  let front (o : Nat) : List Token :=
    [⟨.keyword .void, "void", ⟨o, o + 4⟩⟩, word "f" (o + 5), mark .leftParen (o + 6),
      word "a" (o + 7)]
  let back (o : Nat) : List Token := [word "c" o, mark .rightParen (o + 1), mark .semicolon (o + 2)]
  let tokens := front 0 ++ [mark .leftAngle 8, word "b" 9, mark .rightAngle 10] ++ back 11 ++
    front 14 ++ back 23 ++ front 26 ++ [mark .leftBracket 34, mark .rightBracket 35] ++ back 36 ++
    [.endAt 39]
  have hlex : lex source = .ok tokens := lex_of_toOption (by decide +kernel)
  have hparse : (parseAsking .failFast .never tokens).1 = .complete u [] := by
    rw [parseAsking_eq_walk]
    cbv
  have hu : u.ParsedFrom source tokens := ⟨hlex, _, _, _, hparse⟩
  have hgeneric : .method generic ∈ u.members.map (·.node) := by simp [u]
  have hraw : .method raw ∈ u.members.map (·.node) := by simp [u]
  have harray : .method array ∈ u.members.map (·.node) := by simp [u]
  have hclash := (signatures_identify hu hu hgeneric hraw).2.1
  have hapart := (signatures_identify hu hu hgeneric harray).2.2.2
  refine ⟨tokens, hu, hclash rfl (.cons (.named (.inr ⟨_, rfl⟩) (.inl rfl)) .nil), ?_⟩
  exact hapart 0 _ _ rfl rfl (.inl (by decide))

end DeclFront
