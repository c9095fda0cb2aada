import DeclFront.Grammar

/-! The grammar as relations between tokens and trees. A tree that is derived has no places: all of
its spans are the default one, and a tree that was read is compared with it by `unplaced`. -/

namespace DeclFront

/-- A part of a derived tree. -/
def bare {α : Type} (a : α) : Spanned α := ⟨a, default⟩

def Spanned.unplaced {α : Type} (f : α → α) (s : Spanned α) : Spanned α := bare (f s.node)

def ReturnType.unplaced : ReturnType → ReturnType
  | void => void
  | type t => type t.unplaced

def Param.unplaced (p : Param) : Param :=
  ⟨p.isFinal, p.type.unplaced TypeNode.unplaced, p.name.unplaced id⟩

def Field.unplaced (f : Field) : Field :=
  ⟨f.modifiers.map (Spanned.unplaced id), f.type.unplaced TypeNode.unplaced, f.name.unplaced id,
    f.init.map (Spanned.unplaced id)⟩

def Method.unplaced (m : Method) : Method :=
  ⟨m.modifiers.map (Spanned.unplaced id), m.returns.unplaced ReturnType.unplaced,
    m.name.unplaced id, m.params.map (Spanned.unplaced Param.unplaced)⟩

def Member.unplaced : Member → Member
  | field f => field f.unplaced
  | method m => method m.unplaced

/-- The same unit with every span at the start of the text. -/
def CompilationUnit.unplaced (u : CompilationUnit) : CompilationUnit :=
  ⟨u.package.map (Spanned.unplaced id), u.imports.map (Spanned.unplaced id),
    u.members.map (Spanned.unplaced Member.unplaced)⟩

@[simp] theorem isPrimitive_unplaced (t : TypeNode) : t.unplaced.isPrimitive = t.isPrimitive := by
  cases t <;> simp [TypeNode.unplaced, TypeNode.isPrimitive]

/-! ### Names and types -/

/-- A name: `Ident {"." Ident}`. -/
inductive NameOf : List Token → Name → Prop
  | one {i : Token} (hi : i.kind = .ident) : NameOf [i] ⟨[i.text]⟩
  | more {i d : Token} {ts : List Token} {n : Name} (hi : i.kind = .ident)
      (hd : d.kind = .punct .dot) (hn : NameOf ts n) :
      NameOf (i :: d :: ts) ⟨i.text :: n.segments⟩

/-- Dimensions: `{"[" "]"}`, with the number of pairs. -/
inductive DimsOf : List Token → Nat → Prop
  | none : DimsOf [] 0
  | more {l r : Token} {ts : List Token} {n : Nat} (hl : l.kind = .punct .leftBracket)
      (hr : r.kind = .punct .rightBracket) (hd : DimsOf ts n) : DimsOf (l :: r :: ts) (n + 1)

/-- An array of so many dimensions. -/
def TypeNode.wrapped : Nat → TypeNode → TypeNode
  | 0, t => t
  | n + 1, t => wrapped n (.array t default)

mutual

/-- A type: `Base {"[" "]"}`. -/
inductive TypeOf : List Token → TypeNode → Prop
  | dims {bs ds : List Token} {b : TypeNode} {n : Nat} (hb : BaseOf bs b) (hd : DimsOf ds n) :
      TypeOf (bs ++ ds) (b.wrapped n)

/-- A type without dimensions: `Primitive | Name ["<" Args ">"]`. -/
inductive BaseOf : List Token → TypeNode → Prop
  | primitive {w : Token} {p : Primitive} (hw : w.kind = .keyword (.primitive p)) :
      BaseOf [w] (.primitive p)
  | reference {ns : List Token} {n : Name} (hn : NameOf ns n) : BaseOf ns (.reference n)
  | parameterized {ns as : List Token} {l r : Token} {n : Name} {args : List TypeArg}
      (hn : NameOf ns n) (hl : l.kind = .punct .leftAngle) (ha : ArgsOf as args)
      (hr : r.kind = .punct .rightAngle) :
      BaseOf (ns ++ l :: (as ++ [r])) (.parameterized n args)

/-- Type arguments: `Arg {"," Arg}`. -/
inductive ArgsOf : List Token → List TypeArg → Prop
  | one {as : List Token} {a : TypeArg} (ha : ArgOf as a) : ArgsOf as [a]
  | more {as bs : List Token} {c : Token} {a : TypeArg} {rest : List TypeArg} (ha : ArgOf as a)
      (hc : c.kind = .punct .comma) (hr : ArgsOf bs rest) : ArgsOf (as ++ c :: bs) (a :: rest)

/-- A type argument: `Reference | "?" [("extends" | "super") Reference]`, where a reference is a type
that is no bare primitive. -/
inductive ArgOf : List Token → TypeArg → Prop
  | type {ts : List Token} {t : TypeNode} (ht : TypeOf ts t) (hp : t.isPrimitive = false) :
      ArgOf ts (.type t default)
  | wildcard {q : Token} (hq : q.kind = .punct .question) : ArgOf [q] (.wildcard default)
  | bounded {q w : Token} {b : Bound} {ts : List Token} {t : TypeNode}
      (hq : q.kind = .punct .question) (hw : w.kind = .keyword (.bound b)) (ht : TypeOf ts t)
      (hp : t.isPrimitive = false) : ArgOf (q :: w :: ts) (.bounded b t default default)

end

theorem NameOf.head {ts : List Token} {n : Name} (h : NameOf ts n) :
    ∃ i more, ts = i :: more ∧ i.kind = .ident := by
  cases h with
  | one hi => exact ⟨_, _, rfl, hi⟩
  | more hi _ _ => exact ⟨_, _, rfl, hi⟩

theorem BaseOf.head {ts : List Token} {b : TypeNode} (h : BaseOf ts b) :
    ∃ w more, ts = w :: more ∧ w.kind.startsType = true := by
  cases h with
  | primitive hw =>
    exact ⟨_, _, rfl, by simp [hw, TokenKind.startsType, TokenKind.primitive?, Keyword.primitive?]⟩
  | reference hn =>
    obtain ⟨i, more, rfl, hi⟩ := hn.head
    exact ⟨i, more, rfl, by simp [hi, TokenKind.startsType]⟩
  | parameterized hn _ _ _ =>
    obtain ⟨i, more, rfl, hi⟩ := hn.head
    exact ⟨i, _, rfl, by simp [hi, TokenKind.startsType]⟩

/-- A type begins with a token that begins types. -/
theorem TypeOf.head {ts : List Token} {t : TypeNode} (h : TypeOf ts t) :
    ∃ w more, ts = w :: more ∧ w.kind.startsType = true := by
  cases h with
  | dims hb _ =>
    obtain ⟨w, more, rfl, hw⟩ := hb.head
    exact ⟨w, _, rfl, hw⟩

/-! ### Declarations -/

/-- Any number of parts, one behind the other. -/
inductive Repeated {α : Type} (Part : List Token → α → Prop) : List Token → List α → Prop
  | nil : Repeated Part [] []
  | cons {xs ys : List Token} {a : α} {rest : List α} (ha : Part xs a)
      (hr : Repeated Part ys rest) : Repeated Part (xs ++ ys) (a :: rest)

/-- A package clause: `"package" Name ";"`. -/
inductive PackageOf : List Token → Spanned Name → Prop
  | mk {w s : Token} {ns : List Token} {n : Name} (hw : w.kind = .keyword (.clause .package))
      (hn : NameOf ns n) (hs : s.kind = .punct .semicolon) : PackageOf (w :: (ns ++ [s])) (bare n)

/-- An import: `"import" Name ["." "*"] ";"`. -/
inductive ImportOf : List Token → Spanned Import → Prop
  | single {w s : Token} {ns : List Token} {n : Name} (hw : w.kind = .keyword (.clause .imports))
      (hn : NameOf ns n) (hs : s.kind = .punct .semicolon) :
      ImportOf (w :: (ns ++ [s])) (bare ⟨n, false⟩)
  | wildcard {w d a s : Token} {ns : List Token} {n : Name}
      (hw : w.kind = .keyword (.clause .imports)) (hn : NameOf ns n) (hd : d.kind = .punct .dot)
      (ha : a.kind = .punct .star) (hs : s.kind = .punct .semicolon) :
      ImportOf (w :: (ns ++ [d, a, s])) (bare ⟨n, true⟩)

inductive ModifierOf : List Token → Spanned Modifier → Prop
  | mk {w : Token} {m : Modifier} (hw : w.kind = .keyword (.modifier m)) : ModifierOf [w] (bare m)

/-- What a method gives: `Type | "void"`. -/
inductive ReturnOf : List Token → ReturnType → Prop
  | void {w : Token} (hw : w.kind = .keyword .void) : ReturnOf [w] .void
  | type {ts : List Token} {t : TypeNode} (ht : TypeOf ts t) : ReturnOf ts (.type t)

/-- An initializer, if any: `["=" Literal]`, where a literal is a token that has a value. -/
inductive InitOf : List Token → Option (Spanned Literal) → Prop
  | none : InitOf [] none
  | some {e l : Token} {v : Literal} (he : e.kind = .punct .equals) (hl : readLiteral l = .ok v) :
      InitOf [e, l] (some (bare v))

/-- A parameter: `["final"] Type Ident`. -/
inductive ParamOf : List Token → Spanned Param → Prop
  | plain {ts : List Token} {t : TypeNode} {i : Token} (ht : TypeOf ts t) (hi : i.kind = .ident) :
      ParamOf (ts ++ [i]) (bare ⟨false, bare t, bare i.text⟩)
  | final {w : Token} {ts : List Token} {t : TypeNode} {i : Token}
      (hw : w.kind = .keyword (.modifier .final)) (ht : TypeOf ts t) (hi : i.kind = .ident) :
      ParamOf (w :: (ts ++ [i])) (bare ⟨true, bare t, bare i.text⟩)

/-- Parameters: `Param {"," Param}`. -/
inductive ParamsOf : List Token → List (Spanned Param) → Prop
  | one {ps : List Token} {p : Spanned Param} (hp : ParamOf ps p) : ParamsOf ps [p]
  | more {ps qs : List Token} {c : Token} {p : Spanned Param} {rest : List (Spanned Param)}
      (hp : ParamOf ps p) (hc : c.kind = .punct .comma) (hr : ParamsOf qs rest) :
      ParamsOf (ps ++ c :: qs) (p :: rest)

inductive OptionalParamsOf : List Token → List (Spanned Param) → Prop
  | none : OptionalParamsOf [] []
  | some {ps : List Token} {params : List (Spanned Param)} (hp : ParamsOf ps params) :
      OptionalParamsOf ps params

/-- A member behind its modifiers: `(Type | "void") Ident (["=" Literal] ";" | "(" [Params] ")" ";")`,
where only a method may give nothing. -/
inductive BodyOf (mods : List (Spanned Modifier)) : List Token → Member → Prop
  | field {ts is : List Token} {i s : Token} {t : TypeNode} {init : Option (Spanned Literal)}
      (ht : TypeOf ts t) (hi : i.kind = .ident) (hn : InitOf is init)
      (hs : s.kind = .punct .semicolon) :
      BodyOf mods (ts ++ i :: (is ++ [s])) (.field ⟨mods, bare t, bare i.text, init⟩)
  | method {rs ps : List Token} {i l r s : Token} {ret : ReturnType}
      {params : List (Spanned Param)} (hr : ReturnOf rs ret) (hi : i.kind = .ident)
      (hl : l.kind = .punct .leftParen) (hp : OptionalParamsOf ps params)
      (hc : r.kind = .punct .rightParen) (hs : s.kind = .punct .semicolon) :
      BodyOf mods (rs ++ i :: l :: (ps ++ [r, s])) (.method ⟨mods, bare ret, bare i.text, params⟩)

/-- A member: `{Modifier} Body`. -/
inductive MemberOf : List Token → Spanned Member → Prop
  | mk {ms bs : List Token} {mods : List (Spanned Modifier)} {m : Member}
      (hm : Repeated ModifierOf ms mods) (hb : BodyOf mods bs m) : MemberOf (ms ++ bs) (bare m)

inductive OptionalPackageOf : List Token → Option (Spanned Name) → Prop
  | none : OptionalPackageOf [] none
  | some {ps : List Token} {p : Spanned Name} (hp : PackageOf ps p) : OptionalPackageOf ps (some p)

/-- A unit: `[Package] {Import} {Member}`. -/
inductive UnitOf : List Token → CompilationUnit → Prop
  | mk {ps is ms : List Token} {p : Option (Spanned Name)} {imports : List (Spanned Import)}
      {members : List (Spanned Member)} (hp : OptionalPackageOf ps p)
      (hi : Repeated ImportOf is imports) (hm : Repeated MemberOf ms members) :
      UnitOf (ps ++ (is ++ ms)) ⟨p, imports, members⟩

end DeclFront
