import DeclFront.Proofs.Fidelity

/-! The parts of a tree that have a span, and the tokens they stand on. A part stands on a run of
tokens if the grammar derives it from that run, its span goes from the start of the first token of
the run to the end of the last one, and the parts inside it stand on runs within, one behind the
other. -/

namespace DeclFront

/-- What a part with a span is. -/
inductive Construct
  | package (name : Name)
  | imports (i : Import)
  | member (m : Member)
  | modifier (m : Modifier)
  | returns (r : ReturnType)
  | type (t : TypeNode)
  | name (s : String)
  | literal (v : Literal)
  | param (p : Param)
  | arg (a : TypeArg)

/-- The grammar makes this of the tokens. -/
def Construct.DerivedFrom (run : List Token) : Construct → Prop
  | package n => PackageOf run (bare n)
  | imports i => ImportOf run (bare i)
  | member m => MemberOf run (bare m.unplaced)
  | modifier m => ModifierOf run (bare m)
  | returns r => ReturnOf run r.unplaced
  | type t => TypeOf run t.unplaced
  | name s => ∃ i, run = [i] ∧ i.kind = .ident ∧ i.text = s
  | literal v => ∃ l, run = [l] ∧ readLiteral l = .ok v
  | param p => ParamOf run (bare p.unplaced)
  | arg a => ArgOf run a.unplaced

/-- A part with its span, and the parts with a span inside it. -/
inductive Outline
  | node (what : Construct) (span : Span) (parts : List Outline)

namespace Outline

def what : Outline → Construct
  | node c _ _ => c

def span : Outline → Span
  | node _ s _ => s

def parts : Outline → List Outline
  | node _ _ ps => ps

mutual

/-- The outline itself and all that is inside it. -/
def nodes : Outline → List Outline
  | node c s ps => node c s ps :: nodesOf ps

def nodesOf : List Outline → List Outline
  | [] => []
  | o :: os => nodes o ++ nodesOf os

end

end Outline

def Spanned.outline {α : Type} (what : α → Construct) (parts : α → List Outline) (s : Spanned α) :
    Outline :=
  .node (what s.node) s.span (parts s.node)

def Spanned.leaf {α : Type} (what : α → Construct) (s : Spanned α) : Outline :=
  .node (what s.node) s.span []

mutual

def TypeNode.parts : TypeNode → List Outline
  | .primitive _ | .reference _ => []
  | .parameterized _ args => TypeArg.outlines args
  | .array e s => [.node (.type e) s e.parts]

def TypeArg.outline : TypeArg → Outline
  | .type t s => .node (.arg (.type t s)) s t.parts
  | .wildcard s => .node (.arg (.wildcard s)) s []
  | .bounded b t u s => .node (.arg (.bounded b t u s)) s [.node (.type t) u t.parts]

def TypeArg.outlines : List TypeArg → List Outline
  | [] => []
  | a :: rest => a.outline :: TypeArg.outlines rest

end

def ReturnType.parts : ReturnType → List Outline
  | void => []
  | type t => t.parts

def Param.parts (p : Param) : List Outline :=
  [p.type.outline .type TypeNode.parts, p.name.leaf .name]

def Member.parts : Member → List Outline
  | field f => f.modifiers.map (Spanned.leaf .modifier) ++
      f.type.outline .type TypeNode.parts :: f.name.leaf .name ::
        f.init.toList.map (Spanned.leaf .literal)
  | method m => m.modifiers.map (Spanned.leaf .modifier) ++
      m.returns.outline .returns ReturnType.parts :: m.name.leaf .name ::
        m.params.map (Spanned.outline .param Param.parts)

/-- The package clause, the imports and the members. -/
def CompilationUnit.outlines (u : CompilationUnit) : List Outline :=
  u.package.toList.map (Spanned.leaf .package) ++ (u.imports.map (Spanned.leaf .imports) ++
    u.members.map (Spanned.outline .member Member.parts))

/-- The span from the start of the first token to the end of the last one. -/
def Spans (run : List Token) (s : Span) : Prop :=
  ∃ first last, run.head? = some first ∧ run.getLast? = some last ∧
    s = ⟨first.span.start, last.span.stop⟩

mutual

inductive StandsOn : List Token → Outline → Prop
  | node {run : List Token} {c : Construct} {s : Span} {ps : List Outline}
      (hd : c.DerivedFrom run) (hs : Spans run s) (hp : Laid run ps) : StandsOn run (.node c s ps)

/-- Outlines stand on runs of the tokens, one behind the other. -/
inductive Laid : List Token → List Outline → Prop
  | nil (ts : List Token) : Laid ts []
  | cons (gap : List Token) {run rest : List Token} {o : Outline} {os : List Outline}
      (ho : StandsOn run o) (hr : Laid rest os) : Laid (gap ++ (run ++ rest)) (o :: os)

end

/-! ### Tokens in order -/

/-- Tokens as they stand in a text: none goes backwards, and they come one behind the other. -/
structure InOrder (ts : List Token) : Prop where
  proper : ∀ t ∈ ts, t.span.start ≤ t.span.stop
  ordered : Ordered ts

variable {ts us run xs ys : List Token} {t first last : Token} {a b s : Span}

theorem InOrder.sublist (h : InOrder ts) (hs : List.Sublist us ts) : InOrder us :=
  ⟨fun t ht => h.proper t (hs.subset ht), h.ordered.sublist hs⟩

theorem InOrder.left (h : InOrder (xs ++ ys)) : InOrder xs :=
  h.sublist (List.sublist_append_left xs ys)

theorem InOrder.right (h : InOrder (xs ++ ys)) : InOrder ys :=
  h.sublist (List.sublist_append_right xs ys)

theorem InOrder.first_le (h : InOrder run) (hf : run.head? = some first) (ht : t ∈ run) :
    first.span.start ≤ t.span.start := by
  obtain ⟨rest, rfl⟩ := List.head?_eq_some_iff.mp hf
  rcases List.mem_cons.mp ht with rfl | ht
  · exact Nat.le_refl _
  · have hbefore := List.rel_of_pairwise_cons h.ordered ht
    exact Nat.le_of_lt hbefore.1

theorem InOrder.le_last (h : InOrder run) (hl : run.getLast? = some last) (ht : t ∈ run) :
    t.span.stop ≤ last.span.stop := by
  obtain ⟨init, rfl⟩ := List.getLast?_eq_some_iff.mp hl
  rcases List.mem_append.mp ht with ht | ht
  · have hbefore := (List.pairwise_append.mp h.ordered).2.2 t ht last (by simp)
    have hproper := h.proper last (by simp)
    exact Nat.le_trans hbefore.2 hproper
  · obtain rfl := List.mem_singleton.mp ht
    exact Nat.le_refl _

theorem lex_inOrder {source : String} {tokens : List Token} (h : lex source = .ok tokens) :
    InOrder tokens :=
  ⟨fun _ ht => (lex_covers h ht).bounds.1, lex_ordered h⟩

/-! ### Spans of runs -/

theorem spans_singleton (t : Token) : Spans [t] t.span := ⟨t, t, rfl, rfl, rfl⟩

theorem Spans.ne_nil (h : Spans run s) : run ≠ [] := by
  obtain ⟨first, last, hf, -, -⟩ := h
  rintro rfl
  cases hf

/-- A part of a run lies inside it. -/
theorem Spans.inside (ho : InOrder run) (h : Spans run a) (hx : Spans xs b) (hsub : xs ⊆ run) :
    a.start ≤ b.start ∧ b.stop ≤ a.stop := by
  obtain ⟨first, last, hf, hl, rfl⟩ := h
  obtain ⟨first', last', hf', hl', rfl⟩ := hx
  exact ⟨ho.first_le hf (hsub (List.mem_of_head? hf')),
    ho.le_last hl (hsub (List.mem_of_getLast? hl'))⟩

/-- What a run begins with and what it ends with span it together. -/
theorem Spans.merge (ho : InOrder run) (hx : Spans xs a) (hy : Spans ys b)
    (hfront : xs <+: run) (hback : ys <:+ run) : Spans run (a.merge b) := by
  obtain ⟨first, last, hf, hl, rfl⟩ := hx
  obtain ⟨first', last', hf', hl', rfl⟩ := hy
  have hhead : run.head? = some first := by
    obtain ⟨tail, rfl⟩ := hfront
    simp [hf]
  have hlast : run.getLast? = some last' := by
    obtain ⟨front, rfl⟩ := hback
    simp [hl']
  have hle := ho.first_le hhead (hback.subset (List.mem_of_head? hf'))
  have hge := ho.le_last hlast (hfront.subset (List.mem_of_getLast? hl))
  refine ⟨first, last', hhead, hlast, ?_⟩
  simp only [Span.merge, Nat.min_eq_left hle, Nat.max_eq_right hge]

/-- The span from the token that is looked at to the end of a run that it is the first of. -/
theorem Spans.from_current (eof : Token) {rest : List Token} (ho : InOrder run) (hy : Spans ys b)
    (hback : ys <:+ run) (hts : ts = run ++ rest) : Spans run ((current eof ts).span.merge b) := by
  cases run with
  | nil => exact absurd (List.suffix_nil.mp hback) hy.ne_nil
  | cons t run =>
    subst hts
    exact (spans_singleton t).merge ho hy ⟨run, rfl⟩ hback

theorem Spans.before (ho : InOrder (xs ++ ys)) (hx : Spans xs a) (hy : Spans ys b) :
    a.Before b := by
  obtain ⟨first, last, hf, hl, rfl⟩ := hx
  obtain ⟨first', last', hf', hl', rfl⟩ := hy
  have hcross := (List.pairwise_append.mp ho.ordered).2.2
  exact ⟨(hcross _ (List.mem_of_head? hf) _ (List.mem_of_head? hf')).1,
    (hcross _ (List.mem_of_getLast? hl) _ (List.mem_of_head? hf')).2⟩

/-! ### Outlines one behind the other -/

variable {o p : Outline} {os ps : List Outline}

theorem Laid.behind (gap : List Token) (h : Laid ts os) : Laid (gap ++ ts) os := by
  cases h with
  | nil => exact .nil _
  | cons front ho hr =>
    rw [← List.append_assoc]
    exact .cons (gap ++ front) ho hr

theorem Laid.append (h : Laid xs os) (h' : Laid ys ps) : Laid (xs ++ ys) (os ++ ps) := by
  induction os generalizing xs with
  | nil => exact h'.behind xs
  | cons o os ih =>
    cases h with
    | cons gap ho hr =>
      simp only [List.append_assoc]
      exact .cons gap ho (ih hr)

theorem Laid.before (h : Laid xs os) (ys : List Token) : Laid (xs ++ ys) os := by
  simpa using h.append (.nil ys)

theorem StandsOn.laid (h : StandsOn run o) : Laid run [o] := by
  simpa using Laid.cons [] h (.nil [])

theorem StandsOn.spans (h : StandsOn run o) : Spans run o.span := by
  cases h with
  | node _ hs _ => exact hs

theorem StandsOn.derived (h : StandsOn run o) : o.what.DerivedFrom run := by
  cases h with
  | node hd _ _ => exact hd

theorem StandsOn.parts (h : StandsOn run o) : Laid run o.parts := by
  cases h with
  | node _ _ hp => exact hp

theorem Laid.exists_run (h : Laid ts os) (ho : o ∈ os) : ∃ run, run <:+: ts ∧ StandsOn run o := by
  induction os generalizing ts with
  | nil => cases ho
  | cons p os ih =>
    cases h with
    | @cons gap run rest _ _ hp hr =>
      rcases List.mem_cons.mp ho with rfl | ho
      · exact ⟨run, ⟨gap, rest, by simp⟩, hp⟩
      · obtain ⟨run', ⟨front, back, rfl⟩, hrun⟩ := ih hr ho
        exact ⟨run', ⟨gap ++ (run ++ front), back, by simp⟩, hrun⟩

theorem Laid.pairwise (ht : InOrder ts) (h : Laid ts os) :
    os.Pairwise (fun o p => o.span.Before p.span) := by
  induction os generalizing ts with
  | nil => exact .nil
  | cons o os ih =>
    cases h with
    | @cons gap run rest _ _ ho hr =>
      have hrun : InOrder (run ++ rest) := ht.right
      refine .cons (fun p hp => ?_) (ih hrun.right hr)
      obtain ⟨run', hsub, hp'⟩ := hr.exists_run hp
      have hboth : InOrder (run ++ run') := hrun.sublist (hsub.sublist.append_left run)
      exact ho.spans.before hboth hp'.spans

mutual

theorem StandsOn.exists_run : ∀ {o p : Outline} {run : List Token}, StandsOn run o →
    p ∈ o.nodes → ∃ run', run' <:+: run ∧ StandsOn run' p
  | .node c s ps, p, run, h, hp => by
    rcases List.mem_cons.mp hp with rfl | hp
    · exact ⟨run, List.infix_refl run, h⟩
    · exact h.parts.exists_node hp

theorem Laid.exists_node : ∀ {os : List Outline} {p : Outline} {ts : List Token}, Laid ts os →
    p ∈ Outline.nodesOf os → ∃ run, run <:+: ts ∧ StandsOn run p
  | [], _, _, _, hp => by cases hp
  | o :: os, p, ts, h, hp => by
    cases h with
    | @cons gap run rest _ _ ho hr =>
      rcases List.mem_append.mp hp with hp | hp
      · obtain ⟨run', hsub, hrun⟩ := ho.exists_run hp
        exact ⟨run', hsub.trans ⟨gap, rest, by simp⟩, hrun⟩
      · obtain ⟨run', hsub, hrun⟩ := hr.exists_node hp
        exact ⟨run', hsub.trans ⟨gap ++ run, [], by simp⟩, hrun⟩

end

/-- The parts inside an outline lie within its span, one behind the other. -/
theorem StandsOn.nested (ht : InOrder run) (h : StandsOn run o) :
    (∀ p ∈ o.parts, o.span.start ≤ p.span.start ∧ p.span.stop ≤ o.span.stop) ∧
      o.parts.Pairwise (fun p q => p.span.Before q.span) := by
  refine ⟨fun p hp => ?_, h.parts.pairwise ht⟩
  obtain ⟨run', hsub, hp'⟩ := h.parts.exists_run hp
  exact h.spans.inside ht hp'.spans hsub.subset

end DeclFront
