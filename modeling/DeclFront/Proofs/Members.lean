import DeclFront.Proofs.SpanExactness
import DeclFront.Proofs.TypeSpelling

/-! What is known about the members of a unit because its tokens come from a text: their names are
identifiers, their types are well-formed, and their initializers are the values of literals. -/

namespace DeclFront

/-- The tokens are those of a text, and the unit is what the parser makes of them. -/
structure CompilationUnit.ParsedFrom (source : String) (tokens : List Token) (u : CompilationUnit) :
    Prop where
  lexed : lex source = .ok tokens
  parsed : ∃ policy interrupt ds, (parseAsking policy interrupt tokens).1 = .complete u ds

def Method.types (m : Method) : List TypeNode := m.params.map (·.node.type.node)

structure Method.WellFormed (m : Method) : Prop where
  name : isIdentifier m.name.node = true
  types : ∀ t ∈ m.types, t.isWellFormed = true

namespace CompilationUnit.ParsedFrom

variable {source : String} {tokens : List Token} {u : CompilationUnit} {m : Member}

theorem laid (h : u.ParsedFrom source tokens) : Laid tokens u.outlines := by
  obtain ⟨policy, interrupt, ds, hparse⟩ := h.parsed
  have ho : InOrder tokens := lex_inOrder h.lexed
  have hcut : cutAtEnd tokens = (tokens.takeWhile (fun t => !t.isEnd), (cutAtEnd tokens).2) := rfl
  have hunit := unit_laid hcut (ho.sublist (List.takeWhile_sublist _))
  have hall := hunit.before (tokens.dropWhile (fun t => !t.isEnd))
  rwa [List.takeWhile_append_dropWhile, ← parseAsking_complete hparse] at hall

/-- The parts of a member stand on tokens of the text, one behind the other. -/
theorem exists_parts (h : u.ParsedFrom source tokens) (hm : m ∈ u.members.map (·.node)) :
    ∃ run, run ⊆ tokens ∧ Laid run m.parts := by
  obtain ⟨placed, hmem, rfl⟩ := List.mem_map.mp hm
  have ho : placed.outline .member Member.parts ∈ u.outlines :=
    List.mem_append_right _ (List.mem_append_right _ (List.mem_map_of_mem hmem))
  obtain ⟨run, hsub, hstands⟩ := h.laid.exists_run ho
  exact ⟨run, hsub.subset, hstands.parts⟩

theorem method_wellFormed {m : Method} (h : u.ParsedFrom source tokens)
    (hm : .method m ∈ u.members.map (·.node)) : m.WellFormed := by
  obtain ⟨run, hrun, hparts⟩ := h.exists_parts hm
  have hidents := lex_properIdents h.lexed
  constructor
  · have hname : m.name.leaf .name ∈ (Member.method m).parts := by simp [Member.parts]
    obtain ⟨run', hsub, hstands⟩ := hparts.exists_run hname
    obtain ⟨i, rfl, hi, htext⟩ := hstands.derived
    rw [← htext]
    exact hidents i (hrun (hsub.subset (by simp))) hi
  · intro t ht
    obtain ⟨p, hp, rfl⟩ := List.mem_map.mp ht
    have hparam : p.outline .param Param.parts ∈ (Member.method m).parts := by
      simp only [Member.parts, List.mem_append, List.mem_cons, List.mem_map]
      exact .inr (.inr (.inr ⟨p, hp, rfl⟩))
    obtain ⟨run', hsub, hstands⟩ := hparts.exists_run hparam
    obtain ⟨run'', hsub', htype⟩ := hstands.parts.exists_run List.mem_cons_self
    rw [← TypeNode.isWellFormed_unplaced]
    exact htype.derived.isWellFormed
      (fun i hi => hidents i (hrun (hsub.subset (hsub'.subset hi))))

theorem exists_literal {f : Field} {l : Spanned Literal} (h : u.ParsedFrom source tokens)
    (hf : .field f ∈ u.members.map (·.node)) (hl : f.init = some l) :
    ∃ t ∈ tokens, readLiteral t = .ok l.node := by
  obtain ⟨run, hrun, hparts⟩ := h.exists_parts hf
  have hinit : l.leaf .literal ∈ (Member.field f).parts := by simp [Member.parts, hl]
  obtain ⟨run', hsub, hstands⟩ := hparts.exists_run hinit
  obtain ⟨t, rfl, hread⟩ := hstands.derived
  exact ⟨t, hrun (hsub.subset (by simp)), hread⟩

end CompilationUnit.ParsedFrom

end DeclFront
