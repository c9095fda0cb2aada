import DeclFront.Proofs.Correspondence
import DeclFront.Proofs.Policies
import DeclFront.Proofs.Respacing

/-! The layout of a text has no say in what a job makes of it. Texts with the same tokens, places
aside, give the same tree and the same report, and the report points at the same tokens. -/

namespace DeclFront

variable {α β : Type} {source target us us' : List Token}

/-! ### Trees -/

theorem map_eq_of_forall₂ {R : α → α → Prop} {f : α → β} {l l' : List α} (h : List.Forall₂ R l l')
    (hf : ∀ a b, R a b → f b = f a) : l'.map f = l.map f := by
  induction h with
  | nil => rfl
  | cons hab _ ih => rw [List.map_cons, List.map_cons, hf _ _ hab, ih]

theorem map_eq_of_rel {R : α → α → Prop} {f : α → β} {o o' : Option α} (h : Option.Rel R o o')
    (hf : ∀ a b, R a b → f b = f a) : o'.map f = o.map f := by
  cases h with
  | none => rfl
  | some hab => rw [Option.map_some, Option.map_some, hf _ _ hab]

theorem Spanned.unplaced_eq {f : α → α} {a b : Spanned α} (h : f b.node = f a.node) :
    b.unplaced f = a.unplaced f := congrArg bare h

theorem Param.Twins.unplaced {p q : Param} (h : p.Twins source target q) :
    q.unplaced = p.unplaced := by
  simp only [Param.unplaced, Spanned.unplaced, h.isFinal, h.type, h.name.1]

theorem map_modifiers {ms ms' : List (Spanned Modifier)}
    (h : List.Forall₂ (Spanned.Twins source target) ms ms') :
    ms'.map (Spanned.unplaced id) = ms.map (Spanned.unplaced id) :=
  map_eq_of_forall₂ h (fun _ _ hm => Spanned.unplaced_eq hm.1)

theorem Member.Twins.unplaced {m n : Member} (h : m.Twins source target n) :
    n.unplaced = m.unplaced := by
  cases h with
  | @field f g h =>
    have hinit : g.init.map (Spanned.unplaced id) = f.init.map (Spanned.unplaced id) :=
      map_eq_of_rel h.init (fun _ _ hi => Spanned.unplaced_eq hi.1)
    simp only [Member.unplaced, Field.unplaced, map_modifiers h.modifiers, hinit]
    simp only [Spanned.unplaced, h.type, h.name.1]
  | @method m n h =>
    have hparams : n.params.map (Spanned.unplaced Param.unplaced) =
        m.params.map (Spanned.unplaced Param.unplaced) :=
      map_eq_of_forall₂ h.params (fun _ _ hp => Spanned.unplaced_eq hp.unplaced)
    simp only [Member.unplaced, Method.unplaced, map_modifiers h.modifiers, hparams]
    simp only [Spanned.unplaced, h.returns, h.name.1]

theorem Attempts.Twins.unit_members {a b : Attempts} (h : a.Twins source target b) :
    List.Forall₂ (fun m n => m.node.Twins source target n.node) a.unit.members b.unit.members :=
  List.rel_filterMap (fun _ _ hr => hr.part) h.members

theorem Attempts.Twins.unit_unplaced {a b : Attempts} (h : a.Twins source target b) :
    b.unit.unplaced = a.unit.unplaced := by
  have hpackage : Option.Rel (Alike Spanned.node) a.unit.package b.unit.package := by
    have hp := h.package
    unfold Attempts.unit
    generalize a.package = p at hp
    generalize b.package = q at hp
    cases hp with
    | none => exact .none
    | some hp => exact hp.part
  have himports : List.Forall₂ (Alike Spanned.node) a.unit.imports b.unit.imports :=
    List.rel_filterMap (fun _ _ hr => hr.part) h.imports
  have hbare {γ : Type} (x y : Spanned γ) (hxy : Alike Spanned.node x y) :
      y.unplaced id = x.unplaced id := Spanned.unplaced_eq hxy
  have hmembers : b.unit.members.map (Spanned.unplaced Member.unplaced) =
      a.unit.members.map (Spanned.unplaced Member.unplaced) :=
    map_eq_of_forall₂ h.unit_members (fun _ _ hm => Spanned.unplaced_eq hm.unplaced)
  unfold CompilationUnit.unplaced
  rw [map_eq_of_rel hpackage hbare, map_eq_of_forall₂ himports hbare, hmembers]

/-! ### Checks -/

theorem TypeNode.erasure_unplaced (t : TypeNode) : t.unplaced.erasure = t.erasure.unplaced := by
  fun_induction TypeNode.erasure t with
  | case1 => simp [TypeNode.unplaced, TypeNode.erasure]
  | case2 => simp [TypeNode.unplaced, TypeNode.erasure]
  | case3 => simp [TypeNode.unplaced, TypeNode.erasure]
  | case4 element _ ih => simp [TypeNode.unplaced, TypeNode.erasure, ih]

theorem Method.Twins.signature {m n : Method} (h : m.Twins source target n) :
    n.signature = m.signature := by
  have htext {t u : TypeNode} (htu : u.unplaced = t.unplaced) :
      u.erasure.text = t.erasure.text := by
    rw [← u.erasure.text_unplaced, ← u.erasure_unplaced, htu, t.erasure_unplaced,
      t.erasure.text_unplaced]
  have hparams : n.params.map (·.node.type.node.erasure.text) =
      m.params.map (·.node.type.node.erasure.text) :=
    map_eq_of_forall₂ h.params (fun _ _ hp => htext hp.type)
  unfold Method.signature
  rw [hparams, h.name.1]

theorem Member.Twins.modifiers {m n : Member} (h : m.Twins source target n) :
    List.Forall₂ (Spanned.Twins source target) m.modifiers n.modifiers := by
  cases h with
  | field h => exact h.modifiers
  | method h => exact h.modifiers

theorem Span.Twins.semantic {s s' : Span} (h : s.Twins source target s') (message : String) :
    (Diagnostic.semantic message s).Twins source target (.semantic message s') :=
  .of_span nofun h

theorem modifierFault?_twins {ms ms' : List (Spanned Modifier)}
    (h : List.Forall₂ (Spanned.Twins source target) ms ms') (earlier : List Modifier) :
    Option.Rel (Diagnostic.Twins source target) (modifierFault? earlier ms)
      (modifierFault? earlier ms') := by
  induction h generalizing earlier with
  | nil => exact .none
  | cons hm _ ih =>
    simp only [modifierFault?, hm.1]
    split
    · exact .some ((hm.2.semantic _).withHint _)
    · split
      · exact .some ((hm.2.semantic _).withHint _)
      · exact ih _

theorem parameterFault?_twins {ps ps' : List (Spanned Param)}
    (h : List.Forall₂ (fun p q => p.node.Twins source target q.node) ps ps')
    (earlier : List String) :
    Option.Rel (Diagnostic.Twins source target) (parameterFault? earlier ps)
      (parameterFault? earlier ps') := by
  induction h generalizing earlier with
  | nil => exact .none
  | cons hp _ ih =>
    simp only [parameterFault?, hp.name.1]
    split
    · exact .some (hp.name.2.semantic _)
    · exact ih _

theorem misfit?_unplaced (t : TypeNode) (l : Literal) : misfit? t.unplaced l = misfit? t l := by
  cases t <;> simp [TypeNode.unplaced, misfit?]

theorem assignable_unplaced (t : TypeNode) (l : Literal) :
    assignable t.unplaced l = assignable t l := by
  cases t <;> simp [TypeNode.unplaced, assignable]

theorem initializerFault?_twins {t t' : TypeNode} {init init' : Spanned Literal}
    (ht : t'.unplaced = t.unplaced) (h : init.Twins source target init') :
    Option.Rel (Diagnostic.Twins source target) (initializerFault? t init)
      (initializerFault? t' init') := by
  have hmisfit : misfit? t' init.node = misfit? t init.node := by
    rw [← misfit?_unplaced, ht, misfit?_unplaced]
  have hassign : assignable t' init.node = assignable t init.node := by
    rw [← assignable_unplaced, ht, assignable_unplaced]
  have htext : t'.text = t.text := by rw [← t'.text_unplaced, ht, t.text_unplaced]
  unfold initializerFault?
  rw [h.1, hmisfit, hassign, htext]
  split
  · exact .some (h.2.outOfRange _ _)
  · split
    · exact .none
    · exact .some (h.2.semantic _)

/-- The same names, each first declared by the same token. -/
abbrev TwinSeen (source target : List Token) : Seen → Seen → Prop :=
  List.Forall₂ (fun a b => b.1 = a.1 ∧ a.2.Twins source target b.2)

theorem TwinSeen.lookup {seen seen' : Seen} (h : TwinSeen source target seen seen')
    (name : String) :
    Option.Rel (Span.Twins source target) (seen.lookup name) (seen'.lookup name) := by
  induction h with
  | nil => exact .none
  | @cons a b _ _ hab _ ih =>
    obtain ⟨first, place⟩ := a
    obtain ⟨_, place'⟩ := b
    obtain ⟨rfl, hplace⟩ := hab
    simp only [List.lookup_cons]
    split
    · exact .some hplace
    · exact ih

/-- A name that a rule remembers: its first declaration stays, and a later one is a fault. -/
theorem declared_twins {seen seen' : Seen} {s s' : Span} {fault fault' : Span → Diagnostic}
    (hs : TwinSeen source target seen seen') (name : String) (hspan : s.Twins source target s')
    (hfault : ∀ p p', p.Twins source target p' → (fault p).Twins source target (fault' p')) :
    let declare (seen : Seen) (s : Span) (fault : Span → Diagnostic) : Option Diagnostic × Seen :=
      match seen.lookup name with
      | some previous => (some (fault previous), seen)
      | none => (none, (name, s) :: seen)
    Option.Rel (Diagnostic.Twins source target) (declare seen s fault).1
        (declare seen' s' fault').1 ∧
      TwinSeen source target (declare seen s fault).2 (declare seen' s' fault').2 := by
  intro declare
  have hlookup := hs.lookup name
  simp only [declare]
  generalize seen.lookup name = p at hlookup
  generalize seen'.lookup name = p' at hlookup
  cases hlookup with
  | none => exact ⟨.none, .cons ⟨rfl, hspan⟩ hs⟩
  | some hp => exact ⟨.some (hfault _ _ hp), hs⟩

theorem Rule.accept_twins {seen seen' : Seen} {m n : Member} (r : Rule)
    (hs : TwinSeen source target seen seen') (h : m.Twins source target n) :
    Option.Rel (Diagnostic.Twins source target) (r.accept seen m).1 (r.accept seen' n).1 ∧
      TwinSeen source target (r.accept seen m).2 (r.accept seen' n).2 := by
  cases r with
  | modifiers =>
    exact ⟨modifierFault?_twins h.modifiers [], hs⟩
  | parameters =>
    cases h with
    | field h => exact ⟨.none, hs⟩
    | method h => exact ⟨parameterFault?_twins h.params [], hs⟩
  | fields =>
    cases h with
    | method h => exact ⟨.none, hs⟩
    | @field f g h =>
      simp only [Rule.accept, h.name.1]
      refine declared_twins hs f.name.node h.name.2 (fun p p' hp => ?_)
      exact (h.name.2.semantic _).withNote (.declared hp)
  | methods =>
    cases h with
    | field h => exact ⟨.none, hs⟩
    | @method m n h =>
      simp only [Rule.accept, h.signature]
      refine declared_twins hs m.signature h.name.2 (fun p p' hp => ?_)
      exact ((h.name.2.semantic _).withNote (.declared hp)).withHint _
  | initializers =>
    cases h with
    | method h => exact ⟨.none, hs⟩
    | @field f g h =>
      refine ⟨?_, hs⟩
      have hinit := h.init
      simp only [Rule.accept]
      generalize f.init = i at hinit
      generalize g.init = i' at hinit
      cases hinit with
      | none => exact .none
      | some hi => exact initializerFault?_twins h.type hi

theorem Rules.faults_twins {rules rules' : Rules} {ms ms' : List (Spanned Member)}
    (hr : List.Forall₂ (fun a b => b.1 = a.1 ∧ TwinSeen source target a.2 b.2) rules rules')
    (hm : List.Forall₂ (fun m n => m.node.Twins source target n.node) ms ms') :
    List.Forall₂ (Diagnostic.Twins source target) (rules.faults ms) (rules'.faults ms') := by
  induction hm generalizing rules rules' with
  | nil => exact .nil
  | @cons m n ms ms' hmn _ ih =>
    have hresults : List.Forall₂ (fun a b => Option.Rel (Diagnostic.Twins source target) a.1 b.1 ∧
        b.2.1 = a.2.1 ∧ TwinSeen source target a.2.2 b.2.2) (rules.accept m.node)
        (rules'.accept n.node) := by
      refine List.rel_map (fun a b hab => ?_) hr
      obtain ⟨r, seen⟩ := a
      obtain ⟨_, seen'⟩ := b
      obtain ⟨rfl, hseen⟩ := hab
      obtain ⟨hfault, hnext⟩ := Rule.accept_twins _ hseen hmn
      exact ⟨hfault, rfl, hnext⟩
    refine List.rel_append (List.rel_filterMap (fun _ _ h => h.1) hresults) (ih ?_)
    exact List.rel_map (fun _ _ h => h.2) hresults

theorem checkUnit_twins (policy : Policy) {u u' : CompilationUnit}
    (h : List.Forall₂ (fun m n => m.node.Twins source target n.node) u.members u'.members) :
    List.Forall₂ (Diagnostic.Twins source target) (checkUnit policy u) (checkUnit policy u') := by
  have hfaults : List.Forall₂ (Diagnostic.Twins source target) (checkUnit .accumulate u)
      (checkUnit .accumulate u') := by
    refine Rules.faults_twins (List.forall₂_same.mpr ?_) h
    intro rule hrule
    obtain ⟨r, -, rfl⟩ := List.mem_map.mp hrule
    exact ⟨rfl, .nil⟩
  cases policy with
  | accumulate => exact hfaults
  | failFast =>
    rw [checkUnit_failFast, checkUnit_failFast]
    exact List.forall₂_take 1 hfaults

/-! ### Reports -/

/-- The order in which tokens stand in a text. -/
abbrev Ordered (tokens : List Token) : Prop :=
  tokens.Pairwise (fun a b => a.span.Before b.span)

theorem Ordered.start_le_iff {tokens : List Token} {i j : Nat} {t u : Token} (h : Ordered tokens)
    (hi : tokens[i]? = some t) (hj : tokens[j]? = some u) :
    t.span.start ≤ u.span.start ↔ i ≤ j := by
  have hlt {i j : Nat} {t u : Token} (hi : tokens[i]? = some t) (hj : tokens[j]? = some u)
      (hij : i < j) : t.span.start < u.span.start := by
    obtain ⟨hi', rfl⟩ := List.getElem?_eq_some_iff.mp hi
    obtain ⟨hj', rfl⟩ := List.getElem?_eq_some_iff.mp hj
    exact (List.pairwise_iff_getElem.mp h i j hi' hj' hij).1
  rcases Nat.lt_trichotomy i j with hij | rfl | hji
  · have := hlt hi hj hij
    omega
  · obtain rfl := Option.some.inj (hi.symm.trans hj)
    simp
  · have := hlt hj hi hji
    omega

theorem Span.Twins.start_le_iff {a a' b b' : Span} (hs : Ordered source) (ht : Ordered target)
    (ha : a.Twins source target a') (hb : b.Twins source target b') :
    a.start ≤ b.start ↔ a'.start ≤ b'.start := by
  obtain ⟨t, t', ⟨-, -, i, hi, hi'⟩, rfl, rfl⟩ := ha
  obtain ⟨u, u', ⟨-, -, j, hj, hj'⟩, rfl, rfl⟩ := hb
  rw [hs.start_le_iff hi hj, ht.start_le_iff hi' hj']

theorem sortDiagnostics_twins {ds ds' : List Diagnostic} (hs : Ordered source)
    (ht : Ordered target) (h : List.Forall₂ (Diagnostic.Twins source target) ds ds') :
    List.Forall₂ (Diagnostic.Twins source target) (sortDiagnostics ds) (sortDiagnostics ds') := by
  let le (a b : Diagnostic) : Bool := decide (a.span.start ≤ b.span.start)
  -- Both sorts do to their lists what one sort does to the list of pairs.
  let pairs := ds.zip ds'
  let sorted := pairs.mergeSort (fun p q => le p.1 q.1)
  have htwins : ∀ p ∈ pairs, p.1.Twins source target p.2 := fun p hp => List.forall₂_zip h hp
  have hsame : ∀ p ∈ pairs, ∀ q ∈ pairs, le p.1 q.1 = le p.2 q.2 := fun p hp q hq =>
    decide_eq_decide.mpr (Span.Twins.start_le_iff hs ht (htwins p hp).span (htwins q hq).span)
  have hfst : sorted.map Prod.fst = ds.mergeSort le := by
    rw [List.map_mergeSort (s := le) (fun p _ q _ => rfl),
      List.map_fst_zip (Nat.le_of_eq h.length_eq)]
  have hsnd : sorted.map Prod.snd = ds'.mergeSort le := by
    rw [List.map_mergeSort (s := le) hsame, List.map_snd_zip (Nat.le_of_eq h.length_eq.symm)]
  show List.Forall₂ _ (ds.mergeSort le) (ds'.mergeSort le)
  rw [← hfst, ← hsnd, List.forall₂_map_left_iff, List.forall₂_map_right_iff, List.forall₂_same]
  exact fun p hp => htwins p (List.mem_mergeSort.mp hp)

theorem capDiagnostics_twins (limit : Nat) {ds ds' : List Diagnostic}
    (h : List.Forall₂ (Diagnostic.Twins source target) ds ds') :
    List.Forall₂ (Diagnostic.Twins source target) (capDiagnostics limit ds)
      (capDiagnostics limit ds') := by
  have hlast {note : String} {kept kept' : List Diagnostic}
      (h : List.Forall₂ (Diagnostic.Twins source target) kept kept') :
      List.Forall₂ (Diagnostic.Twins source target)
        (kept.dropLast ++ (kept.getLast?.map (Diagnostic.withNote note)).toList)
        (kept'.dropLast ++ (kept'.getLast?.map (Diagnostic.withNote note)).toList) := by
    induction h with
    | nil => exact .nil
    | cons hd hds ih =>
      cases hds with
      | nil => exact .cons (hd.withNote (.same note)) .nil
      | cons hd' hds =>
        simp only [List.dropLast_cons_cons, List.getLast?_cons_cons, List.cons_append]
        exact .cons hd ih
  unfold capDiagnostics
  rw [h.length_eq]
  split
  · exact h
  · exact hlast (List.forall₂_take limit h)

/-! ### Jobs -/

structure Outcome.Twins (source target : List Token) (o o' : Outcome) : Prop where
  state : o'.state = o.state
  unit : o'.unit?.map CompilationUnit.unplaced = o.unit?.map CompilationUnit.unplaced
  diagnostics : List.Forall₂ (Diagnostic.Twins source target) o.diagnostics o'.diagnostics

section Jobs

variable {ds ds' : List Diagnostic} (config : Config) (text text' : String)

theorem failedWith_twins (h : List.Forall₂ (Diagnostic.Twins source target) ds ds') :
    (Job.failedWith config ds text).Twins source target (Job.failedWith config ds' text') :=
  ⟨rfl, rfl, capDiagnostics_twins _ h⟩

theorem finish_twins {a b : Attempts} (hs : Ordered source) (ht : Ordered target)
    (h : a.Twins source target b)
    (hd : List.Forall₂ (Diagnostic.Twins source target) ds ds') :
    (Job.finish config text a.unit ds).Twins source target
      (Job.finish config text' b.unit ds') := by
  have hchecked := checkUnit_twins config.policy h.unit_members
  have hreport := capDiagnostics_twins config.maxDiagnostics
    (sortDiagnostics_twins hs ht (List.rel_append hd hchecked))
  have hcompleted : Outcome.Twins source target (.completed a.unit _ text)
      (.completed b.unit _ text') := ⟨rfl, congrArg some h.unit_unplaced, hreport⟩
  unfold Job.finish
  dsimp only
  generalize checkUnit config.policy a.unit = checked at hchecked hcompleted ⊢
  generalize checkUnit config.policy b.unit = checked' at hchecked hcompleted ⊢
  cases config.policy with
  | accumulate => exact hcompleted
  | failFast =>
    cases hchecked with
    | nil => exact hcompleted
    | cons hc hcs => exact failedWith_twins config text text' (.cons hc hcs)

end Jobs

theorem lex_ordered {s : String} {tokens : List Token} (h : lex s = .ok tokens) :
    Ordered tokens := by
  have haccounts := lexAccounts s
  rw [h] at haccounts
  exact haccounts.2.1

theorem twins_of_unplaced (h : us'.map Token.unplaced = us.map Token.unplaced) :
    Twins us us' us us' := by
  have hlength : us.length = us'.length := by simpa using (congrArg List.length h).symm
  refine List.forall₂_iff_get.mpr ⟨hlength, fun i hi hi' => ?_⟩
  have hsame : (us'.get ⟨i, hi'⟩).unplaced = (us.get ⟨i, hi⟩).unplaced := by
    have hget := congrArg (fun l : List (TokenKind × String) => l[i]?) h
    simpa [hi, hi'] using hget
  exact ⟨congrArg Prod.fst hsame, congrArg Prod.snd hsame, i, by simp, by simp⟩

theorem process_twins (config : Config) {s s' : String} (h : lex s = .ok source)
    (h' : lex s' = .ok target) (hsame : target.map Token.unplaced = source.map Token.unplaced) :
    (Job.process config .never s).1.Twins source target (Job.process config .never s').1 := by
  have hend : source.any Token.isEnd = true := List.any_eq_true.mpr (lex_ends h)
  have hattempts := ofTokens_twins (twins_of_unplaced hsame) hend
  have hlex : Job.lexBy config.policy s = .ok source ∧ Job.lexBy config.policy s' = .ok target := by
    cases config.policy with
    | accumulate => exact ⟨h, h'⟩
    | failFast => simp [Job.lexBy, lexFailFast_of_ok h, lexFailFast_of_ok h']
  have hfaults := hattempts.diagnostics
  have hfinish := finish_twins config s s' (lex_ordered h) (lex_ordered h')
    hattempts hfaults
  rw [process_never, process_never, hlex.1, hlex.2]
  dsimp only
  generalize (Attempts.ofTokens source).diagnostics = ds at hfaults hfinish ⊢
  generalize (Attempts.ofTokens target).diagnostics = ds' at hfaults hfinish ⊢
  cases config.policy with
  | accumulate => exact hfinish
  | failFast =>
    cases hfaults with
    | nil => exact hfinish
    | cons hd _ => exact failedWith_twins config s s' (.cons hd .nil)

/-- Two texts whose tokens are the same, places aside, are treated alike: the jobs end in the same
state, with the same tree up to its places, and with reports that agree line by line, in which each
line points at the token of the same number. -/
theorem layout_independent (storage : Storage) (config : Config) (name name' : String)
    {s s' : String} {tokens tokens' : List Token} (h : lex s = .ok tokens)
    (h' : lex s' = .ok tokens')
    (hsame : tokens'.map Token.unplaced = tokens.map Token.unplaced) :
    let o := (Job.run storage config (.inline name s) .never).outcome
    let o' := (Job.run storage config (.inline name' s') .never).outcome
    o'.state = o.state ∧
      o'.unit?.map CompilationUnit.unplaced = o.unit?.map CompilationUnit.unplaced ∧
      List.Forall₂ (Diagnostic.Twins tokens tokens') o.diagnostics o'.diagnostics := by
  intro o o'
  have htwins : o.Twins tokens tokens' o' := by
    simp only [o, o', run_never_outcome, Source.read]
    exact process_twins config h h' hsame
  exact ⟨htwins.state, htwins.unit, htwins.diagnostics⟩

theorem layout_independent_spaced_import :
    let storage : Storage := fun _ => .error .notFound
    let config : Config := {}
    let o := (Job.run storage config (.inline "a" "import a b;") .never).outcome
    let o' := (Job.run storage config (.inline "b" "import a/*;*/b ;") .never).outcome
    o.diagnostics = [.illegalToken ⟨.ident, "b", ⟨9, 10⟩⟩ "';'"] ∧
      o'.diagnostics = [.illegalToken ⟨.ident, "b", ⟨13, 14⟩⟩ "';'"] ∧ o'.state = o.state ∧
      ∃ tokens tokens', lex "import a b;" = .ok tokens ∧ lex "import a/*;*/b ;" = .ok tokens' ∧
        List.Forall₂ (Diagnostic.Twins tokens tokens') o.diagnostics o'.diagnostics := by
  intro storage config o o'
  have h : lex "import a b;" = .ok ((lex "import a b;").toOption.getD []) :=
    lex_of_toOption (by decide +kernel)
  have h' : lex "import a/*;*/b ;" = .ok ((lex "import a/*;*/b ;").toOption.getD []) :=
    lex_of_toOption (by decide +kernel)
  obtain ⟨hstate, -, hreports⟩ := layout_independent storage config "a" "b" h h' (by decide +kernel)
  exact ⟨by decide +kernel, by decide +kernel, hstate, _, _, h, h', hreports⟩

end DeclFront
