import DeclFront.Check

/-! What the rules find in a unit, said without what they remember on the way. A pair of a member
and a rule has a diagnostic exactly if the member breaks the rule, and there are no other
diagnostics. -/

namespace DeclFront

/-! ### Broken rules -/

/-- A modifier stands twice, or there are two different access modifiers. -/
def Clashing (ms : List (Spanned Modifier)) : Prop :=
  ¬ (ms.map (·.node)).Nodup ∨
    ∃ a ∈ ms.map (·.node), ∃ b ∈ ms.map (·.node), a ≠ b ∧ a.isAccess = true ∧ b.isAccess = true

def Namesakes (ps : List (Spanned Param)) : Prop := ¬ (ps.map (·.node.name.node)).Nodup

/-- The least and the greatest value of an integral type that is narrower than `int`. -/
def Primitive.narrowRange? : Primitive → Option (Int × Int)
  | byte => some (-128, 127)
  | short => some (-32768, 32767)
  | char => some (0, 65535)
  | _ => none

/-- The literal is an int that the narrow type `p` cannot hold. -/
def Overflows (t : TypeNode) (l : Literal) (p : Primitive) : Prop :=
  t = .primitive p ∧
    ∃ range v, p.narrowRange? = some range ∧ l = .int v ∧ ¬ (range.1 ≤ v ∧ v ≤ range.2)

def Literal.primitive? : Literal → Option Primitive
  | bool _ => some .boolean
  | char _ => some .char
  | int _ => some .int
  | long _ => some .long
  | float _ => some .float
  | double _ => some .double
  | string _ | null => none

/-- Values of the first type are also taken for the second, which is the same or a wider one. -/
def Primitive.Widens (p q : Primitive) : Prop :=
  p = q ∨ List.Sublist [p, q] [char, int, long, float, double]

instance (p q : Primitive) : Decidable (p.Widens q) := inferInstanceAs (Decidable (_ ∨ _))

/-- What may initialize what, the value aside: a type takes the literals of its own type and of those
that widen to it, a narrow one takes ints too, `null` stands for every object, and a string for a
`String`. -/
inductive Initializes : TypeNode → Literal → Prop
  | widened {p q : Primitive} {l : Literal} : l.primitive? = some q → q.Widens p →
      Initializes (.primitive p) l
  | narrowed {p : Primitive} {range : Int × Int} (v : Int) : p.narrowRange? = some range →
      Initializes (.primitive p) (.int v)
  | null {t : TypeNode} : t.isReference = true → Initializes t .null
  | string {n : Name} (s : String) : n.simple = "String" → Initializes (.reference n) (.string s)

def Unfit (t : TypeNode) (l : Literal) : Prop := ¬ Initializes t l ∨ ∃ p, Overflows t l p

/-- The member breaks the rule, given those that stand before it. -/
def Rule.Broken (earlier : List Member) (m : Member) : Rule → Prop
  | modifiers => Clashing m.modifiers
  | parameters => ∃ f, m = .method f ∧ Namesakes f.params
  | fields => ∃ f, m = .field f ∧
      ∃ g ∈ earlier.filterMap Member.field?, g.name.node = f.name.node
  | methods => ∃ f, m = .method f ∧
      ∃ g ∈ earlier.filterMap Member.method?, g.signature = f.signature
  | initializers => ∃ f l, m = .field f ∧ f.init = some l ∧ Unfit f.type.node l.node

/-! ### Their diagnostics -/

/-- The list is bad from `x` on, which stands behind `before`, and not earlier. -/
def Breaks {α : Type} (bad : List α → Prop) (xs before : List α) (x : α) : Prop :=
  ¬ bad before ∧ bad (before ++ [x]) ∧ ∃ after, xs = before ++ x :: after

inductive ModifierFinding (ms : List (Spanned Modifier)) : Diagnostic → Prop
  | repeated {before : List (Spanned Modifier)} {x : Spanned Modifier} :
      Breaks Clashing ms before x → x.node ∈ before.map (·.node) →
      ModifierFinding ms (.repeatedModifier x.node x.span)
  | conflict {before : List (Spanned Modifier)} {x : Spanned Modifier} {first : Modifier} :
      Breaks Clashing ms before x → x.node ∉ before.map (·.node) →
      first ∈ before.map (·.node) → first.isAccess = true →
      ModifierFinding ms (.conflictingAccess first x.node x.span)

inductive ParameterFinding (ps : List (Spanned Param)) : Diagnostic → Prop
  | duplicate {before : List (Spanned Param)} {x : Spanned Param} : Breaks Namesakes ps before x →
      ParameterFinding ps (.duplicateParameter x.node.name.node x.node.name.span)

/-- A literal out of range is reported as such, whatever else is wrong with it. -/
inductive InitializerFinding (t : TypeNode) (l : Spanned Literal) : Diagnostic → Prop
  | range {p : Primitive} : Overflows t l.node p →
      InitializerFinding t l (.literalOutOfRange l.node.text p.spelling l.span)
  | mismatch : (¬ ∃ p, Overflows t l.node p) → ¬ Initializes t l.node →
      InitializerFinding t l (.initializerMismatch l.node.text t.text l.span)

/-- The diagnostic for a member that breaks the rule. One about a name that is declared before
points to the first of these declarations. -/
def Rule.Finding (earlier : List Member) (m : Member) (d : Diagnostic) : Rule → Prop
  | modifiers => ModifierFinding m.modifiers d
  | parameters => ∃ f, m = .method f ∧ ParameterFinding f.params d
  | fields => ∃ f first, m = .field f ∧
      (earlier.filterMap Member.field?).find? (·.name.node == f.name.node) = some first ∧
      d = .duplicateField f.name.node f.name.span first.name.span
  | methods => ∃ f first, m = .method f ∧
      (earlier.filterMap Member.method?).find? (·.signature == f.signature) = some first ∧
      d = .duplicateMethod f.signature f.name.span first.name.span
  | initializers => ∃ f l, m = .field f ∧ f.init = some l ∧ InitializerFinding f.type.node l d

/-- Nothing is said if all is well, and otherwise one finding. -/
inductive Verdict (broken : Prop) (finding : Diagnostic → Prop) : Option Diagnostic → Prop
  | clean : ¬ broken → Verdict broken finding none
  | found {d : Diagnostic} : broken → finding d → Verdict broken finding (some d)

theorem Verdict.imp {p q : Prop} {P Q : Diagnostic → Prop} {v : Option Diagnostic}
    (h : Verdict p P v) (hpq : p ↔ q) (hPQ : ∀ d, P d → Q d) : Verdict q Q v := by
  cases h with
  | clean hp => exact .clean (fun hq => hp (hpq.mpr hq))
  | found hp hd => exact .found (hpq.mp hp) (hPQ _ hd)

/-! ### Lists that go bad -/

theorem Clashing.append {before : List (Spanned Modifier)} (h : Clashing before)
    (after : List (Spanned Modifier)) : Clashing (before ++ after) := by
  rcases h with h | ⟨a, ha, b, hb, hab⟩
  · refine .inl (fun hn => h ?_)
    rw [List.map_append] at hn
    exact (List.nodup_append.mp hn).1
  · refine .inr ⟨a, ?_, b, ?_, hab⟩
    · rw [List.map_append]
      exact List.mem_append_left _ ha
    · rw [List.map_append]
      exact List.mem_append_left _ hb

theorem Namesakes.append {before : List (Spanned Param)} (h : Namesakes before)
    (after : List (Spanned Param)) : Namesakes (before ++ after) := by
  intro hn
  rw [List.map_append] at hn
  exact h (List.nodup_append.mp hn).1

theorem Breaks.bad {α : Type} {bad : List α → Prop} {xs before : List α} {x : α}
    (hmono : ∀ ys, bad ys → ∀ zs, bad (ys ++ zs)) (h : Breaks bad xs before x) : bad xs := by
  obtain ⟨-, hbad, after, rfl⟩ := h
  have hh := hmono _ hbad after
  rwa [List.append_assoc] at hh

theorem clashing_repeated {before : List (Spanned Modifier)} {x : Spanned Modifier}
    (hx : x.node ∈ before.map (·.node)) : Clashing (before ++ [x]) := by
  refine .inl (fun hn => ?_)
  rw [List.map_append] at hn
  exact (List.nodup_append.mp hn).2.2 _ hx x.node (by simp) rfl

theorem clashing_conflict {before : List (Spanned Modifier)} {x : Spanned Modifier}
    {first : Modifier} (hx : x.node ∉ before.map (·.node)) (hfirst : first ∈ before.map (·.node))
    (ha : first.isAccess = true) (hxa : x.node.isAccess = true) : Clashing (before ++ [x]) := by
  have hne : first ≠ x.node := fun he => hx (he ▸ hfirst)
  refine .inr ⟨first, ?_, x.node, by simp, hne, ha, hxa⟩
  rw [List.map_append]
  exact List.mem_append_left _ hfirst

/-- A modifier that is new, and the only one about access if it is about access at all. -/
theorem not_clashing_snoc {before : List (Spanned Modifier)} {x : Spanned Modifier}
    (hclean : ¬ Clashing before) (hx : x.node ∉ before.map (·.node))
    (hfirst : x.node.isAccess = true → ∀ a ∈ before.map (·.node), a.isAccess = false) :
    ¬ Clashing (before ++ [x]) := by
  have hnodup : (before.map (·.node)).Nodup :=
    Decidable.byContradiction (fun hn => hclean (.inl hn))
  rintro (hn | ⟨a, ha, b, hb, hab, haa, hba⟩)
  · refine hn ?_
    rw [List.map_append]
    refine List.nodup_append.mpr ⟨hnodup, by simp, ?_⟩
    intro a ha b hb
    obtain rfl : b = x.node := by simpa using hb
    exact fun he => hx (he ▸ ha)
  · simp only [List.map_append, List.map_cons, List.map_nil, List.mem_append,
      List.mem_singleton] at ha hb
    rcases ha with ha | rfl <;> rcases hb with hb | rfl
    · exact hclean (.inr ⟨a, ha, b, hb, hab, haa, hba⟩)
    · simp [hfirst hba a ha] at haa
    · simp [hfirst haa b hb] at hba
    · exact hab rfl

theorem modifierFault?_verdict (before rest : List (Spanned Modifier))
    (hclean : ¬ Clashing before) :
    Verdict (Clashing (before ++ rest)) (ModifierFinding (before ++ rest))
      (modifierFault? (before.map (·.node)).reverse rest) := by
  -- What was met before is kept with the latest first; it is clean as long as the scan goes on.
  induction rest generalizing before with
  | nil =>
    rw [List.append_nil]
    exact .clean hclean
  | cons x rest ih =>
    have found {d : Diagnostic} (hbad : Clashing (before ++ [x]))
        (hd : Breaks Clashing (before ++ x :: rest) before x →
          ModifierFinding (before ++ x :: rest) d) :
        Verdict (Clashing (before ++ x :: rest)) (ModifierFinding (before ++ x :: rest))
          (some d) := by
      have hbreaks : Breaks Clashing (before ++ x :: rest) before x := ⟨hclean, hbad, rest, rfl⟩
      exact .found (hbreaks.bad (fun _ h => h.append)) (hd hbreaks)
    rw [modifierFault?]
    by_cases hx : x.node ∈ before.map (·.node)
    · rw [if_pos (by simpa using hx)]
      exact found (clashing_repeated hx) (fun hbreaks => .repeated hbreaks hx)
    · rw [if_neg (by simpa using hx)]
      split
      · next first hxa hfirst =>
        have hmem : first ∈ before.map (·.node) := by
          simpa using List.mem_of_find?_eq_some hfirst
        have ha : first.isAccess = true := List.find?_some hfirst
        exact found (clashing_conflict hx hmem ha hxa) (fun hbreaks => .conflict hbreaks hx hmem ha)
      · next hnone =>
        have hfirst : x.node.isAccess = true → ∀ a ∈ before.map (·.node), a.isAccess = false := by
          intro hxa a ha
          have hf : (before.map (·.node)).reverse.find? Modifier.isAccess = none := by
            cases hf : (before.map (·.node)).reverse.find? Modifier.isAccess with
            | none => rfl
            | some first => exact absurd hf (hnone first hxa)
          simpa using List.find?_eq_none.mp hf a (by simpa using ha)
        have hh := ih (before ++ [x]) (not_clashing_snoc hclean hx hfirst)
        simpa using hh

theorem parameterFault?_verdict (before rest : List (Spanned Param)) (hclean : ¬ Namesakes before) :
    Verdict (Namesakes (before ++ rest)) (ParameterFinding (before ++ rest))
      (parameterFault? (before.map (·.node.name.node)).reverse rest) := by
  induction rest generalizing before with
  | nil =>
    rw [List.append_nil]
    exact .clean hclean
  | cons x rest ih =>
    have hsnoc : Namesakes (before ++ [x]) ↔
        x.node.name.node ∈ before.map (·.node.name.node) := by
      have hnodup : (before.map (·.node.name.node)).Nodup := Decidable.not_not.mp hclean
      simp only [Namesakes, List.map_append, List.nodup_append, hnodup]
      simp
    rw [parameterFault?]
    by_cases hx : x.node.name.node ∈ before.map (·.node.name.node)
    · have hbreaks : Breaks Namesakes (before ++ x :: rest) before x :=
        ⟨hclean, hsnoc.mpr hx, rest, rfl⟩
      rw [if_pos (by simpa using hx)]
      exact .found (hbreaks.bad (fun _ h => h.append)) (.duplicate hbreaks)
    · rw [if_neg (by simpa using hx)]
      have hh := ih (before ++ [x]) (fun h => hx (hsnoc.mp h))
      simpa using hh

/-! ### Initializers -/

theorem fits_eq_false_iff {p : Primitive} {v : Int} :
    fits p v = false ↔ ∃ range, p.narrowRange? = some range ∧ ¬ (range.1 ≤ v ∧ v ≤ range.2) := by
  cases p <;> simp [fits, Primitive.narrowRange?]

theorem misfit?_eq_some_iff {t : TypeNode} {l : Literal} {p : Primitive} :
    misfit? t l = some p ↔ Overflows t l p := by
  constructor
  · intro h
    unfold misfit? at h
    split at h
    · next q v =>
      cases hf : fits q v with
      | true => simp [hf] at h
      | false =>
        obtain rfl : q = p := by simpa [hf] using h
        obtain ⟨range, hrange, hv⟩ := fits_eq_false_iff.mp hf
        exact ⟨rfl, range, v, hrange, rfl, hv⟩
    · cases h
  · rintro ⟨rfl, range, v, hrange, rfl, hv⟩
    have hf : fits p v = false := fits_eq_false_iff.mpr ⟨range, hrange, hv⟩
    simp [misfit?, hf]

theorem initializes_primitive_iff {p : Primitive} {l : Literal} :
    Initializes (.primitive p) l ↔ (∃ q, l.primitive? = some q ∧ q.Widens p) ∨
      (p.narrowRange?.isSome = true ∧ ∃ v, l = .int v) := by
  constructor
  · intro h
    cases h with
    | widened hl hw => exact .inl ⟨_, hl, hw⟩
    | narrowed v hr => exact .inr ⟨Option.isSome_of_eq_some hr, v, rfl⟩
    | null hr => cases hr
  · rintro (⟨q, hl, hw⟩ | ⟨hr, v, rfl⟩)
    · exact .widened hl hw
    · obtain ⟨range, hr⟩ := Option.isSome_iff_exists.mp hr
      exact .narrowed v hr

theorem assignablePrimitive_iff {p : Primitive} {l : Literal} :
    assignablePrimitive p l = true ↔ Initializes (.primitive p) l := by
  rw [initializes_primitive_iff]
  cases l with
  | string _ | null => cases p <;> simp [assignablePrimitive, Literal.primitive?]
  | int v =>
    -- Only an int may go to a narrow type as well.
    cases p <;> simp [assignablePrimitive, Literal.primitive?, Primitive.narrowRange?] <;> decide
  | _ => cases p <;> simp [assignablePrimitive, Literal.primitive?] <;> decide

/-- The rule's own table is this one. -/
theorem assignable_iff {t : TypeNode} {l : Literal} : assignable t l = true ↔ Initializes t l := by
  cases t with
  | primitive p => exact assignablePrimitive_iff
  | reference n =>
    constructor
    · intro h
      cases l <;> simp [assignable] at h
      · exact .string _ h
      · exact .null rfl
    · intro h
      cases h with
      | null _ => rfl
      | string s hn => simpa [assignable] using hn
  | parameterized raw args | array e s =>
    constructor
    · intro h
      obtain rfl : l = .null := by simpa [assignable] using h
      exact .null rfl
    · intro h
      cases h
      rfl

theorem initializerFault?_verdict (t : TypeNode) (l : Spanned Literal) :
    Verdict (Unfit t l.node) (InitializerFinding t l) (initializerFault? t l) := by
  unfold initializerFault?
  cases hm : misfit? t l.node with
  | some p =>
    have hp : Overflows t l.node p := misfit?_eq_some_iff.mp hm
    exact .found (.inr ⟨p, hp⟩) (.range hp)
  | none =>
    have hnone : ¬ ∃ p, Overflows t l.node p := by
      rintro ⟨p, hp⟩
      simp [misfit?_eq_some_iff.mpr hp] at hm
    by_cases ha : assignable t l.node = true
    · have hfit : ¬ Unfit t l.node := by
        rintro (hnot | hover)
        · exact hnot (assignable_iff.mp ha)
        · exact hnone hover
      simpa [ha] using Verdict.clean hfit
    · have hnot : ¬ Initializes t l.node := fun h => ha (assignable_iff.mpr h)
      simpa [ha] using Verdict.found (.inl hnot) (.mismatch hnone hnot)

/-! ### Memory -/

namespace Rule

def declares? : Rule → Member → Option (String × Span)
  | fields, .field f => some (f.name.node, f.name.span)
  | methods, .method m => some (m.signature, m.name.span)
  | _, _ => none

/-- What a rule remembers when it has seen some more members. -/
def memory (r : Rule) (seen : Seen) (members : List Member) : Seen :=
  members.foldl (fun seen m => (r.accept seen m).2) seen

theorem accept_snd (r : Rule) (seen : Seen) (m : Member) :
    (r.accept seen m).2 = (r.declares? m).elim seen
      (fun p => if (seen.lookup p.1).isSome then seen else p :: seen) := by
  -- Only a field for `fields` and a method for `methods` are looked up.
  cases r <;> cases m <;> try rfl
  case fields.field f =>
    simp only [accept, declares?, Option.elim_some]
    cases seen.lookup f.name.node <;> rfl
  case methods.method f =>
    simp only [accept, declares?, Option.elim_some]
    cases seen.lookup f.signature <;> rfl

/-- A rule remembers the first declaration of each name. -/
theorem lookup_memory (r : Rule) (seen : Seen) (members : List Member) (name : String) :
    (r.memory seen members).lookup name =
      (seen.lookup name).or ((members.filterMap r.declares?).lookup name) := by
  induction members generalizing seen with
  | nil => simp [memory]
  | cons m members ih =>
    have hstep : r.memory seen (m :: members) = r.memory (r.accept seen m).2 members := rfl
    rw [hstep, ih, accept_snd]
    cases hm : r.declares? m with
    | none => simp [hm]
    | some p =>
      obtain ⟨name', span⟩ := p
      by_cases hn : name = name'
      · subst hn
        cases hs : seen.lookup name <;> simp [hm, hs]
      · have hne : (name == name') = false := by simpa using hn
        cases hs : seen.lookup name' <;> simp [hm, hs, List.lookup_cons, hne]

theorem run_getElem? (r : Rule) (seen : Seen) (members : List (Spanned Member)) (i : Nat) :
    (r.run seen members)[i]? = members[i]?.map (fun m =>
      (r.accept (r.memory seen ((members.take i).map (·.node))) m.node).1) := by
  induction members generalizing seen i with
  | nil => simp [run]
  | cons m members ih =>
    cases i with
    | zero => simp [run, memory]
    | succ i =>
      simp only [run, List.getElem?_cons_succ, ih]
      rfl

end Rule

/-! ### Names declared before -/

theorem lookup_map {α β : Type} (name : α → String) (f : α → β) (l : List α) (k : String) :
    (l.map (fun a => (name a, f a))).lookup k = (l.find? (fun a => name a == k)).map f := by
  induction l with
  | nil => rfl
  | cons a l ih =>
    by_cases hk : name a = k
    · subst hk
      simp
    · have hk' : (k == name a) = false := by simpa using fun he => hk he.symm
      simp [List.lookup_cons, hk', hk, ih]

/-- What a rule makes of a name, if it remembers the names of some kind of members. -/
theorem declared_verdict {α : Type} {r : Rule} (view : Member → Option α) (name : α → String)
    (place : α → Span) (hview : ∀ m, r.declares? m = (view m).map (fun a => (name a, place a)))
    (earlier : List Member) (k : String) (d : Span → Diagnostic) (seen seen' : Seen) :
    Verdict (∃ a ∈ earlier.filterMap view, name a = k)
      (fun d' => ∃ first, (earlier.filterMap view).find? (name · == k) = some first ∧
        d' = d (place first))
      (match (r.memory [] earlier).lookup k with
        | some previous => (some (d previous), seen)
        | none => (none, seen')).1 := by
  have hlookup : (r.memory [] earlier).lookup k =
      ((earlier.filterMap view).find? (name · == k)).map place := by
    rw [Rule.lookup_memory, funext hview, ← List.map_filterMap, lookup_map]
    rfl
  rw [hlookup]
  cases hf : (earlier.filterMap view).find? (name · == k) with
  | none =>
    refine .clean ?_
    rintro ⟨a, ha, hname⟩
    simpa [hname] using List.find?_eq_none.mp hf a ha
  | some first =>
    have hname : name first = k := by simpa using List.find?_some hf
    exact .found ⟨first, List.mem_of_find?_eq_some hf, hname⟩ ⟨first, rfl, rfl⟩

/-! ### Members and units -/

theorem Rule.accept_verdict (r : Rule) (earlier : List Member) (m : Member) :
    Verdict (r.Broken earlier m) (fun d => r.Finding earlier m d)
      (r.accept (r.memory [] earlier) m).1 := by
  cases r with
  | modifiers =>
    refine (modifierFault?_verdict [] m.modifiers ?_).imp Iff.rfl (fun d h => h)
    simp [Clashing]
  | parameters =>
    cases m with
    | field f => exact .clean (by simp [Broken])
    | method f =>
      refine (parameterFault?_verdict [] f.params (by simp [Namesakes])).imp ?_ ?_
      · simp [Broken]
      · exact fun d h => ⟨f, rfl, h⟩
  | fields =>
    cases m with
    | method f => exact .clean (by simp [Broken])
    | field f =>
      have hview (m : Member) : fields.declares? m =
          m.field?.map (fun f => (f.name.node, f.name.span)) := by
        cases m <;> rfl
      refine (declared_verdict _ _ _ hview earlier f.name.node _ _ _).imp ?_ ?_
      · simp [Broken]
      · rintro d ⟨first, hfirst, rfl⟩
        exact ⟨f, first, rfl, hfirst, rfl⟩
  | methods =>
    cases m with
    | field f => exact .clean (by simp [Broken])
    | method f =>
      have hview (m : Member) : methods.declares? m =
          m.method?.map (fun f => (f.signature, f.name.span)) := by
        cases m <;> rfl
      refine (declared_verdict _ _ _ hview earlier f.signature _ _ _).imp ?_ ?_
      · simp [Broken]
      · rintro d ⟨first, hfirst, rfl⟩
        exact ⟨f, first, rfl, hfirst, rfl⟩
  | initializers =>
    cases m with
    | method f => exact .clean (by simp [Broken])
    | field f =>
      cases hinit : f.init with
      | none => simpa [accept, hinit] using Verdict.clean (by simp [Broken, hinit])
      | some l =>
        refine Verdict.imp (v := (accept initializers _ (.field f)).1)
          (p := Unfit f.type.node l.node) (P := InitializerFinding f.type.node l) ?_ ?_ ?_
        · simpa [accept, hinit] using initializerFault?_verdict f.type.node l
        · simp [Broken, hinit]
        · exact fun d h => ⟨f, l, rfl, hinit, h⟩

theorem Rules.faults_eq (rules : Rules) (members : List (Spanned Member)) :
    rules.faults members = (List.range members.length).flatMap (fun i =>
      rules.filterMap (fun rule => ((rule.1.run rule.2 members)[i]?).join)) := by
  induction members generalizing rules with
  | nil => rfl
  | cons m members ih =>
    rw [faults, ih, List.length_cons, List.range_succ_eq_map, List.flatMap_cons, List.flatMap_map]
    simp only [accept, List.filterMap_map, List.map_map]
    rfl

/-- What a rule says of the member with this number. -/
def CompilationUnit.verdict? (u : CompilationUnit) (i : Nat) (r : Rule) : Option Diagnostic :=
  ((r.run [] u.members)[i]?).join

/-- The members are reported on in their order, and each of them in the order of the rules. A rule
has one diagnostic for a member that breaks it, which is the one described, and else none. -/
theorem checkUnit_exact (u : CompilationUnit) :
    checkUnit .accumulate u = (List.range u.members.length).flatMap (fun i =>
      Rule.all.filterMap (u.verdict? i)) ∧
    ∀ i m, u.members[i]? = some m → ∀ r : Rule,
      Verdict (r.Broken ((u.members.take i).map (·.node)) m.node)
        (fun d => r.Finding ((u.members.take i).map (·.node)) m.node d) (u.verdict? i r) := by
  refine ⟨?_, fun i m hm r => ?_⟩
  · rw [checkUnit, Rules.faults_eq]
    simp only [Rules.fresh, List.filterMap_map]
    rfl
  · have hh := r.accept_verdict ((u.members.take i).map (·.node)) m.node
    rw [CompilationUnit.verdict?, Rule.run_getElem?, hm]
    exact hh

/-- Of three fields with one name, the last one is reported with the place of the first. -/
theorem checkUnit_exact_third_field :
    let field (o : Nat) : Spanned Member :=
      ⟨.field ⟨[], ⟨.primitive .int, ⟨o, o + 3⟩⟩, ⟨"x", ⟨o + 4, o + 5⟩⟩, none⟩, ⟨o, o + 6⟩⟩
    let u : CompilationUnit := ⟨none, [], [field 0, field 7, field 14]⟩
    u.members[2]? = some (field 14) ∧
      checkUnit .accumulate u =
        [.duplicateField "x" ⟨11, 12⟩ ⟨4, 5⟩, .duplicateField "x" ⟨18, 19⟩ ⟨4, 5⟩] ∧
      Verdict (Rule.fields.Broken [(field 0).node, (field 7).node] (field 14).node)
        (fun d => Rule.fields.Finding [(field 0).node, (field 7).node] (field 14).node d)
        (some (.duplicateField "x" ⟨18, 19⟩ ⟨4, 5⟩)) := by
  intro field u
  exact ⟨rfl, by decide, (checkUnit_exact u).2 2 (field 14) rfl .fields⟩

end DeclFront
