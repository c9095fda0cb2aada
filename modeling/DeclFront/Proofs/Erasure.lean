import DeclFront.Proofs.Signatures

/-! Laws of erased types. An erased type has no type arguments left, keeps its shape, and is spelled
like the type with its groups of angle brackets taken out. -/

namespace DeclFront

variable {t u e : TypeNode} {cs ds xs ys inner : List Char}

/-! ### Types in types -/

def TypeArg.type? : TypeArg → Option TypeNode
  | .type t _ => some t
  | .wildcard _ => none
  | .bounded _ t _ _ => some t

/-- A type stands in another one: it is the type itself, or it stands in the element of an array, or
in a type argument or the bound of a wildcard. -/
inductive TypeNode.Within (u : TypeNode) : TypeNode → Prop
  | self : Within u u
  | element {e : TypeNode} (s : Span) : Within u e → Within u (.array e s)
  | argument {t : TypeNode} {raw : Name} {args : List TypeArg} {a : TypeArg} : a ∈ args →
      a.type? = some t → Within u t → Within u (.parameterized raw args)

/-- No name in the type has an angle bracket in it. -/
def TypeNode.AngleFree (t : TypeNode) : Prop :=
  ∀ (u : TypeNode) (n : Name), u.Within t → u.IsOf n → '<' ∉ n.text.toList ∧ '>' ∉ n.text.toList

theorem TypeNode.not_within_erasure (raw : Name) (args : List TypeArg) (t : TypeNode) :
    ¬ (TypeNode.parameterized raw args).Within t.erasure := by
  intro h
  fun_induction TypeNode.erasure t with
  | case1 p => cases h
  | case2 n => cases h
  | case3 raw args => cases h
  | case4 e s ih =>
    cases h with
    | element _ h => exact ih h

theorem TypeNode.erasure_erasure (t : TypeNode) : t.erasure.erasure = t.erasure := by
  fun_induction TypeNode.erasure t <;> simp_all [TypeNode.erasure]

theorem TypeNode.element_erasure (t : TypeNode) : t.erasure.element = t.element.erasure := by
  fun_induction TypeNode.erasure t with
  | case1 p => rfl
  | case2 n => rfl
  | case3 raw args => rfl
  | case4 e s ih => exact ih

theorem TypeNode.text_eq_element (t : TypeNode) :
    t.text = t.element.text ++ String.join (List.replicate t.depth "[]") := by
  fun_induction TypeNode.element t with
  | case1 e s ih =>
    rw [TypeNode.text, TypeNode.depth, List.replicate_succ', String.join_append, ih]
    simp [String.append_assoc]
  | case2 t ht =>
    cases t with
    | array e s => exact absurd rfl (ht e s)
    | _ => simp [TypeNode.depth]

/-! ### Groups -/

/-- Angle brackets that open and close in pairs. -/
inductive Balanced : List Char → Prop
  | nil : Balanced []
  | plain {c : Char} {cs : List Char} : c ≠ '<' → c ≠ '>' → Balanced cs → Balanced (c :: cs)
  | group {inner cs : List Char} : Balanced inner → Balanced cs →
      Balanced ('<' :: (inner ++ '>' :: cs))

/-- A text, and what is left when its groups are taken out: each goes from an angle bracket to the
one that closes it, with all that stands between them. -/
inductive GroupsDropped : List Char → List Char → Prop
  | nil : GroupsDropped [] []
  | keep {c : Char} {cs ds : List Char} : c ≠ '<' → c ≠ '>' → GroupsDropped cs ds →
      GroupsDropped (c :: cs) (c :: ds)
  | group {inner cs ds : List Char} : Balanced inner → GroupsDropped cs ds →
      GroupsDropped ('<' :: (inner ++ '>' :: cs)) ds

theorem Balanced.append (hx : Balanced xs) (hy : Balanced ys) : Balanced (xs ++ ys) := by
  induction hx with
  | nil => exact hy
  | plain ho hc _ ih => exact .plain ho hc ih
  | group hinner _ _ ih => simpa using hinner.group ih

theorem balanced_of_notMem (ho : '<' ∉ cs) (hc : '>' ∉ cs) : Balanced cs := by
  induction cs with
  | nil => exact .nil
  | cons c cs ih =>
    rw [List.mem_cons, not_or] at ho hc
    exact .plain (Ne.symm ho.1) (Ne.symm hc.1) (ih ho.2 hc.2)

theorem GroupsDropped.append {xs' ys' : List Char} (hx : GroupsDropped xs xs')
    (hy : GroupsDropped ys ys') : GroupsDropped (xs ++ ys) (xs' ++ ys') := by
  induction hx with
  | nil => exact hy
  | keep ho hc _ ih => exact .keep ho hc ih
  | group hinner _ ih => simpa using GroupsDropped.group hinner ih

theorem groupsDropped_of_notMem (ho : '<' ∉ cs) (hc : '>' ∉ cs) : GroupsDropped cs cs := by
  induction cs with
  | nil => exact .nil
  | cons c cs ih =>
    rw [List.mem_cons, not_or] at ho hc
    exact .keep (Ne.symm ho.1) (Ne.symm hc.1) (ih ho.2 hc.2)

/-- The characters that stand outside all groups, with so many groups open. -/
def outside : Nat → List Char → List Char
  | _, [] => []
  | depth, c :: cs =>
    if c = '<' then outside (depth + 1) cs
    else if c = '>' then outside (depth - 1) cs
    else if depth = 0 then c :: outside depth cs
    else outside depth cs

theorem Balanced.outside_append (h : Balanced inner) (depth : Nat) (cs : List Char) :
    outside (depth + 1) (inner ++ cs) = outside (depth + 1) cs := by
  induction h generalizing depth cs with
  | nil => rfl
  | plain ho hc _ ih => simp [outside, ho, hc, ih]
  | group _ _ ihinner ih => simp [outside, ihinner, ih]

theorem GroupsDropped.outside_eq (h : GroupsDropped cs ds) : outside 0 cs = ds := by
  induction h with
  | nil => rfl
  | keep ho hc _ ih => simp [outside, ho, hc, ih]
  | group hinner _ ih => simp [outside, hinner.outside_append, ih]

/-- There is one way to take the groups out. -/
theorem GroupsDropped.eq {ds' : List Char} (h : GroupsDropped cs ds) (h' : GroupsDropped cs ds') :
    ds = ds' := h.outside_eq.symm.trans h'.outside_eq

/-! ### Spelling -/

theorem Primitive.angleFree_spelling (p : Primitive) :
    '<' ∉ p.spelling.toList ∧ '>' ∉ p.spelling.toList :=
  ⟨fun h => absurd (p.spelling_isPlain h) (by decide),
    fun h => absurd (p.spelling_isPlain h) (by decide)⟩

theorem TypeNode.AngleFree.element {s : Span} (h : (TypeNode.array e s).AngleFree) : e.AngleFree :=
  fun u n hu hn => h u n (.element s hu) hn

theorem TypeNode.AngleFree.argument {raw : Name} {args : List TypeArg} {a : TypeArg}
    (h : (TypeNode.parameterized raw args).AngleFree) (ha : a ∈ args) (ht : a.type? = some t) :
    t.AngleFree :=
  fun u n hu hn => h u n (.argument ha ht hu) hn

theorem TypeArg.isWellFormed_of_mem {args : List TypeArg} {a : TypeArg}
    (h : TypeArg.areWellFormed args = true) (ha : a ∈ args) : a.isWellFormed = true := by
  induction args with
  | nil => cases ha
  | cons b args ih =>
    rw [TypeArg.areWellFormed, Bool.and_eq_true] at h
    rcases List.mem_cons.mp ha with rfl | ha
    · exact h.1
    · exact ih h.2 ha

theorem TypeNode.Within.isWellFormed (hu : u.Within t) (h : t.isWellFormed = true) :
    u.isWellFormed = true := by
  induction hu with
  | self => exact h
  | element s _ ih => exact ih (by simpa [TypeNode.isWellFormed] using h)
  | @argument t raw args a ha ht _ ih =>
    simp only [TypeNode.isWellFormed, Bool.and_eq_true] at h
    have harg := TypeArg.isWellFormed_of_mem h.2 ha
    apply ih
    cases a <;> simp_all [TypeArg.type?, TypeArg.isWellFormed]

/-- Names of identifiers have no angle brackets in them, so this holds of every type that is read. -/
theorem TypeNode.angleFree_of_isWellFormed (h : t.isWellFormed = true) : t.AngleFree := by
  intro u n hu hn
  have hname : n.isWellFormed = true := by
    have hwell := hu.isWellFormed h
    rcases hn with rfl | ⟨args, rfl⟩
    · exact hwell
    · simp only [TypeNode.isWellFormed, Bool.and_eq_true] at hwell
      exact hwell.1.1
  exact ⟨fun hc => absurd (Name.text_isPlain hname hc) (by decide),
    fun hc => absurd (Name.text_isPlain hname hc) (by decide)⟩

mutual

theorem TypeNode.balanced_text : (t : TypeNode) → t.AngleFree → Balanced t.text.toList
  | .primitive p, _ => balanced_of_notMem p.angleFree_spelling.1 p.angleFree_spelling.2
  | .reference n, h =>
    have hname := h _ n .self (.inl rfl)
    balanced_of_notMem hname.1 hname.2
  | .parameterized raw args, h => by
    have hname := h _ raw .self (.inr ⟨args, rfl⟩)
    have hargs := TypeArg.balanced_listText args (fun a ha t ht => h.argument ha ht)
    simpa [TypeNode.text] using
      (balanced_of_notMem hname.1 hname.2).append (hargs.group .nil)
  | .array e _, h => by
    have hbrackets : Balanced ['[', ']'] := balanced_of_notMem (by decide) (by decide)
    simpa [TypeNode.text] using (e.balanced_text h.element).append hbrackets

theorem TypeArg.balanced_text : (a : TypeArg) → (∀ t, a.type? = some t → t.AngleFree) →
    Balanced a.text.toList
  | .type t _, h => t.balanced_text (h t rfl)
  | .wildcard _, _ => by
    have hmark : Balanced ['?'] := balanced_of_notMem (by decide) (by decide)
    simpa [TypeArg.text] using hmark
  | .bounded b t _ _, h => by
    have hbound : Balanced ("? " ++ b.spelling ++ " ").toList := by
      cases b <;> exact balanced_of_notMem (by decide) (by decide)
    simpa [TypeArg.text] using hbound.append (t.balanced_text (h t rfl))

theorem TypeArg.balanced_listText : (args : List TypeArg) →
    (∀ a ∈ args, ∀ t, a.type? = some t → t.AngleFree) → Balanced (TypeArg.listText args).toList
  | [], _ => .nil
  | [a], h => a.balanced_text (h a List.mem_cons_self)
  | a :: b :: rest, h => by
    have hcomma : Balanced [',', ' '] := balanced_of_notMem (by decide) (by decide)
    have hrest := TypeArg.balanced_listText (b :: rest) (fun a ha => h a (List.mem_cons_of_mem _ ha))
    simpa [TypeArg.listText] using
      (a.balanced_text (h a List.mem_cons_self)).append (hcomma.append hrest)

end

theorem TypeNode.groupsDropped_text (h : t.AngleFree) :
    GroupsDropped t.text.toList t.erasure.text.toList := by
  fun_induction TypeNode.erasure t with
  | case1 p => exact groupsDropped_of_notMem p.angleFree_spelling.1 p.angleFree_spelling.2
  | case2 n =>
    have hname := h _ n .self (.inl rfl)
    exact groupsDropped_of_notMem hname.1 hname.2
  | case3 raw args =>
    have hname := h _ raw .self (.inr ⟨args, rfl⟩)
    have hargs := TypeArg.balanced_listText args (fun a ha t ht => h.argument ha ht)
    simpa [TypeNode.text] using
      (groupsDropped_of_notMem hname.1 hname.2).append (GroupsDropped.group hargs .nil)
  | case4 e s ih =>
    have hbrackets : GroupsDropped ['[', ']'] ['[', ']'] :=
      groupsDropped_of_notMem (by decide) (by decide)
    simpa [TypeNode.text] using (ih h.element).append hbrackets

/-- An erased type has no type arguments at any depth, and to erase it again changes nothing. Erasure
keeps what is primitive and the number of dimensions, and goes with taking the element. A type is
spelled like its element with a pair of brackets for each dimension; and unless a name has angle
brackets in it, the erased type is spelled as the type without its groups, and in no other way. -/
theorem erasure_laws (t : TypeNode) :
    (∀ raw args, ¬ (TypeNode.parameterized raw args).Within t.erasure) ∧
    t.erasure.erasure = t.erasure ∧
    t.erasure.isPrimitive = t.isPrimitive ∧ t.erasure.depth = t.depth ∧
    t.erasure.element = t.element.erasure ∧
    t.text = t.element.text ++ String.join (List.replicate t.depth "[]") ∧
    (t.AngleFree → ∀ cs, GroupsDropped t.text.toList cs ↔ cs = t.erasure.text.toList) := by
  refine ⟨fun raw args => t.not_within_erasure raw args, t.erasure_erasure, t.isPrimitive_erasure,
    t.depth_erasure, t.element_erasure, t.text_eq_element, fun h cs => ⟨fun hcs => ?_, ?_⟩⟩
  · exact hcs.eq (TypeNode.groupsDropped_text h)
  · rintro rfl
    exact TypeNode.groupsDropped_text h

/-- One group inside another, below two dimensions. -/
theorem erasure_laws_nested :
    let number := TypeNode.reference ⟨["Number"]⟩
    let list := TypeNode.parameterized ⟨["List"]⟩ [.bounded .upper number ⟨18, 24⟩ ⟨8, 24⟩]
    let map := TypeNode.parameterized ⟨["Map"]⟩ [.wildcard ⟨4, 5⟩, .type list ⟨7, 25⟩]
    let t := TypeNode.array (.array map ⟨0, 26⟩) ⟨0, 28⟩
    t.AngleFree ∧ t.text = "Map<?, List<? extends Number>>[][]" ∧
      GroupsDropped t.text.toList "Map[][]".toList := by
  intro number list map t
  have hfree : t.AngleFree := TypeNode.angleFree_of_isWellFormed (by decide +kernel)
  have hlaws := erasure_laws t
  exact ⟨hfree, by decide +kernel, (hlaws.2.2.2.2.2.2 hfree _).mpr (by decide +kernel)⟩

end DeclFront
