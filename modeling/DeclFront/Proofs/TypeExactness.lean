import DeclFront.Proofs.Reading

/-! Types are read exactly: what is taken is derived from the grammar, and the first token that is
left cannot go on with it. -/

namespace DeclFront

variable {eof c : Token} {ts rest : List Token}

def Spanned.unplacedNode (s : Spanned TypeNode) : TypeNode := s.node.unplaced

/-- A type without dimensions ends here. Only a plain name could go on. -/
def TypeNode.BaseEndsAt : TypeNode → List Token → Prop
  | reference _, rest => atPunct .leftAngle rest = false ∧ continuesName rest = false
  | _, _ => True

/-- A type ends here: there is no further dimension, and a plain name does not go on. -/
def TypeNode.EndsAt (t : TypeNode) (rest : List Token) : Prop :=
  atPunct .leftBracket rest = false ∧ t.BaseEndsAt rest

/-! ### Dimensions -/

theorem wrapped_succ (n : Nat) (t : TypeNode) :
    t.wrapped (n + 1) = .array (t.wrapped n) default := by
  induction n generalizing t with
  | zero => rfl
  | succ n ih => exact ih (.array t default)

theorem endsAt_wrapped {b : TypeNode} {n : Nat} :
    (b.wrapped n).EndsAt rest ↔
      atPunct .leftBracket rest = false ∧ (n = 0 → b.BaseEndsAt rest) := by
  cases n with
  | zero => simp [TypeNode.EndsAt, TypeNode.wrapped]
  | succ n => simp [TypeNode.EndsAt, wrapped_succ, TypeNode.BaseEndsAt]

theorem arraySuffix_sound {t u : Spanned TypeNode}
    (h : arraySuffix eof t ts = .ok (u, rest)) :
    atPunct .leftBracket rest = false ∧ ∃ used n, ts = used ++ rest ∧ DimsOf used n ∧
      u.unplacedNode = t.unplacedNode.wrapped n := by
  fun_induction arraySuffix eof t ts with
  | case1 t =>
    cases h
    exact ⟨rfl, [], 0, rfl, .none, rfl⟩
  | case2 | case5 => cases h
  | case3 t l hl | case6 t l r more hl =>
    cases h
    exact ⟨by simpa using hl, [], 0, rfl, .none, rfl⟩
  | case4 t l r more hl hr ih =>
    obtain ⟨hend, used, n, rfl, hd, hu⟩ := ih h
    exact ⟨hend, l :: r :: used, n + 1, rfl, .more (by simpa using hl) (by simpa using hr) hd, hu⟩

theorem arraySuffix_stop (eof : Token) (t : Spanned TypeNode)
    (h : atPunct .leftBracket rest = false) :
    arraySuffix eof t rest = .ok (t, rest) := by
  match rest, h with
  | [], _ => rfl
  | [l], h => simp_all [arraySuffix]
  | l :: r :: more, h => simp_all [arraySuffix]

theorem arraySuffix_complete (eof : Token) {ds : List Token} {n : Nat} (hd : DimsOf ds n)
    (hr : atPunct .leftBracket rest = false) (t : Spanned TypeNode) :
    ∃ u, arraySuffix eof t (ds ++ rest) = .ok (u, rest) ∧
      u.unplacedNode = t.unplacedNode.wrapped n := by
  induction hd generalizing t with
  | none => exact ⟨t, arraySuffix_stop eof t hr, rfl⟩
  | @more l r ds n hl hr' _ ih =>
    obtain ⟨u, hu, hn⟩ := ih ⟨.array t.node t.span, t.span.merge r.span⟩
    exact ⟨u, by simpa [arraySuffix, hl, hr'] using hu, hn⟩

/-- The mark that dimensions start with ends a type without dimensions. -/
theorem baseEndsAt_dims {ds : List Token} {n : Nat} (hd : DimsOf ds n) {b : TypeNode}
    (h : n = 0 → b.BaseEndsAt rest) : b.BaseEndsAt (ds ++ rest) := by
  cases hd with
  | none => exact h rfl
  | more hl _ _ =>
    cases b with
    | reference n => simp [TypeNode.BaseEndsAt, continuesName, Token.isPunct, hl]
    | _ => trivial

/-! ### Type arguments -/

/-- Types are read exactly from some tokens. -/
def TypesExactAt (eof : Token) (ts : List Token) : Prop :=
  ∀ t rest, (readType eof ts).Gives Spanned.unplacedNode t rest ↔
    ∃ used, ts = used ++ rest ∧ TypeOf used t ∧ t.EndsAt rest

theorem readReference_gives_iff {t : TypeNode} :
    (readReference eof ts).Gives Spanned.unplacedNode t rest ↔
      (readType eof ts).Gives Spanned.unplacedNode t rest ∧ t.isPrimitive = false := by
  rw [readReference, gives_bind]
  constructor
  · rintro ⟨r, hr, hg⟩
    split at hg
    · exact absurd hg gives_error
    · next hp =>
      obtain ⟨rfl, rfl⟩ := gives_ok.mp hg
      exact ⟨⟨r, hr, rfl, rfl⟩, by simpa [Spanned.unplacedNode] using hp⟩
  · rintro ⟨⟨r, hr, rfl, rfl⟩, hp⟩
    refine ⟨r, hr, ?_⟩
    have hp' : r.value.node.isPrimitive = false := by simpa [Spanned.unplacedNode] using hp
    simp [hp']

/-- Behind a type argument there is a comma or the closing bracket. -/
def EndsArg (c : Token) : Prop := c.kind = .punct .comma ∨ c.kind = .punct .rightAngle

theorem EndsArg.endsAt (hc : EndsArg c) (t : TypeNode) : t.EndsAt (c :: rest) := by
  rcases hc with hc | hc <;> cases t <;> cases rest <;>
    simp [TypeNode.EndsAt, TypeNode.BaseEndsAt, continuesName, Token.isPunct, hc]

theorem EndsArg.boundAt? (hc : EndsArg c) : boundAt? (c :: rest) = none := by
  rcases hc with hc | hc <;> simp [DeclFront.boundAt?, hc]

theorem boundAt?_eq_some {b : Bound} (h : boundAt? ts = some b) :
    ∃ w more, ts = w :: more ∧ w.kind = .keyword (.bound b) := by
  cases ts with
  | nil => simp [boundAt?] at h
  | cons w more =>
    refine ⟨w, more, rfl, ?_⟩
    unfold boundAt? at h
    split at h
    · next hk =>
      cases h
      simpa using hk
    · cases h

theorem readArg_type {a : TypeArg} :
    Reading.Gives TypeArg.unplaced (do
      let t ← readReference eof ts
      return t.map (fun t => .type t.node t.span)) a rest ↔
    ∃ t, a = .type t default ∧ (readReference eof ts).Gives Spanned.unplacedNode t rest := by
  rw [gives_bind_map]
  constructor
  · rintro ⟨r, hr, rfl, rfl⟩
    exact ⟨_, rfl, r, hr, rfl, rfl⟩
  · rintro ⟨t, rfl, r, hr, rfl, rfl⟩
    exact ⟨r, hr, rfl, rfl⟩

theorem readArg_sound {a : TypeArg} (ht : ∀ us, us.length ≤ ts.length → TypesExactAt eof us)
    (h : (readArg eof ts).Gives TypeArg.unplaced a rest) :
    ∃ used, ts = used ++ rest ∧ ArgOf used a := by
  cases ts with
  | nil =>
    obtain ⟨r, _, _, _⟩ := h
    exact absurd r.shorter (Nat.not_lt_zero _)
  | cons q after =>
    rw [readArg] at h
    split at h
    · next hq =>
      split at h
      · next b hb =>
        obtain ⟨w, more, rfl, hw⟩ := boundAt?_eq_some hb
        obtain ⟨r, hr, rfl, hrest⟩ := gives_bind_map.mp h
        obtain ⟨hg, hp⟩ := readReference_gives_iff.mp ⟨r, hr, rfl, hrest⟩
        obtain ⟨used, hu, htype, _⟩ := (ht _ (by simp; omega) _ _).mp hg
        simp only [List.drop_succ_cons, List.drop_zero] at hu
        exact ⟨q :: w :: used, by simp [hu], .bounded (isPunct_iff.mp hq) hw htype hp⟩
      · next hb =>
        obtain ⟨rfl, hrest⟩ := gives_ok.mp h
        exact ⟨[q], by simpa using hrest, .wildcard (isPunct_iff.mp hq)⟩
    · obtain ⟨t, rfl, hg⟩ := readArg_type.mp h
      obtain ⟨hg, hp⟩ := readReference_gives_iff.mp hg
      obtain ⟨used, hu, htype, _⟩ := (ht _ (Nat.le_refl _) _ _).mp hg
      exact ⟨used, hu, .type htype hp⟩

theorem readArg_gives_iff {a : TypeArg} (hc : EndsArg c)
    (ht : ∀ us, us.length ≤ ts.length → TypesExactAt eof us) :
    (readArg eof ts).Gives TypeArg.unplaced a (c :: rest) ↔
      ∃ used, ts = used ++ c :: rest ∧ ArgOf used a := by
  refine ⟨readArg_sound ht, ?_⟩
  rintro ⟨used, rfl, ha⟩
  cases ha with
  | type htype hp =>
    have hg := readReference_gives_iff.mpr ⟨(ht _ (Nat.le_refl _) _ _).mpr
      ⟨used, rfl, htype, hc.endsAt _⟩, hp⟩
    obtain ⟨w, more, rfl, hw⟩ := htype.head
    have hq : w.isPunct .question = false := by
      simp only [isPunct_eq_false_iff]
      intro hk
      simp [hk, TokenKind.startsType, TokenKind.primitive?] at hw
    simp only [List.cons_append, readArg, hq] at hg ⊢
    exact readArg_type.mpr ⟨_, rfl, hg⟩
  | wildcard hq => simp [readArg, hq, hc.boundAt?, TypeArg.unplaced]
  | @bounded q w b us t hq hw htype hp =>
    obtain ⟨r, hr, hv, hrest⟩ := readReference_gives_iff.mpr
      ⟨(ht (us ++ c :: rest) (by simp; omega) _ _).mpr ⟨us, rfl, htype, hc.endsAt _⟩, hp⟩
    have hb : boundAt? (w :: (us ++ c :: rest)) = some b := by simp [boundAt?, hw]
    simp only [List.cons_append, readArg, isPunct_iff.mpr hq, hb, if_true]
    exact gives_bind_map.mpr ⟨r, hr, hv ▸ rfl, hrest⟩

theorem readArgs_sound {args : List TypeArg}
    (ht : ∀ us, us.length ≤ ts.length → TypesExactAt eof us)
    (h : (readArgs eof ts).Gives TypeArg.unplacedList args rest) :
    ∃ used, ts = used ++ rest ∧ ArgsOf used args := by
  induction hn : ts.length using Nat.strongRecOn generalizing ts args with
  | _ n ih =>
    subst hn
    rw [readArgs, gives_bind] at h
    obtain ⟨arg, harg, hg⟩ := h
    obtain ⟨used, hts, ha⟩ := readArg_sound ht ⟨arg, harg, rfl, rfl⟩
    split at hg
    · next hcomma =>
      obtain ⟨m, more, hm, hk⟩ := atPunct_eq_true hcomma
      obtain ⟨tail, htail, rfl, hr⟩ := gives_bind_map.mp hg
      have hlt : (arg.rest.drop 1).length < ts.length := by
        have := arg.shorter
        simp only [List.length_drop]
        omega
      obtain ⟨used', htail', hargs⟩ :=
        ih _ hlt (fun us hu => ht us (by omega)) ⟨tail, htail, rfl, hr⟩ rfl
      simp only [hm, List.drop_succ_cons, List.drop_zero] at htail'
      exact ⟨used ++ m :: used', by simp [hts, hm, htail'], .more ha hk hargs⟩
    · obtain ⟨rfl, hr⟩ := gives_ok.mp hg
      exact ⟨used, hr ▸ hts, .one ha⟩

theorem readArgs_gives_iff {args : List TypeArg} (hc : c.kind = .punct .rightAngle)
    (ht : ∀ us, us.length ≤ ts.length → TypesExactAt eof us) :
    (readArgs eof ts).Gives TypeArg.unplacedList args (c :: rest) ↔
      ∃ used, ts = used ++ c :: rest ∧ ArgsOf used args := by
  refine ⟨readArgs_sound ht, ?_⟩
  induction hn : ts.length using Nat.strongRecOn generalizing ts args with
  | _ n ih =>
    subst hn
    rw [readArgs, gives_bind]
    rintro ⟨used, rfl, hargs⟩
    cases hargs with
    | one ha =>
      obtain ⟨arg, harg, rfl, hr⟩ := (readArg_gives_iff (.inr hc) ht).mpr ⟨used, rfl, ha⟩
      refine ⟨arg, harg, ?_⟩
      simp [hr, hc, TypeArg.unplacedList]
    | @more as bs m a tail ha hk hargs =>
      have hts : as ++ m :: bs ++ c :: rest = as ++ m :: (bs ++ c :: rest) := by simp
      obtain ⟨arg, harg, rfl, hr⟩ := (readArg_gives_iff (.inl hk) ht).mpr ⟨as, hts, ha⟩
      have hlt := arg.shorter
      obtain ⟨more, hmore, hv, hr'⟩ := ih (arg.rest.drop 1).length
        (by simp only [List.length_drop]; omega)
        (fun us hu => ht us (by simp only [List.length_drop] at hu; omega)) rfl
        ⟨bs, by simp [hr], hargs⟩
      refine ⟨arg, harg, ?_⟩
      rw [if_pos (by simp [hr, hk])]
      exact gives_bind_map.mpr ⟨more, hmore, hv ▸ rfl, hr'⟩

/-! ### Types -/

theorem readBase_sound {b : TypeNode} (ht : ∀ us, us.length < ts.length → TypesExactAt eof us)
    (h : (readBase eof ts).Gives Spanned.unplacedNode b rest) :
    ∃ used, ts = used ++ rest ∧ BaseOf used b ∧ b.BaseEndsAt rest := by
  rw [readBase] at h
  split at h
  · next p hp =>
    obtain ⟨w, hw, rfl, rfl⟩ := gives_bind_map.mp h
    obtain ⟨hts, hk⟩ := readKind_ok hw
    exact ⟨[w.value], hts, .primitive hk, trivial⟩
  · split at h
    · obtain ⟨name, hname, hg⟩ := gives_bind.mp h
      obtain ⟨ns, hts, hn, hstop⟩ := (readName_gives_iff eof).mp ⟨name, hname, rfl, rfl⟩
      split at hg
      · next hl =>
        obtain ⟨l, more, hm, hk⟩ := atPunct_eq_true hl
        obtain ⟨args, hargs, hg⟩ := gives_bind.mp hg
        obtain ⟨close, hclose, rfl, rfl⟩ := gives_bind_map.mp hg
        obtain ⟨r, hr, hrk, -⟩ := readPunct_ok hclose
        have hlt := name.shorter
        obtain ⟨as, has, ha⟩ := (readArgs_gives_iff hrk (fun us hu => ht us (by
          simp only [List.length_drop] at hu; omega))).mp ⟨args, hargs, rfl, hr⟩
        simp only [hm, List.drop_succ_cons, List.drop_zero] at has
        refine ⟨ns ++ l :: (as ++ [r]), ?_, .parameterized hn hk ha hrk, trivial⟩
        rw [hm, has] at hts
        simpa using hts
      · next hl =>
        obtain ⟨rfl, rfl⟩ := gives_ok.mp hg
        exact ⟨ns, hts, .reference hn, by simpa using hl, hstop⟩
    · exact absurd h gives_error

theorem readBase_complete {b : TypeNode} {used : List Token}
    (ht : ∀ us, us.length < (used ++ rest).length → TypesExactAt eof us) (hb : BaseOf used b)
    (hend : b.BaseEndsAt rest) :
    (readBase eof (used ++ rest)).Gives Spanned.unplacedNode b rest := by
  rw [readBase]
  cases hb with
  | primitive hw =>
    simp only [List.cons_append, List.nil_append, current_cons, hw, TokenKind.primitive?,
      Keyword.primitive?, readKind_cons hw]
    exact gives_ok.mpr ⟨rfl, rfl⟩
  | reference hn =>
    obtain ⟨name, hname, rfl, hr⟩ := (readName_gives_iff eof).mpr ⟨used, rfl, hn, hend.2⟩
    obtain ⟨i, more, rfl, hi⟩ := hn.head
    simp only [List.cons_append, current_cons, hi, TokenKind.primitive?, if_true]
    refine gives_bind.mpr ⟨name, hname, ?_⟩
    rw [if_neg (by simp [hr, hend.1])]
    exact gives_ok.mpr ⟨rfl, hr⟩
  | @parameterized ns as l r n args hn hl ha hr =>
    have hts : ns ++ l :: (as ++ [r]) ++ rest = ns ++ l :: (as ++ r :: rest) := by simp
    obtain ⟨name, hname, rfl, hrest⟩ := (readName_gives_iff eof).mpr
      ⟨ns, hts, hn, continuesName_kind (by simp [hl])⟩
    have hlt := name.shorter
    obtain ⟨args, hargs, rfl, hclose⟩ := (readArgs_gives_iff hr (fun us hu => ht us (by
      simp only [List.length_drop] at hu; omega))).mpr
      ⟨as, show name.rest.drop 1 = as ++ r :: rest by simp [hrest], ha⟩
    obtain ⟨close, hc, -, hcr⟩ := readPunct_of_eq eof hclose hr
    obtain ⟨i, more, rfl, hi⟩ := hn.head
    simp only [List.cons_append, current_cons, hi, TokenKind.primitive?, if_true]
    refine gives_bind.mpr ⟨name, hname, ?_⟩
    rw [if_pos (by simp [hrest, hl])]
    exact gives_bind.mpr ⟨args, hargs, gives_bind_map.mpr ⟨close, hc, rfl, hcr⟩⟩

theorem readType_of_base {t : TypeNode} {base : Parsed (Spanned TypeNode) ts}
    (hb : readBase eof ts = .ok base) :
    (readType eof ts).Gives Spanned.unplacedNode t rest ↔
      ∃ u, arraySuffix eof base.value base.rest = .ok (u, rest) ∧ u.unplacedNode = t := by
  rw [readType]
  simp only [hb]
  split
  · next stop hs => simp [hs]
  · next u more hs =>
    rw [gives_ok]
    constructor
    · rintro ⟨rfl, rfl⟩
      exact ⟨u, hs, rfl⟩
    · rintro ⟨v, hv, rfl⟩
      cases hs.symm.trans hv
      exact ⟨rfl, rfl⟩

theorem readType_gives_base {t : TypeNode}
    (h : (readType eof ts).Gives Spanned.unplacedNode t rest) :
    ∃ base, readBase eof ts = .ok base := by
  rw [readType] at h
  split at h
  · exact absurd h gives_error
  · next base hb => exact ⟨base, hb⟩

/-- A type that is read is the longest one: it is derived from the tokens that were taken, and the
first of those that are left does not go on with it. -/
theorem typesExactAt (eof : Token) (ts : List Token) : TypesExactAt eof ts := by
  induction hn : ts.length using Nat.strongRecOn generalizing ts with
  | _ n ih =>
    subst hn
    -- The types among the arguments are read from fewer tokens.
    have ht : ∀ us : List Token, us.length < ts.length → TypesExactAt eof us :=
      fun us hu => ih us.length hu us rfl
    intro t rest
    constructor
    · intro h
      obtain ⟨base, hb⟩ := readType_gives_base h
      obtain ⟨u, hu, rfl⟩ := (readType_of_base hb).mp h
      obtain ⟨bs, hts, hbase, hend⟩ := readBase_sound ht ⟨base, hb, rfl, rfl⟩
      obtain ⟨hstop, ds, n, hds, hd, hw⟩ := arraySuffix_sound hu
      refine ⟨bs ++ ds, by simp [hts, hds], hw ▸ .dims hbase hd, ?_⟩
      rw [hw, endsAt_wrapped]
      refine ⟨hstop, ?_⟩
      -- Without dimensions, what is left behind the base is left behind the type.
      rintro rfl
      cases hd
      simpa [hds] using hend
    · rintro ⟨used, rfl, htype, hend⟩
      cases htype with
      | @dims bs ds b n hb hd =>
        rw [endsAt_wrapped] at hend
        obtain ⟨base, hbase, rfl, hrest⟩ := readBase_complete
          (by simpa only [List.append_assoc] using ht) hb (baseEndsAt_dims hd hend.2)
        obtain ⟨u, hu, hw⟩ := arraySuffix_complete eof hd hend.1 base.value
        rw [List.append_assoc]
        exact (readType_of_base hbase).mpr ⟨u, (congrArg _ hrest).trans hu, hw⟩

theorem resolveType_gives_iff {t : TypeNode} :
    (resolveType eof ts).Gives Spanned.unplacedNode t rest ↔
      ∃ used, ts = used ++ rest ∧ TypeOf used t ∧ t.EndsAt rest := by
  rw [← typesExactAt eof ts t rest, resolveType]
  cases readType eof ts <;> simp

end DeclFront
