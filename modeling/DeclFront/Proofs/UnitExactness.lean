import DeclFront.Proofs.Attempts
import DeclFront.Proofs.TypeExactness

/-! Units are read exactly: a run that stops at the first fault gets to the end if and only if the
tokens before the end mark are derived from the grammar, and it gives the tree they are derived
with. -/

namespace DeclFront

variable {eof i w : Token} {ts rest : List Token}

theorem endsAt_ident (hi : i.kind = .ident) (t : TypeNode) : t.EndsAt (i :: rest) := by
  refine ⟨by simp [hi], ?_⟩
  cases t with
  | reference n => exact ⟨by simp [hi], continuesName_kind (by simp [hi])⟩
  | _ => trivial

/-! ### Package clauses and imports -/

theorem readPackage_gives_iff {p : Spanned Name} (hw : w.kind = .keyword (.clause .package)) :
    (readPackage eof (w :: ts)).Gives (Spanned.unplaced id) p rest ↔
      ∃ used, w :: ts = used ++ rest ∧ PackageOf used p := by
  rw [readPackage, gives_bind]
  constructor
  · rintro ⟨name, hname, hg⟩
    obtain ⟨close, hclose, rfl, rfl⟩ := gives_bind_map.mp hg
    obtain ⟨ns, hts, hn, -⟩ := (readName_gives_iff eof).mp ⟨name, hname, rfl, rfl⟩
    obtain ⟨s, hs, hk, -⟩ := readPunct_ok hclose
    refine ⟨w :: (ns ++ [s]), ?_, .mk hw hn hk⟩
    rw [hs] at hts
    simpa using hts
  · rintro ⟨used, hts, hp⟩
    cases hp with
    | @mk _ s ns n _ hn hs =>
      have hafter : ts = ns ++ s :: rest := by
        simp only [List.cons_append, List.append_assoc, List.cons.injEq] at hts
        exact hts.2
      obtain ⟨name, hname, rfl, hr⟩ := (readName_gives_iff eof).mpr
        ⟨ns, hafter, hn, continuesName_kind (by simp [hs])⟩
      obtain ⟨close, hclose, -, hc⟩ := readPunct_of_eq eof hr hs
      exact ⟨name, hname, gives_bind_map.mpr ⟨close, hclose, rfl, hc⟩⟩

theorem PackageOf.head {ps : List Token} {p : Spanned Name} (h : PackageOf ps p) :
    ∃ w more, ps = w :: more ∧ w.kind = .keyword (.clause .package) := by
  cases h with
  | mk hw _ _ => exact ⟨_, _, rfl, hw⟩

theorem readImportEnd_gives_iff {wildcard : Bool} :
    (readImportEnd eof ts).Gives Prod.fst wildcard rest ↔
      (wildcard = false ∧ ∃ s, ts = s :: rest ∧ s.kind = .punct .semicolon) ∨
        (wildcard = true ∧ ∃ d a s, ts = d :: a :: s :: rest ∧ d.kind = .punct .dot ∧
          a.kind = .punct .star ∧ s.kind = .punct .semicolon) := by
  unfold readImportEnd
  constructor
  · intro h
    split at h
    · next hd =>
      obtain ⟨d, more, rfl, hdk⟩ := atPunct_eq_true hd
      obtain ⟨star, hstar, hg⟩ := gives_bind.mp h
      obtain ⟨close, hclose, rfl, rfl⟩ := gives_bind_map.mp hg
      obtain ⟨a, ha, hak, -⟩ := readPunct_ok hstar
      obtain ⟨s, hs, hsk, -⟩ := readPunct_ok hclose
      exact .inr ⟨rfl, d, a, s, by simpa [hs] using ha, hdk, hak, hsk⟩
    · obtain ⟨close, hclose, rfl, rfl⟩ := gives_bind_map.mp h
      obtain ⟨s, hs, hsk, -⟩ := readPunct_ok hclose
      exact .inl ⟨rfl, s, hs, hsk⟩
  · rintro (⟨rfl, s, hts, hs⟩ | ⟨rfl, d, a, s, rfl, hd, ha, hs⟩)
    · obtain ⟨close, hclose, -, hc⟩ := readPunct_of_eq eof hts hs
      rw [if_neg (by simp [hts, hs])]
      exact gives_bind_map.mpr ⟨close, hclose, rfl, hc⟩
    · obtain ⟨star, hstar, -, hr⟩ := readPunct_of_eq eof
        (show (d :: a :: s :: rest).drop 1 = a :: s :: rest from rfl) ha
      obtain ⟨close, hclose, -, hc⟩ := readPunct_of_eq eof hr hs
      rw [if_pos (by simp [hd])]
      exact gives_bind.mpr ⟨star, hstar, gives_bind_map.mpr ⟨close, hclose, rfl, hc⟩⟩

theorem readImport_gives_iff {imp : Spanned Import} (hw : w.kind = .keyword (.clause .imports)) :
    (readImport eof (w :: ts)).Gives (Spanned.unplaced id) imp rest ↔
      ∃ used, w :: ts = used ++ rest ∧ ImportOf used imp := by
  rw [readImport, gives_bind]
  constructor
  · rintro ⟨path, hpath, hg⟩
    obtain ⟨tail, htail, rfl, rfl⟩ := gives_bind_map.mp hg
    obtain ⟨ns, hts, hn, -⟩ := (readName_gives_iff eof).mp ⟨path, hpath, rfl, rfl⟩
    rcases readImportEnd_gives_iff.mp ⟨tail, htail, rfl, rfl⟩ with
      ⟨hwild, s, hs, hk⟩ | ⟨hwild, d, a, s, hs, hd, ha, hk⟩
    · refine ⟨w :: (ns ++ [s]), by simp [hts, hs], ?_⟩
      change ImportOf _ (bare ⟨path.value.node, tail.value.1⟩)
      rw [hwild]
      exact .single hw hn hk
    · refine ⟨w :: (ns ++ [d, a, s]), by simp [hts, hs], ?_⟩
      change ImportOf _ (bare ⟨path.value.node, tail.value.1⟩)
      rw [hwild]
      exact .wildcard hw hn hd ha hk
  · rintro ⟨used, hts, hi⟩
    cases hi with
    | @single _ s ns n _ hn hs =>
      have hafter : ts = ns ++ s :: rest := by
        simp only [List.cons_append, List.append_assoc, List.cons.injEq] at hts
        exact hts.2
      obtain ⟨path, hpath, rfl, hr⟩ := (readName_gives_iff eof).mpr
        ⟨ns, hafter, hn, continuesName_kind (by simp [hs])⟩
      obtain ⟨tail, htail, hv, hrest⟩ :=
        readImportEnd_gives_iff.mpr (.inl ⟨rfl, s, hr, hs⟩)
      exact ⟨path, hpath, gives_bind_map.mpr ⟨tail, htail, hv ▸ rfl, hrest⟩⟩
    | @wildcard _ d a s ns n _ hn hd ha hs =>
      have hafter : ts = ns ++ d :: a :: s :: rest := by
        simp only [List.cons_append, List.append_assoc, List.cons.injEq] at hts
        exact hts.2
      obtain ⟨path, hpath, rfl, hr⟩ := (readName_gives_iff eof).mpr
        ⟨ns, hafter, hn, by simp [continuesName, ha]⟩
      obtain ⟨tail, htail, hv, hrest⟩ :=
        readImportEnd_gives_iff.mpr (.inr ⟨rfl, d, a, s, hr, hd, ha, hs⟩)
      exact ⟨path, hpath, gives_bind_map.mpr ⟨tail, htail, hv ▸ rfl, hrest⟩⟩

/-! ### Fields and methods -/

theorem modifier?_eq_some {k : TokenKind} {m : Modifier} :
    k.modifier? = some m ↔ k = .keyword (.modifier m) := by
  cases k with
  | keyword k => cases k <;> simp [TokenKind.modifier?, Keyword.modifier?]
  | _ => simp [TokenKind.modifier?]

theorem takeModifiers_sound (ts : List Token) :
    ∃ used, ts = used ++ (takeModifiers ts).2 ∧
      Repeated ModifierOf used ((takeModifiers ts).1.map (Spanned.unplaced id)) := by
  fun_induction takeModifiers ts with
  | case1 => exact ⟨[], rfl, .nil⟩
  | case2 t rest m hm ih =>
    obtain ⟨used, hts, hr⟩ := ih
    exact ⟨t :: used, congrArg (t :: ·) hts, .cons (.mk (modifier?_eq_some.mp hm)) hr⟩
  | case3 => exact ⟨[], rfl, .nil⟩

theorem takeModifiers_complete {ms : List Token} {mods : List (Spanned Modifier)}
    (hm : Repeated ModifierOf ms mods) (hr : rest.head?.bind (·.kind.modifier?) = none) :
    (takeModifiers (ms ++ rest)).2 = rest ∧
      (takeModifiers (ms ++ rest)).1.map (Spanned.unplaced id) = mods := by
  induction hm with
  | nil =>
    cases rest with
    | nil => simp [takeModifiers]
    | cons t more =>
      have hk : t.kind.modifier? = none := by simpa using hr
      simp [takeModifiers, hk]
  | cons ha _ ih =>
    cases ha with
    | mk hw =>
      simp [takeModifiers, modifier?_eq_some.mpr hw, ih, Spanned.unplaced]

/-- In front of an identifier every type ends, so it is read whole. -/
theorem resolveType_before_ident (eof : Token) {used : List Token} {t : TypeNode}
    (ht : TypeOf used t) (hi : i.kind = .ident) (rest : List Token) :
    (resolveType eof (used ++ i :: rest)).Gives Spanned.unplacedNode t (i :: rest) :=
  resolveType_gives_iff.mpr ⟨used, rfl, ht, endsAt_ident hi t⟩

theorem startsType_ne_keyword (k : Keyword) (hk : w.kind.startsType = true)
    (hp : k.primitive? = none) : w.kind ≠ .keyword k := by
  intro h
  simp [h, TokenKind.startsType, TokenKind.primitive?, hp] at hk

theorem readReturn_sound {ret : ReturnType}
    (h : (readReturn eof ts).Gives (fun s => s.node.unplaced) ret rest) :
    ∃ used, ts = used ++ rest ∧ ReturnOf used ret := by
  unfold readReturn at h
  split at h
  · obtain ⟨t, ht, rfl, rfl⟩ := gives_bind_map.mp h
    obtain ⟨hts, hk⟩ := readKind_ok ht
    exact ⟨[t.value], hts, .void hk⟩
  · split at h
    · obtain ⟨t, ht, rfl, rfl⟩ := gives_bind_map.mp h
      obtain ⟨used, hts, htype, -⟩ := resolveType_gives_iff.mp ⟨t, ht, rfl, rfl⟩
      exact ⟨used, hts, .type htype⟩
    · exact absurd h gives_error

theorem readReturn_gives_iff (eof : Token) {ret : ReturnType} (hi : i.kind = .ident) :
    (readReturn eof ts).Gives (fun s => s.node.unplaced) ret (i :: rest) ↔
      ∃ used, ts = used ++ i :: rest ∧ ReturnOf used ret := by
  refine ⟨readReturn_sound, ?_⟩
  unfold readReturn
  rintro ⟨used, rfl, hr⟩
  cases hr with
  | void hw =>
    simp only [List.cons_append, List.nil_append, current_cons, hw, if_true, readKind_cons hw]
    exact gives_ok.mpr ⟨rfl, rfl⟩
  | type ht =>
    obtain ⟨t, htype, rfl, hr⟩ := resolveType_before_ident eof ht hi rest
    obtain ⟨w, more, rfl, hw⟩ := ht.head
    simp only [List.cons_append, current_cons, startsType_ne_keyword .void hw rfl, if_false, hw,
      if_true]
    exact gives_bind_map.mpr ⟨t, htype, rfl, hr⟩

def typedName (p : Spanned TypeNode × Spanned String) : TypeNode × String :=
  (p.1.unplacedNode, p.2.node)

theorem readTypedName_gives_iff (eof : Token) {p : TypeNode × String} :
    (readTypedName eof ts).Gives typedName p rest ↔
      ∃ used t i, ts = used ++ i :: rest ∧ TypeOf used t ∧ i.kind = .ident ∧ p = (t, i.text) := by
  unfold readTypedName
  constructor
  · intro h
    split at h
    · exact absurd h gives_error
    · obtain ⟨type, htype, hg⟩ := gives_bind.mp h
      obtain ⟨ident, hident, rfl, rfl⟩ := gives_bind_map.mp hg
      obtain ⟨i, hr, hi, hv⟩ := readIdent_ok hident
      obtain ⟨used, hts, ht, -⟩ := resolveType_gives_iff.mp ⟨type, htype, rfl, hr⟩
      exact ⟨used, _, i, hts, ht, hi, by simp [typedName, hv]⟩
  · rintro ⟨used, t, i, rfl, ht, hi, rfl⟩
    obtain ⟨type, htype, rfl, hr⟩ := resolveType_before_ident eof ht hi rest
    obtain ⟨ident, hident, hv, hrest⟩ := readIdent_of_eq eof hr hi
    obtain ⟨w, more, rfl, hw⟩ := ht.head
    simp only [List.cons_append, current_cons, startsType_ne_keyword .void hw rfl, if_false]
    exact gives_bind.mpr ⟨type, htype, gives_bind_map.mpr
      ⟨ident, hident, by simp [typedName, hv], hrest⟩⟩

def paramTree (isFinal : Bool) (p : TypeNode × String) : Spanned Param :=
  bare ⟨isFinal, bare p.1, bare p.2⟩

theorem readParam_gives_iff (eof : Token) {p : Spanned Param} :
    (readParam eof ts).Gives (Spanned.unplaced Param.unplaced) p rest ↔
      ∃ used, ts = used ++ rest ∧ ParamOf used p := by
  unfold readParam
  constructor
  · intro h
    split at h
    · next hf =>
      obtain ⟨tn, htn, rfl, rfl⟩ := gives_bind_map.mp h
      obtain ⟨used, t, i, hdrop, ht, hi, hv⟩ :=
        (readTypedName_gives_iff eof).mp ⟨tn, htn, rfl, rfl⟩
      cases ts with
      | nil => simp at hdrop
      | cons w more =>
        refine ⟨w :: (used ++ [i]), by simpa using hdrop, ?_⟩
        change ParamOf _ (paramTree true (typedName tn.value))
        exact hv ▸ .final hf ht hi
    · obtain ⟨tn, htn, rfl, rfl⟩ := gives_bind_map.mp h
      obtain ⟨used, t, i, hts, ht, hi, hv⟩ := (readTypedName_gives_iff eof).mp ⟨tn, htn, rfl, rfl⟩
      refine ⟨used ++ [i], by simpa using hts, ?_⟩
      change ParamOf _ (paramTree false (typedName tn.value))
      exact hv ▸ .plain ht hi
  · rintro ⟨used, rfl, hp⟩
    cases hp with
    | @plain ts t i ht hi =>
      have hts : ts ++ [i] ++ rest = ts ++ i :: rest := by simp
      obtain ⟨tn, htn, hv, hr⟩ := (readTypedName_gives_iff eof).mpr ⟨ts, t, i, hts, ht, hi, rfl⟩
      obtain ⟨w, more, rfl, hw⟩ := ht.head
      rw [if_neg (by simp [startsType_ne_keyword (.modifier .final) hw rfl])]
      exact gives_bind_map.mpr ⟨tn, htn, congrArg (paramTree false) hv, hr⟩
    | @final f ts t i hf ht hi =>
      have hts : (f :: (ts ++ [i]) ++ rest).drop 1 = ts ++ i :: rest := by simp
      obtain ⟨tn, htn, hv, hr⟩ := (readTypedName_gives_iff eof).mpr ⟨ts, t, i, hts, ht, hi, rfl⟩
      rw [if_pos (by simp [hf])]
      exact gives_bind_map.mpr ⟨tn, htn, congrArg (paramTree true) hv, hr⟩

theorem readParams_gives_iff (eof : Token) {params : List (Spanned Param)} :
    (readParams eof ts).Gives (List.map (Spanned.unplaced Param.unplaced)) params rest ↔
      ∃ used, ts = used ++ rest ∧ ParamsOf used params ∧ atPunct .comma rest = false := by
  induction hn : ts.length using Nat.strongRecOn generalizing ts params with
  | _ n ih =>
    subst hn
    rw [readParams, gives_bind]
    constructor
    · rintro ⟨param, hparam, hg⟩
      obtain ⟨used, hts, hp⟩ := (readParam_gives_iff eof).mp ⟨param, hparam, rfl, rfl⟩
      have hlt := param.shorter
      split at hg
      · next hcomma =>
        obtain ⟨m, more, hm, hk⟩ := atPunct_eq_true hcomma
        obtain ⟨tail, htail, rfl, hr⟩ := gives_bind_map.mp hg
        obtain ⟨used', hdrop, hparams, hend⟩ := (ih (param.rest.drop 1).length
          (by simp only [List.length_drop]; omega) rfl).mp ⟨tail, htail, rfl, hr⟩
        simp only [hm, List.drop_succ_cons, List.drop_zero] at hdrop
        exact ⟨used ++ m :: used', by simp [hts, hm, hdrop], .more hp hk hparams, hend⟩
      · next hcomma =>
        obtain ⟨rfl, rfl⟩ := gives_ok.mp hg
        exact ⟨used, hts, .one hp, by simpa using hcomma⟩
    · rintro ⟨used, rfl, hparams, hend⟩
      cases hparams with
      | one hp =>
        have hts : used ++ rest = used ++ rest := rfl
        obtain ⟨param, hparam, rfl, hr⟩ := (readParam_gives_iff eof).mpr ⟨used, hts, hp⟩
        refine ⟨param, hparam, ?_⟩
        rw [if_neg (by simp [hr, hend])]
        exact gives_ok.mpr ⟨rfl, hr⟩
      | @more ps qs m p tail hp hk hparams =>
        have hts : ps ++ m :: qs ++ rest = ps ++ m :: (qs ++ rest) := by simp
        obtain ⟨param, hparam, rfl, hr⟩ := (readParam_gives_iff eof).mpr ⟨ps, hts, hp⟩
        have hlt := param.shorter
        obtain ⟨more, hmore, rfl, hr'⟩ := (ih (param.rest.drop 1).length
          (by simp only [List.length_drop]; omega) rfl).mpr
          ⟨qs, show param.rest.drop 1 = qs ++ rest by simp [hr], hparams, hend⟩
        refine ⟨param, hparam, ?_⟩
        rw [if_pos (by simp [hr, hk])]
        exact gives_bind_map.mpr ⟨more, hmore, rfl, hr'⟩

theorem ParamsOf.head {ps : List Token} {params : List (Spanned Param)} (h : ParamsOf ps params) :
    ∃ w more, ps = w :: more ∧ ∀ p, w.kind ≠ .punct p := by
  have hparam {ps : List Token} {p : Spanned Param} (h : ParamOf ps p) :
      ∃ w more, ps = w :: more ∧ ∀ p, w.kind ≠ .punct p := by
    cases h with
    | plain ht _ =>
      obtain ⟨w, more, rfl, hw⟩ := ht.head
      refine ⟨w, _, rfl, fun p hk => ?_⟩
      simp [hk, TokenKind.startsType, TokenKind.primitive?] at hw
    | final hw _ _ => exact ⟨_, _, rfl, by simp [hw]⟩
  cases h with
  | one hp => exact hparam hp
  | more hp _ _ =>
    obtain ⟨w, more, rfl, hw⟩ := hparam hp
    exact ⟨w, _, rfl, hw⟩

theorem readParamsEnd_gives_iff (eof : Token) {params : List (Spanned Param)} :
    (readParamsEnd eof ts).Gives (List.map (Spanned.unplaced Param.unplaced)) params rest ↔
      ∃ used r, ts = used ++ r :: rest ∧ OptionalParamsOf used params ∧
        r.kind = .punct .rightParen := by
  unfold readParamsEnd
  constructor
  · intro h
    split at h
    · obtain ⟨right, hright, rfl, rfl⟩ := gives_bind_map.mp h
      obtain ⟨r, hr, hk, -⟩ := readPunct_ok hright
      exact ⟨[], r, hr, .none, hk⟩
    · obtain ⟨params, hparams, hg⟩ := gives_bind.mp h
      obtain ⟨right, hright, rfl, rfl⟩ := gives_bind_map.mp hg
      obtain ⟨r, hr, hk, -⟩ := readPunct_ok hright
      obtain ⟨used, hts, hp, -⟩ := (readParams_gives_iff eof).mp ⟨params, hparams, rfl, hr⟩
      exact ⟨used, r, hts, .some hp, hk⟩
  · rintro ⟨used, r, rfl, hp, hk⟩
    cases hp with
    | none =>
      obtain ⟨right, hright, -, hrest⟩ := readPunct_of_eq eof (List.nil_append (r :: rest)) hk
      rw [if_pos (by simp [hk])]
      exact gives_bind_map.mpr ⟨right, hright, rfl, hrest⟩
    | some hp =>
      have hts : used ++ r :: rest = used ++ r :: rest := rfl
      obtain ⟨params, hparams, rfl, hr⟩ := (readParams_gives_iff eof).mpr
        ⟨used, hts, hp, by simp [hk]⟩
      obtain ⟨right, hright, -, hrest⟩ := readPunct_of_eq eof hr hk
      obtain ⟨w, more, rfl, hw⟩ := hp.head
      rw [if_neg (by simp [hw])]
      exact gives_bind.mpr ⟨params, hparams, gives_bind_map.mpr ⟨right, hright, rfl, hrest⟩⟩

def paramsTree (p : List (Spanned Param) × Span) : List (Spanned Param) :=
  p.1.map (Spanned.unplaced Param.unplaced)

theorem readMethodEnd_gives_iff (eof : Token) {params : List (Spanned Param)} :
    (readMethodEnd eof ts).Gives paramsTree params rest ↔
      ∃ l used r s, ts = l :: (used ++ r :: s :: rest) ∧ l.kind = .punct .leftParen ∧
        OptionalParamsOf used params ∧ r.kind = .punct .rightParen ∧
        s.kind = .punct .semicolon := by
  unfold readMethodEnd
  constructor
  · intro h
    obtain ⟨left, hleft, hg⟩ := gives_bind.mp h
    obtain ⟨params, hparams, hg⟩ := gives_bind.mp hg
    obtain ⟨close, hclose, rfl, rfl⟩ := gives_bind_map.mp hg
    obtain ⟨l, hl, hlk, -⟩ := readPunct_ok hleft
    obtain ⟨s, hs, hsk, -⟩ := readPunct_ok hclose
    obtain ⟨used, r, hts, hp, hrk⟩ := (readParamsEnd_gives_iff eof).mp ⟨params, hparams, rfl, hs⟩
    exact ⟨l, used, r, s, by simp [hl, hts], hlk, hp, hrk, hsk⟩
  · rintro ⟨l, used, r, s, hts, hlk, hp, hrk, hsk⟩
    obtain ⟨left, hleft, -, hl⟩ := readPunct_of_eq eof hts hlk
    obtain ⟨params, hparams, rfl, hr⟩ :=
      (readParamsEnd_gives_iff eof).mpr ⟨used, r, hl, hp, hrk⟩
    obtain ⟨close, hclose, -, hc⟩ := readPunct_of_eq eof hr hsk
    exact gives_bind.mpr ⟨left, hleft, gives_bind.mpr ⟨params, hparams,
      gives_bind_map.mpr ⟨close, hclose, rfl, hc⟩⟩⟩

theorem readInit_gives_iff (eof : Token) {init : Spanned Literal} :
    (readInit eof ts).Gives (Spanned.unplaced id) init rest ↔
      ∃ l v, ts = l :: rest ∧ readLiteral l = .ok v ∧ init = bare v := by
  cases ts with
  | nil => simp [readInit]
  | cons l more =>
    cases hl : readLiteral l with
    | error d => simp [readInit, hl, bind, Except.bind]
    | ok v =>
      simp only [readInit, hl, mapError_ok, ok_bind, pure_eq_ok, gives_ok]
      constructor
      · rintro ⟨rfl, rfl⟩
        exact ⟨l, v, rfl, hl, rfl⟩
      · rintro ⟨l', v', hts, hl', rfl⟩
        cases hts
        cases hl.symm.trans hl'
        exact ⟨rfl, rfl⟩

def initTree (p : Option (Spanned Literal) × Span) : Option (Spanned Literal) :=
  p.1.map (Spanned.unplaced id)

theorem readFieldEnd_gives_iff (eof : Token) {init : Option (Spanned Literal)} :
    (readFieldEnd eof ts).Gives initTree init rest ↔
      ∃ used s, ts = used ++ s :: rest ∧ InitOf used init ∧ s.kind = .punct .semicolon := by
  unfold readFieldEnd
  constructor
  · intro h
    split at h
    · next he =>
      obtain ⟨e, more, rfl, hek⟩ := atPunct_eq_true he
      obtain ⟨lit, hlit, hg⟩ := gives_bind.mp h
      obtain ⟨close, hclose, rfl, rfl⟩ := gives_bind_map.mp hg
      obtain ⟨s, hs, hsk, -⟩ := readPunct_ok hclose
      obtain ⟨l, v, hts, hl, hv⟩ := (readInit_gives_iff eof).mp ⟨lit, hlit, rfl, hs⟩
      refine ⟨[e, l], s, by simpa using hts, ?_, hsk⟩
      change InitOf _ (some (lit.value.unplaced id))
      exact hv ▸ .some hek hl
    · obtain ⟨close, hclose, rfl, rfl⟩ := gives_bind_map.mp h
      obtain ⟨s, hs, hsk, -⟩ := readPunct_ok hclose
      exact ⟨[], s, hs, .none, hsk⟩
  · rintro ⟨used, s, rfl, hi, hsk⟩
    cases hi with
    | none =>
      obtain ⟨close, hclose, -, hc⟩ := readPunct_of_eq eof (List.nil_append (s :: rest)) hsk
      rw [if_neg (by simp [hsk])]
      exact gives_bind_map.mpr ⟨close, hclose, rfl, hc⟩
    | @some e l v hek hl =>
      have hts : ([e, l] ++ s :: rest).drop 1 = l :: s :: rest := rfl
      obtain ⟨lit, hlit, hv, hr⟩ := (readInit_gives_iff eof).mpr ⟨l, v, hts, hl, rfl⟩
      obtain ⟨close, hclose, -, hc⟩ := readPunct_of_eq eof hr hsk
      rw [if_pos (by simp [hek])]
      exact gives_bind.mpr ⟨lit, hlit, gives_bind_map.mpr
        ⟨close, hclose, congrArg some hv, hc⟩⟩

def memberTree (p : Member × Span) : Member := p.1.unplaced

theorem readMemberBody_sound {mods : List (Spanned Modifier)} {m : Member}
    (h : (readMemberBody mods eof ts).Gives memberTree m rest) :
    ∃ used, ts = used ++ rest ∧ BodyOf (mods.map (Spanned.unplaced id)) used m := by
  obtain ⟨ret, hret, hg⟩ := gives_bind.mp h
  obtain ⟨name, hname, hg⟩ := gives_bind.mp hg
  obtain ⟨i, hi, hik, hiv⟩ := readIdent_ok hname
  obtain ⟨rs, hts, hr⟩ := (readReturn_gives_iff eof hik).mp ⟨ret, hret, rfl, hi⟩
  dsimp only at hg
  split at hg
  · obtain ⟨tail, htail, rfl, hend⟩ := gives_bind_map.mp hg
    obtain ⟨l, ps, r, s, hrest, hl, hp, hrk, hsk⟩ :=
      (readMethodEnd_gives_iff eof).mp ⟨tail, htail, rfl, hend⟩
    refine ⟨rs ++ i :: l :: (ps ++ [r, s]), by simp [hts, hrest], ?_⟩
    change BodyOf _ _ (.method ⟨_, bare ret.value.node.unplaced, bare name.value.node, _⟩)
    rw [hiv]
    exact .method hr hik hl hp hrk hsk
  · split at hg
    · exact absurd hg gives_error
    · next t ht =>
      obtain ⟨tail, htail, rfl, hend⟩ := gives_bind_map.mp hg
      obtain ⟨is, s, hrest, hinit, hsk⟩ :=
        (readFieldEnd_gives_iff eof).mp ⟨tail, htail, rfl, hend⟩
      have hr' : ReturnOf rs (.type t.unplaced) := by simpa [ht, ReturnType.unplaced] using hr
      cases hr' with
      | type htype =>
        refine ⟨rs ++ i :: (is ++ [s]), by simp [hts, hrest], ?_⟩
        change BodyOf _ _ (.field ⟨_, bare t.unplaced, bare name.value.node, _⟩)
        rw [hiv]
        exact .field htype hik hinit hsk

theorem InitOf.atPunct_leftParen {is : List Token} {s : Token} {init : Option (Spanned Literal)}
    (h : InitOf is init) (hs : s.kind = .punct .semicolon) :
    atPunct .leftParen (is ++ s :: rest) = false := by
  cases h with
  | none => simp [hs]
  | some he _ => simp [he]

theorem readMemberBody_complete (eof : Token) {mods : List (Spanned Modifier)} {m : Member}
    {used : List Token} (h : BodyOf (mods.map (Spanned.unplaced id)) used m) (rest : List Token) :
    (readMemberBody mods eof (used ++ rest)).Gives memberTree m rest := by
  cases h with
  | @field ts is i s t init ht hi hinit hs =>
    have hts : ts ++ i :: (is ++ [s]) ++ rest = ts ++ i :: (is ++ s :: rest) := by simp
    obtain ⟨ret, hret, hv, hr⟩ := (readReturn_gives_iff eof hi).mpr ⟨ts, hts, .type ht⟩
    obtain ⟨name, hname, hnv, hnr⟩ := readIdent_of_eq eof hr hi
    obtain ⟨tail, htail, rfl, hrest⟩ := (readFieldEnd_gives_iff eof).mpr ⟨is, s, hnr, hinit, hs⟩
    refine gives_bind.mpr ⟨ret, hret, gives_bind.mpr ⟨name, hname, ?_⟩⟩
    dsimp only
    rw [if_neg (by simp [hnr, hinit.atPunct_leftParen hs])]
    split
    · next hvoid => simp [hvoid, ReturnType.unplaced] at hv
    · next u hu =>
      have hu' : u.unplaced = t := by simpa [hu, ReturnType.unplaced] using hv
      refine gives_bind_map.mpr ⟨tail, htail, ?_, hrest⟩
      change Member.field ⟨_, bare u.unplaced, bare name.value.node, _⟩ = _
      rw [hu', hnv]
      rfl
  | @method rs ps i l r s _ params hg hi hl hp hc hs =>
    have hts : rs ++ i :: l :: (ps ++ [r, s]) ++ rest = rs ++ i :: l :: (ps ++ r :: s :: rest) := by
      simp
    obtain ⟨ret, hret, rfl, hr⟩ := (readReturn_gives_iff eof hi).mpr ⟨rs, hts, hg⟩
    obtain ⟨name, hname, hnv, hnr⟩ := readIdent_of_eq eof hr hi
    obtain ⟨tail, htail, rfl, hrest⟩ :=
      (readMethodEnd_gives_iff eof).mpr ⟨l, ps, r, s, hnr, hl, hp, hc, hs⟩
    refine gives_bind.mpr ⟨ret, hret, gives_bind.mpr ⟨name, hname, ?_⟩⟩
    dsimp only
    rw [if_pos (by simp [hnr, hl])]
    refine gives_bind_map.mpr ⟨tail, htail, ?_, hrest⟩
    change Member.method ⟨_, bare ret.value.node.unplaced, bare name.value.node, _⟩ = _
    rw [hnv]
    rfl

theorem BodyOf.head {mods : List (Spanned Modifier)} {bs : List Token} {m : Member}
    (h : BodyOf mods bs m) :
    ∃ w more, bs = w :: more ∧ (w.kind = .keyword .void ∨ w.kind.startsType = true) := by
  cases h with
  | field ht _ _ _ =>
    obtain ⟨w, more, rfl, hw⟩ := ht.head
    exact ⟨w, _, rfl, .inr hw⟩
  | method hr _ _ _ _ _ =>
    cases hr with
    | void hw => exact ⟨_, _, rfl, .inl hw⟩
    | type ht =>
      obtain ⟨w, more, rfl, hw⟩ := ht.head
      exact ⟨w, _, rfl, .inr hw⟩

theorem BodyOf.no_modifier {mods : List (Spanned Modifier)} {bs : List Token} {m : Member}
    (h : BodyOf mods bs m) (rest : List Token) :
    (bs ++ rest).head?.bind (·.kind.modifier?) = none := by
  obtain ⟨w, more, rfl, hw | hw⟩ := h.head
  · simp [hw, TokenKind.modifier?, Keyword.modifier?]
  · cases hm : w.kind.modifier? with
    | none => simp [hm]
    | some m =>
      exact absurd (modifier?_eq_some.mp hm) (startsType_ne_keyword (.modifier m) hw rfl)

theorem MemberOf.head {ms : List Token} {m : Spanned Member} (h : MemberOf ms m) :
    ∃ w more, ms = w :: more ∧ ∀ c, w.kind ≠ .keyword (.clause c) := by
  cases h with
  | mk hm hb =>
    cases hm with
    | nil =>
      obtain ⟨w, more, rfl, hw | hw⟩ := hb.head
      · exact ⟨w, more, rfl, by simp [hw]⟩
      · exact ⟨w, more, rfl, fun c => startsType_ne_keyword (.clause c) hw rfl⟩
    | cons ha _ =>
      cases ha with
      | mk hw => exact ⟨_, _, rfl, by simp [hw]⟩

theorem readMember_gives_iff (eof : Token) {m : Spanned Member} :
    (readMember eof ts).Gives (Spanned.unplaced Member.unplaced) m rest ↔
      ∃ used, ts = used ++ rest ∧ MemberOf used m := by
  unfold readMember
  constructor
  · intro h
    split at h
    · exact absurd h gives_error
    · obtain ⟨body, hbody, rfl, hr⟩ := gives_bind_map.mp h
      obtain ⟨bs, hbs, hb⟩ := readMemberBody_sound ⟨body, hbody, rfl, hr⟩
      obtain ⟨ms, hms, hm⟩ := takeModifiers_sound ts
      refine ⟨ms ++ bs, ?_, .mk hm hb⟩
      rw [List.append_assoc, ← hbs, ← hms]
  · rintro ⟨used, rfl, hm⟩
    obtain ⟨w, more, hused, hw⟩ := hm.head
    split
    · next c hc => exact absurd hc (by simpa [hused] using hw c)
    · cases hm with
      | @mk ms bs mods m hms hb =>
        obtain ⟨hrest, rfl⟩ := takeModifiers_complete hms (hb.no_modifier rest)
        rw [← List.append_assoc] at hrest hb
        have hbody := readMemberBody_complete eof hb rest
        rw [← hrest] at hbody
        obtain ⟨body, hbody, hv, hr⟩ := hbody
        exact gives_bind_map.mpr ⟨body, hbody, congrArg bare hv, hr⟩

/-! ### Units -/

theorem gives_of_attempt {α β : Type} {read : (ts : List Token) → Reading α ts} {a : α}
    (view : α → β) (h : attempt read ts = (.ok a, rest)) :
    (read ts).Gives view (view a) rest := by
  unfold attempt at h
  split at h
  · next r hr =>
    cases h
    exact ⟨r, hr, rfl, rfl⟩
  · cases h

theorem attempt_of_gives {α β : Type} {read : (ts : List Token) → Reading α ts} {view : α → β}
    {b : β} (h : (read ts).Gives view b rest) :
    ∃ a, attempt read ts = (.ok a, rest) ∧ view a = b := by
  obtain ⟨r, hr, rfl, rfl⟩ := h
  exact ⟨r.value, by simp [attempt, hr], rfl⟩

theorem atClause_cons {c : Clause} :
    atClause c (w :: ts) = true ↔ w.kind = .keyword (.clause c) := by
  simp [atClause]

theorem atClause_eq_true {c : Clause} (h : atClause c ts = true) :
    ∃ w more, ts = w :: more ∧ w.kind = .keyword (.clause c) := by
  cases ts with
  | nil => simp [atClause] at h
  | cons w more => exact ⟨w, more, rfl, atClause_cons.mp h⟩

theorem tryImports_sound {imports : List (Spanned Import)}
    (h : tryImports eof ts = (imports.map .ok, rest)) :
    ∃ used, ts = used ++ rest ∧ Repeated ImportOf used (imports.map (Spanned.unplaced id)) ∧
      atClause .imports rest = false := by
  induction imports generalizing ts with
  | nil =>
    rw [tryImports] at h
    split at h
    · simp at h
    · next hc =>
      have hts : ts = rest := by simpa using h
      subst hts
      exact ⟨[], rfl, .nil, by simpa using hc⟩
  | cons a imports ih =>
    rw [tryImports] at h
    split at h
    · next hc =>
      obtain ⟨w, more, rfl, hw⟩ := atClause_eq_true hc
      simp only [List.map_cons, Prod.mk.injEq, List.cons.injEq] at h
      obtain ⟨⟨ha, htail⟩, hrest⟩ := h
      obtain ⟨xs, hts, hi⟩ := (readImport_gives_iff hw).mp (gives_of_attempt _ (Prod.ext ha rfl))
      obtain ⟨used, hmid, hr, hend⟩ := ih (Prod.ext htail hrest)
      refine ⟨xs ++ used, ?_, .cons hi hr, hend⟩
      rw [List.append_assoc, ← hmid, ← hts]
    · simp at h

theorem ImportOf.head {is : List Token} {a : Spanned Import} (h : ImportOf is a) :
    ∃ w more, is = w :: more ∧ w.kind = .keyword (.clause .imports) := by
  cases h with
  | single hw _ _ => exact ⟨_, _, rfl, hw⟩
  | wildcard hw _ _ _ _ => exact ⟨_, _, rfl, hw⟩

theorem tryImports_complete (eof : Token) {used : List Token} {l : List (Spanned Import)}
    (h : Repeated ImportOf used l) (hr : atClause .imports rest = false) :
    ∃ imports : List (Spanned Import), tryImports eof (used ++ rest) = (imports.map .ok, rest) ∧
      imports.map (Spanned.unplaced id) = l := by
  induction h with
  | nil => exact ⟨[], by rw [tryImports]; simp [hr], rfl⟩
  | @cons xs ys a l ha _ ih =>
    obtain ⟨imports, htail, rfl⟩ := ih
    obtain ⟨w, more, rfl, hw⟩ := ha.head
    have hg : (readImport eof (w :: (more ++ (ys ++ rest)))).Gives _ a (ys ++ rest) :=
      (readImport_gives_iff hw).mpr ⟨w :: more, rfl, ha⟩
    obtain ⟨b, hb, rfl⟩ := attempt_of_gives hg
    refine ⟨b :: imports, ?_, rfl⟩
    rw [List.append_assoc, List.cons_append, tryImports, dif_pos (atClause_cons.mpr hw)]
    simp [hb, htail]

theorem tryMembers_sound {members : List (Spanned Member)}
    (h : tryMembers eof ts = members.map .ok) :
    Repeated MemberOf ts (members.map (Spanned.unplaced Member.unplaced)) := by
  induction members generalizing ts with
  | nil =>
    cases ts with
    | nil => exact .nil
    | cons t more => simp [tryMembers] at h
  | cons m members ih =>
    cases ts with
    | nil => simp [tryMembers] at h
    | cons t more =>
      simp only [tryMembers, List.map_cons, List.cons.injEq] at h
      obtain ⟨hm, htail⟩ := h
      obtain ⟨xs, hts, hmem⟩ :=
        (readMember_gives_iff eof).mp (gives_of_attempt _ (Prod.ext hm rfl))
      rw [hts]
      exact .cons hmem (ih htail)

theorem tryMembers_complete (eof : Token) {l : List (Spanned Member)}
    (h : Repeated MemberOf ts l) :
    ∃ members : List (Spanned Member), tryMembers eof ts = members.map .ok ∧
      members.map (Spanned.unplaced Member.unplaced) = l := by
  induction h with
  | nil => exact ⟨[], by simp [tryMembers], rfl⟩
  | @cons xs ys a l ha _ ih =>
    obtain ⟨members, htail, rfl⟩ := ih
    obtain ⟨w, more, rfl, -⟩ := ha.head
    have hg : (readMember eof (w :: (more ++ ys))).Gives _ a ys :=
      (readMember_gives_iff eof).mpr ⟨w :: more, rfl, ha⟩
    obtain ⟨b, hb, rfl⟩ := attempt_of_gives hg
    refine ⟨b :: members, ?_, rfl⟩
    rw [List.cons_append, tryMembers]
    simp [hb, htail]

/-- Every production of a unit was read, and gave these parts. -/
structure Attempts.Clean (a : Attempts) (u : CompilationUnit) : Prop where
  package : a.package = u.package.map .ok
  imports : a.imports = u.imports.map .ok
  members : a.members = u.members.map .ok

theorem Attempts.Clean.unit_eq {a : Attempts} {u : CompilationUnit} (h : a.Clean u) :
    a.unit = u := by
  obtain ⟨p, is, ms⟩ := u
  cases p <;>
    simp [Attempts.unit, h.package, h.imports, h.members, Except.toOption, Function.comp_def]

/-- There is no fault exactly if every production was read. -/
theorem faults_none_iff {a : Attempts} : (∀ f ∈ a.faults, f = none) ↔ ∃ u, a.Clean u := by
  constructor
  · intro h
    have hp : a.package.bind Diagnostic.of? = none := h _ (by simp [Attempts.faults])
    obtain ⟨is, his⟩ := Diagnostic.exists_map_ok (fun r (hr : r ∈ a.imports) => h _ (by
      simp only [Attempts.faults, List.mem_append, List.mem_cons, List.mem_map]
      exact .inl (.inr ⟨r, hr, rfl⟩)))
    obtain ⟨ms, hms⟩ := Diagnostic.exists_map_ok (fun r (hr : r ∈ a.members) => h _ (by
      simp only [Attempts.faults, List.mem_append, List.mem_map]
      exact .inr ⟨r, hr, rfl⟩))
    cases hpack : a.package with
    | none => exact ⟨⟨none, is, ms⟩, hpack, his, hms⟩
    | some r =>
      cases r with
      | error d => simp [hpack, Diagnostic.of?] at hp
      | ok p => exact ⟨⟨some p, is, ms⟩, hpack, his, hms⟩
  · rintro ⟨⟨p, is, ms⟩, hp, hi, hm⟩ f hf
    simp only [Attempts.faults, hp, hi, hm, List.mem_append, List.mem_cons, List.mem_map] at hf
    rcases hf with (hf | ⟨r, ⟨a, -, rfl⟩, hf⟩) | ⟨r, ⟨a, -, rfl⟩, hf⟩
    · cases p <;> simpa [Diagnostic.of?] using hf
    · exact hf.symm
    · exact hf.symm

theorem walk_failFast_never (asked : Nat) (faults : List (Option Diagnostic)) :
    (walk .failFast .never asked faults).1 = none ↔ ∀ f ∈ faults, f = none := by
  induction faults generalizing asked with
  | nil => simp [walk]
  | cons f faults ih => cases f <;> simp [walk, Interrupt.never, ih]

theorem parseAsking_failFast_iff {tokens : List Token} {u : CompilationUnit} :
    (parseAsking .failFast .never tokens).1 = .complete u [] ↔
      (Attempts.ofTokens tokens).Clean u := by
  have hwalk := walk_failFast_never 0 (Attempts.ofTokens tokens).faults
  rw [faults_none_iff] at hwalk
  rw [parseAsking_eq_walk]
  constructor
  · intro h
    split at h
    · cases h
    · cases h
    · next asked hw =>
      rw [hw] at hwalk
      obtain ⟨v, hv⟩ := hwalk.mp rfl
      have hu : v = u := by
        have := hv.unit_eq
        simp only [ParseOutcome.complete.injEq] at h
        exact this.symm.trans h.1
      exact hu ▸ hv
  · intro h
    have hnone := hwalk.mpr ⟨u, h⟩
    have hd : (Attempts.ofTokens tokens).diagnostics = [] :=
      List.filterMap_eq_nil_iff.mpr (faults_none_iff.mpr ⟨u, h⟩)
    split
    · next hw => simp [hw] at hnone
    · next hw => simp [hw] at hnone
    · rw [h.unit_eq, hd]

theorem importsAndMembers_sound {imports : List (Spanned Import)} {members : List (Spanned Member)}
    (hi : (tryImports eof ts).1 = imports.map .ok)
    (hm : tryMembers eof (tryImports eof ts).2 = members.map .ok) :
    ∃ is ms, ts = is ++ ms ∧ Repeated ImportOf is (imports.map (Spanned.unplaced id)) ∧
      Repeated MemberOf ms (members.map (Spanned.unplaced Member.unplaced)) := by
  obtain ⟨is, hts, his, -⟩ := tryImports_sound (Prod.ext hi rfl)
  exact ⟨is, _, hts, his, tryMembers_sound hm⟩

theorem ofTokens_package {tokens : List Token} (hcut : cutAtEnd tokens = (ts, eof))
    (hc : atClause .package ts = true) :
    Attempts.ofTokens tokens =
      let package := attempt (readPackage eof) ts
      let imports := tryImports eof package.2
      ⟨some package.1, imports.1, tryMembers eof imports.2⟩ := by
  simp [Attempts.ofTokens, hcut, hc]

theorem ofTokens_no_package {tokens : List Token} (hcut : cutAtEnd tokens = (ts, eof))
    (hc : atClause .package ts = false) :
    Attempts.ofTokens tokens =
      let imports := tryImports eof ts
      ⟨none, imports.1, tryMembers eof imports.2⟩ := by
  simp [Attempts.ofTokens, hcut, hc]

theorem ofTokens_sound {tokens : List Token} {u : CompilationUnit}
    (hcut : cutAtEnd tokens = (ts, eof)) (h : (Attempts.ofTokens tokens).Clean u) :
    UnitOf ts u.unplaced := by
  obtain ⟨p, imports, members⟩ := u
  cases hc : atClause .package ts with
  | true =>
    rw [ofTokens_package hcut hc] at h
    obtain ⟨hp, hi, hm⟩ := h
    obtain ⟨w, more, rfl, hw⟩ := atClause_eq_true hc
    cases p with
    | none => cases hp
    | some p =>
      obtain ⟨ps, hts, hps⟩ := (readPackage_gives_iff hw).mp
        (gives_of_attempt _ (Prod.ext (Option.some.inj hp) rfl))
      obtain ⟨is, ms, hrest, his, hms⟩ := importsAndMembers_sound hi hm
      rw [hts.trans (congrArg (ps ++ ·) hrest)]
      exact .mk (.some hps) his hms
  | false =>
    rw [ofTokens_no_package hcut hc] at h
    obtain ⟨hp, hi, hm⟩ := h
    cases p with
    | some p => cases hp
    | none =>
      obtain ⟨is, ms, rfl, his, hms⟩ := importsAndMembers_sound hi hm
      exact .mk .none his hms

theorem atClause_members {ms : List Token} {l : List (Spanned Member)}
    (h : Repeated MemberOf ms l) (c : Clause) : atClause c ms = false := by
  cases h with
  | nil => rfl
  | cons hm _ =>
    obtain ⟨w, more, rfl, hw⟩ := hm.head
    simpa [atClause] using hw c

theorem atClause_package_imports {is ms : List Token} {l : List (Spanned Import)}
    (hi : Repeated ImportOf is l) (hm : atClause .package ms = false) :
    atClause .package (is ++ ms) = false := by
  cases hi with
  | nil => exact hm
  | cons ha _ =>
    obtain ⟨w, more, rfl, hw⟩ := ha.head
    simp [atClause, hw]

theorem importsAndMembers_complete (eof : Token) {is ms : List Token} {l : List (Spanned Import)}
    {l' : List (Spanned Member)} (hi : Repeated ImportOf is l) (hm : Repeated MemberOf ms l') :
    ∃ (imports : List (Spanned Import)) (members : List (Spanned Member)),
      (tryImports eof (is ++ ms)).1 = imports.map .ok ∧
      tryMembers eof (tryImports eof (is ++ ms)).2 = members.map .ok ∧
      imports.map (Spanned.unplaced id) = l ∧
      members.map (Spanned.unplaced Member.unplaced) = l' := by
  obtain ⟨imports, htry, rfl⟩ := tryImports_complete eof hi (atClause_members hm .imports)
  obtain ⟨members, hmem, rfl⟩ := tryMembers_complete eof hm
  exact ⟨imports, members, by simp [htry], by simp [htry, hmem], rfl, rfl⟩

theorem ofTokens_complete {tokens : List Token} {u : CompilationUnit}
    (hcut : cutAtEnd tokens = (ts, eof)) (h : UnitOf ts u) :
    ∃ v, (Attempts.ofTokens tokens).Clean v ∧ v.unplaced = u := by
  cases h with
  | @mk ps is ms p l l' hp hi hm =>
    obtain ⟨imports, members, his, hms, rfl, rfl⟩ := importsAndMembers_complete eof hi hm
    cases hp with
    | none =>
      have hc := atClause_package_imports hi (atClause_members hm .package)
      rw [ofTokens_no_package hcut hc]
      exact ⟨⟨none, imports, members⟩, ⟨rfl, his, hms⟩, rfl⟩
    | some hp =>
      obtain ⟨w, more, rfl, hw⟩ := hp.head
      have hg : (readPackage eof (w :: (more ++ (is ++ ms)))).Gives _ _ (is ++ ms) :=
        (readPackage_gives_iff hw).mpr ⟨w :: more, rfl, hp⟩
      obtain ⟨name, hname, rfl⟩ := attempt_of_gives hg
      rw [ofTokens_package hcut (atClause_cons.mpr hw)]
      refine ⟨⟨some name, imports, members⟩, ⟨?_, ?_, ?_⟩, rfl⟩ <;> simp [hname, his, hms]

/-- A run that stops at the first fault gets to the end exactly on the tokens that the grammar
derives before the end mark, with the tree that they are derived with, and there is no other. -/
theorem parse_exact (tokens : List Token) :
    (∀ u, (∃ v, (parseAsking .failFast .never tokens).1 = .complete v [] ∧ v.unplaced = u) ↔
      UnitOf (tokens.takeWhile (fun t => !t.isEnd)) u) ∧
    ∀ u u', UnitOf (tokens.takeWhile (fun t => !t.isEnd)) u →
      UnitOf (tokens.takeWhile (fun t => !t.isEnd)) u' → u = u' := by
  have hcut : cutAtEnd tokens = (tokens.takeWhile (fun t => !t.isEnd), (cutAtEnd tokens).2) := rfl
  have hcomplete {u : CompilationUnit} (h : UnitOf (tokens.takeWhile (fun t => !t.isEnd)) u) :
      ∃ v, (parseAsking .failFast .never tokens).1 = .complete v [] ∧ v.unplaced = u := by
    obtain ⟨v, hv, rfl⟩ := ofTokens_complete hcut h
    exact ⟨v, parseAsking_failFast_iff.mpr hv, rfl⟩
  refine ⟨fun u => ⟨?_, hcomplete⟩, ?_⟩
  · rintro ⟨v, hv, rfl⟩
    exact ofTokens_sound hcut (parseAsking_failFast_iff.mp hv)
  · intro u u' hu hu'
    obtain ⟨v, hv, rfl⟩ := hcomplete hu
    obtain ⟨v', hv', rfl⟩ := hcomplete hu'
    cases hv.symm.trans hv'
    rfl

end DeclFront
