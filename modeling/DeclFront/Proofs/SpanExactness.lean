import DeclFront.Proofs.Outlines
import DeclFront.Proofs.Respacing
import DeclFront.Proofs.TypeSpelling

/-! Every part of a tree stands on the tokens that it was read from. The readers are gone through
one by one; what is laid out inside a part follows the order in which its own parts were read. -/

namespace DeclFront

variable {α : Type} {eof : Token} {ts : List Token}

/-- What is read comes from the tokens in front of those that are left, and fits them. -/
def Reading.Takes {us : List Token} (P : List Token → α → Prop) (x : Reading α us) : Prop :=
  ∀ r, x = .ok r → ∃ used, us = used ++ r.rest ∧ P used r.value

theorem Reading.Takes.and {P Q : List Token → α → Prop} {x : Reading α ts} (hP : x.Takes P)
    (hQ : x.Takes Q) : x.Takes (fun run a => P run a ∧ Q run a) := by
  intro r hr
  obtain ⟨used, hts, hp⟩ := hP r hr
  obtain ⟨used', hts', hq⟩ := hQ r hr
  obtain rfl : used = used' := List.append_cancel_right (hts.symm.trans hts')
  exact ⟨used, hts, hp, hq⟩

/-- A part stands on the run that the grammar derives it from if its span and its own parts fit. -/
theorem Reading.Takes.standsOn {x : Reading (Spanned α) ts} (what : α → Construct)
    (parts : α → List Outline) (hd : x.Takes (fun run a => (what a.node).DerivedFrom run))
    (hp : x.Takes (fun run a => Spans run a.span ∧ Laid run (parts a.node))) :
    x.Takes (fun run a => StandsOn run (a.outline what parts)) := by
  intro r hr
  obtain ⟨used, hts, hderived, hs, hlaid⟩ := hd.and hp r hr
  exact ⟨used, hts, .node hderived hs hlaid⟩

/-! ### Names -/

theorem dottedTail_spans (ts : List Token) :
    ∃ taken, ts = taken ++ (dottedTail ts).2 ∧ ∀ before s, Spans before s →
      InOrder (before ++ taken) → Spans (before ++ taken) (mergeSpans s (dottedTail ts).1) := by
  fun_induction dottedTail ts with
  | case1 d i rest h ih =>
    obtain ⟨taken, hts, hspans⟩ := ih
    refine ⟨d :: i :: taken, by simp [← hts], fun before s hs ho => ?_⟩
    have hcut : before ++ d :: i :: taken = (before ++ [d, i]) ++ taken := by simp
    rw [hcut] at ho ⊢
    exact hspans _ _ (hs.merge ho.left (spans_singleton i) ⟨_, rfl⟩ ⟨before ++ [d], by simp⟩) ho
  | case2 | case3 => exact ⟨[], rfl, fun before s hs _ => by simpa [mergeSpans] using hs⟩

theorem readName_takes (ho : InOrder ts) :
    (readName eof ts).Takes (fun run n => NameOf run n.node ∧ Spans run n.span) := by
  refine Reading.Takes.and (fun r hr => ?_) (fun r hr => ?_)
  · obtain ⟨used, hts, hn, -⟩ := (readName_gives_iff eof).mp ⟨r, hr, rfl, rfl⟩
    exact ⟨used, hts, hn⟩
  · obtain ⟨first, hf, he⟩ := bind_eq_ok.mp hr
    obtain ⟨i, hts, -, hv⟩ := readIdent_ok hf
    obtain ⟨taken, hrest, hspans⟩ := dottedTail_spans first.rest
    cases he
    have hcut : ts = ([i] ++ taken) ++ (dottedTail first.rest).2 := by
      rw [List.append_assoc, ← hrest]
      exact hts
    have hrun := hspans [i] i.span (spans_singleton i) (hcut ▸ ho).left
    exact ⟨[i] ++ taken, hcut, by simpa only [hv] using hrun⟩

/-! ### Types -/

/-- A type that was read, on its tokens. -/
abbrev TypeStandsOn (run : List Token) (t : Spanned TypeNode) : Prop :=
  StandsOn run (t.outline .type TypeNode.parts)

theorem arraySuffix_takes {b u : Spanned TypeNode} {bs rest : List Token}
    (ho : InOrder (bs ++ ts)) (hb : TypeStandsOn bs b)
    (h : arraySuffix eof b ts = .ok (u, rest)) :
    ∃ ds, ts = ds ++ rest ∧ TypeStandsOn (bs ++ ds) u := by
  fun_induction arraySuffix eof b ts generalizing bs with
  | case1 | case3 | case6 =>
    cases h
    exact ⟨[], rfl, by simpa using hb⟩
  | case2 | case5 => cases h
  | case4 b l r more hl hr ih =>
    have hcut : bs ++ l :: r :: more = (bs ++ [l, r]) ++ more := by simp
    rw [hcut] at ho
    have harray : TypeStandsOn (bs ++ [l, r]) ⟨.array b.node b.span, b.span.merge r.span⟩ := by
      refine .node ?_ ?_ (hb.laid.before [l, r])
      · have htype : TypeOf bs b.node.unplaced := hb.derived
        exact htype.array (isPunct_iff.mp hl) (isPunct_iff.mp hr)
      · exact hb.spans.merge ho.left (spans_singleton r) ⟨_, rfl⟩ ⟨bs ++ [l], by simp⟩
    obtain ⟨ds, rfl, hu⟩ := ih ho harray h
    exact ⟨l :: r :: ds, rfl, by simpa using hu⟩

theorem readReference_takes (ht : (readType eof ts).Takes TypeStandsOn) :
    (readReference eof ts).Takes
      (fun run t => TypeStandsOn run t ∧ t.node.isPrimitive = false) := by
  intro r hr
  rw [readReference] at hr
  obtain ⟨t, hread, h⟩ := bind_eq_ok.mp hr
  split at h
  · cases h
  · next hp =>
    cases h
    obtain ⟨used, hts, hstands⟩ := ht r hread
    exact ⟨used, hts, hstands, by simpa using hp⟩

theorem readArg_takes (ho : InOrder ts)
    (ht : ∀ us, us.length ≤ ts.length → InOrder us → (readType eof us).Takes TypeStandsOn) :
    (readArg eof ts).Takes (fun run a => StandsOn run a.outline) := by
  intro r hr
  have htype {t : Parsed (Spanned TypeNode) ts} (hread : readReference eof ts = .ok t) :
      ∃ used, ts = used ++ t.rest ∧
        StandsOn used (TypeArg.type t.value.node t.value.span).outline := by
    obtain ⟨used, hts, hstands, hp⟩ := readReference_takes (ht ts (Nat.le_refl _) ho) t hread
    have hderived : ArgOf used (.type t.value.node.unplaced default) :=
      .type hstands.derived (by simpa using hp)
    exact ⟨used, hts, .node hderived hstands.spans hstands.parts⟩
  unfold readArg at hr
  split at hr
  · obtain ⟨t, hread, h⟩ := bind_eq_ok.mp hr
    cases h
    exact htype hread
  · next q after =>
    split at hr
    · next hq =>
      split at hr
      · next b hb =>
        obtain ⟨w, more, rfl, hw⟩ := boundAt?_eq_some hb
        obtain ⟨t, hread, h⟩ := bind_eq_ok.mp hr
        cases h
        have hmore : InOrder more := (show InOrder ([q, w] ++ more) from ho).right
        obtain ⟨used, hts, hstands, hp⟩ := readReference_takes
          (ht more (by simp only [List.length_cons]; omega) hmore) t hread
        have hcut : q :: w :: more = (q :: w :: used) ++ t.rest := congrArg (q :: w :: ·) hts
        have hderived : ArgOf (q :: w :: used) (.bounded b t.value.node.unplaced default default) :=
          .bounded (isPunct_iff.mp hq) hw hstands.derived (by simpa using hp)
        refine ⟨q :: w :: used, hcut, .node hderived ?_ (hstands.laid.behind [q, w])⟩
        exact (spans_singleton q).merge (hcut ▸ ho).left hstands.spans ⟨_, rfl⟩ ⟨[q, w], rfl⟩
      · cases hr
        exact ⟨[q], rfl, .node (.wildcard (isPunct_iff.mp hq)) (spans_singleton q) (.nil _)⟩
    · obtain ⟨t, hread, h⟩ := bind_eq_ok.mp hr
      cases h
      exact htype hread

theorem StandsOn.argOf {a : TypeArg} {run : List Token} (h : StandsOn run a.outline) :
    ArgOf run a.unplaced := by
  have hwhat : a.outline.what = .arg a := by cases a <;> rfl
  have hderived : (Construct.arg a).DerivedFrom run := hwhat ▸ h.derived
  exact hderived

theorem readArgs_takes (ho : InOrder ts)
    (ht : ∀ us, us.length ≤ ts.length → InOrder us → (readType eof us).Takes TypeStandsOn) :
    (readArgs eof ts).Takes (fun run args => ArgsOf run (TypeArg.unplacedList args) ∧
      Laid run (TypeArg.outlines args)) := by
  induction hn : ts.length using Nat.strongRecOn generalizing ts with
  | _ n ih =>
    subst hn
    intro r hr
    rw [readArgs] at hr
    obtain ⟨arg, harg, h⟩ := bind_eq_ok.mp hr
    obtain ⟨used, hts, hstands⟩ := readArg_takes ho ht arg harg
    split at h
    · next hcomma =>
      obtain ⟨m, more, hm, hk⟩ := atPunct_eq_true hcomma
      obtain ⟨tail, htail, h⟩ := bind_eq_ok.mp h
      cases h
      have hlt : (arg.rest.drop 1).length < ts.length := by
        have := arg.shorter
        simp only [List.length_drop]
        omega
      have hcut : ts = (used ++ [m]) ++ arg.rest.drop 1 := by simpa [hm] using hts
      obtain ⟨used', htail', hargs, hlaid⟩ := ih _ hlt (hcut ▸ ho).right
        (fun us hle => ht us (Nat.le_of_lt (Nat.lt_of_le_of_lt hle hlt))) rfl tail htail
      refine ⟨used ++ m :: used', ?_, .more hstands.argOf hk hargs, ?_⟩
      · rw [htail'] at hcut
        simpa using hcut
      · exact hstands.laid.append (hlaid.behind [m])
    · cases h
      exact ⟨used, hts, .one hstands.argOf, hstands.laid⟩

theorem readBase_takes (ho : InOrder ts)
    (ht : ∀ us, us.length < ts.length → InOrder us → (readType eof us).Takes TypeStandsOn) :
    (readBase eof ts).Takes TypeStandsOn := by
  have hderived {bs : List Token} {b : TypeNode} (hb : BaseOf bs b.unplaced) :
      (Construct.type b).DerivedFrom bs := by
    have htype : TypeOf (bs ++ []) (b.unplaced.wrapped 0) := .dims hb .none
    rwa [List.append_nil] at htype
  intro r hr
  rw [readBase] at hr
  split at hr
  · obtain ⟨w, hw, h⟩ := bind_eq_ok.mp hr
    cases h
    obtain ⟨hts, hk⟩ := readKind_ok hw
    exact ⟨[w.value], hts, .node (hderived (.primitive hk)) (spans_singleton _) (.nil _)⟩
  · split at hr
    · obtain ⟨name, hname, h⟩ := bind_eq_ok.mp hr
      obtain ⟨ns, hts, hn, hs⟩ := readName_takes ho name hname
      split at h
      · next hl =>
        obtain ⟨l, more, hm, hk⟩ := atPunct_eq_true hl
        obtain ⟨args, hargs, h⟩ := bind_eq_ok.mp h
        obtain ⟨close, hclose, h⟩ := bind_eq_ok.mp h
        cases h
        obtain ⟨c, hc, hck, hcs⟩ := readPunct_ok hclose
        have hlt := name.shorter
        have hcut : ts = (ns ++ [l]) ++ name.rest.drop 1 := by simpa [hm] using hts
        obtain ⟨as, has, ha, hlaid⟩ := readArgs_takes (hcut ▸ ho).right (fun us hle hus =>
          ht us (by simp only [List.length_drop] at hle; omega) hus) args hargs
        have hrun : ts = (ns ++ l :: (as ++ [c])) ++ close.rest := by
          rw [has, hc] at hcut
          simpa using hcut
        refine ⟨ns ++ l :: (as ++ [c]), hrun, .node (hderived (.parameterized hn hk ha hck)) ?_ ?_⟩
        · have hspan := hs.merge (hrun ▸ ho).left (spans_singleton c) ⟨_, rfl⟩
            ⟨ns ++ l :: as, by simp⟩
          simpa [hcs] using hspan
        · exact ((hlaid.before [c]).behind [l]).behind ns
      · cases h
        exact ⟨ns, hts, .node (hderived (.reference hn)) hs (.nil _)⟩
    · cases hr

theorem readType_takes (ho : InOrder ts) : (readType eof ts).Takes TypeStandsOn := by
  -- Type arguments are read from shorter lists, so the induction is on the length.
  induction hn : ts.length using Nat.strongRecOn generalizing ts with
  | _ n ih =>
    subst hn
    intro r hr
    have hbase := readBase_takes ho (fun us hlt hus => ih us.length hlt hus rfl)
    cases hb : readBase eof ts with
    | error stop =>
      rw [readType_error hb] at hr
      cases hr
    | ok base =>
      obtain ⟨bs, hts, hstands⟩ := hbase base hb
      cases hs : arraySuffix eof base.value base.rest with
      | error stop =>
        rw [readType_suffix_error hb hs] at hr
        cases hr
      | ok u =>
        obtain ⟨p, hread, hv, hrest⟩ := readType_suffix_ok (b := u.1) hb hs
        cases hread.symm.trans hr
        obtain ⟨ds, hds, hu⟩ := arraySuffix_takes (hts ▸ ho) hstands hs
        refine ⟨bs ++ ds, ?_, hv ▸ hu⟩
        rw [hrest, List.append_assoc, ← hds]
        exact hts

theorem resolveType_takes (ho : InOrder ts) : (resolveType eof ts).Takes TypeStandsOn := by
  intro r hr
  cases ht : readType eof ts with
  | error stop => simp [resolveType, ht] at hr
  | ok t =>
    simp only [resolveType, ht, mapError_ok] at hr
    cases hr
    exact readType_takes ho r ht

/-! ### Declarations -/

variable {w : Token}

/-- The end of a declaration: parts, and then the semicolon whose span was kept. -/
def EndsOn (run : List Token) (os : List Outline) (close : Span) : Prop :=
  ∃ front s, run = front ++ [s] ∧ Laid front os ∧ close = s.span

section Ends

variable {xs run rest : List Token} {os : List Outline} {close : Span}

theorem EndsOn.laid (h : EndsOn run os close) : Laid run os := by
  obtain ⟨front, s, rfl, hlaid, -⟩ := h
  exact hlaid.before [s]

/-- A declaration goes from the token that is looked at to its semicolon. -/
theorem EndsOn.spans (h : EndsOn run os close) (eof : Token) (ho : InOrder ts)
    (hts : ts = (xs ++ run) ++ rest) : Spans (xs ++ run) ((current eof ts).span.merge close) := by
  obtain ⟨front, s, rfl, -, rfl⟩ := h
  exact (spans_singleton s).from_current eof (hts ▸ ho).left ⟨xs ++ front, by simp⟩ hts

end Ends

theorem readPackage_takes (eof : Token) (ho : InOrder (w :: ts))
    (hw : w.kind = .keyword (.clause .package)) :
    (readPackage eof (w :: ts)).Takes (fun run p => StandsOn run (p.leaf .package)) := by
  intro r hr
  obtain ⟨name, hname, h⟩ := bind_eq_ok.mp hr
  obtain ⟨close, hclose, h⟩ := bind_eq_ok.mp h
  cases h
  obtain ⟨ns, hts, hn, -⟩ := (readName_gives_iff eof).mp ⟨name, hname, rfl, rfl⟩
  obtain ⟨c, hc, hk, hcs⟩ := readPunct_ok hclose
  have hcut : w :: ts = ((w :: ns) ++ [c]) ++ close.rest := by simp [hts, hc]
  have hends : EndsOn [c] [] close.value := ⟨[], c, rfl, .nil _, hcs⟩
  exact ⟨(w :: ns) ++ [c], hcut, .node (.mk hw hn hk) (hends.spans eof ho hcut) (.nil _)⟩

theorem readImportEnd_takes :
    (readImportEnd eof ts).Takes (fun run p => EndsOn run [] p.2) := by
  intro r hr
  unfold readImportEnd at hr
  split at hr
  · next hd =>
    obtain ⟨d, more, rfl, -⟩ := atPunct_eq_true hd
    obtain ⟨star, hstar, h⟩ := bind_eq_ok.mp hr
    obtain ⟨close, hclose, h⟩ := bind_eq_ok.mp h
    cases h
    obtain ⟨a, ha, -, -⟩ := readPunct_ok hstar
    obtain ⟨s, hs, -, hspan⟩ := readPunct_ok hclose
    exact ⟨[d, a, s], by simpa [hs] using ha, [d, a], s, rfl, .nil _, hspan⟩
  · obtain ⟨close, hclose, h⟩ := bind_eq_ok.mp hr
    cases h
    obtain ⟨s, hs, -, hspan⟩ := readPunct_ok hclose
    exact ⟨[s], hs, [], s, rfl, .nil _, hspan⟩

theorem readImport_takes (eof : Token) (ho : InOrder (w :: ts))
    (hw : w.kind = .keyword (.clause .imports)) :
    (readImport eof (w :: ts)).Takes (fun run i => StandsOn run (i.leaf .imports)) := by
  have hderived : (readImport eof (w :: ts)).Takes (fun run i => ImportOf run (bare i.node)) :=
    fun r hr => (readImport_gives_iff hw).mp ⟨r, hr, rfl, rfl⟩
  have hplaced : (readImport eof (w :: ts)).Takes
      (fun run i => Spans run i.span ∧ Laid run []) := by
    intro r hr
    obtain ⟨path, hpath, h⟩ := bind_eq_ok.mp hr
    obtain ⟨tail, htail, h⟩ := bind_eq_ok.mp h
    cases h
    obtain ⟨ns, hts, -, -⟩ := (readName_gives_iff eof).mp ⟨path, hpath, rfl, rfl⟩
    obtain ⟨used, hused, hends⟩ := readImportEnd_takes tail htail
    have hcut : w :: ts = ((w :: ns) ++ used) ++ tail.rest := by simp [hts, hused]
    exact ⟨(w :: ns) ++ used, hcut, hends.spans eof ho hcut, .nil _⟩
  exact .standsOn .imports (fun _ => []) hderived hplaced

theorem takeModifiers_laid (ts : List Token) :
    ∃ used, ts = used ++ (takeModifiers ts).2 ∧
      Laid used ((takeModifiers ts).1.map (Spanned.leaf .modifier)) := by
  fun_induction takeModifiers ts with
  | case1 | case3 => exact ⟨[], rfl, .nil _⟩
  | case2 t rest m hm ih =>
    obtain ⟨used, hts, hlaid⟩ := ih
    have hstands : StandsOn [t] ((⟨m, t.span⟩ : Spanned Modifier).leaf .modifier) :=
      .node (.mk (modifier?_eq_some.mp hm)) (spans_singleton t) (.nil _)
    exact ⟨[t] ++ used, congrArg (t :: ·) hts, hstands.laid.append hlaid⟩

theorem readReturn_takes (ho : InOrder ts) : (readReturn eof ts).Takes
    (fun run r => StandsOn run (r.outline .returns ReturnType.parts)) := by
  intro r hr
  unfold readReturn at hr
  split at hr
  · obtain ⟨t, ht, h⟩ := bind_eq_ok.mp hr
    cases h
    obtain ⟨hts, hk⟩ := readKind_ok ht
    exact ⟨[t.value], hts, .node (.void hk) (spans_singleton _) (.nil _)⟩
  · split at hr
    · obtain ⟨t, ht, h⟩ := bind_eq_ok.mp hr
      cases h
      obtain ⟨used, hts, hstands⟩ := resolveType_takes ho t ht
      exact ⟨used, hts, .node (.type hstands.derived) hstands.spans hstands.parts⟩
    · cases hr

theorem StandsOn.typeStandsOn {run : List Token} {r : Spanned ReturnType} {t : TypeNode}
    (h : StandsOn run (r.outline .returns ReturnType.parts)) (ht : r.node = .type t) :
    TypeStandsOn run ⟨t, r.span⟩ := by
  obtain ⟨node, span⟩ := r
  obtain rfl : node = .type t := ht
  have hderived : ReturnOf run (.type t.unplaced) := h.derived
  cases hderived with
  | type htype => exact .node htype h.spans h.parts

theorem readIdent_takes :
    (readIdent eof ts).Takes (fun run n => StandsOn run (n.leaf .name)) := by
  intro r hr
  obtain ⟨i, hts, hk, hv⟩ := readIdent_ok hr
  have hname : (Construct.name i.text).DerivedFrom [i] := ⟨i, rfl, hk, rfl⟩
  exact ⟨[i], hts, hv ▸ .node hname (spans_singleton i) (.nil _)⟩

/-- A type and a name behind it, as they were read. -/
def TypedNameOn (run : List Token) (p : Spanned TypeNode × Spanned String) : Prop :=
  ∃ ts is, run = ts ++ is ∧ TypeStandsOn ts p.1 ∧ StandsOn is (p.2.leaf .name)

theorem readTypedName_takes (ho : InOrder ts) : (readTypedName eof ts).Takes TypedNameOn := by
  intro r hr
  unfold readTypedName at hr
  split at hr
  · cases hr
  · obtain ⟨type, htype, h⟩ := bind_eq_ok.mp hr
    obtain ⟨name, hname, h⟩ := bind_eq_ok.mp h
    cases h
    obtain ⟨us, hts, ht⟩ := resolveType_takes ho type htype
    obtain ⟨is, his, hn⟩ := readIdent_takes name hname
    exact ⟨us ++ is, by simp [hts, his], us, is, rfl, ht, hn⟩

theorem readParam_takes (ho : InOrder ts) :
    (readParam eof ts).Takes (fun run p => StandsOn run (p.outline .param Param.parts)) := by
  have hderived : (readParam eof ts).Takes (fun run p => ParamOf run (bare p.node.unplaced)) :=
    fun r hr => (readParam_gives_iff eof).mp ⟨r, hr, rfl, rfl⟩
  -- A parameter that was read says nothing of its tokens, so the span and the parts inside are
  -- followed through the reader, and the run is the same as that of the grammar.
  have hplaced : (readParam eof ts).Takes
      (fun run p => Spans run p.span ∧ Laid run p.node.parts) := by
    intro r hr
    unfold readParam at hr
    split at hr
    · obtain ⟨tn, htn, h⟩ := bind_eq_ok.mp hr
      cases h
      cases ts with
      | nil => exact absurd tn.shorter (Nat.not_lt_zero _)
      | cons w more =>
        obtain ⟨used, hmore, us, is, rfl, ht, hn⟩ :=
          readTypedName_takes (show InOrder ([w] ++ more) from ho).right tn htn
        have hcut : w :: more = (w :: (us ++ is)) ++ tn.rest := congrArg (w :: ·) hmore
        have hspan := hn.spans.from_current eof (hcut ▸ ho).left ⟨w :: us, rfl⟩ hcut
        exact ⟨w :: (us ++ is), hcut, hspan, (ht.laid.append hn.laid).behind [w]⟩
    · obtain ⟨tn, htn, h⟩ := bind_eq_ok.mp hr
      cases h
      obtain ⟨used, hts, us, is, rfl, ht, hn⟩ := readTypedName_takes ho tn htn
      exact ⟨us ++ is, hts, hn.spans.from_current eof (hts ▸ ho).left ⟨us, rfl⟩ hts,
        ht.laid.append hn.laid⟩
  exact .standsOn .param Param.parts hderived hplaced

theorem readParams_takes (ho : InOrder ts) : (readParams eof ts).Takes
    (fun run params => Laid run (params.map (Spanned.outline .param Param.parts))) := by
  induction hn : ts.length using Nat.strongRecOn generalizing ts with
  | _ n ih =>
    subst hn
    intro r hr
    rw [readParams] at hr
    obtain ⟨param, hparam, h⟩ := bind_eq_ok.mp hr
    obtain ⟨used, hts, hstands⟩ := readParam_takes ho param hparam
    split at h
    · next hcomma =>
      obtain ⟨m, more, hm, -⟩ := atPunct_eq_true hcomma
      obtain ⟨tail, htail, h⟩ := bind_eq_ok.mp h
      cases h
      have hlt := param.shorter
      have hcut : ts = (used ++ [m]) ++ param.rest.drop 1 := by simpa [hm] using hts
      obtain ⟨used', htail', hlaid⟩ := ih (param.rest.drop 1).length
        (by simp only [List.length_drop]; omega) (hcut ▸ ho).right rfl tail htail
      refine ⟨used ++ m :: used', ?_, hstands.laid.append (hlaid.behind [m])⟩
      rw [htail'] at hcut
      simpa using hcut
    · cases h
      exact ⟨used, hts, hstands.laid⟩

theorem readParamsEnd_takes (ho : InOrder ts) : (readParamsEnd eof ts).Takes
    (fun run params => Laid run (params.map (Spanned.outline .param Param.parts))) := by
  intro r hr
  unfold readParamsEnd at hr
  split at hr
  · obtain ⟨right, hright, h⟩ := bind_eq_ok.mp hr
    cases h
    obtain ⟨c, hc, -, -⟩ := readPunct_ok hright
    exact ⟨[c], hc, .nil _⟩
  · obtain ⟨params, hparams, h⟩ := bind_eq_ok.mp hr
    obtain ⟨right, hright, h⟩ := bind_eq_ok.mp h
    cases h
    obtain ⟨c, hc, -, -⟩ := readPunct_ok hright
    obtain ⟨used, hts, hlaid⟩ := readParams_takes ho params hparams
    exact ⟨used ++ [c], by simp [hts, hc], hlaid.before [c]⟩

theorem readMethodEnd_takes (ho : InOrder ts) : (readMethodEnd eof ts).Takes
    (fun run p => EndsOn run (p.1.map (Spanned.outline .param Param.parts)) p.2) := by
  intro r hr
  obtain ⟨left, hleft, h⟩ := bind_eq_ok.mp hr
  obtain ⟨params, hparams, h⟩ := bind_eq_ok.mp h
  obtain ⟨close, hclose, h⟩ := bind_eq_ok.mp h
  cases h
  obtain ⟨l, hl, -, -⟩ := readPunct_ok hleft
  obtain ⟨s, hs, -, hspan⟩ := readPunct_ok hclose
  have hcut : ts = [l] ++ left.rest := hl
  obtain ⟨used, hused, hlaid⟩ := readParamsEnd_takes (hcut ▸ ho).right params hparams
  refine ⟨([l] ++ used) ++ [s], by simp [hl, hused, hs], ?_⟩
  exact ⟨[l] ++ used, s, rfl, hlaid.behind [l], hspan⟩

theorem readInit_takes :
    (readInit eof ts).Takes (fun run l => StandsOn run (l.leaf .literal)) := by
  intro r hr
  cases ts with
  | nil => cases hr
  | cons l more =>
    cases hl : readLiteral l with
    | error d => simp [readInit, hl, bind, Except.bind] at hr
    | ok v =>
      simp only [readInit, hl, mapError_ok, ok_bind, pure_eq_ok] at hr
      cases hr
      have hliteral : (Construct.literal v).DerivedFrom [l] := ⟨l, rfl, hl⟩
      exact ⟨[l], rfl, .node hliteral (spans_singleton l) (.nil _)⟩

theorem readFieldEnd_takes : (readFieldEnd eof ts).Takes
    (fun run p => EndsOn run (p.1.toList.map (Spanned.leaf .literal)) p.2) := by
  intro r hr
  unfold readFieldEnd at hr
  split at hr
  · next he =>
    obtain ⟨e, more, rfl, -⟩ := atPunct_eq_true he
    obtain ⟨init, hinit, h⟩ := bind_eq_ok.mp hr
    obtain ⟨close, hclose, h⟩ := bind_eq_ok.mp h
    cases h
    obtain ⟨s, hs, -, hspan⟩ := readPunct_ok hclose
    obtain ⟨used, hused, hstands⟩ := readInit_takes init hinit
    have hmore : more = used ++ s :: close.rest := by simpa [hs] using hused
    refine ⟨([e] ++ used) ++ [s], by simp [hmore], ?_⟩
    exact ⟨[e] ++ used, s, rfl, hstands.laid.behind [e], hspan⟩
  · obtain ⟨close, hclose, h⟩ := bind_eq_ok.mp hr
    cases h
    obtain ⟨s, hs, -, hspan⟩ := readPunct_ok hclose
    exact ⟨[s], hs, [], s, rfl, .nil _, hspan⟩

theorem readMemberBody_takes (mods : List (Spanned Modifier)) (ho : InOrder ts) :
    (readMemberBody mods eof ts).Takes (fun run p =>
      ∃ os, p.1.parts = mods.map (Spanned.leaf .modifier) ++ os ∧ EndsOn run os p.2) := by
  intro r hr
  obtain ⟨ret, hret, h⟩ := bind_eq_ok.mp hr
  obtain ⟨name, hname, h⟩ := bind_eq_ok.mp h
  obtain ⟨rs, hts, hreturn⟩ := readReturn_takes ho ret hret
  obtain ⟨is, his, hi⟩ := readIdent_takes name hname
  have hcut : ts = (rs ++ is) ++ name.rest := by simp [hts, his]
  have hends {o : Outline} {xs : List Token} {os : List Outline} {close : Span}
      (ho : StandsOn rs o) (h : EndsOn xs os close) :
      EndsOn ((rs ++ is) ++ xs) (o :: name.value.leaf .name :: os) close := by
    obtain ⟨front, s, rfl, hlaid, hs⟩ := h
    exact ⟨(rs ++ is) ++ front, s, by simp, (ho.laid.append hi.laid).append hlaid, hs⟩
  have hrun {used rest : List Token} (hused : name.rest = used ++ rest) :
      ts = ((rs ++ is) ++ used) ++ rest := by
    rw [List.append_assoc (rs ++ is), ← hused]
    exact hcut
  dsimp only at h
  split at h
  · obtain ⟨tail, htail, h⟩ := bind_eq_ok.mp h
    cases h
    obtain ⟨used, hused, htail⟩ := readMethodEnd_takes (hcut ▸ ho).right tail htail
    exact ⟨(rs ++ is) ++ used, hrun hused, _, rfl, hends hreturn htail⟩
  · split at h
    · cases h
    · next t ht =>
      obtain ⟨tail, htail, h⟩ := bind_eq_ok.mp h
      cases h
      obtain ⟨used, hused, htail⟩ := readFieldEnd_takes tail htail
      exact ⟨(rs ++ is) ++ used, hrun hused, _, rfl, hends (hreturn.typeStandsOn ht) htail⟩

theorem readMember_takes (eof : Token) (ho : InOrder ts) : (readMember eof ts).Takes
    (fun run m => StandsOn run (m.outline .member Member.parts)) := by
  have hderived : (readMember eof ts).Takes (fun run m => MemberOf run (bare m.node.unplaced)) :=
    fun r hr => (readMember_gives_iff eof).mp ⟨r, hr, rfl, rfl⟩
  have hplaced : (readMember eof ts).Takes
      (fun run m => Spans run m.span ∧ Laid run m.node.parts) := by
    intro r hr
    unfold readMember at hr
    split at hr
    · cases hr
    · obtain ⟨body, hbody, h⟩ := bind_eq_ok.mp hr
      cases h
      obtain ⟨ms, hms, hmods⟩ := takeModifiers_laid ts
      obtain ⟨used, hused, os, hparts, hends⟩ :=
        readMemberBody_takes _ (hms ▸ ho).right body hbody
      have hcut : ts = (ms ++ used) ++ body.rest := by
        rw [List.append_assoc, ← hused]
        exact hms
      have hlaid := hmods.append hends.laid
      rw [← hparts] at hlaid
      exact ⟨ms ++ used, hcut, hends.spans eof ho hcut, hlaid⟩
  exact .standsOn .member Member.parts hderived hplaced

/-! ### Units -/

theorem skipPast_suffix (ts : List Token) : skipPast ts <:+ ts :=
  (List.drop_suffix 1 _).trans (List.dropWhile_suffix _)

/-- What an attempt passes over holds the part that was read, if any. -/
theorem attempt_laid {read : (ts : List Token) → Reading α ts} {outline : α → Outline}
    (h : (read ts).Takes (fun run a => StandsOn run (outline a))) :
    ∃ used, ts = used ++ (attempt read ts).2 ∧
      Laid used ((attempt read ts).1.toOption.toList.map outline) := by
  unfold attempt
  split
  · next r hr =>
    obtain ⟨used, hts, hstands⟩ := h r hr
    exact ⟨used, hts, hstands.laid⟩
  · next stop _ =>
    obtain ⟨used, hused⟩ := (skipPast_suffix (stop.rest ts)).trans (List.drop_suffix _ ts)
    exact ⟨used, hused.symm, .nil _⟩

theorem filterMap_toOption_cons (r : Except Diagnostic α) (rs : List (Except Diagnostic α)) :
    (r :: rs).filterMap Except.toOption = r.toOption.toList ++ rs.filterMap Except.toOption := by
  cases r <;> rfl

theorem tryImports_laid (eof : Token) (ho : InOrder ts) :
    ∃ used, ts = used ++ (tryImports eof ts).2 ∧
      Laid used
        (((tryImports eof ts).1.filterMap Except.toOption).map (Spanned.leaf .imports)) := by
  fun_induction tryImports eof ts with
  | case1 ts hc head tail ih =>
    obtain ⟨w, more, rfl, hw⟩ := atClause_eq_true hc
    obtain ⟨used, hts, hlaid⟩ := attempt_laid (readImport_takes eof ho hw)
    obtain ⟨used', hrest, hmore⟩ := ih (hts ▸ ho).right
    refine ⟨used ++ used', ?_, ?_⟩
    · rw [List.append_assoc, ← hrest]
      exact hts
    · rw [filterMap_toOption_cons, List.map_append]
      exact hlaid.append hmore
  | case2 ts hc => exact ⟨[], rfl, .nil _⟩

theorem tryMembers_laid (eof : Token) (ho : InOrder ts) :
    Laid ts (((tryMembers eof ts).filterMap Except.toOption).map
      (Spanned.outline .member Member.parts)) := by
  fun_induction tryMembers eof ts with
  | case1 => exact .nil _
  | case2 t more head ih =>
    obtain ⟨used, hts, hlaid⟩ := attempt_laid (readMember_takes eof ho)
    have hmore := ih (hts ▸ ho).right
    rw [filterMap_toOption_cons, List.map_append, hts]
    exact hlaid.append hmore

theorem importsAndMembers_laid (eof : Token) (ho : InOrder ts) :
    Laid ts (((tryImports eof ts).1.filterMap Except.toOption).map (Spanned.leaf .imports) ++
      ((tryMembers eof (tryImports eof ts).2).filterMap Except.toOption).map
        (Spanned.outline .member Member.parts)) := by
  obtain ⟨used, hts, himports⟩ := tryImports_laid eof ho
  have hmembers := tryMembers_laid eof (hts ▸ ho).right
  have hall := himports.append hmembers
  rwa [← hts] at hall

theorem unit_laid {tokens : List Token} (hcut : cutAtEnd tokens = (ts, eof)) (ho : InOrder ts) :
    Laid ts (Attempts.ofTokens tokens).unit.outlines := by
  cases hc : atClause .package ts with
  | false =>
    rw [ofTokens_no_package hcut hc]
    exact importsAndMembers_laid eof ho
  | true =>
    rw [ofTokens_package hcut hc]
    obtain ⟨w, more, rfl, hw⟩ := atClause_eq_true hc
    obtain ⟨used, hts, hpackage⟩ := attempt_laid (readPackage_takes eof ho hw)
    have hall := hpackage.append (importsAndMembers_laid eof (hts ▸ ho).right)
    rw [← hts] at hall
    exact hall

theorem parseAsking_complete {policy : Policy} {interrupt : Interrupt} {tokens : List Token}
    {u : CompilationUnit} {ds : List Diagnostic}
    (h : (parseAsking policy interrupt tokens).1 = .complete u ds) :
    u = (Attempts.ofTokens tokens).unit := by
  rw [parseAsking_eq_walk] at h
  split at h
  · cases h
  · cases h
  · cases h
    rfl

/-! ### The closing semicolon -/

variable {run : List Token}

/-- The run ends with a semicolon. -/
def Closed (run : List Token) : Prop := ∃ front s, run = front ++ [s] ∧ s.kind = .punct .semicolon

theorem PackageOf.ends {p : Spanned Name} (h : PackageOf run p) : Closed run := by
  cases h with
  | @mk w s ns _ _ _ hs => exact ⟨w :: ns, s, rfl, hs⟩

theorem ImportOf.ends {i : Spanned Import} (h : ImportOf run i) : Closed run := by
  cases h with
  | @single w s ns _ _ _ hs => exact ⟨w :: ns, s, rfl, hs⟩
  | @wildcard w d a s ns _ _ _ _ _ hs => exact ⟨w :: (ns ++ [d, a]), s, by simp, hs⟩

theorem MemberOf.ends {m : Spanned Member} (h : MemberOf run m) : Closed run := by
  cases h with
  | @mk ms _ _ _ _ hb =>
    cases hb with
    | @field ts is i s _ _ _ _ _ hs => exact ⟨ms ++ (ts ++ i :: is), s, by simp, hs⟩
    | @method rs ps i l r s _ _ _ _ _ _ _ hs =>
      exact ⟨ms ++ (rs ++ i :: l :: (ps ++ [r])), s, by simp, hs⟩

theorem CompilationUnit.closed_of_mem {u : CompilationUnit} {o : Outline} (ho : o ∈ u.outlines)
    (h : StandsOn run o) : Closed run := by
  simp only [outlines, List.mem_append, List.mem_map] at ho
  rcases ho with ⟨p, -, rfl⟩ | ⟨i, -, rfl⟩ | ⟨m, -, rfl⟩
  · exact PackageOf.ends h.derived
  · exact ImportOf.ends h.derived
  · exact MemberOf.ends h.derived

theorem Lexeme.mark_text {p : Punctuation} {cs : List Char} (h : Lexeme (.punct p) cs) :
    cs = [p.char] := by
  generalize hk : TokenKind.punct p = k at h
  cases h with
  | @word c cs _ _ => rcases wordKind_cases (c :: cs) with hw | ⟨word, hw⟩ <;> cases hk.trans hw
  | number hn _ => rcases hn.kind with hn | hn <;> cases hk.trans hn
  | string _ => cases hk
  | character _ => cases hk
  | mark q =>
    cases hk
    rfl

/-- From the start of one part of a text to the end of a later one. -/
theorem Span.Covers.join {text x y : String} {a b : Span} (ha : a.Covers text x)
    (hb : b.Covers text y) (hle : a.start ≤ b.start) :
    ∃ front, Span.Covers text ⟨a.start, b.stop⟩ (front ++ y) := by
  obtain ⟨before, after, htext, rfl⟩ := ha
  obtain ⟨before', after', htext', rfl⟩ := hb
  have hlists : before.toList ++ (x.toList ++ after.toList) =
      before'.toList ++ (y.toList ++ after'.toList) := by
    simpa using congrArg String.toList (htext.symm.trans htext')
  -- The part that starts first has less text in front of it.
  obtain ⟨gap, hgap⟩ : ∃ gap, before'.toList = before.toList ++ gap := by
    rcases List.append_eq_append_iff.mp hlists with ⟨gap, hgap, -⟩ | ⟨gap, hgap, -⟩
    · exact ⟨gap, hgap⟩
    · have hwidth := congrArg width hgap
      simp only [utf8ByteSize_eq_width, width_append] at hle hwidth
      have hnil : gap = [] := by
        by_contra hne
        have := width_pos hne
        omega
      exact ⟨[], by simp [hgap, hnil]⟩
  have hbefore : before' = before ++ String.ofList gap := by
    rw [← String.toList_inj, hgap]
    simp
  refine ⟨String.ofList gap, before, after', ?_, ?_⟩
  · rw [htext', hbefore]
    simp only [String.append_assoc]
  · simp only [hbefore, String.utf8ByteSize_append, Nat.add_assoc]

theorem covers_closed {source : String} {tokens : List Token} {s : Span}
    (hlex : lex source = .ok tokens) (hsub : run <:+: tokens) (hs : Spans run s)
    (hc : Closed run) : ∃ text, s.Covers source (text ++ ";") := by
  obtain ⟨front, last, rfl, hk⟩ := hc
  obtain ⟨first, last', hf, hl, rfl⟩ := hs
  obtain rfl : last = last' := by simpa using hl
  have hlast : last ∈ front ++ [last] := by simp
  have hlexeme := lex_lexeme hlex (hsub.subset hlast) (by simp [hk])
  rw [hk] at hlexeme
  have htext : last.text = ";" := by
    rw [← String.toList_inj, hlexeme.mark_text]
    rfl
  have hfirst := lex_covers hlex (hsub.subset (List.mem_of_head? hf))
  have hclose := lex_covers hlex (hsub.subset hlast)
  rw [htext] at hclose
  exact hfirst.join hclose (((lex_inOrder hlex).sublist hsub.sublist).first_le hf hlast)

/-- In the tree of a text, whatever the policy, each part that has a span stands on a run of tokens:
the grammar derives it from them, and the span goes from the start of the first one to the end of
the last one. So parts lie inside the parts that they belong to, parts that are side by side come
one behind the other, and the text of a package clause, an import or a member ends with its
semicolon. -/
theorem spans_exact {source : String} {tokens : List Token} {policy : Policy}
    {interrupt : Interrupt} {u : CompilationUnit} {ds : List Diagnostic}
    (hlex : lex source = .ok tokens)
    (hparse : (parseAsking policy interrupt tokens).1 = .complete u ds) :
    (∀ o ∈ Outline.nodesOf u.outlines,
      (∃ run, run <:+: tokens ∧ o.what.DerivedFrom run ∧ Spans run o.span) ∧
      (∀ p ∈ o.parts, o.span.start ≤ p.span.start ∧ p.span.stop ≤ o.span.stop) ∧
      o.parts.Pairwise (fun p q => p.span.Before q.span)) ∧
    u.outlines.Pairwise (fun p q => p.span.Before q.span) ∧
    ∀ o ∈ u.outlines, ∃ text, o.span.Covers source (text ++ ";") := by
  have ho : InOrder tokens := lex_inOrder hlex
  have hcut : cutAtEnd tokens = (tokens.takeWhile (fun t => !t.isEnd), (cutAtEnd tokens).2) := rfl
  have hlaid : Laid tokens u.outlines := by
    rw [parseAsking_complete hparse]
    have hunit := unit_laid hcut (ho.sublist (List.takeWhile_sublist _))
    have hall := hunit.before (tokens.dropWhile (fun t => !t.isEnd))
    rwa [List.takeWhile_append_dropWhile] at hall
  refine ⟨fun o hmem => ?_, hlaid.pairwise ho, fun o hmem => ?_⟩
  · obtain ⟨run, hsub, hstands⟩ := hlaid.exists_node hmem
    exact ⟨⟨run, hsub, hstands.derived, hstands.spans⟩,
      hstands.nested (ho.sublist hsub.sublist)⟩
  · obtain ⟨run, hsub, hstands⟩ := hlaid.exists_run hmem
    exact covers_closed hlex hsub hstands.spans (u.closed_of_mem hmem hstands)

theorem repeated_one {Part : List Token → α → Prop} {a : α} (h : Part run a) :
    Repeated Part run [a] := by
  simpa using Repeated.cons h .nil

/-- A field with a bounded wildcard over arrays, behind an import. -/
theorem spans_exact_bounded_array :
    let source := "import a.*;final b<?super c[]>d=null;"
    ∃ tokens u, lex source = .ok tokens ∧
      (parseAsking .failFast .never tokens).1 = .complete u [] ∧
      u.unplaced = ⟨none, [bare ⟨⟨["a"]⟩, true⟩], [bare (.field ⟨[bare .final],
        bare (.parameterized ⟨["b"]⟩ [.bounded .lower (.array (.reference ⟨["c"]⟩) default) default
          default]), bare "d", some (bare .null)⟩)]⟩ ∧
      u.outlines.Pairwise (fun p q => p.span.Before q.span) ∧
      ∀ o ∈ Outline.nodesOf u.outlines,
        ∃ run, run <:+: tokens ∧ o.what.DerivedFrom run ∧ Spans run o.span := by
  intro source
  let mark (p : Punctuation) (n : Nat) : Token := ⟨.punct p, p.spelling, ⟨n, n + 1⟩⟩
  let word (text : String) (n : Nat) : Token := ⟨.ident, text, ⟨n, n + 1⟩⟩
  let bound : Token := ⟨.keyword (.bound .lower), "super", ⟨20, 25⟩⟩
  let is : List Token := [⟨.keyword (.clause .imports), "import", ⟨0, 6⟩⟩, word "a" 7, mark .dot 8,
    mark .star 9, mark .semicolon 10]
  let fs : List Token := [⟨.keyword (.modifier .final), "final", ⟨11, 16⟩⟩]
  let cs : List Token := [word "c" 26, mark .leftBracket 27, mark .rightBracket 28]
  let bs : List Token := word "b" 17 :: mark .leftAngle 18 ::
    (mark .question 19 :: bound :: cs ++ [mark .rightAngle 29])
  let ms : List Token := bs ++ word "d" 30 ::
    ([mark .equals 31, ⟨.keyword (.constant .null), "null", ⟨32, 36⟩⟩] ++ [mark .semicolon 36])
  have hlex : lex source = .ok (is ++ (fs ++ ms) ++ [.endAt 37]) :=
    lex_of_toOption (by decide +kernel)
  have himport : ImportOf is (bare ⟨⟨["a"]⟩, true⟩) :=
    @ImportOf.wildcard _ _ _ _ [word "a" 7] _ rfl (.one rfl) rfl rfl rfl
  have hc : TypeOf cs (.array (.reference ⟨["c"]⟩) default) :=
    @TypeOf.dims [word "c" 26] _ _ 1 (.reference (.one rfl)) (.more rfl rfl .none)
  have hargs : ArgsOf (mark .question 19 :: bound :: cs) _ := .one (.bounded rfl rfl hc rfl)
  have hb : TypeOf bs _ := @TypeOf.dims bs [] _ 0
    (@BaseOf.parameterized [word "b" 17] _ _ _ _ _ (.one rfl) rfl hargs rfl) .none
  have hbody : BodyOf [bare .final] ms _ := .field hb rfl (.some rfl rfl) rfl
  have hfinal : ModifierOf fs (bare .final) := .mk rfl
  have hmember : MemberOf (fs ++ ms) _ := .mk (repeated_one hfinal) hbody
  have hunit := UnitOf.mk .none (repeated_one himport) (repeated_one hmember)
  obtain ⟨u, hclean, hu⟩ := ofTokens_complete (show cutAtEnd (is ++ (fs ++ ms) ++ [.endAt 37]) =
    (is ++ (fs ++ ms), .endAt 37) from rfl) hunit
  have hparse := parseAsking_failFast_iff.mpr hclean
  obtain ⟨hnodes, hpair, -⟩ := spans_exact hlex hparse
  exact ⟨_, u, hlex, hparse, hu, hpair, fun o ho => (hnodes o ho).1⟩

end DeclFront
