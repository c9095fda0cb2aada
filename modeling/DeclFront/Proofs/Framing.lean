import DeclFront.Proofs.UnitExactness

/-! A production does not look behind the first semicolon: what it reads up to there is the same
whatever follows, and if it fails, the semicolon is still in front of it. -/

namespace DeclFront

/-- Tokens of which the last is a semicolon, and no other one. -/
inductive Segment : List Token → Prop
  | last {m : Token} : m.kind = .punct .semicolon → Segment [m]
  | cons {t : Token} {ts : List Token} : t.kind ≠ .punct .semicolon → Segment ts → Segment (t :: ts)

/-- The second reading has some more tokens at the end and goes like the first one: they are what
it leaves behind the rest of the first, or still has behind the point where both of them fail. -/
inductive Reading.Framed {α : Type} {us vs : List Token} (leaves : List Token → Prop)
    (tail : List Token) : Reading α us → Reading α vs → Prop
  | ok {p : Parsed α us} {q : Parsed α vs} : q.value = p.value → q.rest = p.rest ++ tail →
      leaves p.rest → Framed leaves tail (.ok p) (.ok q)
  | error {s s' : Stop} : s'.diagnostic = s.diagnostic → s'.left = s.left + tail.length →
      0 < s.left → Framed leaves tail (.error s) (.error s')

variable {α β : Type} {eof t : Token} {ts us vs tail : List Token}

/-! ### Segments -/

theorem Segment.head (h : Segment us) : ∃ t ts, us = t :: ts := by
  cases h with
  | last _ => exact ⟨_, _, rfl⟩
  | cons _ _ => exact ⟨_, _, rfl⟩

theorem Segment.length_pos (h : Segment us) : 0 < us.length := by
  obtain ⟨t, ts, rfl⟩ := h.head
  simp

theorem Segment.behind (h : Segment (t :: ts)) (ht : t.kind ≠ .punct .semicolon) : Segment ts := by
  cases h with
  | last hm => exact absurd hm ht
  | cons _ hts => exact hts

theorem Segment.alone (h : Segment (t :: ts)) (ht : t.kind = .punct .semicolon) : ts = [] := by
  cases h with
  | last _ => rfl
  | cons hne _ => exact absurd ht hne

theorem Segment.current_eq (h : Segment us) (hvs : vs = us ++ tail) (eof : Token) :
    current eof vs = current eof us := by
  obtain ⟨t, ts, rfl⟩ := h.head
  rw [hvs]
  rfl

theorem Segment.atPunct_eq (h : Segment us) (hvs : vs = us ++ tail) (p : Punctuation) :
    atPunct p vs = atPunct p us := by
  obtain ⟨t, ts, rfl⟩ := h.head
  simp [hvs]

theorem Segment.drop_one (h : Segment us) (hvs : vs = us ++ tail)
    (hne : atPunct .semicolon us = false) :
    Segment (us.drop 1) ∧ vs.drop 1 = us.drop 1 ++ tail := by
  obtain ⟨t, ts, rfl⟩ := h.head
  exact ⟨h.behind (by simpa using hne), by simp [hvs]⟩

theorem atPunct_ne {p p' : Punctuation} (h : atPunct p us = true) (hne : p ≠ p') :
    atPunct p' us = false := by
  obtain ⟨m, more, rfl, hm⟩ := atPunct_eq_true h
  simpa [hm] using hne

/-! ### Readings one after the other -/

section Framed

variable {ts' us' : List Token} {leaves leaves' : List Token → Prop}

theorem Reading.Framed.bind {x : Reading α us} {y : Reading α vs} {f : Parsed α us → Reading β ts}
    {g : Parsed α vs → Reading β ts'} (h : x.Framed leaves tail y)
    (hfg : ∀ p q, q.value = p.value → q.rest = p.rest ++ tail → leaves p.rest →
      (f p).Framed leaves' tail (g q)) :
    Reading.Framed leaves' tail (x >>= f) (y >>= g) := by
  cases h with
  | ok hv hr hl => exact hfg _ _ hv hr hl
  | error hd hleft hpos => exact .error hd hleft hpos

theorem Reading.Framed.map {x : Reading α us} {y : Reading α vs} {f : Parsed α us → Parsed β ts}
    {g : Parsed α vs → Parsed β ts'} (h : x.Framed leaves tail y)
    (hfg : ∀ p q, q.value = p.value →
      (g q).value = (f p).value ∧ (f p).rest = p.rest ∧ (g q).rest = q.rest) :
    Reading.Framed leaves tail (x >>= fun p => pure (f p)) (y >>= fun q => pure (g q)) := by
  refine h.bind (fun p q hval hr hl => ?_)
  obtain ⟨hv, hf, hg⟩ := hfg p q hval
  exact .ok hv (by rw [hf, hg, hr]) (by rwa [hf])

theorem Segment.framed_error (h : Segment us) (hvs : vs = us ++ tail) (d : Diagnostic) :
    Reading.Framed leaves tail (.error (.before us d) : Reading α ts)
      (.error (.before vs d) : Reading α ts') :=
  .error rfl (by simp [Stop.before, hvs]) h.length_pos

end Framed

/-! ### Single tokens and names -/

theorem readKind_framed (h : Segment us) (hvs : vs = us ++ tail) {kind : TokenKind}
    {expected : String} (hk : kind ≠ .punct .semicolon) :
    (readKind kind expected eof us).Framed Segment tail (readKind kind expected eof vs) := by
  subst hvs
  obtain ⟨t, ts, rfl⟩ := h.head
  by_cases ht : t.kind = kind
  · rw [readKind_cons ht, List.cons_append, readKind_cons ht]
    exact .ok rfl rfl (h.behind (ht ▸ hk))
  · simp only [readKind, List.cons_append, ht, if_false]
    exact h.framed_error rfl _

theorem readIdent_framed (h : Segment us) (hvs : vs = us ++ tail) :
    (readIdent eof us).Framed Segment tail (readIdent eof vs) :=
  (readKind_framed h hvs (by decide)).map (fun _ _ hv => by simp [hv])

theorem readPunct_framed (h : Segment us) (hvs : vs = us ++ tail) {p : Punctuation}
    (hp : p ≠ .semicolon) : (readPunct p eof us).Framed Segment tail (readPunct p eof vs) :=
  (readKind_framed h hvs (by simpa using hp)).map (fun _ _ hv => by simp [hv])

theorem readSemicolon_framed (h : Segment us) (hvs : vs = us ++ tail) :
    (readPunct .semicolon eof us).Framed (· = []) tail (readPunct .semicolon eof vs) := by
  subst hvs
  obtain ⟨t, ts, rfl⟩ := h.head
  by_cases ht : t.kind = .punct .semicolon
  · simp only [readPunct, readKind_cons ht, List.cons_append]
    exact .ok rfl rfl (h.alone ht)
  · simp only [readPunct, readKind, List.cons_append, ht, if_false]
    exact h.framed_error rfl _

theorem dottedTail_framed (h : Segment us) (tail : List Token) :
    dottedTail (us ++ tail) = ((dottedTail us).1, (dottedTail us).2 ++ tail) ∧
      Segment (dottedTail us).2 := by
  fun_induction dottedTail us with
  | case1 d i rest hdi ih =>
    have hk : d.kind = .punct .dot ∧ i.kind = .ident := by simpa using hdi
    obtain ⟨heq, hseg⟩ := ih ((h.behind (by simp [hk])).behind (by simp [hk]))
    simp [dottedTail, hdi, heq, hseg]
  | case2 d i rest hdi => simp [dottedTail, hdi, h]
  | case3 us hus =>
    refine ⟨?_, h⟩
    cases h with
    | last hm => exact dottedTail_stop (continuesName_kind (by simp [hm]))
    | @cons t ts _ hts =>
      obtain ⟨t', ts', rfl⟩ := hts.head
      exact absurd rfl (hus t t' ts')

theorem readName_framed (h : Segment us) (hvs : vs = us ++ tail) :
    (readName eof us).Framed Segment tail (readName eof vs) := by
  refine (readIdent_framed h hvs).bind ?_
  intro p q hv hr hseg
  obtain ⟨heq, hseg'⟩ := dottedTail_framed hseg tail
  refine .ok ?_ ?_ hseg' <;> simp [hr, heq, hv]

/-! ### Types -/

theorem arraySuffix_framed (eof : Token) (h : Segment us) (b : Spanned TypeNode)
    (tail : List Token) :
    (∃ t rest, arraySuffix eof b us = .ok (t, rest) ∧
      arraySuffix eof b (us ++ tail) = .ok (t, rest ++ tail) ∧ Segment rest) ∨
    ∃ s s', arraySuffix eof b us = .error s ∧ arraySuffix eof b (us ++ tail) = .error s' ∧
      s'.diagnostic = s.diagnostic ∧ s'.left = s.left + tail.length ∧ 0 < s.left := by
  fun_induction arraySuffix eof b us with
  | case1 => cases h
  | case2 b l hl =>
    cases h with
    | last hm => simp [hm] at hl
    | cons _ hts => cases hts
  | case3 b l hl =>
    refine .inl ⟨b, [l], rfl, ?_, h⟩
    cases tail <;> simp [arraySuffix, hl]
  | case4 b l r rest hl hr ih =>
    simp only [isPunct_iff] at hl hr
    simpa [arraySuffix, hl, hr] using ih ((h.behind (by simp [hl])).behind (by simp [hr]))
  | case5 b l r rest hl hr =>
    refine .inr ⟨_, .before (r :: rest ++ tail) (.illegalToken r "']'"), rfl, ?_, rfl, ?_, ?_⟩
    · simp [arraySuffix, hl, hr]
    · simp [Stop.before, Nat.add_right_comm]
    · simp [Stop.before]
  | case6 b l r rest hl => exact .inl ⟨b, _, rfl, by simp [arraySuffix, hl], h⟩

def TypesFramedAt (eof : Token) (tail us : List Token) : Prop :=
  Segment us → (readType eof us).Framed Segment tail (readType eof (us ++ tail))

theorem readReference_framed (h : Segment us) (hvs : vs = us ++ tail)
    (ht : TypesFramedAt eof tail us) :
    (readReference eof us).Framed Segment tail (readReference eof vs) := by
  subst hvs
  rw [readReference, readReference]
  refine (ht h).bind ?_
  intro p q hv hr hseg
  rw [hv, h.current_eq rfl]
  split
  · exact hseg.framed_error hr _
  · exact .ok hv hr hseg

theorem boundAt?_append (h : Segment us) (tail : List Token) :
    boundAt? (us ++ tail) = boundAt? us := by
  obtain ⟨t, ts, rfl⟩ := h.head
  rfl

theorem readArg_framed (h : Segment us) (hvs : vs = us ++ tail)
    (ht : ∀ ts, ts.length ≤ us.length → TypesFramedAt eof tail ts) :
    (readArg eof us).Framed Segment tail (readArg eof vs) := by
  subst hvs
  obtain ⟨q, after, rfl⟩ := h.head
  simp only [readArg, List.cons_append]
  split
  · next hq =>
    have hafter := h.behind (by simp [isPunct_iff.mp hq])
    rw [boundAt?_append hafter]
    split
    · next b hb =>
      have hw : atPunct .semicolon after = false := by
        obtain ⟨w, more, rfl, hw⟩ := boundAt?_eq_some hb
        simp [hw]
      obtain ⟨hdrop, hdrop'⟩ := hafter.drop_one rfl hw
      exact (readReference_framed hdrop hdrop' (ht _ (by simp; omega))).map
        (fun _ _ hv => by simp [hv])
    · exact .ok rfl rfl hafter
  · exact (readReference_framed h rfl (ht _ (Nat.le_refl _))).map
      (fun _ _ hv => by simp [hv])

theorem readArgs_framed (h : Segment us) (hvs : vs = us ++ tail)
    (ht : ∀ ts, ts.length ≤ us.length → TypesFramedAt eof tail ts) :
    (readArgs eof us).Framed Segment tail (readArgs eof vs) := by
  induction hn : us.length using Nat.strongRecOn generalizing us vs with
  | _ n ih =>
    subst hn
    rw [readArgs, readArgs]
    refine (readArg_framed h hvs ht).bind ?_
    intro p q hv hr hseg
    have hlt := p.shorter
    rw [hseg.atPunct_eq hr]
    split
    · next hcomma =>
      obtain ⟨hdrop, hdrop'⟩ := hseg.drop_one hr (atPunct_ne hcomma (by decide))
      refine (ih _ ?_ hdrop hdrop' (fun ts hts => ht ts ?_) rfl).map
        (fun _ _ hv' => by simp [hv, hv'])
      · simp only [List.length_drop]; omega
      · simp only [List.length_drop] at hts; omega
    · exact .ok (by simp [hv]) hr hseg

theorem readBase_framed (h : Segment us) (hvs : vs = us ++ tail)
    (ht : ∀ ts, ts.length < us.length → TypesFramedAt eof tail ts) :
    (readBase eof us).Framed Segment tail (readBase eof vs) := by
  subst hvs
  rw [readBase, readBase, h.current_eq rfl]
  split
  · exact (readKind_framed h rfl (by simp)).map (fun _ _ hv => by simp [hv])
  · split
    · refine (readName_framed h rfl).bind ?_
      intro p q hv hr hseg
      have hlt := p.shorter
      rw [hseg.atPunct_eq hr]
      split
      · next hl =>
        obtain ⟨hdrop, hdrop'⟩ := hseg.drop_one hr (atPunct_ne hl (by decide))
        refine (readArgs_framed hdrop hdrop' (fun ts hts => ht ts ?_)).bind ?_
        · simp only [List.length_drop] at hts; omega
        intro args args' hargs hr' hseg'
        exact (readPunct_framed hseg' hr' (by decide)).map
          (fun _ _ hv' => by simp [hv, hargs, hv'])
      · exact .ok (by simp [hv]) hr hseg
    · exact h.framed_error rfl _

theorem readType_error {stop : Stop} (hb : readBase eof ts = .error stop) :
    readType eof ts = .error stop := by
  rw [readType, hb]

theorem readType_suffix_error {stop : Stop} {base : Parsed (Spanned TypeNode) ts}
    (hb : readBase eof ts = .ok base) (hs : arraySuffix eof base.value base.rest = .error stop) :
    readType eof ts = .error stop := by
  rw [readType]
  simp only [hb]
  split
  · next hs' =>
    cases hs.symm.trans hs'
    rfl
  · next hs' => cases hs.symm.trans hs'

theorem readType_suffix_ok {base : Parsed (Spanned TypeNode) ts} {b : Spanned TypeNode}
    {rest : List Token} (hb : readBase eof ts = .ok base)
    (hs : arraySuffix eof base.value base.rest = .ok (b, rest)) :
    ∃ r, readType eof ts = .ok r ∧ r.value = b ∧ r.rest = rest := by
  rw [readType]
  simp only [hb]
  split
  · next hs' => cases hs.symm.trans hs'
  · next hs' =>
    cases hs.symm.trans hs'
    exact ⟨_, rfl, rfl, rfl⟩

theorem typesFramedAt (eof : Token) (tail us : List Token) : TypesFramedAt eof tail us := by
  -- The parts of a type are shorter than the type, so the induction is on the number of tokens.
  induction hn : us.length using Nat.strongRecOn generalizing us with
  | _ n ih =>
    subst hn
    intro h
    have hbase : (readBase eof us).Framed Segment tail (readBase eof (us ++ tail)) :=
      readBase_framed h rfl (fun ts hts => ih ts.length hts ts rfl)
    generalize hx : readBase eof us = x at hbase
    generalize hy : readBase eof (us ++ tail) = y at hbase
    cases hbase with
    | error hd hleft hpos =>
      rw [readType_error hx, readType_error hy]
      exact .error hd hleft hpos
    | @ok p q hv hr hseg =>
      obtain ⟨t, rest, hs, hs', hrest⟩ | ⟨s, s', hs, hs', hd, hleft, hpos⟩ :=
        arraySuffix_framed eof hseg p.value tail
      · rw [← hv, ← hr] at hs'
        obtain ⟨r, hr, rfl, rfl⟩ := readType_suffix_ok hx hs
        obtain ⟨r', hr', hv', hrest'⟩ := readType_suffix_ok hy hs'
        rw [hr, hr']
        exact .ok hv' hrest' hrest
      · rw [← hv, ← hr] at hs'
        rw [readType_suffix_error hx hs, readType_suffix_error hy hs']
        exact .error hd hleft hpos

/-- A type that cannot be read fails in front of its first token. -/
theorem resolveType_framed (h : Segment us) (hvs : vs = us ++ tail) :
    (resolveType eof us).Framed Segment tail (resolveType eof vs) := by
  subst hvs
  have ht := typesFramedAt eof tail us h
  unfold resolveType
  generalize readType eof us = x at ht ⊢
  generalize readType eof (us ++ tail) = y at ht ⊢
  cases ht with
  | ok hv hr hseg => exact .ok hv hr hseg
  | error hd _ _ =>
    simp only [mapError_error, hd]
    exact h.framed_error rfl _

/-! ### Declarations -/

theorem readPackage_framed (h : Segment (t :: ts)) (ht : t.kind ≠ .punct .semicolon)
    (tail : List Token) :
    (readPackage eof (t :: ts)).Framed (· = []) tail (readPackage eof (t :: ts ++ tail)) := by
  refine (readName_framed (h.behind ht) rfl).bind ?_
  intro name name' hv hr hseg
  exact (readSemicolon_framed hseg hr).map (fun _ _ hv' => by simp [hv, hv'])

theorem readImportEnd_framed (h : Segment us) (hvs : vs = us ++ tail) :
    (readImportEnd eof us).Framed (· = []) tail (readImportEnd eof vs) := by
  unfold readImportEnd
  rw [h.atPunct_eq hvs]
  split
  · next hdot =>
    obtain ⟨hdrop, hdrop'⟩ := h.drop_one hvs (atPunct_ne hdot (by decide))
    refine (readPunct_framed hdrop hdrop' (by decide)).bind ?_
    intro star star' _ hr hseg
    exact (readSemicolon_framed hseg hr).map (fun _ _ hv => by simp [hv])
  · exact (readSemicolon_framed h hvs).map (fun _ _ hv => by simp [hv])

theorem readImport_framed (h : Segment (t :: ts)) (ht : t.kind ≠ .punct .semicolon)
    (tail : List Token) :
    (readImport eof (t :: ts)).Framed (· = []) tail (readImport eof (t :: ts ++ tail)) := by
  refine (readName_framed (h.behind ht) rfl).bind ?_
  intro path path' hv hr hseg
  exact (readImportEnd_framed hseg hr).map (fun _ _ hv' => by simp [hv, hv'])

theorem takeModifiers_framed (h : Segment us) (tail : List Token) :
    takeModifiers (us ++ tail) = ((takeModifiers us).1, (takeModifiers us).2 ++ tail) ∧
      Segment (takeModifiers us).2 := by
  fun_induction takeModifiers us with
  | case1 => cases h
  | case2 t rest m hm ih =>
    have ht : t.kind ≠ .punct .semicolon := by
      intro hk
      simp [hk, TokenKind.modifier?] at hm
    obtain ⟨heq, hseg⟩ := ih (h.behind ht)
    simp [takeModifiers, hm, heq, hseg]
  | case3 t rest hm => simp [takeModifiers, hm, h]

theorem readReturn_framed (h : Segment us) (hvs : vs = us ++ tail) :
    (readReturn eof us).Framed Segment tail (readReturn eof vs) := by
  unfold readReturn
  rw [h.current_eq hvs]
  split
  · exact (readKind_framed h hvs (by simp)).map (fun _ _ hv => by simp [hv])
  · split
    · exact (resolveType_framed h hvs).map (fun _ _ hv => by simp [hv])
    · exact h.framed_error hvs _

theorem readTypedName_framed (h : Segment us) (hvs : vs = us ++ tail) :
    (readTypedName eof us).Framed Segment tail (readTypedName eof vs) := by
  unfold readTypedName
  rw [h.current_eq hvs]
  split
  · exact h.framed_error hvs _
  · refine (resolveType_framed h hvs).bind ?_
    intro type type' hv hr hseg
    exact (readIdent_framed hseg hr).map (fun _ _ hv' => by simp [hv, hv'])

theorem readParam_framed (h : Segment us) (hvs : vs = us ++ tail) :
    (readParam eof us).Framed Segment tail (readParam eof vs) := by
  unfold readParam
  rw [h.current_eq hvs]
  split
  · next hk =>
    have hfinal : atPunct .semicolon us = false := by
      obtain ⟨t, ts, rfl⟩ := h.head
      simpa using hk ▸ by simp
    obtain ⟨hdrop, hdrop'⟩ := h.drop_one hvs hfinal
    exact (readTypedName_framed hdrop hdrop').map (fun _ _ hv => by simp [hv])
  · exact (readTypedName_framed h hvs).map (fun _ _ hv => by simp [hv])

theorem readParams_framed (h : Segment us) (hvs : vs = us ++ tail) :
    (readParams eof us).Framed Segment tail (readParams eof vs) := by
  induction hn : us.length using Nat.strongRecOn generalizing us vs with
  | _ n ih =>
    subst hn
    rw [readParams, readParams]
    refine (readParam_framed h hvs).bind ?_
    intro p q hv hr hseg
    have hlt := p.shorter
    rw [hseg.atPunct_eq hr]
    split
    · next hcomma =>
      obtain ⟨hdrop, hdrop'⟩ := hseg.drop_one hr (atPunct_ne hcomma (by decide))
      refine (ih _ ?_ hdrop hdrop' rfl).map
        (fun _ _ hv' => by simp [hv, hv'])
      simp only [List.length_drop]
      omega
    · exact .ok (by simp [hv]) hr hseg

theorem readParamsEnd_framed (h : Segment us) (hvs : vs = us ++ tail) :
    (readParamsEnd eof us).Framed Segment tail (readParamsEnd eof vs) := by
  unfold readParamsEnd
  rw [h.atPunct_eq hvs]
  split
  · exact (readPunct_framed h hvs (by decide)).map (fun _ _ _ => by simp)
  · refine (readParams_framed h hvs).bind ?_
    intro params params' hv hr hseg
    exact (readPunct_framed hseg hr (by decide)).map (fun _ _ _ => by simp [hv])

theorem readMethodEnd_framed (h : Segment us) (hvs : vs = us ++ tail) :
    (readMethodEnd eof us).Framed (· = []) tail (readMethodEnd eof vs) := by
  refine (readPunct_framed h hvs (by decide)).bind ?_
  intro left left' _ hr hseg
  refine (readParamsEnd_framed hseg hr).bind ?_
  intro params params' hv hr' hseg'
  exact (readSemicolon_framed hseg' hr').map (fun _ _ hv' => by simp [hv, hv'])

theorem readLiteral_semicolon {l : Literal} (h : readLiteral t = .ok l) :
    t.kind ≠ .punct .semicolon := by
  intro hk
  simp [readLiteral, hk] at h

theorem readInit_framed (h : Segment us) (hvs : vs = us ++ tail) :
    (readInit eof us).Framed Segment tail (readInit eof vs) := by
  subst hvs
  obtain ⟨t, ts, rfl⟩ := h.head
  simp only [readInit, List.cons_append]
  cases hl : readLiteral t with
  | error d => exact h.framed_error rfl d
  | ok l => exact .ok rfl rfl (h.behind (readLiteral_semicolon hl))

theorem readFieldEnd_framed (h : Segment us) (hvs : vs = us ++ tail) :
    (readFieldEnd eof us).Framed (· = []) tail (readFieldEnd eof vs) := by
  unfold readFieldEnd
  rw [h.atPunct_eq hvs]
  split
  · next heq =>
    obtain ⟨hdrop, hdrop'⟩ := h.drop_one hvs (atPunct_ne heq (by decide))
    refine (readInit_framed hdrop hdrop').bind ?_
    intro init init' hv hr hseg
    exact (readSemicolon_framed hseg hr).map (fun _ _ hv' => by simp [hv, hv'])
  · exact (readSemicolon_framed h hvs).map (fun _ _ hv => by simp [hv])

theorem readMemberBody_framed (mods : List (Spanned Modifier)) (h : Segment us)
    (hvs : vs = us ++ tail) :
    (readMemberBody mods eof us).Framed (· = []) tail (readMemberBody mods eof vs) := by
  refine (readReturn_framed h hvs).bind ?_
  intro returns returns' hret hr hseg
  refine (readIdent_framed hseg hr).bind ?_
  intro name name' hname hr' hseg'
  simp only [hseg'.atPunct_eq hr', hret]
  split
  · refine (readMethodEnd_framed hseg' hr').map ?_
    intro p q hv
    have hend : ((returns'.andThen name').andThen q).value =
      ((returns.andThen name).andThen p).value := hv
    exact ⟨by simp [hname, hend], rfl, rfl⟩
  · split
    · rw [hseg'.current_eq hr']
      exact hseg'.framed_error hr' _
    · refine (readFieldEnd_framed hseg' hr').map ?_
      intro p q hv
      have hend : ((returns'.andThen name').andThen q).value =
        ((returns.andThen name).andThen p).value := hv
      exact ⟨by simp [hname, hend], rfl, rfl⟩

theorem readMember_framed (h : Segment us) (tail : List Token) :
    (readMember eof us).Framed (· = []) tail (readMember eof (us ++ tail)) := by
  unfold readMember
  rw [h.current_eq rfl]
  split
  · exact h.framed_error rfl _
  · obtain ⟨heq, hseg⟩ := takeModifiers_framed h tail
    refine Reading.Framed.map ?_ (fun _ _ hv => by simp [hv])
    rw [heq]
    exact readMemberBody_framed _ hseg rfl

end DeclFront
