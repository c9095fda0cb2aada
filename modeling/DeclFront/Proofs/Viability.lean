import DeclFront.Proofs.FirstFault
import DeclFront.Proofs.Resolution
import DeclFront.Proofs.Respacing

/-! A fault is reported no later than at the first token that cannot stand where it stands. Whatever
a reader fails at, the tokens in front of the one that it blames are the start of something that the
grammar derives. The readers are gone through one by one: what was read before the fault is derived,
and the part in which the fault lies can be completed. -/

namespace DeclFront

variable {α β γ : Type} {eof t : Token} {ts us : List Token} {d : Diagnostic} {stop : Stop}

/-! ### Completions -/

/-- The tokens in front of the one that a diagnostic points at can be completed. -/
def Completable (R : List Token → β → Prop) (eof : Token) (ts : List Token) (d : Diagnostic) :
    Prop :=
  ∃ done rest more b, ts = done ++ rest ∧ d.span = (current eof rest).span ∧ R (done ++ more) b

/-- If the reading fails, then at tokens that can be completed up to there. -/
def Reading.Viable (R : List Token → β → Prop) (eof : Token) (ts : List Token)
    (x : Reading α us) : Prop :=
  ∀ stop, x = .error stop → Completable R eof ts stop.diagnostic

section Completions

variable {R : List Token → β → Prop} {R' : List Token → γ → Prop} {more : List Token} {b : β}

theorem completable_here (used : List Token) (hts : ts = used ++ us)
    (hs : d.span = (current eof us).span) (hR : R (used ++ more) b) : Completable R eof ts d :=
  ⟨used, us, more, b, hts, hs, hR⟩

theorem Completable.behind (h : Completable R eof us d) (used : List Token) (hts : ts = used ++ us)
    (hR : ∀ xs b, R xs b → ∃ tail c, R' (used ++ (xs ++ tail)) c) : Completable R' eof ts d := by
  obtain ⟨done, rest, more, b, rfl, hs, hb⟩ := h
  obtain ⟨tail, c, hc⟩ := hR _ b hb
  refine ⟨used ++ done, rest, more ++ tail, c, by simpa using hts, hs, ?_⟩
  simpa only [List.append_assoc] using hc

theorem Completable.imp (h : Completable R eof ts d)
    (hR : ∀ xs b, R xs b → ∃ tail c, R' (xs ++ tail) c) : Completable R' eof ts d :=
  h.behind [] rfl hR

theorem Completable.last (h : Completable R eof us d) (used : List Token) (hts : ts = used ++ us)
    (hR : ∀ xs b, R xs b → ∃ c, R' (used ++ xs) c) : Completable R' eof ts d := by
  refine h.behind used hts (fun xs b hb => ?_)
  obtain ⟨c, hc⟩ := hR xs b hb
  exact ⟨[], c, by simpa using hc⟩

variable {vs ws : List Token}

theorem Reading.Viable.behind {x : Reading α vs} (h : x.Viable R eof us) (used : List Token)
    (hts : ts = used ++ us)
    (hR : ∀ xs b, R xs b → ∃ tail c, R' (used ++ (xs ++ tail)) c) : x.Viable R' eof ts :=
  fun stop hstop => (h stop hstop).behind used hts hR

theorem Reading.Viable.last {x : Reading α vs} (h : x.Viable R eof us) (used : List Token)
    (hts : ts = used ++ us)
    (hR : ∀ xs b, R xs b → ∃ c, R' (used ++ xs) c) : x.Viable R' eof ts :=
  fun stop hstop => (h stop hstop).last used hts hR

theorem Reading.Viable.imp {x : Reading α vs} (h : x.Viable R eof us)
    (hR : ∀ xs b, R xs b → ∃ tail c, R' (xs ++ tail) c) : x.Viable R' eof us :=
  fun stop hstop => (h stop hstop).imp hR

theorem Reading.Viable.bind {x : Reading α vs} {f : Parsed α vs → Reading γ ws}
    (h : x.Viable R eof us) (hf : ∀ p, x = .ok p → (f p).Viable R eof us) :
    Reading.Viable R eof us (x >>= f) := by
  intro stop hstop
  cases x with
  | error s =>
    cases hstop
    exact h _ rfl
  | ok p => exact hf p rfl stop hstop

theorem viable_ok {p : Parsed α vs} : Reading.Viable R eof us (.ok p) := by
  intro stop hstop
  cases hstop

theorem Reading.Viable.map {x : Reading α vs} {f : Parsed α vs → Parsed γ ws}
    (h : x.Viable R eof us) : Reading.Viable R eof us (x >>= fun p => pure (f p)) :=
  h.bind (fun _ _ => viable_ok)

theorem viable_error (h : Completable R eof us stop.diagnostic) :
    Reading.Viable R eof us (.error stop : Reading α vs) := by
  intro s hs
  cases hs
  exact h

/-! ### Single tokens -/

theorem readKind_viable (used : List Token) {kind : TokenKind} {expected : String}
    (hts : ts = used ++ us) (hR : R (used ++ more) b) :
    (readKind kind expected eof us).Viable R eof ts := by
  cases us with
  | nil => exact viable_error (completable_here used hts rfl hR)
  | cons t us =>
    by_cases hk : t.kind = kind
    · rw [readKind_cons hk]
      exact viable_ok
    · rw [readKind, if_neg hk]
      exact viable_error (completable_here used hts rfl hR)

theorem readPunct_viable (used : List Token) {p : Punctuation} (hts : ts = used ++ us)
    (hR : R (used ++ more) b) : (readPunct p eof us).Viable R eof ts :=
  (readKind_viable used hts hR).map

theorem readIdent_viable (used : List Token) (hts : ts = used ++ us) (hR : R (used ++ more) b) :
    (readIdent eof us).Viable R eof ts :=
  (readKind_viable used hts hR).map

end Completions

/-! ### Tokens to complete with -/

def someMark (p : Punctuation) : Token := ⟨.punct p, p.spelling, default⟩

def someIdent : Token := ⟨.ident, "a", default⟩

theorem someName : NameOf [someIdent] ⟨["a"]⟩ := .one rfl

theorem someType : TypeOf [someIdent] (.reference ⟨["a"]⟩) :=
  @TypeOf.dims [someIdent] [] _ 0 (.reference someName) .none

theorem readName_viable (eof : Token) (ts : List Token) :
    (readName eof ts).Viable NameOf eof ts :=
  (readIdent_viable [] rfl someName).map

/-! ### Types -/

/-- A type that is no bare primitive. -/
def ReferenceOf (ts : List Token) (t : TypeNode) : Prop := TypeOf ts t ∧ t.isPrimitive = false

theorem arraySuffix_error {b : Spanned TypeNode} (h : arraySuffix eof b ts = .error stop) :
    ∃ ds l rest n, ts = ds ++ l :: rest ∧ DimsOf ds n ∧ l.kind = .punct .leftBracket ∧
      stop.diagnostic.span = (current eof rest).span := by
  fun_induction arraySuffix eof b ts with
  | case1 | case3 | case6 => cases h
  | case2 b l hl =>
    cases h
    exact ⟨[], l, [], 0, rfl, .none, isPunct_iff.mp hl, rfl⟩
  | case4 b l r rest hl hr ih =>
    obtain ⟨ds, m, more, n, rfl, hd, hm, hs⟩ := ih h
    have hdims := DimsOf.more (isPunct_iff.mp hl) (isPunct_iff.mp hr) hd
    exact ⟨l :: r :: ds, m, more, n + 1, rfl, hdims, hm, hs⟩
  | case5 b l r rest hl hr =>
    cases h
    exact ⟨[], l, r :: rest, 0, rfl, .none, isPunct_iff.mp hl, rfl⟩

theorem readReference_viable (ht : (readType eof ts).Viable TypeOf eof ts) :
    (readReference eof ts).Viable ReferenceOf eof ts := by
  -- Dimensions make a reference type of every type.
  have harray : ∀ xs t, TypeOf xs t → ∃ tail u, ReferenceOf (xs ++ tail) u := by
    intro xs t hxs
    exact ⟨[someMark .leftBracket, someMark .rightBracket], _, hxs.array rfl rfl, rfl⟩
  rw [readReference]
  refine (ht.imp harray).bind (fun p _ => ?_)
  split
  · exact viable_error (completable_here (R := ReferenceOf) [] rfl rfl ⟨someType, rfl⟩)
  · exact viable_ok

theorem readArg_viable
    (ht : ∀ us, us.length ≤ ts.length → (readType eof us).Viable TypeOf eof us) :
    (readArg eof ts).Viable ArgOf eof ts := by
  have htype : (readReference eof ts).Viable ArgOf eof ts :=
    (readReference_viable (ht ts (Nat.le_refl _))).last [] rfl
      (fun _ _ hxs => ⟨_, .type hxs.1 hxs.2⟩)
  unfold readArg
  split
  · exact htype.map
  · next q after =>
    split
    · next hq =>
      split
      · next b hb =>
        obtain ⟨w, more, rfl, hw⟩ := boundAt?_eq_some hb
        have hbound := readReference_viable (ht more (by simp only [List.length_cons]; omega))
        exact (hbound.last [q, w] rfl
          (fun _ _ hxs => ⟨_, .bounded (isPunct_iff.mp hq) hw hxs.1 hxs.2⟩)).map
      · exact viable_ok
    · exact htype.map

theorem readArgs_viable
    (ht : ∀ us, us.length ≤ ts.length → (readType eof us).Viable TypeOf eof us) :
    (readArgs eof ts).Viable ArgsOf eof ts := by
  induction hn : ts.length using Nat.strongRecOn generalizing ts with
  | _ n ih =>
    subst hn
    rw [readArgs]
    refine ((readArg_viable ht).last [] rfl (fun _ _ hxs => ⟨_, .one hxs⟩)).bind
      (fun arg harg => ?_)
    have hlt := arg.shorter
    split
    · next hcomma =>
      obtain ⟨used, hts, ha⟩ := readArg_sound (fun us _ => typesExactAt eof us)
        ⟨arg, harg, rfl, rfl⟩
      obtain ⟨m, more, hm, hk⟩ := atPunct_eq_true hcomma
      have hcut : ts = (used ++ [m]) ++ arg.rest.drop 1 := by simpa [hm] using hts
      have hdrop : (arg.rest.drop 1).length < ts.length := by
        simp only [List.length_drop]
        omega
      have hrest := ih _ hdrop (fun us hle => ht us (Nat.le_of_lt (Nat.lt_of_le_of_lt hle hdrop)))
        rfl
      exact (hrest.last _ hcut (fun _ _ hxs => ⟨_, by simpa using ArgsOf.more ha hk hxs⟩)).map
    · exact viable_ok

theorem readBase_viable
    (ht : ∀ us, us.length < ts.length → (readType eof us).Viable TypeOf eof us) :
    (readBase eof ts).Viable BaseOf eof ts := by
  have hsome : BaseOf ([] ++ [someIdent]) (.reference ⟨["a"]⟩) := .reference someName
  rw [readBase]
  split
  · exact (readKind_viable [] rfl hsome).map
  · split
    · have hname : (readName eof ts).Viable BaseOf eof ts :=
        (readName_viable eof ts).last [] rfl (fun _ _ hxs => ⟨_, .reference hxs⟩)
      refine hname.bind (fun name hname => ?_)
      have hlt := name.shorter
      split
      · next hl =>
        obtain ⟨ns, hts, hn, -⟩ := (readName_gives_iff eof).mp ⟨name, hname, rfl, rfl⟩
        obtain ⟨l, more, hm, hk⟩ := atPunct_eq_true hl
        have hopen : ts = (ns ++ [l]) ++ name.rest.drop 1 := by simpa [hm] using hts
        have hclosed {as : List Token} {args : List TypeArg} (ha : ArgsOf as args) :
            BaseOf (ns ++ [l] ++ (as ++ [someMark .rightAngle]))
              (.parameterized name.value.node args) := by
          simpa using BaseOf.parameterized hn hk ha rfl
        have hargs : (readArgs eof (name.rest.drop 1)).Viable ArgsOf eof (name.rest.drop 1) :=
          readArgs_viable (fun us hle => ht us (by simp only [List.length_drop] at hle; omega))
        refine (hargs.behind _ hopen (fun _ _ hxs => ⟨_, _, hclosed hxs⟩)).bind
          (fun args hread => ?_)
        obtain ⟨as, has, ha⟩ := readArgs_sound (fun us _ => typesExactAt eof us)
          ⟨args, hread, rfl, rfl⟩
        have hend : ts = (ns ++ [l] ++ as) ++ args.rest := by
          rw [List.append_assoc (ns ++ [l]), ← has]
          exact hopen
        exact (readPunct_viable (R := BaseOf) _ hend (by simpa using hclosed ha)).map
      · exact viable_ok
    · exact viable_error (completable_here [] rfl rfl hsome)

theorem readType_viable (eof : Token) (ts : List Token) :
    (readType eof ts).Viable TypeOf eof ts := by
  -- Type arguments are read from shorter lists, so the induction is on the length.
  induction hn : ts.length using Nat.strongRecOn generalizing ts with
  | _ n ih =>
    subst hn
    have hbase : (readBase eof ts).Viable TypeOf eof ts :=
      (readBase_viable (fun us hlt => ih us.length hlt us rfl)).imp
        (fun _ b hxs => ⟨[], b, .dims (n := 0) hxs .none⟩)
    intro stop hstop
    cases hb : readBase eof ts with
    | error s =>
      rw [readType_error hb] at hstop
      cases hstop
      exact hbase _ hb
    | ok base =>
      obtain ⟨bs, hts, hbs, -⟩ := readBase_sound (fun us _ => typesExactAt eof us)
        ⟨base, hb, rfl, rfl⟩
      cases hs : arraySuffix eof base.value base.rest with
      | ok r =>
        obtain ⟨p, hread, -, -⟩ := readType_suffix_ok (b := r.1) hb hs
        cases hread.symm.trans hstop
      | error s =>
        rw [readType_suffix_error hb hs] at hstop
        cases hstop
        obtain ⟨ds, l, rest, n, hds, hd, hl, hspan⟩ := arraySuffix_error hs
        have htype : TypeOf ((bs ++ (ds ++ [l])) ++ [someMark .rightBracket])
            (base.value.unplacedNode.wrapped (n + 1)) := by
          simpa using TypeOf.dims hbs (hd.snoc hl (r := someMark .rightBracket) rfl)
        exact completable_here _ (by simp [hts, hds]) hspan htype

theorem resolveType_viable (eof : Token) (ts : List Token) :
    (resolveType eof ts).Viable TypeOf eof ts := by
  intro stop hstop
  unfold resolveType at hstop
  cases hr : readType eof ts with
  | ok r => simp [hr] at hstop
  | error s =>
    rw [hr] at hstop
    cases hstop
    exact readType_viable eof ts s hr

/-! ### Declarations -/

variable {w : Token}

theorem readPackage_viable (hw : w.kind = .keyword (.clause .package)) :
    (readPackage eof (w :: ts)).Viable PackageOf eof (w :: ts) := by
  have hclosed {ns : List Token} {n : Name} (hn : NameOf ns n) :
      PackageOf (w :: ns ++ [someMark .semicolon]) (bare n) := .mk hw hn rfl
  rw [readPackage]
  refine ((readName_viable eof ts).behind [w] rfl
    (fun _ _ hxs => ⟨_, _, hclosed hxs⟩)).bind (fun name hread => ?_)
  obtain ⟨ns, hts, hn, -⟩ := (readName_gives_iff eof).mp ⟨name, hread, rfl, rfl⟩
  exact (readPunct_viable _ (congrArg (w :: ·) hts) (hclosed hn)).map

theorem readImport_viable (hw : w.kind = .keyword (.clause .imports)) :
    (readImport eof (w :: ts)).Viable ImportOf eof (w :: ts) := by
  have hclosed {ns : List Token} {n : Name} (hn : NameOf ns n) :
      ImportOf (w :: ns ++ [someMark .semicolon]) (bare ⟨n, false⟩) := .single hw hn rfl
  rw [readImport]
  refine ((readName_viable eof ts).behind [w] rfl
    (fun _ _ hxs => ⟨_, _, hclosed hxs⟩)).bind (fun path hread => ?_)
  obtain ⟨ns, hts, hn, -⟩ := (readName_gives_iff eof).mp ⟨path, hread, rfl, rfl⟩
  refine Reading.Viable.map ?_
  unfold readImportEnd
  split
  · next hdot =>
    obtain ⟨m, more, hm, hd⟩ := atPunct_eq_true hdot
    have hstarred {a : Token} (ha : a.kind = .punct .star) :
        ImportOf (w :: ns ++ [m, a, someMark .semicolon]) (bare ⟨path.value.node, true⟩) :=
      .wildcard hw hn hd ha rfl
    have hcut : w :: ts = (w :: ns ++ [m]) ++ path.rest.drop 1 := by simpa [hm] using hts
    have hdot : ImportOf ((w :: ns ++ [m]) ++ [someMark .star, someMark .semicolon])
        (bare ⟨path.value.node, true⟩) := by simpa using hstarred (a := someMark .star) rfl
    refine (readPunct_viable _ hcut hdot).bind (fun star hstar => ?_)
    obtain ⟨a, ha, hk, -⟩ := readPunct_ok hstar
    have hend : w :: ts = (w :: ns ++ [m, a]) ++ star.rest := by simpa [ha] using hcut
    have hstar : ImportOf ((w :: ns ++ [m, a]) ++ [someMark .semicolon])
        (bare ⟨path.value.node, true⟩) := by simpa using hstarred hk
    exact (readPunct_viable _ hend hstar).map
  · exact (readPunct_viable _ (congrArg (w :: ·) hts) (hclosed hn)).map

theorem readReturn_viable (eof : Token) (ts : List Token) :
    (readReturn eof ts).Viable ReturnOf eof ts := by
  have hsome : ReturnOf ([] ++ [someIdent]) (.type (.reference ⟨["a"]⟩)) := .type someType
  unfold readReturn
  split
  · exact (readKind_viable [] rfl hsome).map
  · split
    · exact ((resolveType_viable eof ts).last [] rfl
        (fun _ _ hxs => ⟨_, .type hxs⟩)).map
    · exact viable_error (completable_here [] rfl rfl hsome)

/-- A type and a name behind it. -/
def TypedNameOf (ts : List Token) (p : TypeNode × String) : Prop :=
  ∃ us i, ts = us ++ [i] ∧ TypeOf us p.1 ∧ i.kind = .ident ∧ p.2 = i.text

theorem readTypedName_viable (eof : Token) (ts : List Token) :
    (readTypedName eof ts).Viable TypedNameOf eof ts := by
  have hnamed {us : List Token} {t : TypeNode} (ht : TypeOf us t) :
      TypedNameOf (us ++ [someIdent]) (t, "a") := ⟨us, someIdent, rfl, ht, rfl, rfl⟩
  unfold readTypedName
  split
  · have hsome : TypedNameOf ([] ++ [someIdent, someIdent]) _ := hnamed someType
    exact viable_error (completable_here [] rfl rfl hsome)
  · refine ((resolveType_viable eof ts).imp (fun _ _ hxs => ⟨_, _, hnamed hxs⟩)).bind
      (fun type hread => ?_)
    obtain ⟨us, hts, ht, -⟩ := resolveType_gives_iff.mp ⟨type, hread, rfl, rfl⟩
    exact (readIdent_viable _ hts (hnamed ht)).map

theorem readParam_viable (eof : Token) (ts : List Token) :
    (readParam eof ts).Viable ParamOf eof ts := by
  have hplain : (readTypedName eof ts).Viable ParamOf eof ts := by
    refine (readTypedName_viable eof ts).last [] rfl (fun xs p h => ?_)
    obtain ⟨us, i, rfl, ht, hi, -⟩ := h
    exact ⟨_, .plain ht hi⟩
  unfold readParam
  split
  · next hfinal =>
    -- Without tokens the word is the end mark itself, and nothing is passed over.
    cases ts with
    | nil => exact hplain.map
    | cons w ts =>
      refine ((readTypedName_viable eof ts).last [w] rfl (fun xs p h => ?_)).map
      obtain ⟨us, i, rfl, ht, hi, -⟩ := h
      exact ⟨_, .final hfinal ht hi⟩
  · exact hplain.map

theorem readParams_viable (eof : Token) (ts : List Token) :
    (readParams eof ts).Viable ParamsOf eof ts := by
  induction hn : ts.length using Nat.strongRecOn generalizing ts with
  | _ n ih =>
    subst hn
    rw [readParams]
    refine ((readParam_viable eof ts).last [] rfl (fun _ _ hxs => ⟨_, .one hxs⟩)).bind
      (fun param hread => ?_)
    have hlt := param.shorter
    split
    · next hcomma =>
      obtain ⟨used, hts, hp⟩ := (readParam_gives_iff eof).mp ⟨param, hread, rfl, rfl⟩
      obtain ⟨m, more, hm, hk⟩ := atPunct_eq_true hcomma
      have hcut : ts = (used ++ [m]) ++ param.rest.drop 1 := by simpa [hm] using hts
      have hrest := ih (param.rest.drop 1).length (by simp only [List.length_drop]; omega) _ rfl
      exact (hrest.last _ hcut (fun _ _ hxs => ⟨_, by simpa using ParamsOf.more hp hk hxs⟩)).map
    · exact viable_ok

/-- Parameters, if any, and the parenthesis behind them. -/
def ParamsEndOf (ts : List Token) (params : List (Spanned Param)) : Prop :=
  ∃ ps r, ts = ps ++ [r] ∧ OptionalParamsOf ps params ∧ r.kind = .punct .rightParen

/-- What stands behind a method's name. -/
def MethodEndOf (ts : List Token) (params : List (Spanned Param)) : Prop :=
  ∃ l ps r s, ts = l :: (ps ++ [r, s]) ∧ l.kind = .punct .leftParen ∧
    OptionalParamsOf ps params ∧ r.kind = .punct .rightParen ∧ s.kind = .punct .semicolon

/-- What stands behind a field's name. -/
def FieldEndOf (ts : List Token) (init : Option (Spanned Literal)) : Prop :=
  ∃ is s, ts = is ++ [s] ∧ InitOf is init ∧ s.kind = .punct .semicolon

theorem someMethodEnd :
    MethodEndOf [someMark .leftParen, someMark .rightParen, someMark .semicolon] [] :=
  ⟨_, [], _, _, rfl, rfl, .none, rfl, rfl⟩

theorem readParamsEnd_viable (eof : Token) (ts : List Token) :
    (readParamsEnd eof ts).Viable ParamsEndOf eof ts := by
  unfold readParamsEnd
  split
  · have hnone : ParamsEndOf ([] ++ [someMark .rightParen]) [] := ⟨[], _, rfl, .none, rfl⟩
    exact (readPunct_viable [] rfl hnone).map
  · have hclosed {ps : List Token} {params : List (Spanned Param)} (hp : ParamsOf ps params) :
        ParamsEndOf (ps ++ [someMark .rightParen]) params := ⟨ps, _, rfl, .some hp, rfl⟩
    refine ((readParams_viable eof ts).imp (fun _ _ hxs => ⟨_, _, hclosed hxs⟩)).bind
      (fun params hread => ?_)
    obtain ⟨ps, hts, hp, -⟩ := (readParams_gives_iff eof).mp ⟨params, hread, rfl, rfl⟩
    exact (readPunct_viable _ hts (hclosed hp)).map

theorem readMethodEnd_viable (eof : Token) (ts : List Token) :
    (readMethodEnd eof ts).Viable MethodEndOf eof ts := by
  have hclosed {l : Token} {xs : List Token} {params : List (Spanned Param)}
      (hl : l.kind = .punct .leftParen) (hp : ParamsEndOf xs params) :
      MethodEndOf (l :: xs ++ [someMark .semicolon]) params := by
    obtain ⟨ps, r, rfl, hps, hr⟩ := hp
    exact ⟨l, ps, r, someMark .semicolon, by simp, hl, hps, hr, rfl⟩
  unfold readMethodEnd
  refine (readPunct_viable [] rfl someMethodEnd).bind (fun left hleft => ?_)
  obtain ⟨l, hl, hk, -⟩ := readPunct_ok hleft
  refine ((readParamsEnd_viable eof left.rest).behind [l] hl
    (fun _ _ hxs => ⟨_, _, hclosed hk hxs⟩)).bind (fun params hread => ?_)
  obtain ⟨ps, r, hr, hp, hrk⟩ := (readParamsEnd_gives_iff eof).mp ⟨params, hread, rfl, rfl⟩
  exact (readPunct_viable (l :: (ps ++ [r])) (by simpa [hr] using hl)
    (hclosed hk ⟨ps, r, rfl, hp, hrk⟩)).map

theorem readLiteral_error_span (h : readLiteral t = .error d) : d.span = t.span := by
  unfold readLiteral at h
  split at h
  · obtain ⟨type, rfl⟩ := readIntLiteral_error h
    rfl
  · obtain ⟨type, rfl⟩ := readFloatLiteral_error h
    rfl
  · split at h <;> cases h
    rfl
  · split at h <;> cases h
    rfl
  · cases h
  · cases h
  · cases h
    rfl

def someLiteral : Token := ⟨.keyword (.constant .null), "null", default⟩

theorem readInit_viable {R : List Token → β → Prop} {more : List Token} {b : β}
    (used : List Token) (hts : ts = used ++ us) (hR : R (used ++ more) b) :
    (readInit eof us).Viable R eof ts := by
  cases us with
  | nil => exact viable_error (completable_here used hts rfl hR)
  | cons t us =>
    cases hl : readLiteral t with
    | ok v =>
      simp only [readInit, hl, mapError_ok, ok_bind, pure_eq_ok]
      exact viable_ok
    | error d =>
      have hstop : readInit eof (t :: us) = .error (.before (t :: us) d) := by
        simp [readInit, hl, bind, Except.bind]
      rw [hstop]
      exact viable_error (completable_here used hts (readLiteral_error_span hl) hR)

theorem readFieldEnd_viable (eof : Token) (ts : List Token) :
    (readFieldEnd eof ts).Viable FieldEndOf eof ts := by
  unfold readFieldEnd
  split
  · next he =>
    obtain ⟨e, us, rfl, hk⟩ := atPunct_eq_true he
    have hclosed {l : Token} {v : Literal} (hl : readLiteral l = .ok v) :
        FieldEndOf ([e, l] ++ [someMark .semicolon]) (some (bare v)) :=
      ⟨[e, l], _, rfl, .some hk hl, rfl⟩
    refine (readInit_viable [e] rfl (hclosed (l := someLiteral) rfl)).bind
      (fun init hread => ?_)
    obtain ⟨l, v, hl, hv, -⟩ := (readInit_gives_iff eof).mp ⟨init, hread, rfl, rfl⟩
    exact (readPunct_viable _ (congrArg (e :: ·) hl) (hclosed hv)).map
  · have hnone : FieldEndOf ([] ++ [someMark .semicolon]) none := ⟨[], _, rfl, .none, rfl⟩
    exact (readPunct_viable [] rfl hnone).map

section Bodies

variable {mods : List (Spanned Modifier)} {rs xs : List Token} {i : Token}

theorem MethodEndOf.bodyOf {ret : ReturnType} {params : List (Spanned Param)}
    (h : MethodEndOf xs params) (hr : ReturnOf rs ret) (hi : i.kind = .ident) :
    BodyOf mods (rs ++ [i] ++ xs) (.method ⟨mods, bare ret, bare i.text, params⟩) := by
  obtain ⟨l, ps, r, s, rfl, hl, hp, hrk, hs⟩ := h
  simpa using BodyOf.method hr hi hl hp hrk hs

theorem FieldEndOf.bodyOf {t : TypeNode} {init : Option (Spanned Literal)}
    (h : FieldEndOf xs init) (ht : TypeOf rs t) (hi : i.kind = .ident) :
    BodyOf mods (rs ++ [i] ++ xs) (.field ⟨mods, bare t, bare i.text, init⟩) := by
  obtain ⟨is, s, rfl, hn, hs⟩ := h
  simpa using BodyOf.field ht hi hn hs

/-- Whatever a member gives, it can go on as a method. -/
theorem ReturnOf.exists_body {ret : ReturnType} (hr : ReturnOf rs ret)
    (mods : List (Spanned Modifier)) : ∃ tail m, BodyOf mods (rs ++ tail) m := by
  have hbody : BodyOf mods (rs ++ [someIdent] ++ _) _ := someMethodEnd.bodyOf hr rfl
  exact ⟨_, _, by simpa using hbody⟩

end Bodies

-- The body does not look at the modifiers, so any may stand in what completes it.
theorem readMemberBody_viable (mods read : List (Spanned Modifier)) (eof : Token)
    (ts : List Token) : (readMemberBody read eof ts).Viable (BodyOf mods) eof ts := by
  unfold readMemberBody
  refine ((readReturn_viable eof ts).imp (fun _ _ hxs => hxs.exists_body mods)).bind
    (fun ret hret => ?_)
  obtain ⟨rs, hts, hr⟩ := readReturn_sound ⟨ret, hret, rfl, rfl⟩
  obtain ⟨tail, m, htail⟩ := hr.exists_body mods
  refine (readIdent_viable _ hts htail).bind (fun name hname => ?_)
  obtain ⟨i, hi, hik, -⟩ := readIdent_ok hname
  have hcut : ts = (rs ++ [i]) ++ name.rest := by simpa [hi] using hts
  dsimp only
  split
  · exact ((readMethodEnd_viable eof name.rest).last _ hcut
      (fun _ _ hxs => ⟨_, hxs.bodyOf hr hik⟩)).map
  · split
    · exact viable_error (completable_here _ hcut rfl (someMethodEnd.bodyOf hr hik))
    · next t ht =>
      have htype : ReturnOf rs (.type t.unplaced) := by simpa [ht, ReturnType.unplaced] using hr
      cases htype with
      | type htype =>
        exact ((readFieldEnd_viable eof name.rest).last _ hcut
          (fun _ _ hxs => ⟨_, hxs.bodyOf htype hik⟩)).map

theorem readMember_viable (eof : Token) (ts : List Token) :
    (readMember eof ts).Viable MemberOf eof ts := by
  unfold readMember
  split
  · have hbody : BodyOf [] ([someIdent] ++ someIdent :: ([] ++ [someMark .semicolon])) _ :=
      .field someType rfl .none rfl
    exact viable_error (completable_here [] rfl rfl (MemberOf.mk .nil hbody))
  · obtain ⟨ms, hms, hm⟩ := takeModifiers_sound ts
    exact ((readMemberBody_viable _ _ eof _).last _ hms (fun _ _ hxs => ⟨_, .mk hm hxs⟩)).map

/-! ### Units -/

theorem completable_of_attempt {R : List Token → β → Prop}
    {read : (ts : List Token) → Reading α ts} (h : (read ts).Viable R eof ts)
    (hd : (attempt read ts).1 = .error d) : Completable R eof ts d := by
  unfold attempt at hd
  split at hd
  · cases hd
  · next stop hstop =>
    cases hd
    exact h stop hstop

theorem tryImports_viable (imports : List (Spanned Import))
    {more : List (Except Diagnostic (Spanned Import))}
    (h : (tryImports eof ts).1 = imports.map .ok ++ .error d :: more) :
    Completable (Repeated ImportOf) eof ts d := by
  fun_induction tryImports eof ts generalizing imports with
  | case1 ts hc head tail ih =>
    obtain ⟨w, us, rfl, hw⟩ := atClause_eq_true hc
    cases imports with
    | nil =>
      have hd := completable_of_attempt (readImport_viable hw) (List.cons.inj h).1
      exact hd.imp (fun _ _ hxs => ⟨_, _, .cons hxs .nil⟩)
    | cons a imports =>
      obtain ⟨ha, htail⟩ := List.cons.inj h
      obtain ⟨xs, hts, hi⟩ := (readImport_gives_iff hw).mp (gives_of_attempt _ (Prod.ext ha rfl))
      exact (ih _ htail).last _ hts (fun _ _ hxs => ⟨_, .cons hi hxs⟩)
  | case2 => simp at h

theorem tryMembers_viable (members : List (Spanned Member))
    {more : List (Except Diagnostic (Spanned Member))}
    (h : tryMembers eof ts = members.map .ok ++ .error d :: more) :
    Completable (Repeated MemberOf) eof ts d := by
  fun_induction tryMembers eof ts generalizing members with
  | case1 => simp at h
  | case2 t us head ih =>
    cases members with
    | nil =>
      have hd := completable_of_attempt (readMember_viable eof (t :: us)) (List.cons.inj h).1
      exact hd.imp (fun _ _ hxs => ⟨_, _, .cons hxs .nil⟩)
    | cons a members =>
      obtain ⟨ha, htail⟩ := List.cons.inj h
      obtain ⟨xs, hts, hm⟩ :=
        (readMember_gives_iff eof).mp (gives_of_attempt _ (Prod.ext ha rfl))
      exact (ih _ htail).last _ hts (fun _ _ hxs => ⟨_, .cons hm hxs⟩)

/-- The first of some faults comes behind steps that all succeeded. -/
theorem exists_first_error {rs : List (Except Diagnostic α)} {more : List Diagnostic}
    (h : rs.filterMap Diagnostic.of? = d :: more) :
    ∃ (as : List α) (rest : List (Except Diagnostic α)), rs = as.map .ok ++ .error d :: rest := by
  obtain ⟨before, r, rest, rfl, hbefore, hr, -⟩ := List.filterMap_eq_cons_iff.mp h
  obtain ⟨as, rfl⟩ := Diagnostic.exists_map_ok hbefore
  exact ⟨as, rest, by rw [of?_eq_some.mp hr]⟩

theorem importsAndMembers_viable {ps : List Token} {p : Option (Spanned Name)}
    {more : List Diagnostic} (hp : OptionalPackageOf ps p) (hts : ts = ps ++ us)
    (h : (tryImports eof us).1.filterMap Diagnostic.of? ++
      (tryMembers eof (tryImports eof us).2).filterMap Diagnostic.of? = d :: more) :
    Completable UnitOf eof ts d := by
  cases hi : (tryImports eof us).1.filterMap Diagnostic.of? with
  | cons d' rest =>
    rw [hi] at h
    obtain rfl := (List.cons.inj h).1
    obtain ⟨imports, tail, hfirst⟩ := exists_first_error hi
    exact (tryImports_viable _ hfirst).behind _ hts (fun _ _ hxs => ⟨_, _, .mk hp hxs .nil⟩)
  | nil =>
    rw [hi, List.nil_append] at h
    obtain ⟨imports, himports⟩ := Diagnostic.exists_map_ok (List.filterMap_eq_nil_iff.mp hi)
    obtain ⟨is, hus, his, -⟩ := tryImports_sound (Prod.ext himports rfl)
    obtain ⟨members, tail, hfirst⟩ := exists_first_error h
    have hcut : ts = (ps ++ is) ++ (tryImports eof us).2 := by
      rw [List.append_assoc, ← hus]
      exact hts
    exact (tryMembers_viable _ hfirst).last _ hcut
      (fun _ _ hxs => ⟨_, by simpa using UnitOf.mk hp his hxs⟩)

theorem Attempts.diagnostics_append (a : Attempts) :
    a.diagnostics = (a.package.bind Diagnostic.of?).toList ++
      (a.imports.filterMap Diagnostic.of? ++ a.members.filterMap Diagnostic.of?) := by
  cases hp : a.package.bind Diagnostic.of? <;>
    simp [diagnostics, faults, hp, List.filterMap_map]

/-- In front of the first fault of a unit stands the start of a unit without faults. -/
theorem ofTokens_viable {tokens : List Token} {more : List Diagnostic}
    (hcut : cutAtEnd tokens = (ts, eof))
    (h : (Attempts.ofTokens tokens).diagnostics = d :: more) : Completable UnitOf eof ts d := by
  rw [Attempts.diagnostics_append] at h
  cases hc : atClause .package ts with
  | false =>
    rw [ofTokens_no_package hcut hc] at h
    exact importsAndMembers_viable .none rfl h
  | true =>
    rw [ofTokens_package hcut hc] at h
    dsimp only at h
    obtain ⟨w, us, rfl, hw⟩ := atClause_eq_true hc
    cases hp : (attempt (readPackage eof) (w :: us)).1 with
    | error d' =>
      rw [hp] at h
      obtain rfl : d' = d := (List.cons.inj h).1
      have hd := completable_of_attempt (readPackage_viable hw) hp
      exact hd.imp (fun _ _ hxs => ⟨_, _, .mk (.some hxs) .nil .nil⟩)
    | ok p =>
      rw [hp] at h
      obtain ⟨ps, hts, hps⟩ := (readPackage_gives_iff hw).mp
        (gives_of_attempt _ (Prod.ext hp rfl))
      exact importsAndMembers_viable (.some hps) hts h

/-! ### Units without an end mark -/

theorem PackageOf.endless {p : Spanned Name} (h : PackageOf ts p) : Endless ts := by
  cases h with
  | mk hw hn hs => simp [hn.endless, isEnd_of_kind hw, isEnd_of_kind hs]

theorem ImportOf.endless {a : Spanned Import} (h : ImportOf ts a) : Endless ts := by
  cases h with
  | single hw hn hs => simp [hn.endless, isEnd_of_kind hw, isEnd_of_kind hs]
  | wildcard hw hn hd ha hs =>
    simp [hn.endless, isEnd_of_kind hw, isEnd_of_kind hd, isEnd_of_kind ha, isEnd_of_kind hs]

theorem ModifierOf.endless {m : Spanned Modifier} (h : ModifierOf ts m) : Endless ts := by
  cases h with
  | mk hw => simp [isEnd_of_kind hw]

theorem ReturnOf.endless {r : ReturnType} (h : ReturnOf ts r) : Endless ts := by
  cases h with
  | void hw => simp [isEnd_of_kind hw]
  | type ht => exact ht.endless

theorem InitOf.endless {init : Option (Spanned Literal)} (h : InitOf ts init) : Endless ts := by
  cases h with
  | none => exact endless_nil
  | @some e l v he hl =>
    have hopen : l.isEnd = false := by
      by_cases hk : l.kind = .eof
      · simp [readLiteral, hk] at hl
      · exact isEnd_of_kind rfl hk
    simp [isEnd_of_kind he, hopen]

theorem ParamOf.endless {p : Spanned Param} (h : ParamOf ts p) : Endless ts := by
  cases h with
  | plain ht hi => simp [ht.endless, isEnd_of_kind hi]
  | final hw ht hi => simp [ht.endless, isEnd_of_kind hw, isEnd_of_kind hi]

theorem ParamsOf.endless {ps : List (Spanned Param)} (h : ParamsOf ts ps) : Endless ts := by
  induction h with
  | one hp => exact hp.endless
  | more hp hc _ ih => simp [hp.endless, isEnd_of_kind hc, ih]

theorem OptionalParamsOf.endless {ps : List (Spanned Param)} (h : OptionalParamsOf ts ps) :
    Endless ts := by
  cases h with
  | none => exact endless_nil
  | some hp => exact hp.endless

theorem BodyOf.endless {mods : List (Spanned Modifier)} {m : Member} (h : BodyOf mods ts m) :
    Endless ts := by
  cases h with
  | field ht hi hn hs => simp [ht.endless, isEnd_of_kind hi, hn.endless, isEnd_of_kind hs]
  | method hr hi hl hp hc hs =>
    simp [hr.endless, isEnd_of_kind hi, isEnd_of_kind hl, hp.endless, isEnd_of_kind hc,
      isEnd_of_kind hs]

theorem Repeated.endless {Part : List Token → α → Prop} {l : List α} (h : Repeated Part ts l)
    (hpart : ∀ xs a, Part xs a → Endless xs) : Endless ts := by
  induction h with
  | nil => exact endless_nil
  | cons ha _ ih => exact endless_append.mpr ⟨hpart _ _ ha, ih⟩

theorem MemberOf.endless {m : Spanned Member} (h : MemberOf ts m) : Endless ts := by
  cases h with
  | mk hm hb => exact endless_append.mpr ⟨hm.endless (fun _ _ h => h.endless), hb.endless⟩

theorem UnitOf.endless {u : CompilationUnit} (h : UnitOf ts u) : Endless ts := by
  cases h with
  | mk hp hi hm =>
    refine endless_append.mpr ⟨?_, endless_append.mpr ⟨?_, ?_⟩⟩
    · cases hp with
      | none => exact endless_nil
      | some hp => exact hp.endless
    · exact hi.endless (fun _ _ h => h.endless)
    · exact hm.endless (fun _ _ h => h.endless)

theorem cutAtEnd_append (h : Endless ts) (ht : t.isEnd = true) :
    cutAtEnd (ts ++ [t]) = (ts, t) := by
  have hfind : ts.find? Token.isEnd = none := List.find?_eq_none.mpr (by simpa [Endless] using h)
  have hbefore : beforeEnd (ts ++ [t]) = ts ++ beforeEnd [t] := beforeEnd_append h
  refine Prod.ext ?_ (by simp [cutAtEnd, hfind, ht])
  simpa [cutAtEnd, beforeEnd, ht] using hbefore

theorem parse_of_unitOf {u : CompilationUnit} (h : UnitOf ts u) (ht : t.isEnd = true) :
    ∃ v, (parseAsking .failFast .never (ts ++ [t])).1 = .complete v [] := by
  obtain ⟨v, hv, -⟩ := ofTokens_complete (cutAtEnd_append h.endless ht) h
  exact ⟨v, parseAsking_failFast_iff.mpr hv⟩

/-- A run that stops at the first fault blames a token of the text, and the tokens in front of that
one can be continued to a text that is read without faults. So it never blames a token behind the
first one that cannot stand where it stands. -/
theorem first_impossible_token {source : String} {tokens : List Token} {d : Diagnostic}
    (hlex : lex source = .ok tokens) (hd : (parseAsking .failFast .never tokens).1 = .failed d) :
    ∃ i t, tokens[i]? = some t ∧ d.span = t.span ∧
      ∃ more, Endless more ∧ ∀ e : Token, e.isEnd = true → ∃ u,
        (parseAsking .failFast .never (tokens.take i ++ more ++ [e])).1 = .complete u [] := by
  obtain ⟨ts, hts, rfl⟩ := lex_eq_ok_iff.mp hlex
  have hopen : Endless ts := fun t ht => results_isEnd hts ht
  obtain ⟨later, hfirst⟩ := parseAsking_failFast_failed_iff.mp hd
  obtain ⟨done, rest, more, u, rfl, hspan, hu⟩ :=
    ofTokens_viable (cutAtEnd_append (t := endToken source) hopen rfl) hfirst
  refine ⟨done.length, current (endToken source) rest, ?_, hspan, more,
    (endless_append.mp hu.endless).2, fun e he => ?_⟩
  · cases rest with
    | nil => simp [current]
    | cons t rest => simp
  · have htake : (done ++ rest ++ [endToken source]).take done.length = done := by simp
    rw [htake]
    exact parse_of_unitOf hu he

/-- A parameter that gives nothing is blamed behind its modifier. -/
theorem first_impossible_token_void_parameter :
    let d := Diagnostic.illegalToken ⟨.keyword .void, "void", ⟨25, 29⟩⟩ "parameter type"
    ∃ tokens, lex "import a.*; void f(final void x);" = .ok tokens ∧
      (parseAsking .failFast .never tokens).1 = .failed d ∧
      ∃ i t, tokens[i]? = some t ∧ d.span = t.span ∧
        ∃ more, Endless more ∧ ∀ e : Token, e.isEnd = true → ∃ u,
          (parseAsking .failFast .never (tokens.take i ++ more ++ [e])).1 = .complete u [] := by
  intro d
  let tokens : List Token := [⟨.keyword (.clause .imports), "import", ⟨0, 6⟩⟩,
    ⟨.ident, "a", ⟨7, 8⟩⟩, ⟨.punct .dot, ".", ⟨8, 9⟩⟩, ⟨.punct .star, "*", ⟨9, 10⟩⟩,
    ⟨.punct .semicolon, ";", ⟨10, 11⟩⟩, ⟨.keyword .void, "void", ⟨12, 16⟩⟩,
    ⟨.ident, "f", ⟨17, 18⟩⟩, ⟨.punct .leftParen, "(", ⟨18, 19⟩⟩,
    ⟨.keyword (.modifier .final), "final", ⟨19, 24⟩⟩, ⟨.keyword .void, "void", ⟨25, 29⟩⟩,
    ⟨.ident, "x", ⟨30, 31⟩⟩, ⟨.punct .rightParen, ")", ⟨31, 32⟩⟩,
    ⟨.punct .semicolon, ";", ⟨32, 33⟩⟩, .endAt 33]
  have hlex : lex "import a.*; void f(final void x);" = .ok tokens :=
    lex_of_toOption (by decide +kernel)
  have hfailed : (parseAsking .failFast .never tokens).1 = .failed d :=
    parseAsking_failFast_failed_iff.mpr ⟨[], by decide +kernel⟩
  exact ⟨tokens, hlex, hfailed, first_impossible_token hlex hfailed⟩

end DeclFront
