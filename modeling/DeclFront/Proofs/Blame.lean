import DeclFront.Proofs.Framing

/-! Every fault that the parser reports is about one token that it has seen. The claim is carried
through the readers one by one; what a reader leaves it has taken from its input. -/

namespace DeclFront

/-- What the parser has against a token: the grammar takes another one there, it opens a clause out
of place, or it is a literal without a value. -/
inductive Blames (t : Token) : Diagnostic → Prop
  | illegal (expected message : String) (notes hints : List String) :
      Blames t ⟨.illegalToken t expected, message, t.span, notes, hints⟩
  | misplaced : Blames t (.misplacedClause t)
  | literal {d : Diagnostic} : readLiteral t = .error d → Blames t d

/-- The reading leaves tokens that it was shown, or blames one of them. -/
inductive Reading.Blaming {α : Type} {ts : List Token} (shown : List Token) : Reading α ts → Prop
  | ok {p : Parsed α ts} : p.rest ⊆ shown → Blaming shown (.ok p)
  | error {s : Stop} {t : Token} : t ∈ shown → Blames t s.diagnostic → Blaming shown (.error s)

variable {α β : Type} {eof t : Token} {ts us shown : List Token}

/-! ### Readings one after the other -/

theorem Reading.Blaming.bind {x : Reading α us} {f : Parsed α us → Reading β ts}
    (h : x.Blaming shown) (hf : ∀ p, p.rest ⊆ shown → (f p).Blaming shown) :
    Reading.Blaming shown (x >>= f) := by
  cases h with
  | ok hr => exact hf _ hr
  | error ht hd => exact .error ht hd

theorem Reading.Blaming.map {x : Reading α us} {f : Parsed α us → Parsed β ts}
    (h : x.Blaming shown) (hf : ∀ p, (f p).rest = p.rest) :
    Reading.Blaming shown (x >>= fun p => pure (f p)) := by
  refine h.bind (fun p hr => .ok ?_)
  rwa [hf p]

theorem current_mem (he : eof ∈ shown) (h : ts ⊆ shown) : current eof ts ∈ shown := by
  cases ts with
  | nil => exact he
  | cons t ts => exact h List.mem_cons_self

theorem drop_subset_of (h : ts ⊆ shown) (n : Nat) : ts.drop n ⊆ shown :=
  List.Subset.trans (List.drop_subset n ts) h

theorem blaming_illegal (ht : t ∈ shown) (expected : String) (us : List Token) :
    Reading.Blaming shown (.error (.before us (.illegalToken t expected)) : Reading α ts) :=
  .error ht (.illegal expected _ [] [])

/-! ### Single tokens and names -/

section Readers

variable (he : eof ∈ shown) (h : ts ⊆ shown)

include he h

theorem readKind_blaming (kind : TokenKind) (expected : String) :
    (readKind kind expected eof ts).Blaming shown := by
  unfold readKind
  split
  · exact blaming_illegal he expected []
  · next t rest =>
    have ht : t ∈ shown := h List.mem_cons_self
    split
    · exact .ok (List.subset_of_cons_subset h)
    · exact blaming_illegal ht expected _

theorem readIdent_blaming : (readIdent eof ts).Blaming shown :=
  (readKind_blaming he h _ _).map (fun _ => rfl)

theorem readPunct_blaming (p : Punctuation) : (readPunct p eof ts).Blaming shown :=
  (readKind_blaming he h _ _).map (fun _ => rfl)

omit he in
theorem dottedTail_subset : (dottedTail ts).2 ⊆ shown := by
  obtain ⟨-, taken, hts, -⟩ := dottedTail_sound ts
  intro t ht
  rw [hts] at h
  exact h (List.mem_append_right taken ht)

theorem readName_blaming : (readName eof ts).Blaming shown :=
  (readIdent_blaming he h).bind (fun _ hr => .ok (dottedTail_subset hr))

/-! ### Types -/

theorem arraySuffix_blaming (b : Spanned TypeNode) :
    (∃ t rest, arraySuffix eof b ts = .ok (t, rest) ∧ rest ⊆ shown) ∨
      ∃ s t, arraySuffix eof b ts = .error s ∧ t ∈ shown ∧ Blames t s.diagnostic := by
  fun_induction arraySuffix eof b ts with
  | case1 b => exact .inl ⟨b, [], rfl, h⟩
  | case2 b l hl => exact .inr ⟨_, eof, rfl, he, .illegal _ _ [] []⟩
  | case3 b l hl => exact .inl ⟨b, [l], rfl, h⟩
  | case4 b l r rest hl hr ih => exact ih (fun t ht => h (by simp [ht]))
  | case5 b l r rest hl hr => exact .inr ⟨_, r, rfl, h (by simp), .illegal _ _ [] []⟩
  | case6 b l r rest hl => exact .inl ⟨b, _, rfl, h⟩

theorem readReference_blaming (ht : (readType eof ts).Blaming shown) :
    (readReference eof ts).Blaming shown := by
  rw [readReference]
  refine ht.bind (fun p hr => ?_)
  split
  · exact .error (current_mem he h) (.illegal _ _ [] _)
  · exact .ok hr

theorem readArg_blaming (ht : ∀ us, us.length ≤ ts.length → us ⊆ shown →
      (readType eof us).Blaming shown) : (readArg eof ts).Blaming shown := by
  unfold readArg
  split
  · exact (readReference_blaming he h (ht _ (Nat.le_refl _) h)).map (fun _ => rfl)
  · next q after =>
    have hafter : after ⊆ shown := List.subset_of_cons_subset h
    split
    · split
      · have hdrop := drop_subset_of hafter 1
        have hbound := ht _ (by simp only [List.length_drop, List.length_cons]; omega) hdrop
        exact (readReference_blaming he hdrop hbound).map (fun _ => rfl)
      · exact .ok hafter
    · exact (readReference_blaming he h (ht _ (Nat.le_refl _) h)).map (fun _ => rfl)

theorem readArgs_blaming (ht : ∀ us, us.length ≤ ts.length → us ⊆ shown →
      (readType eof us).Blaming shown) : (readArgs eof ts).Blaming shown := by
  induction hn : ts.length using Nat.strongRecOn generalizing ts with
  | _ n ih =>
    subst hn
    rw [readArgs]
    refine (readArg_blaming he h ht).bind (fun arg hr => ?_)
    have hlt := arg.shorter
    split
    · have hshort : (arg.rest.drop 1).length < ts.length := by
        simp only [List.length_drop]
        omega
      exact (ih _ hshort (drop_subset_of hr 1) (fun us hle => ht us (by omega)) rfl).map
        (fun _ => rfl)
    · exact .ok hr

theorem readBase_blaming (ht : ∀ us, us.length < ts.length → us ⊆ shown →
      (readType eof us).Blaming shown) : (readBase eof ts).Blaming shown := by
  rw [readBase]
  split
  · exact (readKind_blaming he h _ _).map (fun _ => rfl)
  · split
    · refine (readName_blaming he h).bind (fun name hr => ?_)
      have hlt := name.shorter
      split
      · have hargs := readArgs_blaming he (drop_subset_of hr 1) (fun us hle => ht us (by
          simp only [List.length_drop] at hle
          omega))
        refine hargs.bind (fun args hr' => ?_)
        exact (readPunct_blaming he hr' _).map (fun _ => rfl)
      · exact .ok hr
    · exact blaming_illegal (current_mem he h) _ _

theorem readType_blaming : (readType eof ts).Blaming shown := by
  -- Type arguments are read from shorter lists, so the induction is on the length.
  induction hn : ts.length using Nat.strongRecOn generalizing ts with
  | _ n ih =>
    subst hn
    have hbase := readBase_blaming he h (fun us hlt hus => ih us.length hlt hus rfl)
    cases hb : readBase eof ts with
    | error s =>
      rw [hb] at hbase
      rw [readType_error hb]
      cases hbase with
      | error ht hd => exact .error ht hd
    | ok base =>
      rw [hb] at hbase
      cases hbase with
      | ok hr =>
        obtain ⟨t, rest, hs, hrest⟩ | ⟨s, t, hs, ht, hd⟩ := arraySuffix_blaming he hr base.value
        · obtain ⟨r, hread, -, rfl⟩ := readType_suffix_ok hb hs
          rw [hread]
          exact .ok hrest
        · rw [readType_suffix_error hb hs]
          exact .error ht hd

theorem resolveType_blaming : (resolveType eof ts).Blaming shown := by
  have hread := readType_blaming he h
  unfold resolveType
  generalize readType eof ts = x at hread
  cases hread with
  | ok hr => exact .ok hr
  | error ht hd => exact .error ht hd

/-! ### Declarations -/

theorem readPackage_blaming : (readPackage eof ts).Blaming shown := by
  unfold readPackage
  split
  · exact blaming_illegal he _ _
  · refine (readName_blaming he (List.subset_of_cons_subset h)).bind (fun name hr => ?_)
    exact (readPunct_blaming he hr _).map (fun _ => rfl)

theorem readImportEnd_blaming : (readImportEnd eof ts).Blaming shown := by
  unfold readImportEnd
  split
  · refine (readPunct_blaming he (drop_subset_of h 1) _).bind (fun star hr => ?_)
    exact (readPunct_blaming he hr _).map (fun _ => rfl)
  · exact (readPunct_blaming he h _).map (fun _ => rfl)

theorem readImport_blaming : (readImport eof ts).Blaming shown := by
  unfold readImport
  split
  · exact blaming_illegal he _ _
  · refine (readName_blaming he (List.subset_of_cons_subset h)).bind (fun path hr => ?_)
    exact (readImportEnd_blaming he hr).map (fun _ => rfl)

omit he in
theorem takeModifiers_subset : (takeModifiers ts).2 ⊆ shown := by
  fun_induction takeModifiers ts with
  | case1 => exact h
  | case2 t rest m _ ih => exact ih (List.subset_of_cons_subset h)
  | case3 => exact h

theorem readReturn_blaming : (readReturn eof ts).Blaming shown := by
  unfold readReturn
  split
  · exact (readKind_blaming he h _ _).map (fun _ => rfl)
  · split
    · exact (resolveType_blaming he h).map (fun _ => rfl)
    · exact blaming_illegal (current_mem he h) _ _

theorem readTypedName_blaming : (readTypedName eof ts).Blaming shown := by
  unfold readTypedName
  split
  · exact blaming_illegal (current_mem he h) _ _
  · refine (resolveType_blaming he h).bind (fun type hr => ?_)
    exact (readIdent_blaming he hr).map (fun _ => rfl)

theorem readParam_blaming : (readParam eof ts).Blaming shown := by
  unfold readParam
  split
  · exact (readTypedName_blaming he (drop_subset_of h 1)).map (fun _ => rfl)
  · exact (readTypedName_blaming he h).map (fun _ => rfl)

theorem readParams_blaming : (readParams eof ts).Blaming shown := by
  induction hn : ts.length using Nat.strongRecOn generalizing ts with
  | _ n ih =>
    subst hn
    rw [readParams]
    refine (readParam_blaming he h).bind (fun param hr => ?_)
    have hlt := param.shorter
    split
    · have hshort : (param.rest.drop 1).length < ts.length := by
        simp only [List.length_drop]
        omega
      exact (ih _ hshort (drop_subset_of hr 1) rfl).map (fun _ => rfl)
    · exact .ok hr

theorem readParamsEnd_blaming : (readParamsEnd eof ts).Blaming shown := by
  unfold readParamsEnd
  split
  · exact (readPunct_blaming he h _).map (fun _ => rfl)
  · refine (readParams_blaming he h).bind (fun params hr => ?_)
    exact (readPunct_blaming he hr _).map (fun _ => rfl)

theorem readMethodEnd_blaming : (readMethodEnd eof ts).Blaming shown := by
  refine (readPunct_blaming he h _).bind (fun left hr => ?_)
  refine (readParamsEnd_blaming he hr).bind (fun params hr' => ?_)
  exact (readPunct_blaming he hr' _).map (fun _ => rfl)

theorem readInit_blaming : (readInit eof ts).Blaming shown := by
  unfold readInit
  split
  · exact blaming_illegal he _ _
  · next t rest =>
    cases hl : readLiteral t with
    | error d => exact .error (h List.mem_cons_self) (.literal hl)
    | ok l => exact .ok (List.subset_of_cons_subset h)

theorem readFieldEnd_blaming : (readFieldEnd eof ts).Blaming shown := by
  unfold readFieldEnd
  split
  · refine (readInit_blaming he (drop_subset_of h 1)).bind (fun init hr => ?_)
    exact (readPunct_blaming he hr _).map (fun _ => rfl)
  · exact (readPunct_blaming he h _).map (fun _ => rfl)

theorem readMemberBody_blaming (mods : List (Spanned Modifier)) :
    (readMemberBody mods eof ts).Blaming shown := by
  refine (readReturn_blaming he h).bind (fun returns hr => ?_)
  refine (readIdent_blaming he hr).bind (fun name hr' => ?_)
  dsimp only
  split
  · exact (readMethodEnd_blaming he hr').map (fun _ => rfl)
  · split
    · exact .error (current_mem he hr') (.illegal _ _ _ [])
    · exact (readFieldEnd_blaming he hr').map (fun _ => rfl)

theorem readMember_blaming : (readMember eof ts).Blaming shown := by
  unfold readMember
  split
  · exact .error (current_mem he h) .misplaced
  · exact (readMemberBody_blaming he (takeModifiers_subset h) _).map (fun _ => rfl)

end Readers

/-! ### Units -/

theorem skipPast_subset (ts : List Token) : skipPast ts ⊆ ts :=
  List.Subset.trans (List.drop_subset 1 _) (List.dropWhile_subset _)

theorem attempt_blaming {read : (ts : List Token) → Reading α ts} (h : ts ⊆ shown)
    (hr : (read ts).Blaming shown) :
    (attempt read ts).2 ⊆ shown ∧
      ∀ d, (attempt read ts).1 = .error d → ∃ t ∈ shown, Blames t d := by
  unfold attempt
  generalize read ts = x at hr
  cases hr with
  | ok hrest => exact ⟨hrest, nofun⟩
  | @error s t ht hd =>
    refine ⟨List.Subset.trans (skipPast_subset _) (drop_subset_of h _), ?_⟩
    intro d hs
    cases hs
    exact ⟨t, ht, hd⟩

theorem tryImports_blaming (he : eof ∈ shown) (h : ts ⊆ shown) :
    (tryImports eof ts).2 ⊆ shown ∧
      ∀ d, .error d ∈ (tryImports eof ts).1 → ∃ t ∈ shown, Blames t d := by
  fun_induction tryImports eof ts with
  | case1 ts hc head tail ih =>
    obtain ⟨hrest, hfault⟩ := attempt_blaming h (readImport_blaming he h)
    obtain ⟨hrest', hlater⟩ := ih hrest
    refine ⟨hrest', fun d hd => ?_⟩
    rcases List.mem_cons.mp hd with hd | hd
    · exact hfault d hd.symm
    · exact hlater d hd
  | case2 ts hc => exact ⟨h, nofun⟩

theorem tryMembers_blaming (he : eof ∈ shown) (h : ts ⊆ shown) {d : Diagnostic}
    (hd : .error d ∈ tryMembers eof ts) : ∃ t ∈ shown, Blames t d := by
  fun_induction tryMembers eof ts with
  | case1 => cases hd
  | case2 t rest head ih =>
    obtain ⟨hrest, hfault⟩ := attempt_blaming h (readMember_blaming he h)
    rcases List.mem_cons.mp hd with hd | hd
    · exact hfault d hd.symm
    · exact ih hrest hd

theorem of?_eq_some {r : Except Diagnostic α} {d : Diagnostic} :
    Diagnostic.of? r = some d ↔ r = .error d := by
  cases r <;> simp [Diagnostic.of?]

theorem Attempts.mem_diagnostics {a : Attempts} {d : Diagnostic} :
    d ∈ a.diagnostics ↔
      a.package = some (.error d) ∨ .error d ∈ a.imports ∨ .error d ∈ a.members := by
  have hpackage : some d = a.package.bind Diagnostic.of? ↔ a.package = some (.error d) := by
    simp [eq_comm (a := some d), Option.bind_eq_some_iff, of?_eq_some]
  simp [diagnostics, faults, of?_eq_some, hpackage]

theorem blames_behind {d : Diagnostic} (he : eof ∈ shown) (h : ts ⊆ shown)
    (hd : .error d ∈ (tryImports eof ts).1 ∨ .error d ∈ tryMembers eof (tryImports eof ts).2) :
    ∃ t ∈ shown, Blames t d := by
  obtain ⟨hrest, hfault⟩ := tryImports_blaming he h
  rcases hd with hd | hd
  · exact hfault d hd
  · exact tryMembers_blaming he hrest hd

/-- A fault of a unit is about one of its tokens, or about the end mark behind them. -/
theorem Attempts.diagnostics_blame {tokens : List Token} {d : Diagnostic}
    (hcut : cutAtEnd tokens = (ts, eof)) (h : d ∈ (Attempts.ofTokens tokens).diagnostics) :
    ∃ t ∈ eof :: ts, Blames t d := by
  have he : eof ∈ eof :: ts := List.mem_cons_self
  have hts : ts ⊆ eof :: ts := List.subset_cons_self eof ts
  rw [mem_diagnostics] at h
  cases hc : atClause .package ts with
  | false =>
    rw [ofTokens_no_package hcut hc] at h
    exact blames_behind he hts (h.resolve_left nofun)
  | true =>
    rw [ofTokens_package hcut hc] at h
    obtain ⟨hrest, hfault⟩ := attempt_blaming hts (readPackage_blaming he hts)
    rcases h with hd | hd
    · exact hfault d (Option.some.inj hd)
    · exact blames_behind he hrest hd

end DeclFront
