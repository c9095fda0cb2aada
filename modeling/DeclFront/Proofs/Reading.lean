import DeclFront.Proofs.Derivation

/-! What the small readers give, said without spans: a reader gives a tree and leaves some tokens
exactly if what it took is derived from the grammar and what it left cannot be part of it. -/

namespace DeclFront

section Parsed

variable {α β : Type} {t : Token} {ts us : List Token}

@[simp] theorem Parsed.value_map (f : α → β) (p : Parsed α ts) : (p.map f).value = f p.value := rfl

@[simp] theorem Parsed.rest_map (f : α → β) (p : Parsed α ts) : (p.map f).rest = p.rest := rfl

@[simp] theorem Parsed.value_head : (Parsed.head t ts).value = t := rfl

@[simp] theorem Parsed.rest_head : (Parsed.head t ts).rest = ts := rfl

@[simp] theorem Parsed.value_widen (h : us.length ≤ ts.length) (p : Parsed α us) :
    (p.widen h).value = p.value := rfl

@[simp] theorem Parsed.rest_widen (h : us.length ≤ ts.length) (p : Parsed α us) :
    (p.widen h).rest = p.rest := rfl

@[simp] theorem Parsed.value_behind (p : Parsed α ts) : (p.behind t).value = p.value := rfl

@[simp] theorem Parsed.rest_behind (p : Parsed α ts) : (p.behind t).rest = p.rest := rfl

@[simp] theorem Parsed.value_behindHead (p : Parsed α (ts.drop 1)) :
    p.behindHead.value = p.value := rfl

@[simp] theorem Parsed.rest_behindHead (p : Parsed α (ts.drop 1)) :
    p.behindHead.rest = p.rest := rfl

@[simp] theorem Parsed.value_andThen (p : Parsed α ts) (q : Parsed β p.rest) :
    (p.andThen q).value = q.value := rfl

@[simp] theorem Parsed.rest_andThen (p : Parsed α ts) (q : Parsed β p.rest) :
    (p.andThen q).rest = q.rest := rfl

end Parsed

/-- The reading succeeds: seen without places it gives `b`, and it leaves `rest`. -/
def Reading.Gives {α β : Type} {ts : List Token} (view : α → β) (x : Reading α ts) (b : β)
    (rest : List Token) : Prop :=
  ∃ r, x = .ok r ∧ view r.value = b ∧ r.rest = rest

section Except

variable {ε ε' α β : Type}

theorem bind_eq_ok {x : Except ε α} {f : α → Except ε β} {b : β} :
    (x >>= f) = .ok b ↔ ∃ a, x = .ok a ∧ f a = .ok b := by
  cases x with
  | error e => simp [bind, Except.bind]
  | ok a => simp [bind, Except.bind]

@[simp] theorem ok_bind (a : α) (f : α → Except ε β) : ((.ok a : Except ε α) >>= f) = f a := rfl

@[simp] theorem pure_eq_ok (a : α) : (pure a : Except ε α) = .ok a := rfl

@[simp] theorem mapError_ok (f : ε → ε') (a : α) : (.ok a : Except ε α).mapError f = .ok a := rfl

@[simp] theorem mapError_error (f : ε → ε') (e : ε) :
    (.error e : Except ε α).mapError f = .error (f e) := rfl

end Except

section Gives

variable {α β γ : Type} {ts us rest : List Token} {view : α → β} {b : β}

@[simp] theorem gives_ok {p : Parsed α ts} :
    Reading.Gives view (.ok p) b rest ↔ view p.value = b ∧ p.rest = rest := by
  simp [Reading.Gives]

@[simp] theorem gives_error {stop : Stop} :
    ¬ Reading.Gives view (.error stop : Reading α ts) b rest := by
  simp [Reading.Gives]

theorem gives_bind {x : Reading γ us} {f : Parsed γ us → Reading α ts} :
    Reading.Gives view (x >>= f) b rest ↔ ∃ a, x = .ok a ∧ (f a).Gives view b rest := by
  cases x with
  | error stop => simp [bind, Except.bind]
  | ok a => simp

theorem gives_bind_map {x : Reading γ us} {f : Parsed γ us → Parsed α ts} :
    Reading.Gives view (x >>= fun a => pure (f a)) b rest ↔
      ∃ a, x = .ok a ∧ view (f a).value = b ∧ (f a).rest = rest := by
  simp only [gives_bind, pure_eq_ok, gives_ok]

end Gives

variable {eof t : Token} {ts rest : List Token}

@[simp] theorem isPunct_iff {p : Punctuation} : t.isPunct p = true ↔ t.kind = .punct p := by
  simp [Token.isPunct]

@[simp] theorem isPunct_eq_false_iff {p : Punctuation} :
    t.isPunct p = false ↔ t.kind ≠ .punct p := by
  simp [Token.isPunct]

@[simp] theorem current_cons : current eof (t :: ts) = t := rfl

@[simp] theorem atPunct_nil (p : Punctuation) : atPunct p [] = false := rfl

@[simp] theorem atPunct_cons (p : Punctuation) : atPunct p (t :: ts) = t.isPunct p := by
  simp [atPunct]

theorem atPunct_eq_true {p : Punctuation} (h : atPunct p ts = true) :
    ∃ m more, ts = m :: more ∧ m.kind = .punct p := by
  cases ts with
  | nil => simp at h
  | cons m more => exact ⟨m, more, rfl, by simpa using h⟩

/-! ### Single tokens -/

theorem readKind_cons {kind : TokenKind} {expected : String} (h : t.kind = kind) :
    readKind kind expected eof (t :: ts) = .ok (.head t ts) := by
  simp [readKind, h]

theorem readKind_ok {kind : TokenKind} {expected : String} {a : Parsed Token ts}
    (h : readKind kind expected eof ts = .ok a) :
    ts = a.value :: a.rest ∧ a.value.kind = kind := by
  unfold readKind at h
  split at h
  · cases h
  · split at h
    · next hk =>
      cases h
      exact ⟨rfl, hk⟩
    · cases h

theorem readIdent_of_eq (eof : Token) (hts : ts = t :: rest) (h : t.kind = .ident) :
    ∃ a, readIdent eof ts = .ok a ∧ a.value = ⟨t.text, t.span⟩ ∧ a.rest = rest := by
  subst hts
  exact ⟨(Parsed.head t rest).map (fun t => ⟨t.text, t.span⟩),
    by simp [readIdent, readKind_cons h], rfl, rfl⟩

theorem readIdent_ok {a : Parsed (Spanned String) ts} (h : readIdent eof ts = .ok a) :
    ∃ i, ts = i :: a.rest ∧ i.kind = .ident ∧ a.value = ⟨i.text, i.span⟩ := by
  obtain ⟨i, hi, he⟩ := bind_eq_ok.mp h
  obtain ⟨hts, hk⟩ := readKind_ok hi
  cases he
  exact ⟨i.value, hts, hk, rfl⟩

theorem readPunct_of_eq (eof : Token) {p : Punctuation} (hts : ts = t :: rest)
    (h : t.kind = .punct p) :
    ∃ a, readPunct p eof ts = .ok a ∧ a.value = t.span ∧ a.rest = rest := by
  subst hts
  exact ⟨(Parsed.head t rest).map Token.span, by simp [readPunct, readKind_cons h], rfl, rfl⟩

theorem readPunct_ok {p : Punctuation} {a : Parsed Span ts} (h : readPunct p eof ts = .ok a) :
    ∃ m, ts = m :: a.rest ∧ m.kind = .punct p ∧ a.value = m.span := by
  obtain ⟨m, hm, he⟩ := bind_eq_ok.mp h
  obtain ⟨hts, hk⟩ := readKind_ok hm
  cases he
  exact ⟨m.value, hts, hk, rfl⟩

/-! ### Names -/

/-- What follows a name goes on with it: a dot and an identifier. -/
def continuesName : List Token → Bool
  | d :: i :: _ => d.isPunct .dot && i.kind == .ident
  | _ => false

theorem continuesName_kind (h : t.kind ≠ .punct .dot) : continuesName (t :: rest) = false := by
  cases rest <;> simp [continuesName, h]

theorem dottedTail_sound (ts : List Token) :
    continuesName (dottedTail ts).2 = false ∧
      ∃ taken, ts = taken ++ (dottedTail ts).2 ∧ ∀ i : Token, i.kind = .ident →
        NameOf (i :: taken) ⟨i.text :: (dottedTail ts).1.map (·.node)⟩ := by
  fun_induction dottedTail ts with
  | case1 d i rest h ih =>
    obtain ⟨hstop, taken, hts, hname⟩ := ih
    simp only [Bool.and_eq_true, isPunct_iff, beq_iff_eq] at h
    refine ⟨hstop, d :: i :: taken, by simp [← hts], ?_⟩
    intro j hj
    exact .more hj h.1 (hname i h.2)
  | case2 d i rest h =>
    exact ⟨by simpa [continuesName] using h, [], rfl, fun i hi => .one hi⟩
  | case3 ts h =>
    refine ⟨?_, [], rfl, fun i hi => .one hi⟩
    match ts, h with
    | [], _ => rfl
    | [_], _ => rfl
    | d :: i :: rest, h => exact absurd rfl (h d i rest)

theorem dottedTail_stop (h : continuesName rest = false) : dottedTail rest = ([], rest) := by
  unfold dottedTail
  split
  · next d i more => simpa [continuesName] using h
  · rfl

theorem dottedTail_complete {used : List Token} {n : Name} (hn : NameOf used n)
    (hr : continuesName rest = false) :
    ∃ i taken, used = i :: taken ∧ i.kind = .ident ∧ (dottedTail (taken ++ rest)).2 = rest ∧
      n = ⟨i.text :: (dottedTail (taken ++ rest)).1.map (·.node)⟩ := by
  induction hn with
  | one hi => exact ⟨_, [], rfl, hi, by simp [dottedTail_stop hr], by simp [dottedTail_stop hr]⟩
  | more hi hd _ ih =>
    obtain ⟨j, taken, rfl, hj, htail, rfl⟩ := ih
    refine ⟨_, _, rfl, hi, ?_, ?_⟩ <;> simp [dottedTail, Token.isPunct, hd, hj, htail]

theorem readName_gives_iff (eof : Token) {n : Name} :
    (readName eof ts).Gives Spanned.node n rest ↔
      ∃ used, ts = used ++ rest ∧ NameOf used n ∧ continuesName rest = false := by
  constructor
  · rintro ⟨r, hr, rfl, rfl⟩
    obtain ⟨first, hf, he⟩ := bind_eq_ok.mp hr
    obtain ⟨i, hts, hi, hv⟩ := readIdent_ok hf
    obtain ⟨hstop, taken, hrest, hname⟩ := dottedTail_sound first.rest
    cases he
    refine ⟨i :: taken, hts.trans (congrArg (i :: ·) hrest), ?_, hstop⟩
    simpa only [hv] using hname i hi
  · rintro ⟨used, rfl, hn, hstop⟩
    obtain ⟨i, taken, rfl, hi, htail, rfl⟩ := dottedTail_complete hn hstop
    obtain ⟨first, hf, hv, hr⟩ := readIdent_of_eq eof (List.cons_append ..) hi
    refine gives_bind_map.mpr ⟨first, hf, ?_, ?_⟩
    · simp [hr, hv]
    · simp [hr, htail]

end DeclFront
