import Mathlib.Data.List.Nodup
import DeclFront.Proofs.Consumption
import DeclFront.Proofs.SpanExactness

/-! The productions read lists, and a stream has a cursor. A production that is run at the cursor
takes it over what was read, token by token. The span of a declaration goes from the token that the
cursor was at to the one that it has passed last. -/

namespace DeclFront

/-! ### Closed sets -/

namespace TokenSet

section Members

variable {α : Type} [TokenSet α] {a : α}

theorem accepts_eq (k : TokenKind) : accepts α k = (find? α k).isSome := by
  rw [Bool.eq_iff_iff, find?, List.find?_isSome, accepts, List.any_eq_true]

/-- The first match is the only one if no two members share a kind. -/
theorem find?_kindOf (hα : isInjective α = true) (ha : a ∈ (members : List α)) :
    find? α (kindOf a) = some a := by
  have hnodup : ((members : List α).map kindOf).Nodup := of_decide_eq_true hα
  cases hfound : find? α (kindOf a) with
  | none => simpa using List.find?_eq_none.mp hfound a ha
  | some b =>
    have hkind : kindOf b = kindOf a := by simpa using List.find?_some hfound
    rw [List.inj_on_of_nodup_map hnodup (List.mem_of_find?_eq_some hfound) ha hkind]

end Members

theorem find?_primitive (k : TokenKind) : find? Primitive k = k.primitive? := by
  cases k with
  | keyword k =>
    cases k with
    | primitive p => exact find?_kindOf (a := p) (by decide) p.mem_all
    | _ => rfl
  | _ => rfl

theorem find?_modifier (k : TokenKind) : find? Modifier k = k.modifier? := by
  cases k with
  | keyword k =>
    cases k with
    | modifier m => exact find?_kindOf (a := m) (by decide) m.mem_all
    | _ => rfl
  | _ => rfl

end TokenSet

theorem TokenKind.startsType_eq (k : TokenKind) :
    k.startsType = (k == .ident || TokenSet.accepts Primitive k) := by
  rw [startsType, TokenSet.accepts_eq, TokenSet.find?_primitive]

/-! ### The tokens ahead of the cursor -/

namespace TokenStream

open Fallible

variable {α : Type} {s u : TokenStream} {t eof : Token} {ts used rest : List Token}

theorem length_ahead_le (s : TokenStream) : s.ahead.1.length ≤ s.tokens.length - s.pos := by
  rw [← List.length_drop]
  exact (List.takeWhile_prefix _).length_le

/-- A stream that was just made has the tokens ahead that a unit is read from. -/
theorem ahead_start (tokens : List Token) : (ofTokens tokens).ahead = cutAtEnd tokens := by
  simp only [ahead, cutAtEnd, ofTokens, List.drop_zero]
  cases hfind : tokens.find? Token.isEnd with
  | some t => rfl
  | none =>
    congr 1
    simp only [Option.getD_none, endMark]
    cases hlast : tokens.getLast? with
    | none => rfl
    | some t =>
      have hend := List.find?_eq_none.mp hfind t (List.mem_of_getLast? hlast)
      simp [hend]

/-- The tokens ahead are those behind the cursor up to the first end mark. -/
theorem drop_of_ahead (h : s.ahead = (t :: ts, eof)) :
    ∃ more, s.tokens.drop s.pos = t :: more ∧ t.isEnd = false ∧
      more.takeWhile (fun t => !t.isEnd) = ts ∧ (more.find? Token.isEnd).getD s.endMark = eof := by
  unfold ahead at h
  cases hdrop : s.tokens.drop s.pos with
  | nil => simp [hdrop] at h
  | cons t' more =>
    cases hend : t'.isEnd <;> simp [hdrop, hend] at h
    obtain ⟨⟨rfl, hts⟩, heof⟩ := h
    exact ⟨more, rfl, hend, hts, heof⟩

theorem peek_of_ahead (h : s.ahead = (t :: ts, eof)) : s.peek = t ∧ s.atEnd = false := by
  obtain ⟨more, hdrop, hend, -⟩ := drop_of_ahead h
  have hpeek : s.peek = t := by
    have hget : s.tokens[s.pos]? = some t := by
      simpa using congrArg List.head? hdrop
    simp [peek, peekNth, hget]
  exact ⟨hpeek, by rw [atEnd, hpeek, hend]⟩

/-- A production looks at the token that the cursor is at. -/
theorem current_ahead (s : TokenStream) : current s.ahead.2 s.ahead.1 = s.peek := by
  cases ha : s.ahead.1 with
  | cons t ts => exact (peek_of_ahead (Prod.ext ha rfl)).1.symm
  | nil =>
    have hhead : s.tokens[s.pos]? = (s.tokens.drop s.pos).head? := by simp
    simp only [ahead] at ha
    simp only [current, List.headD_nil, ahead, peek, peekNth, Nat.add_zero, hhead]
    cases hdrop : s.tokens.drop s.pos with
    | nil => rfl
    | cons t more =>
      have hend : t.isEnd = true := by
        by_contra hend
        simp [hdrop, List.takeWhile_cons, hend] at ha
      simp [hend]

theorem ahead_next (h : s.ahead = (t :: ts, eof)) :
    ahead { s with pos := s.pos + 1 } = (ts, eof) := by
  obtain ⟨more, hdrop, -, hts, heof⟩ := drop_of_ahead h
  have hmore : s.tokens.drop (s.pos + 1) = more := by
    rw [← List.drop_drop, hdrop, List.drop_one, List.tail_cons]
  simp only [ahead, hmore]
  exact Prod.ext hts heof

/-- Advancing takes the cursor over the tokens ahead, one after the other. -/
theorem after_advance (h : s.ahead = (used ++ rest, eof)) :
    Along Passes s used (s.after (List.replicate used.length .advance)) ∧
      (s.after (List.replicate used.length .advance)).ahead = (rest, eof) := by
  induction used generalizing s with
  | nil => exact ⟨.nil s, h⟩
  | cons t used ih =>
    obtain ⟨hpeek, hend⟩ := peek_of_ahead h
    have hstep : (advance.run s).2 = { s with pos := s.pos + 1 } := by simp [advance_run, hend]
    have hnext := ih (ahead_next h)
    rw [← hstep] at hnext
    exact ⟨.cons ⟨hpeek.symm, hstep⟩ hnext.1, hnext.2⟩

theorem after_advance_eq {n : Nat} (hn : n ≤ s.ahead.1.length) :
    s.after (List.replicate n .advance) = { s with pos := s.pos + n } := by
  have hcut : s.ahead = (s.ahead.1.take n ++ s.ahead.1.drop n, s.ahead.2) := by
    rw [List.take_append_drop]
  obtain ⟨hpasses, -⟩ := after_advance hcut
  rw [List.length_take_of_le hn] at hpasses
  rw [(along_passes hpasses).2, List.length_take_of_le hn]

/-- Whether a production succeeds or fails, it has advanced over some tokens. -/
theorem reading_advances (read : Token → (ts : List Token) → Reading α ts) (s : TokenStream) :
    ∃ n ≤ s.ahead.1.length,
      ((reading read).run s).2 = s.after (List.replicate n .advance) := by
  rw [reading_run]
  cases read s.ahead.2 s.ahead.1 with
  | ok r => exact ⟨_, Nat.sub_le _ _, (after_advance_eq (Nat.sub_le _ _)).symm⟩
  | error stop => exact ⟨_, Nat.sub_le _ _, (after_advance_eq (Nat.sub_le _ _)).symm⟩

/-- A production that succeeds has passed the tokens that it took. -/
theorem reading_passes {read : Token → (ts : List Token) → Reading α ts} {a : α}
    {P : List Token → α → Prop} (h : (read s.ahead.2 s.ahead.1).Takes P)
    (hrun : (reading read).run s = (.ok a, u)) :
    ∃ used rest, s.ahead = (used ++ rest, s.ahead.2) ∧ P used a ∧ Along Passes s used u ∧
      u.ahead = (rest, s.ahead.2) := by
  rw [reading_run] at hrun
  cases hread : read s.ahead.2 s.ahead.1 with
  | error stop =>
    rw [hread] at hrun
    cases hrun
  | ok r =>
    rw [hread] at hrun
    cases hrun
    obtain ⟨used, hts, hp⟩ := h r hread
    have hahead : s.ahead = (used ++ r.rest, s.ahead.2) := Prod.ext hts rfl
    have hused : s.ahead.1.length - r.rest.length = used.length := by
      have hlength := congrArg List.length hts
      rw [List.length_append] at hlength
      omega
    obtain ⟨hpasses, hrest⟩ := after_advance hahead
    have hafter := (along_passes hpasses).2
    rw [hafter] at hpasses hrest
    rw [hused]
    exact ⟨used, r.rest, hahead, hp, hpasses, hrest⟩

/-! ### Modifiers -/

theorem atEnd_of_ahead (h : s.ahead = ([], eof)) : s.atEnd = true := by
  have hpeek := current_ahead s
  rw [h, current, List.headD_nil] at hpeek
  rw [atEnd, ← hpeek, ← congrArg Prod.snd h, ahead]
  cases hfind : (s.tokens.drop s.pos).find? Token.isEnd with
  | none => exact isEnd_endMark s
  | some t => exact List.find?_some hfind

theorem takeWhileUpTo_modifiers {limit : Nat} (h : s.ahead = (ts, eof))
    (hlimit : ts.length ≤ limit) :
    ∃ taken u, (takeWhileUpTo (fun k => .ok (TokenSet.accepts Modifier k)) limit).run s =
        (.ok taken, u) ∧
      u.ahead = ((takeModifiers ts).2, eof) ∧
      taken.mapM (fun t => (TokenSet.read Modifier t).map (⟨·, t.span⟩)) =
        .ok (takeModifiers ts).1 := by
  induction limit generalizing s ts with
  | zero =>
    obtain rfl : ts = [] := List.length_eq_zero_iff.mp (Nat.le_zero.mp hlimit)
    exact ⟨[], s, rfl, h, rfl⟩
  | succ limit ih =>
    rw [takeWhileUpTo_run]
    cases ts with
    | nil => exact ⟨[], s, by rw [if_pos (atEnd_of_ahead h)], h, rfl⟩
    | cons t ts =>
      obtain ⟨rfl, hend⟩ := peek_of_ahead h
      rw [if_neg (by simp [hend]), TokenSet.accepts_eq, TokenSet.find?_modifier]
      cases hm : s.peek.kind.modifier? with
      | none =>
        have hstop : takeModifiers (s.peek :: ts) = ([], s.peek :: ts) := by
          simp [takeModifiers, hm]
        exact ⟨[], s, rfl, by rw [hstop, h], by rw [hstop]; rfl⟩
      | some m =>
        have hgo : takeModifiers (s.peek :: ts) =
            (⟨m, s.peek.span⟩ :: (takeModifiers ts).1, (takeModifiers ts).2) := by
          simp [takeModifiers, hm]
        have hread : TokenSet.read Modifier s.peek = .ok m := by
          rw [TokenSet.read, TokenSet.find?_modifier, hm]
        obtain ⟨taken, u, hrun, hu, hresolved⟩ :=
          ih (ahead_next h) (Nat.le_of_succ_le_succ hlimit)
        refine ⟨s.peek :: taken, u, ?_, ?_, ?_⟩
        · simp [hrun, Except.map]
        · rw [hgo, hu]
        · rw [hgo, List.mapM_cons, hread, hresolved]
          rfl

/-- The modifiers in front of a member are the tokens that the cursor takes as long as they are
modifiers, each resolved. -/
theorem takeWhile_modifiers (s : TokenStream) :
    ∃ taken u, (takeWhile (fun k => .ok (TokenSet.accepts Modifier k))).run s = (.ok taken, u) ∧
      u.ahead = ((takeModifiers s.ahead.1).2, s.ahead.2) ∧
      taken.mapM (fun t => (TokenSet.read Modifier t).map (⟨·, t.span⟩)) =
        .ok (takeModifiers s.ahead.1).1 :=
  takeWhileUpTo_modifiers rfl s.length_ahead_le

end TokenStream

/-! ### Closing spans -/

variable {eof : Token} {ts run : List Token} {s : Span}

/-- The span is the one of the last token. -/
def ClosesWith (run : List Token) (s : Span) : Prop :=
  ∃ front last, run = front ++ [last] ∧ s = last.span

theorem ClosesWith.behind (front : List Token) (h : ClosesWith run s) :
    ClosesWith (front ++ run) s := by
  obtain ⟨more, last, rfl, rfl⟩ := h
  exact ⟨front ++ more, last, (List.append_assoc ..).symm, rfl⟩

theorem EndsOn.closesWith {os : List Outline} (h : EndsOn run os s) : ClosesWith run s := by
  obtain ⟨front, last, rfl, -, rfl⟩ := h
  exact ⟨front, last, rfl, rfl⟩

theorem readPunct_closes {p : Punctuation} :
    (readPunct p eof ts).Takes (fun run s => ClosesWith run s) := by
  intro r hr
  obtain ⟨t, hts, -, hspan⟩ := readPunct_ok hr
  exact ⟨[t], hts, [], t, rfl, hspan⟩

theorem readTypedName_closes :
    (readTypedName eof ts).Takes (fun run p => ClosesWith run p.2.span) := by
  intro r hr
  unfold readTypedName at hr
  split at hr
  · cases hr
  · obtain ⟨type, htype, h⟩ := bind_eq_ok.mp hr
    obtain ⟨name, hname, h⟩ := bind_eq_ok.mp h
    cases h
    obtain ⟨used, hts, -⟩ := resolveType_gives_iff.mp ⟨type, htype, rfl, rfl⟩
    obtain ⟨i, hi, -, hv⟩ := readIdent_ok hname
    exact ⟨used ++ [i], by simp [hts, hi], used, i, rfl, congrArg Spanned.span hv⟩

theorem readMethodEnd_closes :
    (readMethodEnd eof ts).Takes (fun run p => ClosesWith run p.2) := by
  intro r hr
  obtain ⟨left, hleft, h⟩ := bind_eq_ok.mp hr
  obtain ⟨params, hparams, h⟩ := bind_eq_ok.mp h
  obtain ⟨close, hclose, h⟩ := bind_eq_ok.mp h
  cases h
  obtain ⟨l, hl, -, -⟩ := readPunct_ok hleft
  obtain ⟨used, right, hused, -⟩ := (readParamsEnd_gives_iff eof).mp ⟨params, hparams, rfl, rfl⟩
  obtain ⟨run, hrun, hcloses⟩ := readPunct_closes close hclose
  exact ⟨(l :: (used ++ [right])) ++ run, by simp [hl, hused, hrun], hcloses.behind _⟩

theorem readMemberBody_closes {modifiers : List (Spanned Modifier)} :
    (readMemberBody modifiers eof ts).Takes (fun run p => ClosesWith run p.2) := by
  intro r hr
  obtain ⟨returns, hreturns, h⟩ := bind_eq_ok.mp hr
  obtain ⟨name, hname, h⟩ := bind_eq_ok.mp h
  obtain ⟨i, hi, -⟩ := readIdent_ok hname
  obtain ⟨used, hts, -⟩ := readReturn_sound ⟨returns, hreturns, rfl, rfl⟩
  have hcut : ts = (used ++ [i]) ++ name.rest := by simp [hts, hi]
  have hall {run rest : List Token} (hrun : name.rest = run ++ rest) :
      ts = ((used ++ [i]) ++ run) ++ rest := by
    rw [List.append_assoc (used ++ [i]), ← hrun]
    exact hcut
  dsimp only at h
  split at h
  · obtain ⟨tail, htail, h⟩ := bind_eq_ok.mp h
    cases h
    obtain ⟨run, hrun, hcloses⟩ := readMethodEnd_closes tail htail
    exact ⟨(used ++ [i]) ++ run, hall hrun, hcloses.behind _⟩
  · split at h
    · cases h
    · obtain ⟨tail, htail, h⟩ := bind_eq_ok.mp h
      cases h
      obtain ⟨run, hrun, hends⟩ := readFieldEnd_takes tail htail
      exact ⟨(used ++ [i]) ++ run, hall hrun, hends.closesWith.behind _⟩

/-- What is read has the span from the token that is looked at to the last one that is taken. -/
def SpansTaken {α : Type} (read : Token → (ts : List Token) → Reading (Spanned α) ts) : Prop :=
  ∀ eof ts, (read eof ts).Takes
    (fun run a => ∃ s, ClosesWith run s ∧ a.span = (current eof ts).span.merge s)

theorem readPackage_spansTaken : SpansTaken readPackage := by
  intro eof ts r hr
  cases ts with
  | nil => cases hr
  | cons w ts =>
    obtain ⟨name, hname, h⟩ := bind_eq_ok.mp hr
    obtain ⟨close, hclose, h⟩ := bind_eq_ok.mp h
    cases h
    obtain ⟨used, hts, -⟩ := (readName_gives_iff eof).mp ⟨name, hname, rfl, rfl⟩
    obtain ⟨run, hrun, hcloses⟩ := readPunct_closes close hclose
    exact ⟨(w :: used) ++ run, by simp [hts, hrun], _, hcloses.behind _, rfl⟩

theorem readImport_spansTaken : SpansTaken readImport := by
  intro eof ts r hr
  cases ts with
  | nil => cases hr
  | cons w ts =>
    obtain ⟨path, hpath, h⟩ := bind_eq_ok.mp hr
    obtain ⟨tail, htail, h⟩ := bind_eq_ok.mp h
    cases h
    obtain ⟨used, hts, -⟩ := (readName_gives_iff eof).mp ⟨path, hpath, rfl, rfl⟩
    obtain ⟨run, hrun, hends⟩ := readImportEnd_takes tail htail
    exact ⟨(w :: used) ++ run, by simp [hts, hrun], _, hends.closesWith.behind _, rfl⟩

theorem readParam_spansTaken : SpansTaken readParam := by
  intro eof ts r hr
  unfold readParam at hr
  split at hr
  · obtain ⟨tn, htn, h⟩ := bind_eq_ok.mp hr
    cases h
    cases ts with
    | nil => exact absurd tn.shorter (Nat.not_lt_zero _)
    | cons w ts =>
      obtain ⟨run, hrun, hcloses⟩ := readTypedName_closes tn htn
      exact ⟨[w] ++ run, congrArg (w :: ·) hrun, _, hcloses.behind _, rfl⟩
  · obtain ⟨tn, htn, h⟩ := bind_eq_ok.mp hr
    cases h
    obtain ⟨run, hrun, hcloses⟩ := readTypedName_closes tn htn
    exact ⟨run, hrun, _, hcloses, rfl⟩

theorem readMember_spansTaken : SpansTaken readMember := by
  intro eof ts r hr
  unfold readMember at hr
  split at hr
  · cases hr
  · obtain ⟨body, hbody, h⟩ := bind_eq_ok.mp hr
    cases h
    obtain ⟨used, hts, -⟩ := takeModifiers_laid ts
    obtain ⟨run, hrun, hcloses⟩ := readMemberBody_closes body hbody
    have hcut : ts = (used ++ run) ++ body.rest := by
      rw [List.append_assoc, ← hrun]
      exact hts
    exact ⟨used ++ run, hcut, _, hcloses.behind _, rfl⟩

/-- The span of a declaration that is read at the cursor goes from the current token to the one that
is the previous token afterwards. -/
theorem SpansTaken.span_eq {α : Type} {read : Token → (ts : List Token) → Reading (Spanned α) ts}
    (h : SpansTaken read) {s u : TokenStream} {a : Spanned α}
    (hrun : (TokenStream.reading read).run s = (.ok a, u)) :
    a.span = s.currentSpan.merge u.previousSpan := by
  obtain ⟨used, rest, hahead, ⟨span, ⟨front, last, rfl, rfl⟩, hspan⟩, hpasses, -⟩ :=
    TokenStream.reading_passes (h _ _) hrun
  obtain ⟨t, hfront, hlast⟩ := hpasses.of_concat
  have hpos : t.pos < t.tokens.length := by
    have hlength := s.length_ahead_le
    rw [hahead] at hlength
    rw [(TokenStream.along_passes hfront).2]
    simp only [List.length_append, List.length_cons, List.length_nil] at hlength ⊢
    omega
  rw [hspan, TokenStream.current_ahead, hlast.previousSpan.1 hpos]
  rfl

end DeclFront
