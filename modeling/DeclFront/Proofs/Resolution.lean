import DeclFront.Proofs.Rewinding
import DeclFront.Proofs.TypeExactness

/-! Types and names read at the cursor of a stream. What is taken is exactly the part of the tokens
that the grammar derives and that what follows cannot go on with; where there is no such part, the
stream is left as it was. -/

namespace DeclFront

variable {ts us after : List Token} {t : Token}

/-! ### Tokens before the end mark -/

def beforeEnd (ts : List Token) : List Token := ts.takeWhile (fun t => !t.isEnd)

/-- There is no end mark among the tokens. -/
def Endless (ts : List Token) : Prop := ∀ t ∈ ts, t.isEnd = false

@[simp] theorem endless_cons : Endless (t :: ts) ↔ t.isEnd = false ∧ Endless ts :=
  List.forall_mem_cons

@[simp] theorem endless_append : Endless (ts ++ us) ↔ Endless ts ∧ Endless us :=
  List.forall_mem_append

@[simp] theorem endless_nil : Endless [] := nofun

theorem isEnd_of_kind {k : TokenKind} (h : t.kind = k) (hk : k ≠ .eof) : t.isEnd = false := by
  simpa [Token.isEnd, h] using hk

theorem beforeEnd_append (h : Endless us) : beforeEnd (us ++ after) = us ++ beforeEnd after :=
  List.takeWhile_append_of_pos (fun t ht => by simp [h t ht])

theorem atPunct_beforeEnd (p : Punctuation) (ts : List Token) :
    atPunct p (beforeEnd ts) = atPunct p ts := by
  cases ts with
  | nil => rfl
  | cons t ts =>
    by_cases ht : t.isEnd = true
    · have hk : t.kind = .eof := by simpa [Token.isEnd] using ht
      simp [beforeEnd, ht, Token.isPunct, hk]
    · simp [beforeEnd, ht]

theorem continuesName_beforeEnd (ts : List Token) :
    continuesName (beforeEnd ts) = continuesName ts := by
  match ts with
  | [] => rfl
  | [t] => by_cases ht : t.isEnd = true <;> simp [beforeEnd, ht, continuesName]
  | d :: i :: more =>
    by_cases hd : d.isEnd = true
    · have hk : d.kind = .eof := by simpa [Token.isEnd] using hd
      simp [beforeEnd, hd, continuesName, Token.isPunct, hk]
    · by_cases hi : i.isEnd = true
      · have hk : i.kind = .eof := by simpa [Token.isEnd] using hi
        simp [beforeEnd, hd, hi, continuesName, hk]
      · simp [beforeEnd, hd, hi, continuesName]

theorem endsAt_beforeEnd {type : TypeNode} :
    type.EndsAt (beforeEnd after) ↔ type.EndsAt after := by
  cases type <;>
    simp only [TypeNode.EndsAt, TypeNode.BaseEndsAt, atPunct_beforeEnd, continuesName_beforeEnd]

/-- Tokens without an end mark are cut off in front of the next end mark as they are cut off at
all. -/
theorem exists_cut_iff {D E : List Token → Prop} (hD : ∀ us, D us → Endless us)
    (hE : ∀ after, E (beforeEnd after) ↔ E after) {k : Nat} :
    (∃ us rest, beforeEnd ts = us ++ rest ∧ us.length = k ∧ D us ∧ E rest) ↔
      ∃ us after, ts = us ++ after ∧ us.length = k ∧ D us ∧ E after := by
  constructor
  · rintro ⟨us, rest, hcut, hk, hus, hrest⟩
    have hts : ts = us ++ (rest ++ ts.dropWhile (fun t => !t.isEnd)) := by
      rw [← List.append_assoc, ← hcut, beforeEnd, List.takeWhile_append_dropWhile]
    have hsame : us ++ rest = us ++ beforeEnd (rest ++ ts.dropWhile (fun t => !t.isEnd)) := by
      rw [← beforeEnd_append (hD us hus), ← hts, hcut]
    exact ⟨us, _, hts, hk, hus, (hE _).mp (List.append_cancel_left hsame ▸ hrest)⟩
  · rintro ⟨us, after, rfl, hk, hus, hafter⟩
    exact ⟨us, beforeEnd after, beforeEnd_append (hD us hus), hk, hus, (hE after).mpr hafter⟩

/-! ### The grammar derives no end mark -/

theorem NameOf.endless {n : Name} (h : NameOf ts n) : Endless ts := by
  induction h with
  | one hi => exact endless_cons.mpr ⟨isEnd_of_kind hi (by simp), endless_nil⟩
  | more hi hd _ ih =>
    exact endless_cons.mpr ⟨isEnd_of_kind hi (by simp),
      endless_cons.mpr ⟨isEnd_of_kind hd (by simp), ih⟩⟩

theorem DimsOf.endless {n : Nat} (h : DimsOf ts n) : Endless ts := by
  induction h with
  | none => exact endless_nil
  | more hl hr _ ih =>
    exact endless_cons.mpr ⟨isEnd_of_kind hl (by simp),
      endless_cons.mpr ⟨isEnd_of_kind hr (by simp), ih⟩⟩

mutual

theorem TypeOf.endless {ts : List Token} {t : TypeNode} : TypeOf ts t → Endless ts
  | .dims hb hd => endless_append.mpr ⟨hb.endless, hd.endless⟩

theorem BaseOf.endless {ts : List Token} {b : TypeNode} : BaseOf ts b → Endless ts
  | .primitive hw => endless_cons.mpr ⟨isEnd_of_kind hw (by simp), endless_nil⟩
  | .reference hn => hn.endless
  | .parameterized hn hl ha hr => by
    have hclose := endless_cons.mpr ⟨isEnd_of_kind hr (by simp), endless_nil⟩
    exact endless_append.mpr ⟨hn.endless, endless_cons.mpr ⟨isEnd_of_kind hl (by simp),
      endless_append.mpr ⟨ha.endless, hclose⟩⟩⟩

theorem ArgsOf.endless {ts : List Token} {args : List TypeArg} : ArgsOf ts args → Endless ts
  | .one ha => ha.endless
  | .more ha hc hr => endless_append.mpr ⟨ha.endless,
      endless_cons.mpr ⟨isEnd_of_kind hc (by simp), hr.endless⟩⟩

theorem ArgOf.endless {ts : List Token} {a : TypeArg} : ArgOf ts a → Endless ts
  | .type ht _ => ht.endless
  | .wildcard hq => endless_cons.mpr ⟨isEnd_of_kind hq (by simp), endless_nil⟩
  | .bounded hq hw ht _ => endless_cons.mpr ⟨isEnd_of_kind hq (by simp),
      endless_cons.mpr ⟨isEnd_of_kind hw (by simp), ht.endless⟩⟩

end

/-! ### The longest name -/

theorem NameOf.extend {n : Name} {d i : Token} (h : NameOf ts n) (hd : d.kind = .punct .dot)
    (hi : i.kind = .ident) : NameOf (ts ++ [d, i]) ⟨n.segments ++ [i.text]⟩ := by
  induction h with
  | one hj => exact .more hj hd (.one hi)
  | more hj hd' _ ih => exact .more hj hd' ih

/-- A name that does not go on is at least as long as any other one that starts with it. -/
theorem NameOf.length_le {n n' : Name} {us' after' : List Token} (h : NameOf us n)
    (h' : NameOf us' n') (heq : us ++ after = us' ++ after') (hend : continuesName after = false) :
    us'.length ≤ us.length := by
  induction h generalizing us' n' with
  | one _ =>
    cases h' with
    | one _ => simp
    | more _ hd hn =>
      obtain ⟨i, more, rfl, hi⟩ := hn.head
      obtain ⟨-, rfl⟩ := List.cons.inj heq
      simp [continuesName, Token.isPunct, hd, hi] at hend
  | @more i d us n _ _ _ ih =>
    cases h' with
    | one _ => simp
    | more _ _ hn =>
      obtain ⟨-, heq⟩ := List.cons.inj heq
      have hle := ih hn (List.cons.inj heq).2
      simp only [List.length_cons]
      omega

/-- Behind the longest name in front of some tokens, no dot and identifier follow. -/
theorem NameOf.longest_iff {n : Name} (h : NameOf us n) (hts : ts = us ++ after) :
    continuesName after = false ↔
      ∀ us' after' n', ts = us' ++ after' → NameOf us' n' → us'.length ≤ us.length := by
  constructor
  · intro hend us' after' n' hts' h'
    exact h.length_le h' (hts.symm.trans hts') hend
  · intro hlongest
    match after, hts with
    | [], _ => rfl
    | [_], _ => rfl
    | d :: i :: tail, hts =>
      rw [← Bool.not_eq_true]
      intro hgoes
      have hkinds : d.kind = .punct .dot ∧ i.kind = .ident := by simpa [continuesName] using hgoes
      have hlong := hlongest (us ++ [d, i]) tail _ (by simp [hts]) (h.extend hkinds.1 hkinds.2)
      simp only [List.length_append, List.length_cons] at hlong
      omega

namespace TokenStream

variable {α β : Type} {s : TokenStream}

/-! ### Reading at the cursor -/

/-- A production that is run at the cursor takes what it takes of the tokens ahead. -/
theorem reading_ok_iff {read : Token → (ts : List Token) → Reading α ts} {view : α → β} {b : β}
    {k : Nat} :
    (∃ a, (reading read).run s = (.ok a, { s with pos := s.pos + k }) ∧ view a = b) ↔
      ∃ rest, (read s.ahead.2 s.ahead.1).Gives view b rest ∧
        s.ahead.1.length - rest.length = k := by
  rw [reading_run]
  generalize read s.ahead.2 s.ahead.1 = x
  cases x with
  | error stop =>
    constructor
    · rintro ⟨a, ha, -⟩
      cases ha
    · rintro ⟨rest, hg, -⟩
      exact absurd hg gives_error
  | ok r =>
    constructor
    · rintro ⟨a, ha, rfl⟩
      obtain ⟨hvalue, hstream⟩ := Prod.mk.inj ha
      have hpos := congrArg TokenStream.pos hstream
      dsimp only at hpos
      exact ⟨r.rest, gives_ok.mpr ⟨by rw [Except.ok.inj hvalue], rfl⟩, by omega⟩
    · rintro ⟨rest, hg, rfl⟩
      obtain ⟨rfl, rfl⟩ := gives_ok.mp hg
      exact ⟨r.value, rfl, rfl⟩

theorem type_ok_iff {a : Spanned TypeNode} {s' : TokenStream} :
    type.run s = (.ok a, s') ↔ (reading readType).run s = (.ok a, s') := by
  rw [type_run, reading_run]
  cases readType s.ahead.2 s.ahead.1 with
  | ok r => exact Iff.rfl
  | error stop => exact iff_of_false nofun nofun

/-- A production that is exact on tokens before an end mark is exact at the cursor. -/
theorem reading_exact {read : Token → (ts : List Token) → Reading α ts} (view : α → β) {b : β}
    {k : Nat} {D E : List Token → Prop} (hD : ∀ us, D us → Endless us)
    (hE : ∀ after, E (beforeEnd after) ↔ E after)
    (hread : ∀ rest, (read s.ahead.2 s.ahead.1).Gives view b rest ↔
      ∃ us, s.ahead.1 = us ++ rest ∧ D us ∧ E rest) :
    (∃ a, (reading read).run s = (.ok a, { s with pos := s.pos + k }) ∧ view a = b) ↔
      ∃ us after, s.tokens.drop s.pos = us ++ after ∧ us.length = k ∧ D us ∧ E after := by
  rw [reading_ok_iff, ← exists_cut_iff hD hE]
  constructor
  · rintro ⟨rest, hg, hk⟩
    obtain ⟨us, hcut, hus, hrest⟩ := (hread rest).mp hg
    rw [hcut] at hk
    exact ⟨us, rest, hcut, by simpa using hk, hus, hrest⟩
  · rintro ⟨us, rest, hcut, hk, hus, hrest⟩
    have hlength : s.ahead.1.length = us.length + rest.length :=
      (congrArg List.length hcut).trans List.length_append
    exact ⟨rest, (hread rest).mpr ⟨us, hcut, hus, hrest⟩, by omega⟩

theorem readName_error {eof : Token} {stop : Stop} (h : readName eof ts = .error stop) :
    stop.left = ts.length := by
  cases hi : readIdent eof ts with
  | ok first => simp [readName, hi] at h
  | error e =>
    have hstop : e = stop := by simpa [readName, hi, bind, Except.bind] using h
    subst hstop
    cases ts with
    | nil =>
      cases hi
      rfl
    | cons t ts =>
      by_cases hk : t.kind = .ident
      · simp [readIdent, readKind, hk] at hi
      · simp only [readIdent, readKind, hk, if_false] at hi
        cases hi
        rfl

/-- Reading a name either succeeds or leaves the stream as it was. -/
theorem name_total (s : TokenStream) :
    (∃ a k, name.run s = (.ok a, { s with pos := s.pos + k })) ∨
      ∃ d, name.run s = (.error d, s) := by
  rw [name, reading_run]
  cases hr : readName s.ahead.2 s.ahead.1 with
  | ok r => exact .inl ⟨_, _, rfl⟩
  | error stop =>
    exact .inr ⟨stop.diagnostic, by simp [readName_error hr]⟩

/-- Reading a type either succeeds or goes back to where it started. -/
theorem type_total (hpos : s.pos ≤ s.tokens.length) :
    (∃ a k, type.run s = (.ok a, { s with pos := s.pos + k })) ∨
      ∃ d, type.run s = (.error d, s) := by
  rw [type_run]
  cases readType s.ahead.2 s.ahead.1 with
  | ok r => exact .inl ⟨_, _, rfl⟩
  | error stop => exact .inr ⟨stop.diagnostic, by simp [Nat.min_eq_left hpos]⟩

theorem type_exact {t : TypeNode} {k : Nat} :
    (∃ a, type.run s = (.ok a, { s with pos := s.pos + k }) ∧ a.node.unplaced = t) ↔
      ∃ us after, s.tokens.drop s.pos = us ++ after ∧ us.length = k ∧ TypeOf us t ∧
        t.EndsAt after := by
  simp only [type_ok_iff]
  exact reading_exact Spanned.unplacedNode (D := (TypeOf · t)) (E := t.EndsAt)
    (fun _ h => h.endless) (fun _ => endsAt_beforeEnd) (fun rest => typesExactAt _ _ t rest)

theorem name_exact {n : Name} {k : Nat} :
    (∃ a, name.run s = (.ok a, { s with pos := s.pos + k }) ∧ a.node = n) ↔
      ∃ us after, s.tokens.drop s.pos = us ++ after ∧ us.length = k ∧ NameOf us n ∧
        continuesName after = false :=
  reading_exact Spanned.node (D := (NameOf · n)) (E := (continuesName · = false))
    (fun _ h => h.endless) (fun after => by rw [continuesName_beforeEnd])
    (fun _ => readName_gives_iff _)

/-- At a cursor that does not stand behind the tokens, a type is read with so many of them if and
only if the grammar derives it from just these, and the next one does not go on with it. Otherwise
there is a fault, and the stream is as it was. In the same way a name is read with the most tokens
that the grammar derives a name from, or none at all. -/
theorem types_read_exactly (s : TokenStream) (hpos : s.pos ≤ s.tokens.length) :
    (∀ t k, (∃ a, type.run s = (.ok a, { s with pos := s.pos + k }) ∧ a.node.unplaced = t) ↔
      ∃ us after, s.tokens.drop s.pos = us ++ after ∧ us.length = k ∧ TypeOf us t ∧
        t.EndsAt after) ∧
    ((¬ ∃ t us after, s.tokens.drop s.pos = us ++ after ∧ TypeOf us t ∧ t.EndsAt after) →
      ∃ d, type.run s = (.error d, s)) ∧
    (∀ n k, (∃ a, name.run s = (.ok a, { s with pos := s.pos + k }) ∧ a.node = n) ↔
      ∃ us after, s.tokens.drop s.pos = us ++ after ∧ us.length = k ∧ NameOf us n ∧
        ∀ us' after' n', s.tokens.drop s.pos = us' ++ after' → NameOf us' n' →
          us'.length ≤ k) ∧
    ((¬ ∃ n us after, s.tokens.drop s.pos = us ++ after ∧ NameOf us n) →
      ∃ d, name.run s = (.error d, s)) := by
  refine ⟨fun t k => type_exact, fun hnone => ?_, fun n k => ?_, fun hnone => ?_⟩
  · obtain ⟨a, k, hrun⟩ | herror := type_total hpos
    · obtain ⟨us, after, hts, -, ht, hend⟩ := type_exact.mp ⟨a, hrun, rfl⟩
      exact absurd ⟨_, us, after, hts, ht, hend⟩ hnone
    · exact herror
  · rw [name_exact]
    constructor
    · rintro ⟨us, after, hts, rfl, hn, hend⟩
      exact ⟨us, after, hts, rfl, hn, (hn.longest_iff hts).mp hend⟩
    · rintro ⟨us, after, hts, rfl, hn, hlongest⟩
      exact ⟨us, after, hts, rfl, hn, (hn.longest_iff hts).mpr hlongest⟩
  · obtain ⟨a, k, hrun⟩ | herror := name_total s
    · obtain ⟨us, after, hts, -, hn, -⟩ := name_exact.mp ⟨a, hrun, rfl⟩
      exact absurd ⟨_, us, after, hts, hn⟩ hnone
    · exact herror

/-- A bounded argument over arrays, read from a cursor inside the stream. The end mark behind the
type keeps the bracket that follows it from being read as one of its dimensions. -/
theorem types_read_exactly_nested :
    let mark (p : Punctuation) : Token := ⟨.punct p, p.spelling, ⟨0, 1⟩⟩
    let word (text : String) : Token := ⟨.ident, text, ⟨0, 1⟩⟩
    let s : TokenStream := ⟨[mark .comma, word "a", mark .leftAngle, mark .question,
      ⟨.keyword (.bound .lower), "super", ⟨0, 5⟩⟩, word "b", mark .leftBracket, mark .rightBracket,
      mark .rightAngle, .endAt 9, mark .leftBracket], 1, true⟩
    s.pos ≤ s.tokens.length ∧
      ∃ a, type.run s = (.ok a, { s with pos := 9 }) ∧ a.node.unplaced =
        .parameterized ⟨["a"]⟩ [.bounded .lower (.array (.reference ⟨["b"]⟩) default) default
          default] := by
  intro mark word s
  refine ⟨by decide, ?_⟩
  have hb : TypeOf ([word "b"] ++ [mark .leftBracket, mark .rightBracket]) _ :=
    .dims (n := 1) (.reference (.one rfl)) (.more rfl rfl .none)
  have hargs := ArgsOf.one (.bounded (q := mark .question)
    (w := ⟨.keyword (.bound .lower), "super", ⟨0, 5⟩⟩) rfl rfl hb rfl)
  have htype : TypeOf _ _ := .dims (.parameterized (l := mark .leftAngle)
    (.one (i := word "a") rfl) rfl hargs (r := mark .rightAngle) rfl) .none
  exact ((types_read_exactly s (by decide)).1 _ 8).mpr
    ⟨_, [.endAt 9, mark .leftBracket], rfl, rfl, htype, rfl, trivial⟩

end TokenStream

end DeclFront
