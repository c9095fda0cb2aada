import DeclFront.Stream

/-! Steps over a stream, run from a given state: what they give, and the state that they leave. -/

namespace DeclFront.TokenStream

variable {α β : Type} {s : TokenStream}

@[simp] theorem run_pure (a : α) : (pure a : Step α).run s = (.ok a, s) := rfl

@[simp] theorem run_throw (d : Diagnostic) : (throw d : Step α).run s = (.error d, s) := rfl

@[simp] theorem run_get : (get : Step TokenStream).run s = (.ok s, s) := rfl

@[simp] theorem run_set (t : TokenStream) : (set t : Step Unit).run s = (.ok (), t) := rfl

@[simp] theorem run_modify (f : TokenStream → TokenStream) :
    (modify f : Step Unit).run s = (.ok (), f s) := rfl

@[simp] theorem run_bind (x : Step α) (f : α → Step β) :
    (x >>= f).run s =
      match x.run s with
      | (.ok a, t) => (f a).run t
      | (.error d, t) => (.error d, t) := by
  show (match x.run s with | (r, t) => ExceptT.bindCont f r t) = _
  obtain ⟨_ | _, t⟩ := x.run s <;> rfl

@[simp] theorem run_tryCatch (x : Step α) (f : Diagnostic → Step α) :
    (tryCatch x f).run s =
      match x.run s with
      | (.ok a, t) => (.ok a, t)
      | (.error d, t) => (f d).run t := by
  simp only [tryCatch, tryCatchThe, MonadExceptOf.tryCatch, ExceptT.tryCatch, ExceptT.run,
    ExceptT.mk, bind, StateT.bind]
  obtain ⟨_ | _, t⟩ := x s <;> rfl

theorem reading_run (read : Token → (ts : List Token) → Reading α ts) (s : TokenStream) :
    (reading read).run s =
      match read s.ahead.2 s.ahead.1 with
      | .ok r => (.ok r.value, { s with pos := s.pos + (s.ahead.1.length - r.rest.length) })
      | .error stop =>
        (.error stop.diagnostic, { s with pos := s.pos + (s.ahead.1.length - stop.left) }) := by
  rw [reading, run_bind, run_get]
  dsimp only
  cases read s.ahead.2 s.ahead.1 with
  | ok r => simp only [run_bind, run_set, run_pure]
  | error stop => simp only [run_bind, run_set, run_throw]

theorem type_run (s : TokenStream) :
    type.run s =
      match readType s.ahead.2 s.ahead.1 with
      | .ok r => (.ok r.value, { s with pos := s.pos + (s.ahead.1.length - r.rest.length) })
      | .error stop => (.error stop.diagnostic, { s with pos := min s.pos s.tokens.length }) := by
  simp only [type, checkpoint, rewind, run_bind, run_get, run_pure, run_tryCatch, reading_run]
  cases readType s.ahead.2 s.ahead.1 <;> simp

theorem type_run_ok {ts : List Token} {eof : Token} {r : Parsed (Spanned TypeNode) ts}
    (ha : s.ahead = (ts, eof)) (h : readType eof ts = .ok r) :
    type.run s = (.ok r.value, { s with pos := s.pos + (ts.length - r.rest.length) }) := by
  obtain ⟨rfl, rfl⟩ := Prod.mk.inj (Prod.eta s.ahead ▸ ha)
  rw [type_run, h]

theorem readType_of_run {t : TokenStream} {a : Spanned TypeNode} (h : type.run s = (.ok a, t)) :
    ∃ r, readType s.ahead.2 s.ahead.1 = .ok r ∧ r.value = a := by
  rw [type_run] at h
  split at h
  · next r hr =>
    cases h
    exact ⟨r, hr, rfl⟩
  · cases h

end DeclFront.TokenStream
