import DeclFront.Proofs.Stepping

/-! Where the cursor of a stream can stand, and what going back to a checkpoint restores. The cursor
stands at most one behind the tokens, and only if there is no end mark among them at the end and a
made-up one has been handed out. That one place is lost: going back to it stops in front of the end
mark, which is then handed out again. -/

namespace DeclFront.TokenStream

/-! ### Moves -/

/-- What can be asked of a stream, apart from looking at it. -/
inductive Move
  | advance
  | draw
  | takeWhile (p : TokenKind → Except Diagnostic Bool)
  | drainUntil (stop : Token → Except Diagnostic Bool)
  | name
  | type
  | rewind (checkpoint : Nat)
  | restart

namespace Move

def Answer : Move → Type
  | advance | draw => Token
  | takeWhile _ | drainUntil _ => List Token
  | name => Spanned Name
  | type => Spanned TypeNode
  | rewind _ | restart => Unit

def step : (m : Move) → Step m.Answer
  | advance => TokenStream.advance
  | draw => TokenStream.draw
  | takeWhile p => TokenStream.takeWhile p
  | drainUntil stop => TokenStream.drainUntil (fun t => takeWhileUpTo.liftExcept (stop t))
  | name => TokenStream.name
  | type => TokenStream.type
  | rewind checkpoint => TokenStream.rewind checkpoint
  | restart => TokenStream.restart

/-- The move hands out tokens as a supplier does, the last end mark included. -/
def supplies : Move → Bool
  | draw | drainUntil _ => true
  | _ => false

end Move

/-- The stream after some moves. One that fails is followed by the next one all the same. -/
def after (s : TokenStream) (moves : List Move) : TokenStream :=
  moves.foldl (fun s m => (m.step.run s).2) s

/-- Takes a checkpoint, makes some moves, and goes back to the checkpoint. -/
def excursion (moves : List Move) : Step Unit := do
  let start ← checkpoint
  modify (fun s => s.after moves)
  rewind start

/-! ### Where the cursor stands -/

/-- A stream over the given tokens whose cursor does not stand behind a limit. -/
structure Within (tokens : List Token) (limit : Nat) (restarted : Bool) (s : TokenStream) : Prop where
  tokens_eq : s.tokens = tokens
  pos_le : s.pos ≤ limit
  restarted_eq : s.restarted = restarted

/-- The step leaves every such stream within the same limit. -/
def Confined {α : Type} (tokens : List Token) (limit : Nat) (x : Step α) : Prop :=
  ∀ restarted s, Within tokens limit restarted s → Within tokens limit restarted (x.run s).2

section Confined

variable {α β : Type} {tokens : List Token} {limit : Nat}

theorem Confined.of_run {x : Step α} (h : ∀ s, (x.run s).2 = s) : Confined tokens limit x := by
  intro restarted s hs
  rw [h]
  exact hs

theorem Confined.bind {x : Step α} {f : α → Step β} (hx : Confined tokens limit x)
    (hf : ∀ a, Confined tokens limit (f a)) : Confined tokens limit (x >>= f) := by
  intro restarted s hs
  have ht := hx restarted s hs
  rw [run_bind]
  generalize x.run s = r at ht ⊢
  obtain ⟨_ | a, t⟩ := r
  · exact ht
  · exact hf a restarted t ht

theorem confined_get : Confined tokens limit (get : Step TokenStream) := .of_run (fun _ => rfl)

theorem confined_pure (a : α) : Confined tokens limit (pure a : Step α) := .of_run (fun _ => rfl)

theorem confined_liftExcept (r : Except Diagnostic Bool) :
    Confined tokens limit (takeWhileUpTo.liftExcept r) := .of_run (fun _ => rfl)

theorem Within.move {restarted : Bool} {s : TokenStream} {pos : Nat}
    (h : Within tokens limit restarted s) (hpos : pos ≤ limit) :
    Within tokens limit restarted { s with pos := pos } :=
  ⟨h.tokens_eq, hpos, h.restarted_eq⟩

end Confined

variable {tokens : List Token} {limit : Nat} {s : TokenStream}

theorem isEnd_endMark (s : TokenStream) : s.endMark.isEnd = true := by
  unfold endMark
  cases s.tokens.getLast? with
  | none => rfl
  | some t =>
    dsimp only
    by_cases ht : t.isEnd = true
    · rw [if_pos ht]
      exact ht
    · rw [if_neg ht]
      rfl

theorem pos_lt_of_atEnd (h : s.atEnd = false) : s.pos < s.tokens.length := by
  refine Nat.lt_of_not_le (fun hle => ?_)
  have hnone : s.tokens[s.pos]? = none := List.getElem?_eq_none hle
  simp [atEnd, peek, peekNth, hnone, isEnd_endMark] at h

theorem advance_run (s : TokenStream) :
    advance.run s = (.ok s.peek, if s.atEnd then s else { s with pos := s.pos + 1 }) := by
  unfold advance
  simp only [run_bind, run_get]
  by_cases hend : s.atEnd = true
  · simp only [hend, if_true, run_pure]
  · simp only [hend, Bool.false_eq_true, if_false, run_bind, run_set, run_pure]

theorem draw_run (s : TokenStream) :
    draw.run s =
      if s.supply ≤ s.pos then (.error (.unexpectedEnd "another token" s.endMark.span.stop), s)
      else (.ok s.peek, { s with pos := s.pos + 1 }) := by
  unfold draw
  simp only [run_bind, run_get]
  by_cases hpos : s.supply ≤ s.pos
  · simp only [hpos, if_true, run_bind, run_throw]
  · simp only [hpos, if_false, run_bind, run_set, run_pure]

theorem length_le_supply (s : TokenStream) : s.tokens.length ≤ s.supply := by
  unfold supply
  split <;> omega

theorem supply_le (s : TokenStream) : s.supply ≤ s.tokens.length + 1 := by
  unfold supply
  split <;> omega

theorem supply_of_end (h : s.tokens.getLast?.any Token.isEnd = true) :
    s.supply = s.tokens.length := by
  unfold supply
  rw [if_pos h]

theorem Within.supply_eq {restarted : Bool} (hs : Within tokens limit restarted s) :
    s.supply = (ofTokens tokens).supply := by
  unfold supply
  rw [hs.tokens_eq]
  rfl

theorem confined_advance (hl : tokens.length ≤ limit) : Confined tokens limit advance := by
  intro restarted s hs
  rw [advance_run]
  by_cases hend : s.atEnd = true
  · simpa only [hend, if_true] using hs
  · have hpos := pos_lt_of_atEnd (Bool.eq_false_iff.mpr hend)
    rw [hs.tokens_eq] at hpos
    simpa only [hend, Bool.false_eq_true, if_false] using hs.move (Nat.le_trans hpos hl)

theorem confined_draw (hl : (ofTokens tokens).supply ≤ limit) : Confined tokens limit draw := by
  intro restarted s hs
  have hsupply := hs.supply_eq
  rw [draw_run]
  by_cases hpos : s.supply ≤ s.pos
  · simpa only [hpos, if_true] using hs
  · simpa only [hpos, if_false] using hs.move (by omega)

theorem confined_drainUntil {draw : Step Token} {stop : Token → Step Bool}
    (hd : Confined tokens limit draw) (hs : ∀ t, Confined tokens limit (stop t)) (fuel : Nat) :
    Confined tokens limit (Fallible.drainUntil draw stop fuel) := by
  induction fuel with
  | zero => exact confined_pure _
  | succ fuel ih =>
    refine hd.bind (fun t => (hs t).bind (fun found => ?_))
    cases found with
    | true => exact confined_pure _
    | false => exact ih.bind (fun _ => confined_pure _)

theorem confined_takeWhileUpTo (hl : tokens.length ≤ limit)
    (p : TokenKind → Except Diagnostic Bool) (fuel : Nat) :
    Confined tokens limit (takeWhileUpTo p fuel) := by
  induction fuel with
  | zero => exact confined_pure _
  | succ fuel ih =>
    refine confined_get.bind (fun s => ?_)
    by_cases hend : s.atEnd = true
    · simpa [hend] using confined_pure _
    · have hmore : Confined tokens limit (do
          let t ← advance
          let more ← takeWhileUpTo p fuel
          return t :: more) :=
        (confined_advance hl).bind (fun _ => ih.bind (fun _ => confined_pure _))
      simp only [hend, Bool.false_eq_true, if_false]
      refine (confined_liftExcept _).bind (fun found => ?_)
      cases found with
      | true => exact hmore
      | false => exact confined_pure _

theorem confined_reading {α : Type} (hl : tokens.length ≤ limit)
    (read : Token → (ts : List Token) → Reading α ts) : Confined tokens limit (reading read) := by
  intro restarted s hs
  have hahead : s.ahead.1.length ≤ tokens.length - s.pos := by
    have hle := (List.takeWhile_sublist (l := s.tokens.drop s.pos) (fun t => !t.isEnd)).length_le
    rw [List.length_drop, hs.tokens_eq] at hle
    rw [← hs.tokens_eq] at hle ⊢
    exact hle
  have hpos := hs.pos_le
  rw [reading_run]
  cases read s.ahead.2 s.ahead.1 with
  | ok r => exact hs.move (by omega)
  | error stop => exact hs.move (by omega)

theorem confined_rewind (hl : tokens.length ≤ limit) (checkpoint : Nat) :
    Confined tokens limit (rewind checkpoint) := by
  intro restarted s hs
  have hle : min checkpoint s.tokens.length ≤ limit := by
    rw [hs.tokens_eq]
    omega
  exact hs.move hle

theorem confined_type (hl : tokens.length ≤ limit) : Confined tokens limit type := by
  intro restarted s hs
  have hread := confined_reading hl readType restarted s hs
  rw [reading_run] at hread
  rw [type_run]
  generalize readType s.ahead.2 s.ahead.1 = r at hread ⊢
  cases r with
  | ok r => exact hread
  | error stop => exact confined_rewind hl s.pos restarted s hs

/-! ### Moves keep the cursor in bounds -/

theorem Move.confined {m : Move} (hm : m.supplies = true → (ofTokens tokens).supply ≤ limit)
    (hl : tokens.length ≤ limit) (hr : m ≠ .restart) : Confined tokens limit m.step := by
  cases m with
  | advance => exact confined_advance hl
  | draw => exact confined_draw (hm rfl)
  | takeWhile p =>
    exact confined_get.bind (fun s => confined_takeWhileUpTo hl p _)
  | drainUntil stop =>
    exact confined_get.bind (fun s =>
      confined_drainUntil (confined_draw (hm rfl)) (fun t => confined_liftExcept _) _)
  | name => exact confined_reading hl readName
  | type => exact confined_type hl
  | rewind checkpoint => exact confined_rewind hl checkpoint
  | restart => exact absurd rfl hr

theorem restart_within {restarted : Bool} (hs : Within tokens limit restarted s) :
    ∃ restarted', Within tokens limit restarted' (restart.run s).2 := by
  unfold restart
  simp only [run_bind, run_get]
  by_cases hr : s.restarted = true
  · exact ⟨restarted, by simpa only [hr, if_true, run_bind, run_throw] using hs⟩
  · have hfresh : Within tokens limit true { s with pos := 0, restarted := true } :=
      ⟨hs.tokens_eq, Nat.zero_le _, rfl⟩
    exact ⟨true, by simpa only [hr, Bool.false_eq_true, if_false, run_bind, run_pure, run_set] using hfresh⟩

theorem within_ofTokens (tokens : List Token) (limit : Nat) :
    Within tokens limit false (ofTokens tokens) :=
  ⟨rfl, Nat.zero_le _, rfl⟩

theorem Within.after {restarted : Bool} {moves : List Move} (hs : Within tokens limit restarted s)
    (hm : ∀ m ∈ moves, m.supplies = true → (ofTokens tokens).supply ≤ limit)
    (hl : tokens.length ≤ limit) :
    ∃ restarted', Within tokens limit restarted' (s.after moves) ∧
      (.restart ∉ moves → restarted' = restarted) := by
  induction moves generalizing s restarted with
  | nil => exact ⟨restarted, hs, fun _ => rfl⟩
  | cons m moves ih =>
    obtain ⟨hhead, htail⟩ := List.forall_mem_cons.mp hm
    by_cases hr : m = .restart
    · subst hr
      obtain ⟨_, ht⟩ := restart_within hs
      obtain ⟨restarted', hmoves, -⟩ := ih ht htail
      exact ⟨restarted', hmoves, fun hnot => absurd List.mem_cons_self hnot⟩
    · have ht := Move.confined hhead hl hr restarted s hs
      obtain ⟨restarted', hmoves, hsame⟩ := ih ht htail
      exact ⟨restarted', hmoves, fun hnot => hsame (fun hmem => hnot (List.mem_cons_of_mem _ hmem))⟩

/-! ### Going back -/

theorem excursion_run (moves : List Move) (s : TokenStream) :
    (excursion moves).run s =
      (.ok (), { s.after moves with pos := min s.pos (s.after moves).tokens.length }) := by
  simp only [excursion, checkpoint, rewind, run_bind, run_get, run_pure, run_modify]

/-- Only the place behind the tokens is not found again. -/
theorem Within.excursion {restarted : Bool} {moves : List Move}
    (hs : Within tokens (ofTokens tokens).supply restarted s) (hr : .restart ∉ moves) :
    ((excursion moves).run s).2 = { s with pos := min s.pos tokens.length } := by
  have hlimit : ∀ m ∈ moves, m.supplies = true → (ofTokens tokens).supply ≤ _ :=
    fun _ _ _ => Nat.le_refl _
  obtain ⟨_, hmoves, hsame⟩ := hs.after hlimit (ofTokens tokens).length_le_supply
  have htokens : (s.after moves).tokens = s.tokens := hmoves.tokens_eq.trans hs.tokens_eq.symm
  have hrestarted : (s.after moves).restarted = s.restarted :=
    (hmoves.restarted_eq.trans (hsame hr)).trans hs.restarted_eq.symm
  rw [excursion_run, hmoves.tokens_eq]
  dsimp only
  rw [htokens, hrestarted]

/-- Behind the tokens there is nothing left, but right behind the last one there is an end mark. -/
theorem draw_behind (hpos : s.tokens.length < s.pos) (hs : s.pos ≤ s.supply) :
    (draw.run s).1 = .error (.unexpectedEnd "another token" s.endMark.span.stop) ∧
      (draw.run { s with pos := s.tokens.length }).1 = .ok s.endMark := by
  have hsupply := s.supply_le
  have hpeek : peek { s with pos := s.tokens.length } = s.endMark := by
    have hnone : s.tokens[s.tokens.length]? = none := List.getElem?_eq_none (Nat.le_refl _)
    simp only [peek, peekNth, Nat.add_zero, hnone]
    rfl
  have hleft : ¬ supply { s with pos := s.tokens.length } ≤ s.tokens.length := by
    show ¬ s.supply ≤ s.tokens.length
    omega
  constructor
  · rw [draw_run, if_pos (by omega)]
  · rw [draw_run, if_neg hleft, hpeek]

/-- Going back to a checkpoint restores the stream, whatever was read in between, so everything that
is asked of it from then on has the same answer, unless the checkpoint was taken behind the tokens.
The cursor only gets there where no end mark ends the tokens, and a made-up one has been handed out.
Going back then stops in front of the made-up end mark, and a stream that had nothing left hands it
out once more. -/
theorem rewind_checkpoint (tokens : List Token) (before more : List Move) (hr : .restart ∉ more) :
    let s := (ofTokens tokens).after before
    let back := ((excursion more).run s).2
    (tokens.getLast?.any Token.isEnd = true ∨ (∀ m ∈ before, m.supplies = false) →
      s.pos ≤ tokens.length) ∧
    (s.pos ≤ tokens.length → back = s) ∧
    (tokens.length < s.pos →
      s.pos = tokens.length + 1 ∧ back = { s with pos := tokens.length } ∧
      (draw.run s).1 = .error (.unexpectedEnd "another token" s.endMark.span.stop) ∧
      (draw.run back).1 = .ok s.endMark) := by
  intro s back
  have hlimit : ∀ m ∈ before, m.supplies = true → (ofTokens tokens).supply ≤ _ :=
    fun _ _ _ => Nat.le_refl _
  obtain ⟨restarted, hs, -⟩ :=
    (within_ofTokens tokens _).after hlimit (ofTokens tokens).length_le_supply
  have hback : back = { s with pos := min s.pos tokens.length } := hs.excursion hr
  have hle : s.pos ≤ s.supply := by
    rw [hs.supply_eq]
    exact hs.pos_le
  refine ⟨?_, ?_, ?_⟩
  · rintro (hend | hnone)
    · rw [← hs.tokens_eq] at hend ⊢
      rwa [supply_of_end hend] at hle
    · -- Without a supplier the cursor is confined to the tokens themselves.
      have hquiet : ∀ m ∈ before, m.supplies = true → (ofTokens tokens).supply ≤ tokens.length :=
        fun m hm hsup => absurd hsup (by simp [hnone m hm])
      obtain ⟨_, hs', -⟩ := (within_ofTokens tokens tokens.length).after hquiet (Nat.le_refl _)
      exact hs'.pos_le
  · intro hpos
    rw [hback, Nat.min_eq_left hpos]
  · intro hpos
    have hsupply := s.supply_le
    have heq : back = { s with pos := tokens.length } := by
      rw [hback, Nat.min_eq_right (Nat.le_of_lt hpos)]
    have hlength : s.tokens.length = tokens.length := congrArg List.length hs.tokens_eq
    rw [heq, ← hlength]
    exact ⟨by omega, rfl, draw_behind (by omega) hle⟩

/-- A type that cannot be read, behind a modifier that the list ends with. -/
theorem rewind_checkpoint_before_modifier :
    let word : Token := ⟨.keyword (.modifier .final), "final", ⟨2, 7⟩⟩
    let s := (ofTokens [⟨.ident, "a", ⟨0, 1⟩⟩, word]).after [.advance]
    s.pos = 1 ∧ ((excursion [.type, .draw, .draw, .rewind 0]).run s).2 = s := by
  intro word s
  have hr : Move.restart ∉ [Move.type, .draw, .draw, .rewind 0] := by simp
  exact ⟨rfl, (rewind_checkpoint _ [.advance] _ hr).2.1 (by decide)⟩

/-- Behind the made-up end mark, nothing is read in between. -/
theorem rewind_behind_end_mark :
    let s := (ofTokens [⟨.ident, "a", ⟨0, 1⟩⟩]).after [.draw, .draw]
    let back := ((excursion []).run s).2
    s.pos = 2 ∧ back.pos = 1 ∧ s.previousSpan = .point 0 ∧ back.previousSpan = ⟨0, 1⟩ ∧
      (draw.run s).1 = .error (.unexpectedEnd "another token" 1) ∧
      (draw.run back).1 = .ok (.endAt 1) :=
  ⟨rfl, rfl, rfl, rfl, rfl, rfl⟩

end DeclFront.TokenStream
