import DeclFront.Proofs.Rewinding
import DeclFront.Proofs.Stateful

/-! Which tokens a stream has consumed, and the span of the last of them. The span is looked up in
front of the cursor, so it is not found if the last token is a made-up end mark: the start of the text
is given instead. -/

namespace DeclFront.TokenStream

open Fallible

/-! ### Consumed tokens -/

/-- The cursor moves over its current token. -/
def Passes (s : TokenStream) (t : Token) (u : TokenStream) : Prop :=
  t = s.peek ∧ u = { s with pos := s.pos + 1 }

namespace Move

/-- The move takes the tokens as they come. -/
def consumes : Move → Bool
  | advance | draw | takeWhile _ | drainUntil _ => true
  | name | type | rewind _ | restart => false

def handed : (m : Move) → m.Answer → List Token
  | advance, (t : Token) | draw, (t : Token) => [t]
  | takeWhile _, (ts : List Token) | drainUntil _, (ts : List Token) => ts
  | name, _ | type, _ | rewind _, _ | restart, _ => []

/-- The move takes the cursor over these tokens. They are the ones that it hands out, unless it fails
or does not move the cursor. -/
structure Consumes (m : Move) (s : TokenStream) (ts : List Token) : Prop where
  passes : Along Passes s ts (m.step.run s).2
  handed_eq : ∀ a, (m.step.run s).1 = .ok a → ts ≠ [] → m.handed a = ts

end Move

/-- The tokens that some moves consume, one move after the other. -/
inductive Reads : TokenStream → List Move → List Token → Prop
  | nil (s : TokenStream) : Reads s [] []
  | cons {s : TokenStream} {m : Move} {moves : List Move} {ts more : List Token} :
      m.Consumes s ts → Reads (m.step.run s).2 moves more → Reads s (m :: moves) (ts ++ more)

variable {s t u : TokenStream} {ts : List Token}

/-- The tokens that were passed are the ones that stood ahead. -/
theorem along_passes (h : Along Passes s ts u) :
    ts = (List.range ts.length).map s.peekNth ∧ u = { s with pos := s.pos + ts.length } := by
  induction h with
  | nil s => exact ⟨rfl, rfl⟩
  | @cons s t u a as hstep _ ih =>
    obtain ⟨rfl, rfl⟩ := hstep
    obtain ⟨hahead, rfl⟩ := ih
    have hnext : ∀ i, peekNth i { s with pos := s.pos + 1 } = s.peekNth (i + 1) := by
      intro i
      show (s.tokens[s.pos + 1 + i]?).getD s.endMark = (s.tokens[s.pos + (i + 1)]?).getD s.endMark
      rw [Nat.add_assoc, Nat.add_comm 1 i]
    constructor
    · rw [List.length_cons, List.range_succ_eq_map, List.map_cons, List.map_map]
      refine congrArg (s.peek :: ·) (hahead.trans (List.map_congr_left (fun i _ => hnext i)))
    · rw [List.length_cons, Nat.add_right_comm, Nat.add_assoc]

theorem eq_of_along_passes {ts' : List Token} (h : Along Passes s ts u) (h' : Along Passes s ts' u) :
    ts = ts' := by
  obtain ⟨hts, hu⟩ := along_passes h
  obtain ⟨hts', hu'⟩ := along_passes h'
  have hlength : ts.length = ts'.length := by
    have hpos := congrArg pos (hu.symm.trans hu')
    simpa using hpos
  rw [hts, hts', hlength]

/-! ### What a move consumes -/

theorem passes_of_draw {a : Token} (h : draw.run s = (.ok a, u)) : Passes s a u := by
  rw [draw_run] at h
  by_cases hpos : s.supply ≤ s.pos
  · rw [if_pos hpos] at h
    cases h
  · rw [if_neg hpos] at h
    cases h
    exact ⟨rfl, rfl⟩

theorem eq_of_draw_error {d : Diagnostic} (h : draw.run s = (.error d, u)) : u = s := by
  rw [draw_run] at h
  by_cases hpos : s.supply ≤ s.pos
  · rw [if_pos hpos] at h
    cases h
    rfl
  · rw [if_neg hpos] at h
    cases h

theorem run_liftExcept (r : Except Diagnostic Bool) (s : TokenStream) :
    (takeWhileUpTo.liftExcept r).run s = (r, s) := rfl

theorem takeWhileUpTo_run (p : TokenKind → Except Diagnostic Bool) (limit : Nat) (s : TokenStream) :
    (takeWhileUpTo p (limit + 1)).run s =
      if s.atEnd then (.ok [], s)
      else
        match p s.peek.kind with
        | .error d => (.error d, s)
        | .ok false => (.ok [], s)
        | .ok true =>
          (((takeWhileUpTo p limit).run { s with pos := s.pos + 1 }).1.map (s.peek :: ·),
            ((takeWhileUpTo p limit).run { s with pos := s.pos + 1 }).2) := by
  rw [takeWhileUpTo, run_bind, run_get]
  dsimp only
  by_cases hend : s.atEnd = true
  · rw [if_pos hend, if_pos hend, run_pure]
  · rw [if_neg hend, if_neg hend, run_bind, run_liftExcept]
    rcases p s.peek.kind with d | _ | _
    · rfl
    · rfl
    · dsimp only
      rw [if_pos rfl, run_bind, advance_run, if_neg hend]
      dsimp only
      rw [run_bind]
      rcases (takeWhileUpTo p limit).run { s with pos := s.pos + 1 } with ⟨_ | _, u⟩ <;> rfl

/-- The cursor passes some tokens, which the step gives unless it fails. -/
def Collects (x : Step (List Token)) (s : TokenStream) : Prop :=
  ∃ ts, Along Passes s ts (x.run s).2 ∧ ∀ a, (x.run s).1 = .ok a → a = ts

theorem takeWhileUpTo_collects (p : TokenKind → Except Diagnostic Bool) (limit : Nat)
    (s : TokenStream) : Collects (takeWhileUpTo p limit) s := by
  induction limit generalizing s with
  | zero => exact ⟨[], .nil s, fun a h => by cases h; rfl⟩
  | succ limit ih =>
    rw [Collects, takeWhileUpTo_run]
    split
    · exact ⟨[], .nil s, fun a h => by cases h; rfl⟩
    · split
      · exact ⟨[], .nil s, fun a h => by cases h⟩
      · exact ⟨[], .nil s, fun a h => by cases h; rfl⟩
      · obtain ⟨ts, hts, hgiven⟩ := ih { s with pos := s.pos + 1 }
        refine ⟨s.peek :: ts, .cons ⟨rfl, rfl⟩ hts, fun a ha => ?_⟩
        dsimp only at ha
        cases hmore : ((takeWhileUpTo p limit).run { s with pos := s.pos + 1 }).1 with
        | error d =>
          rw [hmore] at ha
          cases ha
        | ok more =>
          rw [hmore] at ha
          cases ha
          rw [hgiven more hmore]

theorem passes_of_rejects {stop : Token → Except Diagnostic Bool} {a : Token}
    (h : Rejects draw (fun t => takeWhileUpTo.liftExcept (stop t)) s a u) : Passes s a u := by
  obtain ⟨t, hdraw, hstop⟩ := h
  obtain ⟨-, rfl⟩ := Prod.mk.inj hstop
  exact passes_of_draw hdraw

theorem drainUntil_collects (stop : Token → Except Diagnostic Bool) (limit : Nat) (s : TokenStream) :
    Collects (Fallible.drainUntil draw (fun t => takeWhileUpTo.liftExcept (stop t)) limit) s := by
  obtain ⟨passed, t, halong, hend⟩ :=
    exhausts_or_finishes draw (fun t => takeWhileUpTo.liftExcept (stop t)) limit s
  have hpassed : Along Passes s passed t := halong.imp (fun _ _ _ => passes_of_rejects)
  rcases hend with rfl | ⟨hlimit, last, u, hlast⟩
  · rw [Collects, run_drainUntil_exhausted halong]
    exact ⟨passed, hpassed, fun a h => by cases h; rfl⟩
  · rw [Collects, run_drainUntil halong hlast hlimit]
    -- A failing source leaves the cursor, but a failing test stands behind a token that was drawn.
    cases hlast with
    | unsupplied hdraw =>
      cases eq_of_draw_error hdraw
      exact ⟨passed, hpassed, nofun⟩
    | untested hdraw hstop =>
      obtain ⟨-, rfl⟩ := Prod.mk.inj hstop
      exact ⟨_, hpassed.concat (passes_of_draw hdraw), nofun⟩
    | accepted hdraw hstop =>
      obtain ⟨-, rfl⟩ := Prod.mk.inj hstop
      exact ⟨_, hpassed.concat (passes_of_draw hdraw), fun a h => by cases h; rfl⟩

theorem Move.Consumes.of_run {m : Move} {r : Except Diagnostic m.Answer}
    (hrun : m.step.run s = (r, u)) (hpasses : Along Passes s ts u)
    (hhanded : ∀ a, r = .ok a → ts ≠ [] → m.handed a = ts) : m.Consumes s ts := by
  constructor
  · rw [hrun]
    exact hpasses
  · rw [hrun]
    exact hhanded

theorem Move.exists_consumes {m : Move} (hm : m.consumes = true) (s : TokenStream) :
    ∃ ts, m.Consumes s ts := by
  cases m with
  | advance =>
    have hrun := advance_run s
    by_cases hend : s.atEnd = true
    · rw [if_pos hend] at hrun
      exact ⟨[], .of_run (m := .advance) hrun (.nil s) (fun _ _ hne => absurd rfl hne)⟩
    · rw [if_neg hend] at hrun
      have hpasses : Along Passes s [s.peek] { s with pos := s.pos + 1 } :=
        .cons ⟨rfl, rfl⟩ (.nil _)
      exact ⟨[s.peek], .of_run (m := .advance) hrun hpasses (fun a ha _ => by cases ha; rfl)⟩
  | draw =>
    rcases hrun : TokenStream.draw.run s with ⟨d | t, u⟩
    · cases eq_of_draw_error hrun
      exact ⟨[], .of_run (m := .draw) hrun (.nil s) nofun⟩
    · have hpasses : Along Passes s [t] u := .cons (passes_of_draw hrun) (.nil u)
      exact ⟨[t], .of_run (m := .draw) hrun hpasses (fun a ha _ => by cases ha; rfl)⟩
  | takeWhile p =>
    obtain ⟨ts, hts, hgiven⟩ := takeWhileUpTo_collects p (s.tokens.length - s.pos) s
    exact ⟨ts, hts, fun a ha _ => hgiven a ha⟩
  | drainUntil stop =>
    obtain ⟨ts, hts, hgiven⟩ := drainUntil_collects stop (s.supply - s.pos + 1) s
    exact ⟨ts, hts, fun a ha _ => hgiven a ha⟩
  | name | type | rewind checkpoint | restart => cases hm

theorem exists_reads {moves : List Move} (hm : ∀ m ∈ moves, m.consumes = true) (s : TokenStream) :
    ∃ ts, Reads s moves ts := by
  induction moves generalizing s with
  | nil => exact ⟨[], .nil s⟩
  | cons m moves ih =>
    obtain ⟨hhead, htail⟩ := List.forall_mem_cons.mp hm
    obtain ⟨ts, hts⟩ := m.exists_consumes hhead s
    obtain ⟨more, hmore⟩ := ih htail (m.step.run s).2
    exact ⟨ts ++ more, .cons hts hmore⟩

theorem Reads.passes {moves : List Move} (h : Reads s moves ts) :
    Along Passes s ts (s.after moves) := by
  induction h with
  | nil s => exact .nil s
  | cons hts _ ih => exact hts.passes.append ih

/-! ### The span of the last consumed token -/

theorem Passes.previousSpan {t : Token} (h : Passes s t u) :
    (s.pos < s.tokens.length → u.previousSpan = t.span) ∧
      (s.tokens.length ≤ s.pos → t = s.endMark ∧ u.previousSpan = .point 0) := by
  obtain ⟨rfl, rfl⟩ := h
  constructor
  · intro hpos
    have hsome : s.tokens[s.pos]? = some s.tokens[s.pos] := List.getElem?_eq_getElem hpos
    simp [TokenStream.previousSpan, peek, peekNth, hsome]
  · intro hpos
    have hnone : s.tokens[s.pos]? = none := List.getElem?_eq_none hpos
    simp [TokenStream.previousSpan, peek, peekNth, hnone]

theorem pos_after_le (tokens : List Token) (moves : List Move) :
    ((ofTokens tokens).after moves).pos ≤ (ofTokens tokens).supply := by
  have hlimit : ∀ m ∈ moves, m.supplies = true → (ofTokens tokens).supply ≤ _ :=
    fun _ _ _ => Nat.le_refl _
  obtain ⟨_, hs, -⟩ :=
    (within_ofTokens tokens _).after hlimit (ofTokens tokens).length_le_supply
  exact hs.pos_le

/-- What some moves consume is determined, and the span in front of the cursor is the one of the token
that was consumed last, or the start of the text if there is none. Only a made-up end mark is not
found: behind it, where the cursor gets if no end mark ends the tokens, the start of the text is given
as well. -/
theorem previousSpan_last_consumed (tokens : List Token) (moves : List Move)
    (hm : ∀ m ∈ moves, m.consumes = true) :
    let s := (ofTokens tokens).after moves
    ∃ consumed, (∀ ts, Reads (ofTokens tokens) moves ts ↔ ts = consumed) ∧
      consumed.length = s.pos ∧ (consumed = [] → s.previousSpan = .point 0) ∧
      ∀ earlier last, consumed = earlier ++ [last] →
        (s.pos ≤ tokens.length → s.previousSpan = last.span) ∧
        (tokens.length < s.pos → tokens.getLast?.any Token.isEnd = false ∧
          last = (ofTokens tokens).endMark ∧ s.previousSpan = .point 0) := by
  intro s
  obtain ⟨consumed, hreads⟩ := exists_reads hm (ofTokens tokens)
  have halong : Along Passes (ofTokens tokens) consumed s := hreads.passes
  have hs := (along_passes halong).2
  have hpos : s.pos = consumed.length := by
    rw [hs]
    exact Nat.zero_add _
  have hunique : ∀ ts, Reads (ofTokens tokens) moves ts ↔ ts = consumed :=
    fun ts => ⟨fun h => eq_of_along_passes h.passes halong, fun h => h ▸ hreads⟩
  refine ⟨consumed, hunique, hpos.symm, ?_, ?_⟩
  · rintro rfl
    rw [hs]
    rfl
  · rintro earlier last rfl
    obtain ⟨t, hfront, hstep⟩ := halong.of_concat
    obtain ⟨-, rfl⟩ := along_passes hfront
    obtain ⟨hfound, hbehind⟩ := hstep.previousSpan
    have hlength : s.pos = 0 + earlier.length + 1 := by
      rw [hpos, List.length_append, Nat.zero_add]
      rfl
    constructor
    · intro hle
      exact hfound (show 0 + earlier.length < tokens.length by omega)
    · intro hlt
      refine ⟨Bool.eq_false_iff.mpr (fun hend => ?_),
        hbehind (show tokens.length ≤ 0 + earlier.length by omega)⟩
      have hle : s.pos ≤ (ofTokens tokens).supply := pos_after_le tokens moves
      rw [supply_of_end (s := ofTokens tokens) hend] at hle
      exact absurd hle (Nat.not_le_of_lt hlt)

/-- Two modifiers are taken together, and a name is drawn behind them. -/
theorem previousSpan_last_consumed_modifiers :
    let first : Token := ⟨.keyword (.modifier .pub), "public", ⟨0, 6⟩⟩
    let second : Token := ⟨.keyword (.modifier .static), "static", ⟨7, 13⟩⟩
    let name : Token := ⟨.ident, "x", ⟨14, 15⟩⟩
    let moves := [.takeWhile (fun kind => .ok (kind != .ident)), .draw]
    let s := (ofTokens [first, second, name]).after moves
    (∀ m ∈ moves, m.consumes = true) ∧
      Reads (ofTokens [first, second, name]) moves [first, second, name] ∧
      s.previousSpan = name.span := by
  intro first second name moves s
  have hm : ∀ m ∈ moves, m.consumes = true := by simp [moves, Move.consumes]
  have hreads : Reads (ofTokens [first, second, name]) moves ([first, second] ++ ([name] ++ [])) :=
    .cons ⟨.cons ⟨rfl, rfl⟩ (.cons ⟨rfl, rfl⟩ (.nil _)), fun a h _ => by cases h; rfl⟩
      (.cons ⟨.cons ⟨rfl, rfl⟩ (.nil _), fun a h _ => by cases h; rfl⟩ (.nil _))
  obtain ⟨consumed, hunique, -, -, hlast⟩ := previousSpan_last_consumed _ moves hm
  have hconsumed : consumed = [first, second] ++ [name] := ((hunique _).mp hreads).symm
  exact ⟨hm, hreads, (hlast [first, second] name hconsumed).1 (Nat.le_refl 3)⟩

/-- The made-up end mark behind the only token is drawn too. -/
theorem previousSpan_behind_end_mark :
    let s := (ofTokens [⟨.ident, "a", ⟨0, 1⟩⟩]).after [.draw]
    (draw.run s).1 = .ok (.endAt 1) ∧ (draw.run s).2.pos = 2 ∧ (Token.endAt 1).span = ⟨1, 1⟩ ∧
      (draw.run s).2.previousSpan = ⟨0, 0⟩ :=
  ⟨rfl, rfl, rfl, rfl⟩

end DeclFront.TokenStream
