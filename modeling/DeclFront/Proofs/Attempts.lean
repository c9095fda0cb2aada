import DeclFront.Grammar

/-! What the productions of a unit come to if each of them is tried, whatever became of the ones
before it, and how much of that a run gets to see: under the policy that stops it sees no more than
the first fault, and an interrupt may cut it short before. -/

namespace DeclFront

/-! ### All productions of a unit -/

/-- A production's result and the tokens where the next one starts. -/
def attempt {α : Type} (read : (ts : List Token) → Reading α ts) (ts : List Token) :
    Except Diagnostic α × List Token :=
  match read ts with
  | .ok r => (.ok r.value, r.rest)
  | .error stop => (.error stop.diagnostic, skipPast (stop.rest ts))

theorem attempt_lt {α : Type} (read : (ts : List Token) → Reading α ts) {ts : List Token}
    (h : ts ≠ []) : (attempt read ts).2.length < ts.length := by
  unfold attempt
  split
  · next r _ => exact r.shorter
  · next stop _ => exact skipPast_lt h stop

theorem atClause_ne_nil {c : Clause} {ts : List Token} (h : atClause c ts = true) : ts ≠ [] := by
  rintro rfl
  cases h

def tryImports (eof : Token) (ts : List Token) :
    List (Except Diagnostic (Spanned Import)) × List Token :=
  if _h : atClause .imports ts then
    let head := attempt (readImport eof) ts
    let tail := tryImports eof head.2
    (head.1 :: tail.1, tail.2)
  else ([], ts)
termination_by ts.length
decreasing_by exact attempt_lt _ (atClause_ne_nil _h)

def tryMembers (eof : Token) (ts : List Token) : List (Except Diagnostic (Spanned Member)) :=
  match ts with
  | [] => []
  | t :: rest =>
    let head := attempt (readMember eof) (t :: rest)
    head.1 :: tryMembers eof head.2
termination_by ts.length
decreasing_by exact attempt_lt _ (by simp)

structure Attempts where
  package : Option (Except Diagnostic (Spanned Name))
  imports : List (Except Diagnostic (Spanned Import))
  members : List (Except Diagnostic (Spanned Member))

namespace Attempts

def ofTokens (tokens : List Token) : Attempts :=
  let (ts, eof) := cutAtEnd tokens
  let package := if atClause .package ts then some (attempt (readPackage eof) ts) else none
  let imports := tryImports eof ((package.map (·.2)).getD ts)
  ⟨package.map (·.1), imports.1, tryMembers eof imports.2⟩

def unit (a : Attempts) : CompilationUnit :=
  ⟨a.package.bind Except.toOption, a.imports.filterMap Except.toOption,
    a.members.filterMap Except.toOption⟩

/-- The fault of each step: the head of the unit, each import, each member. -/
def faults (a : Attempts) : List (Option Diagnostic) :=
  a.package.bind Diagnostic.of? :: a.imports.map Diagnostic.of? ++ a.members.map Diagnostic.of?

def diagnostics (a : Attempts) : List Diagnostic := a.faults.filterMap id

end Attempts

/-! ### A walk along the faults -/

/-- Walks through steps, asking before each one whether to stop. Gives the reason for stopping, if
there is one, and how often it has been asked in all. -/
def walk (policy : Policy) (interrupt : Interrupt) :
    Nat → List (Option Diagnostic) → Option Halt × Nat
  | asked, [] => (none, asked)
  | asked, fault :: rest =>
    if interrupt asked then (some .interrupted, asked + 1)
    else
      match policy, fault with
      | .failFast, some d => (some (.failed d), asked + 1)
      | _, _ => walk policy interrupt (asked + 1) rest

theorem walk_append (policy : Policy) (interrupt : Interrupt) (asked : Nat)
    (faults more : List (Option Diagnostic)) :
    walk policy interrupt asked (faults ++ more) =
      match walk policy interrupt asked faults with
      | (none, asked) => walk policy interrupt asked more
      | halted => halted := by
  induction faults generalizing asked with
  | nil => rfl
  | cons fault faults ih =>
    simp only [List.cons_append, walk]
    split
    · rfl
    · cases policy <;> cases fault <;> first | rfl | exact ih (asked + 1)

/-! ### The run of the parser -/

/-- A run that does what a walk does. As long as it is not halted, it has come this far. -/
def Halting.Follows (run : Halting) (walked : Option Halt × Nat) (p : Progress) : Prop :=
  run.1 = walked.1 ∧ run.2.asked = walked.2 ∧
    (walked.1 = none → run.2 = { p with asked := walked.2 })

theorem Halting.Follows.goOn {run : Halting} {policy : Policy} {interrupt : Interrupt} {asked : Nat}
    {faults more : List (Option Diagnostic)} {p q : Progress}
    (h : run.Follows (walk policy interrupt asked faults) p) (next : Progress → Halting)
    (hnext : ∀ n, run = (none, { p with asked := n }) →
      (next { p with asked := n }).Follows (walk policy interrupt n more) q) :
    (run.goOn next).Follows (walk policy interrupt asked (faults ++ more)) q := by
  obtain ⟨halt, p'⟩ := run
  rw [walk_append]
  generalize walk policy interrupt asked faults = walked at h ⊢
  obtain ⟨halt', n⟩ := walked
  obtain ⟨hhalt, hasked, hp⟩ := h
  dsimp only at hhalt hasked hp
  subst hhalt
  cases halt with
  | none =>
    rw [hp rfl] at hnext ⊢
    exact hnext n rfl
  | some halt => exact ⟨rfl, hasked, nofun⟩

namespace Progress

variable {α : Type} {policy : Policy} {interrupt : Interrupt}
  {read : (ts : List Token) → Reading α ts} {add : CompilationUnit → α → CompilationUnit}

def tried (add : CompilationUnit → α → CompilationUnit) (p : Progress)
    (tried : List (Except Diagnostic α) × List Token) : Progress :=
  { p with rest := tried.2, unit := (tried.1.filterMap Except.toOption).foldl add p.unit
           kept := p.kept ++ tried.1.filterMap Diagnostic.of? }

/-- One question and one production are one step of a walk. -/
theorem ask_follows {next : Progress → Halting} {fault : Option Diagnostic} {p q : Progress}
    (hgo : policy = .accumulate ∨ fault = none →
      next { p with asked := p.asked + 1 } = (none, { q with asked := p.asked + 1 }))
    (hstop : ∀ d, policy = .failFast → fault = some d → ∃ rest,
      next { p with asked := p.asked + 1 } =
        (some (.failed d), { p with rest := rest, asked := p.asked + 1 })) :
    (p.ask interrupt next).Follows (walk policy interrupt p.asked [fault]) q := by
  unfold ask walk
  dsimp only
  split
  · exact ⟨rfl, rfl, nofun⟩
  · cases policy with
    | accumulate =>
      rw [hgo (.inl rfl)]
      exact ⟨rfl, rfl, fun _ => rfl⟩
    | failFast =>
      cases fault with
      | none =>
        rw [hgo (.inr rfl)]
        exact ⟨rfl, rfl, fun _ => rfl⟩
      | some d =>
        obtain ⟨rest, hfailed⟩ := hstop d rfl rfl
        rw [hfailed]
        exact ⟨rfl, rfl, nofun⟩

theorem take_go (p : Progress)
    (h : policy = .accumulate ∨ Diagnostic.of? (attempt read p.rest).1 = none) :
    p.take policy read add =
      (none, p.tried add ([(attempt read p.rest).1], (attempt read p.rest).2)) := by
  unfold take attempt at *
  cases hread : read p.rest with
  | ok r => simp [tried, Diagnostic.of?, Except.toOption]
  | error stop =>
    obtain rfl : policy = .accumulate := by simpa [hread, Diagnostic.of?] using h
    rfl

theorem take_stop {d : Diagnostic} (p : Progress)
    (h : Diagnostic.of? (attempt read p.rest).1 = some d) :
    ∃ rest, p.take .failFast read add = (some (.failed d), { p with rest := rest }) := by
  unfold take attempt at *
  cases hread : read p.rest with
  | ok r => simp [hread, Diagnostic.of?] at h
  | error stop =>
    simp only [hread, Diagnostic.of?, Option.some.injEq] at h
    exact ⟨_, by rw [← h]; rfl⟩

theorem ask_take_follows (policy : Policy) (interrupt : Interrupt)
    (read : (ts : List Token) → Reading α ts) (add : CompilationUnit → α → CompilationUnit)
    (p : Progress) :
    (p.ask interrupt (take policy read add)).Follows
      (walk policy interrupt p.asked [Diagnostic.of? (attempt read p.rest).1])
      (p.tried add ([(attempt read p.rest).1], (attempt read p.rest).2)) := by
  refine ask_follows (fun hgo => take_go { p with asked := p.asked + 1 } hgo)
    (fun d hpolicy hd => ?_)
  subst hpolicy
  exact take_stop { p with asked := p.asked + 1 } hd

/-- As long as there is more for a production, its attempts go on as one list says. -/
structure Tries (more : List Token → Bool) (read : (ts : List Token) → Reading α ts)
    (tries : List Token → List (Except Diagnostic α) × List Token) : Prop where
  done {ts : List Token} : ¬ (ts ≠ [] ∧ more ts = true) → tries ts = ([], ts)
  step {ts : List Token} : ts ≠ [] ∧ more ts = true →
    tries ts = ((attempt read ts).1 :: (tries (attempt read ts).2).1, (tries (attempt read ts).2).2)

@[simp] theorem tried_nil (add : CompilationUnit → α → CompilationUnit) (p : Progress) :
    p.tried add ([], p.rest) = p := by
  simp [tried]

theorem tried_cons (add : CompilationUnit → α → CompilationUnit) (p : Progress)
    (r : Except Diagnostic α) (rest rest' : List Token) (rs : List (Except Diagnostic α)) :
    (p.tried add ([r], rest)).tried add (rs, rest') = p.tried add (r :: rs, rest') := by
  cases r <;> simp [tried, List.filterMap_cons, Diagnostic.of?, Except.toOption]

/-- The loop over one kind of production walks along the faults of its attempts. -/
theorem takeAll_follows {more : List Token → Bool}
    {tries : List Token → List (Except Diagnostic α) × List Token} (ht : Tries more read tries)
    (p : Progress) :
    (p.takeAll policy interrupt more read add).Follows
      (walk policy interrupt p.asked ((tries p.rest).1.map Diagnostic.of?))
      (p.tried add (tries p.rest)) := by
  fun_induction takeAll policy interrupt more read add p with
  | case1 p hmore p' hask ih =>
    have hfirst := ask_take_follows policy interrupt read add p
    rw [hask] at hfirst
    rw [ht.step hmore, List.map_cons, ← List.singleton_append, ← tried_cons]
    refine hfirst.goOn (takeAll policy interrupt more read add) (fun n hrun => ?_)
    cases hrun
    exact ih
  | case2 p hmore halt p' hask =>
    have hfirst := ask_take_follows policy interrupt read add p
    rw [hask] at hfirst
    rw [ht.step hmore, List.map_cons, ← List.singleton_append]
    exact hfirst.goOn (takeAll policy interrupt more read add) nofun
  | case3 p hmore =>
    rw [ht.done hmore, tried_nil]
    exact ⟨rfl, rfl, fun _ => rfl⟩

/-! ### Packages, imports and members -/

theorem foldl_withImport (u : CompilationUnit) (is : List (Spanned Import)) :
    is.foldl CompilationUnit.withImport u = { u with imports := u.imports ++ is } := by
  induction is generalizing u with
  | nil => simp
  | cons i is ih => simp [ih, CompilationUnit.withImport]

theorem foldl_withMember (u : CompilationUnit) (ms : List (Spanned Member)) :
    ms.foldl CompilationUnit.withMember u = { u with members := u.members ++ ms } := by
  induction ms generalizing u with
  | nil => simp
  | cons m ms ih => simp [ih, CompilationUnit.withMember]

theorem imports_tries (eof : Token) :
    Tries (atClause .imports) (readImport eof) (tryImports eof) where
  done {ts} h := by
    have hnone : ¬ atClause .imports ts = true := fun hc => h ⟨atClause_ne_nil hc, hc⟩
    rw [tryImports, dif_neg hnone]
  step {ts} h := by rw [tryImports, dif_pos h.2]

theorem members_tries (eof : Token) :
    Tries (fun _ => true) (readMember eof) (fun ts => (tryMembers eof ts, [])) where
  done {ts} h := by
    obtain rfl : ts = [] := by simpa using h
    rw [tryMembers]
  step {ts} h := by
    obtain ⟨t, rest, rfl⟩ := List.exists_cons_of_ne_nil h.1
    rw [tryMembers]

def tryPackage (eof : Token) (ts : List Token) :
    List (Except Diagnostic (Spanned Name)) × List Token :=
  if atClause .package ts then
    ([(attempt (readPackage eof) ts).1], (attempt (readPackage eof) ts).2)
  else ([], ts)

theorem takePackage_follows (policy : Policy) (interrupt : Interrupt) (eof : Token) (p : Progress) :
    (p.ask interrupt (takePackage policy eof)).Follows
      (walk policy interrupt p.asked [(tryPackage eof p.rest).1.head?.bind Diagnostic.of?])
      (p.tried CompilationUnit.withPackage (tryPackage eof p.rest)) := by
  unfold tryPackage takePackage
  by_cases hc : atClause .package p.rest = true
  · have hfirst := ask_take_follows policy interrupt (readPackage eof) .withPackage p
    simp only [if_pos hc]
    unfold ask at hfirst ⊢
    simp only [if_pos hc]
    exact hfirst
  · simp only [if_neg hc, tried_nil]
    exact ask_follows (fun _ => if_neg hc) (fun d _ hd => by cases hd)

end Progress

/-! ### Whole units -/

/-- Three lists of attempts, one behind the other, are the attempts at a unit. -/
theorem Attempts.ofTokens_eq {tokens ts : List Token} {eof : Token}
    (hcut : cutAtEnd tokens = (ts, eof)) :
    let package := Progress.tryPackage eof ts
    let imports := tryImports eof package.2
    Attempts.ofTokens tokens = ⟨package.1.head?, imports.1, tryMembers eof imports.2⟩ := by
  unfold Progress.tryPackage
  by_cases hc : atClause .package ts = true <;> simp [ofTokens, hcut, hc]

theorem Progress.tried_all (eof : Token) (ts rest : List Token)
    (imports : List (Except Diagnostic (Spanned Import)) × List Token)
    (members : List (Except Diagnostic (Spanned Member))) :
    let package := tryPackage eof ts
    let a : Attempts := ⟨package.1.head?, imports.1, members⟩
    let p := ((({ rest := ts } : Progress).tried .withPackage package).tried
      .withImport imports).tried .withMember (members, rest)
    p.unit = a.unit ∧ p.kept = a.diagnostics := by
  have hid {β : Type} (rs : List (Except Diagnostic β)) :
      (rs.map Diagnostic.of?).filterMap id = rs.filterMap Diagnostic.of? := List.filterMap_map
  simp only [tried, foldl_withImport, foldl_withMember, Attempts.unit, Attempts.diagnostics,
    Attempts.faults, List.cons_append, List.filterMap_cons, List.filterMap_append, hid]
  unfold tryPackage
  split
  · cases (attempt (readPackage eof) ts).1 <;> exact ⟨rfl, rfl⟩
  · exact ⟨rfl, rfl⟩

/-- The run walks along the faults of all the productions that could be tried. If nothing halts it,
it has what could be read, and these faults. -/
theorem readUnit_follows (policy : Policy) (interrupt : Interrupt) (tokens : List Token) :
    ∃ p, (readUnit policy interrupt tokens).Follows
        (walk policy interrupt 0 (Attempts.ofTokens tokens).faults) p ∧
      p.unit = (Attempts.ofTokens tokens).unit ∧
      p.kept = (Attempts.ofTokens tokens).diagnostics := by
  rcases hcut : cutAtEnd tokens with ⟨ts, eof⟩
  let package := Progress.tryPackage eof ts
  let imports := tryImports eof package.2
  let members := tryMembers eof imports.2
  let named := ({ rest := ts } : Progress).tried .withPackage package
  let imported := named.tried .withImport imports
  let done := imported.tried .withMember (members, [])
  have hhead := Progress.takePackage_follows policy interrupt eof { rest := ts }
  have himports (n : Nat) :
      (Progress.takeImports policy interrupt eof { named with asked := n }).Follows
        (walk policy interrupt n (imports.1.map Diagnostic.of?)) imported :=
    Progress.takeAll_follows (Progress.imports_tries eof) { named with asked := n }
  have hmembers (n : Nat) :
      (Progress.takeMembers policy interrupt eof { imported with asked := n }).Follows
        (walk policy interrupt n (members.map Diagnostic.of?)) done :=
    Progress.takeAll_follows (Progress.members_tries eof) { imported with asked := n }
  have hrun := (hhead.goOn _ (fun n _ => himports n)).goOn _ (fun n _ => hmembers n)
  refine ⟨done, ?_, ?_⟩
  · rw [Attempts.ofTokens_eq hcut, readUnit, hcut]
    exact hrun
  · rw [Attempts.ofTokens_eq hcut]
    exact Progress.tried_all eof ts [] imports members

theorem parseAsking_eq_walk (policy : Policy) (interrupt : Interrupt) (tokens : List Token) :
    parseAsking policy interrupt tokens =
      match walk policy interrupt 0 (Attempts.ofTokens tokens).faults with
      | (some (.failed d), asked) => (.failed d, asked)
      | (some .interrupted, asked) => (.interrupted, asked)
      | (none, asked) =>
        (.complete (Attempts.ofTokens tokens).unit (Attempts.ofTokens tokens).diagnostics,
          asked) := by
  obtain ⟨p, ⟨hhalt, hasked, hp⟩, hunit, hkept⟩ := readUnit_follows policy interrupt tokens
  rw [parseAsking, ← hunit, ← hkept]
  generalize readUnit policy interrupt tokens = run at hhalt hasked hp
  generalize walk policy interrupt 0 (Attempts.ofTokens tokens).faults = walked at hhalt hasked hp ⊢
  obtain ⟨halt, q⟩ := run
  obtain ⟨halt', n⟩ := walked
  dsimp only at hhalt hasked hp
  subst hhalt hasked
  cases halt with
  | none => rw [hp rfl]
  | some halt => cases halt <;> rfl

end DeclFront
