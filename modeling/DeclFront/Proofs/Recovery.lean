import DeclFront.Proofs.Framing

/-! Going on behind a fault. The tokens are cut behind each semicolon, one production is tried on
each piece, and what comes of it does not depend on the other pieces. -/

namespace DeclFront

variable {α : Type} {eof t : Token} {ts us tail : List Token} {segs : List (List Token)}

/-! ### Cutting behind semicolons -/

def Unclosed (us : List Token) : Prop := ∀ t ∈ us, t.kind ≠ .punct .semicolon

/-- The pieces between semicolons. Each has its semicolon at the end, but the last one need not. -/
inductive Cut : List Token → List (List Token) → Prop
  | nil : Cut [] []
  | last {us : List Token} : us ≠ [] → Unclosed us → Cut us [us]
  | cons {us ts : List Token} {segs : List (List Token)} : Segment us → Cut ts segs →
      Cut (us ++ ts) (us :: segs)

def segments : List Token → List (List Token)
  | [] => []
  | t :: ts =>
    if t.isPunct .semicolon then [t] :: segments ts
    else
      match segments ts with
      | [] => [[t]]
      | s :: more => (t :: s) :: more

theorem segments_cut (ts : List Token) : Cut ts (segments ts) := by
  induction ts with
  | nil => exact .nil
  | cons t ts ih =>
    rw [segments]
    split
    · next ht => exact .cons (.last (isPunct_iff.mp ht)) ih
    · next ht =>
      rw [isPunct_iff] at ht
      generalize segments ts = segs at ih
      cases ih with
      | nil => exact .last (by simp) (by simpa [Unclosed] using ht)
      | last _ hu => exact .last (by simp) (List.forall_mem_cons.mpr ⟨ht, hu⟩)
      | cons hs hcut => exact .cons (.cons ht hs) hcut

/-! ### One attempt -/

theorem skipPast_unclosed (h : Unclosed us) : skipPast us = [] := by
  induction us with
  | nil => rfl
  | cons t ts ih =>
    obtain ⟨ht, hts⟩ := List.forall_mem_cons.mp h
    simpa [skipPast, Token.isPunct, ht] using ih hts

theorem Segment.skipPast_append (h : Segment us) (tail : List Token) :
    skipPast (us ++ tail) = tail := by
  induction h with
  | last hm => simp [skipPast, Token.isPunct, hm]
  | cons ht _ ih => simpa [skipPast, Token.isPunct, ht] using ih

theorem Segment.drop (h : Segment us) {n : Nat} (hn : n < us.length) : Segment (us.drop n) := by
  induction h generalizing n with
  | last hm =>
    obtain rfl : n = 0 := by simpa using hn
    exact .last hm
  | cons ht hts ih =>
    cases n with
    | zero => exact .cons ht hts
    | succ n => exact ih (by simpa using hn)

/-- A framed production is done with its segment, however it ends. -/
theorem attempt_segment {read : (ts : List Token) → Reading α ts} (hs : Segment us)
    (h : (read us).Framed (· = []) tail (read (us ++ tail))) :
    attempt read (us ++ tail) = ((attempt read us).1, tail) := by
  unfold attempt
  generalize read us = x at h
  generalize read (us ++ tail) = y at h
  cases h with
  | ok hv hr hl => simp [hv, hr, hl]
  | @error s s' hd hleft hpos =>
    -- What the production has left of its segment still has the semicolon at its end.
    have hpos' := hs.length_pos
    have hrest : s'.rest (us ++ tail) = us.drop (us.length - s.left) ++ tail := by
      rw [Stop.rest, hleft, List.length_append, Nat.add_sub_add_right,
        List.drop_append_of_le_length (by omega)]
    simp only [hd, hrest, (hs.drop (show us.length - s.left < us.length by omega)).skipPast_append]

theorem attempt_unclosed {read : (ts : List Token) → Reading α ts} (hu : Unclosed us)
    (h : ∀ r, read us = .ok r → ¬ Unclosed us) : (attempt read us).2 = [] := by
  unfold attempt
  split
  · next r hr => exact absurd hu (h r hr)
  · next s _ => exact skipPast_unclosed (fun t ht => hu t (List.mem_of_mem_drop ht))

theorem PackageOf.closed {ps : List Token} {p : Spanned Name} (h : PackageOf ps p) :
    ¬ Unclosed ps := by
  cases h with
  | mk _ _ hs => exact fun hu => hu _ (by simp) hs

theorem ImportOf.closed {is : List Token} {i : Spanned Import} (h : ImportOf is i) :
    ¬ Unclosed is := by
  cases h with
  | single _ _ hs => exact fun hu => hu _ (by simp) hs
  | wildcard _ _ _ _ hs => exact fun hu => hu _ (by simp) hs

theorem MemberOf.closed {ms : List Token} {m : Spanned Member} (h : MemberOf ms m) :
    ¬ Unclosed ms := by
  cases h with
  | mk _ hb =>
    cases hb with
    | field _ _ _ hs => exact fun hu => hu _ (by simp) hs
    | method _ _ _ _ _ hs => exact fun hu => hu _ (by simp) hs

theorem Unclosed.of_append (h : Unclosed (us ++ tail)) : Unclosed us :=
  fun t ht => h t (List.mem_append_left _ ht)

theorem package_segment (hs : Segment us) (hc : atClause .package us = true) :
    attempt (readPackage eof) (us ++ tail) = ((attempt (readPackage eof) us).1, tail) := by
  obtain ⟨w, more, rfl, hw⟩ := atClause_eq_true hc
  exact attempt_segment hs (readPackage_framed hs (by simp [hw]) tail)

theorem package_unclosed (hu : Unclosed us) (hc : atClause .package us = true) :
    (attempt (readPackage eof) us).2 = [] := by
  obtain ⟨w, more, rfl, hw⟩ := atClause_eq_true hc
  refine attempt_unclosed hu (fun r hr _ => ?_)
  obtain ⟨ps, hts, hp⟩ := (readPackage_gives_iff hw).mp ⟨r, hr, rfl, rfl⟩
  exact hp.closed (hts ▸ hu).of_append

theorem import_segment (hs : Segment us) (hc : atClause .imports us = true) :
    attempt (readImport eof) (us ++ tail) = ((attempt (readImport eof) us).1, tail) := by
  obtain ⟨w, more, rfl, hw⟩ := atClause_eq_true hc
  exact attempt_segment hs (readImport_framed hs (by simp [hw]) tail)

theorem import_unclosed (hu : Unclosed us) (hc : atClause .imports us = true) :
    (attempt (readImport eof) us).2 = [] := by
  obtain ⟨w, more, rfl, hw⟩ := atClause_eq_true hc
  refine attempt_unclosed hu (fun r hr _ => ?_)
  obtain ⟨is, hts, hi⟩ := (readImport_gives_iff hw).mp ⟨r, hr, rfl, rfl⟩
  exact hi.closed (hts ▸ hu).of_append

theorem member_segment (hs : Segment us) :
    attempt (readMember eof) (us ++ tail) = ((attempt (readMember eof) us).1, tail) :=
  attempt_segment hs (readMember_framed hs tail)

theorem member_unclosed (hu : Unclosed us) : (attempt (readMember eof) us).2 = [] := by
  refine attempt_unclosed hu (fun r hr _ => ?_)
  obtain ⟨ms, hts, hm⟩ := (readMember_gives_iff eof).mp ⟨r, hr, rfl, rfl⟩
  exact hm.closed (hts ▸ hu).of_append

/-! ### All attempts -/

theorem tryMembers_cut (h : Cut ts segs) :
    tryMembers eof ts = segs.map (fun s => (attempt (readMember eof) s).1) := by
  induction h with
  | nil => simp [tryMembers]
  | @last us hne hu =>
    obtain ⟨t, ts, rfl⟩ := List.exists_cons_of_ne_nil hne
    rw [tryMembers, member_unclosed hu]
    simp [tryMembers]
  | @cons us ts segs hs _ ih =>
    obtain ⟨t, more, rfl⟩ := hs.head
    rw [List.cons_append, tryMembers, ← List.cons_append, member_segment hs, ih]
    rfl

theorem Segment.atClause_append (h : Segment us) (c : Clause) (tail : List Token) :
    atClause c (us ++ tail) = atClause c us := by
  obtain ⟨t, ts, rfl⟩ := h.head
  rfl

inductive Production
  | package
  | imports
  | member
deriving DecidableEq, Repr

/-- What a piece contributes to the result: a part of the unit, or a fault. -/
inductive Contribution
  | package (name : Spanned Name)
  | imported (path : Spanned Import)
  | member (m : Spanned Member)
  | fault (d : Diagnostic)

namespace Contribution

def of (part : α → Contribution) : Except Diagnostic α → Contribution
  | .ok a => part a
  | .error d => .fault d

def fault? : Contribution → Option Diagnostic
  | .fault d => some d
  | _ => none

end Contribution

def Production.run (eof : Token) : Production → List Token → Contribution
  | .package, s => .of .package (attempt (readPackage eof) s).1
  | .imports, s => .of .imported (attempt (readImport eof) s).1
  | .member, s => .of .member (attempt (readMember eof) s).1

/-- Pieces behind the package clause: imports as long as they begin like imports, then members. -/
def planBehind : List (List Token) → List (Production × List Token)
  | [] => []
  | s :: more =>
    if atClause .imports s then (.imports, s) :: planBehind more
    else (s :: more).map (Prod.mk .member)

/-- The production for each piece. Only the first one can be a package clause. -/
def plan : List (List Token) → List (Production × List Token)
  | [] => []
  | s :: more =>
    if atClause .package s then (.package, s) :: planBehind more else planBehind (s :: more)

def contributions (eof : Token) (segs : List (List Token)) : List Contribution :=
  (plan segs).map (fun tried => tried.1.run eof tried.2)

def Attempts.contributions (a : Attempts) : List Contribution :=
  a.package.toList.map (.of .package) ++ a.imports.map (.of .imported) ++
    a.members.map (.of .member)

theorem tryMembers_contributions (h : Cut ts segs) :
    (tryMembers eof ts).map (.of .member) =
      (segs.map (Prod.mk Production.member)).map (fun tried => tried.1.run eof tried.2) := by
  simp [tryMembers_cut h, Production.run]

theorem planBehind_cut (h : Cut ts segs) :
    (tryImports eof ts).1.map (.of .imported) ++
        (tryMembers eof (tryImports eof ts).2).map (.of .member) =
      (planBehind segs).map (fun tried => tried.1.run eof tried.2) := by
  induction h with
  | nil => simp [tryImports, tryMembers, planBehind, atClause]
  | @last us hne hu =>
    rw [tryImports, planBehind]
    split
    · next hc => simp [import_unclosed hu hc, tryImports, tryMembers, planBehind, Production.run,
        atClause]
    · exact tryMembers_contributions (.last hne hu)
  | @cons us ts segs hs hcut ih =>
    rw [tryImports, planBehind, hs.atClause_append]
    split
    · next hc =>
      simp only [import_segment hs hc, List.map_cons, List.cons_append, ih]
      rfl
    · exact tryMembers_contributions (.cons hs hcut)

theorem atClause_cut {c : Clause} (h : Cut ts segs) :
    atClause c ts = segs.head?.any (atClause c) := by
  cases h with
  | nil => rfl
  | last _ _ => rfl
  | cons hs _ => simp [hs.atClause_append]

/-- Every piece is tried once, with the production of the plan, as if it stood alone. -/
theorem ofTokens_contributions {tokens : List Token} (hcut : cutAtEnd tokens = (ts, eof))
    (h : Cut ts segs) : (Attempts.ofTokens tokens).contributions = contributions eof segs := by
  cases hc : atClause .package ts with
  | false =>
    rw [ofTokens_no_package hcut hc, contributions]
    have hplan : plan segs = planBehind segs := by
      rw [atClause_cut h] at hc
      cases segs with
      | nil => rfl
      | cons s more => simp_all [plan]
    simpa [Attempts.contributions, hplan] using planBehind_cut h
  | true =>
    rw [ofTokens_package hcut hc, contributions]
    cases h with
    | nil => simp [atClause] at hc
    | last hne hu =>
      simpa [Attempts.contributions, package_unclosed hu hc, plan, hc, Production.run] using
        planBehind_cut .nil
    | cons hs hcut' =>
      rw [hs.atClause_append] at hc
      simpa [Attempts.contributions, package_segment hs hc, plan, hc, Production.run] using
        planBehind_cut hcut'

/-! ### Parts and faults -/

theorem Contribution.filter_map_of {p : α → Contribution} (hp : ∀ a, (p a).fault? = none)
    (rs : List (Except Diagnostic α)) :
    (rs.map (.of p)).filter (·.fault?.isNone) = (rs.filterMap Except.toOption).map p := by
  induction rs with
  | nil => rfl
  | cons r rs ih =>
    cases r with
    | error d => exact ih
    | ok a =>
      rw [List.map_cons, Contribution.of, List.filter_cons_of_pos (by simp [hp]), ih]
      rfl

theorem Contribution.filterMap_map_of {p : α → Contribution} (hp : ∀ a, (p a).fault? = none)
    (rs : List (Except Diagnostic α)) :
    (rs.map (.of p)).filterMap Contribution.fault? = rs.filterMap Diagnostic.of? := by
  induction rs with
  | nil => rfl
  | cons r rs ih =>
    cases r with
    | error d => exact congrArg (d :: ·) ih
    | ok a =>
      rw [List.map_cons, Contribution.of, List.filterMap_cons_none (hp a), ih]
      rfl

def CompilationUnit.parts (u : CompilationUnit) : List Contribution :=
  u.package.toList.map .package ++ u.imports.map .imported ++ u.members.map .member

theorem Attempts.parts_unit (a : Attempts) :
    a.unit.parts = a.contributions.filter (·.fault?.isNone) := by
  obtain ⟨package, imports, members⟩ := a
  have hi := Contribution.filter_map_of (p := .imported) (fun _ => rfl) imports
  have hm := Contribution.filter_map_of (p := .member) (fun _ => rfl) members
  simp only [Attempts.contributions, List.filter_append, hi, hm,
    Contribution.filter_map_of (p := .package) (fun _ => rfl)]
  rcases package with _ | d | name <;> rfl

theorem Attempts.diagnostics_eq (a : Attempts) :
    a.diagnostics = a.contributions.filterMap Contribution.fault? := by
  obtain ⟨package, imports, members⟩ := a
  have hi := Contribution.filterMap_map_of (p := .imported) (fun _ => rfl) imports
  have hm := Contribution.filterMap_map_of (p := .member) (fun _ => rfl) members
  simp only [Attempts.contributions, List.filterMap_append, hi, hm,
    Contribution.filterMap_map_of (p := .package) (fun _ => rfl)]
  have hid {β : Type} (rs : List (Except Diagnostic β)) :
      (rs.map Diagnostic.of?).filterMap id = rs.filterMap Diagnostic.of? := List.filterMap_map
  simp only [Attempts.diagnostics, Attempts.faults, List.cons_append, List.filterMap_cons,
    List.filterMap_append, hid]
  rcases package with _ | d | name <;> rfl

theorem parts_add_faults (cs : List Contribution) :
    (cs.filter (·.fault?.isNone)).length + (cs.filterMap Contribution.fault?).length =
      cs.length := by
  induction cs with
  | nil => rfl
  | cons c cs ih =>
    cases hc : c.fault? <;> simp [hc] <;> omega

theorem walk_accumulate_never (asked : Nat) (faults : List (Option Diagnostic)) :
    walk .accumulate .never asked faults = (none, asked + faults.length) := by
  induction faults generalizing asked with
  | nil => rfl
  | cons f faults ih => simp [walk, Interrupt.never, ih, Nat.add_assoc, Nat.add_comm 1]

theorem parseAsking_accumulate (tokens : List Token) :
    parseAsking .accumulate .never tokens =
      (.complete (Attempts.ofTokens tokens).unit (Attempts.ofTokens tokens).diagnostics,
        (Attempts.ofTokens tokens).faults.length) := by
  simp [parseAsking_eq_walk, walk_accumulate_never]

theorem ofTokens_package_length {tokens : List Token} (hcut : cutAtEnd tokens = (ts, eof)) :
    (Attempts.ofTokens tokens).package.toList.length =
      if atClause .package ts then 1 else 0 := by
  split
  · next hc => simp [ofTokens_package hcut hc]
  · next hc => simp [ofTokens_no_package hcut (by simpa using hc)]

theorem planBehind_snd (segs : List (List Token)) : (planBehind segs).map Prod.snd = segs := by
  induction segs with
  | nil => rfl
  | cons s more ih =>
    rw [planBehind]
    split
    · simp [ih]
    · simp [Function.comp_def]

theorem plan_snd (segs : List (List Token)) : (plan segs).map Prod.snd = segs := by
  cases segs with
  | nil => rfl
  | cons s more =>
    rw [plan]
    split <;> simp [planBehind_snd]

theorem contributions_length (eof : Token) (segs : List (List Token)) :
    (contributions eof segs).length = segs.length := by
  simpa [contributions] using congrArg List.length (plan_snd segs)

theorem planBehind_set {i : Nat} {s s' : List Token} (hi : segs[i]? = some s)
    (hs : ∀ c, atClause c s' = atClause c s) :
    ∃ k, planBehind (segs.set i s') = (planBehind segs).set i (k, s') := by
  induction segs generalizing i with
  | nil => simp at hi
  | cons a more ih =>
    cases i with
    | zero =>
      obtain rfl : a = s := by simpa using hi
      simp only [List.set_cons_zero, planBehind, hs]
      split <;> exact ⟨_, rfl⟩
    | succ i =>
      obtain ⟨k, hk⟩ := ih (by simpa using hi)
      simp only [List.set_cons_succ, planBehind]
      split
      · exact ⟨k, by simp [hk]⟩
      · exact ⟨.member, by simp⟩

/-- The plan looks at the beginnings of the pieces only. -/
theorem plan_set {i : Nat} {s s' : List Token} (hi : segs[i]? = some s)
    (hs : ∀ c, atClause c s' = atClause c s) :
    ∃ k, plan (segs.set i s') = (plan segs).set i (k, s') := by
  cases segs with
  | nil => simp at hi
  | cons a more =>
    have hbehind := planBehind_set hi hs
    cases i with
    | zero =>
      obtain rfl : a = s := by simpa using hi
      simp only [List.set_cons_zero, plan, hs] at hbehind ⊢
      split
      · exact ⟨_, rfl⟩
      · exact hbehind
    | succ i =>
      simp only [List.set_cons_succ, plan] at hbehind ⊢
      split
      · obtain ⟨k, hk⟩ := planBehind_set (show more[i]? = some s by simpa using hi) hs
        exact ⟨k, by simp [hk]⟩
      · exact hbehind

/-- If faults are kept, every piece between semicolons is tried once and contributes either one part
of the unit or one fault, which is what its production gives for this piece alone. Parts and faults
come in the order of the pieces. Another piece that begins alike, in the place of one of them,
changes no contribution but that one. -/
theorem recovery_local (tokens : List Token) :
    let segs := segments (tokens.takeWhile (fun t => !t.isEnd))
    let eof := (cutAtEnd tokens).2
    (∃ unit faults asked,
      parseAsking .accumulate .never tokens = (.complete unit faults, asked) ∧
      (plan segs).map Prod.snd = segs ∧
      unit.parts = (contributions eof segs).filter (·.fault?.isNone) ∧
      faults = (contributions eof segs).filterMap Contribution.fault? ∧
      unit.parts.length + faults.length = segs.length ∧
      asked + (if segs.head?.any (atClause .package) then 1 else 0) = segs.length + 1) ∧
    ∀ i s s', segs[i]? = some s → (∀ c, atClause c s' = atClause c s) →
      ∃ c, contributions eof (segs.set i s') = (contributions eof segs).set i c := by
  intro segs eof
  have hcut : cutAtEnd tokens = (tokens.takeWhile (fun t => !t.isEnd), eof) := rfl
  have hsegs := segments_cut (tokens.takeWhile (fun t => !t.isEnd))
  have hall := ofTokens_contributions hcut hsegs
  have hpackage := ofTokens_package_length hcut
  rw [atClause_cut hsegs] at hpackage
  have hlen : (if segs.head?.any (atClause .package) then 1 else 0) +
      (Attempts.ofTokens tokens).imports.length + (Attempts.ofTokens tokens).members.length =
      segs.length := by
    simpa only [contributions_length, Attempts.contributions, List.length_append, List.length_map,
      hpackage] using congrArg List.length hall
  refine ⟨⟨_, _, _, parseAsking_accumulate tokens, plan_snd segs, ?_, ?_, ?_, ?_⟩, ?_⟩
  · rw [Attempts.parts_unit, hall]
  · rw [Attempts.diagnostics_eq, hall]
  · rw [Attempts.parts_unit, Attempts.diagnostics_eq, hall, parts_add_faults,
      contributions_length]
  · simp only [Attempts.faults, List.length_cons, List.length_append, List.length_map]
    omega
  · intro i s s' hi hs
    obtain ⟨k, hk⟩ := plan_set hi hs
    exact ⟨k.run eof s', by simp only [contributions, hk, List.map_set]⟩

theorem recovery_local_nameless_field :
    let int : Token := ⟨.keyword (.primitive .int), "int", ⟨0, 3⟩⟩
    let name : Token := ⟨.ident, "n", ⟨4, 5⟩⟩
    let close : Token := ⟨.punct .semicolon, ";", ⟨5, 6⟩⟩
    let segs := [[int, close], [int, name, close]]
    ∃ c, contributions (.endAt 6) (segs.set 0 [int, name, close]) =
      (contributions (.endAt 6) segs).set 0 c := by
  intro int name close segs
  exact (recovery_local segs.flatten).2 0 _ _ rfl (fun c => by cases c <;> rfl)

end DeclFront
