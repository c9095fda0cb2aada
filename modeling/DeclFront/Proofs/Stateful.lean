import DeclFront.Diagnostic
import DeclFront.Fallible

/-! Steps that may fail and share a state. Run on one item after the other, they stop at the first
failure, and the state is the one that this failure left behind. -/

namespace DeclFront.Fallible

variable {σ α β : Type}

/-- Steps that may fail. What they do to the state before a failure stays done. -/
abbrev Stateful (σ : Type) := ExceptT Diagnostic (StateM σ)

theorem run_bind (x : Stateful σ α) (f : α → Stateful σ β) (s : σ) :
    (x >>= f).run s =
      match x.run s with
      | (.ok a, t) => (f a).run t
      | (.error d, t) => (.error d, t) := by
  show (match x.run s with | (r, t) => ExceptT.bindCont f r t) = _
  obtain ⟨_ | _, t⟩ := x.run s <;> rfl

theorem run_bind_ok {x : Stateful σ α} {s t : σ} {a : α} (h : x.run s = (.ok a, t))
    (f : α → Stateful σ β) : (x >>= f).run s = (f a).run t := by
  rw [run_bind, h]

theorem run_bind_error {x : Stateful σ α} {s t : σ} {d : Diagnostic} (h : x.run s = (.error d, t))
    (f : α → Stateful σ β) : (x >>= f).run s = (.error d, t) := by
  rw [run_bind, h]

/-! ### One step after the other -/

/-- The steps lead from one state to another, with an item for each of them. -/
inductive Along (R : σ → α → σ → Prop) : σ → List α → σ → Prop
  | nil (s : σ) : Along R s [] s
  | cons {s t u : σ} {a : α} {as : List α} : R s a t → Along R t as u → Along R s (a :: as) u

theorem Along.imp {R R' : σ → α → σ → Prop} {s u : σ} {as : List α}
    (himp : ∀ s a t, R s a t → R' s a t) (h : Along R s as u) : Along R' s as u := by
  induction h with
  | nil s => exact .nil s
  | cons hstep _ ih => exact .cons (himp _ _ _ hstep) ih

theorem Along.append {R : σ → α → σ → Prop} {s t u : σ} {as bs : List α} (h : Along R s as t)
    (hbs : Along R t bs u) : Along R s (as ++ bs) u := by
  induction h with
  | nil => exact hbs
  | cons hstep _ ih => exact .cons hstep (ih hbs)

theorem Along.concat {R : σ → α → σ → Prop} {s t u : σ} {as : List α} {a : α} (h : Along R s as t)
    (hstep : R t a u) : Along R s (as ++ [a]) u :=
  h.append (.cons hstep (.nil u))

theorem Along.of_concat {R : σ → α → σ → Prop} {s u : σ} {as : List α} {a : α}
    (h : Along R s (as ++ [a]) u) : ∃ t, Along R s as t ∧ R t a u := by
  induction as generalizing s with
  | nil =>
    obtain _ | ⟨hstep, hnil⟩ := h
    cases hnil
    exact ⟨s, .nil s, hstep⟩
  | cons b as ih =>
    obtain _ | ⟨hstep, hrest⟩ := h
    obtain ⟨t, hfront, hlast⟩ := ih hrest
    exact ⟨t, .cons hstep hfront, hlast⟩

/-! ### Items handed to a consumer -/

def Accepts (consume : α → Stateful σ Unit) (s : σ) (a : α) (t : σ) : Prop :=
  (consume a).run s = (.ok (), t)

/-- The consumer, with a list of the items that it is handed. -/
def listing (consume : α → Stateful σ Unit) (a : α) : Stateful (List α × σ) Unit :=
  ExceptT.mk (fun s => (((consume a).run s.2).1, (s.1 ++ [a], ((consume a).run s.2).2)))

theorem run_listing {consume : α → Stateful σ Unit} {a : α} {s t : σ} {r : Except Diagnostic Unit}
    (h : (consume a).run s = (r, t)) (handed : List α) :
    (listing consume a).run (handed, s) = (r, (handed ++ [a], t)) := by
  show (((consume a).run s).1, (handed ++ [a], ((consume a).run s).2)) = _
  rw [h]

theorem run_feedEach_accepted {consume : α → Stateful σ Unit} {s t : σ} {before : List α}
    (h : Along (Accepts consume) s before t) (later handed : List α) :
    (feedEach consume (before ++ later)).run s = (feedEach consume later).run t ∧
      (feedEach (listing consume) (before ++ later)).run (handed, s) =
        (feedEach (listing consume) later).run (handed ++ before, t) := by
  induction h generalizing handed with
  | nil => exact ⟨rfl, by rw [List.append_nil]; rfl⟩
  | @cons s t u a as hstep _ ih =>
    obtain ⟨hfeed, hlist⟩ := ih (handed ++ [a])
    rw [List.append_assoc] at hlist
    exact ⟨(run_bind_ok hstep _).trans hfeed, (run_bind_ok (run_listing hstep handed) _).trans hlist⟩

theorem run_feedEach_refused {consume : α → Stateful σ Unit} {t u : σ} {x : α} {d : Diagnostic}
    (h : (consume x).run t = (.error d, u)) (later handed : List α) :
    (feedEach consume (x :: later)).run t = (.error d, u) ∧
      (feedEach (listing consume) (x :: later)).run (handed, t) = (.error d, (handed ++ [x], u)) :=
  ⟨run_bind_error h _, run_bind_error (run_listing h handed) _⟩

theorem accepted_or_refused (consume : α → Stateful σ Unit) (xs : List α) (s : σ) :
    (∃ t, Along (Accepts consume) s xs t) ∨
      ∃ before x later t d u, xs = before ++ x :: later ∧ Along (Accepts consume) s before t ∧
        (consume x).run t = (.error d, u) := by
  induction xs generalizing s with
  | nil => exact .inl ⟨s, .nil s⟩
  | cons a rest ih =>
    rcases hrun : (consume a).run s with ⟨d | _, t⟩
    · exact .inr ⟨[], a, rest, s, d, t, rfl, .nil s, hrun⟩
    · rcases ih t with ⟨u, hall⟩ | ⟨before, x, later, u, d, v, rfl, hbefore, hx⟩
      · exact .inl ⟨u, .cons hrun hall⟩
      · exact .inr ⟨a :: before, x, later, u, d, v, rfl, .cons hrun hbefore, hx⟩

/-- The consumer is handed the items up to the first that it refuses, that one included, or all. -/
theorem feedEach_cases (consume : α → Stateful σ Unit) (xs : List α) (s : σ) :
    (∃ t, Along (Accepts consume) s xs t ∧ (feedEach consume xs).run s = (.ok (), t) ∧
      (feedEach (listing consume) xs).run ([], s) = (.ok (), (xs, t))) ∨
    ∃ before x later t d u, xs = before ++ x :: later ∧ Along (Accepts consume) s before t ∧
      (consume x).run t = (.error d, u) ∧ (feedEach consume xs).run s = (.error d, u) ∧
      (feedEach (listing consume) xs).run ([], s) = (.error d, (before ++ [x], u)) := by
  rcases accepted_or_refused consume xs s with ⟨t, hall⟩ | ⟨before, x, later, t, d, u, rfl, hbefore, hx⟩
  · have hrun := run_feedEach_accepted hall [] []
    rw [List.append_nil, List.nil_append] at hrun
    exact .inl ⟨t, hall, hrun⟩
  · obtain ⟨hfeed, hlist⟩ := run_feedEach_accepted hbefore (x :: later) []
    obtain ⟨hfeed', hlist'⟩ := run_feedEach_refused hx later before
    exact .inr ⟨before, x, later, t, d, u, rfl, hbefore, hx, hfeed.trans hfeed', hlist.trans hlist'⟩

/-! ### Items drawn from a source -/

/-- An item is drawn that does not pass the test. -/
def Rejects (draw : Stateful σ α) (stop : α → Stateful σ Bool) (s : σ) (a : α) (u : σ) : Prop :=
  ∃ t, draw.run s = (.ok a, t) ∧ (stop a).run t = (.ok false, u)

/-- The last item is drawn, or something fails. -/
inductive Finishes (draw : Stateful σ α) (stop : α → Stateful σ Bool) (s : σ) :
    Except Diagnostic α → σ → Prop
  | unsupplied {d : Diagnostic} {t : σ} : draw.run s = (.error d, t) →
      Finishes draw stop s (.error d) t
  | untested {a : α} {d : Diagnostic} {t u : σ} : draw.run s = (.ok a, t) →
      (stop a).run t = (.error d, u) → Finishes draw stop s (.error d) u
  | accepted {a : α} {t u : σ} : draw.run s = (.ok a, t) → (stop a).run t = (.ok true, u) →
      Finishes draw stop s (.ok a) u

section Drain

variable {draw : Stateful σ α} {stop : α → Stateful σ Bool} {s t u : σ}

theorem rejects_or_finishes (draw : Stateful σ α) (stop : α → Stateful σ Bool) (s : σ) :
    (∃ a t, Rejects draw stop s a t) ∨ ∃ last t, Finishes draw stop s last t := by
  rcases hdraw : draw.run s with ⟨d | a, t⟩
  · exact .inr ⟨.error d, t, .unsupplied hdraw⟩
  · rcases hstop : (stop a).run t with ⟨d | _ | _, u⟩
    · exact .inr ⟨.error d, u, .untested hdraw hstop⟩
    · exact .inl ⟨a, u, t, hdraw, hstop⟩
    · exact .inr ⟨.ok a, u, .accepted hdraw hstop⟩

theorem run_drainUntil_rejects {a : α} (h : Rejects draw stop s a t) (limit : Nat) :
    (drainUntil draw stop (limit + 1)).run s =
      (((drainUntil draw stop limit).run t).1.map (a :: ·), ((drainUntil draw stop limit).run t).2) := by
  obtain ⟨u, hdraw, hstop⟩ := h
  rw [drainUntil, run_bind_ok hdraw, run_bind_ok hstop, if_neg Bool.false_ne_true, run_bind]
  rcases (drainUntil draw stop limit).run t with ⟨_ | _, v⟩ <;> rfl

theorem run_drainUntil_finishes {last : Except Diagnostic α} (h : Finishes draw stop s last t)
    (limit : Nat) : (drainUntil draw stop (limit + 1)).run s = (last.map ([·]), t) := by
  cases h with
  | unsupplied hdraw => exact run_bind_error hdraw _
  | untested hdraw hstop => exact (run_bind_ok hdraw _).trans (run_bind_error hstop _)
  | accepted hdraw hstop => exact (run_bind_ok hdraw _).trans (run_bind_ok hstop _)

theorem run_drainUntil_along {passed : List α} (h : Along (Rejects draw stop) s passed t)
    (limit : Nat) :
    (drainUntil draw stop (passed.length + limit)).run s =
      (((drainUntil draw stop limit).run t).1.map (passed ++ ·),
        ((drainUntil draw stop limit).run t).2) := by
  induction h with
  | nil s =>
    rw [List.length_nil, Nat.zero_add]
    rcases (drainUntil draw stop limit).run s with ⟨_ | _, v⟩ <;> rfl
  | @cons s t u a as hstep _ ih =>
    have hlimit : (a :: as).length + limit = as.length + limit + 1 := by
      simp only [List.length_cons]
      omega
    rw [hlimit, run_drainUntil_rejects hstep, ih]
    rcases (drainUntil draw stop limit).run u with ⟨_ | _, v⟩ <;> rfl

theorem run_drainUntil_exhausted {passed : List α} (h : Along (Rejects draw stop) s passed t) :
    (drainUntil draw stop passed.length).run s = (.ok passed, t) := by
  have hrun := run_drainUntil_along h 0
  rw [Nat.add_zero] at hrun
  rw [hrun]
  show (Except.ok (passed ++ []), t) = (.ok passed, t)
  rw [List.append_nil]

theorem run_drainUntil {passed : List α} {last : Except Diagnostic α} {limit : Nat}
    (h : Along (Rejects draw stop) s passed t) (hlast : Finishes draw stop t last u)
    (hlimit : passed.length < limit) :
    (drainUntil draw stop limit).run s = (last.map (passed ++ [·]), u) := by
  obtain ⟨more, rfl⟩ : ∃ more, limit = passed.length + (more + 1) :=
    ⟨limit - passed.length - 1, by omega⟩
  rw [run_drainUntil_along h, run_drainUntil_finishes hlast]
  cases last <;> rfl

/-- Either all the items that a limit allows are drawn and rejected, or the loop finishes before. -/
theorem exhausts_or_finishes (draw : Stateful σ α) (stop : α → Stateful σ Bool) (limit : Nat)
    (s : σ) :
    ∃ passed t, Along (Rejects draw stop) s passed t ∧
      (passed.length = limit ∨ passed.length < limit ∧ ∃ last u, Finishes draw stop t last u) := by
  induction limit generalizing s with
  | zero => exact ⟨[], s, .nil s, .inl rfl⟩
  | succ limit ih =>
    rcases rejects_or_finishes draw stop s with ⟨a, t, hstep⟩ | hlast
    · obtain ⟨passed, u, hpassed, hend⟩ := ih t
      refine ⟨a :: passed, u, .cons hstep hpassed, ?_⟩
      simp only [List.length_cons, Nat.add_right_cancel_iff, Nat.add_lt_add_iff_right]
      exact hend
    · exact ⟨[], s, .nil s, .inr ⟨Nat.succ_pos limit, hlast⟩⟩

/-- What the loop comes to without a limit: it is the same for every limit that is large enough. -/
def Drains (draw : Stateful σ α) (stop : α → Stateful σ Bool) (s : σ)
    (r : Except Diagnostic (List α)) (u : σ) : Prop :=
  ∃ n, ∀ limit, n < limit → (drainUntil draw stop limit).run s = (r, u)

theorem drains_iff {r : Except Diagnostic (List α)} :
    Drains draw stop s r u ↔
      ∃ passed t last, Along (Rejects draw stop) s passed t ∧ Finishes draw stop t last u ∧
        r = last.map (passed ++ [·]) := by
  constructor
  · rintro ⟨n, hn⟩
    -- A loop that is cut off has more items with a larger limit.
    obtain ⟨passed, t, hpassed, hlength | ⟨hlt, last, v, hlast⟩⟩ :=
      exhausts_or_finishes draw stop (n + 1) s
    · obtain ⟨passed', t', hpassed', hlength' | ⟨hlt, last, v, hlast⟩⟩ :=
        exhausts_or_finishes draw stop (n + 2) s
      · have hrun := run_drainUntil_exhausted hpassed
        have hrun' := run_drainUntil_exhausted hpassed'
        rw [hlength, hn _ (by omega)] at hrun
        rw [hlength', hn _ (by omega), hrun] at hrun'
        cases hrun'
        omega
      · have hrun := run_drainUntil hpassed' hlast hlt
        rw [hn _ (by omega)] at hrun
        cases hrun
        exact ⟨passed', t', last, hpassed', hlast, rfl⟩
    · have hrun := run_drainUntil hpassed hlast hlt
      rw [hn _ (by omega)] at hrun
      cases hrun
      exact ⟨passed, t, last, hpassed, hlast, rfl⟩
  · rintro ⟨passed, t, last, hpassed, hlast, rfl⟩
    exact ⟨passed.length, fun limit hlimit => run_drainUntil hpassed hlast hlimit⟩

end Drain

end DeclFront.Fallible
