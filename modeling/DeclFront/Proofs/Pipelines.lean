import DeclFront.Proofs.NormalForms
import DeclFront.Proofs.Reading

/-! Steps that are run on one item after the other stop at the first failure: what stands behind it is
never touched. So two functions can be run on a list one after the other or as one function. The
results are the same; the failures may differ, since the second way meets that of the first failing
item. -/

namespace DeclFront.Fallible

variable {ε σ α β γ : Type}

/-! ### Functions put together from leaves -/

/-- How a function is put together from its leaves, and what is written down when a leaf is run. -/
inductive Pipeline (ε : Type) : Type → Type → Type 1
  | leaf {α β : Type} (entry : α → ε) (f : α → Except Diagnostic β) : Pipeline ε α β
  | andThen {α β γ : Type} (f : Pipeline ε α β) (g : Pipeline ε β γ) : Pipeline ε α γ
  | mapping {α β γ : Type} (f : Pipeline ε α β) (entry : β → ε) (g : β → γ) : Pipeline ε α γ

/-- A step that writes down that it is run. -/
def noting (entry : α → ε) (f : α → Except Diagnostic β) (a : α) : Condition.Recording ε β := do
  modify (· ++ [entry a])
  MonadExcept.ofExcept (f a)

theorem run_noting (entry : α → ε) (f : α → Except Diagnostic β) (a : α) (log : List ε) :
    (noting entry f a).run log = (f a, log ++ [entry a]) := by
  unfold noting
  cases f a <;> rfl

namespace Pipeline

def apply {α β : Type} : Pipeline ε α β → α → Except Diagnostic β
  | leaf _ f => f
  | andThen f g => Fallible.andThen f.apply g.apply
  | mapping f _ g => Fallible.mapping f.apply g

/-- The function, with all its leaves on record. -/
def recorded {α β : Type} : Pipeline ε α β → α → Condition.Recording ε β
  | leaf entry f => noting entry f
  | andThen f g => Fallible.andThen f.recorded g.recorded
  -- What cannot fail is put on record as well, so it takes the place of a second step.
  | mapping f entry g => Fallible.andThen f.recorded (noting entry (fun b => .ok (g b)))

/-- The entries of the leaves that a value gets to. The second of two functions is out of reach if the
first one fails. -/
def entries {α β : Type} : Pipeline ε α β → α → List ε
  | leaf entry _, a => [entry a]
  | andThen f g, a =>
    match f.apply a with
    | .ok b => f.entries a ++ g.entries b
    | .error _ => f.entries a
  | mapping f entry _, a =>
    match f.apply a with
    | .ok b => f.entries a ++ [entry b]
    | .error _ => f.entries a

theorem apply_andThen_eq_ok {f : Pipeline ε α β} {g : Pipeline ε β γ} {a : α} {c : γ} :
    (f.andThen g).apply a = .ok c ↔ ∃ b, f.apply a = .ok b ∧ g.apply b = .ok c := by
  rw [apply, Fallible.andThen]
  exact bind_eq_ok

theorem apply_andThen_eq_error {f : Pipeline ε α β} {g : Pipeline ε β γ} {a : α} {d : Diagnostic} :
    (f.andThen g).apply a = .error d ↔
      f.apply a = .error d ∨ ∃ b, f.apply a = .ok b ∧ g.apply b = .error d := by
  rw [apply, Fallible.andThen]
  cases f.apply a with
  | error d' => simp [bind, Except.bind]
  | ok b => simp

theorem entries_andThen_of_ok {f : Pipeline ε α β} {a : α} {b : β} (h : f.apply a = .ok b)
    (g : Pipeline ε β γ) : (f.andThen g).entries a = f.entries a ++ g.entries b := by
  rw [entries, h]

theorem entries_andThen_of_error {f : Pipeline ε α β} {a : α} {d : Diagnostic}
    (h : f.apply a = .error d) (g : Pipeline ε β γ) : (f.andThen g).entries a = f.entries a := by
  rw [entries, h]

theorem run_recorded (p : Pipeline ε α β) (a : α) (log : List ε) :
    (p.recorded a).run log = (p.apply a, log ++ p.entries a) := by
  induction p generalizing log with
  | leaf entry f => exact run_noting entry f a log
  | andThen f g ihf ihg =>
    rw [recorded, apply, entries, Fallible.andThen, Fallible.andThen, run_bind, ihf]
    cases f.apply a with
    | error d => rfl
    | ok b => simpa only [ok_bind, List.append_assoc] using ihg b (log ++ f.entries a)
  | mapping f entry g ih =>
    rw [recorded, apply, entries, Fallible.andThen, Fallible.mapping, run_bind, ih]
    cases f.apply a with
    | error d => rfl
    | ok b =>
      simpa only [ok_bind, pure_eq_ok, List.append_assoc] using
        run_noting entry (fun b => .ok (g b)) b (log ++ f.entries a)

end Pipeline

/-! ### Steps on every item -/

section Each

variable {f : α → Except Diagnostic β} {g : β → Except Diagnostic γ} {a : α} {xs : List α}

theorem mapEach_cons_eq_ok {ys : List β} :
    mapEach f (a :: xs) = .ok ys ↔ ∃ b more, f a = .ok b ∧ mapEach f xs = .ok more ∧ ys = b :: more := by
  simp only [mapEach, bind_eq_ok, pure_eq_ok, Except.ok.injEq]
  constructor
  · rintro ⟨b, hb, more, hmore, rfl⟩
    exact ⟨b, more, hb, hmore, rfl⟩
  · rintro ⟨b, more, hb, hmore, rfl⟩
    exact ⟨b, hb, more, hmore, rfl⟩

theorem mapEach_andThen_eq_ok {zs : List γ} :
    mapEach (andThen f g) xs = .ok zs ↔ ∃ ys, mapEach f xs = .ok ys ∧ mapEach g ys = .ok zs := by
  induction xs generalizing zs with
  | nil =>
    constructor
    · intro h
      exact ⟨[], rfl, h⟩
    · rintro ⟨ys, hys, hzs⟩
      cases hys
      exact hzs
  | cons a rest ih =>
    simp only [mapEach_cons_eq_ok, andThen, bind_eq_ok, ih]
    constructor
    · rintro ⟨c, more, ⟨b, hb, hc⟩, ⟨ys, hys, hmore⟩, rfl⟩
      exact ⟨b :: ys, ⟨b, ys, hb, hys, rfl⟩, mapEach_cons_eq_ok.mpr ⟨c, more, hc, hmore, rfl⟩⟩
    · rintro ⟨_, ⟨b, ys, hb, hys, rfl⟩, hzs⟩
      obtain ⟨c, more, hc, hmore, rfl⟩ := mapEach_cons_eq_ok.mp hzs
      exact ⟨c, more, ⟨b, hb, hc⟩, ⟨ys, hys, hmore⟩, rfl⟩

theorem mapEach_of_ok {h : α → β} (hok : ∀ a ∈ xs, f a = .ok (h a)) :
    mapEach f xs = .ok (xs.map h) := by
  induction xs with
  | nil => rfl
  | cons a rest ih =>
    obtain ⟨ha, hrest⟩ := List.forall_mem_cons.mp hok
    exact mapEach_cons_eq_ok.mpr ⟨h a, rest.map h, ha, ih hrest, rfl⟩

theorem ok_of_mapEach {ys : List β} (h : mapEach f xs = .ok ys) : ∀ a ∈ xs, ∃ b, f a = .ok b := by
  induction xs generalizing ys with
  | nil => exact List.forall_mem_nil _
  | cons a rest ih =>
    obtain ⟨b, more, hb, hmore, -⟩ := mapEach_cons_eq_ok.mp h
    exact List.forall_mem_cons.mpr ⟨⟨b, hb⟩, ih hmore⟩

/-! ### The first failure -/

/-- The step succeeds on some items, and fails on the one behind them. -/
structure Fails (f : α → Except Diagnostic β) (before : List α) (x : α) (d : Diagnostic) : Prop where
  before_ok : ∀ a ∈ before, ∃ b, f a = .ok b
  error : f x = .error d

variable {before later : List α} {x : α} {d : Diagnostic}

theorem Fails.tail (h : Fails f (a :: before) x d) : Fails f before x d :=
  ⟨(List.forall_mem_cons.mp h.before_ok).2, h.error⟩

theorem Fails.mapEach (h : Fails f before x d) (later : List α) :
    mapEach f (before ++ x :: later) = .error d := by
  induction before with
  | nil => rw [List.nil_append, Fallible.mapEach, h.error]; rfl
  | cons a before ih =>
    obtain ⟨b, hb⟩ := h.before_ok a List.mem_cons_self
    rw [List.cons_append, Fallible.mapEach, hb, ok_bind, ih h.tail]
    rfl

theorem succeeds_or_fails (f : α → Except Diagnostic β) (xs : List α) :
    (∃ ys, mapEach f xs = .ok ys) ∨
      ∃ before x later d, xs = before ++ x :: later ∧ Fails f before x d := by
  induction xs with
  | nil => exact .inl ⟨[], rfl⟩
  | cons a rest ih =>
    cases ha : f a with
    | error d => exact .inr ⟨[], a, rest, d, rfl, List.forall_mem_nil _, ha⟩
    | ok b =>
      rcases ih with ⟨ys, hys⟩ | ⟨before, x, later, d, rfl, hfails⟩
      · exact .inl ⟨b :: ys, mapEach_cons_eq_ok.mpr ⟨b, ys, ha, hys, rfl⟩⟩
      · exact .inr ⟨a :: before, x, later, d, rfl,
          List.forall_mem_cons.mpr ⟨⟨b, ha⟩, hfails.before_ok⟩, hfails.error⟩

theorem mapEach_eq_error :
    mapEach f xs = .error d ↔ ∃ before x later, xs = before ++ x :: later ∧ Fails f before x d := by
  constructor
  · intro h
    rcases succeeds_or_fails f xs with ⟨ys, hys⟩ | ⟨before, x, later, d', rfl, hfails⟩
    · rw [hys] at h
      cases h
    · rw [hfails.mapEach later] at h
      cases h
      exact ⟨before, x, later, rfl, hfails⟩
  · rintro ⟨before, x, later, rfl, hfails⟩
    exact hfails.mapEach later

/-- Only the items up to the first failing one leave entries. -/
theorem Fails.run_recorded {p : Pipeline ε α β} (h : Fails p.apply before x d) (later : List α)
    (log : List ε) :
    (Fallible.mapEach p.recorded (before ++ x :: later)).run log =
      (.error d, log ++ (before.flatMap p.entries ++ p.entries x)) := by
  induction before generalizing log with
  | nil =>
    have hx := p.run_recorded x log
    rw [h.error] at hx
    exact run_bind_error hx _
  | cons a before ih =>
    obtain ⟨b, hb⟩ := h.before_ok a List.mem_cons_self
    have ha := p.run_recorded a log
    rw [hb] at ha
    rw [List.cons_append, Fallible.mapEach, run_bind_ok ha, run_bind_error (ih h.tail _),
      List.flatMap_cons, List.append_assoc, List.append_assoc]

end Each

/-! ### Tests of every item -/

theorem keepEach_eq {m : Type → Type} [Monad m] [LawfulMonad m] (p : α → m Bool) (xs : List α) :
    keepEach p xs = (do
      let keeps ← mapEach p xs
      return ((xs.zip keeps).filter (·.2)).map (·.1)) := by
  induction xs with
  | nil => simp [keepEach, mapEach]
  | cons a rest ih =>
    simp only [keepEach, mapEach, ih, bind_assoc, pure_bind]
    refine bind_congr (fun keep => bind_congr (fun keeps => ?_))
    cases keep <;> simp

section Keep

variable {p : α → Except Diagnostic Bool} {xs : List α}

theorem keepEach_of_ok {holds : α → Bool} (h : ∀ a ∈ xs, p a = .ok (holds a)) :
    keepEach p xs = .ok (xs.filter holds) := by
  have hzip : xs.zip (xs.map holds) = xs.map (fun a => (a, holds a)) := by
    simpa only [List.map_id, id_eq] using List.zip_map' (f := id) (g := holds) (l := xs)
  rw [keepEach_eq, mapEach_of_ok h, ok_bind, hzip]
  simp [List.filter_map, Function.comp_def]

theorem keepEach_eq_ok {ys : List α} :
    keepEach p xs = .ok ys ↔ ∃ holds : α → Bool, (∀ a ∈ xs, p a = .ok (holds a)) ∧
      ys = xs.filter holds := by
  constructor
  · intro h
    obtain ⟨keeps, hkeeps, -⟩ := bind_eq_ok.mp (keepEach_eq p xs ▸ h)
    have hholds : ∀ a ∈ xs, p a = .ok ((p a).toOption.getD false) := by
      intro a ha
      obtain ⟨b, hb⟩ := ok_of_mapEach hkeeps a ha
      rw [hb]
      rfl
    rw [keepEach_of_ok hholds] at h
    cases h
    exact ⟨_, hholds, rfl⟩
  · rintro ⟨holds, hholds, rfl⟩
    exact keepEach_of_ok hholds

theorem keepEach_eq_error {d : Diagnostic} : keepEach p xs = .error d ↔ mapEach p xs = .error d := by
  rw [keepEach_eq]
  cases mapEach p xs with
  | error d' => simp [bind, Except.bind]
  | ok keeps => simp

end Keep

/-! ### Pipelines -/

theorem mapEach_pipeline_eq_error {f : Pipeline ε α β} {g : Pipeline ε β γ} {xs : List α}
    {d : Diagnostic} :
    mapEach (f.andThen g).apply xs = .error d ↔ ∃ before x later, xs = before ++ x :: later ∧
      (∀ a ∈ before, ∃ b c, f.apply a = .ok b ∧ g.apply b = .ok c) ∧
      (f.apply x = .error d ∧ (mapEach (f.andThen g).recorded xs).run [] =
          (.error d, before.flatMap (f.andThen g).entries ++ f.entries x) ∨
        ∃ b, f.apply x = .ok b ∧ g.apply b = .error d ∧
          (mapEach (f.andThen g).recorded xs).run [] =
            (.error d, before.flatMap (f.andThen g).entries ++ (f.entries x ++ g.entries b))) := by
  rw [mapEach_eq_error]
  constructor
  · rintro ⟨before, x, later, rfl, hfails⟩
    have hrun := hfails.run_recorded later []
    rw [List.nil_append] at hrun
    refine ⟨before, x, later, rfl, fun a ha => ?_, ?_⟩
    · obtain ⟨c, hc⟩ := hfails.before_ok a ha
      obtain ⟨b, hb, hbc⟩ := Pipeline.apply_andThen_eq_ok.mp hc
      exact ⟨b, c, hb, hbc⟩
    · rcases Pipeline.apply_andThen_eq_error.mp hfails.error with hf | ⟨b, hb, hg⟩
      · rw [Pipeline.entries_andThen_of_error hf] at hrun
        exact .inl ⟨hf, hrun⟩
      · rw [Pipeline.entries_andThen_of_ok hb] at hrun
        exact .inr ⟨b, hb, hg, hrun⟩
  · rintro ⟨before, x, later, rfl, hbefore, hx⟩
    refine ⟨before, x, later, rfl, fun a ha => ?_, Pipeline.apply_andThen_eq_error.mpr ?_⟩
    · obtain ⟨b, c, hb, hc⟩ := hbefore a ha
      exact ⟨c, Pipeline.apply_andThen_eq_ok.mpr ⟨b, hb, hc⟩⟩
    · exact hx.imp And.left (fun ⟨b, hb, hg, _⟩ => ⟨b, hb, hg⟩)

/-- Two functions run on a list one after the other give what they give as one function. As one
function they fail where the first item fails on either, with what that one says, and no leaf is run on
an item behind it, nor one of the second function where the first one fails. A consumer is handed the
items up to the first that it refuses; a test keeps the items in their order if it fails on none, and
fails like the first otherwise; and a source is drawn from until an item passes, that one included, or
until the source or the test fails. -/
theorem first_failure_stops (f : Pipeline ε α β) (g : Pipeline ε β γ) (xs : List α)
    (consume : α → Stateful σ Unit) (p : α → Except Diagnostic Bool) (draw : Stateful σ α)
    (stop : α → Stateful σ Bool) (s : σ) :
    ((∀ zs, mapEach (f.andThen g).apply xs = .ok zs ↔
        ∃ ys, mapEach f.apply xs = .ok ys ∧ mapEach g.apply ys = .ok zs) ∧
      ∀ d, mapEach (f.andThen g).apply xs = .error d ↔ ∃ before x later, xs = before ++ x :: later ∧
        (∀ a ∈ before, ∃ b c, f.apply a = .ok b ∧ g.apply b = .ok c) ∧
        (f.apply x = .error d ∧ (mapEach (f.andThen g).recorded xs).run [] =
            (.error d, before.flatMap (f.andThen g).entries ++ f.entries x) ∨
          ∃ b, f.apply x = .ok b ∧ g.apply b = .error d ∧
            (mapEach (f.andThen g).recorded xs).run [] =
              (.error d, before.flatMap (f.andThen g).entries ++ (f.entries x ++ g.entries b)))) ∧
    ((∃ t, Along (Accepts consume) s xs t ∧ (feedEach consume xs).run s = (.ok (), t) ∧
        (feedEach (listing consume) xs).run ([], s) = (.ok (), (xs, t))) ∨
      ∃ before x later t d u, xs = before ++ x :: later ∧ Along (Accepts consume) s before t ∧
        (consume x).run t = (.error d, u) ∧ (feedEach consume xs).run s = (.error d, u) ∧
        (feedEach (listing consume) xs).run ([], s) = (.error d, (before ++ [x], u))) ∧
    ((∀ ys, keepEach p xs = .ok ys ↔ ∃ holds : α → Bool, (∀ a ∈ xs, p a = .ok (holds a)) ∧
        ys = xs.filter holds) ∧
      ∀ d, keepEach p xs = .error d ↔ ∃ before x later, xs = before ++ x :: later ∧
        (∀ a ∈ before, ∃ b, p a = .ok b) ∧ p x = .error d) ∧
    ∀ r u, Drains draw stop s r u ↔ ∃ passed t last, Along (Rejects draw stop) s passed t ∧
      Finishes draw stop t last u ∧ r = last.map (passed ++ [·]) := by
  refine ⟨⟨fun zs => mapEach_andThen_eq_ok, fun d => mapEach_pipeline_eq_error⟩,
    feedEach_cases consume xs s, ⟨fun ys => keepEach_eq_ok, fun d => ?_⟩, fun r u => drains_iff⟩
  rw [keepEach_eq_error, mapEach_eq_error]
  constructor
  · rintro ⟨before, x, later, rfl, hfails⟩
    exact ⟨before, x, later, rfl, hfails.before_ok, hfails.error⟩
  · rintro ⟨before, x, later, rfl, hbefore, hx⟩
    exact ⟨before, x, later, rfl, hbefore, hx⟩

end DeclFront.Fallible
