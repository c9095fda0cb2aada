import DeclFront.Proofs.CheckMode

/-! How many files are checked at once. Any number that can be set up gives the same, in whatever
order the jobs go; but the command takes larger ones too, and those end it before any file is read. -/

namespace DeclFront

/-! ### Checks in any order -/

theorem mapM_eq_some {α β : Type} {f : α → Option β} {g : α → β} {l : List α}
    (h : ∀ a ∈ l, f a = some (g a)) : l.mapM f = some (l.map g) := by
  induction l with
  | nil => rfl
  | cons a l ih =>
    obtain ⟨hhead, htail⟩ := List.forall_mem_cons.mp h
    rw [List.mapM_cons, hhead, ih htail]
    rfl

/-- What a finished job comes to, by the name of its source. -/
def Task.result? (t : Task) : Option (String × Outcome) :=
  t.outcome?.map (fun o => (t.source.name, o))

namespace Pool

/-- The events of a check: the files are taken on in their order, and no job is asked to stop. -/
structure Checks (files : List String) (events : List Event) : Prop where
  submitted : events.filterMap Event.source? = files.map Source.path
  calm : ∀ i, .act i .cancel ∉ events

def report? (screen : Screen) (plain : Bool) (pool : Pool) : Option CommandResult :=
  (pool.tasks.mapM Task.result?).map (Command.report screen plain)

variable {storage : Storage} {config : Config} {pool : Pool} {events : List Event} {permits : Nat}

theorem ofConfig?_eq_some {processors : Nat} (h : config.permits processors ≤ Supervisor.permitLimit) :
    ofConfig? processors config = some ⟨config.permits processors, 1, []⟩ := if_pos h

theorem Sound.completes (h : Sound storage config permits events pool) (hpos : 0 < permits) :
    ∃ more pool', pool.Steps storage config more pool' ∧ (∀ e ∈ more, e.isWork = true) ∧
      ∀ t ∈ pool'.tasks, t.outcome?.isSome = true := by
  -- By induction on the work that is left, of which each step does some.
  induction hwork : pool.work storage config using Nat.strongRecOn generalizing pool events with
  | ind n ih =>
    subst hwork
    by_cases hdone : ∃ t ∈ pool.tasks, t.outcome? = none
    · obtain ⟨i, action, pool', hne, hs⟩ := h.exists_step hpos hdone
      have hiswork : (Event.act i action).isWork = true := by simpa [Event.isWork] using hne
      have hless : pool'.work storage config < pool.work storage config := by
        have hle := step?_work hs rfl
        rw [hiswork, Bool.toNat_true] at hle
        omega
      obtain ⟨more, pool'', hsteps, hmore, hend⟩ := ih _ hless (h.step hs) rfl
      exact ⟨_ :: more, pool'', .cons hs hsteps, List.forall_mem_cons.mpr ⟨hiswork, hmore⟩, hend⟩
    · exact ⟨[], pool, .nil, by simp,
        fun t ht => Option.isSome_iff_ne_none.mpr (fun hnone => hdone ⟨t, ht, hnone⟩)⟩

theorem Steps.length_le_work {more : List Event} {pool' : Pool}
    (hs : pool.Steps storage config more pool') (hwork : ∀ e ∈ more, e.isWork = true) :
    more.length ≤ pool.work storage config := by
  have hle := hs.work_le (fun e he => Event.source?_of_isWork (hwork e he))
  rw [List.countP_eq_length.mpr hwork] at hle
  omega

theorem Sound.report?_eq {o : Options} (screen : Screen)
    (h : Sound storage o.config permits events pool) (hc : Checks o.files events)
    (hdone : ∀ t ∈ pool.tasks, t.outcome?.isSome = true) :
    pool.report? screen o.plain = some (Command.reportOn storage screen o) := by
  let result (source : Source) := (source.name, (Job.run storage o.config source .never).outcome)
  have htask : ∀ t ∈ pool.tasks, t.result? = some (result t.source) := by
    intro t ht
    obtain ⟨i, hi⟩ := List.getElem?_of_mem ht
    obtain ⟨o, ho⟩ := Option.isSome_iff_exists.mp (hdone t ht)
    have hcalm : .cancel ∉ actionsOn i events := fun hm => hc.calm i (mem_actionsOn.mp hm)
    rw [Task.result?, ho, (h.task hi).outcome_calm hcalm ho]
    rfl
  have hsources : pool.tasks.map Task.source = o.files.map Source.path :=
    h.sources_eq.trans hc.submitted
  have hresults : (pool.tasks.map Task.source).map result = (o.files.map Source.path).map result := by
    rw [hsources]
  rw [List.map_map, List.map_map] at hresults
  rw [report?, mapM_eq_some htask]
  exact congrArg (fun results => some (Command.report screen o.plain results)) hresults

end Pool

/-! ### The number of jobs -/

namespace Command

variable {storage : Storage} {screen : Screen} {processors n : Nat} {o : Options}

theorem config_permits (hj : o.jobs = some n) : o.config.permits processors = max n 1 := by
  rw [Options.config_eq, Config.permits, hj]
  exact Nat.max_eq_right (Nat.le_max_right n 1)

theorem reportOn_jobs (o : Options) (jobs : Option Nat) :
    reportOn storage screen { o with jobs := jobs } = reportOn storage screen o := by
  unfold reportOn
  rw [Options.config_eq, Options.config_eq]
  rfl

theorem execute_jobs (h : o.Checks) (hj : o.jobs = some n) :
    execute storage screen o = if Supervisor.permitLimit < n then .panicked
      else .exited (reportOn storage screen o) := by
  rw [execute_checks h, hj, Option.any_some]
  simp only [decide_eq_true_eq]

/-- A number of jobs at once that can be set up gives what one job at a time gives, in whatever order
the jobs are started, go on and are finished; and however far they have come, they can be finished,
which takes only so many steps. With a number that cannot be set up the command panics. -/
theorem jobs_at_once (storage : Storage) (screen : Screen) (processors : Nat) {o : Options} {n : Nat}
    (h : o.Checks) (hj : o.jobs = some n) :
    ∃ r, execute storage screen { o with jobs := some 1 } = .exited r ∧
      (n ≤ Supervisor.permitLimit →
        execute storage screen o = .exited r ∧ (r.exitCode = 0 ∨ r.exitCode = 1) ∧
        ∃ start, Pool.ofConfig? processors o.config = some start ∧
          ∀ events pool, start.Steps storage o.config events pool → Pool.Checks o.files events →
            (∃ more pool', pool.Steps storage o.config more pool' ∧
              (∀ e ∈ more, e.isWork = true) ∧ ∀ t ∈ pool'.tasks, t.outcome?.isSome = true) ∧
            (∀ more pool', pool.Steps storage o.config more pool' → (∀ e ∈ more, e.isWork = true) →
              more.length ≤ pool.work storage o.config) ∧
            ((∀ t ∈ pool.tasks, t.outcome?.isSome = true) →
              pool.report? screen o.plain = some r)) ∧
      (Supervisor.permitLimit < n →
        Pool.ofConfig? processors o.config = none ∧ execute storage screen o = .panicked) := by
  have hone : execute storage screen { o with jobs := some 1 } =
      .exited (reportOn storage screen o) := by
    have hsmall : ¬ Supervisor.permitLimit < 1 := by decide
    have hchecks : { o with jobs := some 1 }.Checks := ⟨h.lexFile, h.parseFile, h.files⟩
    rw [execute_jobs hchecks rfl, if_neg hsmall, reportOn_jobs]
  have hcode : (reportOn storage screen o).exitCode = 0 ∨
      (reportOn storage screen o).exitCode = 1 := by
    rw [reportOn_exitCode]
    split
    · exact .inl rfl
    · exact .inr rfl
  have hpermits : Supervisor.permitLimit < o.config.permits processors ↔
      Supervisor.permitLimit < n := by
    rw [config_permits hj]
    exact Options.permitLimit_lt_max
  refine ⟨_, hone, fun hn => ?_, fun hn => ?_⟩
  · have hrun : execute storage screen o = .exited (reportOn storage screen o) := by
      rw [execute_jobs h hj, if_neg (Nat.not_lt.mpr hn)]
    have hfits : o.config.permits processors ≤ Supervisor.permitLimit :=
      Nat.not_lt.mp (mt hpermits.mp (Nat.not_lt.mpr hn))
    refine ⟨hrun, hcode, _, Pool.ofConfig?_eq_some hfits, fun events pool hs hc => ?_⟩
    have hpos : 0 < o.config.permits processors := Nat.le_max_left 1 _
    have hsound := (Pool.sound_empty storage o.config _).steps hs
    exact ⟨hsound.completes hpos, fun more pool' hs' hwork => hs'.length_le_work hwork,
      hsound.report?_eq screen hc⟩
  · exact ⟨if_neg (Nat.not_le.mpr (hpermits.mpr hn)), by rw [execute_jobs h hj, if_pos hn]⟩

/-- Three jobs at once do no harm, but too many do. -/
theorem jobs_at_once_three :
    let storage : Storage := fun _ => .error .notFound
    let screen : Screen := ⟨false, fun _ _ _ => ""⟩
    let o (n : Nat) : Options := ⟨["a", "b"], false, some n, 100, false, none, none⟩
    execute storage screen (o 3) = execute storage screen (o 1) ∧
      execute storage screen (o 2305843009213693952) = .panicked := by
  intro storage screen o
  have hchecks (n : Nat) : (o n).Checks := ⟨rfl, rfl, nofun⟩
  obtain ⟨r, hone, hfew, -⟩ := jobs_at_once storage screen 1 (hchecks 3) rfl
  obtain ⟨-, -, -, hmany⟩ := jobs_at_once storage screen 1 (hchecks 2305843009213693952) rfl
  exact ⟨(hfew (by decide)).1.trans hone.symm, (hmany (by decide)).2⟩

/-- The number is kept as it was given, so that the command panics before it reads the file, which is
clean. -/
theorem execute_largest_number :
    let storage : Storage := fun _ => .ok ⟨11, .ok "import a.b;".toUTF8⟩
    let screen : Screen := ⟨false, fun _ _ _ => ""⟩
    let o (n : Nat) : Options := ⟨["a"], false, some n, 100, false, none, none⟩
    (o 18446744073709551615).config.maxParallelJobs = some 18446744073709551615 ∧
      execute storage screen (o 18446744073709551615) = .panicked ∧
      execute storage screen (o 1) = .exited ⟨0, "", ""⟩ := by
  intro storage screen o
  have hclean : execute storage screen (o 1) = .exited ⟨0, "", ""⟩ := by decide +kernel
  exact ⟨rfl, rfl, hclean⟩

end Command

end DeclFront
