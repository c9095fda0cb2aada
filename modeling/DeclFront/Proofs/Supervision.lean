import DeclFront.Proofs.Pool

/-! A supervisor against all the ways in which its jobs may run. However they are interleaved, each
job comes to what it comes to alone, unless it is cancelled; and the supervisor that lets its jobs
run one after the other gives what every other order gives. -/

namespace DeclFront

/-! ### Numbers -/

theorem toString_nat_injective {m n : Nat} (h : toString m = toString n) : m = n := by
  rw [Nat.toString_eq_ofList_toDigits, Nat.toString_eq_ofList_toDigits] at h
  have hdigits : Nat.toDigits 10 m = Nat.toDigits 10 n := String.ofList_injective h
  have hvalue := congrArg (fun ds => Nat.ofDigitChars 10 ds 0) hdigits
  simpa only [Nat.ofDigitChars_ten_toDigits] using hvalue

theorem jobId_injective {m n : Nat} (h : "job#" ++ toString m = "job#" ++ toString n) : m = n :=
  toString_nat_injective (by simpa using h)

namespace Supervisor

/-! ### One after the other -/

/-- The handles of jobs that are taken on one after the other, from a number on. -/
def handlesFrom : Nat → List Source → List Handle
  | _, [] => []
  | n, source :: rest => ⟨n, source, false, none⟩ :: handlesFrom (n + 1) rest

variable {storage : Storage} {s : Supervisor} {h : Handle}

theorem submitAll_eq (s : Supervisor) (sources : List Source) :
    s.submitAll sources = (handlesFrom s.nextNumber sources,
      { s with
        nextNumber := s.nextNumber + sources.length
        handles := s.handles ++ handlesFrom s.nextNumber sources }) := by
  induction sources generalizing s with
  | nil => simp [submitAll, handlesFrom]
  | cons source rest ih => simp [submitAll, submit, ih, handlesFrom, Nat.add_assoc, Nat.add_comm 1]

theorem mem_handlesFrom {n : Nat} {sources : List Source} (hm : h ∈ handlesFrom n sources) :
    n ≤ h.number ∧ h.cancelled = false ∧ h.outcome = none := by
  induction sources generalizing n with
  | nil => cases hm
  | cons source rest ih =>
    rcases List.mem_cons.mp hm with rfl | hm
    · exact ⟨Nat.le_refl n, rfl, rfl⟩
    · obtain ⟨hle, hfresh⟩ := ih hm
      exact ⟨by omega, hfresh⟩

theorem find?_handlesFrom {n : Nat} {sources : List Source} (hm : h ∈ handlesFrom n sources) :
    (handlesFrom n sources).find? (fun h' => h'.number == h.number) = some h := by
  induction sources generalizing n with
  | nil => cases hm
  | cons source rest ih =>
    rcases List.mem_cons.mp hm with rfl | hm
    · simp [handlesFrom]
    · have hne : n ≠ h.number := by
        have hle := (mem_handlesFrom hm).1
        omega
      rw [handlesFrom, List.find?_cons_of_neg (by simpa using hne)]
      exact ih hm

@[simp] theorem number_settle (config : Config) (h : Handle) :
    (h.settle storage config).number = h.number := by
  unfold Handle.settle
  split <;> rfl

theorem map_source_handlesFrom (n : Nat) (sources : List Source) :
    (handlesFrom n sources).map Handle.source = sources := by
  induction sources generalizing n with
  | nil => rfl
  | cons source rest ih => simp [handlesFrom, ih]

theorem find?_append_handlesFrom {sources : List Source}
    (hfresh : ∀ h ∈ s.handles, h.number < s.nextNumber)
    (hm : h ∈ handlesFrom s.nextNumber sources) :
    (s.handles ++ handlesFrom s.nextNumber sources).find? (fun h' => h'.number == h.number) =
      some h := by
  have hnone : s.handles.find? (fun h' => h'.number == h.number) = none := by
    refine List.find?_eq_none.mpr (fun h' hm' => ?_)
    have hlt := hfresh h' hm'
    have hle := (mem_handlesFrom hm).1
    simp only [beq_iff_eq]
    omega
  rw [List.find?_append, hnone, find?_handlesFrom hm]
  rfl

/-- Taken on together, sources come to what each of them comes to alone, in their order. -/
theorem runAll_eq (hfresh : ∀ h ∈ s.handles, h.number < s.nextNumber) (sources : List Source) :
    (s.runAll storage sources).1 = sources.map (fun source =>
      (source.name, (Job.run storage s.config source .never).outcome)) := by
  have hlook (h : Handle) (hm : h ∈ handlesFrom s.nextNumber sources) :
      ((((s.handles ++ handlesFrom s.nextNumber sources).map (Handle.settle storage s.config)).find?
        (fun h' => h'.number == h.number)).bind Handle.outcome).getD .cancelled =
          (Job.run storage s.config h.source .never).outcome := by
    obtain ⟨-, hcancelled, houtcome⟩ := mem_handlesFrom hm
    rw [List.find?_map]
    simp only [Function.comp_def, number_settle, find?_append_handlesFrom hfresh hm]
    have hsettle : (h.settle storage s.config).outcome =
        some (Job.run storage s.config h.source .never).outcome := by
      simp only [Handle.settle, houtcome, hcancelled]
      rfl
    simp [hsettle]
  calc (s.runAll storage sources).1
      = (handlesFrom s.nextNumber sources).map (fun h =>
          (h.source.name, (Job.run storage s.config h.source .never).outcome)) := by
        simp only [runAll, submitAll_eq, settle, handle?]
        exact List.map_congr_left (fun h hm => by rw [hlook h hm])
    _ = ((handlesFrom s.nextNumber sources).map Handle.source).map (fun source =>
          (source.name, (Job.run storage s.config source .never).outcome)) := by
        rw [List.map_map]
        rfl
    _ = _ := by rw [map_source_handlesFrom]

end Supervisor

/-! ### In any order -/

namespace Task

variable {storage : Storage} {config : Config} {number : Nat} {source : Source}
  {actions later : List Action} {t t' : Task} {o : Outcome}

theorem Sound.outcome_calm (h : Sound storage config number source actions t)
    (hc : .cancel ∉ actions) (ho : t.outcome? = some o) :
    o = (Job.run storage config source .never).outcome := by
  have hs : t.stage = .finished o := outcome?_eq_some.mp ho
  rcases h.outcome o hs with rfl | rfl
  · rfl
  · exact absurd ((h.asked hs).subset List.mem_cons_self) hc

theorem Sound.outcome_doomed (h : Sound storage config number source actions t)
    (hd : [.cancel, .start].Sublist actions) (ho : t.outcome? = some o) : o = .cancelled := by
  obtain ⟨-, -, hstage⟩ := h.doomed hd
  simpa [outcome?_eq_some.mp ho] using hstage

theorem stage_of_idle (hidle : t.isRunning = false) (hout : t.outcome? = none) :
    t.stage = .queued := by
  cases hs : t.stage with
  | queued => rfl
  | running p => simp [isRunning, hs] at hidle
  | finished o => simp [outcome?_eq_some.mpr hs] at hout

theorem Sound.handle_settled (h : Sound storage config number source actions t)
    (h' : Sound storage config number source (actions ++ later) t') (hc : .cancel ∉ later)
    (hidle : t.isRunning = false) (hlast : ∀ o, t.outcome? = some o → t'.outcome? = some o)
    (hdone : t'.outcome? = some o) : t'.handle = t.handle.settle storage config := by
  have hflag : t'.cancelled = t.cancelled := by
    rw [Bool.eq_iff_iff, h.flag, h'.flag]
    simp [hc]
  have hsame : t'.handle = ⟨t.number, t.source, t.cancelled, some o⟩ := by
    rw [handle, hdone, hflag, h'.number_eq, h'.source_eq, h.number_eq, h.source_eq]
  rw [hsame, Handle.settle, handle]
  cases hout : t.outcome? with
  | some o' =>
    have heq : o' = o := Option.some.inj ((hlast o' hout).symm.trans hdone)
    rw [heq]
  | none =>
    -- The job has run since, and its flag has stayed as it was.
    have hqueued : t.stage = .queued := stage_of_idle hidle hout
    have hrun : o = (Job.run storage config t.source (fun _ => t.cancelled)).outcome := by
      rw [h.source_eq]
      cases hcancelled : t.cancelled with
      | false =>
        have hnever : .cancel ∉ actions ++ later := by simpa [← h'.flag, hflag] using hcancelled
        exact h'.outcome_calm hnever hdone
      | true =>
        -- It was asked to stop while it waited, and has been started since.
        have hasked : .cancel ∈ actions := h.flag.mp hcancelled
        have hunstarted : .start ∉ actions := h.waiting.mp hqueued
        have hstarted : .start ∈ actions ++ later := by
          by_cases hmem : .start ∈ actions ++ later
          · exact hmem
          · exact absurd (h'.waiting.mpr hmem) (by simp [outcome?_eq_some.mp hdone])
        have hlater : .start ∈ later := (List.mem_append.mp hstarted).resolve_left hunstarted
        have hdoomed : [.cancel, .start].Sublist (actions ++ later) :=
          (List.singleton_sublist.mpr hasked).append (List.singleton_sublist.mpr hlater)
        exact h'.outcome_doomed hdoomed hdone
    simp only [← hrun]

end Task

namespace Pool

/-- What the supervisor keeps of the pool. -/
def supervisor (config : Config) (pool : Pool) : Supervisor :=
  ⟨config, pool.nextNumber, pool.tasks.map Task.handle⟩

variable {storage : Storage} {config : Config} {pool pool' : Pool} {events more : List Event}
  {permits i : Nat} {t t' : Task}

theorem mem_actionsOn {action : Action} : action ∈ actionsOn i events ↔ .act i action ∈ events := by
  unfold actionsOn
  rw [List.mem_filterMap]
  constructor
  · rintro ⟨event, hm, ha⟩
    cases event with
    | submit source => cases ha
    | act j a =>
      by_cases hj : j = i
      · simp only [Event.actionOn?, hj, if_true, Option.some.injEq] at ha
        rwa [← hj, ← ha]
      · simp [Event.actionOn?, hj] at ha
  · intro hm
    exact ⟨_, hm, by simp [Event.actionOn?]⟩

theorem Sound.task (h : Sound storage config permits events pool)
    (ht : pool.tasks[i]? = some t) :
    Task.Sound storage config (i + 1) t.source (actionsOn i events) t := (h.reached i t ht).sound

theorem Sound.ids (h : Sound storage config permits events pool) :
    pool.tasks.map (fun t => t.handle.id) =
      (List.range pool.tasks.length).map (fun k => "job#" ++ toString (k + 1)) := by
  refine List.ext_getElem? (fun i => ?_)
  rw [List.getElem?_map, List.getElem?_map]
  cases ht : pool.tasks[i]? with
  | none =>
    have hge : pool.tasks.length ≤ i := List.getElem?_eq_none_iff.mp ht
    simp [hge]
  | some t =>
    have hlt : i < pool.tasks.length := (List.getElem?_eq_some_iff.mp ht).1
    have hnumber : t.number = i + 1 := (h.task ht).number_eq
    simp [hlt, Task.handle, Handle.id, hnumber]

theorem Sound.ids_nodup (h : Sound storage config permits events pool) :
    (pool.tasks.map (fun t => t.handle.id)).Nodup := by
  rw [h.ids, List.Nodup, List.pairwise_map]
  refine List.nodup_range.imp (fun {a b} hne heq => hne ?_)
  have hsucc : a + 1 = b + 1 := jobId_injective heq
  omega

/-- However the jobs of an idle pool are scheduled, once all of them are finished the supervisor has
what it has after letting them run one after the other. -/
theorem Sound.settles (h : Sound storage config permits events pool) (hidle : pool.running = 0)
    (hs : pool.Steps storage config more pool') (hwork : ∀ e ∈ more, e.isWork = true)
    (hdone : ∀ t ∈ pool'.tasks, t.outcome?.isSome = true) :
    pool'.supervisor config = (pool.supervisor config).settle storage := by
  have h' := h.steps hs
  -- The events neither add jobs nor set flags.
  have hsubmits : more.filterMap Event.source? = [] :=
    List.filterMap_eq_nil_iff.mpr (fun e he => Event.source?_of_isWork (hwork e he))
  have hsources : pool'.tasks.map Task.source = pool.tasks.map Task.source := by
    rw [h.sources_eq, h'.sources_eq, List.filterMap_append, hsubmits, List.append_nil]
  have hlength : pool'.tasks.length = pool.tasks.length := by
    simpa using congrArg List.length hsources
  have hnumber : pool'.nextNumber = pool.nextNumber := by
    rw [h.nextNumber_eq, h'.nextNumber_eq, hlength]
  have hcalm (i : Nat) : .cancel ∉ actionsOn i more := by
    intro hm
    exact absurd (hwork _ (mem_actionsOn.mp hm)) (by simp [Event.isWork])
  have hhandles : pool'.tasks.map Task.handle =
      (pool.tasks.map Task.handle).map (Handle.settle storage config) := by
    refine List.ext_getElem? (fun i => ?_)
    rw [List.map_map, List.getElem?_map, List.getElem?_map]
    cases ht : pool.tasks[i]? with
    | none =>
      have hge : pool'.tasks.length ≤ i := hlength ▸ List.getElem?_eq_none_iff.mp ht
      simp [hge]
    | some t =>
      have hlt : i < pool'.tasks.length := hlength ▸ (List.getElem?_eq_some_iff.mp ht).1
      obtain ⟨t', ht'⟩ : ∃ t', pool'.tasks[i]? = some t' := ⟨_, List.getElem?_eq_getElem hlt⟩
      obtain ⟨o, ho⟩ := Option.isSome_iff_exists.mp (hdone t' (List.mem_of_getElem? ht'))
      have hsource : t'.source = t.source := by
        have hat := congrArg (fun sources => sources[i]?) hsources
        simpa [ht, ht'] using hat
      have hsound' := h'.task ht'
      rw [hsource, actionsOn_append] at hsound'
      have hrests : t.isRunning = false := by
        simpa using List.countP_eq_zero.mp hidle t (List.mem_of_getElem? ht)
      have hlast : ∀ o, t.outcome? = some o → t'.outcome? = some o := by
        intro o ho
        obtain ⟨u, hu, hou, -⟩ := hs.lasting ht ho
        rwa [Option.some.inj (ht'.symm.trans hu)]
      rw [ht', Option.map_some, Option.map_some,
        (h.task ht).handle_settled hsound' (hcalm i) hrests hlast ho]
      rfl
  rw [supervisor, supervisor, Supervisor.settle, hhandles, hnumber]

theorem Sound.results {jobs : List Nat} {sources : List Source}
    (h : Sound storage config permits events pool)
    (hjobs : jobs.map (fun i => (pool.tasks[i]?).map Task.source) = sources.map some)
    (hcalm : ∀ i ∈ jobs, .act i .cancel ∉ events)
    (hdone : ∀ i ∈ jobs, ∀ t, pool.tasks[i]? = some t → t.outcome?.isSome = true) :
    jobs.map (fun i => (pool.tasks[i]?).map (fun t => (t.source.name, t.outcome?))) =
      sources.map (fun source =>
        some (source.name, some (Job.run storage config source .never).outcome)) := by
  induction jobs generalizing sources with
  | nil => simpa using hjobs
  | cons i jobs ih =>
    cases sources with
    | nil => cases hjobs
    | cons source sources =>
      obtain ⟨hfirst, hrest⟩ := List.cons.inj hjobs
      obtain ⟨t, ht, rfl⟩ := Option.map_eq_some_iff.mp hfirst
      obtain ⟨hcalm, hcalm'⟩ := List.forall_mem_cons.mp hcalm
      obtain ⟨hdone, hdone'⟩ := List.forall_mem_cons.mp hdone
      obtain ⟨o, ho⟩ := Option.isSome_iff_exists.mp (hdone t ht)
      have hout : o = (Job.run storage config t.source .never).outcome :=
        (h.task ht).outcome_calm (fun hm => hcalm (mem_actionsOn.mp hm)) ho
      rw [List.map_cons, List.map_cons, ih hrest hcalm' hdone', ht, Option.map_some, ho, hout]

theorem Sound.cancels (h : Sound storage config permits events pool)
    (hs : pool.step? storage config (.act i .cancel) = some pool') :
    pool'.supervisor config = (pool.supervisor config).cancel (i + 1) := by
  obtain ⟨t, t', free, ht, hp, -, rfl⟩ := step?_act hs
  cases hp
  have hhandles : (pool.tasks.set i { t with cancelled := true }).map Task.handle =
      (pool.tasks.map Task.handle).map (fun h => if h.number = i + 1 then h.cancel else h) := by
    refine List.ext_getElem? (fun j => ?_)
    rw [List.map_map, List.getElem?_map, List.getElem?_map, getElem?_set_act ht]
    by_cases hij : i = j
    · subst hij
      have hnumber : t.handle.number = i + 1 := (h.task ht).number_eq
      simp only [if_true, ht, Option.map_some, Function.comp_apply, hnumber]
      rfl
    · rw [if_neg hij]
      cases hu : pool.tasks[j]? with
      | none => rfl
      | some u =>
        have hnumber : u.handle.number = j + 1 := (h.task hu).number_eq
        have hne : u.handle.number ≠ i + 1 := by omega
        simp [hne]
  rw [supervisor, supervisor, Supervisor.cancel, Supervisor.update, hhandles]

theorem Sound.numbers_lt (h : Sound storage config permits events pool) :
    ∀ handle ∈ (pool.supervisor config).handles, handle.number < pool.nextNumber := by
  intro handle hm
  obtain ⟨t, hmem, rfl⟩ := List.mem_map.mp hm
  obtain ⟨i, ht⟩ := List.getElem?_of_mem hmem
  have hnumber : t.handle.number = i + 1 := (h.task ht).number_eq
  have hlt : i < pool.tasks.length := (List.getElem?_eq_some_iff.mp ht).1
  rw [hnumber, h.nextNumber_eq]
  omega

end Pool

/-- What can be said of the jobs of a supervisor after these events. -/
structure Supervised (storage : Storage) (config : Config) (permits : Nat) (events : List Event)
    (pool : Pool) : Prop where
  bounded : pool.running ≤ permits
  ids : pool.tasks.map (fun t => t.handle.id) =
    (List.range pool.tasks.length).map (fun k => "job#" ++ toString (k + 1))
  ids_distinct : (pool.tasks.map (fun t => t.handle.id)).Nodup
  sources : pool.tasks.map Task.source = events.filterMap Event.source?
  /-- Where a job stands depends on nothing but what is done to it. -/
  independent : ∀ i t, pool.tasks[i]? = some t →
    Task.Reached storage config (i + 1) t.source (actionsOn i events) t
  published : ∀ t ∈ pool.tasks, t.published = .idle ::
    ((if t.hasRead then [.running] else []) ++ (t.outcome?.map Outcome.state).toList)
  /-- A finished job is left alone, whatever comes. -/
  lasting : ∀ (more : List Event) (pool' : Pool), pool.Steps storage config more pool' →
    ∀ (i : Nat) (t : Task) (o : Outcome), pool.tasks[i]? = some t → t.outcome? = some o →
      o.state.isTerminal = true ∧ ∃ t' : Task, pool'.tasks[i]? = some t' ∧ t'.outcome? = some o ∧ t'.published = t.published
  outcome : ∀ t ∈ pool.tasks, ∀ o, t.outcome? = some o →
    o = (Job.run storage config t.source .never).outcome ∨ o = .cancelled
  cancelled_only : ∀ i t, pool.tasks[i]? = some t → t.outcome? = some .cancelled →
    [.cancel, .finish].Sublist (actionsOn i events)
  cancelled_unread : ∀ i t, pool.tasks[i]? = some t →
    [.cancel, .start].Sublist (actionsOn i events) →
    t.hasRead = false ∧ ∀ o, t.outcome? = some o → o = .cancelled
  /-- Sources that are taken on together come to what each of them comes to alone, in their order. -/
  runAll : ∀ sources, ((pool.supervisor config).runAll storage sources).1 =
    sources.map (fun source => (source.name, (Job.run storage config source .never).outcome))
  /-- So do the jobs for some sources, once they are finished and if nobody has cancelled them,
  whatever other jobs there are. -/
  results : ∀ (jobs : List Nat) (sources : List Source),
    jobs.map (fun i => (pool.tasks[i]?).map Task.source) = sources.map some →
    (∀ i ∈ jobs, .act i .cancel ∉ events) →
    (∀ i ∈ jobs, ∀ t, pool.tasks[i]? = some t → t.outcome?.isSome = true) →
    jobs.map (fun i => (pool.tasks[i]?).map (fun t => (t.source.name, t.outcome?))) =
      sources.map (fun source =>
        some (source.name, some (Job.run storage config source .never).outcome))
  /-- No job has to wait forever: something can be done as long as there is something to do, and
  only so often. -/
  proceeds : (∃ t ∈ pool.tasks, t.outcome? = none) → ∃ i action pool', action ≠ .cancel ∧
    pool.step? storage config (.act i action) = some pool'
  ends : ∀ more pool', pool.Steps storage config more pool' → (∀ e ∈ more, e.source? = none) →
    more.countP Event.isWork ≤ pool.work storage config
  /-- The supervisor does what the events say, and letting the jobs run one after the other is as
  good as any other order. -/
  submits : ∀ source pool', pool.step? storage config (.submit source) = some pool' →
    pool'.supervisor config = ((pool.supervisor config).submit source).2
  cancels : ∀ i pool', pool.step? storage config (.act i .cancel) = some pool' →
    pool'.supervisor config = (pool.supervisor config).cancel (i + 1)
  settles : pool.running = 0 → ∀ more pool', pool.Steps storage config more pool' →
    (∀ e ∈ more, e.isWork = true) → (∀ t ∈ pool'.tasks, t.outcome?.isSome = true) →
    pool'.supervisor config = (pool.supervisor config).settle storage

theorem Outcome.isTerminal_state (o : Outcome) : o.state.isTerminal = true := by
  cases o <;> rfl

theorem Pool.Sound.supervised {storage : Storage} {config : Config} {permits : Nat}
    {events : List Event} {pool : Pool} (h : pool.Sound storage config permits events)
    (hpos : 0 < permits) : Supervised storage config permits events pool where
  bounded := by
    have hsum := h.permits_eq
    omega
  ids := h.ids
  ids_distinct := h.ids_nodup
  sources := h.sources_eq
  independent := h.reached
  published := by
    intro t hm
    obtain ⟨i, ht⟩ := List.getElem?_of_mem hm
    exact (h.task ht).published
  lasting := fun more pool' hs i t o ht ho => ⟨o.isTerminal_state, hs.lasting ht ho⟩
  outcome := by
    intro t hm o ho
    obtain ⟨i, ht⟩ := List.getElem?_of_mem hm
    exact (h.task ht).outcome o (Task.outcome?_eq_some.mp ho)
  cancelled_only := fun i t ht ho => (h.task ht).asked (Task.outcome?_eq_some.mp ho)
  cancelled_unread := fun i t ht hd =>
    ⟨((h.task ht).doomed hd).2.1, fun o ho => (h.task ht).outcome_doomed hd ho⟩
  runAll := Supervisor.runAll_eq h.numbers_lt
  results := fun jobs sources hjobs hcalm hdone => h.results hjobs hcalm hdone
  proceeds := h.exists_step hpos
  ends := by
    intro more pool' hs hn
    have hle := hs.work_le hn
    omega
  submits := by
    intro source pool' hs
    cases hs
    simp [Pool.supervisor, Supervisor.submit, Task.handle, Task.fresh, Task.outcome?]
  cancels := fun i pool' hs => h.cancels hs
  settles := fun hidle more pool' hs hwork hdone => h.settles hidle hs hwork hdone

/-- Whatever is submitted, cancelled, started, polled and finished, in any order that the permits
allow, the jobs of a supervisor behave. -/
theorem supervision_safe {processors : Nat} {storage : Storage} {config : Config}
    {start pool : Pool} {events : List Event}
    (hstart : Pool.ofConfig? processors config = some start)
    (hs : start.Steps storage config events pool) :
    Supervised storage config (config.permits processors) events pool := by
  have hempty : start = ⟨config.permits processors, 1, []⟩ := by
    unfold Pool.ofConfig? at hstart
    split at hstart
    · exact (Option.some.inj hstart).symm
    · cases hstart
  have hpos : 0 < config.permits processors := Nat.le_max_left 1 _
  subst hempty
  exact ((Pool.sound_empty storage config _).steps hs).supervised hpos

/-- With one permit, the second job is cancelled while it waits for the first one. -/
theorem supervision_safe_one_permit :
    let storage : Storage := fun _ => .error .notFound
    let config : Config := { maxParallelJobs := some 1 }
    let events : List Event := [.submit (.path "a"), .submit (.path "b"), .act 0 .start,
      .act 1 .cancel, .act 0 .poll, .act 0 .finish, .act 1 .start, .act 1 .poll, .act 1 .finish]
    ∃ start pool, Pool.ofConfig? 8 config = some start ∧ start.Steps storage config events pool ∧
      Supervised storage config 1 events pool ∧
      pool.tasks.map Task.published = [[.idle, .running, .failed], [.idle, .cancelled]] := by
  intro storage config events
  have hstart : Pool.ofConfig? 8 config = some ⟨1, 1, []⟩ := rfl
  have hsteps : ∃ pool, Pool.Steps storage config ⟨1, 1, []⟩ events pool ∧
      pool.tasks.map Task.published = [[.idle, .running, .failed], [.idle, .cancelled]] :=
    ⟨_, .cons rfl (.cons rfl (.cons rfl (.cons rfl (.cons rfl (.cons rfl (.cons rfl (.cons rfl
      (.cons rfl .nil)))))))), rfl⟩
  obtain ⟨pool, hs, hpub⟩ := hsteps
  exact ⟨_, pool, hstart, hs, supervision_safe hstart hs, hpub⟩

end DeclFront
