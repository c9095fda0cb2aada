import Mathlib.Algebra.GroupWithZero.Nat
import DeclFront.Proofs.Tasks

/-! Jobs side by side. They are submitted one after the other and then go their own ways, in any
order; all they share is a number of permits, of which each running job holds one. -/

namespace DeclFront

/-- Jobs are counted from zero, in the order of their submission. -/
inductive Event
  | submit (source : Source)
  | act (job : Nat) (action : Action)
deriving DecidableEq, Repr

namespace Event

def source? : Event → Option Source
  | submit source => some source
  | act _ _ => none

def actionOn? (i : Nat) : Event → Option Action
  | submit _ => none
  | act j action => if j = i then some action else none

def isWork : Event → Bool
  | submit _ => false
  | act _ action => action != .cancel

theorem source?_of_isWork {e : Event} (h : e.isWork = true) : e.source? = none := by
  cases e with
  | submit source => cases h
  | act i action => rfl

end Event

/-- What is done to one job, in order. -/
def actionsOn (i : Nat) (events : List Event) : List Action := events.filterMap (Event.actionOn? i)

/-- How many jobs may run at once. -/
def Config.permits (processors : Nat) (c : Config) : Nat :=
  max 1 (c.maxParallelJobs.getD processors)

/-- The permits that are left after an action: a job takes one when it starts, if there is one, and
gives it back when it is finished. -/
def Action.permits? (free : Nat) : Action → Option Nat
  | start => if free = 0 then none else some (free - 1)
  | finish => some (free + 1)
  | cancel | poll => some free

structure Pool where
  free : Nat
  nextNumber : Nat
  tasks : List Task

namespace Pool

/-- A pool without jobs, unless there are more permits than can be set up. -/
def ofConfig? (processors : Nat) (config : Config) : Option Pool :=
  if config.permits processors ≤ Supervisor.permitLimit then some ⟨config.permits processors, 1, []⟩
  else none

def running (pool : Pool) : Nat := pool.tasks.countP Task.isRunning

section Machine

variable (storage : Storage) (config : Config)

def step? (event : Event) (pool : Pool) : Option Pool :=
  match event with
  | .submit source =>
    some ⟨pool.free, pool.nextNumber + 1, pool.tasks ++ [.fresh pool.nextNumber source]⟩
  | .act i action => do
    let t ← pool.tasks[i]?
    let t' ← t.perform? storage config action
    let free ← action.permits? pool.free
    return ⟨free, pool.nextNumber, pool.tasks.set i t'⟩

/-- The second pool comes from the first one by these events. -/
inductive Steps : Pool → List Event → Pool → Prop
  | nil {pool : Pool} : Steps pool [] pool
  | cons {pool pool' pool'' : Pool} {event : Event} {events : List Event} :
      pool.step? storage config event = some pool' → Steps pool' events pool'' →
      Steps pool (event :: events) pool''

/-- How many more times some job has to be started, polled or finished at most. -/
def work (pool : Pool) : Nat := (pool.tasks.map (Task.work storage config)).sum

end Machine

variable {storage : Storage} {config : Config} {pool pool' : Pool} {event : Event}
  {events more : List Event} {permits i : Nat} {t t' : Task} {action : Action}

theorem step?_act (h : pool.step? storage config (.act i action) = some pool') :
    ∃ t t' free, pool.tasks[i]? = some t ∧ t.perform? storage config action = some t' ∧
      action.permits? pool.free = some free ∧
      pool' = ⟨free, pool.nextNumber, pool.tasks.set i t'⟩ := by
  simp only [step?, Option.bind_eq_bind, Option.bind_eq_some_iff, pure, Option.some.injEq] at h
  obtain ⟨t, ht, t', hp, free, hf, rfl⟩ := h
  exact ⟨t, t', free, ht, hp, hf, rfl⟩

theorem getElem?_set_act {tasks : List Task} (ht : tasks[i]? = some t) (j : Nat) :
    (tasks.set i t')[j]? = if i = j then some t' else tasks[j]? := by
  have hlt : i < tasks.length := (List.getElem?_eq_some_iff.mp ht).1
  rw [List.getElem?_set]
  simp [hlt]

/-! ### Permits -/

theorem permits?_perform? {free free' : Nat} (hp : t.perform? storage config action = some t')
    (hf : action.permits? free = some free') :
    free' + t'.isRunning.toNat = free + t.isRunning.toNat := by
  rcases Task.perform?_eq_some hp with ⟨rfl, rfl⟩ | ⟨rfl, hq, rfl⟩ | ⟨rfl, p, hr, -, rfl⟩ |
    ⟨rfl, o, ho, rfl⟩
  · cases hf
    rfl
  · by_cases hz : free = 0
    · simp [Action.permits?, hz] at hf
    · simp only [Action.permits?, hz, if_false, Option.some.injEq] at hf
      simp only [Task.isRunning, hq, Bool.toNat_true, Bool.toNat_false]
      omega
  · cases hf
    simp [Task.isRunning, Task.poll, hr]
  · cases hf
    simp [Task.isRunning, ho]

theorem sum_map_set_add {α : Type} {f : α → Nat} {l : List α} {a b : α} (h : l[i]? = some a) :
    ((l.set i b).map f).sum + f a = (l.map f).sum + f b := by
  induction l generalizing i with
  | nil => cases h
  | cons c l ih =>
    cases i with
    | zero =>
      cases h
      simp only [List.set_cons_zero, List.map_cons, List.sum_cons]
      omega
    | succ i =>
      have hlater := ih h
      simp only [List.set_cons_succ, List.map_cons, List.sum_cons]
      omega

theorem running_set {tasks : List Task} (ht : tasks[i]? = some t) :
    (tasks.set i t').countP Task.isRunning + t.isRunning.toNat =
      tasks.countP Task.isRunning + t'.isRunning.toNat := by
  obtain ⟨hlt, hget⟩ := List.getElem?_eq_some_iff.mp ht
  have hpos : t.isRunning = true → 0 < tasks.countP Task.isRunning := fun hr =>
    List.countP_pos_iff.mpr ⟨t, List.mem_of_getElem? ht, hr⟩
  rw [List.countP_set hlt, hget]
  cases hr : t.isRunning with
  | false => cases t'.isRunning <;> simp
  | true =>
    have hone := hpos hr
    cases t'.isRunning <;> simp <;> omega

/-! ### Every job on its own -/

theorem actionsOn_append (i : Nat) (events more : List Event) :
    actionsOn i (events ++ more) = actionsOn i events ++ actionsOn i more := List.filterMap_append

theorem actionsOn_act_self (i : Nat) (action : Action) : actionsOn i [.act i action] = [action] := by
  simp [actionsOn, Event.actionOn?]

theorem actionsOn_act_ne {j : Nat} (h : j ≠ i) (action : Action) :
    actionsOn i [.act j action] = [] := by
  simp [actionsOn, Event.actionOn?, h]

/-- What holds of a pool after these events. -/
structure Sound (storage : Storage) (config : Config) (permits : Nat) (events : List Event)
    (pool : Pool) : Prop where
  permits_eq : pool.free + pool.running = permits
  nextNumber_eq : pool.nextNumber = pool.tasks.length + 1
  sources_eq : pool.tasks.map Task.source = events.filterMap Event.source?
  untouched : ∀ i, pool.tasks.length ≤ i → actionsOn i events = []
  reached : ∀ i t, pool.tasks[i]? = some t →
    Task.Reached storage config (i + 1) t.source (actionsOn i events) t

theorem sound_empty (storage : Storage) (config : Config) (permits : Nat) :
    Sound storage config permits [] ⟨permits, 1, []⟩ where
  permits_eq := rfl
  nextNumber_eq := rfl
  sources_eq := rfl
  untouched := fun _ _ => rfl
  reached := by simp

theorem Sound.submit (h : Sound storage config permits events pool) (source : Source) :
    Sound storage config permits (events ++ [.submit source])
      ⟨pool.free, pool.nextNumber + 1, pool.tasks ++ [.fresh pool.nextNumber source]⟩ where
  permits_eq := by simpa [running, Task.isRunning, Task.fresh] using h.permits_eq
  nextNumber_eq := by simpa using h.nextNumber_eq
  sources_eq := by simp [h.sources_eq, Task.fresh, Event.source?]
  untouched := by
    intro i hi
    have hle : pool.tasks.length ≤ i := by
      simp only [List.length_append, List.length_singleton] at hi
      omega
    rw [actionsOn_append, h.untouched i hle]
    rfl
  reached := by
    intro i t ht
    have hsame : actionsOn i (events ++ [.submit source]) = actionsOn i events := by
      rw [actionsOn_append]
      exact List.append_nil _
    rw [hsame]
    rw [List.getElem?_append] at ht
    by_cases hlt : i < pool.tasks.length
    · exact h.reached i t (by simpa [hlt] using ht)
    · -- The new job has the next number, and nothing has been done to it.
      obtain ⟨hi, rfl⟩ : i = pool.tasks.length ∧ Task.fresh pool.nextNumber source = t := by
        simp only [hlt, if_false, List.getElem?_singleton] at ht
        by_cases hz : i - pool.tasks.length = 0
        · exact ⟨by omega, by simpa [hz] using ht⟩
        · simp [hz] at ht
      rw [h.untouched i (by omega), h.nextNumber_eq, ← hi]
      exact .fresh

theorem Sound.act {free : Nat} (h : Sound storage config permits events pool)
    (ht : pool.tasks[i]? = some t) (hp : t.perform? storage config action = some t')
    (hf : action.permits? pool.free = some free) :
    Sound storage config permits (events ++ [.act i action])
      ⟨free, pool.nextNumber, pool.tasks.set i t'⟩ where
  permits_eq := by
    have hset : (pool.tasks.set i t').countP Task.isRunning + t.isRunning.toNat =
      pool.tasks.countP Task.isRunning + t'.isRunning.toNat := running_set ht
    have hfree := permits?_perform? hp hf
    have hsum := h.permits_eq
    simp only [running] at hsum ⊢
    omega
  nextNumber_eq := by simpa using h.nextNumber_eq
  sources_eq := by
    have hsource : t'.source = t.source := ((h.reached i t ht).act hp).sound.source_eq
    have hsame : (pool.tasks.set i t').map Task.source = pool.tasks.map Task.source := by
      refine List.ext_getElem? (fun j => ?_)
      rw [List.getElem?_map, List.getElem?_map, getElem?_set_act ht]
      by_cases hij : i = j
      · subst hij
        simp [ht, hsource]
      · simp [hij]
    have hnone : [Event.act i action].filterMap Event.source? = [] := rfl
    rw [hsame, List.filterMap_append, hnone, List.append_nil]
    exact h.sources_eq
  untouched := by
    intro j hj
    have hlt : i < pool.tasks.length := (List.getElem?_eq_some_iff.mp ht).1
    have hle : pool.tasks.length ≤ j := by simpa using hj
    rw [actionsOn_append, h.untouched j hle, actionsOn_act_ne (by omega)]
    rfl
  reached := by
    intro j u hu
    rw [getElem?_set_act ht] at hu
    rw [actionsOn_append]
    by_cases hij : i = j
    · subst hij
      obtain rfl : t' = u := by simpa using hu
      have hstep := (h.reached i t ht).act hp
      rw [actionsOn_act_self, hstep.sound.source_eq]
      exact hstep
    · rw [actionsOn_act_ne hij, List.append_nil]
      exact h.reached j u (by simpa [hij] using hu)

theorem Sound.step (h : Sound storage config permits events pool)
    (hs : pool.step? storage config event = some pool') :
    Sound storage config permits (events ++ [event]) pool' := by
  cases event with
  | submit source =>
    cases hs
    exact h.submit source
  | act i action =>
    obtain ⟨t, t', free, ht, hp, hf, rfl⟩ := step?_act hs
    exact h.act ht hp hf

theorem Sound.steps (h : Sound storage config permits events pool)
    (hs : pool.Steps storage config more pool') :
    Sound storage config permits (events ++ more) pool' := by
  induction hs generalizing events with
  | nil => simpa using h
  | cons hstep _ ih => simpa using ih (h.step hstep)

/-! ### Lasting outcomes -/

theorem step?_lasting {o : Outcome} (hs : pool.step? storage config event = some pool')
    (ht : pool.tasks[i]? = some t) (ho : t.outcome? = some o) :
    ∃ t', pool'.tasks[i]? = some t' ∧ t'.outcome? = some o ∧ t'.published = t.published := by
  cases event with
  | submit source =>
    cases hs
    have hlt : i < pool.tasks.length := (List.getElem?_eq_some_iff.mp ht).1
    exact ⟨t, by simpa [List.getElem?_append, hlt] using ht, ho, rfl⟩
  | act j action =>
    obtain ⟨u, u', free, hu, hp, -, rfl⟩ := step?_act hs
    by_cases hji : j = i
    · subst hji
      obtain rfl : u = t := Option.some.inj (hu.symm.trans ht)
      obtain ⟨ho', hpub⟩ := Task.perform?_finished hp ho
      exact ⟨u', by simp [getElem?_set_act hu], ho', hpub⟩
    · exact ⟨t, by simpa [getElem?_set_act hu, hji] using ht, ho, rfl⟩

theorem Steps.lasting {o : Outcome} (hs : pool.Steps storage config more pool')
    (ht : pool.tasks[i]? = some t) (ho : t.outcome? = some o) :
    ∃ t', pool'.tasks[i]? = some t' ∧ t'.outcome? = some o ∧ t'.published = t.published := by
  induction hs generalizing t with
  | nil => exact ⟨t, ht, ho, rfl⟩
  | cons hstep _ ih =>
    obtain ⟨u, hu, hou, hpub⟩ := step?_lasting hstep ht ho
    obtain ⟨t', ht', ho', hpub'⟩ := ih hu hou
    exact ⟨t', ht', ho', hpub'.trans hpub⟩

/-! ### Progress -/

theorem permits?_of_ne_start {free : Nat} (h : action ≠ .start ∨ 0 < free) :
    ∃ free', action.permits? free = some free' := by
  cases action with
  | start =>
    have hfree : free ≠ 0 := by
      rcases h with h | h
      · exact absurd rfl h
      · omega
    exact ⟨free - 1, by simp [Action.permits?, hfree]⟩
  | finish => exact ⟨free + 1, rfl⟩
  | cancel => exact ⟨free, rfl⟩
  | poll => exact ⟨free, rfl⟩

theorem step?_of_perform? {free : Nat} (ht : pool.tasks[i]? = some t)
    (hp : t.perform? storage config action = some t')
    (hf : action.permits? pool.free = some free) :
    pool.step? storage config (.act i action) =
      some ⟨free, pool.nextNumber, pool.tasks.set i t'⟩ := by
  simp [step?, ht, hp, hf]

/-- As long as a job is not finished, some job can be started, polled or finished. -/
theorem Sound.exists_step (h : Sound storage config permits events pool) (hpos : 0 < permits)
    (hu : ∃ t ∈ pool.tasks, t.outcome? = none) :
    ∃ i action pool', action ≠ .cancel ∧
      pool.step? storage config (.act i action) = some pool' := by
  have hready (t : Task) (hout : t.outcome? = none) : ∃ action t', action ≠ .cancel ∧
      (action = .start → t.isRunning = false) ∧ t.perform? storage config action = some t' :=
    Task.exists_perform? hout
  -- If no job runs, there is a permit for one that waits; else a running job needs none.
  by_cases hidle : pool.running = 0
  · have hfree : 0 < pool.free := by
      have hsum := h.permits_eq
      omega
    obtain ⟨t, hmem, hout⟩ := hu
    obtain ⟨i, ht⟩ := List.getElem?_of_mem hmem
    obtain ⟨action, t', hne, -, hp⟩ := hready t hout
    obtain ⟨free, hf⟩ : ∃ free, action.permits? pool.free = some free :=
      permits?_of_ne_start (.inr hfree)
    exact ⟨i, action, _, hne, step?_of_perform? ht hp hf⟩
  · obtain ⟨t, hmem, hrun⟩ := List.countP_pos_iff.mp (Nat.pos_of_ne_zero hidle)
    obtain ⟨i, ht⟩ := List.getElem?_of_mem hmem
    obtain ⟨action, t', hne, hstart, hp⟩ := hready t (Task.outcome?_of_isRunning hrun)
    have hns : action ≠ .start := fun he => by simp [hstart he] at hrun
    obtain ⟨free, hf⟩ := permits?_of_ne_start (.inl hns)
    exact ⟨i, action, _, hne, step?_of_perform? ht hp hf⟩

theorem step?_work (hs : pool.step? storage config event = some pool') (hn : event.source? = none) :
    pool'.work storage config + event.isWork.toNat ≤ pool.work storage config := by
  cases event with
  | submit source => cases hn
  | act i action =>
    obtain ⟨t, t', free, ht, hp, -, rfl⟩ := step?_act hs
    have hsum : ((pool.tasks.set i t').map (Task.work storage config)).sum +
      t.work storage config = pool.work storage config + t'.work storage config :=
      sum_map_set_add ht
    have hless := Task.work_perform? hp
    by_cases hc : action = .cancel
    · subst hc
      simp only [work, Event.isWork, if_true, bne_self_eq_false, Bool.toNat_false] at hsum hless ⊢
      omega
    · have hwork : (Event.act i action).isWork = true := by simpa [Event.isWork] using hc
      simp only [work, hwork, hc, if_false, Bool.toNat_true] at hsum hless ⊢
      omega

theorem Steps.work_le (hs : pool.Steps storage config more pool')
    (hn : ∀ e ∈ more, e.source? = none) :
    pool'.work storage config + more.countP Event.isWork ≤ pool.work storage config := by
  induction hs with
  | nil => simp
  | @cons _ _ _ event events hstep _ ih =>
    obtain ⟨hfirst, hlater⟩ := List.forall_mem_cons.mp hn
    have hone := step?_work hstep hfirst
    have hrest := ih hlater
    rw [List.countP_cons]
    by_cases hw : event.isWork = true
    · simp only [hw, if_true, Bool.toNat_true] at hone ⊢
      omega
    · simp only [hw, Bool.false_eq_true, if_false] at hone ⊢
      omega

end Pool

end DeclFront
