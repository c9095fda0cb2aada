import DeclFront.Dump
import DeclFront.Job

/-! Many jobs under one configuration. A submitted job waits until someone waits for a job; then
all waiting jobs run, each on its own. -/

namespace DeclFront

structure Handle where
  number : Nat
  source : Source
  cancelled : Bool
  /-- What the job came to, once it has run. -/
  outcome : Option Outcome

namespace Handle

def id (h : Handle) : String := "job#" ++ toString h.number

def state (h : Handle) : JobState := (h.outcome.map Outcome.state).getD .idle

def dump (h : Handle) : Dump :=
  .record "JobHandle" [("id", .tuple "JobId" [.word (toString h.number)]),
    ("source", .text h.source.name), ("state", .word h.state.label)]

/-- Asks the job to stop; a job that has run does not care. -/
def cancel (h : Handle) : Handle := { h with cancelled := true }

/-- Runs the job, unless it has run before. Once it was asked to stop, it answers every question
whether to stop with yes. -/
def settle (storage : Storage) (config : Config) (h : Handle) : Handle :=
  match h.outcome with
  | some _ => h
  | none =>
    { h with outcome := some (Job.run storage config h.source (fun _ => h.cancelled)).outcome }

end Handle

structure Supervisor where
  config : Config
  nextNumber : Nat
  handles : List Handle

namespace Supervisor

/-- More jobs at once than this cannot be set up. -/
def permitLimit : Nat := 2305843009213693951

def ofConfig (config : Config) : Supervisor := ⟨config, 1, []⟩

/-- Sets a supervisor up. Nothing stands for the panic at a number of jobs above the limit. -/
def ofConfig? (config : Config) : Option Supervisor :=
  if config.maxParallelJobs.any (permitLimit < ·) then none else some (ofConfig config)

def submit (source : Source) (s : Supervisor) : Handle × Supervisor :=
  let h : Handle := ⟨s.nextNumber, source, false, none⟩
  (h, { s with nextNumber := s.nextNumber + 1, handles := s.handles ++ [h] })

def update (number : Nat) (f : Handle → Handle) (s : Supervisor) : Supervisor :=
  { s with handles := s.handles.map (fun h => if h.number = number then f h else h) }

def handle? (number : Nat) (s : Supervisor) : Option Handle :=
  s.handles.find? (fun h => h.number == number)

def cancel (number : Nat) (s : Supervisor) : Supervisor := s.update number Handle.cancel

def settle (storage : Storage) (s : Supervisor) : Supervisor :=
  { s with handles := s.handles.map (Handle.settle storage s.config) }

def submitAll (s : Supervisor) : List Source → List Handle × Supervisor
  | [] => ([], s)
  | source :: rest =>
    let (h, s) := s.submit source
    let (hs, s) := s.submitAll rest
    (h :: hs, s)

/-- Takes on a job for every source and waits for all of them; the outcomes come in the order of
the sources. -/
def runAll (storage : Storage) (sources : List Source) (s : Supervisor) :
    List (String × Outcome) × Supervisor :=
  let (hs, s) := s.submitAll sources
  let s := s.settle storage
  let outcome := fun (h : Handle) => ((s.handle? h.number).bind (·.outcome)).getD .cancelled
  (hs.map (fun h => (h.source.name, outcome h)), s)

end Supervisor

end DeclFront
