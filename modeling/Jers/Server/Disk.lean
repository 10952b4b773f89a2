import Jers.Server.Runs
import Jers.State.ObjectFile

/-!
# The state files

The daemon with the state files it has on disk. A background save writes the objects it has
captured, as they were when it began, and the file of an object is removed where the object is taken
out of its table: by `cleanupJob`, also when a new job claims the id of a deleted one, by
`cleanupQueues` and by `cleanupResources`. No other function removes a file; `command_add_queue`
frees the structure of a deleted queue without a look at the disk.

Of the files of jobs and resources the names are kept, of those of queues also the texts. A save is
taken to write all its files.
-/

namespace Jers

/-- The files in the directories for jobs, queues and resources. -/
structure Disk where
  jobs : List ℕ := []
  queues : List (Str × Str) := []
  resources : List Str := []
  deriving DecidableEq, Repr

namespace Disk

def saveJob (d : Disk) (j : Job) : Disk := { d with jobs := j.jobid :: d.jobs.erase j.jobid }

/-- A file is replaced by one with the new text. -/
def saveQueue (d : Disk) (now : ℤ) (isDefault : Bool) (q : Queue) : Disk :=
  { d with
    queues := (q.name, stateSaveQueue now isDefault q) :: d.queues.filter fun f ↦ f.1 != q.name }

def saveResource (d : Disk) (r : Resource) : Disk :=
  { d with resources := r.name :: d.resources.erase r.name }

/-- What the child of a save writes. -/
def saved (d : Disk) (now : ℤ) (s : Server) (f : Flush) : Disk :=
  let d := (f.jobs.filterMap s.jobTable.get?).foldl saveJob d
  let d := f.queues.foldl (fun d b ↦
    ((s.queueTable.get? b).map (d.saveQueue now (s.defaultQueue == some b))).getD d) d
  (f.resources.filterMap s.resTable.get?).foldl saveResource d

end Disk

/-- The records that are no longer in a table. -/
def freed {α : Type} (t t' : Table α) : List α :=
  (t.rows.filter fun r ↦ (t'.get? r.1).isNone).map Prod.snd

/-- The files after an event that led from `s` to `s'`. -/
def Disk.after (d : Disk) (now : ℤ) (e : Event) (s s' : Server) : Disk :=
  match e with
  | .saveStart _ => if s.flush.isNone && s'.flush.isSome then d.saved now s s.toFlush else d
  | .cleanupQueues _ =>
    { d with
      queues := d.queues.filter fun f ↦ (freed s.queueTable s'.queueTable).all fun q ↦
        q.name != f.1 }
  | .cleanupResources _ =>
    { d with
      resources :=
        d.resources.filter fun n ↦ (freed s.resTable s'.resTable).all fun r ↦ r.name != n }
  | _ =>
    { d with
      jobs := d.jobs.filter fun id ↦ (freed s.jobTable s'.jobTable).all fun j ↦ j.jobid != id }

/-- The daemon and its files. -/
structure OnDisk where
  server : Server
  disk : Disk := {}

def diskStep (x : OnDisk) (e : Env × Event) : Except Fault OnDisk := do
  let (_, s') ← handle e.1 e.2 x.server
  return { server := s', disk := x.disk.after e.1.now e.2 x.server s' }

/-- The daemon is reached from a start without state files, by events that meet a condition. -/
def DiskRuns (good : OnDisk → Env × Event → Bool) (config : Config) (hosts : List Str)
    (x : OnDisk) : Prop :=
  Run (fun x e x' ↦ diskStep x e = .ok x') (fun x e ↦ good x e = true)
    { server := Server.initial config hosts } x

theorem diskStep_ok {x x' : OnDisk} {e : Env × Event} (h : diskStep x e = .ok x') :
    Step x.server e x'.server ∧ x'.disk = x.disk.after e.1.now e.2 x.server x'.server := by
  obtain ⟨r, hr, hret⟩ := Except.bind_eq_ok_iff.mp h
  obtain rfl := Except.ok.inj hret
  exact ⟨hr, rfl⟩

namespace Sample

theorem exists_diskRuns (good : OnDisk → Env × Event → Bool) (es : List (Env × Event))
    (p : OnDisk → Prop) (h : ∃ x ∈ Run.follow (Run.stepIf good diskStep) es
      { server := Server.initial config hosts }, p x) : ∃ x, DiskRuns good config hosts x ∧ p x :=
  Run.exists_of_stepIf good diskStep es _ p h

end Sample

end Jers
