import Jers.Server.CommandAgent

/-!
# Background saves

`stateSaveToDisk`: the parent collects the dirty objects and forks, and some time later reaps the
child that has written them. In between the objects carry the flag `JERS_FLAG_FLUSHING` and their
addresses are kept in `Server.flush`.
-/

namespace Jers

open Exec

/-- The addresses of the dirty records of a table. -/
def dirtyAddrs {α : Type} (t : Table α) (dirty : α → Bool) : List Addr :=
  t.addrs.filter fun a ↦ (t.get? a).any dirty

/-- The objects a save would capture. A table is looked at only if its dirty flag is set. -/
def Server.toFlush (s : Server) : Flush where
  jobs := if s.dirtyJobs then dirtyAddrs s.jobTable fun j ↦ j.obj.dirty else []
  queues := if s.dirtyQueues then dirtyAddrs s.queueTable fun q ↦ q.obj.dirty else []
  resources := if s.dirtyResources then dirtyAddrs s.resTable fun r ↦ r.obj.dirty else []

/-- A job that is captured: clean, and flagged as being flushed. -/
def Job.captured (j : Job) : Job := { j with obj.dirty := false, internalState.flushing := true }

def Queue.captured (q : Queue) : Queue :=
  { q with obj.dirty := false, internalState.flushing := true }

def Resource.captured (r : Resource) : Resource :=
  { r with obj.dirty := false, internalState.flushing := true }

/-- The first call of `stateSaveToDisk`, up to the fork: nothing to do while a save is in progress
or without a dirty object, or if the journal cannot be extended when the disk was full. -/
def saveStart (extended : Bool) : Daemon Unit := do
  let s ← read id
  if s.flush.isSome then
    return ()
  if !s.dirtyJobs && !s.dirtyQueues && !s.dirtyResources then
    return ()
  if s.readonly = some .enospace ∧ !extended then
    return ()
  let f := s.toFlush
  each (fun a ↦ modifyJob a Job.captured) f.jobs
  each (fun b ↦ modifyQueue b Queue.captured) f.queues
  each (fun b ↦ modifyRes b Resource.captured) f.resources
  update fun s ↦
    { s with
      flush := some f
      dirtyJobs := false
      dirtyQueues := false
      dirtyResources := false
      readonly := if s.readonly = some .enospace then none else s.readonly }

/-- A captured job when the child has been reaped: no longer flagged, and dirty again if the save
failed. -/
def Job.reaped (failed : Bool) (j : Job) : Job :=
  { j with obj.dirty := j.obj.dirty || failed, internalState.flushing := false }

def Queue.reaped (failed : Bool) (q : Queue) : Queue :=
  { q with obj.dirty := q.obj.dirty || failed, internalState.flushing := false }

def Resource.reaped (failed : Bool) (r : Resource) : Resource :=
  { r with obj.dirty := r.obj.dirty || failed, internalState.flushing := false }

/-- The call of `stateSaveToDisk` that finds its child ended, with or without success. -/
def saveFinish (failed : Bool) : Daemon Unit := do
  let flush ← read fun s ↦ s.flush
  match flush with
  | none => return ()
  | some f => do
    each (fun a ↦ modifyJob a (Job.reaped failed)) f.jobs
    each (fun b ↦ modifyQueue b (Queue.reaped failed)) f.queues
    each (fun b ↦ modifyRes b (Resource.reaped failed)) f.resources
    update fun s ↦
      { s with
        flush := none
        dirtyJobs := s.dirtyJobs || (failed && !f.jobs.isEmpty)
        dirtyQueues := s.dirtyQueues || (failed && !f.queues.isEmpty)
        dirtyResources := s.dirtyResources || (failed && !f.resources.isEmpty)
        readonly :=
          if failed then if s.readonly = none then some .bgsave else s.readonly
          else if s.readonly = some .bgsave then none else s.readonly }

end Jers
