import Jers.Server.State
import Jers.State.JobFile

/-!
# Jobs and their counters

`changeJobState` of `state.c`, the functions of `jobs.c` on the job table, and the resource
accounting of `resource.c`. The counters of the server and of the queues are moved by
`changeJobState` alone, apart from the `start_pending` counter, which the scheduler raises.

The assignments to `history` and `audit` record what happened and have no counterpart in the
source.
-/

namespace Jers

open Exec

/-! ### State changes -/

/-- One case of the switches in `decrement_state` and `increment_state`: the counter of a state on
the server and on a queue. -/
def countState (b : Addr) (st : JobState) (d : ℤ) : Daemon Unit :=
  whenever (st ≠ .cleared) do
    update fun s ↦ { s with stats := s.stats.add st d }
    modifyQueue b fun q ↦ { q with stats := q.stats.add st d }

/-- The `start_pending` counters of the server and of a queue. -/
def countStartPending (b : Addr) (d : ℤ) : Daemon Unit := do
  update fun s ↦ { s with stats.startPending := s.stats.startPending + d }
  modifyQueue b fun q ↦ { q with stats.startPending := q.stats.startPending + d }

def decrementState (a : Addr) : Daemon Unit := do
  let j ← getJob a
  countState j.queue j.state (-1)

/-- A job that was marked as started gives up its slot when it is seen running, or exited. -/
def incrementState (a : Addr) : Daemon Unit := do
  let j ← getJob a
  countState j.queue j.state 1
  whenever ((j.state = .running ∨ j.state = .exited) ∧ j.internalState.started)
    (countStartPending j.queue (-1))
  whenever (j.state = .pending ∨ j.state = .deferred ∨ j.state = .holding)
    (update fun s ↦ { s with candidateRecalc := true })

/-- `updateObject` on a job. -/
def updateJob (a : Addr) (dirty : Bool) : Daemon Unit := do
  modifyJob a fun j ↦ { j with obj := j.obj.updated dirty }
  whenever (dirty = true) (update fun s ↦ { s with dirtyJobs := true })

def changeJobState (a : Addr) (newState : JobState) (newQueue : Option Addr) (dirty : Bool) :
    Daemon Unit := do
  let j ← getJob a
  whenever (j.state ≠ newState ∨ newQueue ≠ none) do
    decrementState a
    modifyJob a fun j ↦ { j with queue := newQueue.getD j.queue, state := newState }
    incrementState a
  updateJob a dirty

/-! ### Resources -/

/-- A result of `int` arithmetic. -/
def int32 (n : ℤ) : Except Fault ℤ := if IsInt32 n then .ok n else .error .overflow

/-- Whether some requirement of a list cannot be met. -/
def lacksRes : List JobResource → Daemon Bool
  | [] => pure false
  | h :: hs => do
    let r ← getRes h.res
    let free ← lift (int32 (r.count - r.inUse))
    if free < h.needed then
      return true
    lacksRes hs

/-- `checkRes`: the resources of a job are not all available. -/
def checkRes (a : Addr) : Daemon Bool := do
  let j ← getJob a
  let reqs ← lift j.requirements
  lacksRes reqs

/-- Add one requirement to the amount in use. -/
def takeRes (h : JobResource) : Daemon Unit := do
  let r ← getRes h.res
  let inUse ← lift (int32 (r.inUse + h.needed))
  modifyRes h.res fun r ↦ { r with inUse := inUse }

def allocateRes (a : Addr) : Daemon Unit := do
  let j ← getJob a
  let reqs ← lift j.requirements
  each takeRes reqs
  modifyJob a fun j ↦ { j with history.held := reqs }

/-- Take one requirement from the amount in use, which does not go below 0. -/
def giveRes (h : JobResource) : Daemon Unit := do
  let r ← getRes h.res
  let inUse ← lift (int32 (r.inUse - h.needed))
  modifyRes h.res fun r ↦ { r with inUse := max inUse 0 }
  whenever (inUse < 0) (update fun s ↦ { s with audit.clamped := true })

def deallocateRes (a : Addr) : Daemon Unit := do
  let j ← getJob a
  let reqs ← lift j.requirements
  each giveRes reqs
  whenever (j.history.held ≠ reqs) (update fun s ↦ { s with audit.unmatched := true })
  modifyJob a fun j ↦ { j with history.held := [] }

/-! ### The deferred list -/

/-- `DL_INSERT_INORDER2` with `deferCmp`: in front of the first job that is not deferred to an
earlier time. The difference of two times is taken in 64 bits. -/
def insertDeferred (time : Addr → ℤ) (a : Addr) : List Addr → List Addr
  | [] => [a]
  | b :: bs =>
    if 0 ≤ Int.bmod (time b - time a) (2 ^ 64) then a :: b :: bs else b :: insertDeferred time a bs

def addDeferredJob (a : Addr) : Daemon Unit :=
  update fun s ↦ let time b := ((s.jobTable.get? b).map Job.deferTime).getD 0
    { s with deferredList := insertDeferred time a s.deferredList }

def removeDeferredJob (a : Addr) : Daemon Unit :=
  update fun s ↦ { s with deferredList := s.deferredList.erase a }

/-! ### Adding and removing jobs -/

/-- `addJob`: 1 for a job id that is in use. The state is cleared while the job is put into the
table, so that its old state is not counted down. -/
def addJob (j : Job) (dirty : Bool) : Daemon ℤ := do
  if (← read fun s ↦ s.findJob j.jobid).isSome then
    return 1
  let a ← read fun s ↦ s.jobTable.next
  update fun s ↦ { s with jobTable := s.jobTable.push { j with state := .cleared } }
  whenever (j.deferTime ≠ 0) (addDeferredJob a)
  changeJobState a j.state none dirty
  return 0

def deleteJob (a : Addr) : Daemon Unit := do
  modifyJob a fun j ↦ { j with internalState.deleted := true, history.held := [] }
  changeJobState a .cleared none false
  let j ← getJob a
  whenever (j.deferTime ≠ 0) (removeDeferredJob a)
  update fun s ↦
    { s with total.deleted := s.total.deleted + 1, deleted := (s.deleted + 1) % 2 ^ 32 }

/-- Replace the first occurrence of a job in the candidate pool by a gap. -/
def clearCandidate (a : Addr) : List (Option Addr) → List (Option Addr)
  | [] => []
  | x :: xs => if x = some a then none :: xs else x :: clearCandidate a xs

/-- `cleanupJob`: 1 for a job that is dirty or being flushed, otherwise the job is freed. -/
def cleanupJob (a : Addr) : Daemon ℤ := do
  let j ← getJob a
  if j.obj.dirty || j.internalState.flushing then
    return 1
  update fun s ↦
    { s with
      jobTable := s.jobTable.erase a
      candidatePool := clearCandidate a s.candidatePool
      deleted := (s.deleted + 2 ^ 32 - 1) % 2 ^ 32 }
  return 0

/-- The loop of `cleanupJobs` over the job table. An attempt on a job that cannot be cleaned up
counts. -/
def cleanupJobsFrom (maxClean : ℕ) : ℕ → List Addr → Daemon ℕ
  | cleanedUp, [] => pure cleanedUp
  | cleanedUp, a :: as => do
    let j ← getJob a
    if !j.internalState.deleted then
      cleanupJobsFrom maxClean cleanedUp as
    else do
      let _ ← cleanupJob a
      if maxClean ≤ cleanedUp + 1 then
        return cleanedUp + 1
      cleanupJobsFrom maxClean (cleanedUp + 1) as

def cleanupJobs (maxClean : ℕ) : Daemon ℕ := do
  if (← read fun s ↦ s.deleted) = 0 then
    return 0
  cleanupJobsFrom (if maxClean = 0 then 10 else maxClean) 0 (← read fun s ↦ s.jobTable.addrs)

/-- The job id after `id`, in the cycle 1 .. `maxJobid`. An id is a `uint32_t`, so the one after the
largest is 0. -/
def nextId (maxJobid id : ℕ) : ℕ :=
  let id := (id + 1) % 2 ^ 32
  if maxJobid < id then 1 else id

/-- The search of `getNextJobID`: the first unused id after `id` in at most `n` tries. -/
def freeId (s : Tables) (maxJobid : ℕ) : ℕ → ℕ → Option ℕ
  | 0, _ => none
  | n + 1, id =>
    let id := nextId maxJobid id
    if (s.findJob id).isNone then some id else freeId s maxJobid n id

/-- `getNextJobID` with a bound on the depth of its recursion. -/
def getNextJobIDWithin : ℕ → Daemon ℕ
  | 0 => stop .stackOverflow
  | depth + 1 => do
    match ← read fun s ↦ freeId s.toTables s.config.maxJobid s.config.maxJobid s.startJobid with
    | some id => do
      update fun s ↦ { s with startJobid := id }
      return id
    | none => do
      let cleaned ← cleanupJobs 5
      if cleaned = 0 then
        return 0
      getNextJobIDWithin depth

/-- `getNextJobID`: 0 if there is no free id. A round that frees no job repeats itself for ever, so
there are at most as many rounds as there are jobs, and one more. -/
def getNextJobID : Daemon ℕ := do
  getNextJobIDWithin ((← read fun s ↦ s.jobTable.rows.length) + 1)

/-- One round of `markJobsUnknown`. The flags are all reset, also the one of a deletion. -/
def markJobUnknown (g : Addr) (a : Addr) : Daemon Unit := do
  let j ← getJob a
  let q ← getQueue j.queue
  whenever (q.agent = some g ∧ (j.state = .running ∨ j.internalState.started)) do
    modifyJob a fun j ↦ { j with internalState := {} }
    changeJobState a .unknown none true

def markJobsUnknown (g : Addr) : Daemon Unit := do
  each (markJobUnknown g) (← read fun s ↦ s.jobTable.addrs)

/-- `autoCleanup`: delete the jobs that completed long enough ago. -/
def autoCleanup (env : Env) : Daemon Unit := do
  let targetTime := env.now - (← read fun s ↦ s.config.autoCleanup) * 60 * 60
  each (fun a ↦ do
    let j ← getJob a
    whenever (¬ j.internalState.deleted ∧ j.state = .completed ∧ j.finishTime ≤ targetTime)
      (deleteJob a)) (← read fun s ↦ s.jobTable.addrs)

end Jers
