import Mathlib.Data.List.Sort
import Jers.Server.Jobs

/-!
# The scheduler

The functions of `sched.c`: the release of deferred jobs, the candidate pool and the scheduling
pass `checkJobs`.
-/

namespace Jers

open Exec

/-! ### Deferred jobs -/

/-- The loop of `releaseDeferred`, up to the first job whose time has not come; the number of
released jobs. -/
def releaseFrom (now : ℤ) : ℕ → List Addr → Daemon ℕ
  | released, [] => pure released
  | released, a :: as => do
    let j ← getJob a
    if now < j.deferTime then
      return released
    modifyJob a fun j ↦ { j with deferTime := 0 }
    changeJobState a .pending none false
    removeDeferredJob a
    releaseFrom now (released + 1) as

def releaseDeferred (env : Env) : Daemon Unit := do
  let released ← releaseFrom env.now 0 (← read fun s ↦ s.deferredList)
  whenever (released ≠ 0) (update fun s ↦ { s with candidateRecalc := true })

/-! ### The candidate pool -/

/-- What `__comp` compares: the priority of the queue, the priority of the job, and its id. -/
structure Rank where
  queuePriority : ℤ
  priority : ℤ
  jobid : ℕ
  deriving DecidableEq, Repr

/-- `__comp`, with its subtractions in 32 bits. -/
def Rank.comp (a b : Rank) : ℤ :=
  let q := Int.bmod (b.queuePriority - a.queuePriority) (2 ^ 32)
  let p := Int.bmod (b.priority - a.priority) (2 ^ 32)
  if q ≠ 0 then q else if p ≠ 0 then p else Int.bmod (a.jobid - b.jobid) (2 ^ 32)

/-- The rank of the job at an address. -/
def Tables.rank (s : Tables) (a : Addr) : Rank :=
  match s.jobTable.get? a with
  | none => ⟨0, 0, 0⟩
  | some j => ⟨((s.queueTable.get? j.queue).map Queue.priority).getD 0, j.priority, j.jobid⟩

/-- The jobs of the table that are candidates. -/
def Tables.candidates (s : Tables) : List Addr :=
  s.jobTable.addrs.filter fun a ↦
    (s.jobTable.get? a).any fun j ↦ !j.internalState.deleted && j.state == .pending

/-- Some job of a list is on a queue that has been freed. -/
def Tables.danglingQueue (s : Tables) (as : List Addr) : Bool :=
  as.any fun a ↦ (s.jobTable.get? a).any fun j ↦ (s.queueTable.get? j.queue).isNone

/-- The size of the pool is the number of active jobs according to the counters when they last
exceeded it, and half as much again. -/
def generateCandidatePool : Daemon Unit := do
  update fun s ↦ let total := s.stats.pending + s.stats.deferred + s.stats.holding
    if s.candidatePoolSize < total then { s with candidatePoolSize := total * 3 / 2 } else s
  if (← read fun s ↦ s.stats.pending) = 0 then
    update fun s ↦ { s with candidatePool := [], candidateRecalc := false }
  else do
    let pool ← read fun s ↦ s.candidates
    if (← read fun s ↦ s.candidatePoolSize) < pool.length then
      stop .outOfBounds
    else if (← read fun s ↦ s.danglingQueue pool) ∧ 2 ≤ pool.length then
      -- the comparison reads the queues
      stop .useAfterFree
    else
      update fun s ↦ let sorted := pool.insertionSort fun a b ↦ (s.rank a).comp (s.rank b) ≤ 0
        { s with candidatePool := sorted.map some, candidateRecalc := false }

/-! ### Starting jobs -/

/-- `convertResourceToStrings`, before the name and the amount are printed. -/
def resNames : List JobResource → Daemon (List (Str × ℤ))
  | [] => pure []
  | h :: hs => do
    let r ← getRes h.res
    let rest ← resNames hs
    return (r.name, h.needed) :: rest

/-- The start request of a job. The nice value is the one of the job, of the queue or the default;
a wrapper takes the place of the pre and post commands. -/
def startRequest (j : Job) (q : Queue) (defaultNice : ℤ) (resources : List (Str × ℤ)) :
    StartJob where
  jobid := j.jobid
  jobname := j.jobname
  queuename := q.name
  uid := j.uid
  nice := if j.nice ≠ unset32 then j.nice else if q.nice ≠ unset32 then q.nice else defaultNice
  shell := j.shell
  wrapper := j.wrapper
  preCmd := if j.wrapper.isSome then none else j.preCmd
  postCmd := if j.wrapper.isSome then none else j.postCmd
  args := j.argv
  envs := j.envs
  stdout := j.stdout
  stderr := j.stderr
  resources := resources
  flags := j.flags

def sendStartCmd (a : Addr) : Daemon Unit := do
  let j ← getJob a
  let q ← getQueue j.queue
  let reqs ← lift j.requirements
  let resources ← resNames reqs
  match q.agent with
  | none => stop .nullDeref
  | some g => do
    let nice ← read fun s ↦ s.config.defaultJobNice
    sendAgentMessage g (.startJob (startRequest j q nice resources))

/-- The reason, if there is one, for which a pending job cannot be started now. -/
def pendingFor (a : Addr) : Daemon (Option PendReason) := do
  let j ← getJob a
  let s ← read id
  if s.config.maxRunJobs ≠ -1 ∧ s.config.maxRunJobs < s.stats.running + s.stats.startPending then
    return some .systemfull
  let q ← getQueue j.queue
  if q.jobLimit ≤ q.stats.running + q.stats.startPending then
    return some .queuefull
  let lacking ← checkRes a
  if lacking then
    return some .nores
  if !q.isStarted then
    return some .queuestopped
  match q.agent with
  | none => return some .agentdown
  | some g => do
    let agent ← getAgent g
    if !agent.loggedIn then
      return some .agentdown
    if agent.recon then
      return some .recon
    return none

/-- Send a job to its agent and take a slot for it. -/
def startJob (a : Addr) : Daemon Unit := do
  let j ← getJob a
  whenever (j.resCount ≠ 0) (allocateRes a)
  sendStartCmd a
  modifyJob a fun j ↦
    { j with
      internalState.started := true
      pendReason := PendReason.agent.toInt
      history.awaiting := true
      history.starts := j.history.starts + 1 }
  countStartPending j.queue 1

/-- One round of the loop of `checkJobs`: whether the job was started. -/
def tryStart (a : Addr) : Daemon Bool := do
  let j ← getJob a
  if j.state ≠ .pending ∨ j.internalState.started then
    return false
  let reason ← pendingFor a
  match reason with
  | some r => do
    modifyJob a fun j ↦ { j with pendReason := r.toInt }
    return false
  | none => do
    startJob a
    return true

/-- The loop of `checkJobs` over the candidate pool. -/
def startFrom (jobsToStart : ℤ) : ℤ → List (Option Addr) → Daemon Unit
  | _, [] => pure ()
  | started, none :: xs => startFrom jobsToStart started xs
  | started, some a :: xs => do
    if ← tryStart a then
      if jobsToStart ≤ started + 1 then
        return ()
      startFrom jobsToStart (started + 1) xs
    else
      startFrom jobsToStart started xs

/-- One round of the loop in readonly mode. -/
def tagReadonly : Option Addr → Daemon Unit
  | none => pure ()
  | some a => do
    let j ← getJob a
    whenever (j.state = .pending ∧ ¬ j.internalState.started)
      (modifyJob a fun j ↦ { j with pendReason := PendReason.readonly.toInt })

/-- The number of jobs a pass may start, a 32-bit word. -/
def jobsToStart (s : Server) : ℤ :=
  let pool : ℤ := s.candidatePool.length % 2 ^ 32
  if s.config.maxRunJobs ≠ -1 ∧ s.config.maxRunJobs - s.stats.running < pool then
    (s.config.maxRunJobs - s.stats.running) % 2 ^ 32
  else
    pool

def checkJobs : Daemon Unit := do
  let s ← read id
  if s.config.maxRunJobs ≠ -1 ∧ s.config.maxRunJobs ≤ s.stats.running then
    return ()
  whenever (s.candidateRecalc = true) generateCandidatePool
  let s ← read id
  if s.readonly.isSome then
    each tagReadonly s.candidatePool
  else
    startFrom (jobsToStart s) 0 s.candidatePool

end Jers
