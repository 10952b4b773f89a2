import Jers.Server.Jobs
import Jers.Server.Reply

/-!
# Commands on jobs

The commands of `command_job.c` that change the daemon: `JOB_ADD`, `JOB_MOD`, `JOB_DEL`, `JOB_SIG`,
`TAG_SET` and `TAG_DEL`. A request is what the deserialise function of the command makes of a
message; a field that a modify request does not mention has its unset value.

During recovery the commands run without a client, for the journal record in `Server.recovery`.
-/

namespace Jers

open Exec

/-! ### Requests -/

/-- `jersJobAdd`. -/
structure JobAdd where
  jobid : ℕ := 0
  name : Option Str := none
  queue : Option Str := none
  uid : ℕ := 0
  shell : Option Str := none
  priority : ℤ := 100
  hold : Bool := false
  envs : List Str := []
  argv : List Str := []
  preCmd : Option Str := none
  postCmd : Option Str := none
  deferTime : ℤ := 0
  tags : List (Str × Option Str) := []
  resources : List Str := []
  stdout : Option Str := none
  stderr : Option Str := none
  wrapper : Option Str := none
  nice : ℤ := unset32
  flags : ℤ := 0
  deriving DecidableEq, Repr

/-- `jersJobMod`. -/
structure JobMod where
  jobid : ℕ
  name : Option Str := none
  queue : Option Str := none
  deferTime : ℤ := unsetTimeT
  restart : Bool := false
  nice : ℤ := unset32
  priority : ℤ := unset32
  hold : ℤ := unset8
  envs : Option (List Str) := none
  tags : Option (List (Str × Option Str)) := none
  resources : Option (List Str) := none
  clearResources : Bool := false
  deriving DecidableEq, Repr

/-- `jersJobSig`. -/
structure JobSig where
  jobid : ℕ
  signum : ℤ
  deriving DecidableEq, Repr

/-- `convertResourceStrings`. -/
def convertResourceStrings (s : Tables) : List Str → Option (List JobResource)
  | [] => some []
  | x :: xs =>
    match resourceStringToResource s x, convertResourceStrings s xs with
    | some r, some rs => some (r :: rs)
    | _, _ => none

/-- `isprintable`: printable characters of the C locale only. -/
def isprintable (s : Str) : Bool := s.all fun c ↦ 32 ≤ c.toNat && c.toNat ≤ 126

/-! ### JOB_ADD -/

/-- The queue a new job goes to. The state and the deletion flag of the default queue are not
looked at. -/
def addJobQueue (s : Core) (c : Option Client) (name : Option Str) : Except Reply Addr :=
  match name with
  | none =>
    match s.defaultQueue with
    | none => .error (sendError c (-1) .noqueue "No default queue")
    | some b => .ok b
  | some name =>
    match s.findQueue name with
    | none => .error (sendErrorFmt c (-1) .noqueue "Queue '" name "' not found")
    | some (b, q) =>
      if q.internalState.deleted then
        .error (sendErrorFmt c (-1) .noqueue "Queue '" name "' not found")
      else if !q.isOpen then
        .error (sendError c (-1) .invstate "Queue is closed")
      else
        .ok b

/-- A requested job id, if there is one, has to be unused; a deleted job that has it is cleaned up.
Whether the id can be had. -/
def claimJobid (jobid : ℕ) : Daemon Bool := do
  if jobid = 0 then
    return true
  let found ← read fun s ↦ s.findJob jobid
  match found with
  | none => return true
  | some (a, j) => do
    if !j.internalState.deleted then
      return false
    let rc ← cleanupJob a
    return rc = 0

/-- The id of a new job: the requested one, or the next free one. -/
def pickJobid (wanted : ℕ) : Daemon ℕ := if wanted = 0 then getNextJobID else pure wanted

/-- The job that a request describes. -/
def newJob (ja : JobAdd) (jobid uid submitter : ℕ) (b : Addr) (submitTime : ℤ)
    (resources : List JobResource) : Job where
  jobid := jobid
  jobname := ja.name.getD ("job_".toList ++ int64tostr jobid)
  queue := b
  shell := ja.shell
  stdout := ja.stdout
  stderr := ja.stderr
  wrapper := ja.wrapper
  preCmd := ja.preCmd
  postCmd := ja.postCmd
  argv := ja.argv
  envs := ja.envs
  uid := uid
  submitter := submitter
  deferTime := ja.deferTime
  priority := ja.priority
  nice := ja.nice
  tags := ja.tags
  flags := ja.flags
  resCount := resources.length
  reqResources := resources
  state := if ja.deferTime ≠ 0 then .deferred else if ja.hold then .holding else .pending
  submitTime := submitTime

/-- The second half of `command_add_job`: the request is for user `uid` on queue `b`, with the job
id `wanted` or any id if that is 0. -/
def addJobOn (env : Env) (c : Option Client) (ja : JobAdd) (wanted uid : ℕ) (b : Addr) :
    Daemon Reply := do
  let free ← claimJobid wanted
  if !free then
    return sendError c (-1) .jobexists none
  if (env.lookupUser uid).isNone then
    return sendError c (-1) .invarg "User not valid"
  let converted ← read fun s ↦ convertResourceStrings s.toTables ja.resources
  match converted with
  | none => return sendError c (-1) .nores none
  | some resources => do
    if !ja.tags.all fun t ↦ isprintable t.1 then
      return sendError c (-1) .invtag none
    let jobid ← pickJobid wanted
    if jobid = 0 then
      return sendError c (-1) .nojob "No available Job IDs"
    let recovery ← read fun s ↦ s.recovery
    let submitter := match c with
      | some c => c.uid
      | none => (recovery.map Recovery.uid).getD 0
    let time := (recovery.map Recovery.time).getD env.now
    let _ ← addJob (newJob ja jobid uid submitter b time resources) true
    match c with
    | none => return { status := 0 }
    | some _ => do
      let obj ← read fun s ↦ (s.findJob jobid).map fun r ↦ r.2.obj
      update fun s ↦ { s with total.submitted := s.total.submitted + 1 }
      let reply ← sendClient c obj (.jobid jobid)
      return { reply with jobid := jobid }

/-- The user a new job runs as: the one named, or the client. -/
def addJobUid (c : Option Client) (uid : ℕ) : Except Fault ℕ :=
  if uid ≠ 0 then .ok uid
  else match c with
    | none => .error .nullDeref
    | some c => .ok c.uid

def commandAddJob (env : Env) (c : Option Client) (ja : JobAdd) : Daemon Reply := do
  let recovery ← read fun s ↦ s.recovery
  let loaded ← read fun s ↦ recovery.any fun r ↦ (s.findJob r.jobid).isSome
  if loaded then
    return { status := 0 }
  let wanted := (recovery.map Recovery.jobid).getD ja.jobid
  let uid ← lift (addJobUid c ((recovery.map Recovery.uid).getD ja.uid))
  if uid = 0 then
    return sendError c (-1) .invarg "Jobs not allowed to run as root"
  let denied ← deniedPerm c uid permSetuid
  if denied then
    return sendError c (-1) .noperm none
  let queue ← read fun s ↦ addJobQueue s.toCore c ja.queue
  match queue with
  | .error r => return r
  | .ok b => addJobOn env c ja wanted uid b

/-! ### JOB_MOD -/

/-- The state is one that `JOB_MOD` treats as finished. -/
def JobState.isFinished : JobState → Bool
  | .completed | .exited | .unknown => true
  | _ => false

/-- The requirement list, with its count, that a modify request leaves. A request to clear the list
also stores the number of requirements it came with. -/
def JobMod.requirements (mj : JobMod) (new : Option (List JobResource)) (j : Job) :
    ℤ × List JobResource :=
  if mj.clearResources then (((mj.resources.map List.length).getD 0 : ℕ), [])
  else match mj.resources, new with
    | none, _ => (j.resCount, j.reqResources)
    | some _, some rs => (rs.length, rs)
    | some _, none => if j.resCount ≠ 0 then (0, []) else (j.resCount, j.reqResources)

/-- The job finishes being finished: the request restarts it. -/
def JobMod.restarts (mj : JobMod) (j : Job) : Bool := mj.restart && j.state.isFinished

/-- The fields of a job after a modify request. -/
def JobMod.edit (mj : JobMod) (new : Option (List JobResource)) (j : Job) : Job :=
  { j with
    jobname := mj.name.getD j.jobname
    priority := if mj.priority ≠ unset32 then mj.priority else j.priority
    deferTime := if mj.deferTime ≠ unsetTimeT then mj.deferTime else j.deferTime
    nice := if mj.nice = unset32 then j.nice else if mj.nice = clearNice then unset32 else mj.nice
    envs := mj.envs.getD j.envs
    tags := mj.tags.getD j.tags
    resCount := (mj.requirements new j).1
    reqResources := (mj.requirements new j).2
    exitcode := if mj.restarts j then 0 else j.exitcode
    signal := if mj.restarts j then 0 else j.signal
    startTime := if mj.restarts j then 0 else j.startTime
    finishTime := if mj.restarts j then 0 else j.finishTime
    failReason := if mj.restarts j then 0 else j.failReason }

/-- The job is to be held after the request. -/
def JobMod.holds (mj : JobMod) (j : Job) : Bool :=
  if mj.hold ≠ unset8 then mj.hold ≠ 0 else j.state = .holding

/-- The state of a job after a modify request. -/
def JobMod.state (mj : JobMod) (new : Option (List JobResource)) (j : Job) : JobState :=
  if (mj.edit new j).deferTime ≠ 0 then .deferred
  else if mj.holds j then .holding
  else if j.state.isFinished && !mj.restart then j.state
  else .pending

/-- The request changes something that is to be saved. Environments and tags do not count. -/
def JobMod.dirty (mj : JobMod) (new : Option (List JobResource)) (q : Option Addr) (j : Job) :
    Bool :=
  mj.name.isSome || mj.priority != unset32 || mj.deferTime != unsetTimeT || mj.hold != unset8 ||
    mj.nice != unset32 || (mj.resources.isSome && (j.resCount != 0 || new.isSome)) ||
    mj.clearResources || mj.restarts j || q.isSome || mj.state new j != j.state

/-- The reasons for which a modify request on a job is refused. -/
def JobMod.refusal (mj : JobMod) (c : Option Client) (j : Job) : Option Reply :=
  if j.state.isFinished ∧ !mj.restart ∧ (mj.deferTime ≠ unsetTimeT ∨ mj.hold ≠ unset8) then
    some (sendError c 0 .invarg "Unable to modify a completed job without restart flag")
  else if j.state = .running ∨ j.internalState.started then
    some (sendError c 0 .invarg "Unable to modify a running job")
  else if mj.priority ≠ unset32 ∧ (mj.priority < 0 ∨ 255 < mj.priority) then
    some (sendError c 0 .invarg "Invalid priority specified")
  else
    none

/-- The queue of a modify request, also one that is flagged deleted: `none` if it is not found. -/
def JobMod.target (mj : JobMod) (s : Tables) : Option (Option Addr) :=
  match mj.queue with
  | none => some none
  | some name => (s.findQueue name).map fun r ↦ some r.1

/-- The new requirements of a modify request: `none` if some resource is not found. -/
def JobMod.converted (mj : JobMod) (s : Tables) : Option (Option (List JobResource)) :=
  match mj.clearResources, mj.resources with
  | false, some (x :: xs) => (convertResourceStrings s (x :: xs)).map some
  | _, _ => some none

/-- The changes of a modify request that has passed the checks. -/
def applyMod (a : Addr) (mj : JobMod) (q : Option Addr) (new : Option (List JobResource)) :
    Daemon Unit := do
  let j ← getJob a
  whenever (mj.restart ∧ j.state = .unknown) (deallocateRes a)
  whenever (mj.deferTime ≠ unsetTimeT ∧ j.deferTime ≠ 0) (removeDeferredJob a)
  modifyJob a (mj.edit new)
  whenever (mj.deferTime ≠ unsetTimeT ∧ mj.deferTime ≠ 0) (addDeferredJob a)
  changeJobState a (mj.state new j) q (mj.dirty new q j)

def commandModJob (c : Option Client) (mj : JobMod) : Daemon Reply := do
  if mj.jobid = 0 then
    return sendError c 0 .nojob none
  let found ← read fun s ↦ s.findJob mj.jobid
  let recovery ← read fun s ↦ s.recovery
  let denied ← deniedPerm c ((found.map fun r ↦ r.2.uid).getD 0) permWrite
  if denied then
    return sendError c (-1) .noperm none
  match found with
  | none => return sendError c 0 .nojob none
  | some (a, j) => do
    if j.internalState.deleted then
      return sendError c 0 .nojob none
    if recovery.any fun r ↦ r.revision ≤ j.obj.revision then
      return { status := 0 }
    match mj.refusal c j with
    | some r => return r
    | none => do
      let target ← read fun s ↦ mj.target s.toTables
      match target with
      | none => return sendError c 0 .noqueue none
      | some q => do
        let converted ← read fun s ↦ mj.converted s.toTables
        match converted with
        | none => return sendError c (-1) .nores none
        | some new => do
          applyMod a mj q new
          let j ← getJob a
          sendClient c j.obj .returnCode

/-! ### JOB_DEL, JOB_SIG -/

def commandDelJob (c : Option Client) (jobid : ℕ) : Daemon Reply := do
  let found ← read fun s ↦ s.findJob jobid
  let recovery ← read fun s ↦ s.recovery
  let denied ← deniedPerm c ((found.map fun r ↦ r.2.uid).getD 0) permWrite
  if denied then
    return sendError c (-1) .noperm none
  let gone := if recovery.isSome then { status := 0 } else sendError c 1 .nojob none
  match found with
  | none => return gone
  | some (a, j) => do
    if j.internalState.deleted then
      return gone
    deleteJob a
    sendClient c none .returnCode

/-- An unknown job is taken to have ended by the signal. -/
def killUnknown (env : Env) (a : Addr) (signum : ℤ) : Daemon Unit := do
  modifyJob a fun j ↦
    { j with pid := -1, finishTime := env.now, signal := signum, exitcode := 128 + signum }
  changeJobState a .exited none true
  deallocateRes a

def commandSigJob (env : Env) (c : Option Client) (js : JobSig) : Daemon Reply := do
  let found ← read fun s ↦ s.findJob js.jobid
  let denied ← checkPerm c ((found.map fun r ↦ r.2.uid).getD 0)
    (if js.signum = 0 then permRead else permWrite)
  if denied then
    return sendError c (-1) .noperm none
  match found with
  | none => return sendError c 1 .nojob none
  | some (a, j) => do
    if j.internalState.deleted then
      return sendError c 1 .nojob none
    if j.state = .unknown ∧ js.signum ≠ 0 then
      killUnknown env a js.signum
      sendClient c none .returnCode
    else if j.state ≠ .running then
      return sendError c 1 .invstate "Job is not running"
    else if js.signum = 0 then
      sendClient c none .returnCode
    else do
      let q ← getQueue j.queue
      match q.agent with
      | none => stop .nullDeref
      | some g => do
        sendAgentMessage g (.sigJob js.jobid js.signum ((c.map Client.uid).getD 0))
        sendClient c none .returnCode

/-! ### Tags -/

/-- The tags with one set: in its place if the key is there, at the end otherwise. -/
def setTag (key : Str) (value : Option Str) : List (Str × Option Str) → List (Str × Option Str)
  | [] => [(key, value)]
  | t :: ts => if t.1 = key then (t.1, value) :: ts else t :: setTag key value ts

/-- The tags without the first one that has a key. -/
def delTag (key : Str) : List (Str × Option Str) → List (Str × Option Str)
  | [] => []
  | t :: ts => if t.1 = key then ts else t :: delTag key ts

/-- Change the tags of a job, which may be one that is flagged deleted. -/
def editTags (c : Option Client) (a : Addr) (f : List (Str × Option Str) →
    List (Str × Option Str)) : Daemon Reply := do
  modifyJob a fun j ↦ { j with tags := f j.tags }
  updateJob a true
  let j ← getJob a
  sendClient c j.obj .returnCode

/-- A command on the tags of a job, with a check on the job and the error if it fails. -/
def commandTag (c : Option Client) (jobid : ℕ) (check : Job → Bool) (code : ErrCode)
    (f : List (Str × Option Str) → List (Str × Option Str)) : Daemon Reply := do
  let found ← read fun s ↦ s.findJob jobid
  let denied ← deniedPerm c ((found.map fun r ↦ r.2.uid).getD 0) permWrite
  if denied then
    return sendError c (-1) .noperm none
  match found with
  | none => return sendError c 1 .nojob none
  | some (a, j) => do
    if !check j then
      return sendError c 1 code none
    editTags c a f

def commandSetTag (c : Option Client) (jobid : ℕ) (key : Str) (value : Option Str) :
    Daemon Reply :=
  commandTag c jobid (fun _ ↦ isprintable key) .invtag (setTag key value)

def commandDelTag (c : Option Client) (jobid : ℕ) (key : Str) : Daemon Reply :=
  commandTag c jobid (fun j ↦ j.tags.any fun t ↦ t.1 = key) .notag (delTag key)

end Jers
