import Jers.Lib.Table
import Jers.Text.Chars

/-!
# The objects of the daemon

The structures of `server.h`, `agent.h` and `client.h`. A pointer to a job, a queue, a resource or
an agent is its address in the table that owns it; following the address of an object that has
been freed is a `Fault`. Counters and revisions are unbounded integers, the words of `int` and
`int64_t` fields are restricted where a text form is read or written.
-/

namespace Jers

/-- An address of an allocated structure. -/
abbrev Addr := ℕ

/-- The ways in which the daemon stops: `error_die`, memory it must not touch, a signed overflow, or
a recursion without an end. -/
inductive Fault
  | errorDie
  | useAfterFree
  | nullDeref
  | outOfBounds
  | overflow
  | stackOverflow
  deriving DecidableEq, Repr

/-- `UNSET_8`, `UNSET_32`, `UNSET_64` and `UNSET_TIME_T`, the values of fields a request leaves
alone. -/
def unset8 : ℤ := -2 ^ 7
def unset32 : ℤ := -2 ^ 31
def unsetTimeT : ℤ := -1

/-- `JERS_CLEAR_NICE`. -/
def clearNice : ℤ := 100

/-! ### Job states and counters -/

/-- The `JERS_JOB_*` states. A job has state 0 (`cleared`) from its deletion to its clean-up. -/
inductive JobState
  | cleared
  | running
  | pending
  | deferred
  | holding
  | completed
  | exited
  | unknown
  deriving DecidableEq, Repr, Inhabited

/-- The value of a state in `job.state`. -/
def JobState.toInt : JobState → ℤ
  | cleared => 0
  | running => 0x01
  | pending => 0x02
  | deferred => 0x04
  | holding => 0x08
  | completed => 0x10
  | exited => 0x20
  | unknown => 0x40

/-- The states in the order of their values. -/
def JobState.all : List JobState :=
  [cleared, running, pending, deferred, holding, completed, exited, unknown]

def JobState.ofInt (n : ℤ) : Option JobState := JobState.all.find? fun s ↦ s.toInt == n

theorem JobState.ofInt_toInt (s : JobState) : JobState.ofInt s.toInt = some s := by
  cases s <;> decide

/-- The `JERS_PEND_*` reasons the scheduler gives. -/
inductive PendReason
  | noreason
  | systemfull
  | queuefull
  | nores
  | queuestopped
  | agentdown
  | agent
  | recon
  | readonly
  deriving DecidableEq, Repr

/-- The value of a reason in `job.pend_reason`. -/
def PendReason.toInt : PendReason → ℤ
  | noreason => 0
  | systemfull => 1
  | queuefull => 2
  | nores => 3
  | queuestopped => 4
  | agentdown => 5
  | agent => 6
  | recon => 7
  | readonly => 8

/-- `struct jobStats`. -/
structure JobStats where
  running : ℤ := 0
  pending : ℤ := 0
  holding : ℤ := 0
  deferred : ℤ := 0
  completed : ℤ := 0
  exited : ℤ := 0
  startPending : ℤ := 0
  unknown : ℤ := 0
  deriving DecidableEq, Repr, Inhabited

/-- The counter of a state. Jobs in state 0 are not counted. -/
def JobStats.count (t : JobStats) : JobState → ℤ
  | .cleared => 0
  | .running => t.running
  | .pending => t.pending
  | .deferred => t.deferred
  | .holding => t.holding
  | .completed => t.completed
  | .exited => t.exited
  | .unknown => t.unknown

/-- The counters with `d` added to the one of a state: the switch of `decrement_state` and
`increment_state`. -/
def JobStats.add (t : JobStats) (s : JobState) (d : ℤ) : JobStats :=
  match s with
  | .cleared => t
  | .running => { t with running := t.running + d }
  | .pending => { t with pending := t.pending + d }
  | .deferred => { t with deferred := t.deferred + d }
  | .holding => { t with holding := t.holding + d }
  | .completed => { t with completed := t.completed + d }
  | .exited => { t with exited := t.exited + d }
  | .unknown => { t with unknown := t.unknown + d }

theorem JobStats.startPending_add (t : JobStats) (s : JobState) (d : ℤ) :
    (t.add s d).startPending = t.startPending := by
  cases s <;> rfl

/-- Only the counter of the state moves. -/
theorem JobStats.count_add (t : JobStats) (s s' : JobState) (d : ℤ) :
    (t.add s d).count s' = t.count s' + if s' = s ∧ s ≠ .cleared then d else 0 := by
  cases s <;> cases s' <;> simp [add, count]

/-! ### Jobs -/

/-- The members of `struct rusage` the daemon keeps. -/
inductive UsageKey
  | utimeSec
  | utimeUsec
  | stimeSec
  | stimeUsec
  | maxrss
  | minflt
  | majflt
  | inblock
  | oublock
  | nvcsw
  | nivcsw
  deriving DecidableEq, Repr

def UsageKey.all : List UsageKey :=
  [utimeSec, utimeUsec, stimeSec, stimeUsec, maxrss, minflt, majflt, inblock, oublock, nvcsw,
    nivcsw]

theorem UsageKey.mem_all (k : UsageKey) : k ∈ UsageKey.all := by
  cases k <;> decide

/-- `struct rusage`. -/
abbrev Usage := UsageKey → ℤ

instance : DecidableEq Usage := fun u v ↦ decidable_of_iff (∀ k ∈ UsageKey.all, u k = v k)
    ⟨fun h ↦ funext fun k ↦ h k k.mem_all, fun h k _ ↦ congrFun h k⟩

/-- `jers_object`, without the type tag. -/
structure Obj where
  revision : ℤ := 0
  dirty : Bool := false
  deriving DecidableEq, Repr, Inhabited

/-- `updateObject`: a new revision, and a dirty object stays dirty. -/
def Obj.updated (obj : Obj) (dirty : Bool) : Obj where
  revision := obj.revision + 1
  dirty := obj.dirty || dirty

/-- The bits of `internal_state`. -/
structure Flags where
  deleted : Bool := false
  flushing : Bool := false
  started : Bool := false
  deriving DecidableEq, Repr, Inhabited

/-- `struct jobResource`: an amount of the resource at an address. -/
structure JobResource where
  needed : ℤ
  res : Addr
  deriving DecidableEq, Repr

/-- What has happened to a job, for stating properties; no function of the daemon reads it.
`awaiting` says that a start message has been sent and no report of the start or the end has come
back, `held` is what was allocated for the execution that has not ended yet, and `starts` counts
the start messages. -/
structure JobHistory where
  awaiting : Bool := false
  held : List JobResource := []
  starts : ℕ := 0
  deriving DecidableEq, Repr, Inhabited

/-- `struct job`. The arrays come with their lengths, except for the requirement list, whose count
can disagree with it after a modify request. -/
structure Job where
  obj : Obj := {}
  jobid : ℕ
  jobname : Str
  queue : Addr
  shell : Option Str := none
  wrapper : Option Str := none
  preCmd : Option Str := none
  postCmd : Option Str := none
  stdout : Option Str := none
  stderr : Option Str := none
  flags : ℤ := 0
  argv : List Str := []
  envs : List Str := []
  uid : ℕ
  submitter : ℕ
  nice : ℤ := 0
  pid : ℤ := 0
  exitcode : ℤ := 0
  signal : ℤ := 0
  usage : Usage := fun _ ↦ 0
  state : JobState
  pendReason : ℤ := 0
  failReason : ℤ := 0
  priority : ℤ := 0
  submitTime : ℤ := 0
  startTime : ℤ := 0
  deferTime : ℤ := 0
  finishTime : ℤ := 0
  tags : List (Str × Option Str) := []
  resCount : ℤ := 0
  reqResources : List JobResource := []
  internalState : Flags := {}
  history : JobHistory := {}
  deriving DecidableEq

/-! ### Queues, resources, agents and clients -/

/-- `struct queue`. The permissions are pairs of a group and the bits it has. -/
structure Queue where
  obj : Obj := {}
  name : Str
  desc : Option Str := none
  jobLimit : ℤ
  state : ℤ
  priority : ℤ
  nice : ℤ
  isDefault : ℤ := 0
  host : Str
  agent : Option Addr := none
  internalState : Flags := {}
  stats : JobStats := {}
  permissions : List (ℕ × ℕ) := []
  deriving DecidableEq, Repr

/-- The bit `JERS_QUEUE_FLAG_STARTED` of the state of a queue. -/
def Queue.isStarted (q : Queue) : Bool := q.state % 2 == 1

/-- The bit `JERS_QUEUE_FLAG_OPEN` of the state of a queue. -/
def Queue.isOpen (q : Queue) : Bool := q.state / 2 % 2 == 1

/-- `struct resource`. -/
structure Resource where
  obj : Obj := {}
  name : Str
  count : ℤ
  inUse : ℤ := 0
  internalState : Flags := {}
  deriving DecidableEq, Repr

/-- The tables of the server. -/
structure Tables where
  jobTable : Table Job
  queueTable : Table Queue
  resTable : Table Resource
  deriving DecidableEq, Inhabited

/-- Locate a job by its id. -/
def Tables.findJob (s : Tables) (jobid : ℕ) : Option (Addr × Job) :=
  s.jobTable.find? fun j ↦ j.jobid == jobid

/-- Locate a queue by its name, also one that is flagged deleted. -/
def Tables.findQueue (s : Tables) (name : Str) : Option (Addr × Queue) :=
  s.queueTable.find? fun q ↦ q.name == name

/-- Locate a resource by its name, also one that is flagged deleted. -/
def Tables.findResource (s : Tables) (name : Str) : Option (Addr × Resource) :=
  s.resTable.find? fun r ↦ r.name == name

end Jers
