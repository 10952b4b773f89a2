import Jers.Lib.Exec
import Jers.Server.Types

/-!
# The state of the daemon

The global `server` of `server.h` with the agent and client lists. `Core` is the part that counts:
the three tables, the default queue, the job counters, the deferred list and the objects of a save
in progress. The rest is bookkeeping that the functions of the daemon read and write around it.

The functions of the daemon are computations over `Server` that may stop with a `Fault`. A pointer
is followed with `getJob`, `getQueue` and `getRes`, which stop when the object has been freed.

What the environment answers during one event (the time, the user database, the host name, the
pattern matcher of the access rules, the MAC of the shared secret) is an `Env`.
-/

namespace Jers

/-! ### Agents and clients -/

/-- The `START_JOB` request of `sendStartCmd`. -/
structure StartJob where
  jobid : ℕ
  jobname : Str
  queuename : Str
  uid : ℕ
  nice : ℤ
  shell : Option Str
  wrapper : Option Str
  preCmd : Option Str
  postCmd : Option Str
  args : List Str
  envs : List Str
  stdout : Option Str
  stderr : Option Str
  resources : List (Str × ℤ)
  flags : ℤ
  deriving DecidableEq, Repr

/-- The requests the daemon sends to an agent. -/
inductive AgentRequest
  | startJob (job : StartJob)
  | sigJob (jobid : ℕ) (signum : ℤ) (uid : ℕ)
  | authChallenge (nonce : Str)
  | reconReq (proof : Option (ℤ × Str))
  | reconComplete
  | clearCache
  deriving DecidableEq, Repr

/-- `struct _agent`. The agents are those of the configuration file and are never freed. The
`responses` are what has been queued for the agent on its present connection. -/
structure Agent where
  host : Str
  connected : Bool := false
  nonce : Option Str := none
  recon : Bool := false
  loggedIn : Bool := false
  responses : List AgentRequest := []
  deriving DecidableEq, Repr

/-- `struct user`: the permission bits a user has through the configured groups, and the groups. -/
structure User where
  permissions : ℕ
  groupList : List ℕ
  deriving DecidableEq, Repr

/-- `struct _client`. A client that an agent forwards carries the agent and the process id. -/
structure Client where
  uid : ℕ
  user : Option User := none
  proxy : Option (Addr × ℤ) := none
  request : Str := []
  deriving DecidableEq, Repr

/-! ### The server -/

/-- What `deallocateRes` has been seen to do: whether it ever released other amounts than the ones
the job had been given, and whether the correction of a negative count was ever taken. No function
reads it. -/
structure Audit where
  unmatched : Bool := false
  clamped : Bool := false
  deriving DecidableEq, Repr, Inhabited

/-- The objects a background save has captured, as the child process writes them. -/
structure Flush where
  jobs : List Addr
  queues : List Addr
  resources : List Addr
  deriving DecidableEq, Repr

/-- `server.recovery`, set while a journal record is replayed. -/
structure Recovery where
  uid : ℕ
  time : ℤ
  jobid : ℕ
  revision : ℤ
  deriving DecidableEq, Repr

/-- `struct queue_acl`: a rule of the configuration file. -/
structure QueueAcl where
  expr : Str
  gids : List ℕ
  allow : Bool
  permissions : ℕ
  deriving DecidableEq, Repr

/-- What the configuration file fixes. A `maxRunJobs` of -1 is `UNLIMITED_JOBS`, and
`selfPermission` says that groups are configured for `PERM_SELF`. -/
structure Config where
  maxJobid : ℕ
  maxRunJobs : ℤ := -1
  maxCleanup : ℕ := 0
  defaultJobNice : ℤ := 0
  autoCleanup : ℤ := 0
  secret : Bool := false
  selfPermission : Bool := false
  queueAcls : List QueueAcl := []
  deriving DecidableEq, Repr, Inhabited

/-- The tables, the default queue, the job counters, the sorted list of deferred jobs, the save that
is in progress, the journal record that is being replayed, and the configuration. -/
structure Core extends Tables where
  config : Config
  defaultQueue : Option Addr := none
  stats : JobStats := {}
  audit : Audit := {}
  deferredList : List Addr := []
  flush : Option Flush := none
  recovery : Option Recovery := none
  deriving DecidableEq, Inhabited

/-- `server.stats.total`. -/
structure Totals where
  submitted : ℤ := 0
  started : ℤ := 0
  completed : ℤ := 0
  exited : ℤ := 0
  deleted : ℤ := 0
  deriving DecidableEq, Repr, Inhabited

/-- Why the daemon takes no updates. -/
inductive Readonly
  | enospace
  | bgsave
  deriving DecidableEq, Repr

/-- `struct jersServer`. `deleted` is a 32-bit counter; an entry of the candidate pool is a job or
the gap a removed job left. -/
structure Server extends Core where
  total : Totals := {}
  deleted : ℕ := 0
  candidateRecalc : Bool := false
  candidatePoolSize : ℤ := 0
  candidatePool : List (Option Addr) := []
  startJobid : ℕ := 0
  dirtyJobs : Bool := false
  dirtyQueues : Bool := false
  dirtyResources : Bool := false
  readonly : Option Readonly := none
  agents : Table Agent := .empty
  clients : Table Client := .empty
  deriving DecidableEq, Inhabited

/-- What the daemon asks its environment for. `nonce` is what `generateNonce` returns, `hmac` is the
keyed hash of a list of texts under the shared secret, and `queueMatch` is `fnmatch` of a rule's
expression on a queue name. -/
structure Env where
  now : ℤ := 0
  host : Str := []
  nonce : Option Str := none
  lookupUser : ℕ → Option User := fun _ ↦ none
  hmac : List Str → Str := fun _ ↦ []
  queueMatch : Str → Str → Bool := fun _ _ ↦ false

/-- A function of the daemon. -/
abbrev Daemon := Exec Server Fault

open Exec

/-! ### Following pointers -/

/-- The object an address refers to, if it has not been freed. -/
def deref {α : Type} (o : Option α) : Daemon α :=
  match o with
  | some v => pure v
  | none => stop .useAfterFree

def getJob (a : Addr) : Daemon Job := do deref (← read fun s ↦ s.jobTable.get? a)

def getQueue (b : Addr) : Daemon Queue := do deref (← read fun s ↦ s.queueTable.get? b)

def getRes (b : Addr) : Daemon Resource := do deref (← read fun s ↦ s.resTable.get? b)

def getAgent (g : Addr) : Daemon Agent := do deref (← read fun s ↦ s.agents.get? g)

/-- Write to a job. -/
def modifyJob (a : Addr) (f : Job → Job) : Daemon Unit := do
  let _ ← getJob a
  update fun s ↦ { s with jobTable := s.jobTable.modify a f }

/-- Write to a queue. -/
def modifyQueue (b : Addr) (f : Queue → Queue) : Daemon Unit := do
  let _ ← getQueue b
  update fun s ↦ { s with queueTable := s.queueTable.modify b f }

/-- Write to a resource. -/
def modifyRes (b : Addr) (f : Resource → Resource) : Daemon Unit := do
  let _ ← getRes b
  update fun s ↦ { s with resTable := s.resTable.modify b f }

/-- Write to an agent. -/
def modifyAgent (g : Addr) (f : Agent → Agent) : Daemon Unit := do
  let _ ← getAgent g
  update fun s ↦ { s with agents := s.agents.modify g f }

/-- `sendAgentMessage`: queue a request for an agent. -/
def sendAgentMessage (g : Addr) (m : AgentRequest) : Daemon Unit :=
  modifyAgent g fun a ↦ { a with responses := a.responses ++ [m] }

variable {b g a : Addr}

section Inversion

variable {s s' : Server}

theorem deref_ok {α : Type} {o : Option α} {v : α} (h : deref o s = .ok (v, s')) :
    o = some v ∧ s = s' := by
  cases o with
  | none => exact nomatch h
  | some w =>
    obtain ⟨rfl, rfl⟩ := pure_ok_iff.mp h
    exact ⟨rfl, rfl⟩

section

variable {α β : Type} {p : Server → Option β} {v : β} {f : β → Daemon α} {x : α}

/-- Reading through an address finds the object there. -/
theorem read_deref_ok (h : (read p >>= fun o ↦ deref o : Daemon β) s = .ok (v, s')) :
    p s = some v ∧ s = s' := by
  obtain ⟨_, rfl, hd⟩ := read_bind_ok_iff.mp h
  exact deref_ok hd

theorem read_deref_bind_ok (h : ((read p >>= fun o ↦ deref o) >>= f) s = .ok (x, s')) :
    ∃ v, p s = some v ∧ f v s = .ok (x, s') := by
  obtain ⟨v, _, hg, hf⟩ := bind_ok_iff.mp h
  obtain ⟨hfound, rfl⟩ := read_deref_ok hg
  exact ⟨v, hfound, hf⟩

end

theorem getJob_ok {j : Job} (h : getJob a s = .ok (j, s')) :
    s.jobTable.get? a = some j ∧ s = s' := read_deref_ok h

theorem getJob_bind_ok {f : Job → Daemon α} {x : α} (h : (getJob a >>= f) s = .ok (x, s')) :
    ∃ j, s.jobTable.get? a = some j ∧ f j s = .ok (x, s') := read_deref_bind_ok h

theorem getJob_bind_at {f : Job → Daemon α} {x : α} {j : Job} (hj : s.jobTable.get? a = some j)
    (h : (getJob a >>= f) s = .ok (x, s')) : f j s = .ok (x, s') := by
  obtain ⟨i, hi, h⟩ := getJob_bind_ok h
  rwa [Option.mem_unique hj hi]

theorem getQueue_ok {q : Queue} (h : getQueue b s = .ok (q, s')) :
    s.queueTable.get? b = some q ∧ s = s' := read_deref_ok h

theorem getQueue_bind_ok {f : Queue → Daemon α} {x : α} (h : (getQueue b >>= f) s = .ok (x, s')) :
    ∃ q, s.queueTable.get? b = some q ∧ f q s = .ok (x, s') := read_deref_bind_ok h

theorem getRes_ok {r : Resource} (h : getRes b s = .ok (r, s')) :
    s.resTable.get? b = some r ∧ s = s' := read_deref_ok h

theorem getRes_bind_ok {f : Resource → Daemon α} {x : α} (h : (getRes b >>= f) s = .ok (x, s')) :
    ∃ r, s.resTable.get? b = some r ∧ f r s = .ok (x, s') := read_deref_bind_ok h

theorem getAgent_ok {v : Agent} (h : getAgent g s = .ok (v, s')) :
    s.agents.get? g = some v ∧ s = s' := read_deref_ok h

theorem getAgent_bind_ok {f : Agent → Daemon α} {x : α} (h : (getAgent g >>= f) s = .ok (x, s')) :
    ∃ v, s.agents.get? g = some v ∧ f v s = .ok (x, s') := read_deref_bind_ok h

theorem modifyJob_ok {f : Job → Job} (h : modifyJob a f s = .ok ((), s')) :
    ∃ j, s.jobTable.get? a = some j ∧ s' = { s with jobTable := s.jobTable.modify a f } := by
  obtain ⟨j, hj, hu⟩ := getJob_bind_ok h
  exact ⟨j, hj, update_ok_iff.mp hu⟩

theorem modifyQueue_ok {f : Queue → Queue} (h : modifyQueue b f s = .ok ((), s')) :
    ∃ q, s.queueTable.get? b = some q ∧ s' = { s with queueTable := s.queueTable.modify b f } := by
  obtain ⟨q, hq, hu⟩ := getQueue_bind_ok h
  exact ⟨q, hq, update_ok_iff.mp hu⟩

theorem modifyRes_ok {f : Resource → Resource} (h : modifyRes b f s = .ok ((), s')) :
    ∃ r, s.resTable.get? b = some r ∧ s' = { s with resTable := s.resTable.modify b f } := by
  obtain ⟨r, hr, hu⟩ := getRes_bind_ok h
  exact ⟨r, hr, update_ok_iff.mp hu⟩

/-- Messages to agents leave the rest of the server alone. -/
theorem modifyAgent_ok {f : Agent → Agent} (h : modifyAgent g f s = .ok ((), s')) :
    s' = { s with agents := s.agents.modify g f } := by
  obtain ⟨_, _, hu⟩ := getAgent_bind_ok h
  exact update_ok_iff.mp hu

theorem sendAgentMessage_toCore {m : AgentRequest} (h : sendAgentMessage g m s = .ok ((), s')) :
    s'.toCore = s.toCore := by
  rw [modifyAgent_ok h]

end Inversion

end Jers

/-! ### Postconditions of reading through an address -/

namespace Exec.Post

open Jers

variable {s : Server} {a b g : Addr} {α : Type} {Q : α → Server → Prop}

theorem getJob {f : Job → Daemon α} (h : ∀ v, s.jobTable.get? a = some v → Post (f v) s Q) :
    Post (Jers.getJob a >>= f) s Q := .bind_of getJob_bind_ok h

theorem getQueue {f : Queue → Daemon α} (h : ∀ v, s.queueTable.get? b = some v → Post (f v) s Q) :
    Post (Jers.getQueue b >>= f) s Q := .bind_of getQueue_bind_ok h

theorem getRes {f : Resource → Daemon α} (h : ∀ v, s.resTable.get? b = some v → Post (f v) s Q) :
    Post (Jers.getRes b >>= f) s Q := .bind_of getRes_bind_ok h

end Exec.Post

/-! ### Reading keeps to every relation -/

namespace Exec.Keeps

open Jers

variable {R : Server → Server → Prop} [IsPreorder Server R] {a b g : Addr}

theorem getJob : Keeps R (Jers.getJob a) := .of_eq fun h ↦ (getJob_ok h).2

theorem getQueue : Keeps R (Jers.getQueue b) := .of_eq fun h ↦ (getQueue_ok h).2

theorem getRes : Keeps R (Jers.getRes b) := .of_eq fun h ↦ (getRes_ok h).2

theorem getAgent : Keeps R (Jers.getAgent g) := .of_eq fun h ↦ (getAgent_ok h).2

end Exec.Keeps
