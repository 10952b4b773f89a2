import Jers.Server.Jobs
import Jers.Server.Reply

/-!
# Queues and resources

The functions of `queue.c` and `resource.c` on the queue and resource tables, and the commands of
`command_queue.c` and `command_resource.c` that change them.

A deleted object is only flagged. Adding a queue with the name of a deleted one takes the structure
out of the table, clears it and puts it back, so that the jobs that still point to it now point to
the new queue; a deleted resource is taken over with the amount that is in use.
-/

namespace Jers

open Exec

/-! ### Requests -/

/-- `jersQueueAdd` and `jersQueueMod`. -/
structure QueueRequest where
  name : Option Str
  node : Option Str := none
  desc : Option Str := none
  jobLimit : ℤ := unset32
  state : ℤ := unset32
  priority : ℤ := unset32
  nice : ℤ := unset32
  defaultQueue : ℤ := unset32
  deriving DecidableEq, Repr

/-- A field of a request, or the default if the request does not mention it. -/
def setOr (value default : ℤ) : ℤ := if value ≠ unset32 then value else default

/-- Equality of `strcasecmp`. -/
def sameHost (a b : Str) : Bool := lowercasestring a == lowercasestring b

/-- The agent that the host name of a request refers to. -/
def findAgent (env : Env) (s : Server) (node : Str) : Option Addr :=
  let host := if sameHost node "localhost".toList then env.host else node
  (s.agents.find? fun a ↦ sameHost a.host host).map Prod.fst

/-! ### Queues -/

/-- `updateObject` on a queue. -/
def updateQueue (b : Addr) (dirty : Bool) : Daemon Unit := do
  modifyQueue b fun q ↦ { q with obj := q.obj.updated dirty }
  whenever (dirty = true) (update fun s ↦ { s with dirtyQueues := true })

/-- One group of a rule: a permission list gains or loses the bits of the rule. A group that is
not listed is added by a rule that allows only. -/
def grant (allow : Bool) (bits : ℕ) (permissions : List (ℕ × ℕ)) (gid : ℕ) : List (ℕ × ℕ) :=
  if permissions.any fun p ↦ p.1 == gid then
    permissions.map fun p ↦
      if p.1 = gid then (gid, if allow then p.2 ||| bits else p.2 ^^^ (p.2 &&& bits)) else p
  else if allow then
    permissions ++ [(gid, bits)]
  else
    permissions

/-- The permissions of a queue by the rules that match its name. The group list of a rule ends at
group 0. -/
def queuePermissions (env : Env) (acls : List QueueAcl) (name : Str) : List (ℕ × ℕ) :=
  acls.foldl (fun permissions acl ↦ if env.queueMatch acl.expr name then
      (acl.gids.takeWhile (· ≠ 0)).foldl (grant acl.allow acl.permissions) permissions
    else
      permissions) []

/-- `GROUP_LIMIT`. -/
def groupLimit : ℕ := 32

/-- The group array of a rule is full, so that nothing ends the scan of it. -/
def QueueAcl.overruns (acl : QueueAcl) : Bool :=
  groupLimit ≤ acl.gids.length && acl.gids.all (· ≠ 0)

/-- Some rule for the name has a full group array. -/
def overrun (env : Env) (acls : List QueueAcl) (name : Str) : Bool :=
  acls.any fun acl ↦ env.queueMatch acl.expr name && acl.overruns

/-- `addQueue`, for the structure at address `old` or for a new one. -/
def addQueue (env : Env) (old : Option Addr) (q : Queue) (dirty : Bool) : Daemon Addr := do
  let fresh ← read fun s ↦ s.queueTable.next
  let acls ← read fun s ↦ s.config.queueAcls
  whenever (overrun env acls q.name = true) (stop .outOfBounds)
  let b := old.getD fresh
  let q := { q with permissions := queuePermissions env acls q.name }
  update fun s ↦
    { s with
      queueTable := if old.isSome then s.queueTable.reput b q else s.queueTable.push q }
  whenever (q.isDefault ≠ 0) (update fun s ↦ { s with defaultQueue := some b })
  updateQueue b dirty
  return b

/-- The loop of `cleanupQueues` and of `cleanupResources`, over the objects of a table. -/
def cleanupFrom (stays : Addr → Daemon Bool) (free : Addr → Server → Server) (maxClean : ℕ) :
    ℕ → List Addr → Daemon ℕ
  | cleanedUp, [] => pure cleanedUp
  | cleanedUp, b :: bs => do
    if ← stays b then
      cleanupFrom stays free maxClean cleanedUp bs
    else do
      update (free b)
      if maxClean ≤ cleanedUp + 1 then
        return cleanedUp + 1
      cleanupFrom stays free maxClean (cleanedUp + 1) bs

def cleanupQueues (maxClean : ℕ) : Daemon ℕ := do
  cleanupFrom (fun b ↦ do
      let q ← getQueue b
      return !q.internalState.deleted || q.obj.dirty || q.internalState.flushing)
    (fun b s ↦ { s with queueTable := s.queueTable.erase b })
    (if maxClean = 0 then 10 else maxClean) 0 (← read fun s ↦ s.queueTable.addrs)

/-- `markQueueStopped`: the queues of an agent lose the agent and are stopped. -/
def markQueueStopped (g : Addr) : Daemon Unit := do
  each (fun b ↦ do
    let q ← getQueue b
    whenever (q.agent = some g)
      (modifyQueue b fun q ↦ { q with agent := none, state := q.state - q.state % 2 }))
    (← read fun s ↦ s.queueTable.addrs)

/-- The queue that a request describes. -/
def newQueue (qa : QueueRequest) (name node : Str) (g : Addr) (defaultNice : ℤ) : Queue where
  name := name
  host := node
  desc := qa.desc
  jobLimit := setOr qa.jobLimit 1
  priority := setOr qa.priority 100
  state := setOr qa.state 2
  nice := setOr qa.nice defaultNice
  agent := some g
  isDefault := setOr qa.defaultQueue 0

/-- Add a queue, in the structure `old` of a deleted queue of that name or in a new one. With a host
that is not known the structure is freed. -/
def createQueue (env : Env) (c : Option Client) (qa : QueueRequest) (name : Str)
    (old : Option Addr) : Daemon Reply := do
  let node := qa.node.getD "localhost".toList
  let agent ← read fun s ↦ findAgent env s node
  match agent with
  | none => do
    update fun s ↦ { s with queueTable := (old.map s.queueTable.erase).getD s.queueTable }
    return sendError c 1 .invarg "Invalid hostname provided"
  | some g => do
    let nice ← read fun s ↦ s.config.defaultJobNice
    let b ← addQueue env old (newQueue qa name node g nice) true
    let q ← getQueue b
    sendClient c q.obj .returnCode

def commandAddQueue (env : Env) (c : Option Client) (qa : QueueRequest) : Daemon Reply := do
  match qa.name with
  | none => stop .nullDeref
  | some name => do
    let name := lowercasestring name
    if !checkName name then
      return sendError c 1 .invarg "Invalid queue name"
    let found ← read fun s ↦ s.findQueue name
    match found with
    | none => createQueue env c qa name none
    | some (b, q) => do
      if !q.internalState.deleted then
        return sendError c 1 .queueexists none
      createQueue env c qa name (some b)

/-- The permissions a modify request needs. -/
def QueueRequest.requiredPrivs (qm : QueueRequest) : ℕ :=
  (if qm.node.isSome ∨ qm.desc.isSome ∨ qm.nice ≠ unset32 ∨ qm.priority ≠ unset32 ∨
      qm.defaultQueue ≠ unset32 then queueAdmin else 0) |||
    (if qm.state ≠ unset32 then queueControl else 0) |||
    (if qm.jobLimit ≠ unset32 then queueLimit else 0)

/-- The fields of a queue after a modify request, for the agent of its new host. -/
def QueueRequest.edit (qm : QueueRequest) (agent : Option Addr) (q : Queue) : Queue :=
  { q with
    desc := if qm.desc.isSome then qm.desc else q.desc
    host := qm.node.getD q.host
    agent := if qm.node.isSome then agent else q.agent
    state := setOr qm.state q.state
    jobLimit := setOr qm.jobLimit q.jobLimit
    priority := setOr qm.priority q.priority
    nice := if qm.nice = unset32 then q.nice else if qm.nice = clearNice then unset32 else qm.nice }

/-- The request changes something that is to be saved. -/
def QueueRequest.dirty (qm : QueueRequest) (q : Queue) : Bool :=
  qm.desc.isSome || qm.node.isSome || setOr qm.state q.state != q.state ||
    setOr qm.jobLimit q.jobLimit != q.jobLimit || setOr qm.priority q.priority != q.priority ||
    qm.defaultQueue != unset32 || qm.nice != unset32

/-- The changes of a modify request that has passed the checks. -/
def applyQueueMod (b : Addr) (qm : QueueRequest) (agent : Option Addr) : Daemon Unit := do
  let q ← getQueue b
  modifyQueue b (qm.edit agent)
  whenever (qm.defaultQueue ≠ unset32) (update fun s ↦ { s with defaultQueue := some b })
  updateQueue b (qm.dirty q)

/-- `command_mod_queue`. The queue may be one that is flagged deleted. -/
def commandModQueue (env : Env) (c : Option Client) (qm : QueueRequest) : Daemon Reply := do
  match qm.name with
  | none => return sendError c 1 .invarg "No queue provided"
  | some name => do
    let found ← read fun s ↦ s.findQueue name
    match found with
    | none => return sendError c 1 .noqueue none
    | some (b, q) => do
      let recovery ← read fun s ↦ s.recovery
      if recovery.any fun r ↦ r.revision ≤ q.obj.revision then
        return { status := 0 }
      let denied ← lift (checkQueueACL c q qm.requiredPrivs)
      if denied then
        return sendError c 1 .noperm none
      let agent ← read fun s ↦ qm.node.bind (findAgent env s)
      if qm.node.isSome ∧ agent.isNone then
        return sendError c 1 .invarg "Invalid hostname provided"
      applyQueueMod b qm agent
      let q ← getQueue b
      sendClient c q.obj .returnCode

/-- Some job that is not deleted is on the queue. -/
def Tables.queueInUse (s : Tables) (b : Addr) : Bool :=
  (s.jobTable.find? fun j ↦ j.queue == b && !j.internalState.deleted).isSome

def commandDelQueue (c : Option Client) (name : Option Str) : Daemon Reply := do
  match name with
  | none => return sendError c 1 .invarg "No queue provided"
  | some name => do
    let recovery ← read fun s ↦ s.recovery
    let gone := if recovery.isSome then { status := 0 } else sendError c 1 .noqueue none
    let found ← read fun s ↦ s.findQueue name
    match found with
    | none => return gone
    | some (b, q) => do
      if q.internalState.deleted then
        return gone
      let inUse ← read fun s ↦ s.queueInUse b
      if inUse then
        return sendError c 1 .notempty none
      modifyQueue b fun q ↦ { q with internalState.deleted := true }
      sendClient c none .returnCode

/-! ### Resources -/

/-- `updateObject` on a resource. -/
def updateRes (b : Addr) (dirty : Bool) : Daemon Unit := do
  modifyRes b fun r ↦ { r with obj := r.obj.updated dirty }
  whenever (dirty = true) (update fun s ↦ { s with dirtyResources := true })

/-- `addRes`, for the structure at address `old` or for a new one. -/
def addRes (old : Option Addr) (r : Resource) (dirty : Bool) : Daemon Addr := do
  let fresh ← read fun s ↦ s.resTable.next
  let b := old.getD fresh
  update fun s ↦
  { s with resTable := if old.isSome then s.resTable.reput b r else s.resTable.push r }
  updateRes b dirty
  return b

def cleanupResources (maxClean : ℕ) : Daemon ℕ := do
  cleanupFrom (fun b ↦ do
      let r ← getRes b
      return !r.internalState.deleted || r.obj.dirty || r.internalState.flushing)
    (fun b s ↦ { s with resTable := s.resTable.erase b })
    (if maxClean = 0 then 10 else maxClean) 0 (← read fun s ↦ s.resTable.addrs)

/-- Add a resource and answer. -/
def createRes (c : Option Client) (old : Option Addr) (r : Resource) : Daemon Reply := do
  let b ← addRes old r true
  let r ← getRes b
  sendClient c r.obj .returnCode

def commandAddResource (c : Option Client) (name : Option Str) (count : ℤ) : Daemon Reply := do
  match name with
  | none => return sendError c 1 .invarg "No resource name provided"
  | some name => do
    if !checkName name then
      return sendError c 1 .invarg "Invalid resource name"
    let found ← read fun s ↦ s.findResource name
    match found with
    | none => createRes c none { name, count }
    | some (b, r) => do
      let recovery ← read fun s ↦ s.recovery
      if recovery.isSome then
        return { status := 0 }
      if !r.internalState.deleted then
        return sendError c 1 .resexists none
      createRes c (some b) { r with name, count, internalState.deleted := false }

def commandModResource (c : Option Client) (name : Option Str) (count : ℤ) : Daemon Reply := do
  match name with
  | none => return sendError c 1 .invarg "Resource name not provided"
  | some name => do
    let found ← read fun s ↦ s.findResource name
    match found with
    | none => return sendError c 1 .nores none
    | some (b, r) => do
      if r.internalState.deleted then
        return sendError c 1 .nores none
      let recovery ← read fun s ↦ s.recovery
      if recovery.any fun rec ↦ rec.revision ≤ r.obj.revision then
        return { status := 0 }
      modifyRes b fun r ↦ { r with count := count }
      updateRes b true
      let r ← getRes b
      sendClient c r.obj .returnCode

/-- Some job that is not deleted needs the resource. A count without a list is read beyond it. -/
def Tables.resInUse (s : Tables) (b : Addr) : Except Fault Bool :=
  s.jobTable.rows.foldlM (fun found row ↦ if found || row.2.internalState.deleted then .ok found
    else do
      let reqs ← row.2.requirements
      return reqs.any fun h ↦ h.res == b) false

/-- `command_del_resource`. Also during recovery a resource that is not there is an error. -/
def commandDelResource (c : Option Client) (name : Option Str) : Daemon Reply := do
  match name with
  | none => return sendError c 1 .invarg "Resource name not provided"
  | some name => do
    let found ← read fun s ↦ s.findResource name
    match found with
    | none => return sendError c 1 .nores none
    | some (b, r) => do
      if r.internalState.deleted then
        return sendError c 1 .nores none
      let inUse ← read fun s ↦ s.resInUse b
      let inUse ← lift inUse
      if inUse then
        return sendError c 1 .resinuse none
      modifyRes b fun r ↦ { r with internalState.deleted := true }
      sendClient c none .returnCode

end Jers
