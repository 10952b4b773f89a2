import Jers.Server.CommandQueue

/-!
# Messages from agents

The handlers of `command_agent.c`, their dispatcher `runAgentCommand`, and the connection events of
`agent.c`. The dispatcher looks up the command and runs it: whether the agent has logged in is not
looked at, neither there nor in a handler.

The assignments to `history` record which reports have come in.
-/

namespace Jers

open Exec

/-! ### Messages -/

/-- One entry of a `RECON_RESP` message. Fields that the entry does not have are 0. -/
structure ReconItem where
  jobid : ℕ := 0
  startTime : ℤ := 0
  finishTime : ℤ := 0
  pid : ℤ := 0
  exitcode : ℤ := 0
  usage : Usage := fun _ ↦ 0
  deriving DecidableEq

/-- The messages of an agent. `unknown` is a command that is not in the table. -/
inductive AgentMsg
  | login
  | authResp (nonce hmac : Option Str) (datetime : ℤ)
  | recon (items : List ReconItem)
  | jobStarted (jobid : ℕ) (pid startTime : ℤ)
  | jobCompleted (jobid : ℕ) (exitcode finishTime : ℤ) (usage : Usage)
  | proxyConn (pid : ℤ) (uid : ℕ)
  | proxyData (pid : ℤ) (data : Option Str)
  | proxyClose (pid : ℤ)
  | unknown
  deriving DecidableEq

/-! ### Login -/

/-- The queue is one for the host of the agent. -/
def Queue.isOn (q : Queue) (env : Env) (host : Str) : Bool :=
  if q.host = "localhost".toList then env.host == host else q.host == host

/-- `command_agent_login`. With a shared secret the agent is sent a challenge and is not logged in
yet. -/
def commandAgentLogin (env : Env) (g : Addr) : Daemon ℤ := do
  let agent ← getAgent g
  each (fun b ↦ do
    let q ← getQueue b
    whenever (q.isOn env agent.host = true) (modifyQueue b fun q ↦ { q with agent := some g }))
    (← read fun s ↦ s.queueTable.addrs)
  let secret ← read fun s ↦ s.config.secret
  if secret then
    match env.nonce with
    | none => return 1
    | some nonce => do
      sendAgentMessage g (.authChallenge nonce)
      modifyAgent g fun a ↦ { a with nonce := some nonce }
      return 0
  else do
    sendAgentMessage g (.reconReq none)
    modifyAgent g fun a ↦ { a with recon := true, loggedIn := true }
    return 0

/-- The texts under the MAC of an authentication response. A nonce that is not there ends the
list. -/
def authInput (nonce : Option Str) (clientNonce : Str) (datetime : ℤ) : List Str :=
  match nonce with
  | none => []
  | some nonce => [nonce, clientNonce, int64tostr datetime]

/-- An authentication response that is accepted: it has its fields, the time is within the
tolerance, and the MAC is right. -/
def authAccepted (env : Env) (agent : Agent) (clientNonce hmac : Str) (datetime : ℤ) : Bool :=
  datetime != 0 && env.now ≤ datetime && datetime ≤ env.now + 300 &&
    sameHost (env.hmac (authInput agent.nonce clientNonce datetime)) hmac

/-- `command_agent_authresp`. A response that is not accepted has no effect; the agent stays
connected. -/
def commandAgentAuthresp (env : Env) (g : Addr) (nonce hmac : Option Str) (datetime : ℤ) :
    Daemon ℤ := do
  let agent ← getAgent g
  match nonce, hmac with
  | some clientNonce, some hmac => do
    if !authAccepted env agent clientNonce hmac datetime then
      return 1
    sendAgentMessage g
      (.reconReq (some (env.now, env.hmac [clientNonce, int64tostr env.now])))
    modifyAgent g fun a ↦ { a with recon := true, loggedIn := true }
    return 0
  | _, _ => return 1

/-! ### Reports on jobs -/

/-- One entry of a `RECON_RESP` message. A finished entry does not give resources back, and the
start flag stays. -/
def reconItem (i : ReconItem) : Daemon Unit := do
  let found ← read fun s ↦ s.findJob i.jobid
  match found with
  | none => stop .errorDie
  | some (a, _) => do
    modifyJob a fun j ↦
      { j with
        pendReason := 0
        startTime := if i.startTime ≠ 0 then i.startTime else j.startTime
        history.awaiting := j.history.awaiting && i.finishTime == 0 && i.pid == 0 }
    whenever (i.finishTime ≠ 0) do
      modifyJob a fun j ↦
        { j with finishTime := i.finishTime, exitcode := i.exitcode, history.held := [] }
      changeJobState a (if i.exitcode ≠ 0 then .exited else .completed) none true
    whenever (i.pid ≠ 0) do
      modifyJob a fun j ↦ { j with pid := i.pid }
      changeJobState a .running none false
    modifyJob a fun j ↦ { j with usage := i.usage }

def commandAgentRecon (g : Addr) (items : List ReconItem) : Daemon ℤ := do
  each reconItem items
  sendAgentMessage g .reconComplete
  modifyAgent g fun a ↦ { a with recon := false }
  return 0

/-- The start of the job at `a`. In recovery the resources are allocated again. -/
def jobStarted (a : Addr) (pid startTime : ℤ) : Daemon Unit := do
  changeJobState a .running none true
  modifyJob a fun j ↦
    { j with
      internalState.started := false
      pendReason := 0
      pid := pid
      startTime := startTime
      history.awaiting := false }
  let j ← getJob a
  let recovery ← read fun s ↦ s.recovery
  whenever (recovery.isSome ∧ j.resCount ≠ 0) (allocateRes a)
  update fun s ↦ { s with total.started := s.total.started + 1 }

def commandAgentJobstart (jobid : ℕ) (pid startTime : ℤ) : Daemon ℤ := do
  let found ← read fun s ↦ s.findJob jobid
  match found with
  | none => return 1
  | some (a, _) => do
    jobStarted a pid startTime
    return 0

/-- The exit status word of a completion: the low byte, and flags for a job that failed to start
and for one that was ended by a signal. -/
structure ExitStatus where
  exitcode : ℤ
  failReason : Option ℤ := none
  signal : Option ℤ := none
  deriving DecidableEq, Repr

def exitStatus (exitcode : ℤ) : ExitStatus :=
  let low := exitcode % 256
  if exitcode / 2 ^ 24 % 2 = 1 then { exitcode := 255, failReason := some low }
  else if exitcode / 2 ^ 25 % 2 = 1 then { exitcode := low + 128, signal := some low }
  else { exitcode := low }

/-- The state of a job that has ended with an exit code. -/
def ExitStatus.state (e : ExitStatus) : JobState := if e.exitcode ≠ 0 then .exited else .completed

/-- The end of the job at `a`. The start flag is cleared after the state has changed. -/
def jobCompleted (a : Addr) (exitcode finishTime : ℤ) (usage : Usage) : Daemon Unit := do
  let j ← getJob a
  whenever (j.resCount ≠ 0) (deallocateRes a)
  let status := exitStatus exitcode
  modifyJob a fun j ↦
    { j with
      exitcode := status.exitcode
      failReason := status.failReason.getD j.failReason
      signal := status.signal.getD j.signal
      pid := -1
      finishTime := finishTime
      usage := usage
      history.held := [] }
  changeJobState a status.state none true
  modifyJob a fun j ↦ { j with internalState.started := false, history.awaiting := false }
  update fun s ↦ if exitcode ≠ 0 then { s with total.exited := s.total.exited + 1 }
    else { s with total.completed := s.total.completed + 1 }

def commandAgentJobcompleted (jobid : ℕ) (exitcode finishTime : ℤ) (usage : Usage) : Daemon ℤ := do
  let found ← read fun s ↦ s.findJob jobid
  match found with
  | none => return 1
  | some (a, _) => do
    jobCompleted a exitcode finishTime usage
    return 0

/-! ### Forwarded clients -/

/-- The client that an agent forwards for a process. -/
def findProxy (s : Server) (g : Addr) (pid : ℤ) : Option Addr :=
  (s.clients.find? fun c ↦ c.proxy.any fun p ↦ p.2 != 0 && p.1 == g && p.2 == pid).map Prod.fst

/-- `command_agent_proxyconn`: a client with the user id that the agent names. An older client of
the same process is dropped. -/
def commandAgentProxyconn (g : Addr) (pid : ℤ) (uid : ℕ) : Daemon ℤ := do
  update fun s ↦ let clients := ((findProxy s g pid).map s.clients.erase).getD s.clients
    { s with clients := clients.push { uid, proxy := some (g, pid) } }
  return 0

def commandAgentProxydata (g : Addr) (pid : ℤ) (data : Option Str) : Daemon ℤ := do
  match data with
  | none => return 1
  | some data => do
    let client ← read fun s ↦ findProxy s g pid
    match client with
    | none => return 1
    | some k => do
      update fun s ↦
        { s with clients := s.clients.modify k fun c ↦ { c with request := c.request ++ data } }
      return 0

def commandAgentProxyclose (g : Addr) (pid : ℤ) : Daemon ℤ := do
  let client ← read fun s ↦ findProxy s g pid
  match client with
  | none => return 1
  | some k => do
    update fun s ↦ { s with clients := s.clients.erase k }
    return 0

/-! ### The dispatcher and the connection -/

/-- `runAgentCommand`: the status of the handler. -/
def runAgentCommand (env : Env) (g : Addr) : AgentMsg → Daemon ℤ
  | .login => commandAgentLogin env g
  | .authResp nonce hmac datetime => commandAgentAuthresp env g nonce hmac datetime
  | .recon items => commandAgentRecon g items
  | .jobStarted jobid pid startTime => commandAgentJobstart jobid pid startTime
  | .jobCompleted jobid exitcode finishTime usage =>
    commandAgentJobcompleted jobid exitcode finishTime usage
  | .proxyConn pid uid => commandAgentProxyconn g pid uid
  | .proxyData pid data => commandAgentProxydata g pid data
  | .proxyClose pid => commandAgentProxyclose g pid
  | .unknown => pure 1

/-- `handleAgentConnection`: a second connection from the same host is refused. -/
def handleAgentConnection (g : Addr) : Daemon Unit := do
  let agent ← getAgent g
  whenever (agent.connected = false)
    (modifyAgent g fun a ↦ { a with connected := true, loggedIn := false, responses := [] })

def handleAgentDisconnect (g : Addr) : Daemon Unit := do
  markJobsUnknown g
  markQueueStopped g
  modifyAgent g fun a ↦
    { a with connected := false, loggedIn := false, nonce := none, responses := [] }

end Jers
