import Jers.Lib.Run
import Jers.Server.CommandJob
import Jers.Server.Save
import Jers.Server.Sched

/-!
# The daemon as a step system

The events of the main loop of `jersd` and their handlers: a command of a client, a message, a
connection or a disconnection of an agent, and the timed events of `event.c`. `Step` is one event
that is handled without a fault. A state is reachable if it is reached by steps from the state of
a daemon that starts without state files.
-/

namespace Jers

open Exec

/-- The commands of the table in `commands.c`. The ones that only read are `query`: by definition,
they answer once and change nothing. -/
inductive Command
  | addJob (ja : JobAdd)
  | modJob (mj : JobMod)
  | delJob (jobid : ℕ)
  | sigJob (js : JobSig)
  | setTag (jobid : ℕ) (key : Str) (value : Option Str)
  | delTag (jobid : ℕ) (key : Str)
  | addQueue (qa : QueueRequest)
  | modQueue (qm : QueueRequest)
  | delQueue (name : Option Str)
  | addResource (name : Option Str) (count : ℤ)
  | modResource (name : Option Str) (count : ℤ)
  | delResource (name : Option Str)
  | query (perm : ℕ)
  deriving DecidableEq

/-- The permission that the table asks for. -/
def Command.perm : Command → ℕ
  | addQueue _ | delQueue _ => permQueue
  | addResource _ _ | modResource _ _ | delResource _ => permWrite
  | query perm => perm
  | _ => 0

/-- The commands with `CMDFLG_REPLAY`. -/
def Command.isUpdate : Command → Bool
  | sigJob _ | query _ => false
  | _ => true

/-- The function of a command, for a client or in recovery. -/
def Command.run (env : Env) (c : Option Client) : Command → Daemon Reply
  | addJob ja => commandAddJob env c ja
  | modJob mj => commandModJob c mj
  | delJob jobid => commandDelJob c jobid
  | sigJob js => commandSigJob env c js
  | setTag jobid key value => commandSetTag c jobid key value
  | delTag jobid key => commandDelTag c jobid key
  | addQueue qa => commandAddQueue env c qa
  | modQueue qm => commandModQueue env c qm
  | delQueue name => commandDelQueue c name
  | addResource name count => commandAddResource c name count
  | modResource name count => commandModResource c name count
  | delResource name => commandDelResource c name
  | query _ => sendClient c none .returnCode

/-- `validateUserAction`: the client with its user, or `none` if it may not run the command. -/
def validateUserAction (env : Env) (c : Client) (required : ℕ) : Option Client :=
  if c.uid = 0 then some c
  else match env.lookupUser c.uid with
    | none => none
    | some u => if hasBits u.permissions required then some { c with user := some u } else none

/-- The text of the error in readonly mode. -/
def Readonly.text : Readonly → String
  | enospace => "JERS is in READONLY mode. - Check disk space"
  | bgsave => "JERS is in READONLY mode. - Check jersd logfile - Save failed"

/-- `runCommand`. -/
def runCommand (env : Env) (c : Client) (cmd : Command) : Daemon Reply := do
  match validateUserAction env c cmd.perm with
  | none => return sendError (some c) 1 .noperm none
  | some c => do
    let readonly ← read fun s ↦ s.readonly
    match readonly, cmd.isUpdate with
    | some r, true => return sendError (some c) 1 .readonly r.text
    | _, _ => cmd.run env (some c)

/-- What `runCommand` comes down to: an error of its own, or the function of the command. -/
theorem runCommand_checked {env : Env} {c : Client} {cmd : Command} {s s' : Server} {reply : Reply}
    (h : runCommand env c cmd s = .ok (reply, s')) :
    (s = s' ∧ ∃ c' code text, reply = sendError (some c') 1 code text) ∨ ∃ c',
      validateUserAction env c cmd.perm = some c' ∧ (cmd.isUpdate = true → s.readonly = none) ∧
      cmd.run env (some c') s = .ok (reply, s') := by
  rw [runCommand] at h
  generalize validateUserAction env c cmd.perm = user at h
  cases user with
  | none =>
    obtain ⟨rfl, rfl⟩ := pure_ok_iff.mp h
    exact .inl ⟨rfl, c, _, _, rfl⟩
  | some c' =>
    obtain ⟨readonly, hread, h₁⟩ := read_bind_ok_iff.mp h
    cases readonly with
    | none => exact .inr ⟨c', rfl, fun _ ↦ hread, h₁⟩
    | some r =>
      cases hupdate : cmd.isUpdate with
      | true =>
        rw [hupdate] at h₁
        obtain ⟨rfl, rfl⟩ := pure_ok_iff.mp h₁
        exact .inl ⟨rfl, c', _, _, rfl⟩
      | false =>
        rw [hupdate] at h₁
        exact .inr ⟨c', rfl, nofun, h₁⟩

/-- What happens to the daemon. -/
inductive Event
  | client (c : Client) (cmd : Command)
  | agent (g : Addr) (m : AgentMsg)
  | connect (g : Addr)
  | disconnect (g : Addr)
  | checkJobs
  | releaseDeferred
  | cleanupJobs (maxClean : ℕ)
  | cleanupQueues (maxClean : ℕ)
  | cleanupResources (maxClean : ℕ)
  | autoCleanup
  | saveStart (extended : Bool)
  | saveFinish (failed : Bool)
  | extendJournal (extended : Bool)
  deriving DecidableEq

/-- `extendJournal`, when a record is written: a full disk makes the daemon readonly, and success
ends that. -/
def extendJournal (extended : Bool) : Daemon Unit :=
  update fun s ↦
    { s with
      readonly :=
        if extended then if s.readonly = some .enospace then none else s.readonly
        else if s.readonly = none then some .enospace else s.readonly }

/-- The handler of an event. -/
def handle (env : Env) : Event → Daemon Unit
  | .client c cmd => do let _ ← runCommand env c cmd
  | .agent g m => do let _ ← runAgentCommand env g m
  | .connect g => handleAgentConnection g
  | .disconnect g => handleAgentDisconnect g
  | .checkJobs => checkJobs
  | .releaseDeferred => releaseDeferred env
  | .cleanupJobs n => do let _ ← cleanupJobs n
  | .cleanupQueues n => do let _ ← cleanupQueues n
  | .cleanupResources n => do let _ ← cleanupResources n
  | .autoCleanup => autoCleanup env
  | .saveStart extended => saveStart extended
  | .saveFinish failed => saveFinish failed
  | .extendJournal extended => extendJournal extended

/-- One event, with the answers of the environment, is handled without a fault. -/
def Step (s : Server) (e : Env × Event) (s' : Server) : Prop := handle e.1 e.2 s = .ok ((), s')

/-- The daemon at its start, without state files: the agents of the configuration file, none of them
connected. -/
def Server.initial (config : Config) (hosts : List Str) : Server where
  jobTable := .empty
  queueTable := .empty
  resTable := .empty
  config := config
  agents := hosts.foldl (fun t host ↦ t.push { host }) .empty
  candidateRecalc := true

end Jers
