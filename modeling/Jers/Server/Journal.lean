import Jers.Server.Events

/-!
# The journal

Every update that succeeds is appended to the journal: the time, the user, the command with its
message, the job id of a new job, and the revision of the object after the command. When the daemon
starts, it loads the state files and replays the records after the last mark, with
`server.recovery` set from each record and without a client.

The text of a record is not modelled: a record holds the command itself. The time is the one that
`stateSaveCmd` reads, after the command has run.
-/

namespace Jers

open Exec Option

/-- What a record replays: a command of a client, or one of the two messages of an agent that are
flagged `CMDFLG_REPLAY`. -/
inductive JournalEntry
  | command (cmd : Command)
  | jobStarted (jobid : ℕ) (pid startTime : ℤ)
  | jobCompleted (jobid : ℕ) (exitcode finishTime : ℤ) (usage : Usage)
  deriving DecidableEq

/-- A record of the journal. -/
structure Record where
  time : ℤ
  uid : ℕ
  entry : JournalEntry
  jobid : ℕ := 0
  revision : ℤ := 0
  deriving DecidableEq

/-! ### Writing -/

/-- The end of `runCommand`: an update that has returned 0 is written. -/
def journalCommand (time : ℤ) (c : Client) (cmd : Command) (reply : Reply) : Option Record :=
  if cmd.isUpdate ∧ reply.status = 0 then
    some { time, uid := c.uid, entry := .command cmd,
           jobid := reply.jobid, revision := reply.revision }
  else
    none

variable {env : Env}

theorem validateUserAction_uid {c c' : Client} {perm : ℕ}
    (h : validateUserAction env c perm = some c') : c'.uid = c.uid := by
  unfold validateUserAction at h
  split at h
  · rw [some.inj h]
  · split at h
    · exact nomatch h
    · split at h
      · rw [← some.inj h]
      · exact nomatch h

/-- A command that is written has passed the checks of `runCommand`. -/
theorem runCommand_ran {c : Client} {cmd : Command} {s s' : Server} {reply : Reply}
    (h : runCommand env c cmd s = .ok (reply, s')) (hst : reply.status = 0) :
    ∃ c', validateUserAction env c cmd.perm = some c' ∧
    cmd.run env (some c') s = .ok (reply, s') := by
  rcases runCommand_checked h with ⟨-, c', code, text, rfl⟩ | ⟨c', hvalid, -, hrun⟩
  · exact nomatch hst
  · exact ⟨c', hvalid, hrun⟩

/-! ### Replaying -/

/-- `server.recovery` for a record. -/
def Record.recovery (r : Record) : Recovery where
  uid := r.uid
  time := r.time
  jobid := r.jobid
  revision := r.revision

/-- `replayCommand`: a command of a client that fails ends the daemon; the value that a handler of
an agent's message returns is not looked at. -/
def replayCommand (env : Env) : JournalEntry → Daemon Unit
  | .command cmd => do
    if !cmd.isUpdate then
      return ()
    let reply ← cmd.run env none
    if reply.status ≠ 0 then
      stop .errorDie
  | .jobStarted jobid pid startTime => do
    let _ ← commandAgentJobstart jobid pid startTime
  | .jobCompleted jobid exitcode finishTime usage => do
    let _ ← commandAgentJobcompleted jobid exitcode finishTime usage

/-- `replayTransaction`. -/
def replayTransaction (env : Env) (r : Record) : Daemon Unit := do
  update fun s ↦ { s with recovery := some r.recovery }
  replayCommand env r.entry

/-- The daemon while a record is replayed. -/
def Server.recovering (t : Server) (r : Record) : Server := { t with recovery := some r.recovery }

/-- The replay of a client's command gets through when the command runs and returns 0. -/
theorem replayTransaction_command {r : Record} {cmd : Command} {t t' : Server}
    (hentry : r.entry = .command cmd) (hupdate : cmd.isUpdate = true) :
    replayTransaction env r t = .ok ((), t') ↔
      ∃ reply, cmd.run env none (t.recovering r) = .ok (reply, t') ∧ reply.status = 0 := by
  have hreplay : replayTransaction env r t = ((cmd.run env none >>= fun reply ↦
      if reply.status ≠ 0 then stop .errorDie else pure ()) : Daemon Unit) (t.recovering r) := by
    show replayCommand env r.entry (t.recovering r) = _
    rw [hentry, replayCommand, hupdate]
    rfl
  rw [hreplay, bind_ok_iff]
  constructor
  · rintro ⟨reply, u, hrun, hcheck⟩
    split at hcheck
    · exact nomatch hcheck
    · next hst =>
      obtain ⟨-, rfl⟩ := pure_ok_iff.mp hcheck
      exact ⟨reply, hrun, not_not.mp hst⟩
  · rintro ⟨reply, hrun, hst⟩
    refine ⟨reply, t', hrun, ?_⟩
    rw [if_neg (not_not.mpr hst)]
    rfl

end Jers
