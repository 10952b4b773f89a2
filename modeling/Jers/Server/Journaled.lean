import Jers.Server.Answers
import Jers.Server.Journal

/-!
# What is journaled

`runCommand` writes an update to the journal by the status its function returns, and the function
tells the client by the response it sends. The two agree on every exit of every update
(`Reply.Told`) but those of `command_mod_job` that refuse a request with an error and return 0: such
a request is journaled, to be run again by recovery (`journalsSuccess_iff`).
-/

namespace Jers

open Exec Sample

variable {env : Env} {s : Server}

/-- A command that returns is journaled exactly if its client was sent a success. -/
def JournalsSuccess (env : Env) (c : Client) (cmd : Command) (s : Server) : Prop :=
  ∀ reply s', runCommand env c cmd s = .ok (reply, s') →
    ((journalCommand env.now c cmd reply).isSome = true ↔ reply.succeeded = true)

/-- The command is not a modify request that gets as far as `command_mod_job` and is turned down
there. -/
def Undisputed (env : Env) (c : Client) (cmd : Command) (s : Server) : Prop :=
  ∀ mj c', cmd = .modJob mj → validateUserAction env c 0 = some c' → s.readonly = none →
    ¬ mj.TurnedDown c' s

theorem journalCommand_isSome {time : ℤ} {c : Client} {cmd : Command} {reply : Reply}
    (hupd : cmd.isUpdate = true) :
    (journalCommand time c cmd reply).isSome = true ↔ reply.status = 0 := by
  rw [journalCommand]
  split
  · next h => exact iff_of_true rfl h.2
  · next h => exact iff_of_false nofun fun hst ↦ h ⟨hupd, hst⟩

/-- A request that is turned down returns. -/
theorem JobMod.TurnedDown.runs {mj : JobMod} {c : Client} (h : mj.TurnedDown c s)
    (hrec : s.recovery = none) : ∃ reply, commandModJob (some c) mj s = .ok (reply, s) := by
  by_cases hid : mj.jobid = 0
  · exact ⟨_, by rw [commandModJob, if_pos hid]; rfl⟩
  obtain ⟨hcheck, hwhy⟩ := h.resolve_left hid
  have hperm : deniedPerm (some c) (((s.findJob mj.jobid).map fun r ↦ r.2.uid).getD 0) permWrite s =
      .ok (false, s) := by
    rw [deniedPerm, read_bind, hrec]
    exact hcheck
  rw [commandModJob, if_neg hid, read_bind, read_bind, bind_of_ok hperm, if_neg Bool.false_ne_true]
  rcases hfound : s.findJob mj.jobid with - | ⟨a, j⟩
  · exact ⟨_, rfl⟩
  · dsimp only
    split
    · exact ⟨_, rfl⟩
    next hdel =>
    rw [hrec, if_neg (by simp)]
    rcases hrefuse : mj.refusal (some c) j with - | reply
    · have htarget : mj.target s.toTables = none :=
        ((hwhy a j hfound).resolve_left hdel).resolve_left (not_refused hrefuse)
      dsimp only
      rw [read_bind, htarget]
      exact ⟨_, rfl⟩
    · exact ⟨_, rfl⟩

/-- For every update, every client and every state outside of recovery: that it is journaled exactly
when it was a success is the same as that it is not a modify request that is turned down. -/
theorem journalsSuccess_iff {c : Client} {cmd : Command} (hupd : cmd.isUpdate = true)
    (hrec : s.recovery = none) : JournalsSuccess env c cmd s ↔ Undisputed env c cmd s := by
  constructor
  · rintro hright mj c' rfl hvalid hreadonly hdown
    obtain ⟨reply, hrun⟩ := hdown.runs hrec
    have hcmd : runCommand env c (.modJob mj) s = .ok (reply, s) := by
      have hvalid' : validateUserAction env c (Command.modJob mj).perm = some c' := hvalid
      rw [runCommand, hvalid']
      dsimp only
      rw [read_bind, hreadonly]
      exact hrun
    rcases commandModJob_cases c' hrec hrun with ⟨-, -, hstatus, -, hfailed⟩ | ⟨hnot, -⟩
    · have hsuccess := (hright reply s hcmd).mp ((journalCommand_isSome hupd).mpr hstatus)
      exact absurd (hsuccess.symm.trans hfailed) (by simp)
    · exact hnot hdown
  · intro hclear reply s' h
    rw [journalCommand_isSome hupd]
    by_cases hmod : ∃ mj, cmd = .modJob mj
    · obtain ⟨mj, rfl⟩ := hmod
      rcases runCommand_checked h with ⟨-, c', code, text, rfl⟩ | ⟨c', hvalid, hreadonly, hrun⟩
      · exact (Reply.Told.error c' code text).status
      rcases commandModJob_cases c' hrec hrun with ⟨hdown, -⟩ | ⟨-, htold, -⟩
      · exact absurd hdown (hclear mj c' rfl hvalid (hreadonly hupd))
      · exact htold.status
    · exact (runCommand_told hrec (fun mj hmj ↦ hmod ⟨mj, hmj⟩) h).status

/-- A running job cannot be modified: the client gets an error, and the request is journaled. -/
theorem not_journalsSuccess_running : ∃ s, Runs anyEvent config hosts s ∧
    ¬ JournalsSuccess Sample.env root (.modJob { jobid := 1, priority := 5 }) s := by
  obtain ⟨s, hrun, r, hr, hsome, hfailed⟩ := exists_runs anyEvent config hosts
    (events (Sample.startJob ++ [.agent 0 (.jobStarted 1 77 1001)]))
    (fun s ↦ ∃ r ∈ (runCommand Sample.env root (.modJob { jobid := 1, priority := 5 }) s).toOption,
      (journalCommand Sample.env.now root (.modJob { jobid := 1, priority := 5 })
        r.1).isSome = true ∧ r.1.succeeded = false) (by decide +kernel)
  refine ⟨s, hrun, fun hright ↦ ?_⟩
  have hsuccess := (hright r.1 r.2 (Except.toOption_eq_some_iff.mp hr)).mp hsome
  exact nomatch hsuccess.symm.trans hfailed

/-- The job is deleted instead. -/
theorem journalsSuccess_iff_delete : ∃ s, Runs anyEvent config hosts s ∧
    JournalsSuccess Sample.env root (.delJob 1) s := by
  obtain ⟨s, hrun, hp⟩ := exists_runs anyEvent config hosts
    (events Sample.startJob) (fun s ↦ s.recovery = none) (by decide +kernel)
  have hclear : Undisputed Sample.env root (.delJob 1) s := by
    intro mj c' hmod
    exact nomatch hmod
  exact ⟨s, hrun, (journalsSuccess_iff rfl hp).mpr hclear⟩

end Jers
