import Jers.Server.Runs

/-!
# Two reports of one end

The agent tells the daemon that a job has ended by `JOB_COMPLETED`, or, if it was not connected
then, by an entry of its next `RECON_RESP` message. Both carry the same completion record, but the
daemon has two handlers for it. `command_agent_jobcompleted` takes the flags out of the status word,
resets the process id and the start flag and gives the resources back; `command_agent_recon` stores
the word as it is and does none of this. `Completion.Plain` says when the difference does not show.
-/

namespace Jers

open Exec Option Bool Sample

/-! ### The record -/

/-- What the agent has noted about a job that has ended. -/
structure Completion where
  jobid : ℕ
  startTime : ℤ
  exitcode : ℤ
  finishTime : ℤ
  usage : Usage

/-- The entry of `recon_command` for it: the process id of such a job is -1, and is not sent. -/
def Completion.entry (d : Completion) : ReconItem where
  jobid := d.jobid
  startTime := d.startTime
  finishTime := d.finishTime
  exitcode := d.exitcode
  usage := d.usage

/-- The message of `send_completion` for it. -/
def Completion.report (d : Completion) : AgentMsg :=
  .jobCompleted d.jobid d.exitcode d.finishTime d.usage

variable {a : Addr}

/-- The amounts in use after a shift. -/
theorem Shift.inUse {j j' : Job} {k : Cost} {c c' : Core} (h : Shift a j j' k c c') (b : Addr) :
    (c'.resTable.get? b).map Resource.inUse = (c.resTable.get? b).map fun r ↦
    r.inUse + k.use b := by
  have hrel := h.resources b
  cases hr : c.resTable.get? b with
  | none =>
    rw [hr] at hrel
    cases hr' : c'.resTable.get? b with
    | none => rfl
    | some r' =>
      rw [hr'] at hrel
      exact nomatch hrel
  | some r =>
    obtain ⟨r', hr', rfl⟩ := optionRel_some hrel hr
    rw [hr', map_some, map_some]

/-! ### Agreement -/

/-- The end of a job as the daemon has it on record. -/
structure Job.SameEnd (j j' : Job) : Prop where
  state : j'.state = j.state
  exitcode : j'.exitcode = j.exitcode
  signal : j'.signal = j.signal
  failReason : j'.failReason = j.failReason
  finishTime : j'.finishTime = j.finishTime
  usage : j'.usage = j.usage
  pid : j'.pid = j.pid
  started : j'.internalState.started = j.internalState.started

/-- Two states in which the job at `a` has ended in the same way and the same amounts are in use. -/
structure SameEnd (a : Addr) (s s' : Server) : Prop where
  job : ∃ j j', s.jobTable.get? a = some j ∧ s'.jobTable.get? a = some j' ∧ j.SameEnd j'
  resources : ∀ b, (s'.resTable.get? b).map Resource.inUse = (s.resTable.get? b).map Resource.inUse

/-- The job is on record as having ended like this, without a finish time. -/
structure Job.EndedBy (j : Job) (w : ℤ) : Prop where
  finishTime : j.finishTime = 0
  state : j.state = (exitStatus w).state
  exitcode : j.exitcode = (exitStatus w).exitcode
  signal : (exitStatus w).signal.getD j.signal = j.signal
  failReason : (exitStatus w).failReason.getD j.failReason = j.failReason

/-- The handlers do the same with the record: the status word is a plain exit code, the process id
and the start flag are reset already, and there is nothing to give back. A record without a finish
time has to say what is on record already. -/
structure Completion.Plain (d : Completion) (c : Core) (j : Job) : Prop where
  status : if d.finishTime ≠ 0 then 0 ≤ d.exitcode ∧ d.exitcode < 256 else j.EndedBy d.exitcode
  pid : j.pid = -1
  started : j.internalState.started = false
  resources : ∀ reqs, j.requirements = .ok reqs → ∀ b r, c.resTable.get? b = some r →
    givenBack b reqs r.inUse = r.inUse

/-- Only a plain exit code is what is taken out of it. -/
theorem exitStatus_exitcode_iff (w : ℤ) : (exitStatus w).exitcode = w ↔ 0 ≤ w ∧ w < 256 := by
  rw [exitStatus]
  split_ifs <;> dsimp only <;> omega

theorem exitStatus_of_plain {w : ℤ} (h : 0 ≤ w ∧ w < 256) : exitStatus w = { exitcode := w } := by
  rw [exitStatus, if_neg (by omega), if_neg (by omega), Int.emod_eq_of_lt h.1 h.2]

section

variable (d : Completion) (j : Job)

/-- The job after the entry of a record with a finish time. -/
theorem reconciled_entry_of_finished (h : d.finishTime ≠ 0) : ∃ i, j.reconciled d.entry = i ∧
    i.state = (if d.exitcode ≠ 0 then .exited else .completed) ∧ i.exitcode = d.exitcode ∧
    i.signal = j.signal ∧ i.failReason = j.failReason ∧ i.finishTime = d.finishTime ∧
    i.usage = d.usage ∧ i.pid = j.pid ∧ i.internalState = j.internalState := by
  refine ⟨_, rfl, ?_, ?_⟩
  · rw [Job.reconciled_state, if_neg (show ¬d.entry.pid ≠ 0 from not_not.mpr rfl),
      if_pos (show d.entry.finishTime ≠ 0 from h)]
    rfl
  · simp [Job.reconciled, Job.reconFinish, Job.changed, Completion.entry, h]

/-- The job after the entry of a record without one. -/
theorem reconciled_entry_of_unfinished (h : d.finishTime = 0) : ∃ i, j.reconciled d.entry = i ∧
    i.state = j.state ∧ i.exitcode = j.exitcode ∧
    i.signal = j.signal ∧ i.failReason = j.failReason ∧ i.finishTime = j.finishTime ∧
    i.usage = d.usage ∧ i.pid = j.pid ∧ i.internalState = j.internalState := by
  refine ⟨_, rfl, ?_⟩
  simp [Job.reconciled, Job.reconFinish, Completion.entry, h]

theorem reconciled_sameEnd_iff :
    (j.reconciled d.entry).SameEnd (j.ended d.exitcode d.finishTime d.usage) ↔
    (if d.finishTime ≠ 0 then 0 ≤ d.exitcode ∧ d.exitcode < 256 else j.EndedBy d.exitcode) ∧
      j.pid = -1 ∧ j.internalState.started = false := by
  by_cases hfinish : d.finishTime ≠ 0
  · obtain ⟨i, hi, hst, hexit, hsig, hfail, hfin, husage, hpid, hflags⟩ :=
      reconciled_entry_of_finished d j hfinish
    rw [hi, if_pos hfinish]
    constructor
    · intro h
      have hword : (exitStatus d.exitcode).exitcode = d.exitcode := h.exitcode.trans hexit
      have hgone : -1 = j.pid := h.pid.trans hpid
      have hflag : false = j.internalState.started :=
        h.started.trans (congrArg Flags.started hflags)
      exact ⟨(exitStatus_exitcode_iff _).mp hword, hgone.symm, hflag.symm⟩
    · rintro ⟨hplain, hgone, hflag⟩
      have hword := exitStatus_of_plain hplain
      refine ⟨?_, ?_, ?_, ?_, hfin.symm, husage.symm, ?_, ?_⟩
      · show (exitStatus d.exitcode).state = i.state
        rw [hst, hword, ExitStatus.state]
      · show (exitStatus d.exitcode).exitcode = i.exitcode
        rw [hexit, hword]
      · show (exitStatus d.exitcode).signal.getD j.signal = i.signal
        rw [hsig, hword, getD_none]
      · show (exitStatus d.exitcode).failReason.getD j.failReason = i.failReason
        rw [hfail, hword, getD_none]
      · exact (hpid.trans hgone).symm
      · rw [hflags, hflag]
        rfl
  · obtain ⟨i, hi, hst, hexit, hsig, hfail, hfin, husage, hpid, hflags⟩ :=
      reconciled_entry_of_unfinished d j (not_not.mp hfinish)
    rw [hi, if_neg hfinish]
    constructor
    · intro h
      have hflag : false = j.internalState.started :=
        h.started.trans (congrArg Flags.started hflags)
      refine ⟨⟨?_, (h.state.trans hst).symm, (h.exitcode.trans hexit).symm, h.signal.trans hsig,
        h.failReason.trans hfail⟩, (h.pid.trans hpid).symm, hflag.symm⟩
      exact (h.finishTime.trans hfin).symm.trans (not_not.mp hfinish)
    · rintro ⟨hended, hgone, hflag⟩
      refine ⟨hended.state.symm.trans hst.symm, hended.exitcode.symm.trans hexit.symm,
        hended.signal.trans hsig.symm, hended.failReason.trans hfail.symm, ?_, husage.symm,
        (hpid.trans hgone).symm, ?_⟩
      · exact (not_not.mp hfinish).trans (hended.finishTime.symm.trans hfin.symm)
      · rw [hflags, hflag]
        rfl

end

/-- A `RECON_RESP` message with one entry. -/
theorem recon_single_shift {env : Env} {g : Addr} {s s' : Server} {j : Job} {i : ReconItem} {rc : ℤ}
    (hfind : s.findJob i.jobid = some (a, j))
    (h : runAgentCommand env g (.recon [i]) s = .ok (rc, s')) :
    Shift a j (j.reconciled i) { slots := -reconFreed j i } s.toCore s'.toCore := by
  obtain ⟨t, hitems, htail⟩ := commandAgentRecon_items h
  obtain ⟨_, w, hitem, hnil⟩ := bind_ok_iff.mp hitems
  obtain ⟨-, rfl⟩ := pure_ok_iff.mp hnil
  obtain ⟨a', j', hfind', hshift⟩ := reconItem_shift hitem
  obtain ⟨rfl, rfl⟩ := Prod.mk.inj (mem_unique hfind hfind')
  rw [htail]
  exact hshift

/-- **When the two reports agree.** -/
theorem sameEnd_iff_plain {env : Env} {g a : Addr} {s s₁ s₂ : Server} {j : Job} {d : Completion}
    {rc₁ rc₂ : ℤ} (hfind : s.findJob d.jobid = some (a, j))
    (h₁ : runAgentCommand env g (.recon [d.entry]) s = .ok (rc₁, s₁))
    (h₂ : runAgentCommand env g d.report s = .ok (rc₂, s₂)) :
    SameEnd a s₁ s₂ ↔ d.Plain s.toCore j := by
  have hrecon := recon_single_shift (i := d.entry) hfind h₁
  obtain ⟨found, hfound, h₃⟩ := read_bind_ok_iff.mp h₂
  obtain rfl := hfind.symm.trans hfound
  obtain ⟨_, -, hdone⟩ := bind_pure_ok h₃
  have hj := (Table.find?_some hfind).1
  obtain ⟨k, hended, -, -, -, reqs, hreqs, hback⟩ := jobCompleted_shift hj hdone
  have hjob :
      (∃ j₁ j₂, s₁.jobTable.get? a = some j₁ ∧ s₂.jobTable.get? a = some j₂ ∧ j₁.SameEnd j₂) ↔
      (j.reconciled d.entry).SameEnd (j.ended d.exitcode d.finishTime d.usage) := by
    rw [hrecon.found', hended.found']
    simp
  have hres :
      (∀ b, (s₂.resTable.get? b).map Resource.inUse = (s₁.resTable.get? b).map Resource.inUse) ↔
      ∀ b r, s.resTable.get? b = some r → givenBack b reqs r.inUse = r.inUse := by
    refine forall_congr' fun b ↦ ?_
    rw [hended.inUse b, hrecon.inUse b]
    cases hr : s.resTable.get? b with
    | none => simp
    | some r => simp [← hback b r hr]
  constructor
  · rintro ⟨hsame, hamounts⟩
    obtain ⟨hstatus, hpid, hstarted⟩ := (reconciled_sameEnd_iff d j).mp (hjob.mp hsame)
    refine ⟨hstatus, hpid, hstarted, fun reqs' hreqs' ↦ ?_⟩
    obtain rfl := Except.ok.inj (hreqs.symm.trans hreqs')
    exact hres.mp hamounts
  · intro hplain
    exact ⟨hjob.mpr ((reconciled_sameEnd_iff d j).mpr ⟨hplain.status, hplain.pid, hplain.started⟩),
      hres.mpr (hplain.resources reqs hreqs)⟩

namespace Sample

/-- The job has been started and confirmed. -/
def running : List Event := startJob ++ [.agent 0 (.jobStarted 1 44 1001)]

/-- A job that was ended by signal 9. -/
def signalled : Completion where
  jobid := 1
  startTime := 1001
  exitcode := 2 ^ 25 + 9
  finishTime := 1005
  usage := fun _ ↦ 0

/-- A job that has completed. -/
def finished : Completion := { signalled with exitcode := 0 }

/-- The job is there, and both reports of a record are taken. -/
abbrev takesBoth (d : Completion) (p : Server → Server → Prop) (s : Server) : Prop :=
  (∃ r ∈ s.findJob d.jobid, r.1 = 0) ∧
    ∃ r₁ ∈ (runAgentCommand env 0 (.recon [d.entry]) s).toOption,
    ∃ r₂ ∈ (runAgentCommand env 0 d.report s).toOption, p r₁.2 r₂.2

theorem exists_of_takesBoth {d : Completion} {p : Server → Server → Prop} {s : Server}
    (h : takesBoth d p s) : ∃ j rc₁ s₁ rc₂ s₂, s.findJob d.jobid = some (0, j) ∧
      runAgentCommand env 0 (.recon [d.entry]) s = .ok (rc₁, s₁) ∧
      runAgentCommand env 0 d.report s = .ok (rc₂, s₂) ∧ p s₁ s₂ := by
  obtain ⟨⟨⟨a, j⟩, hfind, rfl⟩, r₁, h₁, r₂, h₂, hp⟩ := h
  exact ⟨j, r₁.1, r₁.2, r₂.1, r₂.2, hfind, Except.toOption_eq_some_iff.mp h₁,
    Except.toOption_eq_some_iff.mp h₂, hp⟩

end Sample

/-- The end by a signal is not told alike. -/
theorem not_sameEnd_signalled : ∃ s s₁ s₂ rc₁ rc₂ j, Runs anyEvent config hosts s ∧
    s.findJob signalled.jobid = some (0, j) ∧
    runAgentCommand env 0 (.recon [signalled.entry]) s = .ok (rc₁, s₁) ∧
    runAgentCommand env 0 signalled.report s = .ok (rc₂, s₂) ∧ ¬SameEnd 0 s₁ s₂ := by
  obtain ⟨s, hrun, hs⟩ := exists_runs anyEvent config hosts (events running)
    (takesBoth signalled fun t u ↦
      (t.jobTable.get? 0).map Job.exitcode = some (2 ^ 25 + 9) ∧
      (u.jobTable.get? 0).map Job.exitcode = some 137) (by decide +kernel)
  obtain ⟨j, rc₁, s₁, rc₂, s₂, hfind, h₁, h₂, hcodes⟩ := exists_of_takesBoth hs
  refine ⟨s, s₁, s₂, rc₁, rc₂, j, hrun, hfind, h₁, h₂, fun hsame ↦ ?_⟩
  obtain ⟨j₁, j₂, hj₁, hj₂, hend⟩ := hsame.job
  rw [hj₁, hj₂, map_some, map_some, Option.some.injEq, Option.some.injEq] at hcodes
  have habs := hend.exitcode
  rw [hcodes.1, hcodes.2] at habs
  exact absurd habs (by decide)

/-- A second report of a normal end is told alike. -/
theorem sameEnd_finished : ∃ s s₁ s₂ rc₁ rc₂ j, Runs anyEvent config hosts s ∧
    s.findJob finished.jobid = some (0, j) ∧
    runAgentCommand env 0 (.recon [finished.entry]) s = .ok (rc₁, s₁) ∧
    runAgentCommand env 0 finished.report s = .ok (rc₂, s₂) ∧ SameEnd 0 s₁ s₂ := by
  obtain ⟨s, hrun, ⟨r, hr, hpid, hflag, hcount⟩, hboth⟩ := exists_runs anyEvent config hosts
    (events (running ++ [.agent 0 (.jobCompleted 1 0 1005 fun _ ↦ 0)]))
    (fun s ↦ (∃ r ∈ s.findJob 1, r.2.pid = -1 ∧ r.2.internalState.started = false ∧
      r.2.resCount = 0) ∧ takesBoth finished (fun _ _ ↦ True) s) (by decide +kernel)
  obtain ⟨j, rc₁, s₁, rc₂, s₂, hfind, h₁, h₂, -⟩ := exists_of_takesBoth hboth
  obtain rfl := mem_unique hr hfind
  refine ⟨s, s₁, s₂, rc₁, rc₂, j, hrun, hfind, h₁, h₂,
    (sameEnd_iff_plain hfind h₁ h₂).mpr ⟨?_, hpid, hflag, ?_⟩⟩
  · rw [if_pos (by decide)]
    decide
  · intro reqs hreqs b r _
    obtain rfl := Except.ok.inj ((Job.requirements_of_resCount_zero hcount).symm.trans hreqs)
    rfl

end Jers
