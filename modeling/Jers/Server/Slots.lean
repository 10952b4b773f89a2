import Jers.Server.Counters

/-!
# Start slots

A job that is sent to its agent takes a slot: the scheduler raises `start_pending` on the server and
on the queue and flags the job. The slot is given back inside `changeJobState`, when a flagged job
is seen running or exited. `SlotsAgree` says that the counters are the numbers of jobs that are
flagged and have not been reported yet.

The slot is lost or given back twice when the flag is dropped on another way or outlives the report;
`slotsKept` excludes these events, and without them the agreement holds all along every run.
-/

namespace Jers

open Option Table Sample Job

/-- The job is flagged as started and no report has come back. -/
def Job.Slotted (j : Job) : Prop :=
  j.internalState.started = true ∧ j.history.awaiting = true

instance (j : Job) : Decidable j.Slotted := inferInstanceAs (Decidable (_ ∧ _))

/-- The contribution of a job to the counters. -/
def Job.slot (j : Job) : ℤ := if j.Slotted then 1 else 0

/-- The `start_pending` counters are the numbers of jobs that have a slot. -/
structure SlotsAgree (c : Core) : Prop where
  server : c.stats.startPending = c.jobTable.count Job.Slotted
  queues : ∀ b q, c.queueTable.get? b = some q →
    q.stats.startPending = c.jobTable.count fun j ↦ j.queue = b ∧ j.Slotted

variable {j j' : Job} {c c' : Core} {env : Env} {s : Server} {e : Event} {a : Addr} {k : Cost}
  {i : ReconItem} {l : Label}

/-- The counters are never negative. -/
theorem SlotsAgree.nonneg (h : SlotsAgree c) :
    0 ≤ c.stats.startPending ∧ ∀ b q, c.queueTable.get? b = some q → 0 ≤ q.stats.startPending := by
  refine ⟨?_, fun b q hq ↦ ?_⟩
  · rw [h.server]
    exact count_nonneg _
  · rw [h.queues b q hq]
    exact count_nonneg _

/-! ### States of jobs that have a slot -/

/-- A job that has a slot is pending or deleted, and an unknown job is not flagged. -/
structure Job.SlotStates (j : Job) : Prop where
  slotted : j.Slotted → j.state = .pending ∨ j.state = .cleared
  unknown : j.state = .unknown → j.internalState.started = false

/-- Every job is in a state that fits its slot. -/
def SlotStates (c : Core) : Prop := ∀ a j, c.jobTable.get? a = some j → j.SlotStates

theorem Job.SlotStates.of_not_started (h : j.internalState.started = false) : j.SlotStates :=
  ⟨fun hs ↦ absurd (h.symm.trans hs.1) nofun, fun _ ↦ h⟩

/-- An entry about the end or the start of a job takes its slot away; any other entry leaves the
state alone. -/
theorem Job.SlotStates.reconciled (h : j.SlotStates) (i : ReconItem) :
    (j.reconciled i).SlotStates := by
  refine ⟨fun hs ↦ ?_, fun hu ↦ ?_⟩
  · obtain ⟨hstarted, hawaiting⟩ := hs
    rw [reconciled_internalState] at hstarted
    rw [reconciled_history] at hawaiting
    simp only [Bool.and_eq_true, beq_iff_eq] at hawaiting
    obtain ⟨⟨hawaiting, hfinish⟩, hpid⟩ := hawaiting
    rw [reconciled_state, if_neg (not_not.mpr hpid), if_neg (not_not.mpr hfinish)]
    exact h.slotted ⟨hstarted, hawaiting⟩
  · rw [reconciled_state] at hu
    rw [reconciled_internalState]
    split_ifs at hu
    exact h.unknown hu

/-- **Shifts keep the states that fit.** -/
theorem Allowed.slotStates (h : Allowed env s e c (.shift a j j' k)) (hj : j.SlotStates) :
    j'.SlotStates := by
  cases h with
  | job _ hm =>
    cases hm with
    | modify _ _ hallow =>
      have hflag := JobMod.not_started hallow
      exact .of_not_started hflag
    | delete => exact ⟨fun _ ↦ .inr rfl, nofun⟩
    | kill _ _ hunknown => exact .of_not_started (hj.unknown hunknown)
    | setTag | delTag => exact ⟨hj.slotted, hj.unknown⟩
  | queue _ hm | res _ hm => cases hm
  | agent hm =>
    cases hm with
    | started | completed => exact .of_not_started rfl
    | recon => exact hj.reconciled _
  | lose => exact .of_not_started rfl
  | idle | captureJob | reapJob => exact ⟨hj.slotted, hj.unknown⟩
  | start _ _ _ hpend => exact ⟨fun _ ↦ .inl hpend, fun hu ↦ nomatch hpend.symm.trans hu⟩
  | release => exact ⟨fun _ ↦ .inl rfl, nofun⟩
  | expire => exact ⟨fun _ ↦ .inr rfl, nofun⟩

/-! ### What keeps the agreement -/

theorem SlotsAgree.initial (config : Config) (hosts : List Str) :
    SlotsAgree (Server.initial config hosts).toCore where
  server := rfl
  queues b q hq := absurd ((get?_empty b).symm.trans hq) (by simp)

/-- The counters follow the jobs if a shift takes the slots that the job has more than before. -/
theorem follows_slotted {n : ℤ} (hn : n = j'.slot - j.slot)
    (hq : j'.queue = j.queue ∨ ¬ j.Slotted ∧ ¬ j'.Slotted) :
    Follows (·.startPending) Job.Slotted j j' n := by
  refine ⟨fun t t' hmoved ↦ ?_, fun b q q' hmoved ↦ ?_⟩
  · rw [hmoved.slots, hn, slot, slot]
    ring
  · rw [hmoved.slots, hn]
    rcases hq with hq | ⟨hj, hj'⟩
    · rw [hq]
      by_cases hb : j.queue = b
      · simp only [hb, true_and, if_true, slot]
        ring
      · simp [hb]
    · simp [slot, hj, hj']

/-! ### The condition -/

/-- A reconciliation entry gives the slot of a job back exactly once. For a job that has a slot, an
entry that it has finished carries an exit code or a process id but not both; for a job whose flag
has outlived the report, an entry does not change the state to running or exited. -/
def ReconItem.keepsSlot (i : ReconItem) (j : Job) : Bool :=
  !j.internalState.started ||
    if j.history.awaiting then i.finishTime == 0 || (i.exitcode != 0) == (i.pid == 0)
    else if i.finishTime == 0 then i.pid == 0 || j.state = .running
    else i.pid == 0 && (i.exitcode == 0 || j.state = .exited)

/-- The event drops no flag of a job that has a slot and does not count a slot down twice. -/
def slotsKept : Condition
  | s, (_, .agent _ (.jobStarted jobid _ _)) =>
    (s.findJob jobid).all fun r ↦
      !r.2.internalState.started || r.2.history.awaiting || r.2.state = .running
  | s, (_, .agent _ (.jobCompleted jobid exitcode _ _)) =>
    (s.findJob jobid).all fun r ↦ !r.2.internalState.started ||
        if r.2.history.awaiting then (exitStatus exitcode).exitcode != 0
        else (exitStatus exitcode).exitcode == 0 || r.2.state = .exited
  | s, (_, .agent _ (.recon items)) =>
    decide (items.map ReconItem.jobid).Nodup &&
      items.all fun i ↦ (s.findJob i.jobid).all fun r ↦ i.keepsSlot r.2
  | s, (_, .disconnect g) =>
    s.jobTable.all fun _ j ↦
      !decide j.Slotted || (s.queueTable.get? j.queue).all fun q ↦ q.agent != some g
  | s, (_, .cleanupJobs _) | s, (_, .client _ (.addJob _)) =>
    s.jobTable.all fun _ j ↦ !decide j.Removable || !decide j.Slotted
  | s, (_, .client _ (.addQueue qa)) =>
    (s.deletedQueue qa).all fun b ↦ s.jobTable.all fun _ j ↦ j.queue != b || !decide j.Slotted
  | _, _ => true

/-! ### Slots of the single shifts -/

theorem Job.slot_of_not_started (h : j.internalState.started = false) : j.slot = 0 := by
  simp [slot, Slotted, h]

theorem slotsFreed_none (j : Job) (st : JobState) : slotsFreed j st none =
    if j.state ≠ st ∧ (st = .running ∨ st = .exited) ∧
      j.internalState.started = true then 1 else 0 := by
  simp [slotsFreed]

/-- A job that has a slot is neither running nor exited. -/
theorem Job.SlotStates.ne_of_slotted (h : j.SlotStates) (hs : j.Slotted) :
    j.state ≠ .running ∧ j.state ≠ .exited := by
  rcases h.slotted hs with hst | hst <;> rw [hst] <;> decide

/-- The slot of a job that is reported started. -/
theorem slot_confirmed {pid startTime : ℤ} (hj : j.SlotStates)
    (hgood : (!j.internalState.started || j.history.awaiting || j.state = .running) = true) :
    -slotsFreed j .running none = (j.confirmed pid startTime).slot - j.slot := by
  have hnew : (j.confirmed pid startTime).slot = 0 := slot_of_not_started rfl
  rw [hnew, slotsFreed_none]
  cases hflag : j.internalState.started with
  | false => simp [slot_of_not_started hflag]
  | true =>
    cases hwait : j.history.awaiting with
    | true =>
      have hs : j.Slotted := ⟨hflag, hwait⟩
      simp [slot, hs, (hj.ne_of_slotted hs).1]
    | false =>
      have hrun : j.state = .running := by simpa [hflag, hwait] using hgood
      simp [slot, Job.Slotted, hwait, hrun]

/-- The slot of a job that is reported completed. -/
theorem slot_ended {exitcode finishTime : ℤ} {usage : Usage} (hj : j.SlotStates)
    (hgood : (!j.internalState.started ||
      if j.history.awaiting then (exitStatus exitcode).exitcode != 0
      else (exitStatus exitcode).exitcode == 0 || j.state = .exited) = true) :
    -slotsFreed j (exitStatus exitcode).state none =
      (j.ended exitcode finishTime usage).slot - j.slot := by
  have hnew : (j.ended exitcode finishTime usage).slot = 0 := slot_of_not_started rfl
  rw [hnew, slotsFreed_none, ExitStatus.state]
  cases hflag : j.internalState.started with
  | false => simp [slot_of_not_started hflag]
  | true =>
    cases hwait : j.history.awaiting with
    | true =>
      have hs : j.Slotted := ⟨hflag, hwait⟩
      have hexit : (exitStatus exitcode).exitcode ≠ 0 := by simpa [hflag, hwait] using hgood
      simp [slot, hs, (hj.ne_of_slotted hs).2, hexit]
    | false =>
      have hexit : (exitStatus exitcode).exitcode = 0 ∨ j.state = .exited := by
        simpa [hflag, hwait] using hgood
      rcases hexit with hexit | hexit
      · simp [slot, Job.Slotted, hwait, hexit]
      · by_cases hzero : (exitStatus exitcode).exitcode = 0 <;>
          simp [slot, Job.Slotted, hwait, hexit, hzero]

/-- What an entry gives back, for a flagged job. -/
theorem reconFreed_of_started (hflag : j.internalState.started = true) : reconFreed j i =
      (if i.finishTime ≠ 0 ∧ i.exitcode ≠ 0 ∧ j.state ≠ .exited then 1 else 0) +
      if i.pid ≠ 0 ∧ (i.finishTime ≠ 0 ∨ j.state ≠ .running) then 1 else 0 := by
  have hkeep : (j.reconFinish i).internalState.started = true := by
    rw [← hflag]
    simp only [reconFinish, changed]
    split_ifs <;> rfl
  have hstate : (j.reconFinish i).state = if i.finishTime ≠ 0 then
      if i.exitcode ≠ 0 then .exited else .completed else j.state := by
    simp only [reconFinish, changed]
    split_ifs <;> rfl
  rw [reconFreed, slotsFreed_none, slotsFreed_none, hstate]
  by_cases hf : i.finishTime = 0 <;> by_cases hp : i.pid = 0 <;> by_cases hx : i.exitcode = 0 <;>
    simp [hf, hp, hx, hflag, hkeep]

theorem reconFreed_of_not_started (hflag : j.internalState.started = false) :
    reconFreed j i = 0 := by
  have hkeep : (j.reconFinish i).internalState.started = false := by
    rw [← hflag]
    simp only [reconFinish, changed]
    split_ifs <;> rfl
  simp [reconFreed, slotsFreed_of_not_started hflag, slotsFreed_of_not_started hkeep]

/-- The slot of a job after a reconciliation entry. -/
theorem slot_reconciled (hj : j.SlotStates) (hgood : i.keepsSlot j = true) :
    -reconFreed j i = (j.reconciled i).slot - j.slot := by
  cases hflag : j.internalState.started with
  | false =>
    have hnew : (j.reconciled i).internalState.started = false := by
      rw [reconciled_internalState, hflag]
    rw [reconFreed_of_not_started hflag, slot_of_not_started hflag, slot_of_not_started hnew]
    rfl
  | true =>
    have hnew : (j.reconciled i).Slotted ↔
        j.history.awaiting = true ∧ i.finishTime = 0 ∧ i.pid = 0 := by
      simp [Job.Slotted, reconciled_history, hflag, and_assoc]
    rw [reconFreed_of_started hflag, slot, if_congr hnew rfl rfl, slot]
    cases hwait : j.history.awaiting with
    | true =>
      have hs : j.Slotted := ⟨hflag, hwait⟩
      obtain ⟨hrun, hexited⟩ := hj.ne_of_slotted hs
      have hreport : i.finishTime = 0 ∨ (i.exitcode ≠ 0 ↔ i.pid = 0) := by
        simp only [ReconItem.keepsSlot, hflag, hwait, Bool.not_true, Bool.false_or, if_true,
          Bool.or_eq_true, beq_iff_eq] at hgood
        refine hgood.imp_right fun heq ↦ ?_
        rw [← bne_iff_ne, heq, beq_iff_eq]
      by_cases hf : i.finishTime = 0
      · by_cases hp : i.pid = 0 <;> simp [hf, hp, hs, hrun]
      · have hiff := hreport.resolve_left hf
        by_cases hp : i.pid = 0
        · simp [hf, hp, hs, hiff.mpr hp, hexited]
        · have hx : i.exitcode = 0 := not_not.mp fun hx ↦ hp (hiff.mp hx)
          simp [hf, hp, hs, hx]
    | false =>
      have hs : ¬ j.Slotted := by simp [Job.Slotted, hwait]
      simp only [ReconItem.keepsSlot, hflag, hwait, Bool.not_true, Bool.false_or] at hgood
      by_cases hf : i.finishTime = 0 <;> by_cases hp : i.pid = 0 <;> by_cases hx :
        i.exitcode = 0 <;>
        simp_all

/-! ### Runs -/

theorem slotted_of_all {t : Table Job} {p : Job → Bool}
    (h : t.all (fun _ j ↦ !p j || !decide j.Slotted) = true) (hj : t.get? a = some j)
    (hp : p j = true) : ¬ j.Slotted := by
  simpa [hp] using all_iff.mp h a j hj

/-- **The slots of a shift.** Under the condition a shift takes as many slots as the job has more
than before, and a job that changes its queue has none. -/
theorem Allowed.slots (hgood : slotsKept s (env, e) = true)
    (h : Allowed env s e c (.shift a j j' k)) (hj : j.SlotStates) :
    k.slots = j'.slot - j.slot ∧ (j'.queue = j.queue ∨ ¬ j.Slotted ∧ ¬ j'.Slotted) := by
  have hsame (j₁ : Job) (hf : j₁.internalState.started = j.internalState.started)
      (hw : j₁.history.awaiting = j.history.awaiting) : (0 : ℤ) = j₁.slot - j.slot := by
    have hiff : j₁.Slotted ↔ j.Slotted := by rw [Job.Slotted, Job.Slotted, hf, hw]
    rw [slot, slot, if_congr hiff rfl rfl, sub_self]
  cases h with
  | job _ hm =>
    cases hm with
    | @modify mj _ _ q new _ _ _ _ hallow _ _ hslots =>
      have hflag := JobMod.not_started hallow
      have hflag' : (j.modified mj q new).internalState.started = false := hflag
      refine ⟨?_, .inr ⟨?_, ?_⟩⟩
      · rw [hslots, slot_of_not_started hflag, slot_of_not_started hflag']
        rfl
      · simp [Job.Slotted, hflag]
      · simp [Job.Slotted, hflag']
    | delete | setTag | delTag => exact ⟨hsame _ rfl rfl, .inl rfl⟩
    | @kill js _ _ _ _ _ hunknown hslots =>
      have hflag := hj.unknown hunknown
      refine ⟨?_, .inl rfl⟩
      rw [hslots, slotsFreed_of_not_started hflag, neg_zero]
      exact hsame _ rfl rfl
  | queue _ hm | res _ hm => cases hm
  | agent hm =>
    cases hm with
    | started hfound =>
      simp only [slotsKept, hfound, all_some] at hgood
      exact ⟨slot_confirmed hj hgood, .inl rfl⟩
    | completed hfound hslots =>
      simp only [slotsKept, hfound, all_some] at hgood
      exact ⟨hslots.trans (slot_ended hj hgood), .inl rfl⟩
    | @recon _ i _ _ _ hi _ hfound =>
      simp only [slotsKept, Bool.and_eq_true, decide_eq_true_eq, List.all_eq_true] at hgood
      have hitem := hgood.2 i hi
      rw [hfound hgood.1, all_some] at hitem
      exact ⟨slot_reconciled hj hitem, .inl (reconciled_queue _ _)⟩
  | lose hget hq hagent =>
    have hnot : ¬ j.Slotted := by
      simp only [slotsKept] at hgood
      simpa [hq, hagent] using all_iff.mp hgood a j hget
    have hold : j.slot = 0 := if_neg hnot
    have hnew : j.lost.slot = 0 := slot_of_not_started rfl
    refine ⟨?_, .inl rfl⟩
    rw [hold, hnew]
    rfl
  | idle | release | expire | captureJob | reapJob => exact ⟨hsame _ rfl rfl, .inl rfl⟩
  | start _ _ _ _ hflag =>
    refine ⟨?_, .inl rfl⟩
    have hnew (reqs : List JobResource) : (j.begun reqs).slot = 1 := if_pos ⟨rfl, rfl⟩
    rw [slot_of_not_started hflag, hnew]
    rfl

/-- **A move keeps the agreement** under the condition. -/
theorem SlotsAgree.move (hgood : slotsKept s (env, e) = true) (h : SlotsAgree c)
    (hst : SlotStates c) (hk : KnownQueues c) (hl : Allowed env s e c l) (hm : Move l c c') :
    SlotsAgree c' := by
  have hnone (i : Job) (hi : i.internalState = {}) : ¬ i.Slotted := by simp [Job.Slotted, hi]
  have htallied : Tallied (·.startPending) Job.Slotted (· = 0) (· = 0) c' := by
    refine Tallied.move (c := c) ⟨sub_eq_zero.mpr h.server, fun b q hq ↦
      sub_eq_zero.mpr (h.queues b q hq)⟩ hm ?_ ?_ ?_ fun hobj b q' hq' ↦ ?_
    · rintro a j j' k (rfl | rfl)
      · obtain ⟨hslots, hqueue⟩ := hl.slots hgood (hst a j hm.shifted.found)
        exact follows_slotted hslots hqueue
      · obtain ⟨_, _, _, hsub⟩ := hl.submitted
        cases hsub
        refine follows_slotted ?_ (.inl rfl)
        rw [slot, slot, if_neg (hnone _ rfl), if_neg (hnone _ rfl)]
        rfl
    · rintro j j' k rfl
      obtain ⟨_, _, _, hsub⟩ := hl.submitted
      cases hsub
      exact hnone _ rfl
    · rintro a j rfl hj
      obtain ⟨hget, hrem, ⟨_, _, rfl⟩ | ⟨_, rfl⟩⟩ := hl.removed
      all_goals exact absurd hj (slotted_of_all (p := fun j ↦ decide j.Removable)
        hgood hget (decide_eq_true hrem))
    · refine (hl.queue_stats hk hm hobj hq').imp_right fun ⟨hzero, hwhere⟩ ↦ ?_
      rw [hzero, Table.count_eq_zero, sub_zero]
      rintro a j hj ⟨hjb, hjs⟩
      rcases hwhere with hnew | ⟨cl, qa, rfl, rfl, hold⟩
      · exact hnew a j hj hjb
      · simp only [slotsKept, hold, all_some] at hgood
        exact absurd hjs (by simpa [hjb] using all_iff.mp hgood a j hj)
  exact ⟨sub_eq_zero.mp htallied.server, fun b q hq ↦ sub_eq_zero.mp (htallied.queues b q hq)⟩

/-- **Fitting states stay fitting.** -/
theorem SlotStates.move (h : SlotStates c) (hl : Allowed env s e c l) (hm : Move l c c') :
    SlotStates c' := by
  refine hm.jobs_all (P := fun _ j ↦ j.SlotStates) h (fun a j j' k hshift hj ↦ ?_)
    fun j j' k hadd ↦ ?_
  · subst hshift
    exact hl.slotStates hj
  · subst hadd
    obtain ⟨_, _, _, hsub⟩ := hl.submitted
    cases hsub
    exact .of_not_started rfl

/-- **A job whose start is awaited is pending or deleted**, and an unknown job is not flagged as
started, whatever happens. -/
theorem slotStates_of_runs {config : Config} {hosts : List Str} {s : Server}
    (h : Runs anyEvent config hosts s) : SlotStates s.toCore :=
  h.core_invariant (fun _ _ hc hl hm ↦ hc.move hl hm) fun a j hj ↦
    absurd ((get?_empty a).symm.trans hj) (by simp)

/-- One job whose start is awaited. -/
theorem slotStates_of_runs_started : ∃ s, Runs anyEvent config hosts s ∧
    s.jobTable.count Job.Slotted = 1 ∧ SlotStates s.toCore := by
  obtain ⟨s, hrun, hp⟩ := exists_runs anyEvent config hosts (events Sample.startJob)
    (fun s ↦ s.jobTable.count Job.Slotted = 1) (by decide +kernel)
  exact ⟨s, hrun, hp, slotStates_of_runs hrun⟩

/-- **Start slots are never lost nor given back twice**, in every state of every run whose events
meet the condition. -/
theorem slotsAgree_of_runs {config : Config} {hosts : List Str} {s : Server}
    (h : Runs slotsKept config hosts s) :
    SlotsAgree s.toCore ∧ 0 ≤ s.stats.startPending ∧
      ∀ b q, s.queueTable.get? b = some q → 0 ≤ q.stats.startPending := by
  have hall : SlotsAgree s.toCore ∧ SlotStates s.toCore ∧ KnownQueues s.toCore := by
    refine h.core_invariant (I := fun c ↦ SlotsAgree c ∧ SlotStates c ∧ KnownQueues c)
      (fun hgood _ hc hl hm ↦ ?_) ?_
    · exact ⟨hc.1.move hgood hc.2.1 hc.2.2 hl hm, hc.2.1.move hl hm, hc.2.2.move hl hm⟩
    · exact ⟨.initial config hosts,
        fun a j hj ↦ absurd ((get?_empty a).symm.trans hj) (by simp), .initial config hosts⟩
  exact ⟨hall.1, hall.1.nonneg⟩

/-! ### A run that leaks a slot -/

/-- The agent of a job that has been sent out disconnects before it reports the start: the flag goes
with the other bits of `internal_state`, and the slot is never given back. -/
theorem not_slotsAgree_disconnect :
    ∃ s, Runs anyEvent config hosts s ∧ ¬ SlotsAgree s.toCore := by
  obtain ⟨s, hrun, hp⟩ := exists_runs anyEvent config hosts
    (events (Sample.startJob ++ [.disconnect 0]))
    (fun s ↦ s.stats.startPending ≠ s.jobTable.count Job.Slotted) (by decide +kernel)
  exact ⟨s, hrun, fun h ↦ hp h.server⟩

/-- One job that runs and one that waits for its start to be reported. -/
theorem slotsAgree_of_runs_one_running :
    ∃ s, Runs slotsKept config hosts s ∧ s.stats.startPending = 1 ∧
      s.stats.running = 1 ∧ SlotsAgree s.toCore := by
  obtain ⟨s, hrun, hp⟩ := exists_runs slotsKept config hosts
    (events (Sample.startJob ++
      [.agent 0 (.jobStarted 1 42 1000), .client root Sample.addJob, .checkJobs]))
    (fun s ↦ s.stats.startPending = 1 ∧ s.stats.running = 1) (by decide +kernel)
  exact ⟨s, hrun, hp.1, hp.2, (slotsAgree_of_runs hrun).1⟩

end Jers
