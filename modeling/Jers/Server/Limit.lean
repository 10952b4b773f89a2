import Jers.Server.Slots

/-!
# The limit on running jobs

`checkJobs` keeps to `max_run_jobs` by three tests: it returns early when that many jobs run, it
starts at most as many jobs as there is room beside the running ones, and it starts a job only if
the running jobs and those being started do not exceed the limit already. The second test does not
see the jobs that earlier passes have sent out, and the third one lets a job through when the limit
is reached exactly. `limitKept` names the passes in which the tests suffice.
-/

namespace Jers

open Exec Sample

/-- The jobs that run and those that are being started are within the limit. -/
def WithinLimit (c : Core) : Prop :=
  c.config.maxRunJobs = -1 ∨ c.stats.running + c.stats.startPending ≤ c.config.maxRunJobs

instance (c : Core) : Decidable (WithinLimit c) := inferInstanceAs (Decidable (_ ∨ _))

/-- What a number of starts does: each of them takes a slot and one of the jobs that wait. -/
structure Starts (n : ℕ) (c c' : Core) : Prop where
  running : c'.stats.running = c.stats.running
  slots : c'.stats.startPending = c.stats.startPending + n
  waiting : c'.jobTable.count Job.Startable + n = c.jobTable.count Job.Startable
  config : c'.config = c.config

theorem Starts.refl (c : Core) : Starts 0 c c := ⟨rfl, by simp, by simp, rfl⟩

variable {c c' : Core} {n : ℕ} {a : Addr}

theorem Starts.trans {m : ℕ} {c'' : Core} (h : Starts m c c') (h' : Starts n c' c'') :
    Starts (m + n) c c'' where
  running := h'.running.trans h.running
  slots := by
    rw [h'.slots, h.slots]
    push_cast
    ring
  waiting := by
    rw [← h.waiting, ← h'.waiting]
    push_cast
    ring
  config := h'.config.trans h.config

/-- At most as many jobs are started as wait. -/
theorem Starts.le_waiting (h : Starts n c c') : (n : ℤ) ≤ c.jobTable.count Job.Startable := by
  have hnonneg := Table.count_nonneg (p := Job.Startable) c'.jobTable
  have hwaiting := h.waiting
  omega

/-- A shift that leaves the state alone, in terms of starts. -/
theorem Starts.of_shift {j j' : Job} {k : Cost} (hm : Shift a j j' k c c')
    (hstate : j'.state = j.state) (hslots : k.slots = n)
    (hwait : (if j'.Startable then 1 else 0) + (n : ℤ) = if j.Startable then 1 else 0) :
    Starts n c c' where
  running := by
    have hcount := hm.stats.count .running (by decide)
    rw [hstate] at hcount
    simpa [JobStats.count] using hcount
  slots := by rw [hm.stats.slots, hslots]
  waiting := by
    rw [hm.jobs, Table.count_modify _ hm.found]
    omega
  config := hm.config

variable {s s' : Server}

theorem Round.starts {b : Bool} (h : Round s a s' b) :
    Starts (if b then 1 else 0) s.toCore s'.toCore := by
  cases h with
  | skip _ _ heq => exact heq ▸ Starts.refl _
  | wait _ _ _ hshift => exact Starts.of_shift hshift rfl rfl (add_zero _)
  | @start j reqs hwaits _ _ hshift =>
    refine Starts.of_shift hshift rfl rfl ?_
    have hj' : ¬ (j.begun reqs).Startable := fun h ↦ nomatch h.2
    simp [hwaits, hj']

/-- **The number of starts in a pass**: at most `n`, though one start is not prevented. -/
theorem startFrom_starts {n k : ℤ} {pool : List (Option Addr)}
    (h : startFrom n k pool s = .ok ((), s')) :
    ∃ m : ℕ, Starts m s.toCore s'.toCore ∧ (m : ℤ) ≤ max 1 (n - k) := by
  induction pool generalizing k s with
  | nil =>
    obtain ⟨-, rfl⟩ := pure_ok_iff.mp h
    exact ⟨0, Starts.refl _, by simp⟩
  | cons x pool ih =>
    rcases startFrom_cons h with ⟨-, h₁⟩ | ⟨a, b, t, -, htry, ⟨rfl, -, rfl⟩ | ⟨hmore, h₁⟩⟩
    · exact ih h₁
    · exact ⟨1, (tryStart_round htry).starts, by simp⟩
    · obtain ⟨m, hrest, hm⟩ := ih h₁
      have hfirst := (tryStart_round htry).starts
      cases b with
      | false => exact ⟨m, by simpa using hfirst.trans hrest, hm⟩
      | true =>
        simp only [true_and, if_true] at hmore hm
        exact ⟨1 + m, hfirst.trans hrest, by push_cast; omega⟩

/-- The room that a pass counts with is no more than there is beside the running jobs. -/
theorem jobsToStart_le (hM : s.config.maxRunJobs ≠ -1)
    (hroom : s.stats.running < s.config.maxRunJobs) :
    max 1 (jobsToStart s - 0) ≤ s.config.maxRunJobs - s.stats.running := by
  have hmod : (s.config.maxRunJobs - s.stats.running) % 2 ^ 32 ≤
      s.config.maxRunJobs - s.stats.running := by omega
  refine max_le (by omega) ?_
  rw [sub_zero, jobsToStart]
  split
  · exact hmod
  · next hpool => exact not_lt.mp fun hlt ↦ hpool ⟨hM, hlt⟩

/-- **What a pass does**: it starts jobs that wait, and with a limit no more than there is room for
beside the running ones. -/
theorem checkJobs_starts (h : checkJobs s = .ok ((), s')) : ∃ m : ℕ, Starts m s.toCore s'.toCore ∧
      (s.config.maxRunJobs = -1 ∨ m = 0 ∨
        s.stats.running < s.config.maxRunJobs ∧ m ≤ s.config.maxRunJobs - s.stats.running) := by
  rcases checkJobs_cases h with ⟨-, rfl⟩ | ⟨hroom, t, ⟨n, pool, recalc, rfl⟩, -, -, ⟨-, htag⟩ |
    ⟨-, hstart⟩⟩
  · exact ⟨0, Starts.refl _, .inr (.inl rfl)⟩
  · -- in readonly mode nothing is started
    have hstarts :=
      each_rel (R := fun t t' : Server ↦ Starts 0 t.toCore t'.toCore) (fun _ ↦ Starts.refl _)
      (fun h h' ↦ h.trans h') (fun x _ u u' hround ↦ ?_) htag
    · exact ⟨0, hstarts, .inr (.inl rfl)⟩
    rcases tagReadonly_cases hround with rfl | ⟨a, j, -, -, hshift, -⟩
    · exact Starts.refl _
    · exact Starts.of_shift hshift rfl rfl (add_zero _)
  · obtain ⟨m, hstarts, hm⟩ := startFrom_starts hstart
    refine ⟨m, hstarts, ?_⟩
    by_cases hM : s.config.maxRunJobs = -1
    · exact .inl hM
    · have hlt : s.stats.running < s.config.maxRunJobs := not_le.mp fun hle ↦ hroom ⟨hM, hle⟩
      exact .inr (.inr ⟨hlt, hm.trans (jobsToStart_le hM hlt)⟩)

/-! ### Runs of passes and reports -/

/-- Scheduler passes and reports of starts and completions. A pass is made when no job is being
started, or when the jobs that wait all fit beside the running ones and those being started; a
start is reported of a job that has been sent out or runs already. -/
def limitKept : Condition
  | s, (_, .checkJobs) =>
    s.stats.startPending ≤ 0 ||
      s.stats.running + s.stats.startPending + s.jobTable.count Job.Startable ≤ s.config.maxRunJobs
  | s, (_, .agent _ (.jobStarted jobid _ _)) =>
    (s.findJob jobid).all fun r ↦ r.2.internalState.started || r.2.state = .running
  | _, (_, .agent _ (.jobCompleted ..)) => true
  | _, _ => false

/-- A pass under the condition keeps to the limit. -/
theorem checkJobs_withinLimit (hlimit : WithinLimit s.toCore)
    (hgood : (s.stats.startPending ≤ 0 || s.stats.running + s.stats.startPending +
      s.jobTable.count Job.Startable ≤ s.config.maxRunJobs) = true)
    (h : checkJobs s = .ok ((), s')) : WithinLimit s'.toCore := by
  obtain ⟨m, hstarts, hm⟩ := checkJobs_starts h
  rw [WithinLimit, hstarts.running, hstarts.slots, hstarts.config]
  rw [Bool.or_eq_true, decide_eq_true_eq, decide_eq_true_eq] at hgood
  have hwait := hstarts.le_waiting
  rcases hlimit with hM | hlimit
  · exact .inl hM
  rcases hm with hM | rfl | ⟨hlt, hm⟩
  · exact .inl hM
  · exact .inr (by simpa using hlimit)
  · right
    rcases hgood with hgood | hgood
    · omega
    · omega

/-- A shift that does not raise the sum of the two counters. -/
theorem WithinLimit.shift {j j' : Job} {k : Cost} (h : WithinLimit c) (hm : Shift a j j' k c c')
    (hle : (if j'.state = .running then 1 else 0) + k.slots ≤ if j.state = .running then 1 else 0) :
    WithinLimit c' := by
  have hcount : c'.stats.running = c.stats.running - (if j.state = .running then 1 else 0) +
        if j'.state = .running then 1 else 0 := hm.stats.count .running (by decide)
  rw [WithinLimit, hm.config, hcount, hm.stats.slots]
  refine h.imp_right fun hlimit ↦ ?_
  omega

theorem slotsFreed_nonneg (j : Job) (st : JobState) (q : Option Addr) : 0 ≤ slotsFreed j st q := by
  rw [slotsFreed]
  split <;> decide

/-- A report under the condition keeps to the limit. -/
theorem Allowed.withinLimit {env : Env} {t : Server} {g : Addr} {m : AgentMsg} {l : Label}
    (hgood : limitKept t (env, .agent g m) = true) (hl : Allowed env t (.agent g m) c l)
    (hm : Move l c c') (hlimit : WithinLimit c) : WithinLimit c' := by
  cases hl with
  | agent ha =>
    cases ha with
    | link | recon => contradiction
    | @started _ _ _ a j hfound =>
      simp only [limitKept, hfound, Option.all_some, Bool.or_eq_true, decide_eq_true_eq] at hgood
      refine hlimit.shift hm ?_
      -- the slot becomes a running job, unless the job runs already
      change (1 : ℤ) + -slotsFreed j .running none ≤ _
      rw [slotsFreed_none]
      by_cases hrun : j.state = .running
      · simp [hrun]
      · simp [hrun, hgood.resolve_right hrun]
    | @completed _ exitcode _ _ a j _ hfound hslots =>
      refine hlimit.shift hm ?_
      have hend : (exitStatus exitcode).state ≠ .running := by
        rw [ExitStatus.state]
        split <;> decide
      have hfreed := slotsFreed_nonneg j (exitStatus exitcode).state none
      rw [hslots]
      change (if (exitStatus exitcode).state = .running then 1 else 0) + _ ≤ _
      rw [if_neg hend]
      split <;> omega

/-- **The limit is respected.** From any reachable state within the limit, every run of passes and
reports whose events meet the condition stays within it. -/
theorem withinLimit_of_run {config : Config} {hosts : List Str} {s₀ s : Server}
    (h₀ : Runs anyEvent config hosts s₀) (hlimit : WithinLimit s₀.toCore)
    (h : Run Step (fun t e ↦ limitKept t e = true) s₀ s) : WithinLimit s.toCore := by
  have hrec : s₀.recovery = none :=
    h₀.core_invariant (I := fun c ↦ c.recovery = none)
      (fun _ _ hc _ hm ↦ hm.frame.recovery.trans hc) rfl
  have hall : s.recovery = none ∧ WithinLimit s.toCore := by
    refine h.invariant (I := fun t ↦ t.recovery = none ∧ WithinLimit t.toCore)
      (fun {t e u} ht hgood hstep ↦ ?_) ⟨hrec, hlimit⟩
    refine ⟨handle_recovery ht.1 hstep, ?_⟩
    obtain ⟨env, e⟩ := e
    cases e with
    | checkJobs => exact checkJobs_withinLimit ht.2 hgood hstep
    | agent g m =>
      exact (handle_path ht.1 hstep).invariant (I := WithinLimit)
        (fun hc hl hm ↦ hl.withinLimit hgood hm hc) ht.2
    | _ => exact nomatch hgood
  exact hall.2

/-! ### A run beyond the limit -/

/-- The limit of one job. -/
def Sample.oneJob : Config := { maxJobid := 100, maxRunJobs := 1 }

/-- With a limit of one, a second pass before the first start has been reported starts a second
job. -/
theorem not_withinLimit_two_passes :
    ∃ s s', Runs anyEvent oneJob hosts s ∧ WithinLimit s.toCore ∧
      checkJobs s = .ok ((), s') ∧ ¬ WithinLimit s'.toCore := by
  obtain ⟨s, hrun, hlimit, s', hs', hnot⟩ := exists_runs anyEvent oneJob hosts
    (events (Sample.startJob ++ [.client root Sample.addJob]))
    (fun s ↦ WithinLimit s.toCore ∧ ∃ s' ∈ after (Sample.env, .checkJobs) s, ¬WithinLimit s'.toCore)
    (by decide +kernel)
  exact ⟨s, s', hrun, hlimit, step_of_after hs', hnot⟩

/-- With the limit of one, a job is sent out and runs, and a second one that waits is not started by
the passes. -/
theorem withinLimit_of_run_waiting :
    ∃ s₀ s, Runs anyEvent oneJob hosts s₀ ∧
      Run Step (fun t e ↦ limitKept t e = true) s₀ s ∧ s.stats.running = 1 ∧ s.stats.pending = 1 ∧
      WithinLimit s.toCore := by
  obtain ⟨s₀, hrun₀, hlimit, s, hs, hrunning, hpending⟩ := exists_runs anyEvent oneJob hosts
    (events (Sample.startJob ++ [.client root Sample.addJob]))
    (fun s ↦ WithinLimit s.toCore ∧ ∃ s' ∈ runEvents limitKept
      (events [.agent 0 (.jobStarted 1 42 1000), .checkJobs, .checkJobs]) s,
      s'.stats.running = 1 ∧ s'.stats.pending = 1) (by decide +kernel)
  have hrun := run_of_runEvents hs
  exact ⟨s₀, s, hrun₀, hrun, hrunning, hpending, withinLimit_of_run hrun₀ hlimit hrun⟩

end Jers
