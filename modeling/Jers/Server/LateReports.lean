import Jers.Server.Flushing

/-!
# Late reports

A job whose agent has gone is unknown, and the user may restart, kill or delete it then. The agent
can come back later and report on the execution from before. The daemon has no number for
executions, so a report carries no sign of being late; `WatchStep` marks it in the label of the
event. The ghost `decided` is what the user and the scheduler have made of the job: it follows the
job at every event, but not at a late report.

`view_of_watch` says that the job stays as decided if the late reports agree with what the job
already is. The handlers do not check that.
-/

namespace Jers

open Option Bool Sample

/-- What the user decides: the state of a job, its times, its exit code and whether it is
deleted. -/
structure View where
  state : JobState
  startTime : ℤ
  finishTime : ℤ
  exitcode : ℤ
  deleted : Bool
  deriving DecidableEq

def Job.view (j : Job) : View where
  state := j.state
  startTime := j.startTime
  finishTime := j.finishTime
  exitcode := j.exitcode
  deleted := j.internalState.deleted

def Core.viewOf (c : Core) (a : Addr) : Option View := (c.jobTable.get? a).map Job.view

/-- A server, and what has been decided about one of its jobs. -/
structure Watched where
  server : Server
  decided : Option View

/-- The reports on a job that has been started. -/
def Event.isReport : Event → Bool
  | .agent _ (.recon _) | .agent _ (.jobCompleted ..) => true
  | _ => false

/-- An event, marked if it is a report on an execution from before a decision on the job at `a`. -/
def WatchStep (a : Addr) (w : Watched) (e : Env × Event × Bool) (w' : Watched) : Prop :=
  Step w.server (e.1, e.2.1) w'.server ∧ (e.2.2 = true → e.2.1.isReport = true) ∧
    w'.decided = if e.2.2 then w.decided else w'.server.viewOf a

/-! ### The condition -/

/-- A completion that says what is already known. -/
def View.agreesEnd (v : View) (exitcode finishTime : ℤ) : Bool :=
  v.state = (exitStatus exitcode).state && v.exitcode = (exitStatus exitcode).exitcode &&
    v.finishTime = finishTime

/-- An entry of a `RECON_RESP` message that says what is already known: no other start, no other
end, and no process unless the job is running. -/
def View.agreesItem (v : View) (i : ReconItem) : Bool :=
  (i.startTime = 0 || v.startTime = i.startTime) &&
    (i.finishTime = 0 || v.finishTime = i.finishTime && v.exitcode = i.exitcode) &&
      if i.pid ≠ 0 then v.state = .running
      else i.finishTime = 0 || v.state = if i.exitcode ≠ 0 then .exited else .completed

/-- A late report on the job agrees with what the job is. -/
def lateKept (a : Addr) : Server → Env × Event × Bool → Bool
  | s, (_, .agent _ (.jobCompleted jobid exitcode finishTime _), true) =>
    (s.jobTable.get? a).all fun j ↦ j.jobid != jobid || j.view.agreesEnd exitcode finishTime
  | s, (_, .agent _ (.recon items), true) =>
    (s.jobTable.get? a).all fun j ↦ items.all fun i ↦ j.jobid != i.jobid || j.view.agreesItem i
  | _, _ => true

/-! ### Reports that agree -/

theorem Job.view_ended {j : Job} {exitcode finishTime : ℤ} (usage : Usage)
    (h : j.view.agreesEnd exitcode finishTime = true) :
    (j.ended exitcode finishTime usage).view = j.view := by
  simp only [View.agreesEnd, and_eq_true, decide_eq_true_eq] at h
  obtain ⟨⟨hstate, hexit⟩, htime⟩ := h
  simp only [view] at hstate hexit htime
  simp [view, ended, changed, hstate, hexit, htime]

theorem Job.reconciled_times (j : Job) (i : ReconItem) :
    (j.reconciled i).startTime = (if i.startTime ≠ 0 then i.startTime else j.startTime) ∧
      (j.reconciled i).finishTime = (if i.finishTime ≠ 0 then i.finishTime else j.finishTime) ∧
      (j.reconciled i).exitcode = if i.finishTime ≠ 0 then i.exitcode else j.exitcode := by
  simp only [reconciled, reconFinish, changed]
  split_ifs <;> exact ⟨rfl, rfl, rfl⟩

theorem Job.view_reconciled {j : Job} {i : ReconItem} (h : j.view.agreesItem i = true) :
    (j.reconciled i).view = j.view := by
  simp only [View.agreesItem, and_eq_true, or_eq_true, decide_eq_true_eq] at h
  obtain ⟨⟨hstart, hend⟩, hstate⟩ := h
  obtain ⟨hstart', hfinish', hexit'⟩ := j.reconciled_times i
  have hs : (j.reconciled i).startTime = j.startTime := by
    rw [hstart']
    split
    · next hne => exact (hstart.resolve_left hne).symm
    · rfl
  have hf : (j.reconciled i).finishTime = j.finishTime := by
    rw [hfinish']
    split
    · next hne => exact (hend.resolve_left hne).1.symm
    · rfl
  have he : (j.reconciled i).exitcode = j.exitcode := by
    rw [hexit']
    split
    · next hne => exact (hend.resolve_left hne).2.symm
    · rfl
  have hst : (j.reconciled i).state = j.state := by
    rw [j.reconciled_state i]
    split
    · next hpid =>
      rw [if_pos hpid] at hstate
      exact (of_decide_eq_true hstate).symm
    · next hpid =>
      rw [if_neg hpid] at hstate
      simp only [or_eq_true, decide_eq_true_eq] at hstate
      split
      · next hne => exact (hstate.resolve_left hne).symm
      · rfl
  simp only [view, hs, hf, he, hst, reconciled_internalState]

/-- What a report cannot change, and what it is looked up by. -/
def Job.key (j : Job) : ℕ × View := (j.jobid, j.view)

variable {a : Addr}

/-- **A late report that agrees leaves the job as it is.** -/
theorem Allowed.key_report {env : Env} {s : Server} {e : Event} {c c' : Core} {l : Label}
    (hgood : lateKept a s (env, e, true) = true) (hrep : e.isReport = true)
    (h : (c.jobTable.get? a).map Job.key = (s.jobTable.get? a).map Job.key)
    (hl : Allowed env s e c l) (hm : Move l c c') :
    (c'.jobTable.get? a).map Job.key = (s.jobTable.get? a).map Job.key := by
  cases hon : l.onJobs with
  | false =>
    rw [(hm.same_jobs hon).1]
    exact h
  | true =>
    have key : ∀ b j j' k, l = .shift b j j' k → (b = a → j'.key = j.key) →
        (c'.jobTable.get? a).map Job.key = (s.jobTable.get? a).map Job.key := by
      rintro b j j' k rfl hkey
      have hm := hm.shifted
      by_cases hb : b = a
      · subst hb
        rw [← h, hm.found, hm.found', map_some, map_some, hkey rfl]
      · rw [hm.get?_of_ne (Ne.symm hb)]
        exact h
    cases hl with
    | agent hag =>
      cases hag with
      | link => exact nomatch hon
      | started => exact nomatch hrep
      | @completed jobid exitcode finishTime usage b j k hfound _ _ _ =>
        refine key _ _ _ _ rfl fun hb ↦ ?_
        subst hb
        obtain ⟨hget, hid⟩ := Table.find?_some hfound
        have hid : j.jobid = jobid := by simpa using hid
        simp only [lateKept, hget, all_some, hid, bne_self_eq_false, Bool.false_or] at hgood
        have hid' : (j.ended exitcode finishTime usage).jobid = j.jobid := rfl
        rw [Job.key, Job.key, Job.view_ended usage hgood, hid']
      | @recon items i _ b j hi hid hnodup =>
        refine key _ _ _ _ rfl fun hb ↦ ?_
        subst hb
        have hfound : c.jobTable.get? b = some j := Shift.found hm
        rw [hfound] at h
        obtain ⟨j₀, hj₀, hkey⟩ := map_eq_some_iff.mp h.symm
        obtain ⟨hid₀, hview₀⟩ := Prod.mk.inj hkey
        simp only [lateKept, hj₀, all_some, List.all_eq_true] at hgood
        have hagree : j.view.agreesItem i = true := by
          simpa [hid₀, hid, hview₀] using hgood i hi
        rw [Job.key, Job.key, Job.view_reconciled hagree, Job.reconciled_jobid]
    | _ => exact nomatch hrep

theorem viewOf_eq_of_key {c c' : Core}
    (h : (c'.jobTable.get? a).map Job.key = (c.jobTable.get? a).map Job.key) :
    c'.viewOf a = c.viewOf a := by
  have hsnd := congrArg (Option.map Prod.snd) h
  simpa [Core.viewOf, Option.map_map, Function.comp_def, Job.key] using hsnd

/-! ### Runs -/

/-- **A job stays as it was decided**, in every run whose late reports agree with what the job is
when they come in: from every state of the server outside of recovery, in particular from one in
which the user has just restarted, killed or deleted an unknown job. -/
theorem view_of_watch {a : Addr} {s : Server} {w : Watched} (hrec : s.recovery = none)
    (h : Run (WatchStep a) (fun w e ↦ lateKept a w.server e = true) ⟨s, s.viewOf a⟩ w) :
    w.server.viewOf a = w.decided := by
  have hall : w.server.recovery = none ∧ w.server.viewOf a = w.decided := by
    refine h.invariant (I := fun w ↦ w.server.recovery = none ∧ w.server.viewOf a = w.decided)
      (fun {t e u} ht hgood hstep ↦ ?_) ⟨hrec, rfl⟩
    obtain ⟨hstep, hrep, hdec⟩ := hstep
    refine ⟨handle_recovery ht.1 hstep, ?_⟩
    obtain ⟨env, e, late⟩ := e
    cases late with
    | false => exact hdec.symm
    | true =>
      have hkey := (handle_path ht.1 hstep).invariant
        (I := fun c ↦ (c.jobTable.get? a).map Job.key = (t.server.jobTable.get? a).map Job.key)
        (fun hc hl hm ↦ hl.key_report hgood (hrep rfl) hc hm) rfl
      exact (viewOf_eq_of_key hkey).trans (ht.2.trans hdec.symm)
  exact hall.2

/-! ### Concrete runs -/

/-- Handle a marked event that meets a condition. -/
def watchNext (a : Addr) (good : Server → Env × Event × Bool → Bool) (w : Watched)
    (e : Env × Event × Bool) : Option Watched :=
  match handle e.1 e.2.1 w.server with
  | .ok ((), s) =>
    if good w.server e && (!e.2.2 || e.2.1.isReport) then
      some ⟨s, if e.2.2 then w.decided else s.viewOf a⟩
    else
      none
  | .error _ => none

theorem watchNext_some {good : Server → Env × Event × Bool → Bool} {w w' : Watched}
    {e : Env × Event × Bool} (h : watchNext a good w e = some w') :
    good w.server e = true ∧ WatchStep a w e w' := by
  rw [watchNext] at h
  split at h
  · next s hstep =>
    split at h
    · next hgood =>
      obtain rfl := some.inj h
      simp only [and_eq_true, or_eq_true, not_eq_true'] at hgood
      refine ⟨hgood.1, hstep, fun hlate ↦ hgood.2.resolve_left (by simp [hlate]), rfl⟩
    · exact nomatch h
  · exact nomatch h

namespace Sample

def killJob : Event := .client root (.sigJob { jobid := 1, signum := 9 })

/-- The agent connects again and sends a late report. -/
def comeBack (m : AgentMsg) : List (Env × Event × Bool) :=
  [(env, .connect 0, false), (env, .agent 0 .login, false), (env, .agent 0 m, true)]

/-- A late report after the user has killed an unknown job, with a test of the outcome. -/
def killedThen (good : Server → Env × Event × Bool → Bool) (m : AgentMsg) (p : Watched → Prop)
    (s : Server) : Prop :=
  (∃ j ∈ s.jobTable.get? 0, j.state = .unknown) ∧ ∃ s' ∈ after (env, killJob) s,
    s'.recovery = none ∧ ∃ w ∈ Run.follow (watchNext 0 good) (comeBack m) ⟨s', s'.viewOf 0⟩, p w

theorem exists_of_killedThen {good : Server → Env × Event × Bool → Bool} {m : AgentMsg}
    {p : Watched → Prop} {s : Server} (h : killedThen good m p s) :
    (∃ j, s.jobTable.get? 0 = some j ∧ j.state = .unknown) ∧ ∃ s' w, Step s (env, killJob) s' ∧
      s'.recovery = none ∧
      Run (WatchStep 0) (fun w e ↦ good w.server e = true) ⟨s', s'.viewOf 0⟩ w ∧ p w := by
  obtain ⟨hunknown, s', hs', hrec, hkilled⟩ := h
  obtain ⟨w, hrun, hp⟩ := Run.exists_of_follow _ _ _ _ watchNext_some hkilled
  exact ⟨hunknown, s', w, step_of_after hs', hrec, hrun, hp⟩

end Sample

/-- The agent of a job goes and the user kills the job, which has become unknown. When the agent
comes back it reports the process of the job, and the job is running again. -/
theorem exists_view_ne_decided :
    ∃ s s' w, Runs anyEvent config hosts s ∧
      (∃ j, s.jobTable.get? 0 = some j ∧ j.state = .unknown) ∧
      Step s (env, killJob) s' ∧
      Run (WatchStep 0) (fun _ _ ↦ true = true) ⟨s', s'.viewOf 0⟩ w ∧
      w.server.viewOf 0 ≠ w.decided := by
  obtain ⟨s, hrun, hp⟩ := exists_runs anyEvent config hosts
    (events (Sample.startJob ++ [.disconnect 0]))
    (killedThen (fun _ _ ↦ true) (.recon [{ jobid := 1, startTime := 900, pid := 55 }])
      fun w ↦ w.server.viewOf 0 ≠ w.decided) (by unfold killedThen; decide +kernel)
  obtain ⟨hunknown, s', w, hstep, -, hwatch, hne⟩ := exists_of_killedThen hp
  exact ⟨s, s', w, hrun, hunknown, hstep, hwatch, hne⟩

/-- A late completion by the signal the user has sent. -/
theorem view_of_watch_killed :
    ∃ s w, Run (WatchStep 0) (fun w e ↦ lateKept 0 w.server e = true) ⟨s, s.viewOf 0⟩ w ∧
      (w.decided.map View.state) = some .exited ∧ w.server.viewOf 0 = w.decided := by
  obtain ⟨s, -, hp⟩ := exists_runs anyEvent config hosts
    (events (Sample.startJob ++ [.disconnect 0]))
    (killedThen (lateKept 0) (.jobCompleted 1 (2 ^ 25 + 9) 1000 fun _ ↦ 0)
      fun w ↦ w.decided.map View.state = some .exited) (by unfold killedThen; decide +kernel)
  obtain ⟨-, s', w, -, hrec, hwatch, hst⟩ := exists_of_killedThen hp
  exact ⟨s', w, hwatch, hst, view_of_watch hrec hwatch⟩

end Jers
