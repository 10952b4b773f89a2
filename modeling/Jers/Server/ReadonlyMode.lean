import Jers.Server.Runs

/-!
# Readonly mode

The daemon is readonly while its journal cannot be extended or after a background save has failed.
Commands with the replay flag are then refused, and `checkJobs` starts nothing.

The flag of the command table says which commands are journaled, and a signal is not: `JOB_SIG` ends
a job in the unknown state also in readonly mode. The timed events do not look at the mode either.
`releaseDeferred` makes a deferred job pending, `autoCleanup` deletes completed jobs, and the loss
of an agent makes its jobs unknown. `quiet` excludes these steps. Between any two states that are
joined by quiet steps in readonly mode, none of them a report of an agent, everything that is saved
of the jobs, queues and resources is the same (`Frozen`).
-/

namespace Jers

open Exec Option Table Sample

/-! ### What stays the same -/

/-- Everything that is saved of a job is the same, and the job has not been sent to its agent. -/
structure Job.Persists (j j' : Job) : Prop where
  jobid : j'.jobid = j.jobid
  num : ∀ k, j'.num k = j.num k
  str : ∀ k, j'.str k = j.str k
  queue : j'.queue = j.queue
  argv : j'.argv = j.argv
  envs : j'.envs = j.envs
  tags : j'.tags = j.tags
  resCount : j'.resCount = j.resCount
  reqResources : j'.reqResources = j.reqResources
  deleted : j'.internalState.deleted = j.internalState.deleted
  starts : j'.history.starts = j.history.starts

/-- Everything that is saved of a queue is the same. -/
structure Queue.Persists (q q' : Queue) : Prop where
  name : q'.name = q.name
  desc : q'.desc = q.desc
  jobLimit : q'.jobLimit = q.jobLimit
  priority : q'.priority = q.priority
  nice : q'.nice = q.nice
  host : q'.host = q.host
  revision : q'.obj.revision = q.obj.revision
  deleted : q'.internalState.deleted = q.internalState.deleted

/-- Everything that is saved of a resource is the same. -/
structure Resource.Persists (r r' : Resource) : Prop where
  name : r'.name = r.name
  count : r'.count = r.count
  revision : r'.obj.revision = r.obj.revision
  deleted : r'.internalState.deleted = r.internalState.deleted

/-- The records of one table that are alive are in the other, the same, and no others are there. -/
structure SameTable {α : Type} (alive : α → Bool) (same : α → α → Prop) (t t' : Table α) :
    Prop where
  kept : ∀ {a v}, t.get? a = some v → alive v = true → ∃ v', t'.get? a = some v' ∧ same v v'
  origin : ∀ {a v'}, t'.get? a = some v' → ∃ v, t.get? a = some v ∧ same v v'

/-- The objects that are not deleted are the same, as far as they are saved, and so is the default
queue. -/
structure Frozen (c c' : Core) : Prop where
  jobs : SameTable (fun j : Job ↦ !j.internalState.deleted) Job.Persists c.jobTable c'.jobTable
  queues : SameTable (fun q : Queue ↦ !q.internalState.deleted) Queue.Persists c.queueTable
    c'.queueTable
  resources :
    SameTable (fun r : Resource ↦ !r.internalState.deleted) Resource.Persists c.resTable c'.resTable
  defaultQueue : c'.defaultQueue = c.defaultQueue

theorem Job.Persists.refl (j : Job) : j.Persists j :=
  ⟨rfl, fun _ ↦ rfl, fun _ ↦ rfl, rfl, rfl, rfl, rfl, rfl, rfl, rfl, rfl⟩

/-- Marks that are not saved. -/
theorem Job.Persists.marks (j : Job) (dirty flushing : Bool) (r : ℤ) :
    j.Persists { j with obj.dirty := dirty, internalState.flushing := flushing, pendReason := r } :=
  ⟨rfl, fun k ↦ by cases k <;> rfl, fun k ↦ by cases k <;> rfl, rfl, rfl, rfl, rfl, rfl, rfl,
    rfl, rfl⟩

theorem Job.Persists.trans {j j' j'' : Job} (h : j.Persists j') (h' : j'.Persists j'') :
    j.Persists j'' where
  jobid := h'.jobid.trans h.jobid
  num k := (h'.num k).trans (h.num k)
  str k := (h'.str k).trans (h.str k)
  queue := h'.queue.trans h.queue
  argv := h'.argv.trans h.argv
  envs := h'.envs.trans h.envs
  tags := h'.tags.trans h.tags
  resCount := h'.resCount.trans h.resCount
  reqResources := h'.reqResources.trans h.reqResources
  deleted := h'.deleted.trans h.deleted
  starts := h'.starts.trans h.starts

theorem Queue.Persists.refl (q : Queue) : q.Persists q := ⟨rfl, rfl, rfl, rfl, rfl, rfl, rfl, rfl⟩

theorem Queue.Persists.trans {q q' q'' : Queue} (h : q.Persists q') (h' : q'.Persists q'') :
    q.Persists q'' where
  name := h'.name.trans h.name
  desc := h'.desc.trans h.desc
  jobLimit := h'.jobLimit.trans h.jobLimit
  priority := h'.priority.trans h.priority
  nice := h'.nice.trans h.nice
  host := h'.host.trans h.host
  revision := h'.revision.trans h.revision
  deleted := h'.deleted.trans h.deleted

theorem Resource.Persists.refl (r : Resource) : r.Persists r := ⟨rfl, rfl, rfl, rfl⟩

theorem Resource.Persists.trans {r r' r'' : Resource} (h : r.Persists r') (h' : r'.Persists r'') :
    r.Persists r'' where
  name := h'.name.trans h.name
  count := h'.count.trans h.count
  revision := h'.revision.trans h.revision
  deleted := h'.deleted.trans h.deleted

section

variable {α : Type} {alive : α → Bool} {same : α → α → Prop} {t t' t'' : Table α}

theorem SameTable.refl (hrefl : ∀ v, same v v) (t : Table α) : SameTable alive same t t :=
  ⟨fun h _ ↦ ⟨_, h, hrefl _⟩, fun h ↦ ⟨_, h, hrefl _⟩⟩

theorem SameTable.trans (htrans : ∀ {u v w}, same u v → same v w → same u w)
    (halive : ∀ {u v}, same u v → alive v = alive u) (h : SameTable alive same t t')
    (h' : SameTable alive same t' t'') : SameTable alive same t t'' where
  kept hv hlive := by
    obtain ⟨w, hw, hsame⟩ := h.kept hv hlive
    obtain ⟨x, hx, hsame'⟩ := h'.kept hw ((halive hsame).trans hlive)
    exact ⟨x, hx, htrans hsame hsame'⟩
  origin hx := by
    obtain ⟨w, hw, hsame'⟩ := h'.origin hx
    obtain ⟨v, hv, hsame⟩ := h.origin hw
    exact ⟨v, hv, htrans hsame hsame'⟩

theorem SameTable.of_rel (h : ∀ a, Option.Rel same (t.get? a) (t'.get? a)) :
    SameTable alive same t t' :=
  ⟨fun hv _ ↦ optionRel_some (h _) hv, fun hv ↦ optionRel_some' (h _) hv⟩

theorem SameTable.modify (hrefl : ∀ v, same v v) {a : Addr} {v v' : α} (hv : t.get? a = some v)
    (hsame : same v v') : SameTable alive same t (t.modify a fun _ ↦ v') := by
  refine .of_rel fun b ↦ ?_
  by_cases hb : b = a
  · subst hb
    rw [get?_modify_self hv, hv]
    exact .some hsame
  · rw [get?_modify_of_ne hb]
    exact optionRel_refl hrefl _

theorem SameTable.erase (hrefl : ∀ v, same v v) {a : Addr} {v : α} (hv : t.get? a = some v)
    (hdead : alive v = false) : SameTable alive same t (t.erase a) where
  kept {b w} hw hlive := by
    have hb : b ≠ a := by
      rintro rfl
      obtain rfl := mem_unique hv hw
      exact absurd hlive (by rw [hdead]; exact Bool.false_ne_true)
    exact ⟨w, by rw [get?_erase, if_neg hb, hw], hrefl w⟩
  origin hw := ⟨_, (get?_erase_some hw).2, hrefl _⟩

end

theorem Frozen.refl (c : Core) : Frozen c c :=
  ⟨.refl .refl _, .refl .refl _, .refl .refl _, rfl⟩

variable {c c' : Core}

theorem Frozen.trans {c'' : Core} (h : Frozen c c') (h' : Frozen c' c'') : Frozen c c'' where
  jobs := h.jobs.trans .trans (fun h ↦ congrArg _ h.deleted) h'.jobs
  queues := h.queues.trans .trans (fun h ↦ congrArg _ h.deleted) h'.queues
  resources := h.resources.trans .trans (fun h ↦ congrArg _ h.deleted) h'.resources
  defaultQueue := h'.defaultQueue.trans h.defaultQueue

/-! ### Moves that change nothing that is saved -/

/-- The moves that leave what is saved. -/
def Label.Harmless : Label → Prop
  | .shift _ j j' _ => j.Persists j'
  | .removeJob _ j => j.internalState.deleted = true
  | .editQueue _ q q' => q.Persists q'
  | .removeQueue _ q => q.internalState.deleted = true
  | .editRes _ r r' => r.Persists r'
  | .removeRes _ r => r.internalState.deleted = true
  | .setFlush _ => True
  | _ => False

theorem Move.frozen {l : Label} (h : Move l c c') (hl : l.Harmless) : Frozen c c' := by
  cases l with
  | shift a j j' k =>
    refine ⟨?_, .of_rel fun b ↦ ?_, .of_rel fun b ↦ ?_, h.defaultQueue⟩
    · rw [h.jobs]
      exact .modify .refl h.found hl
    · refine optionRel_mono (fun _ hq ↦ ?_) (h.queues b)
      rw [hq.rest]
      exact ⟨rfl, rfl, rfl, rfl, rfl, rfl, rfl, rfl⟩
    · refine optionRel_mono (fun _ hr ↦ ?_) (h.resources b)
      rw [hr]
      exact ⟨rfl, rfl, rfl, rfl⟩
  | removeJob a j =>
    obtain ⟨hj, rfl⟩ := h
    exact ⟨.erase .refl hj (congrArg _ hl), .refl .refl _, .refl .refl _, rfl⟩
  | editQueue b q q' =>
    obtain ⟨hq, rfl⟩ := h
    exact ⟨.refl .refl _, .modify .refl hq hl, .refl .refl _, rfl⟩
  | removeQueue b q =>
    obtain ⟨hq, rfl⟩ := h
    exact ⟨.refl .refl _, .erase .refl hq (congrArg _ hl), .refl .refl _, rfl⟩
  | editRes b r r' =>
    obtain ⟨hr, rfl⟩ := h
    exact ⟨.refl .refl _, .refl .refl _, .modify .refl hr hl, rfl⟩
  | removeRes b r =>
    obtain ⟨hr, rfl⟩ := h
    exact ⟨.refl .refl _, .refl .refl _, .erase .refl hr (congrArg _ hl), rfl⟩
  | setFlush f =>
    rw [show c' = { c with flush := f } from h]
    exact ⟨.refl .refl _, .refl .refl _, .refl .refl _, rfl⟩
  | addJob | addQueue | reuseQueue | addRes | reuseRes | setDefault => exact hl.elim

theorem Path.frozen {P : Core → Label → Prop} (hP : ∀ c l, P c l → l.Harmless) (h : Path P c c') :
    Frozen c c' :=
  h.invariant (I := Frozen c) (fun hc hl hm ↦ hc.trans (hm.frozen (hP _ _ hl))) (.refl c)

/-! ### Quiet steps -/

/-- The client may run the command and act on the job. -/
def mayWrite (env : Env) (s : Server) (c : Client) (j : Job) : Bool :=
  match validateUserAction env c 0 with
  | none => false
  | some c =>
    match checkPerm (some c) j.uid permWrite s with
    | .ok (denied, _) => !denied
    | .error _ => false

/-- The steps that keep to readonly mode: no signal of a client who may write to a job ends a job
that is unknown, and no deferred job becomes due, no completed job is cleaned up and no active job
loses its agent. -/
def quiet : Condition := fun s (env, e) ↦ match e with
  | .client c (.sigJob js) =>
    js.signum == 0 || (s.findJob js.jobid).all fun r ↦
      r.2.internalState.deleted || r.2.state != .unknown || !mayWrite env s c r.2
  | .disconnect g =>
    s.jobTable.all fun _ j ↦ (s.queueTable.get? j.queue).all fun q ↦
      q.agent != some g || (j.state != .running && !j.internalState.started)
  | .releaseDeferred =>
    s.deferredList.head?.all fun a ↦ (s.jobTable.get? a).all fun j ↦ decide (env.now < j.deferTime)
  | .autoCleanup =>
    s.jobTable.all fun _ j ↦ j.internalState.deleted || j.state != .completed ||
      decide (env.now - s.config.autoCleanup * 60 * 60 < j.finishTime)
  | _ => true

section Steps

variable {s s' : Server} {env : Env}

theorem commandSigJob_quiet {c c' : Client} {js : JobSig} {reply : Reply}
    (hvalid : validateUserAction env c 0 = some c')
    (hquiet : quiet s (env, .client c (.sigJob js)) = true)
    (h : commandSigJob env (some c') js s = .ok (reply, s')) : s'.toCore = s.toCore := by
  obtain ⟨found, hfound, h₁⟩ := read_bind_ok_iff.mp h
  obtain ⟨denied, _, hd, h₂⟩ := bind_ok_iff.mp h₁
  obtain rfl := checkPerm_ok hd
  split at h₂
  · rw [(pure_ok_iff.mp h₂).2]
  next hallowed =>
  rcases found with - | ⟨a, j⟩
  · rw [(pure_ok_iff.mp h₂).2]
  dsimp only at h₂
  split at h₂
  · rw [(pure_ok_iff.mp h₂).2]
  next hlive =>
  split at h₂
  · -- an unknown job, and the client may write: the step is not quiet
    next hkill =>
    have hmay : mayWrite env s c j = true := by
      rw [if_neg hkill.2] at hd
      rw [mayWrite, hvalid]
      dsimp only
      have hd' : checkPerm (some c') j.uid permWrite s = .ok (denied, s) := hd
      rw [hd']
      simpa using hallowed
    simp [quiet, hfound, hkill.1, hkill.2, hlive, hmay] at hquiet
  split at h₂
  · rw [(pure_ok_iff.mp h₂).2]
  split at h₂
  · rw [sendClient_ok h₂]
  obtain ⟨q, -, h₃⟩ := getQueue_bind_ok h₂
  generalize q.agent = agent at h₃
  rcases agent with - | g
  · exact (stop_ok_iff.mp h₃).elim
  obtain ⟨_, t, hmsg, hsend⟩ := bind_ok_iff.mp h₃
  rw [← sendClient_ok hsend]
  exact sendAgentMessage_toCore hmsg

/-- A quiet command in readonly mode leaves the tables, the counters and the default queue alone. -/
theorem runCommand_quiet {c : Client} {cmd : Command} {reply : Reply}
    (hreadonly : s.readonly.isSome) (hquiet : quiet s (env, .client c cmd) = true)
    (h : runCommand env c cmd s = .ok (reply, s')) : s'.toCore = s.toCore := by
  rcases runCommand_checked h with ⟨rfl, -⟩ | ⟨c', hvalid, hupdate, hrun⟩
  · rfl
  have hread : cmd.isUpdate = false := by
    by_contra hu
    rw [hupdate (by simpa using hu)] at hreadonly
    exact absurd hreadonly Bool.false_ne_true
  cases cmd with
  | sigJob js => exact commandSigJob_quiet hvalid hquiet hrun
  | query perm =>
    have hsend : sendClient (some c') none .returnCode s = .ok (reply, s') := hrun
    rw [sendClient_ok hsend]
  | _ => exact absurd hread Bool.noConfusion

theorem releaseDeferred_quiet (hquiet : quiet s (env, .releaseDeferred) = true)
    (h : releaseDeferred env s = .ok ((), s')) : s'.toCore = s.toCore := by
  obtain ⟨list, hlist, h₁⟩ := read_bind_ok_iff.mp h
  obtain ⟨released, t, hrelease, hrecalc⟩ := bind_ok_iff.mp h₁
  have ht : s = t := by
    rcases list with - | ⟨a, as⟩
    · exact (pure_ok_iff.mp hrelease).2
    obtain ⟨j, hj, ⟨-, rfl⟩ | ⟨hdue, -⟩⟩ := releaseFrom_cons hrelease
    · rfl
    · simp [quiet, hlist, hj] at hquiet
      omega
  subst ht
  rcases whenever_ok_iff.mp hrecalc with ⟨-, hupd⟩ | ⟨-, rfl⟩
  · rw [update_ok_iff.mp hupd]
  · rfl

theorem autoCleanup_quiet (hquiet : quiet s (env, .autoCleanup) = true)
    (h : autoCleanup env s = .ok ((), s')) : s'.toCore = s.toCore := by
  obtain ⟨_, rfl, h₁⟩ := read_bind_ok_iff.mp h
  obtain ⟨_, rfl, h₂⟩ := read_bind_ok_iff.mp h₁
  have hsame : s = s → s' = s := by
    refine each_rel (R := fun t t' ↦ t = s → t' = s) (fun _ h ↦ h) (fun h h' ht ↦ h' (h ht))
      (fun a _ t t' hround ht ↦ ?_) h₂
    subst ht
    obtain ⟨j, hj, h₃⟩ := getJob_bind_ok hround
    rcases whenever_ok_iff.mp h₃ with ⟨⟨hlive, hstate, htime⟩, -⟩ | ⟨-, rfl⟩
    · simp only [quiet] at hquiet
      have hkeep := all_iff.mp hquiet a j hj
      simp [hlive, hstate] at hkeep
      omega
    · rfl
  rw [hsame rfl]

/-- A message of an agent. -/
def Event.fromAgent : Event → Bool
  | .agent _ _ => true
  | _ => false

/-- The moves of a quiet event that is not looked at in the lemmas above. -/
theorem Allowed.harmless {e : Event} {l : Label} (h : Allowed env s e c l)
    (hreadonly : s.readonly.isSome) (hquiet : quiet s (env, e) = true)
    (hclient : ∀ c cmd, e ≠ .client c cmd) (hreport : e.fromAgent = false)
    (hrelease : e ≠ .releaseDeferred) (hclean : e ≠ .autoCleanup) : l.Harmless := by
  cases h with
  | job | queue | res => exact absurd rfl (hclient _ _)
  | agent => exact absurd hreport Bool.noConfusion
  | release => exact absurd rfl hrelease
  | expire => exact absurd rfl hclean
  | lose hj hq hagent hactive =>
    simp only [quiet] at hquiet
    have hkeep := all_iff.mp hquiet _ _ hj
    rcases hactive with hrun | hstarted
    · simp [hq, hagent, hrun] at hkeep
    · simp [hq, hagent, hstarted] at hkeep
  | start _ _ hnone =>
    rw [hnone] at hreadonly
    exact absurd hreadonly Bool.false_ne_true
  | idle | captureJob | reapJob => exact .marks _ _ _ _
  | unlink | captureQueue | reapQueue => exact ⟨rfl, rfl, rfl, rfl, rfl, rfl, rfl, rfl⟩
  | captureRes | reapRes => exact ⟨rfl, rfl, rfl, rfl⟩
  | cleanJob _ hrem | cleanQueue _ hrem | cleanRes _ hrem => exact hrem.1
  | capture | reap => trivial

/-- **One step.** -/
theorem frozen_of_step {e : Event} (hrec : s.recovery = none) (hreadonly : s.readonly.isSome)
    (hquiet : quiet s (env, e) = true) (hreport : e.fromAgent = false) (h : Step s (env, e) s') :
    Frozen s.toCore s'.toCore := by
  by_cases hclient : ∃ c cmd, e = .client c cmd
  · obtain ⟨c, cmd, rfl⟩ := hclient
    obtain ⟨_, -, hrun⟩ := bind_pure_ok h
    rw [runCommand_quiet hreadonly hquiet hrun]
    exact .refl _
  by_cases hrelease : e = .releaseDeferred
  · subst hrelease
    rw [releaseDeferred_quiet hquiet h]
    exact .refl _
  by_cases hclean : e = .autoCleanup
  · subst hclean
    rw [autoCleanup_quiet hquiet h]
    exact .refl _
  · exact (handle_path hrec h).frozen fun c l hl ↦ hl.harmless hreadonly hquiet
      (fun c cmd he ↦ hclient ⟨c, cmd, he⟩) hreport hrelease hclean

theorem tagReadonly_agents {x : Option Addr} (h : tagReadonly x s = .ok ((), s')) :
    s'.agents = s.agents := by
  rcases tagReadonly_cases h with rfl | ⟨_, _, -, -, -, rfl⟩
  · rfl
  · rfl

/-- Nothing is sent to an agent. -/
theorem checkJobs_readonly_agents (hreadonly : s.readonly.isSome) (h : checkJobs s = .ok ((), s')) :
    s'.agents = s.agents := by
  rcases checkJobs_cases h with ⟨-, rfl⟩ | ⟨-, t, hsame, -, -, ⟨-, htag⟩ | ⟨hnone, -⟩⟩
  · rfl
  · obtain ⟨n, pool, recalc, rfl⟩ := hsame
    have htrans : ∀ {t u v : Server}, u.agents = t.agents → v.agents = u.agents →
      v.agents = t.agents :=
      fun hu hv ↦ hv.trans hu
    exact each_rel (R := fun t u ↦ u.agents = t.agents) (fun _ ↦ rfl) htrans
      (fun _ _ _ _ hround ↦ tagReadonly_agents hround) htag
  · rw [hnone] at hreadonly
    exact absurd hreadonly Bool.false_ne_true

end Steps

/-! ### Readonly mode -/

/-- What readonly mode promises, in a state of the daemon: a command of a client changes nothing but
what is queued for the agents, a scheduling pass sends no job, and as long as the mode lasts only
reports of agents change what is saved. -/
structure ReadonlyHolds (s : Server) : Prop where
  client : ∀ {env c cmd reply s'}, quiet s (env, .client c cmd) = true →
    runCommand env c cmd s = .ok (reply, s') → s'.toCore = s.toCore
  sched : ∀ {s'}, checkJobs s = .ok ((), s') → s'.agents = s.agents ∧ Frozen s.toCore s'.toCore
  lasts : ∀ {t}, Run Step (fun u e ↦ u.readonly.isSome ∧ quiet u e = true ∧
    e.2.fromAgent = false) s t → Frozen s.toCore t.toCore

/-- **Readonly mode is readonly** in every reachable state, for the quiet steps. -/
theorem readonlyHolds_of_runs {config : Config} {hosts : List Str} {s : Server}
    (h : Runs anyEvent config hosts s) (hreadonly : s.readonly.isSome) : ReadonlyHolds s := by
  have hrec : s.recovery = none :=
    h.invariant (I := fun t ↦ t.recovery = none) (fun ht _ hstep ↦ handle_recovery ht hstep) rfl
  refine ⟨fun hquiet hrun ↦ runCommand_quiet hreadonly hquiet hrun, fun hcheck ↦ ?_, fun hrun ↦ ?_⟩
  · have hstep : Step s (({} : Env), .checkJobs) _ := hcheck
    exact ⟨checkJobs_readonly_agents hreadonly hcheck, frozen_of_step hrec hreadonly rfl rfl hstep⟩
  · have hall := hrun.invariant (I := fun t ↦ t.recovery = none ∧ Frozen s.toCore t.toCore)
      (fun {t e u} ht hgood hstep ↦ ?_) ⟨hrec, .refl _⟩
    · exact hall.2
    · obtain ⟨hro, hquiet, hreport⟩ := hgood
      exact ⟨handle_recovery ht.1 hstep, ht.2.trans (frozen_of_step ht.1 hro hquiet hreport hstep)⟩

namespace Sample

/-- A job is running when its agent goes away, and then the disk is full. -/
def lostThenFull : List Event :=
  startJob ++ [.agent 0 (.jobStarted 1 44 1001), .disconnect 0, .extendJournal false]

/-- The state of the first job. -/
def firstState (s : Server) : Option JobState := (s.jobTable.get? 0).map Job.state

end Sample

/-- In readonly mode, a signal to a job whose agent has gone makes it exited. -/
theorem not_readonlyHolds_signal : ∃ s, Runs anyEvent config hosts s ∧ s.readonly.isSome ∧
    ∃ env c cmd reply s', runCommand env c cmd s = .ok (reply, s') ∧
    ¬Frozen s.toCore s'.toCore := by
  obtain ⟨s, hrun, hreadonly, hunknown, t, hafter, hexited⟩ :=
    exists_runs anyEvent config hosts (events lostThenFull)
      (fun s ↦ s.readonly.isSome = true ∧ firstState s = some .unknown ∧
        ∃ t ∈ after (Sample.env, .client root (.sigJob { jobid := 1, signum := 9 })) s,
          firstState t = some .exited) (by decide +kernel)
  obtain ⟨reply, -, hcmd⟩ := bind_pure_ok (step_of_after hafter)
  refine ⟨s, hrun, hreadonly, _, _, _, reply, t, hcmd, fun hfrozen ↦ ?_⟩
  obtain ⟨j', hj', hstate'⟩ := map_eq_some_iff.mp hexited
  obtain ⟨j, hj, hsame⟩ := hfrozen.jobs.origin hj'
  rw [firstState, hj, map_some, Option.some.injEq] at hunknown
  have hnum := hsame.num .state
  rw [Job.num, Job.num, hstate', hunknown] at hnum
  exact absurd hnum (by decide)

/-- With the agent still there, the disk is full. -/
theorem readonlyHolds_running : ∃ s, Runs anyEvent config hosts s ∧ s.readonly.isSome ∧
    ReadonlyHolds s := by
  obtain ⟨s, hrun, hs⟩ := exists_runs anyEvent config hosts
    (events (Sample.startJob ++ [.agent 0 (.jobStarted 1 44 1001), .extendJournal false]))
    (fun s ↦ s.readonly.isSome) (by decide +kernel)
  exact ⟨s, hrun, hs, readonlyHolds_of_runs hrun hs⟩

end Jers
