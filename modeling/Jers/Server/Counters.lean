import Jers.Server.Runs

/-!
# The state counters

`server.stats.jobs` and the counters of the queues are kept up by `changeJobState` alone, while jobs
and queues come and go. `StatsAgree` says that they agree with the job table. It fails when a job is
freed that is not in state 0, and when the structure of a deleted queue is used again while jobs
are on it; without such events it holds in every state of every run.
-/

namespace Jers

open Option Table Sample

/-! ### Addresses of queues -/

/-- The queues that jobs and the default queue refer to have been allocated. -/
structure KnownQueues (c : Core) : Prop where
  jobs : ∀ a j, c.jobTable.get? a = some j → j.queue < c.queueTable.next
  default : ∀ b, c.defaultQueue = some b → b < c.queueTable.next

variable {c c' : Core} {j j' : Job} {s : Server} {env : Env} {e : Event} {l : Label} {a b : Addr}
  {k : Cost}

/-- A modified job stays on its queue, or goes to one that is there. -/
theorem modified_queue {t : Tables} {mj : JobMod} {q : Option Addr}
    {new : Option (List JobResource)} (h : mj.target t = some q) :
    (j.modified mj q new).queue = j.queue ∨
      (t.queueTable.get? (j.modified mj q new).queue).isSome := by
  simp only [JobMod.target] at h
  split at h
  · obtain rfl := some.inj h
    exact .inl rfl
  · obtain ⟨r, hr, rfl⟩ := map_eq_some_iff.mp h
    right
    change (t.queueTable.get? r.1).isSome
    rw [(Table.find?_some hr).1]
    rfl

theorem KnownQueues.initial (config : Config) (hosts : List Str) :
    KnownQueues (Server.initial config hosts).toCore where
  jobs a j hj := absurd ((get?_empty a).symm.trans hj) (by simp)
  default b hb := by simp [Server.initial] at hb

/-- A job that is shifted stays on its queue, or goes to a queue that is there. -/
theorem Allowed.shift_queue (h : Allowed env s e c (.shift a j j' k)) :
    j'.queue = j.queue ∨ c = s.toCore ∧ (s.queueTable.get? j'.queue).isSome := by
  cases h with
  | job _ hm =>
    cases hm with
    | modify _ _ _ htarget => exact (modified_queue htarget).imp_right fun h ↦ ⟨rfl, h⟩
    | _ => exact .inl rfl
  | queue _ hm | res _ hm => cases hm
  | agent hm =>
    cases hm with
    | recon => exact .inl (Job.reconciled_queue _ _)
    | _ => exact .inl rfl
  | _ => exact .inl rfl

/-- A new job is put on a queue that has been allocated. -/
theorem Allowed.addJob_queue (h : Allowed env s e c (.addJob j j' k)) (hc : KnownQueues c) :
    j.queue < c.queueTable.next ∧ j'.queue = j.queue := by
  obtain ⟨cl, cmd, rfl, hm⟩ := h.submitted
  cases hm with
  | submit hb hqueues _ hdefault =>
    refine ⟨?_, rfl⟩
    rcases hb with hb | ⟨q, hq, -⟩
    · exact hc.default _ (hdefault.trans hb)
    · rw [← hqueues] at hq
      exact lt_next hq

/-- A new job is in state 0 before its state is set. -/
theorem Allowed.addJob_cleared (h : Allowed env s e c l) (hl : l = .addJob j j' k) :
    j.state = .cleared := by
  subst hl
  obtain ⟨_, _, _, hsub⟩ := h.submitted
  cases hsub
  rfl

/-- The moves that concern one job. -/
def Label.onJobs : Label → Bool
  | .shift .. | .addJob .. | .removeJob .. => true
  | _ => false

/-- The other moves leave the jobs and the counters of the server alone. -/
theorem Move.same_jobs (hm : Move l c c') (hl : l.onJobs = false) : c'.jobTable = c.jobTable ∧
    c'.stats = c.stats ∧ c'.deferredList = c.deferredList ∧ c'.audit = c.audit := by
  cases l with
  | shift | addJob | removeJob => exact nomatch hl
  | addQueue | addRes | setFlush =>
    obtain rfl := hm
    exact ⟨rfl, rfl, rfl, rfl⟩
  | reuseQueue | editQueue | removeQueue | reuseRes | editRes | removeRes | setDefault =>
    obtain ⟨-, rfl⟩ := hm
    exact ⟨rfl, rfl, rfl, rfl⟩

/-- **A move and the jobs**: it is about no job, shifts one, adds one or frees one. -/
theorem Move.jobs_cases (hm : Move l c c') : l.onJobs = false ∨
    (∃ a j j' k, l = .shift a j j' k ∧ Shift a j j' k c c') ∨
    (∃ j j' k, l = .addJob j j' k ∧
      Shift c.jobTable.next j j' k { c with jobTable := c.jobTable.push j } c') ∨
    ∃ a j, l = .removeJob a j ∧ c.jobTable.get? a = some j ∧
    c' = { c with jobTable := c.jobTable.erase a } := by
  cases l with
  | shift a j j' k => exact .inr (.inl ⟨a, j, j', k, rfl, hm⟩)
  | addJob j j' k => exact .inr (.inr (.inl ⟨j, j', k, rfl, hm⟩))
  | removeJob a j => exact .inr (.inr (.inr ⟨a, j, rfl, hm⟩))
  | _ => exact .inl rfl

/-- **What is said of every job**: a move keeps it if the shifted job and the new job keep it. -/
theorem Move.jobs_all {P : Addr → Job → Prop} (hm : Move l c c')
    (h : ∀ a j, c.jobTable.get? a = some j → P a j)
    (hshift : ∀ a j j' k, l = .shift a j j' k → P a j → P a j')
    (hadd : ∀ j j' k, l = .addJob j j' k → P c.jobTable.next j') :
    ∀ a j, c'.jobTable.get? a = some j → P a j := by
  intro b i hi
  rcases hm.jobs_cases with hon | ⟨a, j, j', k, rfl, hm⟩ | ⟨j, j', k, rfl, hm⟩ | ⟨a, j, rfl, -, rfl⟩
  · rw [(hm.same_jobs hon).1] at hi
    exact h b i hi
  · obtain ⟨rfl, rfl⟩ | ⟨-, hi⟩ := hm.get?_cases hi
    · exact hshift b j j' k rfl (h b j hm.found)
    · exact h b i hi
  · obtain ⟨rfl, rfl⟩ | ⟨hb, hi⟩ := hm.get?_cases hi
    · exact hadd j j' k rfl
    · rw [get?_push, if_neg hb] at hi
      exact h b i hi
  · exact h b i (get?_erase_some hi).2

/-- The jobs of the next core, on queues that have been allocated. -/
theorem KnownQueues.of_jobs (h : KnownQueues c) (hm : Move l c c')
    (hjobs : ∀ a j, c'.jobTable.get? a = some j → j.queue < c.queueTable.next) :
    KnownQueues c' := by
  have hnext := hm.frame.queueNext
  refine ⟨fun a j hj ↦ (hjobs a j hj).trans_le hnext, fun b hb ↦ ?_⟩
  rcases hm.frame.default b hb with hb | hb
  · exact (h.default b hb).trans_le hnext
  · obtain ⟨q, hq⟩ := isSome_iff_exists.mp hb
    exact (lt_next hq).trans_le hnext

theorem KnownQueues.add (h : KnownQueues c) (hm : Move (.addJob j j' k) c c')
    (hj : j'.queue < c.queueTable.next) : KnownQueues c' := by
  refine h.of_jobs hm (hm.jobs_all (P := fun _ j ↦ j.queue < c.queueTable.next) h.jobs (by simp) ?_)
  rintro _ _ _ hadd
  cases hadd
  exact hj

/-- **Allocated queues stay allocated.** -/
theorem KnownQueues.move (h : KnownQueues c) (hl : Allowed env s e c l) (hm : Move l c c') :
    KnownQueues c' := by
  refine h.of_jobs hm (hm.jobs_all (P := fun _ j ↦ j.queue < c.queueTable.next) h.jobs ?_ ?_)
  · rintro a j j' k rfl hj
    rcases hl.shift_queue with hq | ⟨rfl, hq⟩
    · rw [hq]
      exact hj
    · obtain ⟨q, hq⟩ := isSome_iff_exists.mp hq
      exact lt_next hq
  · rintro j j' k rfl
    obtain ⟨hj, hj'⟩ := hl.addJob_queue h
    rw [hj']
    exact hj

/-! ### Counters of queues -/

/-- What an edit of a queue leaves alone. -/
theorem Allowed.editQueue_stats {q q' : Queue} (h : Allowed env s e c (.editQueue b q q')) :
    q'.stats = q.stats := by
  cases h with
  | job _ hm | res _ hm => cases hm
  | queue _ hm => cases hm <;> rfl
  | agent hm => cases hm; rfl
  | _ => rfl

/-- The deleted queue whose structure a request to add a queue would use again. -/
def Server.deletedQueue (s : Server) (qa : QueueRequest) : Option Addr := do
  let name ← qa.name
  let (b, q) ← s.findQueue (lowercasestring name)
  if q.internalState.deleted then some b else none

theorem deletedQueue_eq {qa : QueueRequest} {name : Str} {q : Queue} (hname : qa.name = some name)
    (hfound : s.findQueue (lowercasestring name) = some (b, q))
    (hdel : q.internalState.deleted = true) : s.deletedQueue qa = some b := by
  simp [Server.deletedQueue, hname, hfound, hdel]

/-- **Where the counters of a queue come from**: from the queue itself, or the queue is new. In the
second case no job is on it, unless it is in the structure of a deleted queue. -/
theorem Allowed.queue_stats (h : Allowed env s e c l) (hk : KnownQueues c) (hm : Move l c c')
    (hl : l.onJobs = false) {q' : Queue} (hq' : c'.queueTable.get? b = some q') :
    (∃ q, c.queueTable.get? b = some q ∧ q'.stats = q.stats) ∨
    q'.stats = {} ∧ ((∀ a j, c.jobTable.get? a = some j → j.queue ≠ b) ∨
      ∃ cl qa, e = .client cl (.addQueue qa) ∧ c = s.toCore ∧ s.deletedQueue qa = some b) := by
  cases l with
  | shift | addJob | removeJob => exact nomatch hl
  | addQueue q =>
    obtain rfl := hm
    rw [get?_push] at hq'
    split at hq'
    · next hb =>
      -- no job can be on a queue that had not been allocated
      obtain rfl := some.inj hq'
      refine .inr ⟨?_, .inl fun a j hj hjb ↦ ?_⟩
      · cases h with
        | queue _ hm => cases hm; rfl
        | job _ hm | res _ hm | agent hm => cases hm
      · have hlt := hk.jobs a j hj
        rw [hjb, hb] at hlt
        exact lt_irrefl _ hlt
    · exact .inl ⟨q', hq', rfl⟩
  | reuseQueue b' q q'' =>
    obtain ⟨hq, rfl⟩ := hm
    rw [get?_reput] at hq'
    split at hq'
    · next hb =>
      obtain rfl := some.inj hq'
      subst hb
      cases h with
      | queue _ hm =>
        cases hm with
        | remake hname hlower hfound hdel =>
          subst hlower
          exact .inr ⟨rfl, .inr ⟨_, _, rfl, rfl, deletedQueue_eq hname hfound hdel⟩⟩
      | job _ hm | res _ hm | agent hm => cases hm
    · exact .inl ⟨q', hq', rfl⟩
  | editQueue b' q q'' =>
    obtain ⟨hq, rfl⟩ := hm
    rw [get?_modify] at hq'
    split at hq'
    · next hb =>
      subst hb
      rw [hq] at hq'
      obtain rfl := some.inj hq'
      exact .inl ⟨q, hq, h.editQueue_stats⟩
    · exact .inl ⟨q', hq', rfl⟩
  | removeQueue b' q =>
    obtain ⟨hq, rfl⟩ := hm
    exact .inl ⟨q', (get?_erase_some hq').2, rfl⟩
  | reuseRes | editRes | removeRes | setDefault =>
    obtain ⟨-, rfl⟩ := hm
    exact .inl ⟨q', hq', rfl⟩
  | addRes | setFlush =>
    obtain rfl := hm
    exact .inl ⟨q', hq', rfl⟩

/-! ### The counters -/

/-- The counters of the server and of every queue are the numbers of jobs in the table. -/
structure StatsAgree (c : Core) : Prop where
  server : ∀ S, S ≠ .cleared → c.stats.count S = c.jobTable.count fun j ↦ j.state = S
  queues : ∀ b q, c.queueTable.get? b = some q → ∀ S, S ≠ .cleared →
    q.stats.count S = c.jobTable.count fun j ↦ j.queue = b ∧ j.state = S

theorem JobStats.count_default (S : JobState) : JobStats.count {} S = 0 := by
  cases S <;> rfl

theorem StatsAgree.initial (config : Config) (hosts : List Str) :
    StatsAgree (Server.initial config hosts).toCore where
  server S _ := by cases S <;> rfl
  queues b q hq := absurd ((get?_empty b).symm.trans hq) (by simp)

/-- The counter `f` is to the number of jobs with `p` as `R` says, and on each queue as `Q` says. -/
structure Tallied (f : JobStats → ℤ) (p : Job → Prop) [DecidablePred p] (R Q : ℤ → Prop)
    (c : Core) : Prop where
  server : R (f c.stats - c.jobTable.count p)
  queues : ∀ b q, c.queueTable.get? b = some q →
    Q (f q.stats - c.jobTable.count fun j ↦ j.queue = b ∧ p j)

/-- The counter `f` follows the jobs with `p` when `j` becomes `j'`. -/
structure Follows (f : JobStats → ℤ) (p : Job → Prop) [DecidablePred p] (j j' : Job) (slots : ℤ) :
    Prop where
  server : ∀ t t', JobStats.Moved t t' j.state j'.state slots →
    f t' = f t - (if p j then 1 else 0) + if p j' then 1 else 0
  queues : ∀ b q q', QueueMoved b j j' slots q q' →
    f q'.stats = f q.stats - (if j.queue = b ∧ p j then 1 else 0) + if j'.queue = b ∧
    p j' then 1 else 0

theorem follows_count {S : JobState} {slots : ℤ} (hS : S ≠ .cleared) :
    Follows (·.count S) (·.state = S) j j' slots :=
  ⟨fun _ _ h ↦ h.count S hS, fun _ _ _ h ↦ h.count S hS⟩

section

variable {f : JobStats → ℤ} {p : Job → Prop} [DecidablePred p] {R Q : ℤ → Prop}

theorem Tallied.shift (h : Tallied f p R Q c) (hm : Shift a j j' k c c')
    (hf : Follows f p j j' k.slots) : Tallied f p R Q c' := by
  refine ⟨?_, fun b q' hq' ↦ ?_⟩
  · rw [hf.server _ _ hm.stats, hm.jobs, count_modify _ hm.found, add_sub_add_right_eq_sub,
      sub_sub_sub_cancel_right]
    exact h.server
  · obtain ⟨q, hq, hmoved⟩ := optionRel_some' (hm.queues b) hq'
    rw [hf.queues b q q' hmoved, hm.jobs, count_modify _ hm.found, add_sub_add_right_eq_sub,
      sub_sub_sub_cancel_right]
    exact h.queues b q hq

/-- **A counter that follows the jobs** stays as it is to their number, if a new job is not counted
at first, if freed jobs are not counted or may be missed, and if new queues are as they should
be. -/
theorem Tallied.move (h : Tallied f p R Q c) (hm : Move l c c')
    (hf : ∀ a j j' k, l = .shift a j j' k ∨ l = .addJob j j' k → Follows f p j j' k.slots)
    (hadd : ∀ j j' k, l = .addJob j j' k → ¬ p j)
    (hfree : ∀ a j, l = .removeJob a j → p j → (∀ x, R x → R (x + 1)) ∧ ∀ x, Q x → Q (x + 1))
    (hobj : l.onJobs = false → ∀ b q', c'.queueTable.get? b = some q' →
      (∃ q, c.queueTable.get? b = some q ∧ q'.stats = q.stats) ∨
      Q (f q'.stats - c.jobTable.count fun j ↦ j.queue = b ∧ p j)) : Tallied f p R Q c' := by
  rcases hm.jobs_cases with hon | ⟨a, j, j', k, rfl, hm⟩ | ⟨j, j', k, rfl, hm⟩ |
    ⟨a, j, rfl, hj, rfl⟩
  · obtain ⟨hjobs, hstats, -⟩ := hm.same_jobs hon
    refine ⟨?_, fun b q' hq' ↦ ?_⟩
    · rw [hjobs, hstats]
      exact h.server
    · rw [hjobs]
      rcases hobj hon b q' hq' with ⟨q, hq, hsame⟩ | hnew
      · rw [hsame]
        exact h.queues b q hq
      · exact hnew
  · exact h.shift hm (hf a j j' k (.inl rfl))
  · refine Tallied.shift ⟨?_, fun b q hq ↦ ?_⟩ hm (hf c.jobTable.next j j' k (.inr rfl))
    · rw [count_push, if_neg (hadd j j' k rfl), add_zero]
      exact h.server
    · rw [count_push, if_neg fun he ↦ hadd j j' k rfl he.2, add_zero]
      exact h.queues b q hq
  · refine ⟨?_, fun b q hq ↦ ?_⟩
    · rw [Table.count_erase _ hj, ← sub_add]
      split
      · next hp => exact (hfree a j rfl hp).1 _ h.server
      · rw [add_zero]
        exact h.server
    · rw [Table.count_erase _ hj, ← sub_add]
      split
      · next hp => exact (hfree a j rfl hp.2).2 _ (h.queues b q hq)
      · rw [add_zero]
        exact h.queues b q hq

end

/-! ### Runs -/

/-- The event frees no job that is counted, and does not use the structure of a queue again that
counted jobs are on: the jobs a cleanup may free are in state 0, and so are those on the deleted
queue that is added again. -/
def countsKept : Condition
  | s, (_, .cleanupJobs _) | s, (_, .client _ (.addJob _)) =>
    s.jobTable.all fun _ j ↦ !decide j.Removable || j.state = .cleared
  | s, (_, .client _ (.addQueue qa)) =>
    (s.deletedQueue qa).all fun b ↦ s.jobTable.all fun _ j ↦ j.queue != b || j.state = .cleared
  | _, _ => true

theorem cleared_of_all {t : Table Job}
    (h : t.all (fun _ j ↦ !decide j.Removable || j.state = .cleared) = true)
    (hj : t.get? a = some j) (hrem : j.Removable) : j.state = .cleared := by
  simpa [hrem] using all_iff.mp h a j hj

/-- **A move keeps the agreement** under the condition. -/
theorem StatsAgree.move (hgood : countsKept s (env, e) = true) (h : StatsAgree c)
    (hk : KnownQueues c) (hl : Allowed env s e c l) (hm : Move l c c') : StatsAgree c' := by
  have htallied S (hS : S ≠ .cleared) : Tallied (·.count S) (·.state = S) (· = 0) (· = 0) c' := by
    refine Tallied.move (c := c) ⟨sub_eq_zero.mpr (h.server S hS), fun b q hq ↦
      sub_eq_zero.mpr (h.queues b q hq S hS)⟩ hm (fun _ _ _ _ _ ↦ follows_count hS)
      (fun j j' k he ↦ hl.addJob_cleared he ▸ hS.symm) ?_ fun hobj b q' hq' ↦ ?_
    · rintro a j rfl hj
      obtain ⟨hget, hrem, ⟨_, _, rfl⟩ | ⟨_, rfl⟩⟩ := hl.removed
      all_goals exact absurd (hj.symm.trans (cleared_of_all hgood hget hrem)) hS
    · refine (hl.queue_stats hk hm hobj hq').imp_right fun ⟨hzero, hwhere⟩ ↦ ?_
      rw [hzero, JobStats.count_default, Table.count_eq_zero, sub_zero]
      rintro a j hj ⟨hjb, hjS⟩
      rcases hwhere with hnew | ⟨cl, qa, rfl, rfl, hold⟩
      · exact hnew a j hj hjb
      · simp only [countsKept, hold, all_some] at hgood
        exact hS (hjS.symm.trans (by simpa [hjb] using all_iff.mp hgood a j hj))
  exact ⟨fun S hS ↦ sub_eq_zero.mp (htallied S hS).server,
    fun b q hq S hS ↦ sub_eq_zero.mp ((htallied S hS).queues b q hq)⟩

/-- **The counters agree with the job table**, in every state of every run whose events meet the
condition. -/
theorem statsAgree_of_runs {config : Config} {hosts : List Str} {s : Server}
    (h : Runs countsKept config hosts s) : StatsAgree s.toCore := by
  have hall : StatsAgree s.toCore ∧ KnownQueues s.toCore := by
    refine h.core_invariant (I := fun c ↦ StatsAgree c ∧ KnownQueues c)
      (fun hgood _ hc hl hm ↦ ⟨hc.1.move hgood hc.2 hl hm, hc.2.move hl hm⟩) ?_
    exact ⟨.initial config hosts, .initial config hosts⟩
  exact hall.1

/-! ### A run that breaks the agreement -/

/-- A running job is deleted, its completion is reported, and a cleanup frees the job in its new
state: `server.stats.jobs.completed` stays at 1 without a job. -/
theorem not_statsAgree_late_completion :
    ∃ s, Runs anyEvent config hosts s ∧ ¬ StatsAgree s.toCore := by
  obtain ⟨s, hrun, hp⟩ := exists_runs anyEvent config hosts
    (events (Sample.startJob ++
      [.agent 0 (.jobStarted 1 42 1000), .client root (.delJob 1),
        .agent 0 (.jobCompleted 1 0 1001 fun _ ↦ 0), .saveStart true, .saveFinish false,
        .cleanupJobs 0]))
    (fun s ↦ s.stats.count .completed ≠ s.jobTable.count fun j ↦ j.state = .completed)
    (by decide +kernel)
  exact ⟨s, hrun, fun h ↦ hp (h.server .completed (by decide))⟩

/-- A job that is added, started and reported as running is counted as such. -/
theorem statsAgree_of_runs_started :
    ∃ s, Runs countsKept config hosts s ∧ s.stats.running = 1 ∧
      StatsAgree s.toCore := by
  obtain ⟨s, hrun, hp⟩ := exists_runs countsKept config hosts
    (events (Sample.startJob ++ [.agent 0 (.jobStarted 1 42 1000)]))
    (fun s ↦ s.stats.running = 1) (by decide +kernel)
  exact ⟨s, hrun, hp, statsAgree_of_runs hrun⟩

end Jers
