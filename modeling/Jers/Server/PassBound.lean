import Jers.Server.Gates

/-!
# How many jobs a pass starts

`sched_max` is to bound the number of jobs that one pass releases. `checkJobs` reads it and then
writes the size of the candidate pool over it, so that only the ready jobs, the room on their queues
and the room on the server bound a pass (`checkJobs_startsSent_le`).
-/

namespace Jers

open Exec Sample

def AgentRequest.isStart : AgentRequest → Bool
  | .startJob _ => true
  | _ => false

/-- The number of START_JOB messages that have been queued for the agents. -/
def Server.startsSent (s : Server) : ℤ :=
  s.agents.sum fun _ v ↦ v.responses.countP AgentRequest.isStart

variable {s s' t t' : Server} {a : Addr} {b : Bool}

theorem Round.startsSent (h : Round s a s' b) :
    s'.startsSent = s.startsSent + if b then 1 else 0 := by
  cases h with
  | skip _ _ heq => simp [heq]
  | wait _ _ heq => simp [heq, Server.startsSent]
  | start _ _ hstart =>
    obtain ⟨g, v, m, hv, heq⟩ := startJob_agents hstart
    rw [Server.startsSent, heq, Table.sum_modify hv]
    simp [Server.startsSent, AgentRequest.isStart]
    omega

/-- The jobs of `t` on the queue at `b` that are ready in `s`. -/
def Server.readyOn (s : Server) (b : Addr) (t : Server) : ℤ :=
  s.tally (fun j ↦ if j.queue = b then 1 else 0) t

/-- The ready jobs, on each queue no more than it has room for. -/
def Server.releasable (s : Server) : ℤ :=
  s.queueTable.sum fun b q ↦ min (s.readyOn b s) (max 0 (q.jobLimit - q.load))

/-- What is sent is taken from the ready jobs, and takes as many slots. -/
structure SentFrom (s t : Server) : Prop extends Narrowed s t where
  loads : ∀ b, Option.Rel (fun q q' ↦ q'.load + s.readyOn b t = q.load + s.readyOn b s)
    (s.queueTable.get? b) (t.queueTable.get? b)
  sent : t.startsSent - s.startsSent = s.queueTable.sum fun b _ ↦ s.readyOn b s - s.readyOn b t
  slots : t.startsSent + s.stats.startPending = s.startsSent + t.stats.startPending

/-- The load of a queue grows by the ready jobs that it loses. -/
theorem SentFrom.loads_shift {j j' : Job} {k : Cost} (h : SentFrom s t)
    (hshift : Shift a j j' k t.toCore t'.toCore) (hstate : j'.state = j.state)
    (hqueue : j'.queue = j.queue)
    (hready : ∀ b, s.readyOn b t' = s.readyOn b t - if j.queue = b then k.slots else 0) (b : Addr) :
    Option.Rel (fun q q' ↦ q'.load + s.readyOn b t' = q.load + s.readyOn b s)
      (s.queueTable.get? b) (t'.queueTable.get? b) := by
  refine optionRel_trans (fun hq hmoved ↦ ?_) (h.loads b) (hshift.queues b)
  rw [(hmoved.load hstate hqueue).2, hready]
  omega

theorem SentFrom.round (h : SentFrom s t) (hround : Round t a t' b) : SentFrom s t' := by
  have hnarrowed := h.toNarrowed.round hround
  have hsent := hround.startsSent
  have hslots : t'.startsSent + s.stats.startPending = s.startsSent + t'.stats.startPending := by
    rw [hsent, hround.starts.slots, add_right_comm, h.slots]
    cases b <;> simp [add_assoc]
  cases hround with
  | skip _ _ heq => exact heq ▸ h
  | wait _ _ _ hshift =>
    have hready (b : Addr) : s.readyOn b t' = s.readyOn b t := tally_wait rfl hshift
    refine ⟨hnarrowed, h.loads_shift hshift rfl rfl fun b ↦ by simp [hready], ?_, hslots⟩
    simpa [hready, hsent] using h.sent
  | @start j _ hwaits hclear _ hshift =>
    have hready (b : Addr) : s.readyOn b t' = s.readyOn b t - if j.queue = b then 1 else 0 :=
      h.tally_start hwaits hclear hshift
    obtain ⟨_, hq', -⟩ := hclear.queue
    obtain ⟨q, hq, -⟩ := optionRel_some' (h.queues j.queue) hq'
    refine ⟨hnarrowed, h.loads_shift hshift rfl rfl hready, ?_, hslots⟩
    rw [Table.sum_eq_add hq fun b _ hb ↦ by rw [hready, if_neg hb.symm, sub_zero], ← h.sent,
      hready, if_pos rfl, hsent, if_pos rfl]
    omega

/-- On each queue, no more jobs are sent than are ready and fit. -/
theorem SentFrom.le_releasable (h : SentFrom s t) : t.startsSent - s.startsSent ≤ s.releasable := by
  rw [h.sent]
  refine Table.sum_le_sum fun b q hq ↦ ?_
  obtain ⟨q', hq', hload⟩ := optionRel_some (h.loads b) hq
  obtain ⟨q'', hq'', hbound⟩ := optionRel_some (h.filled b) hq
  obtain rfl := Option.mem_unique hq' hq''
  have hleft : 0 ≤ s.readyOn b t := tally_nonneg fun _ j _ _ ↦ by split <;> decide
  have hroom := hbound.bound
  omega

/-- What `sched_max` has to be for the pass to keep to it: no more jobs are ready on queues with
room for them, or there is no more room beside the running jobs. -/
def PassWithin (s : Server) (schedMax : ℤ) : Prop :=
  s.releasable ≤ schedMax ∨
    s.config.maxRunJobs ≠ -1 ∧ s.config.maxRunJobs - s.stats.running ≤ schedMax

/-- **A pass is bounded** by `sched_max` if the ready jobs or the room on the server are. -/
theorem checkJobs_startsSent_le {schedMax : ℤ} (hmax : 0 ≤ schedMax)
    (hwithin : PassWithin s schedMax) (h : checkJobs s = .ok ((), s')) :
    s'.startsSent - s.startsSent ≤ schedMax := by
  rcases checkJobs_idle_or_walk h with ⟨t, T, ⟨n, pool, recalc, rfl⟩, rfl⟩ |
    ⟨t, ⟨n, pool, recalc, rfl⟩, hnarrowed, hstart⟩
  · exact (sub_self _).trans_le hmax
  have hfrom : SentFrom s s' := startFrom_invariant (I := SentFrom s)
    (fun _ hround hu ↦ hu.round hround) hstart
    ⟨hnarrowed, fun _ ↦ optionRel_refl (fun _ ↦ by rfl) _,
      by simp [Server.startsSent, Server.readyOn, Server.tally, Table.sum], rfl⟩
  rcases hwithin with hready | ⟨hM, hle⟩
  · exact hfrom.le_releasable.trans hready
  · obtain ⟨m, hstarts, hm⟩ := startFrom_starts hstart
    have hroom := hnarrowed.room
    have hlast := hm.trans (jobsToStart_le hM (not_le.mp fun hfull ↦ hroom ⟨hM, hfull⟩))
    have hslots := hfrom.slots
    rw [hstarts.slots] at hslots
    dsimp only at hslots hlast
    omega

namespace Sample

/-- Two jobs wait for an agent that is there. -/
def twoJobs : List (Env × Event) :=
  events (readyQueue ++ [.client root addJob, .client root addJob])

/-- The second of two jobs is on a queue that is not started. -/
def oneStopped : List (Env × Event) :=
  twoJobs.dropLast ++
    events [.client root (.addQueue { name := some "p".toList, state := 2, jobLimit := 2 }),
    .client root (.addJob { plainJob with queue := some "p".toList })]

end Sample

/-- Of two jobs, one waits on a stopped queue, and the pass keeps to a `sched_max` of 1. -/
theorem checkJobs_startsSent_le_one : ∃ s s', checkJobs s = .ok ((), s') ∧
    s.jobTable.count Job.Startable = 2 ∧ s'.startsSent - s.startsSent ≤ 1 := by
  obtain ⟨s, -, hready, htwo, t, hafter, -⟩ := exists_runs anyEvent config hosts oneStopped
    (fun s ↦ s.releasable ≤ 1 ∧ s.jobTable.count Job.Startable = 2 ∧
      ∃ t ∈ after (env, .checkJobs) s, True) (by decide +kernel)
  have hstep := step_of_after hafter
  exact ⟨s, t, hstep, htwo, checkJobs_startsSent_le (by decide) (.inl hready) hstep⟩

/-- A pass starts both jobs, also where `sched_max` is 1. -/
theorem startsSent_above_one :
    ∃ s s', checkJobs s = .ok ((), s') ∧ 1 < s'.startsSent - s.startsSent := by
  obtain ⟨s, -, t, hafter, htwo⟩ := exists_runs anyEvent config hosts twoJobs
    (fun s ↦ ∃ t ∈ after (env, .checkJobs) s, 1 < t.startsSent - s.startsSent) (by decide +kernel)
  exact ⟨s, t, step_of_after hafter, htwo⟩

end Jers
