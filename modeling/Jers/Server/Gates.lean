import Jers.Server.Limit
import Jers.Server.QueueLimits

/-!
# The jobs that a pass can start

Every job that a pass starts leaves less room for the others, on the server, on its queue and, if it
asks for no negative amount, of the resources. So a job that a pass starts was `ready` in the state
that the pass found, and what the ready jobs add up to (`Server.tally`) bounds what the pass can do.
-/

namespace Jers

open Exec Option

/-! ### Ready jobs -/

/-- Jobs can be started on the server, and neither the queue of the job nor its agent keeps it. -/
def Server.admits (s : Server) (j : Job) : Bool :=
  s.readonly.isNone &&
    (s.config.maxRunJobs = -1 || s.stats.running < s.config.maxRunJobs &&
      s.stats.running + s.stats.startPending ≤ s.config.maxRunJobs) &&
    (s.queueTable.get? j.queue).any fun q ↦ q.load < q.jobLimit && q.isStarted &&
      (q.agent.bind s.agents.get?).any fun v ↦ v.loggedIn && !v.recon

/-- The requirements of a job that can be read. -/
def Job.asks (j : Job) : List JobResource := j.requirements.toOption.getD []

/-- A job that waits and is admitted has a negative requirement: starting it gives something
back. -/
def Server.gives (s : Server) : Bool :=
  !s.jobTable.all fun _ j ↦ !j.Startable || !s.admits j || j.asks.all fun x ↦ 0 ≤ x.needed

/-- A job that waits and that nothing keeps from being started. What is free counts only if no job
can give something back before. -/
def Server.ready (s : Server) (j : Job) : Bool :=
  j.Startable && s.admits j && (s.gives || j.asks.all fun x ↦
    (s.resTable.get? x.res).any fun r ↦ x.needed ≤ r.count - r.inUse)

/-- What the jobs of `t` that are ready in `s` add up to. -/
def Server.tally (s : Server) (w : Job → ℤ) (t : Server) : ℤ :=
  t.jobTable.sum fun _ j ↦ if s.ready j then w j else 0

variable {s s' t t' : Server} {a : Addr} {j : Job} {reqs : List JobResource} {started : Bool}

/-! ### Agents -/

/-- Nothing is sent, and the agents are as they were. -/
def AgentsKept (s s' : Server) : Prop := s'.agents = s.agents

instance : IsPreorder Server AgentsKept where
  refl _ := rfl
  trans _ _ _ h h' := h'.trans h

theorem modifyJob_agentsKept {f : Job → Job} : Keeps AgentsKept (modifyJob a f) :=
  .bind .getJob fun _ ↦ .update fun _ ↦ rfl

theorem takeRes_agentsKept {x : JobResource} : Keeps AgentsKept (takeRes x) :=
  .bind .getRes fun _ ↦ .bind (.lift _) fun _ ↦ .bind .getRes fun _ ↦ .update fun _ ↦ rfl

theorem allocateRes_agentsKept : Keeps AgentsKept (allocateRes a) :=
  .bind .getJob fun _ ↦ .bind (.lift _) fun _ ↦ .bind (.each (fun _ ↦ takeRes_agentsKept) _)
    fun _ ↦ modifyJob_agentsKept

/-- **A job that is started is sent once**, to one agent. -/
theorem startJob_agents (h : startJob a s = .ok ((), s')) : ∃ g v m, s.agents.get? g = some v ∧
    s'.agents = s.agents.modify g fun v ↦ { v with responses := v.responses ++ [.startJob m] } := by
  obtain ⟨j, -, h₁⟩ := getJob_bind_ok h
  obtain ⟨_, t, halloc, h₂⟩ := bind_ok_iff.mp h₁
  obtain ⟨_, u, hsend, h₃⟩ := bind_ok_iff.mp h₂
  obtain ⟨_, v, hmod, hcount⟩ := bind_ok_iff.mp h₃
  have ht : t.agents = s.agents := Keeps.whenever (fun _ ↦ allocateRes_agentsKept) halloc
  have hs' : s'.agents = u.agents := by
    have hv : v.agents = u.agents := modifyJob_agentsKept hmod
    rw [countStartPending_ok hcount, ← hv]
  rw [hs', ← ht]
  obtain ⟨j, -, hsend₁⟩ := getJob_bind_ok hsend
  obtain ⟨q, -, hsend₂⟩ := getQueue_bind_ok hsend₁
  obtain ⟨reqs, _, hl, hsend₃⟩ := bind_ok_iff.mp hsend₂
  obtain ⟨-, rfl⟩ := lift_ok_iff.mp hl
  obtain ⟨names, _, hnames, hsend₄⟩ := bind_ok_iff.mp hsend₃
  obtain rfl := resNames_ok hnames
  generalize q.agent = agent at hsend₄
  cases agent with
  | none => exact (stop_ok_iff.mp hsend₄).elim
  | some g =>
    obtain ⟨nice, -, hsend₅⟩ := read_bind_ok_iff.mp hsend₄
    obtain ⟨v, hv, -⟩ := getAgent_bind_ok hsend₅
    rw [modifyAgent_ok hsend₅]
    exact ⟨g, v, _, hv, rfl⟩

/-! ### The gates during a pass -/

/-- `t` is reached in a pass over `s`, and its gates are no wider. -/
structure Narrowed (s t : Server) : Prop where
  readonly : s.readonly = none
  room : ¬s.Full
  untouched : Untouched s t.toCore
  starts : ∃ n, Starts n s.toCore t.toCore
  filled : QueuesFilled s t
  queues : ∀ b, Option.Rel (fun q q' ↦ ∃ st, q' = { q with stats := st })
    (s.queueTable.get? b) (t.queueTable.get? b)
  agents : ∀ g, Option.Rel (fun v v' ↦ ∃ l, v' = { v with responses := l })
    (s.agents.get? g) (t.agents.get? g)
  resources : s.gives = false → ∀ b, Option.Rel (fun r r' ↦ r'.count = r.count ∧ r.inUse ≤ r'.inUse)
    (s.resTable.get? b) (t.resTable.get? b)

/-- Nothing has been started when the pool has been made. -/
theorem Repooled.narrowed (h : Repooled s t) (hreadonly : s.readonly = none) (hroom : ¬s.Full) :
    Narrowed s t := by
  obtain ⟨n, pool, recalc, rfl⟩ := h
  exact ⟨hreadonly, hroom, .refl s, ⟨0, .refl _⟩, .refl s,
    fun _ ↦ optionRel_refl (fun q ↦ ⟨q.stats, rfl⟩) _,
    fun _ ↦ optionRel_refl (fun v ↦ ⟨v.responses, rfl⟩) _,
    fun _ _ ↦ optionRel_refl (fun _ ↦ ⟨rfl, le_rfl⟩) _⟩

/-- **A pass writes at most reasons to the jobs**, or it is a walk over the pool. -/
theorem checkJobs_idle_or_walk (h : checkJobs s = .ok ((), s')) :
    (∃ t T, Repooled s t ∧ s' = { t with jobTable := T }) ∨ ∃ t, Repooled s t ∧ Narrowed s t ∧
      startFrom (jobsToStart t) 0 t.candidatePool t = .ok ((), s') := by
  rcases checkJobs_cases h with ⟨-, rfl⟩ | ⟨hroom, t, hsame, -, -, ⟨-, htag⟩ | ⟨hreadonly, hstart⟩⟩
  · exact .inl ⟨s, s.jobTable, ⟨_, _, _, rfl⟩, rfl⟩
  · obtain ⟨T, heq⟩ : ∃ T, s' = { t with jobTable := T } := by
      refine each_rel (R := fun u u' : Server ↦ ∃ T, u' = { u with jobTable := T })
        (fun u ↦ ⟨_, rfl⟩) (fun hu hu' ↦ ?_) (fun _ _ u u' hround ↦ ?_) htag
      · obtain ⟨T, rfl⟩ := hu
        obtain ⟨T', rfl⟩ := hu'
        exact ⟨T', rfl⟩
      · rcases tagReadonly_cases hround with rfl | ⟨_, _, -, -, -, rfl⟩
        · exact ⟨_, rfl⟩
        · exact ⟨_, rfl⟩
    exact .inl ⟨t, T, hsame, heq⟩
  · exact .inr ⟨t, hsame, hsame.narrowed hreadonly hroom, hstart⟩

/-- A job that passes the checks in `t` is admitted in `s`. -/
theorem Narrowed.admits (h : Narrowed s t) (hclear : Clear t j reqs) : s.admits j = true := by
  obtain ⟨n, hstarts⟩ := h.starts
  obtain ⟨q', hq', hload, hopen, g, v', hg, hv', hlogin, hrecon⟩ := hclear.queue
  obtain ⟨q, hq, hfilled⟩ := optionRel_some' (h.filled j.queue) hq'
  obtain ⟨_, hq₂, st, rfl⟩ := optionRel_some (h.queues j.queue) hq
  obtain rfl := mem_unique hq' hq₂
  obtain ⟨v, hv, l, rfl⟩ := optionRel_some' (h.agents g) hv'
  have hagent : (q.agent.bind s.agents.get?).any (fun v ↦ v.loggedIn && !v.recon) = true := by
    rw [show q.agent = some g from hg, Option.bind_some, hv]
    simpa using ⟨hlogin, hrecon⟩
  have hlimit : s.config.maxRunJobs = -1 ∨ s.stats.running < s.config.maxRunJobs ∧
      s.stats.running + s.stats.startPending ≤ s.config.maxRunJobs := by
    have hsystem := hclear.system
    rw [hstarts.config, hstarts.running, hstarts.slots] at hsystem
    have hroom := h.room
    unfold Server.Full at hroom
    omega
  have hqueue : q.load < q.jobLimit ∧ q.isStarted = true := ⟨hfilled.grows.trans_lt hload, hopen⟩
  simpa [Server.admits, h.readonly, hq, hlimit, hagent] using hqueue

theorem Clear.asks (h : Clear t j reqs) : j.asks = reqs := by
  rw [Job.asks, h.requires]
  rfl

/-- **A job that a pass starts was ready.** -/
theorem Narrowed.ready (h : Narrowed s t) (hwaits : j.Startable) (hclear : Clear t j reqs) :
    s.ready j = true := by
  cases hgives : s.gives with
  | true => simp [Server.ready, hwaits, h.admits hclear, hgives]
  | false =>
    have hfree : ∀ x ∈ reqs, ∃ r, s.resTable.get? x.res = some r ∧
        x.needed ≤ r.count - r.inUse := by
      intro x hx
      obtain ⟨r', hr', hle⟩ := hclear.available x hx
      obtain ⟨r, hr, hcount, hgrows⟩ := optionRel_some' (h.resources hgives x.res) hr'
      exact ⟨r, hr, by omega⟩
    simpa [Server.ready, hwaits, h.admits hclear, hgives, hclear.asks, Option.any_eq_true]
      using hfree

/-- A job that gives something back is one of those that `gives` looks for. -/
theorem Narrowed.asks_nonneg (h : Narrowed s t) (hj : t.jobTable.get? a = some j)
    (hwaits : j.Startable) (hclear : Clear t j reqs) (hgives : s.gives = false) :
    ∀ x ∈ reqs, 0 ≤ x.needed := by
  obtain ⟨i, hi, heq⟩ := h.untouched a j hj hwaits.2
  have hall : (!i.Startable || !s.admits i || i.asks.all fun x ↦ 0 ≤ x.needed) = true :=
    Table.all_iff.mp (by simpa [Server.gives] using hgives) a i hi
  have hadmits := h.admits hclear
  have hasks := hclear.asks
  rw [heq] at hwaits hadmits hasks
  rw [show decide i.Startable = true from decide_eq_true hwaits,
    show s.admits i = true from hadmits,
    show i.asks = reqs from hasks] at hall
  simpa using hall

/-- A change of a job changes no more than the counters of the queues. -/
theorem Narrowed.queues_shift {j' : Job} {k : Cost} (h : Narrowed s t)
    (hshift : Shift a j j' k t.toCore t'.toCore) (b : Addr) :
    Option.Rel (fun q q' ↦ ∃ st, q' = { q with stats := st })
      (s.queueTable.get? b) (t'.queueTable.get? b) := by
  refine optionRel_trans (fun hq hmoved ↦ ?_) (h.queues b) (hshift.queues b)
  obtain ⟨st, rfl⟩ := hq
  exact ⟨_, hmoved.rest⟩

/-- **A round widens no gate.** -/
theorem Narrowed.round (h : Narrowed s t) (hround : Round t a t' started) : Narrowed s t' := by
  obtain ⟨n, hstarts⟩ := h.starts
  have huntouched : Untouched s t'.toCore := hround.untouched h.untouched
  have hstarts' := hstarts.trans hround.starts
  have hfilled := h.filled.trans hround.filled
  cases hround with
  | skip _ _ heq => exact heq ▸ h
  | wait _ _ heq hshift =>
    refine ⟨h.readonly, h.room, huntouched, ⟨_, hstarts'⟩, hfilled, h.queues_shift hshift, ?_, ?_⟩
    · rw [heq]
      exact h.agents
    · rw [heq]
      exact h.resources
  | start hwaits hclear hstart hshift =>
    refine ⟨h.readonly, h.room, huntouched, ⟨_, hstarts'⟩, hfilled, h.queues_shift hshift,
      fun g ↦ ?_, fun hgives b ↦ ?_⟩
    · obtain ⟨g', v, m, hv, heq⟩ := startJob_agents hstart
      rw [heq, Table.get?_modify]
      split
      · next hg =>
        subst hg
        obtain ⟨v₀, hv₀, l, rfl⟩ := optionRel_some' (h.agents g) hv
        rw [hv, hv₀, Option.map_some]
        exact .some ⟨_, rfl⟩
      · exact h.agents g
    · have hnonneg := amount_nonneg (h.asks_nonneg hshift.found hwaits hclear hgives) b
      refine optionRel_trans (fun hr hmoved ↦ ?_) (h.resources hgives b) (hshift.resources b)
      subst hmoved
      exact ⟨hr.1, hr.2.trans (le_add_of_nonneg_right hnonneg)⟩

/-! ### What is left to be started -/

variable {w : Job → ℤ}

/-- A job whose start is put off counts as before. -/
theorem tally_wait {r : ℤ} (hw : w { j with pendReason := r } = w j)
    (hshift : Shift a j { j with pendReason := r } {} t.toCore t'.toCore) :
    s.tally w t' = s.tally w t := by
  rw [Server.tally, hshift.jobs, Table.sum_modify hshift.found, hw]
  exact sub_add_cancel _ _

/-- **A job that is started does not count any more.** -/
theorem Narrowed.tally_start (h : Narrowed s t) (hwaits : j.Startable) (hclear : Clear t j reqs)
    (hshift : Shift a j (j.begun reqs) { slots := 1, use := amount reqs } t.toCore t'.toCore) :
    s.tally w t' = s.tally w t - w j := by
  have hgone : s.ready (j.begun reqs) = false := by simp [Server.ready, Job.Startable, Job.begun]
  rw [Server.tally, hshift.jobs, Table.sum_modify hshift.found, h.ready hwaits hclear, hgone]
  simp [Server.tally]

theorem tally_nonneg (h : ∀ a j, t.jobTable.get? a = some j → s.ready j = true → 0 ≤ w j) :
    0 ≤ s.tally w t := by
  refine Table.sum_nonneg fun a j hj ↦ ?_
  split
  · next hready => exact h a j hj hready
  · exact le_rfl

end Jers
