import Jers.Server.Runs

/-!
# Queue limits in a scheduling pass

A job is started only while the jobs that run or are being started on its queue are fewer than the
limit of the queue, and each start raises the number the next check reads. So a pass takes no queue
above its limit, or above what was there before if the limit has been lowered since. A job that is
reached when its queue is full waits, and the pass writes nothing to jobs that do not wait.
-/

namespace Jers

open Exec Option Sample

variable {s s' : Server}

/-! ### The load of the queues -/

/-- A queue under a number of starts. -/
structure Queue.Filled (q q' : Queue) : Prop where
  limit : q'.jobLimit = q.jobLimit
  grows : q.load ≤ q'.load
  bound : q'.load ≤ max q.load q.jobLimit

theorem Queue.Filled.refl (q : Queue) : q.Filled q := ⟨rfl, le_rfl, le_max_left _ _⟩

theorem Queue.Filled.trans {q q' q'' : Queue} (h : q.Filled q') (h' : q'.Filled q'') :
    q.Filled q'' where
  limit := h'.limit.trans h.limit
  grows := h.grows.trans h'.grows
  bound := by
    have hbound := h.bound
    have hbound' := h'.bound
    rw [h.limit] at hbound'
    omega

/-- The queues under a number of starts. -/
def QueuesFilled (s s' : Server) : Prop :=
  ∀ b, Option.Rel Queue.Filled (s.queueTable.get? b) (s'.queueTable.get? b)

theorem QueuesFilled.refl (s : Server) : QueuesFilled s s := fun _ ↦ optionRel_refl .refl _

theorem QueuesFilled.trans {s s' s'' : Server} (h : QueuesFilled s s') (h' : QueuesFilled s' s'') :
    QueuesFilled s s'' :=
  fun b ↦ optionRel_trans .trans (h b) (h' b)

variable {a : Addr} {j j' : Job} {b : Bool} {pool : List (Option Addr)}

/-- A change of a job that leaves its state and its queue. -/
theorem QueueMoved.load {b : Addr} {slots : ℤ} {q q' : Queue} (h : QueueMoved b j j' slots q q')
    (hstate : j'.state = j.state) (hqueue : j'.queue = j.queue) :
    q'.jobLimit = q.jobLimit ∧ q'.load = q.load + if j.queue = b then slots else 0 := by
  have hcount := h.count .running (by decide)
  have hslots := h.slots
  rw [hstate, hqueue, sub_add_cancel] at hcount
  rw [hqueue] at hslots
  refine ⟨by rw [h.rest], ?_⟩
  simp only [Queue.load, JobStats.count] at hcount ⊢
  rw [hcount, hslots, add_assoc]

/-- **A round fills no queue above its limit.** -/
theorem Round.filled (h : Round s a s' b) : QueuesFilled s s' := by
  cases h with
  | skip _ _ heq =>
    subst heq
    exact .refl s
  | wait _ _ _ hshift =>
    intro b
    refine optionRel_mono (fun _ hmoved ↦ ?_) (hshift.queues b)
    obtain ⟨hlimit, hload⟩ := hmoved.load rfl rfl
    rw [ite_self, add_zero] at hload
    exact ⟨hlimit, hload.ge, hload.le.trans (le_max_left _ _)⟩
  | start _ hclear _ hshift =>
    obtain ⟨q₀, hq₀, hroom, -⟩ := hclear.queue
    intro b
    refine optionRel_mono (fun hq hmoved ↦ ?_) (hshift.queues b)
    obtain ⟨hlimit, hload⟩ := hmoved.load rfl rfl
    dsimp only at hload
    split at hload
    · next hb =>
      -- the queue of the job had room
      subst hb
      obtain rfl := mem_unique hq₀ hq
      exact ⟨hlimit, by omega, by omega⟩
    · exact ⟨hlimit, by omega, by omega⟩

/-! ### Jobs on a full queue -/

/-- The queue of a job has no room. -/
def Server.QueueFull (s : Server) (j : Job) : Prop :=
  ∃ q, s.queueTable.get? j.queue = some q ∧ q.jobLimit ≤ q.load

/-- The job waits for room on its queue or on the server. -/
structure Job.WaitsForRoom (j : Job) : Prop where
  waits : j.Startable
  reason : j.pendReason = PendReason.queuefull.toInt ∨ j.pendReason = PendReason.systemfull.toInt

theorem QueuesFilled.queueFull (h : QueuesFilled s s') (hfull : s.QueueFull j) :
    s'.QueueFull j := by
  obtain ⟨q, hq, hle⟩ := hfull
  obtain ⟨q', hq', hfilled⟩ := optionRel_some (h j.queue) hq
  exact ⟨q', hq', by rw [hfilled.limit]; exact hle.trans hfilled.grows⟩

/-- The reason to wait when the queue is full. -/
theorem pendingFor_of_queueFull {reason : Option PendReason} (hj : s.jobTable.get? a = some j)
    (hfull : s.QueueFull j) (h : pendingFor a s = .ok (reason, s')) :
    reason = some .systemfull ∨ reason = some .queuefull := by
  obtain ⟨q, hq, hle⟩ := hfull
  obtain ⟨-, i, hi, hverdict⟩ := pendingFor_ok h
  obtain rfl := mem_unique hj hi
  cases hverdict with
  | busy => exact .inl rfl
  | own hq' _ hroom =>
    obtain rfl := mem_unique hq hq'
    exact .inr (congrArg some (not_not.mp fun hr ↦ absurd (hroom hr) (not_lt.mpr hle)))
  | clear hclear =>
    obtain ⟨q', hq', hlt, -⟩ := hclear.queue
    obtain rfl := mem_unique hq hq'
    exact absurd hlt (not_lt.mpr hle)

/-- A round at a job that waits on a full queue writes down the reason. -/
theorem Round.waitsForRoom (h : Round s a s' b) (hj : s.jobTable.get? a = some j)
    (hwaits : j.Startable) (hfull : s.QueueFull j) :
    b = false ∧ ∃ j', s'.jobTable.get? a = some j' ∧ j'.WaitsForRoom ∧ s'.QueueFull j' := by
  have hfilled := h.filled
  cases h with
  | skip hi hidle _ =>
    obtain rfl := mem_unique hj hi
    exact absurd hwaits hidle
  | wait _ hwhy _ hshift =>
    obtain rfl := hshift.unique hj
    have hreason := pendingFor_of_queueFull hj hfull hwhy
    refine ⟨rfl, _, hshift.found', ⟨hwaits, ?_⟩, hfilled.queueFull hfull⟩
    rcases hreason with hr | hr
    · exact .inr (congrArg PendReason.toInt (some.inj hr))
    · exact .inl (congrArg PendReason.toInt (some.inj hr))
  | start _ hclear _ hshift =>
    obtain rfl := hshift.unique hj
    obtain ⟨q, hq, hle⟩ := hfull
    obtain ⟨q', hq', hlt, -⟩ := hclear.queue
    obtain rfl := mem_unique hq hq'
    exact absurd hlt (not_lt.mpr hle)

/-- A round at another job leaves the job. -/
theorem Round.other {c : Addr} (h : Round s a s' b) (hc : c ≠ a) :
    s'.jobTable.get? c = s.jobTable.get? c := by
  cases h with
  | skip _ _ heq => rw [heq]
  | wait _ _ _ hshift | start _ _ _ hshift => exact hshift.get?_of_ne hc

/-- **A job that waits on a full queue stays so**, whatever the loop does next. -/
theorem Round.keeps_waitsForRoom {c : Addr} (h : Round s a s' b)
    (hc : ∃ j, s.jobTable.get? c = some j ∧ j.WaitsForRoom ∧ s.QueueFull j) :
    ∃ j, s'.jobTable.get? c = some j ∧ j.WaitsForRoom ∧ s'.QueueFull j := by
  obtain ⟨j, hj, hwaits, hfull⟩ := hc
  rcases eq_or_ne c a with rfl | hca
  · exact (h.waitsForRoom hj hwaits.waits hfull).2
  · exact ⟨j, (h.other hca).trans hj, hwaits, h.filled.queueFull hfull⟩

/-! ### The loop -/

/-- The loop comes to the job at `a`, and the server is then in state `u`. -/
inductive Reaches (n : ℤ) (a : Addr) (u : Server) : ℤ → List (Option Addr) → Server → Prop
  | here {k : ℤ} {pool : List (Option Addr)} : Reaches n a u k (some a :: pool) u
  | gap {k : ℤ} {pool : List (Option Addr)} {t : Server} (h : Reaches n a u k pool t) :
      Reaches n a u k (none :: pool) t
  | round {k : ℤ} {c : Addr} {b : Bool} {pool : List (Option Addr)} {t t' : Server}
      (htry : tryStart c t = .ok (b, t')) (hmore : ¬(b = true ∧ n ≤ k + 1))
      (h : Reaches n a u (if b then k + 1 else k) pool t') : Reaches n a u k (some c :: pool) t

/-- A pass outside readonly mode comes to the job at `a`, and the server is then in state `u`. -/
def Reached (s : Server) (a : Addr) (u : Server) : Prop :=
  ¬s.Full ∧ ∃ t, whenever (s.candidateRecalc = true) generateCandidatePool s = .ok ((), t) ∧
    Reaches (jobsToStart t) a u 0 t.candidatePool t

/-- The rest of the loop. -/
theorem Reaches.rest {n k : ℤ} {u : Server} (h : Reaches n a u k pool s)
    (hrun : startFrom n k pool s = .ok ((), s')) :
    ∃ k' rest, startFrom n k' (some a :: rest) u = .ok ((), s') := by
  induction h with
  | here => exact ⟨_, _, hrun⟩
  | gap _ ih => exact ih hrun
  | round htry hmore _ ih =>
    rcases startFrom_cons hrun with ⟨habs, -⟩ | ⟨c, b, t, hc, htry', hrest⟩
    · exact nomatch habs
    obtain rfl := some.inj hc
    obtain ⟨rfl, rfl⟩ := Prod.mk.inj (Except.ok.inj (htry.symm.trans htry'))
    rcases hrest with ⟨hb, hlast, -⟩ | ⟨-, hrest⟩
    · exact absurd ⟨hb, hlast⟩ hmore
    · exact ih hrest

/-- A job that is reached when its queue is full waits for room at the end of the loop. -/
theorem startFrom_waitsForRoom {n k : ℤ} {rest : List (Option Addr)}
    (h : startFrom n k (some a :: rest) s = .ok ((), s')) (hj : s.jobTable.get? a = some j)
    (hwaits : j.Startable) (hfull : s.QueueFull j) :
    ∃ j', s'.jobTable.get? a = some j' ∧ j'.WaitsForRoom := by
  rcases startFrom_cons h with ⟨habs, -⟩ | ⟨c, b, t, hc, htry, hrest⟩
  · exact nomatch habs
  obtain rfl := some.inj hc
  obtain ⟨rfl, hstuck⟩ := (tryStart_round htry).waitsForRoom hj hwaits hfull
  rcases hrest with ⟨hb, -⟩ | ⟨-, hrest⟩
  · exact nomatch hb
  obtain ⟨j', hj', hroom, -⟩ :=
    startFrom_invariant (I := fun t ↦ ∃ j, t.jobTable.get? a = some j ∧ j.WaitsForRoom ∧
      t.QueueFull j) (fun _ hround ↦ hround.keeps_waitsForRoom) hrest hstuck
  exact ⟨j', hj', hroom⟩

/-- Only jobs of the pool that wait are written to. -/
def TouchesWaiting (pool : List (Option Addr)) (s s' : Server) : Prop :=
  ∀ a, s'.jobTable.get? a = s.jobTable.get? a ∨
    some a ∈ pool ∧ ∃ j, s.jobTable.get? a = some j ∧ j.Startable

theorem TouchesWaiting.refl (pool : List (Option Addr)) (s : Server) : TouchesWaiting pool s s :=
  fun _ ↦ .inl rfl

theorem TouchesWaiting.trans {s s' s'' : Server} (h : TouchesWaiting pool s s')
    (h' : TouchesWaiting pool s' s'') : TouchesWaiting pool s s'' := by
  intro a
  rcases h a with heq | hfirst
  · rcases h' a with heq' | ⟨ha, j, hj, hwaits⟩
    · exact .inl (heq'.trans heq)
    · exact .inr ⟨ha, j, heq ▸ hj, hwaits⟩
  · exact .inr hfirst

/-- A change of one job of the pool that waits. -/
theorem TouchesWaiting.single {k : Cost} (h : Shift a j j' k s.toCore s'.toCore)
    (ha : some a ∈ pool) (hwaits : j.Startable) : TouchesWaiting pool s s' := by
  intro c
  rcases eq_or_ne c a with rfl | hca
  · exact .inr ⟨ha, j, h.found, hwaits⟩
  · exact .inl (h.get?_of_ne hca)

theorem Round.touchesWaiting (h : Round s a s' b) (ha : some a ∈ pool) :
    TouchesWaiting pool s s' := by
  cases h with
  | skip _ _ heq =>
    subst heq
    exact .refl pool s
  | wait hwaits _ _ hshift | start hwaits _ _ hshift => exact .single hshift ha hwaits

/-! ### Readonly mode -/

/-- A change of a job that leaves its state and its queue and takes no slot leaves the load. -/
theorem QueuesFilled.of_shift (h : Shift a j j' {} s.toCore s'.toCore) (hstate : j'.state = j.state)
    (hqueue : j'.queue = j.queue) : QueuesFilled s s' := by
  intro b
  refine optionRel_mono (fun _ hmoved ↦ ?_) (h.queues b)
  obtain ⟨hlimit, hload⟩ := hmoved.load hstate hqueue
  rw [ite_self, add_zero] at hload
  exact ⟨hlimit, hload.ge, hload.le.trans (le_max_left _ _)⟩

/-! ### The pass -/

/-- What a pass does to the queues and the jobs. -/
structure LimitsKept (s s' : Server) : Prop where
  /-- No queue is filled above its limit. -/
  limit : ∀ b q, s.queueTable.get? b = some q → ∃ q', s'.queueTable.get? b = some q' ∧
    q'.jobLimit = q.jobLimit ∧ q'.load ≤ max q.load q.jobLimit
  /-- A job that is reached when its queue is full waits for room. -/
  full : s.readonly = none → ∀ {a u j}, Reached s a u → u.jobTable.get? a = some j → j.Startable →
    u.QueueFull j → ∃ j', s'.jobTable.get? a = some j' ∧ j'.WaitsForRoom
  /-- The other jobs are left alone. -/
  touched : TouchesWaiting s.passPool s s'

theorem QueuesFilled.limit (h : QueuesFilled s s') (b : Addr) (q : Queue)
    (hq : s.queueTable.get? b = some q) :
    ∃ q', s'.queueTable.get? b = some q' ∧ q'.jobLimit = q.jobLimit ∧
    q'.load ≤ max q.load q.jobLimit := by
  obtain ⟨q', hq', hfilled⟩ := optionRel_some (h b) hq
  exact ⟨q', hq', hfilled.limit, hfilled.bound⟩

/-- **A pass keeps the limits of the queues**, from any state of the server. -/
theorem checkJobs_limitsKept {s s' : Server} (h : checkJobs s = .ok ((), s')) :
    LimitsKept s s' := by
  rcases checkJobs_cases h with ⟨hfull, rfl⟩ | ⟨-, t, hsame, hpool, hgen, hwalk⟩
  · exact ⟨(QueuesFilled.refl s).limit, fun _ _ _ _ hreached ↦ absurd hfull hreached.1, .refl _ s⟩
  have hqueues : t.queueTable = s.queueTable := by
    obtain ⟨n, pool, recalc, rfl⟩ := hsame
    rfl
  have hjobs : t.jobTable = s.jobTable := by
    obtain ⟨n, pool, recalc, rfl⟩ := hsame
    rfl
  have hall : QueuesFilled t s' ∧ TouchesWaiting t.candidatePool t s' := by
    rcases hwalk with ⟨-, htag⟩ | ⟨-, hstart⟩
    · refine each_rel (R := fun u u' ↦ QueuesFilled u u' ∧ TouchesWaiting t.candidatePool u u')
        (fun u ↦ ⟨.refl u, .refl _ u⟩) (fun h h' ↦ ⟨h.1.trans h'.1, h.2.trans h'.2⟩)
        (fun x hx u u' hround ↦ ?_) htag
      rcases tagReadonly_cases hround with rfl | ⟨a, j, rfl, hwaits, hshift, -⟩
      · exact ⟨.refl u, .refl _ u⟩
      · exact ⟨.of_shift hshift rfl rfl, .single hshift hx hwaits⟩
    · exact startFrom_rel (R := fun u u' ↦ QueuesFilled u u' ∧ TouchesWaiting t.candidatePool u u')
        (fun u ↦ ⟨.refl u, .refl _ u⟩) (fun h h' ↦ ⟨h.1.trans h'.1, h.2.trans h'.2⟩)
        (fun ha hround ↦ ⟨hround.filled, hround.touchesWaiting ha⟩) hstart
  refine ⟨fun b q hq ↦ hall.1.limit b q (hqueues ▸ hq), ?_, ?_⟩
  · intro hreadonly a u j hreached hj hwaits hfull
    obtain ⟨-, t', hgen', hreaches⟩ := hreached
    obtain ⟨-, rfl⟩ := Prod.mk.inj (Except.ok.inj (hgen.symm.trans hgen'))
    rcases hwalk with ⟨hro, -⟩ | ⟨-, hstart⟩
    · rw [hreadonly] at hro
      exact absurd hro Bool.false_ne_true
    · obtain ⟨k', rest, hrest⟩ := hreaches.rest hstart
      exact startFrom_waitsForRoom hrest hj hwaits hfull
  · intro a
    rw [← hpool, ← hjobs]
    exact hall.2 a

/-- The third of three jobs is reached when the queue, which is for two jobs, is full. -/
theorem limitsKept_three_jobs : ∃ s s', checkJobs s = .ok ((), s') ∧ LimitsKept s s' ∧
    (s.queueTable.get? 0).map Queue.load = some 0 ∧ (s'.queueTable.get? 0).map Queue.load = some 2 ∧
    (s'.jobTable.get? 2).map Job.pendReason = some PendReason.queuefull.toInt := by
  obtain ⟨s, -, hbefore, t, hs', ht⟩ := exists_runs anyEvent config hosts
    (events (readyQueue ++ List.replicate 3 (.client root Sample.addJob)))
    (fun s ↦ (s.queueTable.get? 0).map Queue.load = some 0 ∧ ∃ t ∈ after (env, .checkJobs) s,
      (t.queueTable.get? 0).map Queue.load = some 2 ∧
      (t.jobTable.get? 2).map Job.pendReason = some PendReason.queuefull.toInt) (by decide +kernel)
  have hstep := step_of_after hs'
  exact ⟨s, t, hstep, checkJobs_limitsKept hstep, hbefore, ht⟩

end Jers
