import Jers.Server.MovesJobs

/-!
# A scheduling pass, taken apart

What `checkJobs` comes down to: nothing, or a walk over the candidate pool, which has been made anew
if it was asked for. The pool that is made anew is the sorted list of the candidates, unless the
counters say that no job is pending.

Outside readonly mode the walk is a sequence of rounds. A `Round` passes over a job that does not
wait, writes down why a job has to wait, or starts a job that passes every check (`Clear`). What is
true of the rounds is true of the pass (`startFrom_rel`, `startFrom_invariant`).
-/

namespace Jers

open Exec List Option

variable {s s' : Server} {a : Addr} {j : Job}

/-! ### The pool -/

/-- The candidates in the order of their ranks. -/
def Tables.sortedCandidates (s : Tables) : List Addr :=
  s.candidates.insertionSort fun a b ↦ (s.rank a).comp (s.rank b) ≤ 0

/-- The pool that a pass walks over. -/
def Server.passPool (s : Server) : List (Option Addr) :=
  if s.candidateRecalc then
    if s.stats.pending = 0 then [] else s.sortedCandidates.map some
  else
    s.candidatePool

/-- A state that differs in the candidate pool at most. -/
def Repooled (s t : Server) : Prop :=
  ∃ n pool recalc,
  t = { s with candidatePoolSize := n, candidatePool := pool, candidateRecalc := recalc }

/-- A new pool changes nothing but the pool. -/
theorem generateCandidatePool_eq (h : generateCandidatePool s = .ok ((), s')) :
    Repooled s s' ∧ s'.candidatePool = if s.stats.pending = 0 then [] else s.sortedCandidates.map
    some := by
  obtain ⟨_, t, hupd, h₁⟩ := bind_ok_iff.mp h
  obtain ⟨n, rfl⟩ : ∃ n, t = { s with candidatePoolSize := n } := by
    rw [update_ok_iff.mp hupd]
    dsimp only
    split
    · exact ⟨_, rfl⟩
    · exact ⟨s.candidatePoolSize, rfl⟩
  obtain ⟨_, rfl, h₂⟩ := read_bind_ok_iff.mp h₁
  split at h₂
  · next hzero =>
    rw [update_ok_iff.mp h₂, if_pos hzero]
    exact ⟨⟨n, [], false, rfl⟩, rfl⟩
  next hpending =>
  obtain ⟨_, rfl, h₃⟩ := read_bind_ok_iff.mp h₂
  obtain ⟨size, -, h₄⟩ := read_bind_ok_iff.mp h₃
  split at h₄
  · exact (stop_ok_iff.mp h₄).elim
  obtain ⟨dangling, -, h₅⟩ := read_bind_ok_iff.mp h₄
  split at h₅
  · exact (stop_ok_iff.mp h₅).elim
  rw [update_ok_iff.mp h₅, if_neg hpending]
  exact ⟨⟨n, _, false, rfl⟩, rfl⟩

/-- The pool is found as it is, or made anew. -/
theorem whenever_generateCandidatePool
    (h : whenever (s.candidateRecalc = true) generateCandidatePool s = .ok ((), s')) :
    Repooled s s' ∧ s'.candidatePool = s.passPool := by
  rcases whenever_ok_iff.mp h with ⟨hrecalc, hgen⟩ | ⟨hrecalc, rfl⟩
  · obtain ⟨hsame, hpool⟩ := generateCandidatePool_eq hgen
    exact ⟨hsame, by rw [hpool, Server.passPool, if_pos hrecalc]⟩
  · exact ⟨⟨_, _, _, rfl⟩, by rw [Server.passPool, if_neg hrecalc]⟩

/-- There is no room for another job on the server. -/
def Server.Full (s : Server) : Prop :=
  s.config.maxRunJobs ≠ -1 ∧ s.config.maxRunJobs ≤ s.stats.running

/-- **What a pass is**: nothing when the system is full, and otherwise a walk over the pool. -/
theorem checkJobs_cases (h : checkJobs s = .ok ((), s')) :
    s.Full ∧ s = s' ∨ ¬s.Full ∧ ∃ t, Repooled s t ∧ t.candidatePool = s.passPool ∧
      whenever (s.candidateRecalc = true) generateCandidatePool s = .ok ((), t) ∧
      (s.readonly.isSome ∧ each tagReadonly t.candidatePool t = .ok ((), s') ∨
        s.readonly = none ∧ startFrom (jobsToStart t) 0 t.candidatePool t = .ok ((), s')) := by
  obtain ⟨_, rfl, h₁⟩ := read_bind_ok_iff.mp h
  split at h₁
  · next hfull => exact .inl ⟨hfull, (pure_ok_iff.mp h₁).2⟩
  next hroom =>
  obtain ⟨_, t, hgen, h₂⟩ := bind_ok_iff.mp h₁
  obtain ⟨v, _, hr, h₃⟩ := bind_ok_iff.mp h₂
  obtain ⟨rfl, rfl⟩ := read_ok_iff.mp hr
  obtain ⟨hsame, hpool⟩ := whenever_generateCandidatePool hgen
  refine .inr ⟨hroom, t, hsame, hpool, hgen, ?_⟩
  have hreadonly : t.readonly = s.readonly := by
    obtain ⟨n, pool, recalc, rfl⟩ := hsame
    rfl
  split at h₃
  · next hro => exact .inl ⟨hreadonly ▸ hro, h₃⟩
  · next hro => exact .inr ⟨hreadonly ▸ not_isSome_iff_eq_none.mp hro, h₃⟩

/-! ### Rounds -/

/-- The job waits to be started. -/
def Job.Startable (j : Job) : Prop := j.state = .pending ∧ j.internalState.started = false

instance (j : Job) : Decidable j.Startable := inferInstanceAs (Decidable (_ ∧ _))

/-- The number of jobs that count against the limit of a queue. -/
def Queue.load (q : Queue) : ℤ := q.stats.running + q.stats.startPending

/-- Every requirement of a list can be met for itself. -/
def Available (c : Core) (reqs : List JobResource) : Prop :=
  ∀ x ∈ reqs, ∃ r, c.resTable.get? x.res = some r ∧ x.needed ≤ r.count - r.inUse

/-- The job passes every check of the scheduler. -/
structure Clear (s : Server) (j : Job) (reqs : List JobResource) : Prop where
  system : s.config.maxRunJobs = -1 ∨ s.stats.running + s.stats.startPending ≤ s.config.maxRunJobs
  queue : ∃ q, s.queueTable.get? j.queue = some q ∧ q.load < q.jobLimit ∧ q.isStarted = true ∧
    ∃ g agent, q.agent = some g ∧ s.agents.get? g = some agent ∧ agent.loggedIn = true ∧
    agent.recon = false
  requires : j.requirements = .ok reqs
  available : Available s.toCore reqs

variable {reqs : List JobResource} {x : Option Addr}

/-- A test of the requirements changes nothing, and a job that passes it has what it requires. -/
theorem lacksRes_ok {b : Bool} (h : lacksRes reqs s = .ok (b, s')) :
    s = s' ∧ (b = false → Available s.toCore reqs) := by
  induction reqs with
  | nil => exact ⟨(pure_ok_iff.mp h).2, fun _ x hx ↦ nomatch hx⟩
  | cons x reqs ih =>
    obtain ⟨r, hr, h₁⟩ := getRes_bind_ok h
    obtain ⟨free, _, hl, h₂⟩ := bind_ok_iff.mp h₁
    obtain ⟨hfree, rfl⟩ := lift_ok_iff.mp hl
    split at h₂
    · obtain ⟨rfl, rfl⟩ := pure_ok_iff.mp h₂
      exact ⟨rfl, nofun⟩
    · next henough =>
      refine ⟨(ih h₂).1, fun hb y hy ↦ ?_⟩
      rcases mem_cons.mp hy with rfl | hy
      · exact ⟨r, hr, (not_lt.mp henough).trans (int32_ok hfree).le⟩
      · exact (ih h₂).2 hb y hy

/-- More jobs run or are being started than the server is to have. -/
def Server.Busy (s : Server) : Prop :=
  s.config.maxRunJobs ≠ -1 ∧ s.config.maxRunJobs < s.stats.running + s.stats.startPending

/-- The reasons for which a job waits on its own account. -/
def PendReason.own : PendReason → Bool
  | .queuefull | .nores | .queuestopped | .agentdown | .recon => true
  | _ => false

/-- What is found out about a job that waits: the reason to wait, or that there is none. -/
inductive Verdict (s : Server) (j : Job) : Option PendReason → Prop
  | busy (hbusy : s.Busy) : Verdict s j (some .systemfull)
  | own {q : Queue} {r : PendReason} (hq : s.queueTable.get? j.queue = some q) (hown : r.own = true)
      (hroom : r ≠ .queuefull → q.load < q.jobLimit) : Verdict s j (some r)
  | clear {reqs : List JobResource} (hclear : Clear s j reqs) : Verdict s j none

/-- **The checks of the scheduler.** -/
theorem pendingFor_ok {reason : Option PendReason} (h : pendingFor a s = .ok (reason, s')) :
    s = s' ∧ ∃ j, s.jobTable.get? a = some j ∧ Verdict s j reason := by
  obtain ⟨j, hj, h₁⟩ := getJob_bind_ok h
  obtain ⟨_, rfl, h₂⟩ := read_bind_ok_iff.mp h₁
  split at h₂
  · next hbusy =>
    obtain ⟨rfl, rfl⟩ := pure_ok_iff.mp h₂
    exact ⟨rfl, j, hj, .busy hbusy⟩
  next hsystem =>
  rw [id_eq, not_and_or, not_not, not_lt] at hsystem
  obtain ⟨q, hq, h₃⟩ := getQueue_bind_ok h₂
  split at h₃
  · obtain ⟨rfl, rfl⟩ := pure_ok_iff.mp h₃
    exact ⟨rfl, j, hj, .own hq rfl fun hr ↦ absurd rfl hr⟩
  next hload =>
  -- the other reasons are found with room on the queue
  have hown {r : PendReason} (hr : r.own = true)
      (hret : (pure (some r) : Daemon _) s = .ok (reason, s')) :
      s = s' ∧ ∃ j, s.jobTable.get? a = some j ∧ Verdict s j reason := by
    obtain ⟨rfl, rfl⟩ := pure_ok_iff.mp hret
    exact ⟨rfl, j, hj, .own hq hr fun _ ↦ not_le.mp hload⟩
  obtain ⟨lacking, t, hcheck, h₄⟩ := bind_ok_iff.mp h₃
  have hcheck₁ := getJob_bind_at hj hcheck
  obtain ⟨reqs, _, hl, hcheck₂⟩ := bind_ok_iff.mp hcheck₁
  obtain ⟨hreqs, rfl⟩ := lift_ok_iff.mp hl
  obtain ⟨rfl, havailable⟩ := lacksRes_ok hcheck₂
  split at h₄
  · exact hown rfl h₄
  next henough =>
  split at h₄
  · exact hown rfl h₄
  next hstarted =>
  generalize hagent : q.agent = agent at h₄
  cases agent with
  | none => exact hown rfl h₄
  | some g =>
    obtain ⟨v, hv, h₅⟩ := getAgent_bind_ok h₄
    split at h₅
    · exact hown rfl h₅
    next hlogin =>
    split at h₅
    · exact hown rfl h₅
    next hrecon =>
    obtain ⟨rfl, rfl⟩ := pure_ok_iff.mp h₅
    refine ⟨rfl, j, hj, .clear ⟨hsystem, ⟨q, hq, not_le.mp hload, by simpa using hstarted, ?_⟩,
      hreqs, havailable (Bool.eq_false_of_not_eq_true henough)⟩⟩
    exact ⟨g, v, hagent, hv, by simpa using hlogin, by simpa using hrecon⟩

theorem resNames_ok {names : List (Str × ℤ)} (h : resNames reqs s = .ok (names, s')) : s = s' := by
  induction reqs generalizing names s' with
  | nil => exact (pure_ok_iff.mp h).2
  | cons x reqs ih =>
    obtain ⟨r, -, h₁⟩ := getRes_bind_ok h
    obtain ⟨rest, -, hrest⟩ := bind_pure_ok h₁
    exact ih hrest

theorem sendStartCmd_ok (h : sendStartCmd a s = .ok ((), s')) :
    ∃ j reqs, s.jobTable.get? a = some j ∧ j.requirements = .ok reqs ∧ s.toCore = s'.toCore := by
  obtain ⟨j, hj, h₁⟩ := getJob_bind_ok h
  obtain ⟨q, -, h₂⟩ := getQueue_bind_ok h₁
  obtain ⟨reqs, _, hl, h₃⟩ := bind_ok_iff.mp h₂
  obtain ⟨hreqs, rfl⟩ := lift_ok_iff.mp hl
  obtain ⟨names, _, hnames, h₄⟩ := bind_ok_iff.mp h₃
  obtain rfl := resNames_ok hnames
  refine ⟨j, reqs, hj, hreqs, ?_⟩
  generalize q.agent = agent at h₄
  cases agent with
  | none => exact (stop_ok_iff.mp h₄).elim
  | some g =>
    obtain ⟨nice, -, hsend⟩ := read_bind_ok_iff.mp h₄
    exact (sendAgentMessage_toCore hsend).symm

/-- The resources of a job that is started. -/
theorem whenever_allocate_shift (hj : s.jobTable.get? a = some j)
    (h : whenever (j.resCount ≠ 0) (allocateRes a) s = .ok ((), s')) :
    ∃ reqs, j.requirements = .ok reqs ∧ Shift a j
        { j with
          history.held := if j.resCount ≠ 0 then reqs else j.history.held }
        { use := amount reqs } s.toCore s'.toCore := by
  rcases whenever_ok_iff.mp h with ⟨hne, h⟩ | ⟨hzero, rfl⟩
  · obtain ⟨reqs, hreqs, hshift⟩ := allocateRes_shift hj h
    refine ⟨reqs, hreqs, ?_⟩
    rw [if_pos hne]
    exact hshift
  · refine ⟨[], Job.requirements_of_resCount_zero (not_not.mp hzero), ?_⟩
    rw [if_neg hzero]
    exact Shift.refl hj

theorem startJob_shift (hj : s.jobTable.get? a = some j) (h : startJob a s = .ok ((), s')) :
    ∃ reqs, j.requirements = .ok reqs ∧
      Shift a j (j.begun reqs) { slots := 1, use := amount reqs } s.toCore s'.toCore := by
  have h₁ := getJob_bind_at hj h
  obtain ⟨_, t, halloc, h₂⟩ := bind_ok_iff.mp h₁
  obtain ⟨_, u, hsend, h₃⟩ := bind_ok_iff.mp h₂
  obtain ⟨_, v, hmod, hcount⟩ := bind_ok_iff.mp h₃
  obtain ⟨reqs, hreqs, htaken⟩ := whenever_allocate_shift hj halloc
  obtain ⟨-, -, -, -, hcore⟩ := sendStartCmd_ok hsend
  rw [hcore] at htaken
  have hedit := htaken.edits hmod rfl rfl
  have hall := hedit.trans (Shift.slots hedit.found' 1) (.inl rfl)
  have hcost (f : Addr → ℤ) :
      Cost.andThen { use := f } { slots := 1 } = { slots := 1, use := f } := by
    simp [Cost.andThen, Audit.join]
  rw [hcost] at hall
  rw [countStartPending_ok hcount]
  exact ⟨reqs, hreqs, hall⟩

/-- What the loop does at one entry of the pool, and whether it starts the job. -/
inductive Round (s : Server) (a : Addr) (s' : Server) : Bool → Prop
  | skip {j : Job} (hj : s.jobTable.get? a = some j) (hidle : ¬j.Startable) (heq : s = s') :
      Round s a s' false
  | wait {j : Job} {r : PendReason} (hwaits : j.Startable) (hwhy : pendingFor a s = .ok (some r, s))
      (heq : s' =
        { s with jobTable := s.jobTable.modify a fun j ↦ { j with pendReason := r.toInt } })
      (hshift : Shift a j { j with pendReason := r.toInt } {} s.toCore s'.toCore) :
      Round s a s' false
  | start {j : Job} {reqs : List JobResource} (hwaits : j.Startable) (hclear : Clear s j reqs)
      (hstart : startJob a s = .ok ((), s'))
      (hshift : Shift a j (j.begun reqs) { slots := 1, use := amount reqs } s.toCore s'.toCore) :
      Round s a s' true

/-- **A round of the loop.** -/
theorem tryStart_round {b : Bool} (h : tryStart a s = .ok (b, s')) : Round s a s' b := by
  obtain ⟨j, hj, h₁⟩ := getJob_bind_ok h
  split at h₁
  · next hidle =>
    obtain ⟨rfl, heq⟩ := pure_ok_iff.mp h₁
    refine .skip hj (fun hwaits ↦ ?_) heq
    rcases hidle with hstate | hflag
    · exact hstate hwaits.1
    · exact nomatch hflag.symm.trans hwaits.2
  next hwaits =>
  simp only [not_or, not_not, Bool.not_eq_true] at hwaits
  obtain ⟨reason, t, hpend, h₂⟩ := bind_ok_iff.mp h₁
  obtain ⟨rfl, i, hi, hverdict⟩ := pendingFor_ok hpend
  obtain rfl := mem_unique hj hi
  cases reason with
  | some r =>
    obtain ⟨_, rfl, hmod⟩ := bind_pure_ok h₂
    obtain ⟨-, -, heq⟩ := modifyJob_ok hmod
    exact .wait hwaits hpend heq ((Shift.refl hj).edits hmod rfl rfl)
  | none =>
    obtain ⟨_, rfl, hstart⟩ := bind_pure_ok h₂
    cases hverdict with
    | @clear reqs hclear =>
    obtain ⟨reqs', hreqs', hshift⟩ := startJob_shift hj hstart
    obtain rfl := Except.ok.inj (hclear.requires.symm.trans hreqs')
    exact .start hwaits hclear hstart hshift

/-- In readonly mode a round writes a reason to a job that waits. -/
theorem tagReadonly_cases (h : tagReadonly x s = .ok ((), s')) :
    s = s' ∨ ∃ a j, x = some a ∧ j.Startable ∧
      Shift a j { j with pendReason := PendReason.readonly.toInt } {} s.toCore s'.toCore ∧
      s' = { s with
        jobTable :=
          s.jobTable.modify a fun j ↦ { j with pendReason := PendReason.readonly.toInt } } := by
  cases x with
  | none => exact .inl (pure_ok_iff.mp h).2
  | some a =>
    obtain ⟨j, hj, h₁⟩ := getJob_bind_ok h
    rcases whenever_ok_iff.mp h₁ with ⟨hwaits, hmod⟩ | ⟨-, rfl⟩
    · obtain ⟨-, -, heq⟩ := modifyJob_ok hmod
      exact .inr ⟨a, j, rfl, ⟨hwaits.1, by simpa using hwaits.2⟩,
        (Shift.refl hj).edits hmod rfl rfl, heq⟩
    · exact .inl rfl

variable {n k : ℤ} {pool : List (Option Addr)}

/-- An entry of the pool: a gap, or a round after which the loop goes on or ends. -/
theorem startFrom_cons (h : startFrom n k (x :: pool) s = .ok ((), s')) :
    x = none ∧ startFrom n k pool s = .ok ((), s') ∨
      ∃ a b t, x = some a ∧ tryStart a s = .ok (b, t) ∧ (b = true ∧ n ≤ k + 1 ∧ t = s' ∨
          ¬(b = true ∧ n ≤ k + 1) ∧ startFrom n (if b then k + 1 else k) pool t = .ok ((),
          s')) := by
  cases x with
  | none => exact .inl ⟨rfl, h⟩
  | some a =>
    obtain ⟨b, t, htry, h₁⟩ := bind_ok_iff.mp h
    refine .inr ⟨a, b, t, rfl, htry, ?_⟩
    cases b with
    | false => exact .inr ⟨fun hb ↦ absurd hb.1 nofun, h₁⟩
    | true =>
      simp only [if_true] at h₁
      split at h₁
      · next hlast => exact .inl ⟨rfl, hlast, (pure_ok_iff.mp h₁).2⟩
      · next hmore => exact .inr ⟨fun hb ↦ hmore hb.2, h₁⟩

/-- What every round does, the loop does. -/
theorem startFrom_rel {R : Server → Server → Prop} (hrefl : ∀ t, R t t)
    (htrans : ∀ {t u v}, R t u → R u v → R t v)
    (hround : ∀ {a b t t'}, some a ∈ pool → Round t a t' b → R t t')
    (h : startFrom n k pool s = .ok ((), s')) : R s s' := by
  induction pool generalizing k s with
  | nil =>
    obtain ⟨-, rfl⟩ := pure_ok_iff.mp h
    exact hrefl s
  | cons x pool ih =>
    have hrest : ∀ {a b t t'}, some a ∈ pool → Round t a t' b → R t t' :=
      fun ha hr ↦ hround (mem_cons_of_mem x ha) hr
    rcases startFrom_cons h with ⟨rfl, h₁⟩ | ⟨a, b, t, rfl, htry, ⟨-, -, rfl⟩ | ⟨-, h₁⟩⟩
    · exact ih hrest h₁
    · exact hround mem_cons_self (tryStart_round htry)
    · exact htrans (hround mem_cons_self (tryStart_round htry)) (ih hrest h₁)

/-- What every round keeps, the loop keeps. -/
theorem startFrom_invariant {I : Server → Prop}
    (hround : ∀ {a b t t'}, some a ∈ pool → Round t a t' b → I t → I t')
    (h : startFrom n k pool s = .ok ((), s')) (hs : I s) : I s' :=
  startFrom_rel (R := fun t t' ↦ I t → I t') (fun _ ↦ id) (fun h₁ h₂ ↦ h₂ ∘ h₁) hround h hs

end Jers
