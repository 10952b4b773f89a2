import Jers.Server.MovesEvents

/-!
# The books of the scheduler

The candidate pool, the flag that asks for a new one and the counter of deleted jobs are kept beside
the job table. `BookStep` lists the ways in which they change together, and the functions of
`jobs.c` and of the scheduler go by such steps.
-/

namespace Jers

open Exec Option Table

/-- The job table with the candidate pool, its flag and the counter of deleted jobs. -/
structure Books where
  jobs : Table Job
  pool : List (Option Addr)
  recalc : Bool
  deleted : ℕ

def Server.books (s : Server) : Books := ⟨s.jobTable, s.candidatePool, s.candidateRecalc, s.deleted⟩

/-- The states that ask for a new candidate pool. -/
def JobState.waits : JobState → Bool
  | .pending | .deferred | .holding => true
  | _ => false

/-- How the books change. Only jobs that `L` allows are lost, and a new pool is made only if `G`
allows it. -/
inductive BookStep (L : Job → Prop) (G : Prop) : Books → Books → Prop
  | quiet {b : Books} : BookStep L G b b
  /-- A job is written to, but not its id, its queue, its state and its deletion flag. -/
  | edit {b : Books} {a : Addr} {j j' : Job} :
      b.jobs.get? a = some j → j'.jobid = j.jobid → j'.queue = j.queue → j'.state = j.state →
      j'.internalState.deleted = j.internalState.deleted →
      BookStep L G b { b with jobs := b.jobs.modify a fun _ ↦ j' }
  | change {b : Books} {a : Addr} {j : Job} {st : JobState} {q : Option Addr} {dirty : Bool} :
      b.jobs.get? a = some j →
      BookStep L G b
        { b with
          jobs := b.jobs.modify a fun _ ↦ j.changed st q dirty
          recalc := b.recalc || (decide (j.state ≠ st ∨ q ≠ none) && st.waits) }
  | lose {b : Books} {a : Addr} {j : Job} :
      b.jobs.get? a = some j → L j →
      BookStep L G b { b with jobs := b.jobs.modify a fun _ ↦ j.lost }
  | delete {b : Books} {a : Addr} {j : Job} :
      b.jobs.get? a = some j → j.internalState.deleted = false →
      BookStep L G b
        { b with jobs := b.jobs.modify a fun _ ↦ j.deleted, deleted := (b.deleted + 1) % 2 ^ 32 }
  | add {b : Books} {j : Job} :
      (b.jobs.find? fun i ↦ i.jobid == j.jobid) = none → j.internalState = {} → j.state = .cleared →
      BookStep L G b { b with jobs := b.jobs.push j }
  | clean {b : Books} {a : Addr} {j : Job} :
      b.jobs.get? a = some j → j.internalState.deleted = true →
      BookStep L G b
        { b with
          jobs := b.jobs.erase a
          pool := clearCandidate a b.pool
          deleted := (b.deleted + 2 ^ 32 - 1) % 2 ^ 32 }
  | ask {b : Books} : BookStep L G b { b with recalc := true }
  | generate {b : Books} {pool : List Addr} :
      G → pool.Nodup → (∀ a, a ∈ pool ↔ ∃ j, b.jobs.get? a = some j ∧
        j.internalState.deleted = false ∧ j.state = .pending) →
      BookStep L G b { b with pool := pool.map some, recalc := false }

/-- One step of the books. -/
def Booked (L : Job → Prop) (G : Prop) (s s' : Server) : Prop := BookStep L G s.books s'.books

/-- Steps of the books. -/
abbrev BookRun (L : Job → Prop) (G : Prop) : Server → Server → Prop :=
  Relation.ReflTransGen (Booked L G)

variable {L : Job → Prop} {G : Prop} {s s' : Server} {a b g : Addr} {dirty : Bool}
  {c : Option Client} {env : Env}

/-! ### Functions that do not touch the books -/

/-- A change outside of the books is no step. -/
theorem update_books {f : Server → Server} (h : ∀ s, (f s).books = s.books) :
    Keeps (BookRun L G) (update f : Daemon Unit) := by
  refine .update fun s ↦ .single ?_
  show BookStep L G s.books (f s).books
  rw [h s]
  exact .quiet

/-- The queues are no part of the books. -/
theorem modifyQueue_books {f : Queue → Queue} : Keeps (BookRun L G) (modifyQueue b f) :=
  .bind .getQueue fun _ ↦ update_books fun _ ↦ rfl

theorem modifyRes_books {f : Resource → Resource} : Keeps (BookRun L G) (modifyRes b f) :=
  .bind .getRes fun _ ↦ update_books fun _ ↦ rfl

theorem modifyAgent_books {f : Agent → Agent} : Keeps (BookRun L G) (modifyAgent g f) :=
  .bind .getAgent fun _ ↦ update_books fun _ ↦ rfl

theorem updateQueue_books : Keeps (BookRun L G) (updateQueue b dirty) :=
  .bind modifyQueue_books fun _ ↦ .whenever fun _ ↦ update_books fun _ ↦ rfl

theorem updateRes_books : Keeps (BookRun L G) (updateRes b dirty) :=
  .bind modifyRes_books fun _ ↦ .whenever fun _ ↦ update_books fun _ ↦ rfl

theorem countStartPending_books {d : ℤ} : Keeps (BookRun L G) (countStartPending b d) :=
  .bind (update_books fun _ ↦ rfl) fun _ ↦ modifyQueue_books

/-! ### Jobs -/

/-- What the books say of a job. -/
def Job.entry (j : Job) : ℕ × Addr × JobState × Bool :=
  (j.jobid, j.queue, j.state, j.internalState.deleted)

/-- A write to a job that keeps its entry. -/
theorem modifyJob_books {f : Job → Job} (hf : ∀ j, (f j).entry = j.entry) :
    Keeps (BookRun L G) (modifyJob a f) := by
  intro s _ s' h
  obtain ⟨j, hj, rfl⟩ := modifyJob_ok h
  have hmod : s.jobTable.modify a f = s.jobTable.modify a fun _ ↦ f j := modify_congr hj rfl
  refine .single ?_
  show BookStep L G s.books { s.books with jobs := s.jobTable.modify a f }
  rw [hmod]
  simp only [Job.entry, Prod.mk.injEq] at hf
  obtain ⟨hid, hqueue, hstate, hdel⟩ := hf j
  exact .edit hj hid hqueue hstate hdel

theorem updateJob_books : Keeps (BookRun L G) (updateJob a dirty) :=
  .bind (modifyJob_books fun _ ↦ rfl) fun _ ↦ .whenever fun _ ↦ update_books fun _ ↦ rfl

variable {j : Job}

/-- What `increment_state` does beside the counters. -/
theorem incrementState_asks (hj : s.jobTable.get? a = some j)
    (h : incrementState a s = .ok ((), s')) : s'.candidatePool = s.candidatePool ∧
      s'.deleted = s.deleted ∧ s'.candidateRecalc = (s.candidateRecalc || j.state.waits) := by
  have h₁ := getJob_bind_at hj h
  obtain ⟨_, t, hcount, h₂⟩ := bind_ok_iff.mp h₁
  obtain rfl := countState_ok hcount
  obtain ⟨_, u, hslot, hask⟩ := bind_ok_iff.mp h₂
  have hu : u.candidatePool = s.candidatePool ∧ u.deleted = s.deleted ∧
      u.candidateRecalc = s.candidateRecalc := by
    rcases whenever_ok_iff.mp hslot with ⟨-, hslot⟩ | ⟨-, rfl⟩
    · rw [countStartPending_ok hslot]
      exact ⟨rfl, rfl, rfl⟩
    · exact ⟨rfl, rfl, rfl⟩
  have hwaits : (j.state = .pending ∨ j.state = .deferred ∨ j.state = .holding) ↔
      j.state.waits = true := by
    cases j.state <;> simp [JobState.waits]
  rcases whenever_ok_iff.mp hask with ⟨hc, hask⟩ | ⟨hc, rfl⟩
  · rw [update_ok_iff.mp hask, hwaits.mp hc, Bool.or_true]
    exact ⟨hu.1, hu.2.1, rfl⟩
  · rw [Bool.eq_false_of_not_eq_true (hc ∘ hwaits.mpr), Bool.or_false]
    exact hu

variable {q : Option Addr} {h : JobResource} {st : JobState}

/-- What `changeJobState` does beside the job and the counters. -/
theorem changeJobState_asks {dirty : Bool}
    (hj : s.jobTable.get? a = some j) (h : changeJobState a st q dirty s = .ok ((), s')) :
    s'.candidatePool = s.candidatePool ∧ s'.deleted = s.deleted ∧ s'.candidateRecalc =
      (s.candidateRecalc || (decide (j.state ≠ st ∨ q ≠ none) && st.waits)) := by
  have h₁ := getJob_bind_at hj h
  obtain ⟨_, t, hmove, hupd⟩ := bind_ok_iff.mp h₁
  have hsame : s'.candidatePool = t.candidatePool ∧ s'.deleted = t.deleted ∧
      s'.candidateRecalc = t.candidateRecalc := by
    obtain ⟨_, v, hmod, hdirty⟩ := bind_ok_iff.mp hupd
    obtain ⟨_, -, rfl⟩ := modifyJob_ok hmod
    rcases whenever_ok_iff.mp hdirty with ⟨-, hdirty⟩ | ⟨-, rfl⟩
    · rw [update_ok_iff.mp hdirty]
      exact ⟨rfl, rfl, rfl⟩
    · exact ⟨rfl, rfl, rfl⟩
  rw [hsame.1, hsame.2.1, hsame.2.2]
  rcases whenever_ok_iff.mp hmove with ⟨hc, hdo⟩ | ⟨hc, rfl⟩
  · obtain ⟨_, t₁, hdec, h₂⟩ := bind_ok_iff.mp hdo
    obtain ⟨_, t₂, hmod, hinc⟩ := bind_ok_iff.mp h₂
    obtain ⟨_, -, hcount⟩ := getJob_bind_ok hdec
    obtain rfl := countState_ok hcount
    obtain ⟨i, hi, rfl⟩ := modifyJob_ok hmod
    rw [decide_eq_true hc, Bool.true_and]
    exact incrementState_asks (get?_modify_self hi _) hinc
  · rw [decide_eq_false hc, Bool.false_and, Bool.or_false]
    exact ⟨rfl, rfl, rfl⟩

/-- **`changeJobState` asks for a new pool** when a job comes to wait. -/
theorem changeJobState_books : Keeps (BookRun L G) (changeJobState a st q dirty) := by
  refine fun s _ s' h ↦ .single ?_
  obtain ⟨j, hshift⟩ := changeJobState_shift h
  obtain ⟨hpool, hdel, hrecalc⟩ := changeJobState_asks hshift.found h
  have hstep : s'.books = { s.books with
      jobs := s.books.jobs.modify a fun _ ↦ j.changed st q dirty
      recalc := s.books.recalc || (decide (j.state ≠ st ∨ q ≠ none) && st.waits) } := by
    show Books.mk _ _ _ _ = Books.mk _ _ _ _
    rw [hpool, hdel, hrecalc, hshift.jobs]
    rfl
  show BookStep L G s.books s'.books
  rw [hstep]
  exact .change hshift.found

/-! ### Resources -/

theorem takeRes_books : Keeps (BookRun L G) (takeRes h) :=
  .bind .getRes fun _ ↦ .bind (.lift _) fun _ ↦ modifyRes_books

theorem giveRes_books : Keeps (BookRun L G) (giveRes h) :=
  .bind .getRes fun _ ↦ .bind (.lift _) fun _ ↦ .bind modifyRes_books fun _ ↦
    .whenever fun _ ↦ update_books fun _ ↦ rfl

theorem allocateRes_books : Keeps (BookRun L G) (allocateRes a) :=
  .bind .getJob fun _ ↦ .bind (.lift _) fun _ ↦ .bind (.each (fun _ ↦ takeRes_books) _) fun _ ↦
    modifyJob_books fun _ ↦ rfl

theorem deallocateRes_books : Keeps (BookRun L G) (deallocateRes a) :=
  .bind .getJob fun _ ↦ .bind (.lift _) fun _ ↦ .bind (.each (fun _ ↦ giveRes_books) _) fun _ ↦
    .bind (.whenever fun _ ↦ update_books fun _ ↦ rfl) fun _ ↦ modifyJob_books fun _ ↦ rfl

theorem lacksRes_books (hs : List JobResource) : Keeps (BookRun L G) (lacksRes hs) := by
  induction hs with
  | nil => exact .pure _
  | cons h hs ih =>
    exact .bind .getRes fun _ ↦ .bind (.lift _) fun _ ↦ .unless <| ih

/-! ### Jobs that come and go -/

/-- A live job is deleted, which is counted. -/
theorem deleteJob_walks (hj : s.jobTable.get? a = some j)
    (hlive : j.internalState.deleted = false) : Walks (Booked L G) (deleteJob a) s := by
  refine .of_step fun {u s'} h ↦ ?_
  have hshift := deleteJob_shift hj h
  obtain ⟨_, t, hmod, h₁⟩ := bind_ok_iff.mp h
  obtain ⟨_, v, hchange, h₂⟩ := bind_ok_iff.mp h₁
  obtain ⟨_, -, h₃⟩ := getJob_bind_ok h₂
  obtain ⟨_, w, hdefer, hupd⟩ := bind_ok_iff.mp h₃
  obtain ⟨_, -, rfl⟩ := modifyJob_ok hmod
  obtain ⟨hpool, hdel, hrecalc⟩ := changeJobState_asks (get?_modify_self hj _) hchange
  have hw : w.candidatePool = v.candidatePool ∧ w.candidateRecalc = v.candidateRecalc ∧
      w.deleted = v.deleted := by
    rcases whenever_ok_iff.mp hdefer with ⟨-, hremove⟩ | ⟨-, rfl⟩
    · rw [removeDeferredJob_ok hremove]
      exact ⟨rfl, rfl, rfl⟩
    · exact ⟨rfl, rfl, rfl⟩
  have hstep : s'.books = { s.books with
      jobs := s.books.jobs.modify a fun _ ↦ j.deleted
      deleted := (s.books.deleted + 1) % 2 ^ 32 } := by
    have hrecalc : v.candidateRecalc = s.candidateRecalc := by simpa [JobState.waits] using hrecalc
    have hjobs := hshift.jobs
    rw [update_ok_iff.mp hupd] at hjobs ⊢
    show Books.mk _ _ _ _ = Books.mk _ _ _ _
    simp only [hw, hpool, hdel, hrecalc]
    rw [show w.jobTable = _ from hjobs]
    rfl
  show BookStep L G s.books s'.books
  rw [hstep]
  exact .delete hj hlive

/-- Freeing deleted jobs. -/
theorem Freed.books (h : Freed s s') : BookRun L G s s' := by
  refine Relation.ReflTransGen.mono (fun s s' hstep ↦ ?_) _ _ h
  cases hstep with
  | free hj hrem => exact .clean hj hrem.1
  | search => exact .quiet

/-- A job is added in state 0 and then changed to its state. -/
theorem addJob_walks (hflags : j.internalState = {}) (dirty : Bool) (s : Server) :
    Walks (Booked L G) (addJob j dirty) s := by
  refine .bind_read ?_
  split
  · exact .pure _ _
  · next hnone =>
    refine .bind_read ?_
    refine .bind (.update (.add (j := { j with state := .cleared }) ?_ hflags rfl)) fun _ ↦ ?_
    · exact not_isSome_iff_eq_none.mp hnone
    · refine Keeps.walks (.bind (.whenever fun _ ↦ update_books fun _ ↦ rfl) fun _ ↦ ?_)
      exact .bind changeJobState_books fun _ ↦ .pure _

/-- The jobs that would be lost with an agent are ones that `L` allows. -/
def Losable (L : Job → Prop) (g : Addr) (s : Server) : Prop :=
  ∀ a j q, s.jobTable.get? a = some j → s.queueTable.get? j.queue = some q → q.agent = some g →
    (j.state = .running ∨ j.internalState.started = true) → L j

theorem markJobUnknown_walks (hL : Losable L g s) : Walks (Booked L G) (markJobUnknown g a) s := by
  refine .bind Keeps.getJob.walks fun {j _} hg ↦ ?_
  obtain ⟨hj, rfl⟩ := getJob_ok hg
  refine .bind Keeps.getQueue.walks fun {q _} hg ↦ ?_
  obtain ⟨hq, rfl⟩ := getQueue_ok hg
  refine .whenever fun hc ↦ .of_step fun {u s'} h ↦ ?_
  obtain ⟨_, t, hmod, hchange⟩ := bind_ok_iff.mp h
  have hedit := (Shift.refl hj).edits hmod rfl rfl
  obtain ⟨hpool, hdel, hrecalc⟩ := changeJobState_asks hedit.found' hchange
  have hjobs : s'.jobTable = s.jobTable.modify a fun _ ↦ j.lost := (hedit.changes rfl hchange).jobs
  obtain ⟨_, -, rfl⟩ := modifyJob_ok hmod
  have hstep : s'.books = { s.books with jobs := s.books.jobs.modify a fun _ ↦ j.lost } := by
    show Books.mk _ _ _ _ = Books.mk _ _ _ _
    rw [hpool, hdel, hrecalc, hjobs]
    simp [JobState.waits, Server.books]
  show BookStep L G s.books s'.books
  rw [hstep]
  exact .lose hj (hL a j q hj hq hc.1 hc.2)

/-- A job that has been lost would not be lost again. -/
theorem Losable.round (hL : Losable L g s) (h : markJobUnknown g a s = .ok ((), s')) :
    Losable L g s' := by
  obtain ⟨j, hj, h₁⟩ := getJob_bind_ok h
  obtain ⟨q, hq, h₂⟩ := getQueue_bind_ok h₁
  rcases whenever_ok_iff.mp h₂ with ⟨-, h₃⟩ | ⟨-, rfl⟩
  · obtain ⟨_, t, hmod, hchange⟩ := bind_ok_iff.mp h₃
    have hshift := ((Shift.refl hj).edits hmod rfl rfl).changes rfl hchange
    intro b k q' hk hq' hagent hrun
    obtain ⟨rfl, rfl⟩ | ⟨-, hk⟩ := hshift.get?_cases hk
    · rcases hrun with hrun | hrun <;> exact nomatch hrun
    · obtain ⟨q₀, hq₀, hmoved⟩ := optionRel_some' (hshift.queues k.queue) hq'
      have hsame : q'.agent = q₀.agent := by rw [hmoved.rest]
      exact hL b k q₀ hk hq₀ (hsame.symm.trans hagent) hrun
  · exact hL

/-- The jobs of an agent that has gone are lost one by one. -/
theorem markJobsUnknown_walks (hL : Losable L g s) : Walks (Booked L G) (markJobsUnknown g) s := by
  refine .bind_read ?_
  exact .each_of_invariant (fun _ _ _ ht ↦ markJobUnknown_walks ht)
    (fun _ _ _ _ ht hround ↦ ht.round hround) hL

theorem autoCleanup_walks (env : Env) (s : Server) : Walks (Booked L G) (autoCleanup env) s := by
  refine .bind (.read _ s) fun _ ↦ .bind (.read _ _) fun _ ↦ .each fun a _ s ↦ ?_
  refine .bind Keeps.getJob.walks fun hg ↦ ?_
  obtain ⟨hj, rfl⟩ := getJob_ok hg
  exact .whenever fun hc ↦ deleteJob_walks hj (by simpa using hc.1)

/-! ### The scheduler -/

theorem releaseFrom_books (now : ℤ) (k : ℕ) (as : List Addr) :
    Keeps (BookRun L G) (releaseFrom now k as) := by
  induction as generalizing k with
  | nil => exact .pure _
  | cons a as ih =>
    refine .bind .getJob fun _ ↦ .unless <| .bind (modifyJob_books fun _ ↦ rfl) fun _ ↦ ?_
    exact .bind changeJobState_books fun _ ↦ .bind (update_books fun _ ↦ rfl) fun _ ↦ ih _

theorem releaseDeferred_books : Keeps (BookRun L G) (releaseDeferred env) :=
  .bind (.read _) fun _ ↦ .bind (releaseFrom_books _ _ _) fun _ ↦
    .whenever fun _ ↦ .update fun _ ↦ .single .ask

/-- The jobs that `generateCandidatePool` looks for. -/
theorem mem_candidates {t : Tables} : a ∈ t.candidates ↔ ∃ j, t.jobTable.get? a = some j ∧
    j.internalState.deleted = false ∧ j.state = .pending := by
  rw [Tables.candidates, List.mem_filter]
  constructor
  · rintro ⟨-, h⟩
    cases hj : t.jobTable.get? a with
    | none =>
      rw [hj] at h
      exact nomatch h
    | some j =>
      rw [hj, any_some] at h
      exact ⟨j, rfl, by simpa using h⟩
  · rintro ⟨j, hj, hdel, hst⟩
    refine ⟨mem_addrs_iff.mpr ⟨j, hj⟩, ?_⟩
    simp [hj, hdel, hst]

/-- **`generateCandidatePool` fills the pool** with the pending jobs, if the counter of these is not
wrong when it is 0. -/
theorem generateCandidatePool_walks (hG : G) (hcount : s.stats.pending = 0 → s.candidates = []) :
    Walks (Booked L G) generateCandidatePool s := by
  have hnodup : s.candidates.Nodup := s.jobTable.nodup.filter _
  refine .of_step fun {u s'} h ↦ ?_
  obtain ⟨_, t, hupd, h₁⟩ := bind_ok_iff.mp h
  have ht : t.books = s.books ∧ t.toCore = s.toCore := by
    rw [update_ok_iff.mp hupd]
    dsimp only
    split <;> exact ⟨rfl, rfl⟩
  obtain ⟨_, rfl, h₂⟩ := read_bind_ok_iff.mp h₁
  -- the pool is a list of the candidates
  suffices hpool : ∃ pool : List Addr, pool.Perm s.candidates ∧
      s'.books = { t.books with pool := pool.map some, recalc := false } by
    obtain ⟨pool, hperm, hbooks⟩ := hpool
    show BookStep L G s.books s'.books
    rw [hbooks, ht.1]
    exact .generate hG (hperm.nodup_iff.mpr hnodup) fun a ↦ hperm.mem_iff.trans mem_candidates
  split at h₂
  · next hzero =>
    refine ⟨[], ?_, by rw [update_ok_iff.mp h₂]; rfl⟩
    rw [hcount (ht.2 ▸ hzero)]
  · obtain ⟨pool, hpool, h₃⟩ := read_bind_ok_iff.mp h₂
    obtain ⟨size, -, h₄⟩ := read_bind_ok_iff.mp h₃
    split at h₄
    · exact (stop_ok_iff.mp h₄).elim
    obtain ⟨dangling, -, h₅⟩ := read_bind_ok_iff.mp h₄
    split at h₅
    · exact (stop_ok_iff.mp h₅).elim
    · refine ⟨_, ?_, by rw [update_ok_iff.mp h₅]; rfl⟩
      have hsame : pool = s.candidates := hpool.symm.trans (congrArg (fun c ↦ c.candidates) ht.2)
      exact hsame ▸ List.perm_insertionSort _ _

theorem resNames_books (hs : List JobResource) : Keeps (BookRun L G) (resNames hs) := by
  induction hs with
  | nil => exact .pure _
  | cons h hs ih => exact .bind .getRes fun _ ↦ .bind ih fun _ ↦ .pure _

/-- What is sent to an agent is not in the books. -/
theorem sendStartCmd_books : Keeps (BookRun L G) (sendStartCmd a) := by
  refine .bind .getJob fun _ ↦ .bind .getQueue fun _ ↦ .bind (.lift _) fun _ ↦
    .bind (resNames_books _) fun _ ↦ ?_
  split
  · exact .stop _
  · exact .bind (.read _) fun _ ↦ modifyAgent_books

theorem pendingFor_books : Keeps (BookRun L G) (pendingFor a) := by
  have hcheck : Keeps (BookRun L G) (checkRes a) :=
    .bind .getJob fun _ ↦ .bind (.lift _) fun _ ↦ lacksRes_books _
  refine .bind .getJob fun _ ↦ .bind (.read _) fun _ ↦ .unless <| ?_
  refine .bind .getQueue fun _ ↦ .unless <| .bind hcheck fun _ ↦ ?_
  refine .unless <| .unless <| ?_
  split
  · exact .pure _
  · exact .bind .getAgent fun _ ↦ .unless <| .unless <| .pure _

theorem startJob_books : Keeps (BookRun L G) (startJob a) :=
  .bind .getJob fun _ ↦ .bind (.whenever fun _ ↦ allocateRes_books) fun _ ↦
    .bind sendStartCmd_books fun _ ↦ .bind (modifyJob_books fun _ ↦ rfl) fun _ ↦
    countStartPending_books

theorem tryStart_books : Keeps (BookRun L G) (tryStart a) := by
  refine .bind .getJob fun _ ↦ .unless <| .bind pendingFor_books fun _ ↦ ?_
  split
  · exact .bind (modifyJob_books fun _ ↦ rfl) fun _ ↦ .pure _
  · exact .bind startJob_books fun _ ↦ .pure _

theorem startFrom_books (n k : ℤ) (xs : List (Option Addr)) :
    Keeps (BookRun L G) (startFrom n k xs) := by
  induction xs generalizing k with
  | nil => exact .pure _
  | cons x xs ih =>
    cases x with
    | none => exact ih _
    | some a =>
      refine .bind tryStart_books fun _ ↦ .ite (fun _ ↦ ?_) fun _ ↦ ih _
      exact .unless <| ih _

theorem tagReadonly_books (x : Option Addr) : Keeps (BookRun L G) (tagReadonly x) := by
  cases x with
  | none => exact .pure _
  | some a => exact .bind .getJob fun _ ↦ .whenever fun _ ↦ modifyJob_books fun _ ↦ rfl

/-- A pass of the scheduler, if the pool may be generated. -/
theorem checkJobs_walks (hG : G) (hcount : s.stats.pending = 0 → s.candidates = []) :
    Walks (Booked L G) checkJobs s := by
  refine .bind_read ?_
  split
  · exact .pure _ _
  refine .bind (.whenever fun _ ↦ generateCandidatePool_walks hG hcount) fun _ ↦
    .bind (.read _ _) fun _ ↦ ?_
  split
  · exact (Keeps.each tagReadonly_books _).walks
  · exact (startFrom_books _ _ _).walks

end Jers
