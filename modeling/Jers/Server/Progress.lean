import Jers.Server.MovesJobs

/-!
# Functions that run

A function of the daemon stops when it follows the address of an object that has been freed. The
lemmas here say when the functions on jobs do not: the job is in the table, and so are the queues
that it is counted on.
-/

namespace Jers

open Exec Option Table

variable {s s' : Server}

/-! ### Objects that are there -/

variable {b a : Addr} {j : Job} {st : JobState}

/-- A job that is there is found. -/
theorem getJob_of_some (hj : s.jobTable.get? a = some j) : getJob a s = .ok (j, s) :=
  bind_ok_iff.mpr ⟨some j, s, read_ok_iff.mpr ⟨hj, rfl⟩, rfl⟩

theorem getQueue_of_some {q : Queue} (hq : s.queueTable.get? b = some q) :
    getQueue b s = .ok (q, s) :=
  bind_ok_iff.mpr ⟨some q, s, read_ok_iff.mpr ⟨hq, rfl⟩, rfl⟩

theorem getRes_of_some {r : Resource} (hr : s.resTable.get? b = some r) : getRes b s = .ok (r, s) :=
  bind_ok_iff.mpr ⟨some r, s, read_ok_iff.mpr ⟨hr, rfl⟩, rfl⟩

theorem modifyJob_of_some (hj : s.jobTable.get? a = some j) (g : Job → Job) :
    modifyJob a g s = .ok ((), { s with jobTable := s.jobTable.modify a g }) :=
  bind_ok_iff.mpr ⟨j, s, getJob_of_some hj, rfl⟩

theorem modifyQueue_of_some {q : Queue} (hq : s.queueTable.get? b = some q) (g : Queue → Queue) :
    modifyQueue b g s = .ok ((), { s with queueTable := s.queueTable.modify b g }) :=
  bind_ok_iff.mpr ⟨q, s, getQueue_of_some hq, rfl⟩

theorem modifyRes_of_some {r : Resource} (hr : s.resTable.get? b = some r)
    (g : Resource → Resource) :
    modifyRes b g s = .ok ((), { s with resTable := s.resTable.modify b g }) :=
  bind_ok_iff.mpr ⟨r, s, getRes_of_some hr, rfl⟩

/-- A pointer that is not null can be followed. -/
theorem deref_succeeds {α : Type} {o : Option α} (ho : o.isSome) (s : Server) :
    Succeeds (deref o) s := by
  obtain ⟨v, rfl⟩ := isSome_iff_exists.mp ho
  exact .pure v s

theorem getJob_succeeds (hj : (s.jobTable.get? a).isSome) : Succeeds (getJob a) s :=
  .bind_read (deref_succeeds hj s)

/-- The rest of a function runs on the job that it finds. -/
theorem getJob_bind_succeeds {α : Type} {f : Job → Daemon α} (hj : s.jobTable.get? a = some j)
    (h : Succeeds (f j) s) : Succeeds (getJob a >>= f) s := by
  refine .bind (getJob_succeeds (hj ▸ rfl)) fun hg ↦ ?_
  obtain ⟨hi, rfl⟩ := getJob_ok hg
  rwa [← mem_unique hj hi]

theorem getQueue_succeeds (hq : (s.queueTable.get? b).isSome) : Succeeds (getQueue b) s :=
  .bind_read (deref_succeeds hq s)

theorem modifyJob_succeeds (hj : (s.jobTable.get? a).isSome) (f : Job → Job) :
    Succeeds (modifyJob a f) s :=
  .bind (getJob_succeeds hj) fun _ ↦ .update _ _

theorem modifyQueue_succeeds (hq : (s.queueTable.get? b).isSome) (f : Queue → Queue) :
    Succeeds (modifyQueue b f) s :=
  .bind (getQueue_succeeds hq) fun _ ↦ .update _ _

/-! ### State changes -/

/-- A counter of a queue that is there. -/
theorem countState_succeeds (hq : (s.queueTable.get? b).isSome) (st : JobState) (d : ℤ) :
    Succeeds (countState b st d) s := by
  refine .whenever fun _ ↦ .bind (.update _ s) fun hu ↦ ?_
  refine modifyQueue_succeeds ?_ _
  rw [update_ok_iff.mp hu]
  exact hq

theorem countStartPending_succeeds (hq : (s.queueTable.get? b).isSome) (d : ℤ) :
    Succeeds (countStartPending b d) s := by
  refine .bind (.update _ s) fun hu ↦ ?_
  refine modifyQueue_succeeds ?_ _
  rw [update_ok_iff.mp hu]
  exact hq

/-- The queues that are there stay there when counters are changed. -/
theorem countState_queues {b' : Addr} {d : ℤ} (h : countState b st d s = .ok ((), s'))
    (hq : (s.queueTable.get? b').isSome) : (s'.queueTable.get? b').isSome := by
  rw [countState_ok h]
  exact isSome_modify hq

/-- A job is counted on its queue, which has to be there. -/
theorem incrementState_succeeds (hj : s.jobTable.get? a = some j)
    (hq : (s.queueTable.get? j.queue).isSome) : Succeeds (incrementState a) s := by
  refine getJob_bind_succeeds hj ?_
  refine .bind (countState_succeeds hq _ _) fun hcount ↦ ?_
  refine .bind (.whenever fun _ ↦ countStartPending_succeeds (countState_queues hcount hq) _)
    fun _ ↦ ?_
  exact .whenever fun _ ↦ .update _ _

theorem updateJob_succeeds (hj : (s.jobTable.get? a).isSome) (dirty : Bool) :
    Succeeds (updateJob a dirty) s :=
  .bind (modifyJob_succeeds hj _) fun _ ↦ .whenever fun _ ↦ .update _ _

/-- **`changeJobState` runs** if the job and its queues are there. -/
theorem changeJobState_succeeds {q : Option Addr} (hj : s.jobTable.get? a = some j)
    (hq : (s.queueTable.get? j.queue).isSome) (hq' : (s.queueTable.get? (q.getD j.queue)).isSome)
    (dirty : Bool) : Succeeds (changeJobState a st q dirty) s := by
  refine getJob_bind_succeeds hj ?_
  refine .bind (.whenever fun _ ↦ ?_) fun hmove ↦ updateJob_succeeds ?_ dirty
  · refine .bind (getJob_bind_succeeds hj (countState_succeeds hq _ _)) fun hdec ↦ ?_
    obtain ⟨_, -, hcount⟩ := getJob_bind_ok hdec
    have hq' := countState_queues hcount hq'
    obtain rfl := countState_ok hcount
    refine .bind (modifyJob_succeeds (hj ▸ rfl) _) fun hmod ↦ ?_
    obtain ⟨_, -, rfl⟩ := modifyJob_ok hmod
    exact incrementState_succeeds (get?_modify_self hj _) hq'
  · rcases whenever_ok_iff.mp hmove with ⟨-, h⟩ | ⟨-, rfl⟩
    · rw [(moveJob_shift hj h).found']
      rfl
    · exact hj ▸ rfl

/-! ### What a state change has found -/

/-- A job is counted on a queue that is there. -/
theorem countState_present {d : ℤ} (h : countState b st d s = .ok ((), s')) (hst : st ≠ .cleared) :
    (s.queueTable.get? b).isSome := by
  rcases whenever_ok_iff.mp h with ⟨-, h₁⟩ | ⟨hnot, -⟩
  · obtain ⟨_, _, hupd, hmod⟩ := bind_ok_iff.mp h₁
    obtain rfl := update_ok_iff.mp hupd
    obtain ⟨q, hq, -⟩ := modifyQueue_ok hmod
    exact isSome_iff_exists.mpr ⟨q, hq⟩
  · exact absurd hst hnot

/-- A job that has been counted is on a queue that is there. -/
theorem incrementState_present (h : incrementState a s = .ok ((), s'))
    (hj : s.jobTable.get? a = some j) (hst : j.state ≠ .cleared) :
    (s.queueTable.get? j.queue).isSome := by
  have h₁ := getJob_bind_at hj h
  obtain ⟨_, _, hcount, -⟩ := bind_ok_iff.mp h₁
  exact countState_present hcount hst

/-- A job that changes its state is on a queue that is there. -/
theorem changeJobState_present {dirty : Bool} (h : changeJobState a st none dirty s = .ok ((), s'))
    (hj : s.jobTable.get? a = some j) (hst : st ≠ .cleared) (hne : j.state ≠ st) :
    (s.queueTable.get? j.queue).isSome := by
  have h₁ := getJob_bind_at hj h
  obtain ⟨_, t, hmove, -⟩ := bind_ok_iff.mp h₁
  rcases whenever_ok_iff.mp hmove with ⟨-, h₂⟩ | ⟨hnot, -⟩
  · obtain ⟨_, u, hdec, h₃⟩ := bind_ok_iff.mp h₂
    obtain ⟨_, v, hmod, hinc⟩ := bind_ok_iff.mp h₃
    have hcount := getJob_bind_at hj hdec
    obtain rfl := countState_ok hcount
    obtain ⟨_, -, rfl⟩ := modifyJob_ok hmod
    have hq := incrementState_present hinc (get?_modify_self hj _) hst
    dsimp only [getD_none] at hq
    rw [get?_modify, if_pos rfl, isSome_map] at hq
    exact hq
  · exact absurd (.inl hne) hnot

/-! ### Adding a job -/

/-- **`addJob` runs** for an id that is not in use and a queue that is there. -/
theorem addJob_succeeds (hid : s.findJob j.jobid = none) (hq : (s.queueTable.get? j.queue).isSome)
    (dirty : Bool) : Succeeds (addJob j dirty) s := by
  refine .bind_read ?_
  rw [hid]
  refine .bind_read ?_
  refine .bind (.update _ s) fun hu ↦ ?_
  obtain rfl := update_ok_iff.mp hu
  refine .bind (.whenever fun _ ↦ .update _ _) fun hdefer ↦ ?_
  have hget : (s.jobTable.push { j with state := .cleared }).get? s.jobTable.next =
      some { j with state := .cleared } := (get?_push _ _ _).trans (if_pos rfl)
  obtain ⟨f, hlist, -⟩ := whenever_addDeferred_shift hget hdefer
  obtain ⟨q, hq⟩ := isSome_iff_exists.mp hq
  obtain ⟨q', hq', -⟩ := optionRel_some (hlist.queues j.queue) hq
  exact .bind (changeJobState_succeeds hlist.found' (hq' ▸ rfl) (hq' ▸ rfl) dirty) fun _ ↦ .pure _ _

end Jers
