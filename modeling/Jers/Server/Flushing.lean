import Jers.Server.Progress
import Jers.Server.StartOnce

/-!
# Background saves and the objects they capture

Between the two halves of a save the addresses of the captured objects are kept in `Server.flush`,
and one bit of the internal state of an object keeps it from being freed. `Flushing` says that the
two agree: the objects on the lists are the objects of the tables that carry the bit. It is what
makes the second half of a save find its objects (`saveFinish_runs`).

The bit is in a word that `markJobsUnknown` overwrites, and in a structure that `command_add_queue`
clears or frees when it re-creates a deleted queue. `flagsKept` excludes both for captured objects.
-/

namespace Jers

open Exec List Option Bool Table Sample

/-- The objects of the save in progress; nothing if there is none. -/
def Core.flushed (c : Core) : Flush := c.flush.getD { jobs := [], queues := [], resources := [] }

/-- The record at `a` carries the flag. -/
def flagged {α : Type} (flag : α → Bool) (t : Table α) (a : Addr) : Bool := (t.get? a).any flag

def Job.flushing (j : Job) : Bool := j.internalState.flushing

def Queue.flushing (q : Queue) : Bool := q.internalState.flushing

def Resource.flushing (r : Resource) : Bool := r.internalState.flushing

/-- The captured objects are in their tables and carry the flag, and no other object does. -/
structure Flushing (c : Core) : Prop where
  jobs : ∀ a, a ∈ c.flushed.jobs ↔ flagged Job.flushing c.jobTable a = true
  queues : ∀ b, b ∈ c.flushed.queues ↔ flagged Queue.flushing c.queueTable b = true
  resources : ∀ b, b ∈ c.flushed.resources ↔ flagged Resource.flushing c.resTable b = true

/-! ### Tables and flags -/

section

variable {α : Type} {flag : α → Bool} {t : Table α} {a : Addr} {v w : α}

/-- Two tables with the same flags. -/
def SameFlags (flag : α → Bool) (t t' : Table α) : Prop := flagged flag t' = flagged flag t

theorem SameFlags.refl (t : Table α) : SameFlags flag t t := rfl

theorem SameFlags.trans {t' t'' : Table α} (h : SameFlags flag t t') (h' : SameFlags flag t' t'') :
    SameFlags flag t t'' := Eq.trans h' h

theorem SameFlags.modify (h : t.get? a = some v) (hw : flag w = flag v) :
    SameFlags flag t (t.modify a fun _ ↦ w) := by
  funext b
  rw [flagged, get?_modify]
  by_cases hb : b = a
  · subst hb
    simp [flagged, h, hw]
  · simp [flagged, hb]

theorem SameFlags.push (hv : flag v = false) : SameFlags flag t (t.push v) := by
  funext b
  rw [flagged, get?_push, flagged]
  split
  · next hb =>
    have hnone : t.get? b = none := by
      by_contra hsome
      obtain ⟨x, hx⟩ := ne_none_iff_exists'.mp hsome
      exact lt_irrefl _ (hb ▸ lt_next hx)
    simp [hnone, hv]
  · rfl

theorem SameFlags.erase (h : t.get? a = some v) (hv : flag v = false) :
    SameFlags flag t (t.erase a) := by
  funext b
  rw [flagged, get?_erase, flagged]
  split
  · next hb => simp [hb, h, hv]
  · rfl

theorem SameFlags.reput (h : t.get? a = some v) (hw : flag w = flag v) :
    SameFlags flag t (t.reput a w) := by
  funext b
  rw [flagged, get?_reput, flagged]
  split
  · next hb => simp [hb, h, hw]
  · rfl

theorem SameFlags.of_rel {R : Addr → α → α → Prop} {t' : Table α}
    (hR : ∀ b x y, R b x y → flag y = flag x)
    (h : ∀ b, Option.Rel (R b) (t.get? b) (t'.get? b)) : SameFlags flag t t' := by
  funext b
  rw [flagged, flagged]
  have hb := h b
  revert hb
  generalize t.get? b = x
  generalize t'.get? b = y
  intro hb
  cases hb with
  | none => rfl
  | some hv => exact hR b _ _ hv

end

/-! ### The condition -/

/-- A disconnect finds no captured job that it makes unknown, and no captured queue is created
again. -/
def flagsKept : Condition
  | s, (_, .disconnect g) => s.jobTable.all fun _ j ↦
    !(j.flushing && (j.state = .running || j.internalState.started) &&
      (s.queueTable.get? j.queue).any fun q ↦ q.agent = some g)
  | s, (_, .client _ (.addQueue qa)) =>
    (s.deletedQueue qa).all fun b ↦ !flagged Queue.flushing s.queueTable b
  | _, _ => true

/-- The event is one half of a save. -/
def Event.saves : Event → Bool
  | .saveStart _ | .saveFinish _ => true
  | _ => false

/-! ### Events that are not part of a save -/

variable {c c' : Core} {env : Env} {e : Event} {j j' : Job} {q : Queue} {f : Flush} {k : Cost}
  {b : Addr} {x : Bool} {a : Addr} {l : Label} {failed : Bool} {q' : Queue}

/-- The flag of a job. -/
theorem Allowed.flushing_job {s : Server} (hgood : flagsKept s (env, e) = true)
    (he : e.saves = false) (h : Allowed env s e c (.shift a j j' k)) :
    j'.flushing = j.flushing := by
  cases h with
  | job _ hm => cases hm <;> rfl
  | queue _ hm | res _ hm => cases hm
  | agent hm =>
    cases hm with
    | started | completed => rfl
    | recon => rw [Job.flushing, Job.reconciled_internalState, Job.flushing]
  | lose hj hq hagent hst =>
    simp only [flagsKept] at hgood
    have hfree := all_iff.mp hgood a j hj
    have hor : (decide (j.state = .running) || j.internalState.started) = true := by simpa using hst
    simp only [hq, hor, any_some, hagent, decide_true, Bool.and_true, not_eq_true'] at hfree
    exact hfree.symm
  | captureJob | reapJob => exact nomatch he
  | idle | start | release | expire => rfl

/-- The flag of a new job. -/
theorem Allowed.flushing_addJob {s : Server} (h : Allowed env s e c (.addJob j j' k)) :
    j.flushing = false ∧ j'.flushing = false := by
  obtain ⟨_, _, _, hm⟩ := h.submitted
  cases hm
  exact ⟨rfl, rfl⟩

/-- **The flags of the jobs** through a move. -/
theorem Allowed.sameFlags_jobs {s : Server} (hgood : flagsKept s (env, e) = true)
    (he : e.saves = false) (h : Allowed env s e c l) (hm : Move l c c') :
    SameFlags Job.flushing c.jobTable c'.jobTable := by
  rcases hm.jobs_cases with hon | ⟨a, j, j', k, rfl, hm⟩ | ⟨j, j', k, rfl, hm⟩ |
    ⟨a, j, rfl, hj, rfl⟩
  · rw [(hm.same_jobs hon).1]
    exact .refl _
  · rw [hm.jobs]
    exact .modify hm.found (h.flushing_job hgood he)
  · obtain ⟨hj, hj'⟩ := h.flushing_addJob
    rw [hm.jobs]
    exact (SameFlags.push hj).trans (.modify hm.found (hj'.trans hj.symm))
  · exact .erase hj h.removed.2.1.2.2

/-- The flag of a queue that is edited. -/
theorem Allowed.flushing_editQueue {s : Server} (he : e.saves = false)
    (h : Allowed env s e c (.editQueue b q q')) : q'.flushing = q.flushing := by
  cases h with
  | job _ hm | res _ hm => cases hm
  | queue _ hm => cases hm <;> rfl
  | agent hm => cases hm; rfl
  | unlink => rfl
  | captureQueue | reapQueue => exact nomatch he

theorem Allowed.flushing_addQueue {s : Server} (h : Allowed env s e c (.addQueue q)) :
    q.flushing = false := by
  cases h with
  | job _ hm | res _ hm | agent hm => cases hm
  | queue _ hm => cases hm; rfl

/-- A deleted queue that is created again is not captured. -/
theorem flushing_deletedQueue {s : Server} {cl : Client} {qa : QueueRequest} {orig : Str}
    (hgood : flagsKept s (env, .client cl (.addQueue qa)) = true) (hname : qa.name = some orig)
    (hfound : s.findQueue (lowercasestring orig) = some (b, q))
    (hdel : q.internalState.deleted = true) (hq : s.queueTable.get? b = some q) :
    q.flushing = false := by
  simpa [flagsKept, deletedQueue_eq hname hfound hdel, flagged, hq] using hgood

theorem Allowed.flushing_reuseQueue {s : Server} (hgood : flagsKept s (env, e) = true)
    (h : Allowed env s e c (.reuseQueue b q q')) (hq : c.queueTable.get? b = some q) :
    q.flushing = false ∧ q'.flushing = false := by
  cases h with
  | job _ hm | res _ hm | agent hm => cases hm
  | queue _ hm =>
    cases hm with
    | remake hname hlower hfound hdel =>
      subst hlower
      exact ⟨flushing_deletedQueue hgood hname hfound hdel hq, rfl⟩

theorem Allowed.flushing_removeQueue {s : Server} (hgood : flagsKept s (env, e) = true)
    (h : Allowed env s e c (.removeQueue b q)) (hq : c.queueTable.get? b = some q) :
    q.flushing = false := by
  cases h with
  | job _ hm | res _ hm | agent hm => cases hm
  | queue _ hm =>
    cases hm with
    | drop hname hlower hfound hdel =>
      subst hlower
      exact flushing_deletedQueue hgood hname hfound hdel hq
  | cleanQueue _ hrem => exact hrem.2.2

/-- A change of a job leaves everything of a queue but its counters. -/
theorem Shift.sameFlags_queues (hm : Shift a j j' k c c') :
    SameFlags Queue.flushing c.queueTable c'.queueTable := by
  refine .of_rel (fun b q q' hq ↦ ?_) hm.queues
  rw [hq.rest]
  rfl

theorem Shift.sameFlags_resources (hm : Shift a j j' k c c') :
    SameFlags Resource.flushing c.resTable c'.resTable := by
  refine .of_rel (fun b r r' hr ↦ ?_) hm.resources
  rw [hr]
  rfl

/-- **The flags of the queues** through a move. -/
theorem Allowed.sameFlags_queues {s : Server} (hgood : flagsKept s (env, e) = true)
    (he : e.saves = false) (h : Allowed env s e c l) (hm : Move l c c') :
    SameFlags Queue.flushing c.queueTable c'.queueTable := by
  cases l with
  | shift => exact Shift.sameFlags_queues hm
  | addJob j j' k =>
    have hm := hm.added
    exact hm.sameFlags_queues
  | addQueue q =>
    obtain rfl := hm
    exact .push h.flushing_addQueue
  | reuseQueue b q q' =>
    obtain ⟨hq, rfl⟩ := hm
    obtain ⟨hold, hnew⟩ := h.flushing_reuseQueue hgood hq
    exact .reput hq (hnew.trans hold.symm)
  | editQueue b q q' =>
    obtain ⟨hq, rfl⟩ := hm
    exact .modify hq (h.flushing_editQueue he)
  | removeQueue b q =>
    obtain ⟨hq, rfl⟩ := hm
    exact .erase hq (h.flushing_removeQueue hgood hq)
  | addRes | setFlush =>
    obtain rfl := hm
    exact .refl _
  | removeJob | reuseRes | editRes | removeRes | setDefault =>
    obtain ⟨-, rfl⟩ := hm
    exact .refl _

/-- **The flags of the resources** through a move. A resource that is re-created keeps its flag. -/
theorem Allowed.sameFlags_resources {s : Server} (he : e.saves = false)
    (h : Allowed env s e c l) (hm : Move l c c') :
    SameFlags Resource.flushing c.resTable c'.resTable := by
  cases l with
  | shift => exact Shift.sameFlags_resources hm
  | addJob j j' k =>
    have hm := hm.added
    exact hm.sameFlags_resources
  | addRes r =>
    obtain rfl := hm
    refine .push ?_
    cases h with
    | job _ hm | queue _ hm | agent hm => cases hm
    | res _ hm => cases hm; rfl
  | reuseRes b r r' =>
    obtain ⟨hr, rfl⟩ := hm
    refine .reput hr ?_
    cases h with
    | job _ hm | queue _ hm | agent hm => cases hm
    | res _ hm => cases hm; rfl
  | editRes b r r' =>
    obtain ⟨hr, rfl⟩ := hm
    refine .modify hr ?_
    cases h with
    | job _ hm | queue _ hm | agent hm => cases hm
    | res _ hm => cases hm <;> rfl
    | captureRes | reapRes => exact nomatch he
  | removeRes b r =>
    obtain ⟨hr, rfl⟩ := hm
    refine .erase hr ?_
    cases h with
    | job _ hm | queue _ hm | res _ hm | agent hm => cases hm
    | cleanRes _ hrem => exact hrem.2.2
  | addQueue | setFlush =>
    obtain rfl := hm
    exact .refl _
  | removeJob | reuseQueue | editQueue | removeQueue | setDefault =>
    obtain ⟨-, rfl⟩ := hm
    exact .refl _

/-- The save in progress is set by the halves of a save only. -/
theorem Allowed.same_flush {s : Server} (he : e.saves = false) (h : Allowed env s e c l)
    (hm : Move l c c') : c'.flush = c.flush := by
  cases l with
  | shift => exact Shift.flush hm
  | addJob j j' k =>
    have hm := hm.added
    exact hm.flush
  | addQueue | addRes =>
    obtain rfl := hm
    rfl
  | setFlush =>
    cases h with
    | job _ hm | queue _ hm | res _ hm | agent hm => cases hm
    | capture | reap => exact nomatch he
  | removeJob | reuseQueue | editQueue | removeQueue | reuseRes | editRes | removeRes |
      setDefault =>
    obtain ⟨-, rfl⟩ := hm
    rfl

/-- **A move of an event that is not part of a save** keeps the captured objects. -/
theorem Flushing.move {s : Server} (hgood : flagsKept s (env, e) = true)
    (he : e.saves = false) (h : Flushing c) (hl : Allowed env s e c l) (hm : Move l c c') :
    Flushing c' := by
  have hflush : c'.flushed = c.flushed := by rw [Core.flushed, hl.same_flush he hm, Core.flushed]
  have hjobs : flagged _ c'.jobTable = _ := hl.sameFlags_jobs hgood he hm
  have hqueues : flagged _ c'.queueTable = _ := hl.sameFlags_queues hgood he hm
  have hres : flagged _ c'.resTable = _ := hl.sameFlags_resources he hm
  exact
    { jobs := by rw [hflush, hjobs]; exact h.jobs
      queues := by rw [hflush, hqueues]; exact h.queues
      resources := by rw [hflush, hres]; exact h.resources }

/-! ### The halves of a save -/

variable {s s' : Server}

/-- A loop of writes to the objects of one table changes that table only. -/
theorem each_modify {α : Type} (T : Server → Table α) (put : Server → Table α → Server)
    {w : Addr → Daemon Unit} {g : α → α} {l : List Addr} (hg : ∀ x, g (g x) = g x)
    (hT : ∀ t u, T (put t u) = u) (hself : ∀ t, put t (T t) = t)
    (hput : ∀ t u v, put (put t u) v = put t v)
    (hw : ∀ {a t t'}, w a t = .ok ((), t') → t' = put t ((T t).modify a g))
    (h : each w l s = .ok ((), s')) :
    s' = put s (T s') ∧ ∀ b, (T s').get? b = if b ∈ l then ((T s).get? b).map g else (T s).get?
    b := by
  refine ⟨?_, each_write (L := fun s ↦ (T s).get?) hg (fun {a t t'} hround b ↦ ?_) h⟩
  · refine each_rel (R := fun s s' ↦ s' = put s (T s')) (fun t ↦ (hself t).symm)
      (fun h₁ h₂ ↦ ?_) (fun a _ t t' hround ↦ ?_) h
    · rw [h₂, h₁, hput, hT]
    · rw [hw hround, hT]
  · rw [hw hround, hT]
    exact get?_modify ..

/-- The tables after writes to the objects on three lists. -/
structure Written (f : Flush) (gj : Job → Job) (gq : Queue → Queue) (gr : Resource → Resource)
    (s s' : Server) : Prop where
  jobs : ∀ a, s'.jobTable.get? a =
    if a ∈ f.jobs then (s.jobTable.get? a).map gj else s.jobTable.get? a
  queues : ∀ b, s'.queueTable.get? b =
    if b ∈ f.queues then (s.queueTable.get? b).map gq else s.queueTable.get? b
  resources : ∀ b, s'.resTable.get? b =
    if b ∈ f.resources then (s.resTable.get? b).map gr else s.resTable.get? b

/-- The three loops of either half of a save. -/
theorem written_of_each {gj : Job → Job} {gq : Queue → Queue} {gr : Resource → Resource}
    (hj : ∀ j, gj (gj j) = gj j) (hq : ∀ q, gq (gq q) = gq q) (hr : ∀ r, gr (gr r) = gr r)
    {t u v : Server} (hjobs : each (fun a ↦ modifyJob a gj) f.jobs s = .ok ((), t))
    (hqueues : each (fun b ↦ modifyQueue b gq) f.queues t = .ok ((), u))
    (hres : each (fun b ↦ modifyRes b gr) f.resources u = .ok ((), v)) :
    v = { s with jobTable := v.jobTable, queueTable := v.queueTable, resTable := v.resTable } ∧
      Written f gj gq gr s v := by
  obtain ⟨ht, hj⟩ :=
    each_modify (·.jobTable) (fun s t ↦ { s with jobTable := t }) hj (fun _ _ ↦ rfl)
    (fun _ ↦ rfl) (fun _ _ _ ↦ rfl) (fun h ↦ (modifyJob_ok h).choose_spec.2) hjobs
  obtain ⟨hu, hq⟩ :=
    each_modify (·.queueTable) (fun s t ↦ { s with queueTable := t }) hq (fun _ _ ↦ rfl)
    (fun _ ↦ rfl) (fun _ _ _ ↦ rfl) (fun h ↦ (modifyQueue_ok h).choose_spec.2) hqueues
  obtain ⟨hv, hr⟩ :=
    each_modify (·.resTable) (fun s t ↦ { s with resTable := t }) hr (fun _ _ ↦ rfl)
    (fun _ ↦ rfl) (fun _ _ _ ↦ rfl) (fun h ↦ (modifyRes_ok h).choose_spec.2) hres
  refine ⟨by rw [hv, hu, ht], fun a ↦ ?_, fun b ↦ ?_, fun b ↦ ?_⟩
  · rw [hv, hu]
    exact hj a
  · rw [hv]
    refine (hq b).trans ?_
    rw [ht]
  · refine (hr b).trans ?_
    rw [hu, ht]

/-- **What the first half of a save does.** -/
theorem saveStart_ok (h : saveStart x s = .ok ((), s')) :
    s' = s ∨ s.flush = none ∧ s'.flush = some s.toFlush ∧
      Written s.toFlush Job.captured Queue.captured Resource.captured s s' := by
  obtain ⟨_, rfl, h₁⟩ := read_bind_ok_iff.mp h
  split at h₁
  · exact .inl (pure_ok_iff.mp h₁).2.symm
  next hflush =>
  split at h₁
  · exact .inl (pure_ok_iff.mp h₁).2.symm
  split at h₁
  · exact .inl (pure_ok_iff.mp h₁).2.symm
  obtain ⟨_, t, hjobs, h₂⟩ := bind_ok_iff.mp h₁
  obtain ⟨_, u, hqueues, h₃⟩ := bind_ok_iff.mp h₂
  obtain ⟨_, v, hres, hupd⟩ := bind_ok_iff.mp h₃
  have hw : Written s.toFlush Job.captured Queue.captured Resource.captured s v :=
    have hj (j : Job) : j.captured.captured = j.captured := rfl
    have hq (q : Queue) : q.captured.captured = q.captured := rfl
    have hr (r : Resource) : r.captured.captured = r.captured := rfl
    (written_of_each hj hq hr hjobs hqueues hres).2
  obtain rfl := update_ok_iff.mp hupd
  exact .inr ⟨by simpa using hflush, rfl, hw.jobs, hw.queues, hw.resources⟩

/-- **What the second half of a save does.** -/
theorem saveFinish_ok (hf : s.flush = some f) (h : saveFinish failed s = .ok ((), s')) :
    Written f (Job.reaped failed) (Queue.reaped failed) (Resource.reaped failed) s s' ∧
      s'.flush = none ∧
      s'.dirtyJobs = (s.dirtyJobs || (failed && !f.jobs.isEmpty)) ∧
      s'.dirtyQueues = (s.dirtyQueues || (failed && !f.queues.isEmpty)) ∧
      s'.dirtyResources = (s.dirtyResources || (failed && !f.resources.isEmpty)) := by
  obtain ⟨_, rfl, h₁⟩ := read_bind_ok_iff.mp h
  rw [hf] at h₁
  obtain ⟨_, t, hjobs, h₂⟩ := bind_ok_iff.mp h₁
  obtain ⟨_, u, hqueues, h₃⟩ := bind_ok_iff.mp h₂
  obtain ⟨_, v, hres, hupd⟩ := bind_ok_iff.mp h₃
  have hj (j : Job) : (j.reaped failed).reaped failed = j.reaped failed := by simp [Job.reaped]
  have hq (q : Queue) : (q.reaped failed).reaped failed = q.reaped failed := by simp [Queue.reaped]
  have hr (r : Resource) : (r.reaped failed).reaped failed = r.reaped failed := by
    simp [Resource.reaped]
  obtain ⟨hv, hw⟩ := written_of_each hj hq hr hjobs hqueues hres
  obtain rfl := update_ok_iff.mp hupd
  refine ⟨⟨hw.jobs, hw.queues, hw.resources⟩, rfl, ?_, ?_, ?_⟩
  all_goals rw [hv]

/-- Addresses that are collected for a save are addresses of the table. -/
theorem isSome_of_mem_dirtyAddrs {α : Type} {t : Table α} {dirty : α → Bool}
    (h : a ∈ if x then dirtyAddrs t dirty else []) : (t.get? a).isSome := by
  split at h
  · have hany := (mem_filter.mp h).2
    cases hget : t.get? a with
    | none => simp [hget] at hany
    | some v => rfl
  · exact nomatch h

section

variable {α : Type} {flag : α → Bool} {t t' : Table α} {l : List Addr} {g : α → α}

/-- A write that sets the flag, in a table without flags. -/
theorem flagged_of_set (hl : ∀ a ∈ l, (t.get? a).isSome)
    (hclean : ∀ a, a ∈ [] ↔ flagged flag t a = true) (hg : ∀ v, flag (g v) = true)
    (hw : ∀ a, t'.get? a = if a ∈ l then (t.get? a).map g else t.get? a) (a : Addr) :
    a ∈ l ↔ flagged flag t' a = true := by
  rw [flagged, hw a]
  split
  · next ha =>
    obtain ⟨v, hv⟩ := isSome_iff_exists.mp (hl a ha)
    simp [hv, hg, ha]
  · next ha =>
    have hfalse : (t.get? a).any flag = false := by simpa [flagged] using (hclean a).not
    simp [ha, hfalse]

/-- A write that clears the flag, where the flag is set. -/
theorem flagged_of_clear (hl : ∀ a, a ∈ l ↔ flagged flag t a = true) (hg : ∀ v, flag (g v) = false)
    (hw : ∀ a, t'.get? a = if a ∈ l then (t.get? a).map g else t.get? a) (a : Addr) :
    a ∈ [] ↔ flagged flag t' a = true := by
  refine iff_of_false not_mem_nil ?_
  rw [flagged, hw a]
  split
  · cases t.get? a with
    | none => exact nofun
    | some v =>
      rw [map_some, any_some, hg v]
      exact nofun
  · next ha => exact fun h ↦ ha ((hl a).mpr h)

/-- The records after a write. -/
theorem exists_of_written (hl : ∀ a ∈ l, (t.get? a).isSome)
    (hw : ∀ a, t'.get? a = if a ∈ l then (t.get? a).map g else t.get? a) {a : Addr} (ha : a ∈ l) :
    ∃ v, t'.get? a = some (g v) := by
  obtain ⟨v, hv⟩ := isSome_iff_exists.mp (hl a ha)
  exact ⟨v, by rw [hw a, if_pos ha, hv]; rfl⟩

end

/-- Captured objects are in their tables. -/
theorem isSome_of_flagged {α : Type} {flag : α → Bool} {t : Table α}
    (h : flagged flag t a = true) : (t.get? a).isSome := by
  cases hget : t.get? a with
  | none => simp [flagged, hget] at h
  | some v => rfl

theorem Flushing.saveStart (h : Flushing s.toCore) (hstep : Jers.saveStart x s = .ok ((), s')) :
    Flushing s'.toCore := by
  rcases saveStart_ok hstep with rfl | ⟨hnone, hsome, hw⟩
  · exact h
  have hold : s.flushed = { jobs := [], queues := [], resources := [] } := by
    rw [Core.flushed, hnone]
    rfl
  have hnew : s'.flushed = s.toFlush := by
    rw [Core.flushed, hsome]
    rfl
  refine ⟨fun a ↦ ?_, fun b ↦ ?_, fun b ↦ ?_⟩
  · rw [hnew]
    refine flagged_of_set (fun _ ↦ isSome_of_mem_dirtyAddrs) (fun a ↦ ?_) (fun _ ↦ rfl) hw.jobs a
    rw [← h.jobs a, hold]
  · rw [hnew]
    refine flagged_of_set (fun _ ↦ isSome_of_mem_dirtyAddrs) (fun b ↦ ?_) (fun _ ↦ rfl) hw.queues b
    rw [← h.queues b, hold]
  · rw [hnew]
    refine flagged_of_set (fun _ ↦ isSome_of_mem_dirtyAddrs) (fun b ↦ ?_) (fun _ ↦ rfl)
      hw.resources b
    rw [← h.resources b, hold]

theorem Flushing.saveFinish (h : Flushing s.toCore)
    (hstep : Jers.saveFinish failed s = .ok ((), s')) : Flushing s'.toCore := by
  cases hf : s.flush with
  | none =>
    obtain ⟨_, rfl, h₁⟩ := read_bind_ok_iff.mp hstep
    rw [hf] at h₁
    obtain ⟨-, rfl⟩ := pure_ok_iff.mp h₁
    exact h
  | some f =>
    obtain ⟨hw, hnone, -⟩ := saveFinish_ok hf hstep
    have hold : s.flushed = f := by
      rw [Core.flushed, hf]
      rfl
    have hnew : s'.flushed = { jobs := [], queues := [], resources := [] } := by
      rw [Core.flushed, hnone]
      rfl
    refine ⟨fun a ↦ ?_, fun b ↦ ?_, fun b ↦ ?_⟩
    · rw [hnew]
      exact flagged_of_clear (hold ▸ h.jobs) (fun _ ↦ rfl) hw.jobs a
    · rw [hnew]
      exact flagged_of_clear (hold ▸ h.queues) (fun _ ↦ rfl) hw.queues b
    · rw [hnew]
      exact flagged_of_clear (hold ▸ h.resources) (fun _ ↦ rfl) hw.resources b

/-! ### Runs -/

/-- Every object of a save is dirty, and so is the table it is in. -/
structure Redirtied (f : Flush) (s : Server) : Prop where
  jobs : ∀ a ∈ f.jobs, s.dirtyJobs = true ∧ ∃ j, s.jobTable.get? a = some j ∧ j.obj.dirty = true
  queues : ∀ b ∈ f.queues,
    s.dirtyQueues = true ∧ ∃ q, s.queueTable.get? b = some q ∧ q.obj.dirty = true
  resources : ∀ b ∈ f.resources,
    s.dirtyResources = true ∧ ∃ r, s.resTable.get? b = some r ∧ r.obj.dirty = true

/-- The objects of a save are all in their tables. -/
def Present (f : Flush) (s : Server) : Prop :=
  (∀ a ∈ f.jobs, (s.jobTable.get? a).isSome) ∧ (∀ b ∈ f.queues, (s.queueTable.get? b).isSome) ∧
    ∀ b ∈ f.resources, (s.resTable.get? b).isSome

theorem Flushing.present (h : Flushing s.toCore) (hf : s.flush = some f) : Present f s := by
  have hold : s.flushed = f := by
    rw [Core.flushed, hf]
    rfl
  exact ⟨fun a ha ↦ isSome_of_flagged ((h.jobs a).mp (hold ▸ ha)),
    fun b hb ↦ isSome_of_flagged ((h.queues b).mp (hold ▸ hb)),
    fun b hb ↦ isSome_of_flagged ((h.resources b).mp (hold ▸ hb))⟩

/-- **A failed save makes its objects dirty again.** -/
theorem redirtied_of_saveFinish (h : Flushing s.toCore) (hf : s.flush = some f)
    (hstep : saveFinish true s = .ok ((), s')) : Redirtied f s' := by
  obtain ⟨hw, -, hjobs, hqueues, hres⟩ := saveFinish_ok hf hstep
  have hp := h.present hf
  have hnonempty {l : List Addr} {a : Addr} (ha : a ∈ l) : (!l.isEmpty) = true := by
    simpa using ne_nil_of_mem ha
  refine ⟨fun a ha ↦ ⟨?_, ?_⟩, fun b hb ↦ ⟨?_, ?_⟩, fun b hb ↦ ⟨?_, ?_⟩⟩
  · simp [hjobs, hnonempty ha]
  · obtain ⟨j, hj⟩ := exists_of_written hp.1 hw.jobs ha
    exact ⟨_, hj, by simp [Job.reaped]⟩
  · simp [hqueues, hnonempty hb]
  · obtain ⟨q, hq⟩ := exists_of_written hp.2.1 hw.queues hb
    exact ⟨_, hq, by simp [Queue.reaped]⟩
  · simp [hres, hnonempty hb]
  · obtain ⟨r, hr⟩ := exists_of_written hp.2.2 hw.resources hb
    exact ⟨_, hr, by simp [Resource.reaped]⟩

/-- **The second half of a save runs** if its objects are in their tables. -/
theorem saveFinish_runs (failed : Bool) (hf : s.flush = some f) (hp : Present f s) :
    ∃ s', saveFinish failed s = .ok ((), s') := by
  obtain ⟨t, ht, hpt⟩ : ∃ t, each (fun a ↦ modifyJob a (Job.reaped failed)) f.jobs s = .ok ((), t) ∧
      Present f t := by
    refine each_runs (fun a ha t ht ↦ ?_) hp
    obtain ⟨j, hj⟩ := isSome_iff_exists.mp (ht.1 a ha)
    refine ⟨_, modifyJob_of_some hj _, fun b hb ↦ ?_, ht.2⟩
    exact isSome_modify (ht.1 b hb)
  obtain ⟨u, hu, hpu⟩ : ∃ u, each (fun b ↦ modifyQueue b (Queue.reaped failed)) f.queues t =
      .ok ((), u) ∧ Present f u := by
    refine each_runs (fun b hb t ht ↦ ?_) hpt
    obtain ⟨q, hq⟩ := isSome_iff_exists.mp (ht.2.1 b hb)
    refine ⟨_, modifyQueue_of_some hq _, ht.1, fun b hb ↦ ?_, ht.2.2⟩
    exact isSome_modify (ht.2.1 b hb)
  obtain ⟨v, hv, -⟩ : ∃ v, each (fun b ↦ modifyRes b (Resource.reaped failed)) f.resources u =
      .ok ((), v) ∧ Present f v := by
    refine each_runs (fun b hb t ht ↦ ?_) hpu
    obtain ⟨r, hr⟩ := isSome_iff_exists.mp (ht.2.2 b hb)
    refine ⟨_, modifyRes_of_some hr _, ht.1, ht.2.1, fun b hb ↦ ?_⟩
    exact isSome_modify (ht.2.2 b hb)
  exact ⟨_, bind_ok_iff.mpr ⟨some f, s, read_ok_iff.mpr ⟨hf, rfl⟩, bind_ok_iff.mpr ⟨(), t, ht,
    bind_ok_iff.mpr ⟨(), u, hu, bind_ok_iff.mpr ⟨(), v, hv, rfl⟩⟩⟩⟩⟩

theorem Flushing.step {e : Env × Event} (hgood : flagsKept s e = true) (hrec : s.recovery = none)
    (h : Flushing s.toCore) (hstep : Step s e s') : Flushing s'.toCore := by
  obtain ⟨env, e⟩ := e
  cases he : e.saves with
  | false =>
    exact (handle_path hrec hstep).invariant (fun hc hl hm ↦ hc.move hgood he hl hm) h
  | true =>
    cases e with
    | saveStart x => exact h.saveStart hstep
    | saveFinish failed => exact h.saveFinish hstep
    | _ => exact nomatch he

/-- **Captured objects survive the save**, in every state of every run whose events meet the
condition: they are in their tables and carry the flag, no other object does, and if the save fails
it makes them dirty again. -/
theorem flushing_of_runs {config : Config} {hosts : List Str} {s : Server}
    (h : Runs flagsKept config hosts s) :
    Flushing s.toCore ∧ ∀ env f, s.flush = some f →
      ∃ s', Step s (env, .saveFinish true) s' ∧ Redirtied f s' := by
  have h : Run Step (fun t e ↦ flagsKept t e = true) (Server.initial config hosts) s := h
  have hall : s.recovery = none ∧ Flushing s.toCore := by
    refine h.invariant (I := fun t : Server ↦ t.recovery = none ∧ Flushing t.toCore)
      (fun ht hgood hstep ↦ ⟨handle_recovery ht.1 hstep, ht.2.step hgood ht.1 hstep⟩) ⟨rfl, ?_⟩
    exact ⟨fun a ↦ by simp [Core.flushed, flagged, Server.initial],
      fun b ↦ by simp [Core.flushed, flagged, Server.initial],
      fun b ↦ by simp [Core.flushed, flagged, Server.initial]⟩
  refine ⟨hall.2, fun env f hf ↦ ?_⟩
  obtain ⟨s', hstep⟩ := saveFinish_runs true hf (hall.2.present hf)
  exact ⟨s', hstep, redirtied_of_saveFinish hall.2 hf hstep⟩

/-- An agent disconnects while one of its jobs is being saved: the flag is gone. -/
theorem not_flushing_disconnect :
    ∃ s, Runs anyEvent config hosts s ∧ ¬ Flushing s.toCore := by
  obtain ⟨s, hrun, hp⟩ := exists_runs anyEvent config hosts
    (events (Sample.startJob ++ [.saveStart true, .disconnect 0]))
    (fun s ↦ 0 ∈ s.flushed.jobs ∧ flagged Job.flushing s.jobTable 0 = false) (by decide +kernel)
  refine ⟨s, hrun, fun h ↦ ?_⟩
  exact nomatch ((h.jobs 0).mp hp.1).symm.trans hp.2

/-- A job is deleted while it is being saved, and is not cleaned up; the save fails. -/
theorem flushing_of_runs_deleted :
    ∃ s f, Runs flagsKept config hosts s ∧ s.flush = some f ∧ 0 ∈ f.jobs ∧
      Flushing s.toCore ∧ ∃ s', Step s (Sample.env, .saveFinish true) s' ∧ Redirtied f s' := by
  obtain ⟨s, hrun, f, hf, hmem⟩ := exists_runs flagsKept config hosts
    (events (Sample.startJob ++
      [.saveStart true, .client root (.delJob 1), .cleanupJobs 0]))
    (fun s ↦ ∃ f ∈ s.flush, 0 ∈ f.jobs) (by decide +kernel)
  obtain ⟨hinv, hfail⟩ := flushing_of_runs hrun
  exact ⟨s, f, hrun, hf, hmem, hinv, hfail Sample.env f hf⟩

end Jers
