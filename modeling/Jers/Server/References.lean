import Jers.Server.Accounting

/-!
# References between the tables

Jobs point to their queue and to the resources they need, and the server points to its default
queue. `Linked` says that these pointers lead to objects that are still in their tables.

A deletion is refused while a job that is not deleted refers to the object; but jobs that are
flagged deleted stay in the table, other commands find objects that are flagged, and the default
queue is not looked at. `refsKept` excludes that a referenced object is freed.
-/

namespace Jers

open Option Bool Table Sample

/-- The pointers of a job lead to objects of the tables, and its requirement list is as long as its
count says. -/
structure Job.Linked (c : Core) (j : Job) : Prop where
  queue : (c.queueTable.get? j.queue).isSome
  counted : j.resCount ≤ j.reqResources.length
  resources : ∀ h ∈ j.reqResources, (c.resTable.get? h.res).isSome

/-- All pointers between the tables lead to objects. -/
structure Linked (c : Core) : Prop where
  jobs : ∀ a j, c.jobTable.get? a = some j → j.Linked c
  default : ∀ b, c.defaultQueue = some b → (c.queueTable.get? b).isSome

/-! ### What keeps the pointers -/

/-- Every object of `c` that is referred to is still in `c'`. -/
structure KeepsObjects (c c' : Core) : Prop where
  queues : ∀ b, (c.queueTable.get? b).isSome → (c'.queueTable.get? b).isSome
  resources : ∀ b, (c.resTable.get? b).isSome → (c'.resTable.get? b).isSome

variable {c c' : Core} {j j' : Job} {s : Server} {k : Cost} {env : Env} {e : Event} {b a : Addr}
  {l : Label}

theorem Job.Linked.mono (h : j.Linked c) (hk : KeepsObjects c c') : j.Linked c' :=
  ⟨hk.queues _ h.queue, h.counted, fun x hx ↦ hk.resources _ (h.resources x hx)⟩

/-- Related lookups find something or nothing together. -/
theorem optionRel_isSome {α : Type} {R : α → α → Prop} {x y : Option α} (h : Option.Rel R x y)
    (hx : x.isSome) : y.isSome := by
  cases h with
  | none => exact nomatch hx
  | some => rfl

theorem Shift.keepsObjects (hm : Shift a j j' k c c') : KeepsObjects c c' :=
  ⟨fun b ↦ optionRel_isSome (hm.queues b), fun b ↦ optionRel_isSome (hm.resources b)⟩

/-- The moves that free an object. -/
def Label.freesObject : Label → Bool
  | .removeQueue .. | .removeRes .. => true
  | _ => false

/-- The other moves keep every object. -/
theorem Move.keepsObjects (hm : Move l c c') (hl : l.freesObject = false) : KeepsObjects c c' := by
  cases l with
  | shift => exact Shift.keepsObjects hm
  | addJob j j' k =>
    have hm := hm.added
    exact ⟨hm.keepsObjects.queues, hm.keepsObjects.resources⟩
  | removeQueue | removeRes => exact nomatch hl
  | addQueue q =>
    obtain rfl := hm
    exact ⟨fun _ ↦ isSome_push, fun _ h ↦ h⟩
  | addRes r =>
    obtain rfl := hm
    exact ⟨fun _ h ↦ h, fun _ ↦ isSome_push⟩
  | reuseQueue b q q' =>
    obtain ⟨-, rfl⟩ := hm
    exact ⟨fun _ ↦ isSome_reput, fun _ h ↦ h⟩
  | editQueue b q q' =>
    obtain ⟨-, rfl⟩ := hm
    exact ⟨fun _ ↦ isSome_modify, fun _ h ↦ h⟩
  | reuseRes b r r' =>
    obtain ⟨-, rfl⟩ := hm
    exact ⟨fun _ h ↦ h, fun _ ↦ isSome_reput⟩
  | editRes b r r' =>
    obtain ⟨-, rfl⟩ := hm
    exact ⟨fun _ h ↦ h, fun _ ↦ isSome_modify⟩
  | removeJob | setDefault =>
    obtain ⟨-, rfl⟩ := hm
    exact ⟨fun _ h ↦ h, fun _ h ↦ h⟩
  | setFlush =>
    obtain rfl := hm
    exact ⟨fun _ h ↦ h, fun _ h ↦ h⟩

/-! ### Pointers of the single jobs -/

/-- The requirements after a modify request that does not both clear and set them. -/
theorem JobMod.requirements_linked {mj : JobMod} {new : Option (List JobResource)}
    (hconv : mj.converted c.toTables = some new) (hj : j.Linked c)
    (hgood : mj.clearResources = false ∨ mj.resources.getD [] = []) :
    (mj.requirements new j).1 ≤ (mj.requirements new j).2.length ∧
      ∀ h ∈ (mj.requirements new j).2, (c.resTable.get? h.res).isSome := by
  refine ⟨?_, requirements_all hconv (fun _ h ↦ h) hj.resources⟩
  unfold requirements
  split
  · next hclear =>
    have hempty : (mj.resources.map List.length).getD 0 = 0 := by
      have := hgood.resolve_left (by simp [hclear])
      cases hr : mj.resources with
      | none => rfl
      | some xs =>
        rw [hr] at this
        simp [show xs = [] from this]
    rw [hempty]
    exact le_rfl
  cases mj.resources with
  | none => exact hj.counted
  | some xs =>
    cases new with
    | some rs => exact le_rfl
    | none =>
      dsimp only
      split
      · exact le_rfl
      · exact hj.counted

/-! ### The condition -/

/-- Some job, or the server, refers to the queue. -/
def Server.refersToQueue (s : Server) (b : Addr) : Bool :=
  s.defaultQueue == some b || !s.jobTable.all fun _ j ↦ j.queue != b

/-- Some job refers to the resource. -/
def Server.refersToRes (s : Server) (b : Addr) : Bool :=
  !s.jobTable.all fun _ j ↦ j.reqResources.all fun h ↦ h.res != b

/-- The event frees no queue and no resource that is referred to, and does not both clear and set
the requirements of a job. -/
def refsKept : Condition
  | s, (_, .cleanupQueues _) => s.queueTable.all fun b q ↦ !decide q.Removable || !s.refersToQueue b
  | s, (_, .cleanupResources _) => s.resTable.all fun b r ↦ !decide r.Removable || !s.refersToRes b
  | s, (env, .client _ (.addQueue qa)) =>
    (s.deletedQueue qa).all fun b ↦
      (findAgent env s (qa.node.getD "localhost".toList)).isSome || !s.refersToQueue b
  | _, (_, .client _ (.modJob mj)) => !mj.clearResources || (mj.resources.getD []).isEmpty
  | _, _ => true

theorem Allowed.linked (hgood : refsKept s (env, e) = true)
    (h : Allowed env s e c (.shift a j j' k)) (hj : j.Linked c) : j'.Linked c := by
  cases h with
  | job _ hm =>
    cases hm with
    | @modify mj _ _ q new _ _ _ _ _ htarget hconv =>
      have hreqs : mj.clearResources = false ∨ mj.resources.getD [] = [] := by
        simpa [refsKept] using hgood
      obtain ⟨hcount, hres⟩ := JobMod.requirements_linked hconv hj hreqs
      refine ⟨?_, hcount, hres⟩
      rcases modified_queue (j := j) htarget with hq | hq
      · rw [hq]
        exact hj.queue
      · exact hq
    | _ => exact ⟨hj.queue, hj.counted, hj.resources⟩
  | queue _ hm | res _ hm => cases hm
  | agent hm =>
    cases hm with
    | @recon _ i =>
      obtain ⟨hcount, hres⟩ := j.reconciled_requirements i
      refine ⟨?_, ?_, ?_⟩
      · rw [Job.reconciled_queue]
        exact hj.queue
      · rw [hcount, hres]
        exact hj.counted
      · rw [hres]
        exact hj.resources
    | _ => exact ⟨hj.queue, hj.counted, hj.resources⟩
  | _ => exact ⟨hj.queue, hj.counted, hj.resources⟩

/-- A new job is put on a queue of the table, and its requirements have just been looked up. -/
theorem Allowed.addJob_linked (h : Allowed env s e c (.addJob j j' k)) (hc : Linked c) :
    j'.Linked c := by
  obtain ⟨_, _, _, hm⟩ := h.submitted
  cases hm with
  | submit hb hqueues hres hdefault hconv =>
    refine ⟨?_, le_rfl, ?_⟩
    · rcases hb with hb | ⟨q, hq, -⟩
      · exact hc.default _ (hdefault.trans hb)
      · rw [hqueues]
        exact isSome_iff_exists.mpr ⟨q, hq⟩
    · rw [hres]
      exact convertResourceStrings_isSome hconv

/-! ### Runs -/

theorem not_refersToQueue (h : s.refersToQueue b = false) :
    s.defaultQueue ≠ some b ∧ ∀ a j, s.jobTable.get? a = some j → j.queue ≠ b := by
  simp only [Server.refersToQueue, or_eq_false_iff, not_eq_false'] at h
  exact ⟨by simpa using h.1, fun a j hj ↦ by simpa using all_iff.mp h.2 a j hj⟩

theorem not_refersToRes (h : s.refersToRes b = false) :
    ∀ a j, s.jobTable.get? a = some j → ∀ x ∈ j.reqResources, x.res ≠ b := by
  simp only [Server.refersToRes, not_eq_false'] at h
  intro a j hj x hx
  have hall := all_iff.mp h a j hj
  simpa using List.all_eq_true.mp hall x hx

/-- A queue that is freed is not referred to. -/
theorem Allowed.removeQueue_free {q : Queue} (hgood : refsKept s (env, e) = true)
    (h : Allowed env s e c (.removeQueue b q)) :
    c.defaultQueue ≠ some b ∧ ∀ a j, c.jobTable.get? a = some j → j.queue ≠ b := by
  cases h with
  | job _ hm | res _ hm | agent hm => cases hm
  | queue _ hm =>
    cases hm with
    | drop hname hlower hfound hdel hagent =>
      subst hlower
      simp only [refsKept, deletedQueue_eq hname hfound hdel, all_some, hagent] at hgood
      exact not_refersToQueue (by simpa using hgood)
  | cleanQueue hget hrem hjobs hdefault =>
    simp only [refsKept] at hgood
    have hfree := all_iff.mp hgood b q hget
    rw [hjobs, hdefault]
    exact not_refersToQueue (by simpa [hrem] using hfree)

/-- A resource that is freed is not referred to. -/
theorem Allowed.removeRes_free {r : Resource} (hgood : refsKept s (env, e) = true)
    (h : Allowed env s e c (.removeRes b r)) :
    ∀ a j, c.jobTable.get? a = some j → ∀ x ∈ j.reqResources, x.res ≠ b := by
  cases h with
  | job _ hm | queue _ hm | res _ hm | agent hm => cases hm
  | cleanRes hget hrem hjobs =>
    simp only [refsKept] at hgood
    have hfree := all_iff.mp hgood b r hget
    rw [hjobs]
    exact not_refersToRes (by simpa [hrem] using hfree)

/-- A move that frees no object. -/
theorem Linked.of_jobs (h : Linked c) (hm : Move l c c') (hfree : l.freesObject = false)
    (hjobs : ∀ a j, c'.jobTable.get? a = some j → j.Linked c) : Linked c' := by
  have hkeep := hm.keepsObjects hfree
  refine ⟨fun a j hj ↦ (hjobs a j hj).mono hkeep, fun b hb ↦ hkeep.queues b ?_⟩
  exact (hm.frame.default b hb).elim (h.default b) id

/-- A shift to a job whose pointers lead to objects. -/
theorem Linked.shift (h : Linked c) (hm : Shift a j j' k c c') (hj : j'.Linked c) : Linked c' := by
  have hm : Move (.shift a j j' k) c c' := hm
  refine h.of_jobs hm rfl (hm.jobs_all (P := fun _ i ↦ i.Linked c) h.jobs
    (fun b i i' l hl _ ↦ ?_) fun i i' l hl ↦ nomatch hl)
  obtain ⟨-, -, rfl, -⟩ := Label.shift.inj hl
  exact hj

/-- A new job whose pointers lead to objects. -/
theorem Linked.add (h : Linked c) (hm : Move (.addJob j j' k) c c') (hj : j'.Linked c) :
    Linked c' := by
  refine h.of_jobs hm rfl (hm.jobs_all (P := fun _ i ↦ i.Linked c) h.jobs
    (fun a i i' l hl ↦ nomatch hl) fun i i' l hl ↦ ?_)
  obtain ⟨-, rfl, -⟩ := Label.addJob.inj hl
  exact hj

/-- **A move keeps the pointers** under the condition. -/
theorem Linked.move (hgood : refsKept s (env, e) = true) (h : Linked c) (hl : Allowed env s e c l)
    (hm : Move l c c') : Linked c' := by
  cases hfree : l.freesObject with
  | false =>
    refine h.of_jobs hm hfree (hm.jobs_all (P := fun _ j ↦ j.Linked c) h.jobs
      (fun a j j' k hshift hj ↦ ?_) fun j j' k hadd ↦ ?_)
    · subst hshift
      exact hl.linked hgood hj
    · subst hadd
      exact hl.addJob_linked h
  | true =>
    cases l with
    | removeQueue b q =>
      obtain ⟨hdefault, hjobs⟩ := hl.removeQueue_free hgood
      obtain ⟨-, rfl⟩ := hm
      refine ⟨fun a j hj ↦ ?_, fun b' hb' ↦ ?_⟩
      · have hlinked := h.jobs a j hj
        exact ⟨isSome_erase hlinked.queue (hjobs a j hj), hlinked.counted, hlinked.resources⟩
      · refine isSome_erase (h.default b' hb') fun he ↦ ?_
        exact hdefault (he ▸ hb')
    | removeRes b r =>
      have hjobs := hl.removeRes_free hgood
      obtain ⟨-, rfl⟩ := hm
      refine ⟨fun a j hj ↦ ?_, h.default⟩
      have hlinked := h.jobs a j hj
      exact ⟨hlinked.queue, hlinked.counted, fun x hx ↦
        isSome_erase (hlinked.resources x hx) (hjobs a j hj x hx)⟩
    | _ => exact nomatch hfree

/-- **References stay valid**, in every state of every run whose events meet the condition. -/
theorem linked_of_runs {config : Config} {hosts : List Str} {s : Server}
    (h : Runs refsKept config hosts s) : Linked s.toCore := by
  refine h.core_invariant (fun hgood _ hc hl hm ↦ hc.move hgood hl hm) ⟨fun a j hj ↦ ?_,
    fun b hb ↦ ?_⟩
  · exact absurd ((get?_empty a).symm.trans hj) (by simp)
  · simp [Server.initial] at hb

/-! ### A run with a dangling pointer -/

/-- A job is deleted, then its queue; the cleanup of queues frees the queue while the job is still
in the table. -/
theorem not_linked_cleanupQueues :
    ∃ s, Runs anyEvent config hosts s ∧ ¬ Linked s.toCore := by
  obtain ⟨s, hrun, j, hj, hnone⟩ := exists_runs anyEvent config hosts
    (events
      [.client root Sample.addQueue, .client root Sample.addJob, .saveStart true,
        .saveFinish false, .client root (.delJob 1),
        .client root (.delQueue (some "q".toList)), .cleanupQueues 0])
    (fun s ↦ ∃ j ∈ s.jobTable.get? 0, s.queueTable.get? j.queue = none) (by decide +kernel)
  refine ⟨s, hrun, fun h ↦ ?_⟩
  have hsome := (h.jobs 0 j hj).queue
  rw [hnone] at hsome
  exact nomatch hsome

/-- A job with a requirement on a queue of the table, after another queue has been deleted and
freed. -/
theorem linked_of_runs_cleanup :
    ∃ s, Runs refsKept config hosts s ∧ s.jobTable.rows.length = 1 ∧
      s.queueTable.rows.length = 1 ∧ Linked s.toCore := by
  obtain ⟨s, hrun, hjobs, hqueues⟩ := exists_runs refsKept config hosts
    (events (startHolder ++
      [.client root (.addQueue { name := some "p".toList }), .saveStart true,
        .saveFinish false, .client root (.delQueue (some "p".toList)), .cleanupQueues 0]))
    (fun s ↦ s.jobTable.rows.length = 1 ∧ s.queueTable.rows.length = 1) (by decide +kernel)
  exact ⟨s, hrun, hjobs, hqueues, linked_of_runs hrun⟩

end Jers
