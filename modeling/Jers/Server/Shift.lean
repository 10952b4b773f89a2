import Jers.Server.Jobs

/-!
# What a change of one job does to the server

Most functions of the daemon change one job, and with it the counters of the server and of the
queues, the amounts in use of some resources, and the deferred list. `Shift a j j' k` says all of
this at once: the job at `a` goes from `j` to `j'`, one job leaves the count of the old state and
enters the count of the new one on the server and on the queues concerned, and everything else
that happens is the cost `k`.

Shifts of one job compose (`Shift.trans`), so the effect of a handler is read off its calls:
`Shift.edits`, `changeJobState_shift`, `countStartPending_shift`, `allocateRes_shift` and
`deallocateRes_shift`. The accounting properties of the server are then statements about shifts.
-/

namespace Jers

open Exec Option Table

/-! ### Costs -/

/-- The audit marks of either. -/
def Audit.join (u v : Audit) : Audit where
  unmatched := u.unmatched || v.unmatched
  clamped := u.clamped || v.clamped

@[simp]
theorem Audit.join_default (u : Audit) : u.join {} = u := by
  simp [join]

theorem Audit.join_assoc (u v w : Audit) : (u.join v).join w = u.join (v.join w) := by
  simp [join, Bool.or_assoc]

/-- What happens beside the job itself: the change of the `start_pending` counters, the change of
the amount in use of each resource, the audit marks, and the new deferred list. -/
structure Cost where
  slots : ℤ := 0
  use : Addr → ℤ := fun _ ↦ 0
  audit : Audit := {}
  deferred : List Addr → List Addr := id

/-- One cost after another. -/
def Cost.andThen (k l : Cost) : Cost where
  slots := k.slots + l.slots
  use b := k.use b + l.use b
  audit := k.audit.join l.audit
  deferred := l.deferred ∘ k.deferred

@[simp]
theorem Cost.andThen_default (k : Cost) : k.andThen {} = k := by
  simp [andThen]

@[simp]
theorem Cost.default_andThen (k : Cost) : Cost.andThen {} k = k := by
  simp [andThen, Audit.join]

/-! ### Shifts -/

/-- The counters after a job has left one state for another. -/
structure JobStats.Moved (t t' : JobStats) (st st' : JobState) (slots : ℤ) : Prop where
  count : ∀ S, S ≠ .cleared →
    t'.count S = t.count S - (if st = S then 1 else 0) + if st' = S then 1 else 0
  slots : t'.startPending = t.startPending + slots

/-- The queue at `b` after a change of a job that may have been or be on it. -/
structure QueueMoved (b : Addr) (j j' : Job) (slots : ℤ) (q q' : Queue) : Prop where
  rest : q' = { q with stats := q'.stats }
  count : ∀ S, S ≠ .cleared → q'.stats.count S =
    q.stats.count S - (if j.queue = b ∧ j.state = S then 1 else 0) +
      if j'.queue = b ∧ j'.state = S then 1 else 0
  slots : q'.stats.startPending = q.stats.startPending + if j'.queue = b then slots else 0

/-- The job at `a` goes from `j` to `j'` at the cost `k`. -/
structure Shift (a : Addr) (j j' : Job) (k : Cost) (c c' : Core) : Prop where
  found : c.jobTable.get? a = some j
  jobs : c'.jobTable = c.jobTable.modify a fun _ ↦ j'
  stats : c.stats.Moved c'.stats j.state j'.state k.slots
  queues : ∀ b, Option.Rel (QueueMoved b j j' k.slots) (c.queueTable.get? b) (c'.queueTable.get? b)
  queueAddrs : c'.queueTable.addrs = c.queueTable.addrs
  queueNext : c'.queueTable.next = c.queueTable.next
  resources : ∀ b, Option.Rel (fun r r' ↦ r' = { r with inUse := r.inUse + k.use b })
    (c.resTable.get? b) (c'.resTable.get? b)
  resAddrs : c'.resTable.addrs = c.resTable.addrs
  resNext : c'.resTable.next = c.resTable.next
  defaultQueue : c'.defaultQueue = c.defaultQueue
  audit : c'.audit = c.audit.join k.audit
  deferred : c'.deferredList = k.deferred c.deferredList
  flush : c'.flush = c.flush
  recovery : c'.recovery = c.recovery
  config : c'.config = c.config

variable {a b : Addr} {j j' : Job} {c c' : Core} {α : Type} {st : JobState} {d : ℤ}
  {hs : List JobResource} {R : α → α → Prop} {x y : Option α}

/-- Two related options, one after the other. -/
theorem optionRel_trans {S T : α → α → Prop} (h : ∀ {x y z}, R x y → S y z → T x z) {z : Option α}
    (hxy : Option.Rel R x y) (hyz : Option.Rel S y z) : Option.Rel T x z := by
  cases hxy with
  | none =>
    cases hyz
    exact .none
  | some hr =>
    cases hyz with
    | some hs => exact .some (h hr hs)

theorem optionRel_refl (h : ∀ x, R x x) (x : Option α) : Option.Rel R x x := by
  cases x with
  | none => exact .none
  | some v => exact .some (h v)

/-- A weaker relation between two options. -/
theorem optionRel_mono {S : α → α → Prop} (h : ∀ {v w}, x = some v → R v w → S v w)
    (hxy : Option.Rel R x y) : Option.Rel S x y := by
  cases hxy with
  | none => exact .none
  | some hr => exact .some (h rfl hr)

/-- What becomes of a record under related lookups. -/
theorem optionRel_some (h : Option.Rel R x y) {v : α} (hx : x = some v) :
    ∃ w, y = some w ∧ R v w := by
  cases h with
  | none => exact nomatch hx
  | some hr =>
    obtain rfl := some.inj hx
    exact ⟨_, rfl, hr⟩

/-- Where a record comes from under related lookups. -/
theorem optionRel_some' (h : Option.Rel R x y) {w : α} (hy : y = some w) :
    ∃ v, x = some v ∧ R v w := by
  cases h with
  | none => exact nomatch hy
  | some hr =>
    obtain rfl := some.inj hy
    exact ⟨_, rfl, hr⟩

theorem JobStats.Moved.trans {t t' t'' : JobStats} {st' st'' : JobState} {e : ℤ}
    (h : t.Moved t' st st' d) (h' : t'.Moved t'' st' st'' e) : t.Moved t'' st st'' (d + e) where
  count S hS := by
    have h₁ := h.count S hS
    have h₂ := h'.count S hS
    omega
  slots := by
    rw [h'.slots, h.slots, add_assoc]

theorem QueueMoved.trans {j'' : Job} {e : ℤ} (hd : d = 0 ∨ j'.queue = j''.queue) {q q' q'' : Queue}
    (h : QueueMoved b j j' d q q') (h' : QueueMoved b j' j'' e q' q'') :
    QueueMoved b j j'' (d + e) q q'' where
  rest := by
    rw [h'.rest, h.rest]
  count S hS := by
    have h₁ := h.count S hS
    have h₂ := h'.count S hS
    omega
  slots := by
    rw [h'.slots, h.slots]
    rcases hd with rfl | hq
    · simp
    · rw [hq]
      split <;> omega

variable {k : Cost}

/-- **Shifts compose.** Slots that the first one moves belong to a queue that the second one does
not leave. -/
theorem Shift.trans {j'' : Job} {l : Cost} {c'' : Core} (h : Shift a j j' k c c')
    (h' : Shift a j' j'' l c' c'') (hq : k.slots = 0 ∨ j'.queue = j''.queue) :
    Shift a j j'' (k.andThen l) c c'' where
  found := h.found
  jobs := by
    rw [h'.jobs, h.jobs, modify_modify]
    rfl
  stats := h.stats.trans h'.stats
  queues b := optionRel_trans (fun hqm hqm' ↦ hqm.trans hq hqm') (h.queues b) (h'.queues b)
  queueAddrs := h'.queueAddrs.trans h.queueAddrs
  queueNext := h'.queueNext.trans h.queueNext
  resources b := by
    refine optionRel_trans (fun hr hr' ↦ ?_) (h.resources b) (h'.resources b)
    rw [hr', hr]
    simp [Cost.andThen, add_assoc]
  resAddrs := h'.resAddrs.trans h.resAddrs
  resNext := h'.resNext.trans h.resNext
  defaultQueue := h'.defaultQueue.trans h.defaultQueue
  audit := by
    rw [h'.audit, h.audit, Audit.join_assoc]
    rfl
  deferred := by
    rw [h'.deferred, h.deferred]
    rfl
  flush := h'.flush.trans h.flush
  recovery := h'.recovery.trans h.recovery
  config := h'.config.trans h.config

/-- The job after a shift. -/
theorem Shift.found' (h : Shift a j j' k c c') : c'.jobTable.get? a = some j' := by
  rw [h.jobs, get?_modify_self h.found]

/-- A shift leaves every other job alone. -/
theorem Shift.get?_of_ne (h : Shift a j j' k c c') (hb : b ≠ a) :
    c'.jobTable.get? b = c.jobTable.get? b := by
  rw [h.jobs, get?_modify_of_ne hb]

/-- A job after a shift: the one that has changed, or one that was there. -/
theorem Shift.get?_cases {i : Job} (h : Shift a j j' k c c') (hi : c'.jobTable.get? b = some i) :
    b = a ∧ j' = i ∨ b ≠ a ∧ c.jobTable.get? b = some i := by
  by_cases hb : b = a
  · subst hb
    exact .inl ⟨rfl, some.inj (h.found'.symm.trans hi)⟩
  · exact .inr ⟨hb, (h.get?_of_ne hb).symm.trans hi⟩

/-- The job of a shift is the one that is found. -/
theorem Shift.unique {i : Job} (h : Shift a j j' k c c') (hi : c.jobTable.get? a = some i) :
    j = i :=
  some.inj (h.found.symm.trans hi)

/-! ### Changes of the record alone -/

/-- A job edited without leaving its queue and its state. -/
theorem Shift.edit (hj : c.jobTable.get? a = some j) (hq : j'.queue = j.queue)
    (hs : j'.state = j.state) :
    Shift a j j' {} c { c with jobTable := c.jobTable.modify a fun _ ↦ j' } where
  found := hj
  jobs := rfl
  stats := ⟨fun S _ ↦ by rw [hs]; simp, by simp⟩
  queues b := optionRel_refl (fun q ↦ ⟨rfl, fun S _ ↦ by rw [hs, hq]; omega, by simp⟩) _
  queueAddrs := rfl
  queueNext := rfl
  resources b := optionRel_refl (fun r ↦ by simp) _
  resAddrs := rfl
  resNext := rfl
  defaultQueue := rfl
  audit := by simp
  deferred := rfl
  flush := rfl
  recovery := rfl
  config := rfl

theorem Shift.refl (hj : c.jobTable.get? a = some j) : Shift a j j {} c c := by
  have h : c.jobTable.modify a (fun _ ↦ j) = c.jobTable :=
    (modify_congr hj (f := fun _ ↦ j) (g := id) rfl).trans (Table.modify_id _ a)
  have hshift : Shift a j j {} c _ := Shift.edit hj rfl rfl
  rwa [h] at hshift

theorem Shift.edits {f : Job → Job} {s s' : Server} (h : Shift a j j' k c s.toCore)
    (hmod : modifyJob a f s = .ok ((), s')) (hq : (f j').queue = j'.queue)
    (hs : (f j').state = j'.state) : Shift a j (f j') k c s'.toCore := by
  obtain ⟨i, hi, rfl⟩ := modifyJob_ok hmod
  obtain rfl := mem_unique h.found' hi
  have hedit := Shift.edit hi hq hs
  rw [← modify_congr hi (g := fun _ ↦ f j') rfl] at hedit
  simpa only [Cost.andThen_default] using h.trans hedit (.inr hq.symm)

/-- A new deferred list, on account of one job. -/
theorem Shift.defer (hj : c.jobTable.get? a = some j) (f : List Addr → List Addr) :
    Shift a j j { deferred := f } c { c with deferredList := f c.deferredList } :=
  { Shift.refl hj with deferred := rfl }

/-- The `start_pending` counters of the server and of the queue of a job. -/
theorem Shift.slots (hj : c.jobTable.get? a = some j) (d : ℤ) : Shift a j j { slots := d } c
      { c with
        stats.startPending := c.stats.startPending + d
        queueTable := c.queueTable.modify j.queue fun q ↦
          { q with stats.startPending := q.stats.startPending + d } } :=
  { Shift.refl hj with
    stats := ⟨fun S _ ↦ by cases S <;> simp [JobStats.count], rfl⟩
    queues := fun x ↦ by
      dsimp only
      rw [get?_modify]
      by_cases hx : x = j.queue
      · rw [if_pos hx]
        cases c.queueTable.get? x with
        | none => exact .none
        | some q =>
          refine .some ⟨rfl, fun S _ ↦ ?_, by simp [hx]⟩
          cases S <;> simp [JobStats.count]
      · rw [if_neg hx]
        exact optionRel_refl (fun q ↦ ⟨rfl, fun S _ ↦ by omega, by simp [Ne.symm hx]⟩) _
    queueAddrs := addrs_modify _ _ _ }

/-- Counting a state of a list of counters, for a state that is not 0. -/
theorem JobStats.count_add_of_ne {S : JobState} (hS : S ≠ .cleared) (t : JobStats) (st : JobState)
    (d : ℤ) : (t.add st d).count S = t.count S + if st = S then d else 0 := by
  have hst : (S = st ∧ st ≠ .cleared) ↔ st = S :=
    ⟨fun h ↦ h.1.symm, fun h ↦ ⟨h.symm, h ▸ hS⟩⟩
  rw [count_add, if_congr hst rfl rfl]

/-- A job that leaves its state and its queue for others, with the counters of both. -/
theorem Shift.move (hj : c.jobTable.get? a = some j) (st : JobState) (b : Addr) :
    Shift a j { j with queue := b, state := st } {} c
      { c with
        jobTable := c.jobTable.modify a fun _ ↦ { j with queue := b, state := st }
        stats := (c.stats.add j.state (-1)).add st 1
        queueTable :=
          (c.queueTable.modify j.queue fun q ↦
            { q with stats := q.stats.add j.state (-1) }).modify b
            fun q ↦ { q with stats := q.stats.add st 1 } } :=
  { (Shift.edit hj rfl rfl : Shift a j j {} c _) with
    jobs := rfl
    stats := by
      refine ⟨fun S hS ↦ ?_, by simp [JobStats.startPending_add]⟩
      simp only [JobStats.count_add_of_ne hS]
      split <;> ring
    queues := fun x ↦ by
      dsimp only
      rw [get?_modify, get?_modify]
      cases c.queueTable.get? x with
      | none =>
        split <;> split <;> exact .none
      | some q =>
        -- the four cases of leaving and entering the queue at `x`
        split <;> split
        all_goals
          refine .some ⟨rfl, fun S hS ↦ ?_, by simp [JobStats.startPending_add]⟩
          simp only [JobStats.count_add_of_ne hS]
          split_ifs <;> grind
    queueAddrs := by
      dsimp only
      rw [addrs_modify, addrs_modify] }

/-! ### State changes -/

section

variable {s s' : Server}

theorem countState_ok (h : countState b st d s = .ok ((), s')) : s' = { s with
      stats := s.stats.add st d
      queueTable := s.queueTable.modify b fun q ↦ { q with stats := q.stats.add st d } } := by
  rcases whenever_ok_iff.mp h with ⟨-, h⟩ | ⟨hst, rfl⟩
  · obtain ⟨_, _, hu, hq⟩ := bind_ok_iff.mp h
    obtain rfl := update_ok_iff.mp hu
    obtain ⟨-, -, rfl⟩ := modifyQueue_ok hq
    rfl
  · -- jobs in state 0 are not counted
    obtain rfl := not_not.mp hst
    have hid : s.queueTable.modify b (fun q ↦ { q with stats := q.stats.add .cleared d }) =
        s.queueTable := Table.modify_id _ b
    rw [hid]
    rfl

theorem countStartPending_ok (h : countStartPending b d s = .ok ((), s')) : s' = { s with
      stats.startPending := s.stats.startPending + d
      queueTable := s.queueTable.modify b fun q ↦
        { q with stats.startPending := q.stats.startPending + d } } := by
  obtain ⟨_, _, hu, hq⟩ := bind_ok_iff.mp h
  obtain rfl := update_ok_iff.mp hu
  obtain ⟨-, -, rfl⟩ := modifyQueue_ok hq
  rfl

theorem incrementState_ok (h : incrementState a s = .ok ((), s')) :
    ∃ j, s.jobTable.get? a = some j ∧ ∃ t : Server, t.toCore = { s.toCore with
        stats := s.stats.add j.state 1
        queueTable :=
          s.queueTable.modify j.queue fun q ↦ { q with stats := q.stats.add j.state 1 } } ∧
      s'.toCore = if (j.state = .running ∨ j.state = .exited) ∧ j.internalState.started
        then { t.toCore with
          stats.startPending := t.stats.startPending - 1
          queueTable := t.queueTable.modify j.queue fun q ↦
            { q with stats.startPending := q.stats.startPending - 1 } }
        else t.toCore := by
  obtain ⟨j, hj, h₁⟩ := getJob_bind_ok h
  obtain ⟨_, t, hcount, h₂⟩ := bind_ok_iff.mp h₁
  obtain ⟨_, u, hslot, hpool⟩ := bind_ok_iff.mp h₂
  refine ⟨j, hj, t, by rw [countState_ok hcount], ?_⟩
  have hu : s'.toCore = u.toCore := by
    rcases whenever_ok_iff.mp hpool with ⟨-, hupd⟩ | ⟨-, rfl⟩
    · rw [update_ok_iff.mp hupd]
    · rfl
  rw [hu]
  rcases whenever_ok_iff.mp hslot with ⟨hc, hpend⟩ | ⟨hc, rfl⟩
  · rw [if_pos hc, countStartPending_ok hpend]
    rfl
  · rw [if_neg hc]

/-- The number of slots that a change to a state gives back: one, for a job that was marked as
started and is seen running or exited. -/
def slotsFreed (j : Job) (st : JobState) (q : Option Addr) : ℤ :=
  if (j.state ≠ st ∨ q ≠ none) ∧ (st = .running ∨ st = .exited) ∧ j.internalState.started then 1
  else 0

/-- The job after `changeJobState`. -/
def Job.changed (j : Job) (st : JobState) (q : Option Addr) (dirty : Bool) : Job :=
  { j with queue := q.getD j.queue, state := st, obj := j.obj.updated dirty }

variable {q : Option Addr} {dirty : Bool}

theorem updateJob_shift (hj : s.jobTable.get? a = some j) (h : updateJob a dirty s = .ok ((), s')) :
    Shift a j { j with obj := j.obj.updated dirty } {} s.toCore s'.toCore := by
  obtain ⟨_, t, hmod, hdirty⟩ := bind_ok_iff.mp h
  have hshift := (Shift.refl hj).edits hmod rfl rfl
  rcases whenever_ok_iff.mp hdirty with ⟨-, hupd⟩ | ⟨-, rfl⟩
  · rw [update_ok_iff.mp hupd]
    exact hshift
  · exact hshift

/-- The middle of `changeJobState`, when something changes. -/
theorem moveJob_shift (hj : s.jobTable.get? a = some j) (h : (do
      decrementState a
      modifyJob a fun j ↦ { j with queue := q.getD j.queue, state := st }
      incrementState a : Daemon Unit) s = .ok ((), s')) :
    Shift a j { j with queue := q.getD j.queue, state := st }
      { slots := if (st = .running ∨ st = .exited) ∧ j.internalState.started then -1 else 0 }
      s.toCore s'.toCore := by
  obtain ⟨_, t, hdec, h₁⟩ := bind_ok_iff.mp h
  obtain ⟨_, u, hmod, hinc⟩ := bind_ok_iff.mp h₁
  have hcount := getJob_bind_at hj hdec
  obtain rfl := countState_ok hcount
  obtain ⟨_, -, rfl⟩ := modifyJob_ok hmod
  obtain ⟨i, hi, u, hu, hs'⟩ := incrementState_ok hinc
  rw [get?_modify_self hj] at hi
  obtain rfl := some.inj hi
  have hmove := Shift.move hj st (q.getD j.queue)
  rw [← modify_congr hj
    (f := fun j ↦ { j with queue := q.getD j.queue, state := st }) rfl] at hmove
  replace hmove : Shift _ _ _ _ _ u.toCore := hu ▸ hmove
  rw [hs']
  dsimp only
  split
  · exact hmove.trans (Shift.slots hmove.found' (-1)) (.inl rfl)
  · exact hmove

/-- **Effect of `changeJobState`.** -/
theorem changeJobState_shift (h : changeJobState a st q dirty s = .ok ((), s')) :
    ∃ j, Shift a j (j.changed st q dirty) { slots := -slotsFreed j st q } s.toCore s'.toCore := by
  obtain ⟨j, hj, h₁⟩ := getJob_bind_ok h
  obtain ⟨_, t, hmove, hupd⟩ := bind_ok_iff.mp h₁
  refine ⟨j, ?_⟩
  rcases whenever_ok_iff.mp hmove with ⟨hc, hdo⟩ | ⟨hc, rfl⟩
  · have hshift := moveJob_shift hj hdo
    have hboth := hshift.trans (updateJob_shift hshift.found' hupd) (.inr rfl)
    have hcost : slotsFreed j st q =
        -if (st = .running ∨ st = .exited) ∧ j.internalState.started then -1 else 0 := by
      simp only [slotsFreed, hc, true_and]
      split <;> rfl
    rw [Cost.andThen_default] at hboth
    rw [hcost, neg_neg]
    exact hboth
  · -- nothing moves
    obtain ⟨rfl, rfl⟩ : j.state = st ∧ q = none := by
      simpa only [ne_eq, not_or, not_not] using hc
    have hcost : slotsFreed j j.state none = 0 := by simp [slotsFreed]
    rw [hcost]
    exact updateJob_shift hj hupd

/-- A shift that moves no slots, and then a change of the state. -/
theorem Shift.changes {c : Core} {j' : Job} {k : Cost} (h : Shift a j j' k c s.toCore)
    (hk : k.slots = 0) (hchange : changeJobState a st q dirty s = .ok ((), s')) :
    Shift a j (j'.changed st q dirty) (k.andThen { slots := -slotsFreed j' st q }) c s'.toCore := by
  obtain ⟨i, hmove⟩ := changeJobState_shift hchange
  obtain rfl := hmove.unique h.found'
  exact h.trans hmove (.inl hk)

end

/-! ### Resources -/

/-- The amount of the resource at `b` in a requirement list. -/
def amount (hs : List JobResource) (b : Addr) : ℤ :=
  (hs.map fun h ↦ if h.res = b then h.needed else 0).sum

@[simp]
theorem amount_nil (b : Addr) : amount [] b = 0 := rfl

@[simp]
theorem amount_cons (h : JobResource) (hs : List JobResource) (b : Addr) :
    amount (h :: hs) b = (if h.res = b then h.needed else 0) + amount hs b := by
  simp [amount]

theorem amount_nonneg (h : ∀ x ∈ hs, 0 ≤ x.needed) (b : Addr) : 0 ≤ amount hs b := by
  refine List.sum_nonneg fun v hv ↦ ?_
  obtain ⟨x, hx, rfl⟩ := List.mem_map.mp hv
  split
  · exact h x hx
  · exact le_rfl

/-- The amounts in use change by `use`, with the audit marks `w`, and nothing else changes. -/
structure ResMoved (use : Addr → ℤ) (w : Audit) (c c' : Core) : Prop where
  rest : c' = { c with resTable := c'.resTable, audit := c.audit.join w }
  resources : ∀ b, Option.Rel (fun r r' ↦ r' = { r with inUse := r.inUse + use b })
    (c.resTable.get? b) (c'.resTable.get? b)
  resAddrs : c'.resTable.addrs = c.resTable.addrs
  resNext : c'.resTable.next = c.resTable.next

theorem ResMoved.refl (c : Core) : ResMoved (fun _ ↦ 0) {} c c where
  rest := by simp
  resources b := optionRel_refl (fun r ↦ by simp) _
  resAddrs := rfl
  resNext := rfl

theorem ResMoved.trans {use use' : Addr → ℤ} {w w' : Audit} {c'' : Core} (h : ResMoved use w c c')
    (h' : ResMoved use' w' c' c'') : ResMoved (fun b ↦ use b + use' b) (w.join w') c c'' where
  rest := by
    rw [h'.rest, h.rest]
    simp [Audit.join_assoc]
  resources b := by
    refine optionRel_trans (fun hr hr' ↦ ?_) (h.resources b) (h'.resources b)
    rw [hr', hr]
    simp [add_assoc]
  resAddrs := h'.resAddrs.trans h.resAddrs
  resNext := h'.resNext.trans h.resNext

/-- Audit marks alone. -/
theorem ResMoved.mark (c : Core) (w : Audit) :
    ResMoved (fun _ ↦ 0) w c { c with audit := c.audit.join w } :=
  { ResMoved.refl c with rest := rfl }

/-- Writing the amount in use of one resource. -/
theorem ResMoved.set {r : Resource} (hr : c.resTable.get? b = some r) (n : ℤ) (w : Audit) :
    ResMoved (fun x ↦ if b = x then n - r.inUse else 0) w c
      { c with
        resTable := c.resTable.modify b fun r ↦ { r with inUse := n }
        audit := c.audit.join w } where
  rest := rfl
  resources x := by
    dsimp only
    rw [get?_modify]
    by_cases hx : x = b
    · subst hx
      rw [if_pos rfl, if_pos rfl, hr]
      exact .some (by simp)
    · rw [if_neg hx, if_neg (Ne.symm hx)]
      exact optionRel_refl (fun r ↦ by simp) _
  resAddrs := addrs_modify _ _ _
  resNext := rfl

/-- A change of amounts, on account of one job. -/
theorem ResMoved.shift {use : Addr → ℤ} {w : Audit} (h : ResMoved use w c c')
    (hj : c.jobTable.get? a = some j) : Shift a j j { use := use, audit := w } c c' := by
  have hrefl := Shift.refl hj
  rw [h.rest]
  exact
    { hrefl with
      resources := h.resources
      resAddrs := h.resAddrs
      resNext := h.resNext
      audit := rfl }

section Resources

variable {s s' : Server}

theorem int32_ok {m n : ℤ} (h : int32 m = .ok n) : n = m := by
  simp only [int32] at h
  split at h
  · exact (Except.ok.inj h).symm
  · exact nomatch h

theorem takeRes_moved {h : JobResource} (hs : takeRes h s = .ok ((), s')) :
    ResMoved (amount [h]) {} s.toCore s'.toCore := by
  obtain ⟨r, hr, h₁⟩ := getRes_bind_ok hs
  obtain ⟨n, _, hl, hmod⟩ := bind_ok_iff.mp h₁
  obtain ⟨hn, rfl⟩ := lift_ok_iff.mp hl
  obtain ⟨-, -, rfl⟩ := modifyRes_ok hmod
  have hval := int32_ok hn
  have hset := ResMoved.set hr n {}
  rw [Audit.join_default] at hset
  have huse : amount [h] = fun x ↦ if h.res = x then n - r.inUse else 0 := by
    funext x
    simp [hval]
  rw [huse]
  exact hset

theorem each_takeRes_moved (h : each takeRes hs s = .ok ((), s')) :
    ResMoved (amount hs) {} s.toCore s'.toCore := by
  induction hs generalizing s with
  | nil =>
    obtain ⟨-, rfl⟩ := pure_ok_iff.mp h
    exact ResMoved.refl _
  | cons x hs ih =>
    obtain ⟨_, t, hx, hrest⟩ := bind_ok_iff.mp h
    have hmoved := (takeRes_moved hx).trans (ih hrest)
    have hsum : amount (x :: hs) = fun b ↦ amount [x] b + amount hs b := by
      funext b
      simp
    rw [hsum]
    simpa using hmoved

theorem Job.requirements_of_resCount_zero (h : j.resCount = 0) : j.requirements = .ok [] := by
  simp [requirements, h]

/-- **Effect of `allocateRes`.** -/
theorem allocateRes_shift (hj : s.jobTable.get? a = some j) (h : allocateRes a s = .ok ((), s')) :
    ∃ reqs, j.requirements = .ok reqs ∧
      Shift a j { j with history.held := reqs } { use := amount reqs } s.toCore s'.toCore := by
  have h₁ := getJob_bind_at hj h
  obtain ⟨reqs, _, hl, h₂⟩ := bind_ok_iff.mp h₁
  obtain ⟨hreqs, rfl⟩ := lift_ok_iff.mp hl
  obtain ⟨_, t, htake, hmod⟩ := bind_ok_iff.mp h₂
  exact ⟨reqs, hreqs, ((each_takeRes_moved htake).shift hj).edits hmod rfl rfl⟩

/-- The amounts of a requirement list are all in use, so that giving them back is exact. -/
structure Releasable (reqs : List JobResource) (c : Core) : Prop where
  nonneg : ∀ h ∈ reqs, 0 ≤ h.needed
  inUse : ∀ b r, c.resTable.get? b = some r → amount reqs b ≤ r.inUse

/-- The amount in use of the resource at `b` after the requirements of a list are given back. -/
def givenBack (b : Addr) : List JobResource → ℤ → ℤ
  | [], n => n
  | x :: reqs, n => givenBack b reqs (if x.res = b then max (n - x.needed) 0 else n)

/-- The amounts by which giving back a list changes what is in use. -/
def GivesBack (reqs : List JobResource) (use : Addr → ℤ) (c : Core) : Prop :=
  ∀ b r, c.resTable.get? b = some r → r.inUse + use b = givenBack b reqs r.inUse

theorem giveRes_moved {h : JobResource} (hs : giveRes h s = .ok ((), s')) :
    ∃ use w, ResMoved use w s.toCore s'.toCore ∧ GivesBack [h] use s.toCore ∧
      (Releasable [h] s.toCore → use = (fun b ↦ -amount [h] b) ∧ w = {}) := by
  obtain ⟨r, hr, h₁⟩ := getRes_bind_ok hs
  obtain ⟨n, _, hl, h₂⟩ := bind_ok_iff.mp h₁
  obtain ⟨hn, rfl⟩ := lift_ok_iff.mp hl
  obtain ⟨_, t, hmod, hclamp⟩ := bind_ok_iff.mp h₂
  obtain ⟨-, -, rfl⟩ := modifyRes_ok hmod
  have hval := int32_ok hn
  have hset (w : Audit) := ResMoved.set hr (max n 0) w
  have hback : GivesBack [h] (fun x ↦ if h.res = x then max n 0 - r.inUse else 0) s.toCore := by
    intro b r' hr'
    dsimp only [givenBack]
    split
    · next hb =>
      obtain rfl := mem_unique hr (hb ▸ hr')
      omega
    · exact add_zero _
  rcases whenever_ok_iff.mp hclamp with ⟨hneg, hupd⟩ | ⟨hneg, rfl⟩
  · -- the amount would go below 0
    obtain rfl := update_ok_iff.mp hupd
    refine ⟨_, { clamped := true }, ?_, hback, fun hrel ↦ ?_⟩
    · simpa [Audit.join] using hset { clamped := true }
    · have := hrel.inUse h.res r hr
      simp at this
      omega
  · refine ⟨_, {}, by simpa using hset {}, hback, fun _ ↦ ⟨?_, rfl⟩⟩
    funext x
    simp only [amount_cons, amount_nil]
    split
    · omega
    · omega

theorem each_giveRes_moved (h : each giveRes hs s = .ok ((), s')) :
    ∃ use w, ResMoved use w s.toCore s'.toCore ∧ GivesBack hs use s.toCore ∧
      (Releasable hs s.toCore → use = (fun b ↦ -amount hs b) ∧ w = {}) := by
  induction hs generalizing s with
  | nil =>
    obtain ⟨-, rfl⟩ := pure_ok_iff.mp h
    exact ⟨_, _, ResMoved.refl _, fun _ _ _ ↦ add_zero _, fun _ ↦ ⟨by simp, rfl⟩⟩
  | cons x hs ih =>
    obtain ⟨_, t, hx, hrest⟩ := bind_ok_iff.mp h
    obtain ⟨use, w, hmoved, hback, hexact⟩ := giveRes_moved hx
    obtain ⟨use', w', hmoved', hback', hexact'⟩ := ih hrest
    refine ⟨_, _, hmoved.trans hmoved', fun b r hr ↦ ?_, fun hrel ↦ ?_⟩
    · obtain ⟨r', hr', rfl⟩ := optionRel_some (hmoved.resources b) hr
      have hrest := hback' b _ hr'
      rw [← add_assoc]
      exact hrest.trans (congrArg (givenBack b hs) (hback b r hr))
    have hnonneg := amount_nonneg fun y hy ↦ hrel.nonneg y (List.mem_cons_of_mem _ hy)
    -- the first requirement is covered, since the others are not negative
    obtain ⟨rfl, rfl⟩ := hexact
      ⟨fun y hy ↦ hrel.nonneg y (by simp_all), fun b r hr ↦ by
        have := hrel.inUse b r hr
        have := hnonneg b
        simp only [amount_cons, amount_nil] at *
        omega⟩
    obtain ⟨rfl, rfl⟩ := hexact'
      ⟨fun y hy ↦ hrel.nonneg y (List.mem_cons_of_mem _ hy), fun b r' hr' ↦ by
        obtain ⟨r, hr, rfl⟩ := optionRel_some' (hmoved.resources b) hr'
        have := hrel.inUse b r hr
        simp only [amount_cons, amount_nil] at *
        omega⟩
    refine ⟨?_, rfl⟩
    funext b
    simp only [amount_cons, amount_nil]
    omega

/-- **Effect of `deallocateRes`.** It is exact when the amounts are in use, and leaves no mark when
they are the ones that were allocated. -/
theorem deallocateRes_shift (hj : s.jobTable.get? a = some j)
    (h : deallocateRes a s = .ok ((), s')) : ∃ reqs use w, j.requirements = .ok reqs ∧
      Shift a j { j with history.held := [] } { use := use, audit := w } s.toCore s'.toCore ∧
      GivesBack reqs use s.toCore ∧ (Releasable reqs s.toCore → j.history.held = reqs →
        use = (fun b ↦ -amount reqs b) ∧ w = {}) := by
  have h₁ := getJob_bind_at hj h
  obtain ⟨reqs, _, hl, h₂⟩ := bind_ok_iff.mp h₁
  obtain ⟨hreqs, rfl⟩ := lift_ok_iff.mp hl
  obtain ⟨_, t, hgive, h₃⟩ := bind_ok_iff.mp h₂
  obtain ⟨_, u, hmark, hmod⟩ := bind_ok_iff.mp h₃
  obtain ⟨use, w, hmoved, hback, hexact⟩ := each_giveRes_moved hgive
  have hmarked : ∃ w', ResMoved use (w.join w') s.toCore u.toCore ∧
      (j.history.held = reqs → w' = {}) := by
    rcases whenever_ok_iff.mp hmark with ⟨hne, hupd⟩ | ⟨heq, rfl⟩
    · obtain rfl := update_ok_iff.mp hupd
      refine ⟨{ unmatched := true }, ?_, fun h ↦ absurd h hne⟩
      have hboth := hmoved.trans (ResMoved.mark t.toCore { unmatched := true })
      simpa only [add_zero, Audit.join, Bool.or_true, Bool.or_false] using hboth
    · exact ⟨{}, by simpa using hmoved, fun _ ↦ rfl⟩
  obtain ⟨w', hmoved', hw'⟩ := hmarked
  refine ⟨reqs, use, w.join w', hreqs, (hmoved'.shift hj).edits hmod rfl rfl, hback,
    fun hrel hheld ↦ ?_⟩
  obtain ⟨huse, rfl⟩ := hexact hrel
  exact ⟨huse, by rw [hw' hheld]; rfl⟩

end Resources

end Jers
