import Jers.Server.Limit

/-!
# A job is started once

A job is sent to its agent when it is pending and not flagged as started. It becomes pending when it
is added, modified or released from the deferred list. `OnceInv` is what keeps a job that has been
sent out from being pending and not flagged again, unless a modify request restarts it: such a job
has no time to be deferred to, is not on the deferred list, and is neither held nor deferred.
-/

namespace Jers

open List Table Sample

/-! ### The deferred list -/

variable {a : Addr} {l : List Addr} {j' : Job} {k : Cost} {time : Addr → ℤ} {mj : JobMod}
  {env : Env} {s : Server} {e : Event}

theorem mem_insertDeferred {b : Addr} : b ∈ insertDeferred time a l ↔ b = a ∨ b ∈ l := by
  induction l with
  | nil => simp [insertDeferred]
  | cons x l ih =>
    rw [insertDeferred]
    split
    · simp
    · rw [mem_cons, ih, mem_cons]
      tauto

theorem nodup_insertDeferred (hl : l.Nodup) (ha : a ∉ l) : (insertDeferred time a l).Nodup := by
  induction l with
  | nil => simp [insertDeferred]
  | cons x l ih =>
    rw [insertDeferred]
    split
    · exact nodup_cons.mpr ⟨ha, hl⟩
    · obtain ⟨hx, hl⟩ := nodup_cons.mp hl
      obtain ⟨hne, ha⟩ : a ≠ x ∧ a ∉ l := by simpa using ha
      refine nodup_cons.mpr ⟨fun hmem ↦ ?_, ih hl ha⟩
      exact (mem_insertDeferred.mp hmem).elim (fun h ↦ hne h.symm) hx

/-- What a change of the deferred list on account of the job at `a` keeps. -/
structure Relists (a : Addr) (l l' : List Addr) : Prop where
  nodup : l'.Nodup
  others : ∀ b ∈ l', b ≠ a → b ∈ l

theorem Relists.refl (hl : l.Nodup) : Relists a l l := ⟨hl, fun _ h _ ↦ h⟩

theorem Relists.erase (hl : l.Nodup) : Relists a l (l.erase a) :=
  ⟨hl.erase a, fun _ h _ ↦ mem_of_mem_erase h⟩

theorem Relists.insert {l' : List Addr} (h : Relists a l l') (ha : a ∉ l') :
    Relists a l (insertDeferred time a l') :=
  ⟨nodup_insertDeferred h.nodup ha, fun b hb hne ↦
    h.others b ((mem_insertDeferred.mp hb).resolve_left hne) hne⟩

/-- A job that has a time is taken off the list; one that has none is not on it. -/
theorem undefer_spec {time : ℤ} (hl : l.Nodup) (hlisted : a ∈ l → time ≠ 0) :
    Relists a l (undefer a time l) ∧ a ∉ undefer a time l := by
  rw [undefer]
  split
  · exact ⟨.erase hl, fun h ↦ (List.Nodup.mem_erase_iff hl).mp h |>.1 rfl⟩
  · next htime => exact ⟨.refl hl, fun h ↦ htime (hlisted h)⟩

variable {f : List Addr → List Addr} {j : Job} {c c' : Core}

/-- A new job is on the list if it has a time. -/
theorem relists_new (hl : l.Nodup) (ha : a ∉ l) {t : ℤ} {T : (Addr → ℤ) → Prop}
    (hf : (t = 0 ∧ f = id) ∨ t ≠ 0 ∧ ∃ due, T due ∧ f = insertDeferred due a) :
    Relists a l (f l) ∧ (a ∈ f l → t ≠ 0) := by
  rcases hf with ⟨-, rfl⟩ | ⟨htime, due, -, rfl⟩
  · exact ⟨.refl hl, fun hmem ↦ absurd hmem ha⟩
  · exact ⟨(Relists.refl hl).insert ha, fun _ ↦ htime⟩

/-! ### Invariants of jobs and their place in the list -/

/-- The deferred list names jobs, each once, and `P` holds of every job, listed or not. -/
structure Listing (P : Addr → Prop → Job → Prop) (c : Core) : Prop where
  nodup : c.deferredList.Nodup
  bound : ∀ a ∈ c.deferredList, a < c.jobTable.next
  jobs : ∀ a j, c.jobTable.get? a = some j → P a (a ∈ c.deferredList) j

section

variable {P : Addr → Prop → Job → Prop} {c c' : Core}

/-- The job at `a` and the deferred list after a shift. -/
theorem Listing.shift {j : Job} (hm : Shift a j j' k c c')
    (hbound : ∀ b ∈ c.deferredList, b < c.jobTable.next)
    (hothers : ∀ b i (listed : Prop), b ≠ a → c.jobTable.get? b = some i →
      (listed → b ∈ c.deferredList) → P b listed i)
    (hrel : Relists a c.deferredList (k.deferred c.deferredList))
    (hj' : P a (a ∈ k.deferred c.deferredList) j') : Listing P c' where
  nodup := hm.deferred ▸ hrel.nodup
  bound b hb := by
    rw [hm.deferred] at hb
    rw [hm.jobs, next_modify]
    by_cases hba : b = a
    · exact hba ▸ lt_next hm.found
    · exact hbound b (hrel.others b hb hba)
  jobs b i hi := by
    rw [hm.deferred]
    obtain ⟨rfl, rfl⟩ | ⟨hba, hi⟩ := hm.get?_cases hi
    · exact hj'
    · exact hothers b i _ hba hi fun hb ↦ hrel.others b hb hba

/-- A new job is not on the list. -/
theorem Listing.next_notMem (h : Listing P c) : c.jobTable.next ∉ c.deferredList :=
  fun hmem ↦ lt_irrefl _ (h.bound _ hmem)

/-- A job is added. -/
theorem Listing.add {j : Job} (h : Listing P c) (hm : Move (.addJob j j' k) c c')
    (hmono : ∀ {b i} {listed listed' : Prop}, P b listed i → (listed' → listed) → P b listed' i)
    (hrel : Relists c.jobTable.next c.deferredList (k.deferred c.deferredList))
    (hj' : P c.jobTable.next (c.jobTable.next ∈ k.deferred c.deferredList) j') : Listing P c' := by
  have hm := hm.added
  refine .shift hm (fun b hb ↦ Nat.lt_succ_of_lt (h.bound b hb))
    (fun b i listed hne hi hlisted ↦ ?_) hrel hj'
  rw [get?_push, if_neg hne] at hi
  exact hmono (h.jobs b i hi) hlisted

/-- **A move keeps a property of jobs** that the moves of the job itself keep. -/
theorem Listing.move {l : Label} (h : Listing P c) (hm : Move l c c')
    (hmono : ∀ {b i} {listed listed' : Prop}, P b listed i → (listed' → listed) → P b listed' i)
    (hshift : ∀ {a j j' k}, l = .shift a j j' k → c.jobTable.get? a = some j →
      Relists a c.deferredList (k.deferred c.deferredList) ∧ P a (a ∈ k.deferred c.deferredList) j')
    (hadd : ∀ {j j' k}, l = .addJob j j' k →
      Relists c.jobTable.next c.deferredList (k.deferred c.deferredList) ∧
        P c.jobTable.next (c.jobTable.next ∈ k.deferred c.deferredList) j') : Listing P c' := by
  rcases hm.jobs_cases with hon | ⟨a, j, j', k, rfl, hm⟩ | ⟨j, j', k, rfl, hm⟩ | ⟨a, j, rfl, -, rfl⟩
  · obtain ⟨hjobs, -, hlist, -⟩ := hm.same_jobs hon
    exact ⟨hlist ▸ h.nodup, hlist ▸ hjobs ▸ h.bound, hlist ▸ hjobs ▸ h.jobs⟩
  · obtain ⟨hrel, hj'⟩ := hshift rfl hm.found
    exact .shift hm h.bound (fun b i _ _ hi ↦ hmono (h.jobs b i hi)) hrel hj'
  · obtain ⟨hrel, hj'⟩ := hadd rfl
    exact h.add hm hmono hrel hj'
  · exact ⟨h.nodup, h.bound, fun b i hi ↦ h.jobs b i (get?_erase_some hi).2⟩

end

/-! ### The invariant -/

/-- What holds of a job, `listed` or not. -/
structure OnceInv (listed : Prop) (j : Job) : Prop where
  once : j.history.starts ≤ 1
  deferred : listed → j.deferTime ≠ 0
  pending : j.state = .pending → j.deferTime = 0
  cleared : j.state = .cleared → j.internalState.deleted = true
  sent : j.history.starts ≠ 0 → j.deferTime = 0 ∧ j.state ≠ .holding ∧ j.state ≠ .deferred ∧
    (j.state = .pending → j.internalState.started = true)

/-- The deferred list and every job. -/
abbrev StartsOnce : Core → Prop := Listing fun _ ↦ OnceInv

/-- The jobs are not restarted. -/
def noRestart : Condition
  | _, (_, .client _ (.modJob mj)) => !mj.restart
  | _, _ => true

/-! ### Modify requests -/

/-- The deferred list after a modify request has a job that is still deferred, or has it no more. -/
theorem JobMod.relists (new : Option (List JobResource)) (hl : l.Nodup) (hlisted : a ∈ l →
    j.deferTime ≠ 0) {c : Core} (hf : mj.Defers c a f) :
    Relists a l (f (mj.undefers a j l)) ∧
      (a ∈ f (mj.undefers a j l) → (mj.edit new j).deferTime ≠ 0) := by
  obtain ⟨hun, hnot⟩ := undefer_spec hl hlisted
  rcases hf with ⟨htime, rfl⟩ | ⟨hset, htime, due, -, rfl⟩
  · by_cases hset : mj.deferTime = unsetTimeT
    · simp only [edit, undefers, hset, ne_eq, not_true_eq_false, if_false, id_eq]
      exact ⟨.refl hl, hlisted⟩
    · simp only [undefers, ne_eq, hset, not_false_eq_true, if_true, id_eq]
      exact ⟨hun, fun h ↦ absurd h hnot⟩
  · simp only [edit, undefers, ne_eq, hset, not_false_eq_true, if_true]
    exact ⟨hun.insert hnot, fun _ ↦ htime⟩

/-- A modify request leaves a job deferred, held, finished as it was, or pending. -/
theorem JobMod.state_cases (mj : JobMod) (new : Option (List JobResource)) (j : Job) :
    ((mj.edit new j).deferTime ≠ 0 ∧ mj.state new j = .deferred) ∨
    (mj.edit new j).deferTime = 0 ∧ (mj.holds j = true ∧ mj.state new j = .holding ∨
      j.state.isFinished = true ∧ mj.restart = false ∧ mj.state new j = j.state ∨
      (j.state.isFinished = false ∨ mj.restart = true) ∧ mj.state new j = .pending) := by
  unfold JobMod.state
  split
  · next htime => exact .inl ⟨htime, rfl⟩
  · next htime =>
    refine .inr ⟨not_not.mp htime, ?_⟩
    split
    · next hhold => exact .inl ⟨hhold, rfl⟩
    · split
      · next hfin =>
        simp only [Bool.and_eq_true, Bool.not_eq_true'] at hfin
        exact .inr (.inl ⟨hfin.1, hfin.2, rfl⟩)
      · next hfin =>
        refine .inr (.inr ⟨?_, rfl⟩)
        cases hend : j.state.isFinished with
        | false => exact .inl rfl
        | true => exact .inr (by simpa [hend] using hfin)

/-- **A job that has been sent out is finished when a modify request is accepted**, and without a
restart it stays as it is. -/
theorem JobMod.state_of_sent {listed : Prop} (new : Option (List JobResource))
    (hj : OnceInv listed j) (hsent : j.history.starts ≠ 0) (hdel : j.internalState.deleted = false)
    (hallow : mj.refusal none j = none) (hrestart : mj.restart = false) :
    (mj.edit new j).deferTime = 0 ∧ mj.state new j = j.state ∧ j.state.isFinished = true := by
  obtain ⟨htime, hhold, hdefer, hpend⟩ := hj.sent hsent
  simp only [refusal] at hallow
  split at hallow
  · contradiction
  split at hallow
  · contradiction
  next hclosed hidle =>
  obtain ⟨hrun, hstart⟩ := not_or.mp hidle
  have hfin : j.state.isFinished = true := by
    cases hst : j.state with
    | completed | exited | unknown => rfl
    | cleared => exact absurd ((hj.cleared hst).symm.trans hdel) (by decide)
    | pending => exact absurd (hpend hst) hstart
    | holding => exact absurd hst hhold
    | deferred => exact absurd hst hdefer
    | running => exact absurd hst hrun
  obtain ⟨hset, hkeep⟩ : mj.deferTime = unsetTimeT ∧ mj.hold = unset8 := by
    simpa [hfin, hrestart] using hclosed
  have hedit : (mj.edit new j).deferTime = 0 := by simp [edit, hset, htime]
  refine ⟨hedit, ?_, hfin⟩
  rcases mj.state_cases new j with ⟨h, -⟩ | ⟨-, ⟨h, -⟩ | ⟨-, -, h⟩ | ⟨h, -⟩⟩
  · exact absurd hedit h
  · simp [holds, hkeep, hhold] at h
  · exact h
  · simp [hfin, hrestart] at h

/-! ### Moves -/

section

variable {listed listed' : Prop} {j : Job}

/-- A change of what no clause looks at. -/
theorem OnceInv.congr (h : OnceInv listed j) (hlisted : listed' → listed)
    (hstate : j'.state = j.state) (htime : j'.deferTime = j.deferTime)
    (hflags : j'.internalState.deleted = j.internalState.deleted ∧
      j'.internalState.started = j.internalState.started)
    (hstarts : j'.history.starts = j.history.starts) : OnceInv listed' j' where
  once := hstarts ▸ h.once
  deferred hl := htime ▸ h.deferred (hlisted hl)
  pending hst := htime ▸ h.pending (hstate ▸ hst)
  cleared hst := hflags.1 ▸ h.cleared (hstate ▸ hst)
  sent hsent := by
    rw [htime, hstate, hflags.2]
    exact h.sent (hstarts ▸ hsent)

/-- A job that goes to a state from which it is not started, however its flags change. -/
theorem OnceInv.settle (h : OnceInv listed j) (hlisted : listed' → listed)
    (hstate : j'.state = .running ∨ j'.state.isFinished = true) (htime : j'.deferTime = j.deferTime)
    (hstarts : j'.history.starts = j.history.starts) : OnceInv listed' j' where
  once := hstarts ▸ h.once
  deferred hl := htime ▸ h.deferred (hlisted hl)
  pending hst := by simp [hst, JobState.isFinished] at hstate
  cleared hst := by simp [hst, JobState.isFinished] at hstate
  sent hsent := by
    refine ⟨htime.trans (h.sent (hstarts ▸ hsent)).1, ?_, ?_, ?_⟩
    all_goals
      intro hst
      simp [hst, JobState.isFinished] at hstate

theorem OnceInv.deleted (h : OnceInv listed j) (hlisted : ¬ listed') :
    OnceInv listed' j.deleted where
  once := h.once
  deferred hl := absurd hl hlisted
  pending hst := absurd hst nofun
  cleared _ := rfl
  sent hsent := ⟨(h.sent hsent).1, nofun, nofun, nofun⟩

/-- A job on the deferred list has not been sent out. -/
theorem OnceInv.released (h : OnceInv listed j) (hl : listed) (hlisted : ¬ listed') :
    OnceInv listed' j.released where
  once := h.once
  deferred hl' := absurd hl' hlisted
  pending _ := rfl
  cleared hst := absurd hst nofun
  sent hsent := absurd (h.sent hsent).1 (h.deferred hl)

/-- A job that is pending and not flagged has not been sent out. -/
theorem OnceInv.begun {reqs : List JobResource} (h : OnceInv listed j) (hst : j.state = .pending)
    (hflag : j.internalState.started = false) : OnceInv listed (j.begun reqs) := by
  have hfirst : j.history.starts = 0 := by
    by_contra hsent
    exact nomatch ((h.sent hsent).2.2.2 hst).symm.trans hflag
  have htime : j.deferTime = 0 := h.pending hst
  exact
    { once := by simp [Job.begun, hfirst]
      deferred := h.deferred
      pending := h.pending
      cleared := h.cleared
      sent := fun _ ↦ ⟨htime, by simp [Job.begun, hst], by simp [Job.begun, hst], fun _ ↦ rfl⟩ }

theorem OnceInv.modified {q : Option Addr} {new : Option (List JobResource)} (h : OnceInv listed j)
    (hdel : j.internalState.deleted = false) (hallow : mj.refusal none j = none)
    (hrestart : mj.restart = false) (hlisted : listed' → (mj.edit new j).deferTime ≠ 0) :
    OnceInv listed' (j.modified mj q new) where
  once := h.once
  deferred := hlisted
  pending hst := by
    rcases mj.state_cases new j with ⟨-, hdefer⟩ | ⟨htime, -⟩
    · exact nomatch hdefer.symm.trans hst
    · exact htime
  cleared hst := by
    have hst : mj.state new j = .cleared := hst
    rcases mj.state_cases new j with ⟨-, hs⟩ | ⟨-, ⟨-, hs⟩ | ⟨hfin, -, hs⟩ | ⟨-, hs⟩⟩
    · exact nomatch hs.symm.trans hst
    · exact nomatch hs.symm.trans hst
    · exact h.cleared (hs.symm.trans hst)
    · exact nomatch hs.symm.trans hst
  sent hsent := by
    obtain ⟨htime, hstate, hfin⟩ := JobMod.state_of_sent new h hsent hdel hallow hrestart
    have hstate : (j.modified mj q new).state = j.state := hstate
    rw [hstate]
    obtain ⟨-, hhold, hdefer, hpend⟩ := h.sent hsent
    refine ⟨htime, hhold, hdefer, fun hst ↦ ?_⟩
    exact hpend hst

theorem ExitStatus.isFinished_state (e : ExitStatus) : e.state.isFinished = true := by
  rw [state]
  split <;> rfl

theorem OnceInv.reconciled (i : ReconItem) (h : OnceInv listed j) :
    OnceInv listed (j.reconciled i) := by
  have hstate := j.reconciled_state i
  have hflags := j.reconciled_internalState i
  have hstarts : (j.reconciled i).history.starts = j.history.starts := by
    rw [Job.reconciled_history]
  split_ifs at hstate
  · exact h.settle id (.inl hstate) (j.reconciled_deferTime i) hstarts
  · exact h.settle id (.inr (by rw [hstate]; rfl)) (j.reconciled_deferTime i) hstarts
  · exact h.settle id (.inr (by rw [hstate]; rfl)) (j.reconciled_deferTime i) hstarts
  · exact h.congr id hstate (j.reconciled_deferTime i) (by rw [hflags]; exact ⟨rfl, rfl⟩) hstarts

end

/-- What an event makes of a job and of the deferred list. -/
theorem Allowed.once {c : Core} (hgood : noRestart s (env, e) = true)
    (h : Allowed env s e c (.shift a j j' k)) (hl : c.deferredList.Nodup)
    (hj : OnceInv (a ∈ c.deferredList) j) : Relists a c.deferredList (k.deferred c.deferredList) ∧
      OnceInv (a ∈ k.deferred c.deferredList) j' := by
  cases h with
  | job _ hm =>
    cases hm with
    | @modify mj _ _ q new _ f _ hdel hallow _ _ _ _ hdef hf =>
      have hrestart : mj.restart = false := by simpa [noRestart] using hgood
      obtain ⟨hrel, hlisted⟩ := JobMod.relists new hl hj.deferred hf
      rw [hdef]
      exact ⟨hrel, hj.modified hdel hallow hrestart hlisted⟩
    | delete =>
      obtain ⟨hrel, hnot⟩ := undefer_spec hl hj.deferred
      exact ⟨hrel, hj.deleted hnot⟩
    | kill _ _ _ _ _ hdef =>
      rw [hdef]
      exact ⟨.refl hl, hj.settle id (.inr rfl) rfl rfl⟩
    | setTag | delTag => exact ⟨.refl hl, hj.congr id rfl rfl ⟨rfl, rfl⟩ rfl⟩
  | queue _ hm | res _ hm => cases hm
  | agent hm =>
    cases hm with
    | started => exact ⟨.refl hl, hj.settle id (.inl rfl) rfl rfl⟩
    | @completed _ exitcode _ _ _ _ _ _ _ _ hdef =>
      rw [hdef]
      refine ⟨.refl hl, hj.settle id (.inr ?_) rfl rfl⟩
      exact (exitStatus exitcode).isFinished_state
    | @recon _ i => exact ⟨.refl hl, hj.reconciled i⟩
  | lose => exact ⟨.refl hl, hj.settle id (.inr rfl) rfl rfl⟩
  | idle | captureJob | reapJob => exact ⟨.refl hl, hj.congr id rfl rfl ⟨rfl, rfl⟩ rfl⟩
  | start _ _ _ hst hflag => exact ⟨.refl hl, hj.begun hst hflag⟩
  | release ha =>
    have hnot : a ∉ c.deferredList.erase a := fun h ↦ (List.Nodup.mem_erase_iff hl).mp h |>.1 rfl
    exact ⟨.erase hl, hj.released ha hnot⟩
  | expire =>
    obtain ⟨hrel, hnot⟩ := undefer_spec hl hj.deferred
    exact ⟨hrel, hj.deleted hnot⟩

/-- A new job is not pending if it has a time. -/
theorem newJob_state (ja : JobAdd) (jobid uid submitter : ℕ) (b : Addr) (time : ℤ)
    (reqs : List JobResource) :
    ((newJob ja jobid uid submitter b time reqs).state = .pending → ja.deferTime = 0) ∧
      (newJob ja jobid uid submitter b time reqs).state ≠ .cleared := by
  simp only [newJob]
  split_ifs with htime
  · simp
  · simp
  · exact ⟨fun _ ↦ not_not.mp htime, by simp⟩

/-- A new job is on the deferred list if it has a time. -/
theorem Allowed.addJob_once {c : Core} (h : Allowed env s e c (.addJob j j' k))
    (hc : StartsOnce c) : Relists c.jobTable.next c.deferredList (k.deferred c.deferredList) ∧
      OnceInv (c.jobTable.next ∈ k.deferred c.deferredList) j' := by
  obtain ⟨_, _, _, hm⟩ := h.submitted
  cases hm with
  | @submit ja _ jobid uid submitter b time reqs f _ _ _ _ _ _ hf =>
    obtain ⟨hpending, hlive⟩ := newJob_state ja jobid uid submitter b time reqs
    obtain ⟨hrel, hlisted⟩ := relists_new hc.nodup hc.next_notMem hf
    exact ⟨hrel, Nat.zero_le _, hlisted, hpending, fun hst ↦ (hlive hst).elim, fun hsent ↦
      absurd rfl hsent⟩

/-- **A move keeps the invariant** if no job is restarted. -/
theorem StartsOnce.move {l : Label} (hgood : noRestart s (env, e) = true)
    (h : StartsOnce c) (hl : Allowed env s e c l) (hm : Move l c c') : StartsOnce c' := by
  refine Listing.move h hm (fun hj hlisted ↦ hj.congr hlisted rfl rfl ⟨rfl, rfl⟩ rfl) ?_ ?_
  · rintro a j j' k rfl hj
    exact hl.once hgood h.nodup (h.jobs a j hj)
  · rintro j j' k rfl
    exact hl.addJob_once h

/-- **A job that is not restarted is sent to its agent once at most**, in every state of every run,
whatever the agents report. -/
theorem starts_le_one_of_runs {config : Config} {hosts : List Str} {s : Server}
    (h : Runs noRestart config hosts s) {a : Addr} {j : Job} (hj : s.jobTable.get? a = some j) :
    j.history.starts ≤ 1 := by
  have hinv : StartsOnce s.toCore := by
    refine h.core_invariant (fun hgood _ hc hl hm ↦ StartsOnce.move hgood hc hl hm)
      ⟨nodup_nil, nofun, ?_⟩
    intro a j hj
    exact absurd ((get?_empty a).symm.trans hj) (by simp)
  exact (hinv.jobs a j hj).once

/-- A job is sent out, its agent goes and comes back, the job is modified, and a second job is
started. -/
theorem starts_le_one_of_runs_reconnect :
    ∃ s j, Runs noRestart config hosts s ∧ s.jobTable.get? 0 = some j ∧
      j.state = .unknown ∧ j.history.starts ≤ 1 := by
  obtain ⟨s, hrun, j, hj, hst⟩ := exists_runs noRestart config hosts
    (events (Sample.startJob ++
      [.disconnect 0, .client root (.modJob { jobid := 1, priority := 3 }), .connect 0,
        .agent 0 .login, .agent 0 (.recon []), .client root Sample.addJob, .checkJobs]))
    (fun s ↦ ∃ j ∈ s.jobTable.get? 0, j.state = .unknown) (by decide +kernel)
  exact ⟨s, j, hrun, hj, hst, starts_le_one_of_runs hrun hj⟩

end Jers
