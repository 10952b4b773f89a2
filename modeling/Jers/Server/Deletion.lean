import Mathlib.Order.Interval.Finset.Nat
import Jers.Server.CommandGet
import Jers.Server.Pool
import Jers.Server.StartOnce

/-!
# Deleted jobs

`deleteJob` sets a flag and the state 0, and the record stays in the table until `cleanupJob` frees
it. The handlers of the agent messages find jobs by their ids without a look at the flag, and the
loss of an agent resets all flags of the jobs that had been sent to it. `deletionKept` is the
condition that none of them meets a deleted job. Then a deleted job stays deleted and in state 0, so
that no counter has it, no query returns it and the scheduler does not take it
(`deletionRight_of_runs`). No other record goes (`livesAt_of_run`).
-/

namespace Jers

open Exec List Option Bool Table Sample Except

/-! ### The condition -/

/-- No deleted job has this id. -/
def Server.spares (s : Server) (jobid : ℕ) : Bool :=
  s.jobTable.all fun _ j ↦ !j.internalState.deleted || j.jobid != jobid

/-- The event is no report about a deleted job, and takes away no agent that a deleted job had just
been sent to. Job ids are 32-bit numbers other than 0. -/
def deletionKept (s : Server) : LoadEvent → Bool
  | .load fileName _ => atoi fileName % 2 ^ 32 != 0
  | .event _ (.client _ (.addJob ja)) => decide (ja.jobid < 2 ^ 32)
  | .event _ (.agent _ (.jobStarted jobid _ _)) => s.spares jobid
  | .event _ (.agent _ (.jobCompleted jobid _ _ _)) => s.spares jobid
  | .event _ (.agent _ (.recon items)) =>
    items.all fun i ↦ (i.pid == 0 && i.finishTime == 0) || s.spares i.jobid
  | .event _ (.disconnect g) =>
    s.jobTable.all fun _ j ↦ !j.internalState.deleted || !j.internalState.started ||
      (s.queueTable.get? j.queue).all fun q ↦ q.agent != some g
  | .event _ _ => true

variable {s : Server} {indexTag : Option Str} {j j' : Job} {index : TagIndex} {as : List Addr}
  {a : Addr} {c : Core} {t : Tables}

theorem Server.not_deleted_of_spares {jobid : ℕ} (h : s.spares jobid = true)
    {j : Job} (hj : s.jobTable.get? a = some j) (hid : j.jobid = jobid) :
    j.internalState.deleted = false := by
  have hall := all_iff.mp h a j hj
  simpa [hid] using hall

/-! ### The invariant -/

/-- What holds of a job, `listed` as deferred or not. -/
structure DeletionInv (listed : Prop) (j : Job) : Prop where
  cleared : j.internalState.deleted = true → j.state = .cleared
  deferred : listed → j.deferTime ≠ 0 ∧ j.internalState.deleted = false
  id : j.jobid ≠ 0 ∧ j.jobid < 2 ^ 32

/-- The deferred list and every job. -/
structure DeletionKept (c : Core) : Prop extends Listing (fun _ ↦ DeletionInv) c where
  small : c.config.maxJobid < 2 ^ 32
  unique : UniqueIds c.toTables

/-- The deleted jobs of the core were deleted before the event. -/
def OldDeleted (s : Server) (c : Core) : Prop :=
  ∀ a j, c.jobTable.get? a = some j → j.internalState.deleted = true →
    ∃ i, s.jobTable.get? a = some i ∧ i.jobid = j.jobid ∧ i.internalState.deleted = true

section

variable {listed listed' : Prop} {j j' : Job}

theorem DeletionInv.mono (h : DeletionInv listed j) (hlisted : listed' → listed) :
    DeletionInv listed' j :=
  ⟨h.cleared, fun hl ↦ h.deferred (hlisted hl), h.id⟩

/-- A job that keeps its id and is not deleted, before and after. -/
theorem DeletionInv.of_live (h : DeletionInv listed j) (hid : j'.jobid = j.jobid)
    (hlive : j'.internalState.deleted = false) (hlisted : listed' → j'.deferTime ≠ 0) :
    DeletionInv listed' j' :=
  ⟨fun hdel ↦ absurd (hlive.symm.trans hdel) nofun, fun hl ↦ ⟨hlisted hl, hlive⟩, hid ▸ h.id⟩

/-- A job that keeps its state. -/
theorem DeletionInv.of_state (h : DeletionInv listed j) (hid : j'.jobid = j.jobid)
    (hst : j'.state = j.state) (hdel : j'.internalState.deleted = j.internalState.deleted)
    (htime : j'.deferTime = j.deferTime) : DeletionInv listed j' :=
  ⟨fun hd ↦ hst.trans (h.cleared (hdel.symm.trans hd)),
    fun hl ↦ ⟨htime ▸ (h.deferred hl).1, hdel.trans (h.deferred hl).2⟩, hid ▸ h.id⟩

theorem DeletionInv.deleted (h : DeletionInv listed j) (hlisted : ¬ listed') :
    DeletionInv listed' j.deleted :=
  ⟨fun _ ↦ rfl, fun hl ↦ absurd hl hlisted, h.id⟩

end

/-- What becomes of a job in an event. A deleted job stays deleted and is not sent out. -/
structure DeletionStep (listed : Prop) (j j' : Job) : Prop where
  inv : DeletionInv listed j'
  kept : j.internalState.deleted = true →
    j'.internalState.deleted = true ∧ j'.history.starts = j.history.starts

/-- A deleted job is not among those that the event takes for live ones. -/
theorem DeletionStep.of_live {listed : Prop} (inv : DeletionInv listed j')
    (hlive : j.internalState.deleted = false) : DeletionStep listed j j' :=
  ⟨inv, fun hdel ↦ nomatch hlive.symm.trans hdel⟩

variable {env : Env} {e : Event} {l : Label} {f : JobFilter}

/-- The jobs that are lost with an agent are not deleted. -/
theorem DeletionKept.losable {g : Addr} (h : DeletionKept s.toCore)
    (hgood : deletionKept s (.event env (.disconnect g)) = true) :
    Losable (fun j ↦ j.internalState.deleted = false) g s := by
  intro a j q hj hq hagent hactive
  by_contra hdel
  have hdel := eq_true_of_not_eq_false hdel
  have hstarted : j.internalState.started = true :=
    hactive.resolve_left fun hrun ↦ nomatch ((h.jobs a j hj).cleared hdel).symm.trans hrun
  rw [deletionKept] at hgood
  have hall := all_iff.mp hgood a j hj
  simp [hdel, hstarted, hq, hagent] at hall

/-- **An event under the condition leaves deleted jobs deleted.** -/
theorem Allowed.deletion {k : Cost}
    (hgood : deletionKept s (.event env e) = true) (hs : DeletionKept s.toCore)
    (hold : ∀ g m, e = .agent g m → OldDeleted s c) (h : Allowed env s e c (.shift a j j' k))
    (hc : DeletionKept c) (hget : c.jobTable.get? a = some j) :
    Relists a c.deferredList (k.deferred c.deferredList) ∧
      DeletionStep (a ∈ k.deferred c.deferredList) j j' := by
  have hl := hc.nodup
  have hj := hc.jobs a j hget
  cases h with
  | job _ hm =>
    cases hm with
    | @modify mj _ _ q new _ f _ hlive _ _ _ _ _ hdef hf =>
      obtain ⟨hrel, hlisted⟩ := JobMod.relists new hl (fun hmem ↦ (hj.deferred hmem).1) hf
      rw [hdef]
      exact ⟨hrel, .of_live (hj.of_live rfl hlive hlisted) hlive⟩
    | delete _ hlive =>
      obtain ⟨hrel, hnot⟩ := undefer_spec hl fun hmem ↦ (hj.deferred hmem).1
      exact ⟨hrel, .of_live (hj.deleted hnot) hlive⟩
    | kill _ hlive _ _ _ hdef =>
      rw [hdef]
      exact ⟨.refl hl, .of_live (hj.of_live rfl hlive fun hmem ↦ (hj.deferred hmem).1) hlive⟩
    | setTag | delTag => exact ⟨.refl hl, hj.of_state rfl rfl rfl rfl, fun hdel ↦ ⟨hdel, rfl⟩⟩
  | queue _ hm | res _ hm => cases hm
  | agent hm =>
    cases hm with
    | started hfound =>
      obtain ⟨hget', hid⟩ := Table.find?_some hfound
      have hlive := Server.not_deleted_of_spares hgood hget' (by simpa using hid)
      exact ⟨.refl hl, .of_live (hj.of_live rfl hlive fun hmem ↦ (hj.deferred hmem).1) hlive⟩
    | completed hfound _ _ hdef =>
      obtain ⟨hget', hid⟩ := Table.find?_some hfound
      have hlive := Server.not_deleted_of_spares hgood hget' (by simpa using hid)
      rw [hdef]
      exact ⟨.refl hl, .of_live (hj.of_live rfl hlive fun hmem ↦ (hj.deferred hmem).1) hlive⟩
    | @recon items i _ _ _ hi hid _ =>
      have hi := List.all_eq_true.mp hgood i hi
      refine ⟨.refl hl, ⟨⟨fun hdel ↦ ?_, fun hmem ↦ ?_, by simpa using hj.id⟩, fun hdel ↦ ?_⟩⟩
      · -- an entry about a deleted job says nothing about its end
        rw [Job.reconciled_internalState] at hdel
        obtain ⟨i₀, hi₀, hid₀, hdel₀⟩ := hold _ _ rfl a j hget hdel
        have hquiet : i.pid = 0 ∧ i.finishTime = 0 := by
          by_contra hne
          have hspares : s.spares i.jobid = true := by
            rcases (or_eq_true _ _).mp hi with hzero | hspares
            · exact absurd (by simpa using hzero) hne
            · exact hspares
          have hlive := Server.not_deleted_of_spares hspares hi₀ (hid₀.trans hid)
          exact nomatch hlive.symm.trans hdel₀
        rw [Job.reconciled_state, if_neg (not_not.mpr hquiet.1), if_neg (not_not.mpr hquiet.2)]
        exact hj.cleared hdel
      · rw [Job.reconciled_deferTime, Job.reconciled_internalState]
        exact hj.deferred hmem
      · rw [Job.reconciled_internalState, Job.reconciled_history]
        exact ⟨hdel, rfl⟩
  | @lose g _ _ _ q hget' hq hagent hactive =>
    have hlive := hs.losable hgood a j q hget' hq hagent hactive
    exact ⟨.refl hl, .of_live (hj.of_live rfl rfl fun hmem ↦ (hj.deferred hmem).1) hlive⟩
  | idle | captureJob | reapJob =>
    exact ⟨.refl hl, hj.of_state rfl rfl rfl rfl, fun hdel ↦ ⟨hdel, rfl⟩⟩
  | start _ _ _ hst =>
    have hlive : j.internalState.deleted = false := by
      by_contra hdel
      exact nomatch hst.symm.trans (hj.cleared (eq_true_of_not_eq_false hdel))
    exact ⟨.refl hl, .of_live (hj.of_live rfl hlive fun hmem ↦ (hj.deferred hmem).1) hlive⟩
  | release ha =>
    have hnot : a ∉ c.deferredList.erase a := fun h ↦ (List.Nodup.mem_erase_iff hl).mp h |>.1 rfl
    have hlive := (hj.deferred ha).2
    exact ⟨.erase hl, .of_live (hj.of_live rfl hlive fun hmem ↦ absurd hmem hnot) hlive⟩
  | expire _ hlive =>
    obtain ⟨hrel, hnot⟩ := undefer_spec hl fun hmem ↦ (hj.deferred hmem).1
    exact ⟨hrel, .of_live (hj.deleted hnot) hlive⟩

/-! ### Moves -/

section

variable {c c' : Core} {a : Addr} {j j' : Job} {k : Cost}

/-- A new job. -/
theorem DeletionKept.new {f : List Addr → List Addr} (h : DeletionKept c)
    (hlive : j.internalState.deleted = false) (hid : j.jobid ≠ 0 ∧ j.jobid < 2 ^ 32)
    (hf : (j.deferTime = 0 ∧ f = id) ∨ (j.deferTime ≠ 0 ∧
      ∃ due, DeferTimes c c.jobTable.next j.deferTime due ∧
      f = insertDeferred due c.jobTable.next)) :
    Relists c.jobTable.next c.deferredList (f c.deferredList) ∧
      DeletionInv (c.jobTable.next ∈ f c.deferredList) j := by
  obtain ⟨hrel, hlisted⟩ := relists_new h.nodup h.next_notMem hf
  exact ⟨hrel, fun hdel ↦ absurd (hlive.symm.trans hdel) nofun, fun hmem ↦
    ⟨hlisted hmem, hlive⟩, hid⟩

variable {s : Server}

/-- **A move keeps the invariant** under the condition. -/
theorem DeletionKept.move (hgood : deletionKept s (.event env e) = true)
    (hrec : s.recovery = none) (hs : DeletionKept s.toCore)
    (hold : ∀ g m, e = .agent g m → OldDeleted s c) (h : DeletionKept c) (hl : Allowed env s e c l)
    (hm : Move l c c') : DeletionKept c' := by
  have hkept : Listing (fun _ ↦ DeletionInv) c' := by
    refine h.toListing.move hm (fun hj ↦ hj.mono) ?_ ?_
    · rintro a j j' k rfl hj
      obtain ⟨hrel, hj'⟩ := hl.deletion hgood hs hold h hj
      exact ⟨hrel, hj'.inv⟩
    · rintro j j' k rfl
      obtain ⟨_, _, rfl, hsub⟩ := hl.submitted
      cases hsub with
      | @submit ja _ jobid _ _ _ _ _ _ _ _ _ _ _ _ hf hzero hsmall =>
        have hja : ja.jobid < 2 ^ 32 := of_decide_eq_true hgood
        have hlt : jobid < 2 ^ 32 := by
          have hmax := hs.small
          rcases hsmall hrec with rfl | hle
          · exact hja
          · exact hle.trans_lt (max_lt (by norm_num) hmax)
        exact h.new rfl ⟨hzero, hlt⟩ hf
  exact ⟨hkept, hm.frame.config ▸ h.small, h.unique.move hl hm⟩

/-- The reports of agents delete no job. -/
theorem OldDeleted.move {g : Addr} {m : AgentMsg} (h : OldDeleted s c)
    (hl : Allowed env s (.agent g m) c l) (hm : Move l c c') : OldDeleted s c' := by
  refine hm.jobs_all (P := fun a j ↦ j.internalState.deleted = true →
    ∃ i, s.jobTable.get? a = some i ∧ i.jobid = j.jobid ∧ i.internalState.deleted = true) h ?_ ?_
  · rintro a j j' k rfl hj hdel
    cases hl with
    | agent hsub =>
      cases hsub with
      | started | completed => exact hj hdel
      | recon =>
        rw [Job.reconciled_internalState] at hdel
        rw [Job.reconciled_jobid]
        exact hj hdel
  · rintro j j' k rfl
    cases hl with
    | agent hsub => cases hsub

/-- The record at `a` has been deleted, and had been sent out `n` times by then. -/
def StaysDeleted (a : Addr) (n : ℕ) (c : Core) : Prop :=
  a < c.jobTable.next ∧
    ∀ j, c.jobTable.get? a = some j → j.internalState.deleted = true ∧ j.history.starts = n

theorem StaysDeleted.of_move {n : ℕ} (h : StaysDeleted a n c) (hm : Move l c c')
    (hshift : ∀ j j' k, l = .shift a j j' k → j.internalState.deleted = true →
      j'.internalState.deleted = true ∧ j'.history.starts = j.history.starts) :
      StaysDeleted a n c' := by
  refine ⟨h.1.trans_le hm.frame.jobNext, fun i hi ↦ ?_⟩
  refine hm.jobs_all (P := fun b i ↦ b = a → i.internalState.deleted = true ∧ i.history.starts = n)
    (fun b i hi hb ↦ h.2 i (hb ▸ hi)) ?_ ?_ a i hi rfl
  · rintro b j j' k rfl hj rfl
    obtain ⟨hdel, hstarts⟩ := hj rfl
    obtain ⟨hdel', hstarts'⟩ := hshift j j' k rfl hdel
    exact ⟨hdel', hstarts'.trans hstarts⟩
  · rintro j j' k rfl hb
    exact absurd hb h.1.ne'

/-- **A deleted record stays deleted and is not sent out**, under the condition. -/
theorem StaysDeleted.move {n : ℕ} (hgood : deletionKept s (.event env e) = true)
    (hs : DeletionKept s.toCore) (hold : ∀ g m, e = .agent g m → OldDeleted s c)
    (hc : DeletionKept c) (h : StaysDeleted a n c) (hl : Allowed env s e c l) (hm : Move l c c') :
    StaysDeleted a n c' := by
  refine h.of_move hm ?_
  rintro j j' k rfl hdel
  exact (hl.deletion hgood hs hold hc hm.shifted.found).2.kept hdel

/-! ### Counters of states -/

/-- The counters of the server are the numbers of jobs, and no queue counts more jobs than it
has. -/
structure LiveCounts (c : Core) : Prop where
  server : ∀ S, S ≠ .cleared → c.stats.count S = c.jobTable.count fun j ↦ j.state = S
  queues : ∀ b q, c.queueTable.get? b = some q → ∀ S, S ≠ .cleared →
    q.stats.count S ≤ c.jobTable.count fun j ↦ j.queue = b ∧ j.state = S

/-- The counters follow the jobs, if new and freed jobs are in state 0. -/
theorem LiveCounts.of_move (h : LiveCounts c) (hm : Move l c c')
    (hadd : ∀ {j j' k}, l = .addJob j j' k → j.state = .cleared)
    (hfree : ∀ {a j}, l = .removeJob a j → j.state = .cleared)
    (hobj : l.onJobs = false → ∀ b q', c'.queueTable.get? b = some q' →
      (∃ q, c.queueTable.get? b = some q ∧ q'.stats = q.stats) ∨ q'.stats = {}) :
      LiveCounts c' := by
  have htallied S (hS : S ≠ .cleared) : Tallied (·.count S) (·.state = S) (· = 0) (· ≤ 0) c' := by
    refine Tallied.move (c := c) ⟨sub_eq_zero.mpr (h.server S hS), fun b q hq ↦
      sub_nonpos.mpr (h.queues b q hq S hS)⟩ hm (fun _ _ _ _ _ ↦ follows_count hS)
      (fun j j' k he ↦ hadd he ▸ hS.symm) (fun a j he hj ↦ absurd (hj.symm.trans (hfree he)) hS)
      fun hon b q' hq' ↦ ?_
    refine (hobj hon b q' hq').imp_right fun hzero ↦ ?_
    rw [hzero, JobStats.count_default, zero_sub]
    exact neg_nonpos.mpr (count_nonneg _)
  exact ⟨fun S hS ↦ sub_eq_zero.mp (htallied S hS).server,
    fun b q hq S hS ↦ sub_nonpos.mp ((htallied S hS).queues b q hq)⟩

theorem LiveCounts.move (h : LiveCounts c) (hc : DeletionKept c) (hk : KnownQueues c)
    (hl : Allowed env s e c l) (hm : Move l c c') : LiveCounts c' := by
  refine h.of_move hm hl.addJob_cleared ?_ fun hobj b q' hq' ↦
    (hl.queue_stats hk hm hobj hq').imp_right And.left
  rintro a j rfl
  exact (hc.jobs a j hm.1).cleared hl.removed.2.1.1

end

/-! ### The counter of deleted jobs -/

/-- `server.deleted` is the number of deleted jobs, as a 32-bit number. -/
def DeletedCounted (b : Books) : Prop :=
  (b.deleted : ℤ) = (b.jobs.count fun j ↦ j.internalState.deleted = true) % 2 ^ 32

/-- A write that keeps the flag. -/
theorem DeletedCounted.modify {b : Books} {recalc : Bool}
    (h : DeletedCounted b) (hj : b.jobs.get? a = some j)
    (hdel : j'.internalState.deleted = j.internalState.deleted) :
    DeletedCounted { b with jobs := b.jobs.modify a fun _ ↦ j', recalc } := by
  rw [DeletedCounted, count_modify _ hj, hdel, sub_add_cancel]
  exact h

/-- **The counter is kept**, if the jobs that are lost with an agent are not deleted. -/
theorem DeletedCounted.step {b b' : Books} (h : DeletedCounted b)
    (hstep : BookStep (fun j ↦ j.internalState.deleted = false) True b b') : DeletedCounted b' := by
  cases hstep with
  | quiet | ask | generate => exact h
  | edit hj _ _ _ hdel => exact h.modify hj hdel
  | change hj => exact h.modify hj rfl
  | lose hj hlive => exact h.modify hj hlive.symm
  | @delete a j hj hlive =>
    rw [DeletedCounted, count_modify _ hj, if_neg (by simp [hlive]),
      if_pos (show j.deleted.internalState.deleted = true from rfl)]
    rw [DeletedCounted] at h
    push_cast
    omega
  | add _ hflags _ =>
    rw [DeletedCounted, count_push, if_neg (by simp [hflags]), add_zero]
    exact h
  | @clean a j hj hdel =>
    rw [DeletedCounted, Table.count_erase _ hj, if_pos hdel]
    rw [DeletedCounted] at h
    push_cast
    omega

theorem DeletedCounted.walk {s s' : Server} (h : DeletedCounted s.books)
    (hwalk : Relation.ReflTransGen (Booked (fun j ↦ j.internalState.deleted = false) True) s s') :
    DeletedCounted s'.books := by
  induction hwalk with
  | refl => exact h
  | tail _ hstep ih => exact ih.step hstep

/-- There are fewer jobs than job ids. -/
theorem DeletionKept.count_lt (h : DeletionKept c) (p : Job → Prop) [DecidablePred p] :
    c.jobTable.count p < 2 ^ 32 := by
  have hids : (c.jobTable.rows.map fun r ↦ r.2.jobid).Nodup := by
    refine List.Nodup.map_on (fun r hr r' hr' heq ↦ ?_) (List.Nodup.of_map _ c.jobTable.nodup)
    have hget := mem_rows_iff.mp (show (r.1, r.2) ∈ c.jobTable.rows from hr)
    have hget' := mem_rows_iff.mp (show (r'.1, r'.2) ∈ c.jobTable.rows from hr')
    have haddr := h.unique r.1 r'.1 r.2 r'.2 hget hget' heq
    rw [haddr] at hget
    exact Prod.ext haddr (mem_unique hget hget')
  have hsub : (c.jobTable.rows.map fun r ↦ r.2.jobid).toFinset ⊆ Finset.Ico 1 (2 ^ 32) := by
    intro n hn
    obtain ⟨r, hr, rfl⟩ := List.mem_map.mp (List.mem_toFinset.mp hn)
    have hid := (h.jobs r.1 r.2 (mem_rows_iff.mp hr)).id
    exact Finset.mem_Ico.mpr ⟨Nat.pos_of_ne_zero hid.1, hid.2⟩
  have hcard := Finset.card_le_card hsub
  rw [toFinset_card_of_nodup hids, length_map, Nat.card_Ico] at hcard
  have hle : c.jobTable.rows.countP (fun r ↦ decide (p r.2)) ≤ c.jobTable.rows.length :=
    countP_le_length
  rw [Table.count]
  omega

/-! ### Queries -/

/-- The filters pass no deleted job. -/
theorem JobFilter.accepts_live {q : Option Addr} {skip : Option ℕ} {j : Job}
    (h : f.accepts env t q skip j = .ok true) : j.internalState.deleted = false := by
  by_contra hdel
  rw [JobFilter.accepts, if_pos (eq_true_of_not_eq_false hdel)] at h
  exact nomatch ok.inj h

theorem searchJobs_live {c : Client} {config : Config}
    (h : searchJobs env c f indexTag index config t = .ok (some as)) :
    ∀ a ∈ as, ∃ j, t.jobTable.get? a = some j ∧ j.internalState.deleted = false := by
  obtain ⟨all, -, h₁⟩ := bind_eq_ok_iff.mp h
  obtain ⟨own, -, h₂⟩ := bind_eq_ok_iff.mp h₁
  obtain ⟨q, -, h₃⟩ := bind_eq_ok_iff.mp h₂
  cases q with
  | none => exact nomatch ok.inj h₃
  | some q =>
    obtain ⟨bucket, -, h₄⟩ := bind_eq_ok_iff.mp h₃
    obtain ⟨found, hfound, h₅⟩ := bind_eq_ok_iff.mp h₄
    obtain rfl := some.inj (ok.inj h₅)
    intro a ha
    obtain ⟨-, j, hj, hacc⟩ := ((selectFrom_ok hfound).2 a).mp ha
    obtain ⟨passed, hpassed, hret⟩ := bind_eq_ok_iff.mp hacc
    obtain ⟨rfl, -⟩ := (and_eq_true _ _).mp (ok.inj hret)
    exact ⟨j, hj, JobFilter.accepts_live hpassed⟩

/-- **No query returns a deleted job.** -/
theorem jobsFor_live {c : Client} {s s' : Server} {fields : ℕ}
    (h : jobsFor env c f indexTag index s = .ok (.inr (as, fields), s')) :
    ∀ a ∈ as, ∃ j, s.jobTable.get? a = some j ∧ j.internalState.deleted = false := by
  rw [jobsFor] at h
  split at h
  · obtain ⟨found, hfound, h₁⟩ := read_bind_ok_iff.mp h
    obtain ⟨denied, _, hperm, h₂⟩ := bind_ok_iff.mp h₁
    obtain rfl := checkPerm_ok hperm
    split at h₂
    · exact absurd (pure_ok_iff.mp h₂).1 nofun
    cases found with
    | none => exact absurd (pure_ok_iff.mp h₂).1 nofun
    | some r =>
      dsimp only at h₂
      split at h₂
      · exact absurd (pure_ok_iff.mp h₂).1 nofun
      · next hlive =>
        obtain ⟨heq, -⟩ := pure_ok_iff.mp h₂
        obtain ⟨rfl, rfl⟩ := Prod.mk.inj (Sum.inr.inj heq)
        intro a ha
        obtain rfl := mem_singleton.mp ha
        exact ⟨r.2, (Table.find?_some hfound).1, by simpa using hlive⟩
  · obtain ⟨found, hfound, h₁⟩ := read_bind_ok_iff.mp h
    obtain ⟨result, _, hl, h₂⟩ := bind_ok_iff.mp h₁
    obtain ⟨hresult, rfl⟩ := lift_ok_iff.mp hl
    cases result with
    | none => exact absurd (pure_ok_iff.mp h₂).1 nofun
    | some as' =>
      obtain ⟨heq, -⟩ := pure_ok_iff.mp h₂
      obtain ⟨rfl, rfl⟩ := Prod.mk.inj (Sum.inr.inj heq)
      exact searchJobs_live (hfound.trans hresult)

/-! ### Runs -/

/-- `server.deleted` is the number of deleted jobs; a deleted job is in state 0, so that no counter
of the server or of a queue has it; and no query returns one. -/
structure DeletionRight (s : Server) : Prop where
  counter : (s.deleted : ℤ) = s.jobTable.count fun j ↦ j.internalState.deleted = true
  cleared : ∀ a j, s.jobTable.get? a = some j → j.internalState.deleted = true → j.state = .cleared
  server : ∀ S, S ≠ .cleared →
    s.stats.count S = s.jobTable.count fun j ↦ j.internalState.deleted = false ∧ j.state = S
  queues : ∀ b q, s.queueTable.get? b = some q → ∀ S, S ≠ .cleared → q.stats.count S ≤
    s.jobTable.count fun j ↦ j.internalState.deleted = false ∧ j.queue = b ∧ j.state = S
  hidden : ∀ env c f indexTag index as fields s',
    jobsFor env c f indexTag index s = .ok (.inr (as, fields), s') →
      ∀ a ∈ as, ∃ j, s.jobTable.get? a = some j ∧ j.internalState.deleted = false

/-- What a daemon keeps under the condition. -/
structure DeletionGood (s : Server) : Prop where
  recovery : s.recovery = none
  kept : DeletionKept s.toCore
  known : KnownQueues s.toCore
  counts : LiveCounts s.toCore
  counted : DeletedCounted s.books

section

variable {s s' : Server}

/-- The counter of pending jobs is not wrong when it is 0. -/
theorem LiveCounts.pending (h : LiveCounts s.toCore) (hzero : s.stats.pending = 0) :
    s.candidates = [] := by
  have hcover : CountsCover s.toCore := fun S hS ↦ (h.server S hS).ge
  have hle := hcover.candidates_le
  rw [hzero] at hle
  exact eq_nil_of_length_eq_zero (by omega)

/-- What an event keeps under the condition, also of one record that has been deleted. -/
theorem DeletionGood.event (h : DeletionGood s) (hgood : deletionKept s (.event env e) = true)
    (hstep : Step s (env, e) s') :
    DeletionGood s' ∧ ∀ a n, StaysDeleted a n s.toCore → StaysDeleted a n s'.toCore := by
  have hpath := handle_path h.recovery hstep
  -- the core at each point of the event
  let I (c : Core) : Prop :=
    (DeletionKept c ∧ KnownQueues c ∧ LiveCounts c) ∧ ∀ g m, e = .agent g m → OldDeleted s c
  have hI₀ : I s.toCore :=
    ⟨⟨h.kept, h.known, h.counts⟩, fun _ _ _ a j hj hdel ↦ ⟨j, hj, rfl, hdel⟩⟩
  have hI {c c' : Core} {l : Label} (hc : I c) (hl : Allowed env s e c l) (hm : Move l c c') :
      I c' := by
    obtain ⟨⟨hkept, hknown, hcounts⟩, hold⟩ := hc
    refine ⟨⟨DeletionKept.move hgood h.recovery h.kept hold hkept hl hm, hknown.move hl hm,
      hcounts.move hkept hknown hl hm⟩, fun g m he ↦ ?_⟩
    subst he
    exact (hold g m rfl).move hl hm
  obtain ⟨⟨hkept, hknown, hcounts⟩, -⟩ := hpath.invariant hI hI₀
  refine ⟨⟨handle_recovery h.recovery hstep, hkept, hknown, hcounts, ?_⟩, fun a n ha ↦ ?_⟩
  · refine h.counted.walk (handle_books h.counts.pending (fun g he ↦ ?_) (fun _ ↦ trivial) hstep)
    subst he
    exact h.kept.losable hgood
  · refine (hpath.invariant (I := fun c ↦ I c ∧ StaysDeleted a n c) (fun hc hl hm ↦ ?_) ⟨hI₀, ha⟩).2
    exact ⟨hI hc.1 hl hm, hc.2.move hgood h.kept hc.1.2 hc.1.1.1 hl hm⟩

/-- What a load keeps. -/
theorem DeletionGood.load {fileName text : Str} (h : DeletionGood s)
    (hgood : deletionKept s (.load fileName text) = true)
    (hstep : LoadStep s (.load fileName text) s') :
    DeletionGood s' ∧ ∀ a n, StaysDeleted a n s.toCore → StaysDeleted a n s'.toCore := by
  obtain ⟨j, f, hload, hlinked, hflags, hm, hf⟩ := hstep.load
  obtain ⟨j₁, hload₁, hadd⟩ := hstep
  obtain rfl : j₁ = j := ok.inj (hload₁.symm.trans hload)
  have hid : j₁.jobid = (atoi fileName % 2 ^ 32).toNat := by
    obtain ⟨d, -, hfinish⟩ := bind_eq_ok_iff.mp hload
    exact (finishJob_fields hfinish).jobid
  have hbound : j₁.jobid ≠ 0 ∧ j₁.jobid < 2 ^ 32 := by
    have hne : atoi fileName % 2 ^ 32 ≠ 0 := by simpa [deletionKept] using hgood
    rw [hid]
    omega
  have hnew : s.findJob j₁.jobid = none := by
    obtain ⟨hone, -⟩ | ⟨-, hnone, -⟩ := addJob_ok hadd
    · exact nomatch hone
    · exact hnone
  obtain ⟨q, hq⟩ := isSome_iff_exists.mp hlinked.queue
  refine ⟨⟨hm.frame.recovery.trans h.recovery, ?_, ?_,
    h.counts.of_move hm (fun he ↦ by cases he; rfl) (by simp) nofun, ?_⟩, fun a n ha ↦
    ha.of_move hm (by simp)⟩
  · obtain ⟨hrel, hinv⟩ := h.kept.new (congrArg Flags.deleted hflags) hbound hf
    have hkept := h.kept.toListing.add hm (fun hj ↦ hj.mono) hrel
      ⟨fun hdel ↦ absurd ((congrArg Flags.deleted hflags).symm.trans hdel) nofun, hinv.deferred,
        hinv.id⟩
    refine ⟨hkept, hm.frame.config ▸ h.kept.small, .shift ?_ hm.added rfl⟩
    exact h.kept.unique.push hnew
  · exact h.known.add hm (lt_next hq)
  · exact h.counted.walk (addJob_walks hflags false s 0 s' hadd)

end

theorem LoadStep.deletionGood {s s' : Server} {e : LoadEvent} (h : DeletionGood s)
    (hgood : deletionKept s e = true) (hstep : LoadStep s e s') :
    DeletionGood s' ∧ ∀ a n, StaysDeleted a n s.toCore → StaysDeleted a n s'.toCore := by
  cases e with
  | load fileName text => exact h.load hgood hstep
  | event env e => exact h.event hgood hstep

theorem DeletionGood.initial {config : Config} (hosts : List Str)
    (hmax : config.maxJobid < 2 ^ 32) : DeletionGood (Server.initial config hosts) where
  recovery := rfl
  kept := ⟨⟨nodup_nil, nofun, fun a j hj ↦ absurd hj nofun⟩, hmax, fun a b i j hi ↦ nomatch hi⟩
  known := .initial config hosts
  counts := ⟨(StatsAgree.initial config hosts).server,
    fun b q hq ↦ absurd ((get?_empty b).symm.trans hq) (by simp)⟩
  counted := rfl

/-- Counting the jobs that are not deleted, or all: the deleted ones are in state 0. -/
theorem DeletionKept.count_live (h : DeletionKept c) {p : Job → Prop} [DecidablePred p]
    (hp : ∀ j, p j → j.state ≠ .cleared) :
    (c.jobTable.count fun j ↦ j.internalState.deleted = false ∧ p j) = c.jobTable.count p := by
  rw [count_eq_sum, count_eq_sum]
  refine sum_congr fun a j hj ↦ ?_
  by_cases hj' : p j
  · have hlive : j.internalState.deleted = false := by
      by_contra hdel
      exact hp j hj' ((h.jobs a j hj).cleared (eq_true_of_not_eq_false hdel))
    rw [if_pos hj', if_pos ⟨hlive, hj'⟩]
  · rw [if_neg hj', if_neg fun hboth ↦ hj' hboth.2]

theorem DeletionGood.right (h : DeletionGood s) : DeletionRight s where
  counter := by
    have hlt := h.kept.count_lt fun j ↦ j.internalState.deleted = true
    exact h.counted.trans (Int.emod_eq_of_lt (count_nonneg _) hlt)
  cleared a j hj := (h.kept.jobs a j hj).cleared
  server S hS := by
    have hlive := h.kept.count_live (p := fun j ↦ j.state = S) fun j hj ↦ hj ▸ hS
    exact (h.counts.server S hS).trans hlive.symm
  queues b q hq S hS := by
    have hlive := h.kept.count_live (p := fun j ↦ j.queue = b ∧ j.state = S) fun j hj ↦ hj.2 ▸ hS
    exact (h.counts.queues b q hq S hS).trans_eq hlive.symm
  hidden _ _ _ _ _ _ _ _ hjobs := jobsFor_live hjobs

/-- **Deletion is permanent**, in every run whose events meet the condition: in every state that is
reached the books about deleted jobs are right, and from there on a deleted record is deleted until
it is freed, and is not sent to an agent. -/
theorem deletionRight_of_runs {config : Config} {hosts : List Str} {s : Server}
    (hmax : config.maxJobid < 2 ^ 32) (h : LoadRuns deletionKept config hosts s) :
    DeletionRight s ∧ ∀ s', Run LoadStep (fun t e ↦ deletionKept t e = true) s s' →
      ∀ a j, s.jobTable.get? a = some j → j.internalState.deleted = true →
        ∀ j', s'.jobTable.get? a = some j' →
          j'.internalState.deleted = true ∧ j'.history.starts = j.history.starts := by
  have hgood : DeletionGood s :=
    h.invariant (fun ht hcond hstep ↦ (hstep.deletionGood ht hcond).1) (.initial hosts hmax)
  refine ⟨hgood.right, fun s' hlater a j hj hdel j' hj' ↦ ?_⟩
  have hnow : StaysDeleted a j.history.starts s.toCore := by
    refine ⟨lt_next hj, fun i hi ↦ ?_⟩
    obtain rfl := mem_unique hj hi
    exact ⟨hdel, rfl⟩
  have hthen : DeletionGood s' ∧ StaysDeleted a j.history.starts s'.toCore := by
    refine hlater.invariant (I := fun t ↦ DeletionGood t ∧ StaysDeleted a j.history.starts t.toCore)
      (fun ht hcond hstep ↦ ?_) ⟨hgood, hnow⟩
    obtain ⟨hnext, hstays⟩ := hstep.deletionGood ht.1 hcond
    exact ⟨hnext, hstays a _ ht.2⟩
  exact hthen.2.2 j' hj'

/-- A job is deleted while it is being started, and its agent goes: all its flags are reset, the job
is back as an unknown one, and `server.deleted` stays at 1. -/
theorem not_deletionRight_disconnect :
    ∃ s s', LoadRuns (fun _ _ ↦ true) config hosts s ∧
      LoadStep s (.event Sample.env (.disconnect 0)) s' ∧ ¬ DeletionRight s' ∧
      ∃ j j', s.jobTable.get? 0 = some j ∧ j.internalState.deleted = true ∧
        s'.jobTable.get? 0 = some j' ∧ j'.internalState.deleted = false ∧ j'.state = .unknown := by
  obtain ⟨s, hrun, ⟨j, hj, hdel⟩, s', hafter, hcounter, hnone, j', hj', hlive⟩ :=
    exists_runs anyEvent config hosts (events (Sample.startJob ++ [.client root (.delJob 1)]))
      (fun s ↦ (∃ j ∈ s.jobTable.get? 0, j.internalState.deleted = true) ∧
        ∃ s' ∈ after (Sample.env, .disconnect 0) s, s'.deleted = 1 ∧
          (s'.jobTable.count fun j ↦ j.internalState.deleted = true) = 0 ∧
          ∃ j ∈ s'.jobTable.get? 0, j.internalState.deleted = false ∧ j.state = .unknown)
      (by decide +kernel)
  refine ⟨s, s', .of_runs hrun, step_of_after hafter, fun hright ↦ ?_, j, j', hj, hdel, hj', hlive⟩
  have hcount := hright.counter
  rw [hcounter, hnone] at hcount
  exact absurd hcount (by decide)

/-- A job that was sent out and reported as running is deleted; another one is added, and the
deleted one is saved and freed. -/
theorem deletionRight_of_runs_freed :
    ∃ s s', LoadRuns deletionKept config hosts s ∧
      Run LoadStep (fun t e ↦ deletionKept t e = true) s s' ∧ s.deleted = 1 ∧ s'.deleted = 0 ∧
      DeletionRight s ∧ DeletionRight s' := by
  have hsmall : config.maxJobid < 2 ^ 32 := by decide
  obtain ⟨s, hrun, hone, s', hs', hzero⟩ := exists_runs
    (fun s e ↦ deletionKept s (.event e.1 e.2)) config hosts
    (events (Sample.startJob ++ [.agent 0 (.jobStarted 1 42 1000), .client root (.delJob 1)]))
    (fun s ↦ s.deleted = 1 ∧ ∃ s' ∈ runEvents (fun s e ↦ deletionKept s (.event e.1 e.2))
      (events [.client root Sample.addJob, .saveStart true, .saveFinish false, .cleanupJobs 0]) s,
      s'.deleted = 0) (by decide +kernel)
  have hload : LoadRuns deletionKept config hosts s := .of_runs hrun
  have hload' : Run LoadStep (fun t e ↦ deletionKept t e = true) s s' := by
    refine (run_of_runEvents hs').invariant (I := fun t ↦
      Run LoadStep (fun t e ↦ deletionKept t e = true) s t) (fun {t e t'} ht hgood hstep ↦ ?_) .refl
    exact .tail (e := .event e.1 e.2) ht hgood hstep
  exact ⟨s, s', hload, hload', hone, hzero,
    (deletionRight_of_runs hsmall hload).1, (deletionRight_of_runs hsmall (hload.trans hload')).1⟩

/-! ### The life of a record -/

/-- What a submission fixes: the id, the users, the time and the command. -/
def Job.submission (j : Job) :=
  (j.jobid, j.uid, j.submitter, j.submitTime, j.flags, j.argv,
    [j.shell, j.wrapper, j.preCmd, j.postCmd, j.stdout, j.stderr])

/-- The record at `a` is that of the job `j`, at its revision or a later one. -/
def Job.LivesAt (j : Job) (a : Addr) (c : Core) : Prop :=
  ∃ j', c.jobTable.get? a = some j' ∧ j'.submission = j.submission ∧
  j.obj.revision ≤ j'.obj.revision

/-- The record at `a` is not that of a deleted job that has been saved. -/
def needed (a : Addr) : Condition := fun s _ ↦ (s.jobTable.get? a).all fun j ↦ !decide j.Removable

theorem Allowed.shift_submission {env : Env} {e : Event} {k : Cost}
    (h : Allowed env s e c (.shift a j j' k)) : j'.submission = j.submission ∧
      j.obj.revision ≤ j'.obj.revision := by
  have hnext : j.obj.revision ≤ j.obj.revision + 1 := by simp
  cases h with
  | job _ hm => cases hm <;> exact ⟨rfl, hnext⟩
  | queue _ hm | res _ hm => cases hm
  | agent hm =>
    cases hm with
    | recon =>
      simp only [Job.reconciled, Job.reconFinish, Job.changed, Obj.updated]
      split_ifs <;> exact ⟨rfl, by dsimp only; omega⟩
    | _ => exact ⟨rfl, hnext⟩
  | idle | start | captureJob | reapJob => exact ⟨rfl, le_rfl⟩
  | _ => exact ⟨rfl, hnext⟩

theorem Job.LivesAt.move {env : Env} {e : Event} {c' : Core} {l : Label} (h : j.LivesAt a c)
    (hgood : needed a s (env, e) = true) (hl : Allowed env s e c l) (hm : Move l c c') :
    j.LivesAt a c' := by
  obtain ⟨i, hi, hsame, hrev⟩ := h
  rcases hm.jobs_cases with hon | ⟨b, i₀, i', k, rfl, hm⟩ | ⟨i₀, i', k, rfl, hm⟩ |
    ⟨b, i₀, rfl, -, rfl⟩
  · exact ⟨i, by rw [(hm.same_jobs hon).1, hi], hsame, hrev⟩
  · by_cases hb : a = b
    · subst hb
      obtain rfl := hm.unique hi
      obtain ⟨hsame', hrev'⟩ := hl.shift_submission
      exact ⟨i', hm.found', hsame'.trans hsame, hrev.trans hrev'⟩
    · exact ⟨i, (hm.get?_of_ne hb).trans hi, hsame, hrev⟩
  · exact ⟨i, (hm.get?_of_ne (lt_next hi).ne).trans (get?_push_of_some hi i₀), hsame, hrev⟩
  · obtain ⟨hi₀, hrem, -⟩ := hl.removed
    have hb : a ≠ b := by
      rintro rfl
      simp [needed, hi₀, hrem] at hgood
    exact ⟨i, by rw [get?_erase, if_neg hb, hi], hsame, hrev⟩

/-- **No job is lost**: as long as an event does not find the record deleted and saved, the job is
in the table, with all that its submission has fixed and a revision that has not gone back. -/
theorem livesAt_of_run {s' : Server} (hrec : s.recovery = none) (hj : s.jobTable.get? a = some j)
    (h : Run Step (fun t e ↦ needed a t e = true) s s') : j.LivesAt a s'.toCore :=
  Run.core_invariant (fun hgood _ hc hl hm ↦ hc.move hgood hl hm) h hrec ⟨j, hj, rfl, le_rfl⟩

/-- A job that has been sent out is deleted. -/
theorem livesAt_of_run_deleted : ∃ (s s' : Server) (j : Job), j.LivesAt 0 s.toCore ∧
    j.LivesAt 0 s'.toCore ∧ s'.deleted = 1 := by
  obtain ⟨s, -, hrec, ⟨j, hj, -⟩, s', hs', hdel⟩ := exists_runs anyEvent config hosts
    (events Sample.startJob) (fun s ↦ s.recovery = none ∧ (∃ j ∈ s.jobTable.get? 0, True) ∧
      ∃ s' ∈ runEvents (needed 0) (events [.client root (.delJob 1)]) s, s'.deleted = 1)
    (by decide +kernel)
  exact ⟨s, s', j, ⟨j, hj, rfl, le_rfl⟩, livesAt_of_run hrec hj (run_of_runEvents hs'), hdel⟩

end Jers
