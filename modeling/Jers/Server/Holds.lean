import Jers.Server.Loading
import Jers.Server.Revisions
import Jers.Server.StartOnce

/-!
# Jobs on hold

A job that is added or modified with a hold is to wait until a modify request takes the hold off or
restarts the job. The daemon keeps the hold in the state of the job only, where it has to make way
for `JERS_JOB_DEFERRED` as soon as the job has a time to be deferred to: when the time comes the job
is pending, and the hold is forgotten.

`Holding` is the daemon together with the jobs that are to be held, which it does not keep itself.
If no job that is to be held has or gets a defer time (`holdKept`), none is sent to its agent
(`holdsBack_of_runs`): it is held, reported by an agent as running or ended, or deleted, and a
modify request without a restart leaves it so.
-/

namespace Jers

open Exec List Option Table Sample

/-! ### The jobs that are to be held -/

/-- The daemon and the jobs that are to be held. -/
structure Holding where
  server : Server
  held : List Addr := []

/-- The jobs to be held after an accepted modify request for the job at `a`. -/
def JobMod.heldAfter (mj : JobMod) (a : Addr) (held : List Addr) : List Addr :=
  if mj.hold ≠ unset8 then
    if mj.hold ≠ 0 then a :: held else held.filter (· ≠ a)
  else if mj.restart then
    held.filter (· ≠ a)
  else
    held

/-- The jobs to be held after a command. -/
def heldAfter (cmd : Command) (reply : Reply) (s s' : Server) (held : List Addr) : List Addr :=
  match cmd with
  | .addJob ja =>
    if ja.hold then held ++ s'.jobTable.addrs.filter fun a ↦ (s.jobTable.get? a).isNone else held
  | .modJob mj =>
    match s.findJob mj.jobid with
    | some (a, _) => if reply.sent = some .returnCode then mj.heldAfter a held else held
    | none => held
  | _ => held

/-- A load or an event. -/
def holdStep (x : Holding) : LoadEvent → Except Fault Holding
  | .event env (.client c cmd) => do
    let (reply, s') ← runCommand env c cmd x.server
    return { server := s', held := heldAfter cmd reply x.server s' x.held }
  | .event env e => do
    let (_, s') ← handle env e x.server
    return { x with server := s' }
  | .load fileName text => do
    let j ← stateLoadJob x.server.toTables fileName text
    let (rc, s') ← addJob j false x.server
    if rc ≠ 0 then
      throw .errorDie
    return { x with server := s' }

/-- The states that are reached from a start without jobs, by loads and events that meet a
condition. -/
def HoldRuns (good : Holding → LoadEvent → Bool) (config : Config) (hosts : List Str)
    (x : Holding) : Prop :=
  Run (fun x e x' ↦ holdStep x e = .ok x') (fun x e ↦ good x e = true)
    { server := Server.initial config hosts } x

/-- **Hold means hold**: the scheduler starts no job that is to be held. -/
def HoldsBack (x : Holding) : Prop :=
  ∀ env s', handle env .checkJobs x.server = .ok ((), s') → ∀ a ∈ x.held, ∀ j,
    x.server.jobTable.get? a = some j →
      ∃ j', s'.jobTable.get? a = some j' ∧ j'.history.starts = j.history.starts

/-- **No job that is to be held has or gets a defer time.** -/
def holdKept (x : Holding) : LoadEvent → Bool
  | .event _ (.client _ (.addJob ja)) => !ja.hold || ja.deferTime == 0
  | .event _ (.client _ (.modJob mj)) => (x.server.findJob mj.jobid).all fun r ↦
    !(mj.heldAfter r.1 x.held).contains r.1 ||
      (if mj.deferTime ≠ unsetTimeT then mj.deferTime else r.2.deferTime) == 0
  | _ => true

/-! ### The invariant -/

/-- A job that is to be held is not about to be started, and does not become so by itself. -/
structure Job.Idle (j : Job) : Prop where
  time : j.deferTime = 0
  pending : j.state ≠ .pending
  deferred : j.state ≠ .deferred
  cleared : j.state = .cleared → j.internalState.deleted = true

/-- What holds of the job at an address, `listed` as deferred or not. -/
structure HoldInv (held : List Addr) (a : Addr) (listed : Prop) (j : Job) : Prop where
  deferred : listed → j.deferTime ≠ 0
  idle : a ∈ held → j.Idle

section

variable {held : List Addr} {a : Addr} {listed listed' : Prop} {j j' : Job}

theorem HoldInv.mono (h : HoldInv held a listed j) (hlisted : listed' → listed) :
    HoldInv held a listed' j :=
  ⟨fun hl ↦ h.deferred (hlisted hl), h.idle⟩

/-- A change of what no clause looks at. -/
theorem HoldInv.congr (h : HoldInv held a listed j) (hstate : j'.state = j.state)
    (htime : j'.deferTime = j.deferTime)
    (hdel : j'.internalState.deleted = j.internalState.deleted) : HoldInv held a listed j' where
  deferred hl := htime ▸ h.deferred hl
  idle ha :=
    have hidle := h.idle ha
    ⟨htime.trans hidle.time, hstate ▸ hidle.pending, hstate ▸ hidle.deferred,
      fun hst ↦ hdel.trans (hidle.cleared (hstate ▸ hst))⟩

/-- A job that is running or finished. -/
theorem HoldInv.settle (h : HoldInv held a listed j)
    (hstate : j'.state = .running ∨ j'.state.isFinished = true)
    (htime : j'.deferTime = j.deferTime) : HoldInv held a listed j' where
  deferred hl := htime ▸ h.deferred hl
  idle ha := by
    refine ⟨htime.trans (h.idle ha).time, ?_, ?_, ?_⟩
    all_goals
      intro hst
      simp [hst, JobState.isFinished] at hstate

theorem HoldInv.deleted (h : HoldInv held a listed j) (hlisted : ¬ listed') :
    HoldInv held a listed' j.deleted where
  deferred hl := absurd hl hlisted
  idle ha := ⟨(h.idle ha).time, nofun, nofun, fun _ ↦ rfl⟩

theorem HoldInv.reconciled (i : ReconItem) (h : HoldInv held a listed j) :
    HoldInv held a listed (j.reconciled i) := by
  have hstate := j.reconciled_state i
  have htime := j.reconciled_deferTime i
  split_ifs at hstate
  · exact h.settle (.inl hstate) htime
  · exact h.settle (.inr (by rw [hstate]; rfl)) htime
  · exact h.settle (.inr (by rw [hstate]; rfl)) htime
  · exact h.congr hstate htime (by rw [Job.reconciled_internalState])

end

/-! ### Modify requests -/

section

variable {mj : JobMod} {j : Job} {q : Option Addr} {new : Option (List JobResource)}

/-- A job that can be modified is not running and not about to. -/
theorem JobMod.not_running_of_allowed (h : mj.refusal none j = none) :
    j.state ≠ .running ∧ j.internalState.started = false := by
  simp only [refusal] at h
  split at h
  · contradiction
  split at h
  · contradiction
  next hidle =>
  obtain ⟨hrun, hstart⟩ := not_or.mp hidle
  exact ⟨hrun, by simpa using hstart⟩

/-- A request with a hold makes the job a held one, if it has no defer time. -/
theorem JobMod.modified_idle_of_hold (hset : mj.hold ≠ unset8) (hhold : mj.hold ≠ 0)
    (htime : (mj.edit new j).deferTime = 0) : (j.modified mj q new).Idle := by
  have hholds : mj.holds j = true := by simp [holds, hset, hhold]
  have hstate : (j.modified mj q new).state = .holding := by
    show mj.state new j = .holding
    rw [state, if_neg (not_not.mpr htime), if_pos hholds]
  exact ⟨htime, by simp [hstate], by simp [hstate], by simp [hstate]⟩

/-- **A request that says nothing of a hold and does not restart the job** leaves it idle, if it
does not give it a defer time. -/
theorem JobMod.modified_idle (hset : mj.hold = unset8) (hrestart : mj.restart = false)
    (htime : (mj.edit new j).deferTime = 0) (hdel : j.internalState.deleted = false)
    (hallow : mj.refusal none j = none) (hj : j.Idle) : (j.modified mj q new).Idle := by
  obtain ⟨hrunning, -⟩ := JobMod.not_running_of_allowed hallow
  have hstate : mj.state new j = j.state := by
    rw [state, if_neg (not_not.mpr htime)]
    by_cases hheld : j.state = .holding
    · rw [if_pos (by simp [holds, hset, hheld]), hheld]
    · rw [if_neg (by simp [holds, hset, hheld]), hrestart]
      cases hst : j.state with
      | completed | exited | unknown => rfl
      | cleared => exact absurd ((hj.cleared hst).symm.trans hdel) (by decide)
      | pending => exact absurd hst hj.pending
      | holding => exact absurd hst hheld
      | deferred => exact absurd hst hj.deferred
      | running => exact absurd hst hrunning
  have hstate : (j.modified mj q new).state = j.state := hstate
  exact ⟨htime, hstate ▸ hj.pending, hstate ▸ hj.deferred, fun hst ↦ hj.cleared (hstate ▸ hst)⟩

theorem JobMod.mem_heldAfter_of_ne {a b : Addr} (h : b ≠ a) {held : List Addr} :
    b ∈ mj.heldAfter a held ↔ b ∈ held := by
  rw [heldAfter]
  split_ifs <;> simp [h]

/-- Who is to be held after a request is: it says so, or it says nothing. -/
theorem JobMod.self_mem_heldAfter {a : Addr} {held : List Addr} (h : a ∈ mj.heldAfter a held) :
    (mj.hold ≠ unset8 ∧ mj.hold ≠ 0) ∨ mj.hold = unset8 ∧ mj.restart = false ∧ a ∈ held := by
  rw [heldAfter] at h
  split_ifs at h with hset hhold hrestart
  · exact .inl ⟨hset, hhold⟩
  · simp at h
  · simp at h
  · exact .inr ⟨not_not.mp hset, by simpa using hrestart, h⟩

end

/-! ### Events -/

/-- The jobs to be held have been added, and their invariant. -/
structure HoldGood (held : List Addr) (c : Core) : Prop where
  listing : Listing (HoldInv held) c
  bound : ∀ a ∈ held, a < c.jobTable.next

variable {s s' : Server} {c : Client} {e : Event} {reply : Reply} {held : List Addr} {ja : JobAdd}

/-- What an event that is no modify request makes of a job and of the deferred list. -/
theorem Allowed.hold {env : Env} {c : Core} {a : Addr} {j j' : Job} {k : Cost}
    (he : ∀ cl mj, e ≠ .client cl (.modJob mj)) (h : Allowed env s e c (.shift a j j' k))
    (hl : c.deferredList.Nodup) (hj : HoldInv held a (a ∈ c.deferredList) j) :
    Relists a c.deferredList (k.deferred c.deferredList) ∧
      HoldInv held a (a ∈ k.deferred c.deferredList) j' := by
  cases h with
  | job _ hm =>
    cases hm with
    | modify => exact absurd rfl (he _ _)
    | delete =>
      obtain ⟨hrel, hnot⟩ := undefer_spec hl hj.deferred
      exact ⟨hrel, hj.deleted hnot⟩
    | kill _ _ _ _ _ hdef =>
      rw [hdef]
      exact ⟨.refl hl, hj.settle (.inr rfl) rfl⟩
    | setTag | delTag => exact ⟨.refl hl, hj.congr rfl rfl rfl⟩
  | queue _ hm | res _ hm => cases hm
  | agent hm =>
    cases hm with
    | started => exact ⟨.refl hl, hj.settle (.inl rfl) rfl⟩
    | @completed _ exitcode _ _ _ _ _ _ _ _ hdef =>
      rw [hdef]
      exact ⟨.refl hl, hj.settle (.inr (exitStatus exitcode).isFinished_state) rfl⟩
    | @recon _ i => exact ⟨.refl hl, hj.reconciled i⟩
  | lose => exact ⟨.refl hl, hj.settle (.inr rfl) rfl⟩
  | idle | captureJob | reapJob => exact ⟨.refl hl, hj.congr rfl rfl rfl⟩
  | start _ _ _ hst =>
    exact ⟨.refl hl, hj.deferred, fun ha ↦ absurd hst (hj.idle ha).pending⟩
  | release ha =>
    -- A job on the list has a time, and a job that is to be held has none.
    have hnot : a ∉ c.deferredList.erase a := fun h ↦ (List.Nodup.mem_erase_iff hl).mp h |>.1 rfl
    exact ⟨.erase hl, fun hmem ↦ absurd hmem hnot, fun hheld ↦
      absurd (hj.idle hheld).time (hj.deferred ha)⟩
  | expire =>
    obtain ⟨hrel, hnot⟩ := undefer_spec hl hj.deferred
    exact ⟨hrel, hj.deleted hnot⟩

/-- **A move of an event that is no modify request** keeps the invariant. -/
theorem HoldGood.move {env : Env} {c c' : Core} {l : Label}
    (he : ∀ cl mj, e ≠ .client cl (.modJob mj)) (h : HoldGood held c) (hl : Allowed env s e c l)
    (hm : Move l c c') : HoldGood held c' := by
  refine ⟨h.listing.move hm (fun hj ↦ hj.mono) ?_ ?_, fun a ha ↦
    (h.bound a ha).trans_le hm.frame.jobNext⟩
  · rintro a j j' k rfl hj
    exact hl.hold he h.listing.nodup (h.listing.jobs a j hj)
  · rintro j j' k rfl
    have hfresh : c.jobTable.next ∉ held := fun ha ↦ lt_irrefl _ (h.bound _ ha)
    obtain ⟨_, _, _, hsub⟩ := hl.submitted
    cases hsub with
    | @submit ja _ jobid uid submitter b time reqs f _ _ _ _ _ _ hf =>
      obtain ⟨hrel, hlisted⟩ := relists_new h.listing.nodup h.listing.next_notMem hf
      exact ⟨hrel, hlisted, fun ha ↦ absurd ha hfresh⟩

/-- An event that is no modify request keeps the invariant. -/
theorem HoldGood.event {env : Env} (he : ∀ cl mj, e ≠ .client cl (.modJob mj))
    (hrec : s.recovery = none) (h : HoldGood held s.toCore)
    (hstep : handle env e s = .ok ((), s')) : HoldGood held s'.toCore :=
  (handle_path hrec hstep).invariant (fun hc hl hm ↦ hc.move he hl hm) h

/-- A job that is added with a hold is held. -/
theorem idle_of_added {env : Env} (hrec : s.recovery = none) (hhold : ja.hold = true)
    (htime : ja.deferTime = 0) (hstep : handle env (.client c (.addJob ja)) s = .ok ((), s'))
    {a : Addr} {j : Job} (hnew : s.jobTable.get? a = none) (hj : s'.jobTable.get? a = some j) :
    j.Idle := by
  refine (handle_path hrec hstep).invariant
    (I := fun c ↦ ∀ a j, c.jobTable.get? a = some j → s.jobTable.get? a = none → j.Idle)
    (fun {c c' l} hc hl hm ↦ hm.jobs_all hc ?_ ?_) (fun a j hj hnew ↦ absurd (hnew.symm.trans hj)
      (by simp)) a j hj hnew
  · rintro a j j' k rfl
    cases hl with
    | job _ hsub | queue _ hsub | res _ hsub => cases hsub
  · rintro j j' k rfl _
    cases hl with
    | queue _ hsub | res _ hsub => cases hsub
    | job _ hsub =>
      cases hsub with
      | @submit _ _ jobid uid submitter b time reqs f =>
        have hstate : (newJob ja jobid uid submitter b time reqs).state = .holding := by
          simp [newJob, htime, hhold]
        refine ⟨htime, ?_, ?_, ?_⟩
        all_goals
          intro hst
          exact absurd (hstate.symm.trans hst) (by decide)

/-- A command that was accepted was run. -/
theorem runCommand_accepted {env : Env} {cmd : Command}
    (h : runCommand env c cmd s = .ok (reply, s')) (hsent : reply.sent = some .returnCode) :
    ∃ c', cmd.run env (some c') s = .ok (reply, s') := by
  rcases runCommand_checked h with ⟨-, c', code, text, rfl⟩ | ⟨c', -, -, hrun⟩
  · exact nomatch hsent
  · exact ⟨c', hrun⟩

/-- **A modify request** keeps the invariant under the condition. -/
theorem HoldGood.modJob {env : Env} {mj : JobMod} (h : HoldGood held s.toCore)
    (hgood : holdKept ⟨s, held⟩ (.event env (.client c (.modJob mj))) = true)
    (hrun : runCommand env c (.modJob mj) s = .ok (reply, s')) :
    HoldGood (Jers.heldAfter (.modJob mj) reply s s' held) s'.toCore := by
  by_cases hsent : reply.sent = some .returnCode
  · obtain ⟨c', hcmd⟩ := runCommand_accepted hrun hsent
    rcases commandModJob_applied hcmd with
      ⟨-, hnot⟩ | ⟨a, j, q, new, k, f, hfound, hdel, hallow, hm, hdef, hf, -, -⟩
    · exact absurd hsent hnot
    have hj := hm.found
    have hinv := h.listing.jobs a j hj
    have hheld : Jers.heldAfter (.modJob mj) reply s s' held = mj.heldAfter a held := by
      simp only [Jers.heldAfter, hfound, if_pos hsent]
    rw [hheld]
    obtain ⟨hrel, hlisted⟩ := JobMod.relists new h.listing.nodup hinv.deferred hf
    have htime (ha : a ∈ mj.heldAfter a held) : (mj.edit new j).deferTime = 0 := by
      simpa [holdKept, hfound, ha, JobMod.edit] using hgood
    refine ⟨.shift hm h.listing.bound (fun b i listed hb hi hl ↦ ?_) (hdef ▸ hrel)
      ⟨hdef ▸ hlisted, fun ha ↦ ?_⟩, fun b hb ↦ ?_⟩
    · have hi' := h.listing.jobs b i hi
      exact ⟨fun hlisted ↦ hi'.deferred (hl hlisted),
        fun hmem ↦ hi'.idle ((JobMod.mem_heldAfter_of_ne hb).mp hmem)⟩
    · rcases JobMod.self_mem_heldAfter ha with ⟨hset, hhold⟩ | ⟨hunset, hrestart, hold⟩
      · exact JobMod.modified_idle_of_hold hset hhold (htime ha)
      · exact JobMod.modified_idle hunset hrestart (htime ha) hdel hallow (hinv.idle hold)
    · rw [hm.jobs, next_modify]
      by_cases hba : b = a
      · exact hba ▸ lt_next hj
      · exact h.bound b ((JobMod.mem_heldAfter_of_ne hba).mp hb)
  · -- The request was refused.
    have hsame : s = s' := by
      rcases runCommand_checked hrun with ⟨hsame, -⟩ | ⟨c', -, -, hcmd⟩
      · exact hsame
      · rcases commandModJob_applied hcmd with ⟨hsame, -⟩ |
          ⟨-, -, -, -, -, -, -, -, -, -, -, -, hyes, -⟩
        · exact hsame
        · exact absurd hyes hsent
    have hheld : Jers.heldAfter (.modJob mj) reply s s' held = held := by
      simp only [Jers.heldAfter, if_neg hsent]
      split <;> rfl
    rw [hheld, ← hsame]
    exact h

/-- **A request for a new job** keeps the invariant under the condition. -/
theorem HoldGood.addJob {env : Env} (hrec : s.recovery = none) (h : HoldGood held s.toCore)
    (hgood : holdKept ⟨s, held⟩ (.event env (.client c (.addJob ja))) = true)
    (hstep : handle env (.client c (.addJob ja)) s = .ok ((), s')) :
    HoldGood (heldAfter (.addJob ja) reply s s' held) s'.toCore := by
  have hkept : HoldGood held s'.toCore := h.event (fun _ _ ↦ by simp) hrec hstep
  rw [heldAfter]
  split
  · next hhold =>
    have htime : ja.deferTime = 0 := by simpa [holdKept, hhold] using hgood
    refine ⟨⟨hkept.listing.nodup, hkept.listing.bound, fun a j hj ↦ ?_⟩, fun a ha ↦ ?_⟩
    · refine ⟨(hkept.listing.jobs a j hj).deferred, fun ha ↦ ?_⟩
      rcases mem_append.mp ha with hold | hnew
      · exact (hkept.listing.jobs a j hj).idle hold
      · have hnone : s.jobTable.get? a = none := by simpa using (mem_filter.mp hnew).2
        exact idle_of_added hrec hhold htime hstep hnone hj
    · rcases mem_append.mp ha with hold | hnew
      · exact hkept.bound a hold
      · obtain ⟨r, hr, rfl⟩ := List.mem_map.mp (mem_filter.mp hnew).1
        exact s'.jobTable.bound r hr
  · exact hkept

/-- A load keeps the invariant: no job of a file is to be held yet. -/
theorem HoldGood.load {fileName text : Str} (h : HoldGood held s.toCore)
    (hstep : LoadStep s (.load fileName text) s') : HoldGood held s'.toCore := by
  obtain ⟨j, f, -, -, -, hm, hf⟩ := hstep.load
  obtain ⟨hrel, hlisted⟩ := relists_new h.listing.nodup h.listing.next_notMem hf
  have hfresh : s.jobTable.next ∉ held := fun ha ↦ lt_irrefl _ (h.bound _ ha)
  refine ⟨h.listing.add hm (fun hj ↦ hj.mono) hrel ⟨hlisted, fun ha ↦ absurd ha hfresh⟩, ?_⟩
  exact fun a ha ↦ (h.bound a ha).trans_le hm.frame.jobNext

variable {x x' : Holding}

/-- The steps of `holdStep` are loads and events. -/
theorem holdStep_ok {e : LoadEvent} (h : holdStep x e = .ok x') :
    LoadStep x.server e x'.server ∧ match e with
      | .event env (.client c cmd) =>
          ∃ reply, runCommand env c cmd x.server = .ok (reply, x'.server) ∧
          x'.held = heldAfter cmd reply x.server x'.server x.held
      | _ => x'.held = x.held := by
  cases e with
  | load fileName text =>
    obtain ⟨j, hload, h₁⟩ := Except.bind_eq_ok_iff.mp h
    obtain ⟨⟨rc, s'⟩, hadd, h₂⟩ := Except.bind_eq_ok_iff.mp h₁
    dsimp only at h₂
    split at h₂
    · exact nomatch h₂
    · next hrc =>
      obtain rfl := Except.ok.inj h₂
      rw [not_not.mp hrc] at hadd
      exact ⟨⟨j, hload, hadd⟩, rfl⟩
  | event env e =>
    cases e with
    | client c cmd =>
      obtain ⟨⟨reply, s'⟩, hrun, hret⟩ := Except.bind_eq_ok_iff.mp h
      obtain rfl := Except.ok.inj hret
      exact ⟨bind_ok_iff.mpr ⟨reply, s', hrun, rfl⟩, reply, hrun, rfl⟩
    | _ =>
      obtain ⟨⟨_, s'⟩, hstep, hret⟩ := Except.bind_eq_ok_iff.mp h
      obtain rfl := Except.ok.inj hret
      exact ⟨hstep, rfl⟩

/-- **Every step keeps the invariant** under the condition. -/
theorem HoldGood.step {e : LoadEvent}
    (h : x.server.recovery = none ∧ HoldGood x.held x.server.toCore) (hgood : holdKept x e = true)
    (hstep : holdStep x e = .ok x') :
    x'.server.recovery = none ∧ HoldGood x'.held x'.server.toCore := by
  obtain ⟨hserver, hheld⟩ := holdStep_ok hstep
  obtain ⟨hrec, hinv⟩ := h
  cases e with
  | load fileName text =>
    obtain ⟨j, f, -, -, -, hm, -⟩ := hserver.load
    exact ⟨hm.frame.recovery.trans hrec, hheld ▸ hinv.load hserver⟩
  | event env e =>
    refine ⟨handle_recovery hrec hserver, ?_⟩
    cases e with
    | client c cmd =>
      obtain ⟨reply, hrun, hheld⟩ := hheld
      rw [hheld]
      cases cmd with
      | addJob ja => exact hinv.addJob hrec hgood hserver
      | modJob mj => exact hinv.modJob hgood hrun
      | _ => exact hinv.event (fun _ _ ↦ by simp) hrec hserver
    | _ =>
      rw [hheld]
      exact hinv.event (fun _ _ ↦ by simp) hrec hserver

/-- **The scheduler passes over idle jobs.** -/
theorem HoldGood.holdsBack (hrec : x.server.recovery = none) (h : HoldGood x.held x.server.toCore) :
    HoldsBack x := by
  intro env s' hstep a ha j hj
  have hidle := (h.listing.jobs a j hj).idle ha
  -- A round of the scheduler may touch the reason of the job only.
  have hall := (handle_path hrec hstep).invariant
    (I := fun c ↦ ∃ j', c.jobTable.get? a = some j' ∧ j'.state = j.state ∧
      j'.history.starts = j.history.starts) (fun {c c' l} hc hl hm ↦ ?_) ⟨j, hj, rfl, rfl⟩
  · obtain ⟨j', hj', -, hstarts⟩ := hall
    exact ⟨j', hj', hstarts⟩
  obtain ⟨j', hj', hstate, hstarts⟩ := hc
  cases hl with
  | @idle _ b i r =>
    have hm := hm.shifted
    by_cases hb : a = b
    · subst hb
      obtain rfl := some.inj (hj'.symm.trans hm.found)
      exact ⟨_, hm.found', hstate, hstarts⟩
    · exact ⟨j', (hm.get?_of_ne hb).trans hj', hstate, hstarts⟩
  | @start _ b i i₀ reqs _ _ _ hpending =>
    have hm := hm.shifted
    by_cases hb : a = b
    · subst hb
      obtain rfl := some.inj (hj'.symm.trans hm.found)
      exact absurd (hstate.symm.trans hpending) hidle.pending
    · exact ⟨j', (hm.get?_of_ne hb).trans hj', hstate, hstarts⟩

/-- **Hold means hold**, in every state of every run in which no job that is to be held has or gets
a defer time. -/
theorem holdsBack_of_runs {config : Config} {hosts : List Str} {x : Holding}
    (h : HoldRuns holdKept config hosts x) : HoldsBack x := by
  have hall : x.server.recovery = none ∧ HoldGood x.held x.server.toCore := by
    refine h.invariant (I := fun x ↦ x.server.recovery = none ∧ HoldGood x.held x.server.toCore)
      (fun hx hgood hstep ↦ HoldGood.step hx hgood hstep) ?_
    exact ⟨rfl, ⟨nodup_nil, nofun, fun a j hj ↦ nomatch hj⟩, nofun⟩
  exact hall.2.holdsBack hall.1

namespace Sample

def eventsOf (es : List Event) : List LoadEvent := es.map (.event env)

theorem exists_holdRuns (good : Holding → LoadEvent → Bool) (es : List LoadEvent)
    (p : Holding → Prop) (h : ∃ x ∈ Run.follow (Run.stepIf good holdStep) es
      { server := Server.initial config hosts }, p x) : ∃ x, HoldRuns good config hosts x ∧ p x :=
  Run.exists_of_stepIf good holdStep es _ p h

/-- A job with a hold. -/
def addHeld (deferTime : ℤ) : Command :=
  .addJob { plainJob with hold := true, deferTime }

end Sample

/-- A job with a hold and a defer time is started when the time has come. -/
theorem not_holdsBack_deferred : ∃ x, HoldRuns (fun _ _ ↦ true) config hosts x ∧
    ¬ HoldsBack x := by
  obtain ⟨x, hrun, hheld, ⟨j, hj, hzero⟩, s', hs', j', hj', hone⟩ :=
    exists_holdRuns (fun _ _ ↦ true)
    (eventsOf (readyQueue ++ [.client root (addHeld 900), .releaseDeferred]))
    (fun x ↦ 0 ∈ x.held ∧ (∃ j ∈ x.server.jobTable.get? 0, j.history.starts = 0) ∧
      ∃ s ∈ after (env, .checkJobs) x.server, ∃ j ∈ s.jobTable.get? 0, j.history.starts = 1)
    (by decide +kernel)
  refine ⟨x, hrun, fun hback ↦ ?_⟩
  obtain ⟨i, hi, hsame⟩ := hback env s' (step_of_after hs') 0 hheld j hj
  obtain rfl := mem_unique hj' hi
  rw [hone, hzero] at hsame
  exact nomatch hsame

/-- A job with a hold and no defer time is modified and stays where it is. -/
theorem holdsBack_of_runs_modified : ∃ x, HoldRuns holdKept config hosts x ∧
    x.held = [0] ∧ HoldsBack x := by
  obtain ⟨x, hrun, hx⟩ := exists_holdRuns holdKept
    (eventsOf (readyQueue ++ [.client root (addHeld 0),
      .client root (.modJob { jobid := 1, priority := 7, deferTime := 0 }), .releaseDeferred,
      .checkJobs])) (fun x ↦ x.held = [0]) (by decide +kernel)
  exact ⟨x, hrun, hx, holdsBack_of_runs hrun⟩

end Jers
