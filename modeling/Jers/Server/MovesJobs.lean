import Jers.Server.JobIds

/-!
# The moves of the commands on jobs

The functions of `jobs.c` and the commands of `command_job.c` make the moves of `JobMove`.
-/

namespace Jers

open Exec Option Table Jers.Path

variable {s s' : Server}

/-! ### Deleting and removing jobs -/

variable {a b : Addr} {j : Job} {c : Option Client} {env : Env} {s₀ t : Server} {reply : Reply}
  {jobid n : ℕ} {mj : JobMod} {rc : ℤ} {ja : JobAdd} {q : Option Addr}

theorem removeDeferredJob_ok (h : removeDeferredJob a s = .ok ((), s')) :
    s' = { s with deferredList := s.deferredList.erase a } :=
  update_ok_iff.mp h

variable {name : Option Str} {wanted uid : ℕ} {p : Prop} {js : JobSig}

/-- The deferred list is changed for a job that has a time. -/
theorem whenever_removeDeferred_shift (hj : s.jobTable.get? a = some j) [Decidable p]
    (h : whenever p (removeDeferredJob a) s = .ok ((), s')) :
    Shift a j j { deferred := fun l ↦ if p then l.erase a else l } s.toCore s'.toCore := by
  rcases whenever_ok_iff.mp h with ⟨hp, h⟩ | ⟨hp, rfl⟩
  · rw [removeDeferredJob_ok h]
    simp only [hp, if_true]
    exact Shift.defer hj _
  · simp only [hp, if_false]
    exact Shift.refl hj

theorem deleteJob_shift (hj : s.jobTable.get? a = some j) (h : deleteJob a s = .ok ((), s')) :
    Shift a j j.deleted { deferred := undefer a j.deferTime } s.toCore s'.toCore := by
  obtain ⟨_, t, hmod, h₁⟩ := bind_ok_iff.mp h
  obtain ⟨_, u, hchange, h₂⟩ := bind_ok_iff.mp h₁
  have hmove := ((Shift.refl hj).edits hmod rfl rfl).changes rfl hchange
  obtain ⟨_, v, hdefer, hupd⟩ := bind_ok_iff.mp (getJob_bind_at hmove.found' h₂)
  obtain rfl := update_ok_iff.mp hupd
  have hcost (i : Job) : slotsFreed i .cleared none = 0 := by simp [slotsFreed]
  rw [Cost.default_andThen, hcost, neg_zero] at hmove
  have hall := hmove.trans (whenever_removeDeferred_shift hmove.found' hdefer) (.inl rfl)
  rwa [Cost.default_andThen] at hall

/-- Every job of `c` is in `s` as it is. -/
def SubJobs (c : Core) (s : Server) : Prop :=
  ∀ a j, c.jobTable.get? a = some j → s.jobTable.get? a = some j

/-- Jobs of `s` that can be cleaned up are removed. -/
def Recycles (s : Server) (_ : Core) (l : Label) : Prop :=
  ∃ a j, l = .removeJob a j ∧ s.jobTable.get? a = some j ∧ j.Removable

/-- What stays the same while jobs are removed. -/
structure Thinned (s : Server) (c : Core) : Prop where
  jobs : SubJobs c s
  queueTable : c.queueTable = s.queueTable
  resTable : c.resTable = s.resTable
  defaultQueue : c.defaultQueue = s.defaultQueue
  recovery : c.recovery = s.recovery
  config : c.config = s.config

theorem Thinned.refl (s : Server) : Thinned s s.toCore :=
  ⟨fun _ _ h ↦ h, rfl, rfl, rfl, rfl, rfl⟩

theorem Thinned.erase {c : Core} (h : Thinned s c) (a : Addr) :
    Thinned s { c with jobTable := c.jobTable.erase a } :=
  { h with jobs := fun b j hb ↦ h.jobs b j (get?_erase_some hb).2 }

/-- Removing jobs. -/
structure RecyclePath (s₀ s s' : Server) : Prop where
  path : Path (Recycles s₀) s.toCore s'.toCore
  thinned : Thinned s₀ s.toCore → Thinned s₀ s'.toCore

theorem RecyclePath.refl (s₀ s : Server) : RecyclePath s₀ s s := ⟨Path.refl _, id⟩

theorem RecyclePath.trans (h : RecyclePath s₀ s t) (h' : RecyclePath s₀ t s') :
    RecyclePath s₀ s s' :=
  ⟨h.path.trans h'.path, h'.thinned ∘ h.thinned⟩

theorem FreeStep.recycle (h : FreeStep s s') (hs : Thinned s₀ s.toCore) : RecyclePath s₀ s s' := by
  cases h with
  | search => exact ⟨refl _, id⟩
  | @free a j hj hrem =>
    exact ⟨single ⟨a, j, rfl, hs.jobs a j hj, hrem⟩ ⟨hj, rfl⟩, fun hs ↦ hs.erase a⟩

/-- Freeing jobs removes jobs that can be cleaned up. -/
theorem Freed.recycle (h : Freed s s') (hs : Thinned s₀ s.toCore) : RecyclePath s₀ s s' := by
  induction h with
  | refl => exact .refl _ _
  | tail _ hstep ih => exact ih.trans (hstep.recycle (ih.thinned hs))

/-! ### JOB_ADD -/

/-- The deferred list after a job has been added or modified. -/
theorem whenever_addDeferred_shift (hj : s.jobTable.get? a = some j) [Decidable p]
    (h : whenever p (addDeferredJob a) s = .ok ((), s')) :
    ∃ f, Shift a j j { deferred := f } s.toCore s'.toCore ∧
      (¬p ∧ f = id ∨ p ∧ ∃ due, DeferTimes s.toCore a j.deferTime due ∧
        f = insertDeferred due a) := by
  rcases whenever_ok_iff.mp h with ⟨hp, h⟩ | ⟨hp, rfl⟩
  · obtain rfl := update_ok_iff.mp h
    refine ⟨_, Shift.defer hj _, .inr ⟨hp, _, ⟨?_, fun b i _ hi ↦ ?_⟩, rfl⟩⟩
    · rw [hj]
      rfl
    · rw [show s.jobTable.get? b = some i from hi]
      rfl
  · exact ⟨id, Shift.refl hj, .inl ⟨hp, rfl⟩⟩

theorem addJob_ok {dirty : Bool} (h : addJob j dirty s = .ok (rc, s')) :
    (rc = 1 ∧ s.findJob j.jobid ≠ none ∧ s = s') ∨ (rc = 0 ∧ s.findJob j.jobid = none ∧ ∃ f,
      Move (.addJob { j with state := .cleared }
        ({ j with state := .cleared }.changed j.state none dirty)
        { slots := -slotsFreed { j with state := .cleared } j.state none, deferred := f })
        s.toCore s'.toCore ∧
      (j.deferTime = 0 ∧ f = id ∨ j.deferTime ≠ 0 ∧ ∃ due,
        DeferTimes s.toCore s.jobTable.next j.deferTime due ∧
          f = insertDeferred due s.jobTable.next)) := by
  obtain ⟨_, rfl, h₁⟩ := read_bind_ok_iff.mp h
  split at h₁
  · next hsome =>
    obtain ⟨rfl, rfl⟩ := pure_ok_iff.mp h₁
    exact .inl ⟨rfl, isSome_iff_ne_none.mp hsome, rfl⟩
  · next hnone =>
    obtain ⟨_, rfl, h₂⟩ := read_bind_ok_iff.mp h₁
    obtain ⟨_, t, hupd, h₃⟩ := bind_ok_iff.mp h₂
    obtain ⟨_, u, hdefer, h₄⟩ := bind_ok_iff.mp h₃
    obtain ⟨_, rfl, hchange⟩ := bind_pure_ok h₄
    have ht := update_ok_iff.mp hupd
    have hget : t.jobTable.get? s.jobTable.next = some { j with state := .cleared } := by
      rw [ht]
      exact (get?_push _ _ _).trans (if_pos rfl)
    obtain ⟨f, hlist, hf⟩ := whenever_addDeferred_shift hget hdefer
    refine .inr ⟨rfl, by simpa using hnone, f, ?_, ?_⟩
    · have hboth := hlist.changes rfl hchange
      have hcost (d : ℤ) : Cost.andThen { deferred := f } { slots := d } =
          { slots := d, deferred := f } := by
        simp [Cost.andThen, Audit.join]
      rw [ht, hcost] at hboth
      exact hboth
    · rcases hf with ⟨hzero, hf⟩ | ⟨hne, due, ⟨hdue, htimes⟩, hf⟩
      · exact .inl ⟨not_not.mp hzero, hf⟩
      · refine .inr ⟨hne, due, ⟨hdue, fun b i hb hi ↦ htimes b i hb ?_⟩, hf⟩
        rw [ht]
        exact (get?_push _ _ _).trans ((if_neg hb).trans hi)

theorem pickJobid_le {wanted : ℕ} :
    Post (pickJobid wanted) s fun jobid _ ↦ jobid = wanted ∨ jobid ≤ max 1 s.config.maxJobid := by
  refine .ite (fun _ ↦ .read fun _ _ h ↦ ?_) fun _ ↦ .pure (.inl rfl)
  exact .inr (getNextJobIDWithin_post h).1

theorem pickJobid_unused {jobid : ℕ} (h : pickJobid 0 s = .ok (jobid, s')) (hid : jobid ≠ 0) :
    s'.findJob jobid = none := by
  obtain ⟨_, rfl, h⟩ := read_bind_ok_iff.mp h
  exact (getNextJobIDWithin_post h).2 hid

/-- Looking up resources depends on the resource table only. -/
theorem convertResourceStrings_congr {t u : Tables} (h : t.resTable = u.resTable) (xs : List Str) :
    convertResourceStrings t xs = convertResourceStrings u xs := by
  have hone (x : Str) : resourceStringToResource t x = resourceStringToResource u x := by
    simp only [resourceStringToResource, Tables.findResource, h]
  induction xs with
  | nil => rfl
  | cons x xs ih => rw [convertResourceStrings, convertResourceStrings, hone, ih]

/-- A job that the move adds runs as the user `uid`. -/
def Label.AddsFor (uid : ℕ) : Label → Prop
  | .addJob _ j' _ => j'.uid = uid
  | _ => True

/-- The move of a new job, from a core that has lost jobs only. -/
theorem addJob_submit {u : Server} {uid submitter : ℕ} {time : ℤ} {reqs : List JobResource}
    (hb : s.defaultQueue = some b ∨ ∃ q, s.queueTable.get? b = some q ∧
      q.internalState.deleted = false)
    (hconv : convertResourceStrings s.toTables ja.resources = some reqs) (ht : Thinned s t.toCore)
    (hid : jobid ≠ 0)
    (hsmall : s.recovery = none → jobid = ja.jobid ∨ jobid ≤ max 1 s.config.maxJobid)
    (h : addJob (newJob ja jobid uid submitter b time reqs) true t = .ok (rc, u)) :
    Path (fun c l ↦ JobMove env s (.addJob ja) c l ∧ l.AddsFor uid) t.toCore u.toCore := by
  obtain ⟨-, -, rfl⟩ | ⟨-, hnone, f, hmove, hf⟩ := addJob_ok h
  · exact refl _
  · have hfree : slotsFreed { newJob ja jobid uid submitter b time reqs with state := .cleared }
        (newJob ja jobid uid submitter b time reqs).state none = 0 := by
      simp [slotsFreed, newJob]
    rw [hfree, neg_zero] at hmove
    exact single
      ⟨.submit hb ht.queueTable ht.resTable ht.defaultQueue hconv hnone hf hid hsmall, rfl⟩
      hmove

/-- What the second half of `JOB_ADD` does, after it has made room for the id: it sends an error, or
it calls `addJob` and answers. -/
inductive JobMade (env : Env) (c : Option Client) (ja : JobAdd) (wanted uid : ℕ) (b : Addr)
    (s : Server) : Reply → Server → Prop
  | refused {code : ErrCode} {text : Option String} {s' : Server} (hclean : Freed s s') :
      JobMade env c ja wanted uid b s (sendError c (-1) code text) s'
  | added {reqs : List JobResource} {jobid submitter : ℕ} {time rc : ℤ} {r : Reply}
      {u v s' : Server} (htags : (ja.tags.all fun t ↦ isprintable t.1) = true)
      (hconv : convertResourceStrings s.toTables ja.resources = some reqs)
      (hclean : Freed s u) (hid : jobid ≠ 0)
      (hsmall : jobid = wanted ∨ jobid ≤ max 1 s.config.maxJobid)
      (hunused : wanted = 0 → u.findJob jobid = none)
      (hclient : ∀ cl, c = some cl → submitter = cl.uid ∧ r.jobid = jobid)
      (htime : s.recovery = none → time = env.now)
      (hadd : addJob (newJob ja jobid uid submitter b time reqs) true u = .ok (rc, v))
      (hlast : s' = { v with total := s'.total }) : JobMade env c ja wanted uid b s r s'

theorem addJobOn_post :
    Post (addJobOn env c ja wanted uid b) s (JobMade env c ja wanted uid b s) := by
  refine .bind fun free t hclaim ↦ ?_
  have ht : Freed s t := claimJobid_walks wanted s free t hclaim
  have hthin := (ht.recycle (.refl s)).thinned (.refl s)
  refine .ite (fun _ ↦ .pure (.refused ht)) fun _ ↦ .ite (fun _ ↦ .pure (.refused ht))
    fun _ ↦ .read ?_
  rw [convertResourceStrings_congr hthin.resTable]
  cases hconv : convertResourceStrings s.toTables ja.resources with
  | none => exact .pure (.refused ht)
  | some reqs =>
    refine .ite (fun _ ↦ .pure (.refused ht)) fun htags ↦ .bind fun jobid u hpick ↦ ?_
    have hsmall := pickJobid_le hpick
    rw [show t.config = s.config from hthin.config] at hsmall
    have hu : Freed s u := ht.trans (pickJobid_walks wanted t jobid u hpick)
    have htags : (ja.tags.all fun t ↦ isprintable t.1) = true := by simpa using htags
    have htime (hrec : s.recovery = none) :
        (u.recovery.map Recovery.time).getD env.now = env.now := by
      rw [show u.recovery =
        none from ((hu.recycle (.refl s)).thinned (.refl s)).recovery.trans hrec]
      rfl
    refine .ite (fun _ ↦ .pure (.refused hu)) fun hid ↦ .read (.bind fun rc v hadd ↦ ?_)
    have hunused (hw : wanted = 0) : u.findJob jobid = none := pickJobid_unused (hw ▸ hpick) hid
    cases c with
    | none => exact .pure (.added htags hconv hu hid hsmall hunused nofun htime hadd rfl)
    | some c =>
      refine .read (.update (.bind fun reply w hsend ↦ .pure ?_))
      obtain rfl := sendClient_ok hsend
      refine .added htags hconv hu hid hsmall hunused ?_ htime hadd rfl
      rintro _ ⟨rfl⟩
      exact ⟨rfl, rfl⟩

theorem addJobQueue_ok {t : Core} (h : addJobQueue t c name = .ok b) :
    t.defaultQueue = some b ∨ ∃ q, t.queueTable.get? b = some q ∧
    q.internalState.deleted = false := by
  cases name with
  | none =>
    simp only [addJobQueue] at h
    split at h
    · exact nomatch h
    · next hdef =>
      obtain rfl := Except.ok.inj h
      exact .inl hdef
  | some name =>
    simp only [addJobQueue] at h
    split at h
    · exact nomatch h
    · next b' q hfound =>
      split at h
      · exact nomatch h
      · next hdel =>
        split at h
        · exact nomatch h
        · obtain rfl := Except.ok.inj h
          exact .inr ⟨q, (Table.find?_some hfound).1, by simpa using hdel⟩

theorem addJobQueue_refused {t : Core} (h : addJobQueue t c name = .error reply) :
    reply.status = -1 := by
  cases name with
  | none =>
    simp only [addJobQueue] at h
    split at h
    · exact Except.error.inj h ▸ rfl
    · exact nomatch h
  | some name =>
    simp only [addJobQueue] at h
    split at h
    · exact Except.error.inj h ▸ rfl
    · split_ifs at h
      · exact Except.error.inj h ▸ rfl
      · exact Except.error.inj h ▸ rfl

/-- What `JOB_ADD` does: it sends an error or passes over the record of a job that is there, or it
has found the user and the queue of the job and goes on. -/
inductive JobTaken (env : Env) (c : Option Client) (ja : JobAdd) (s : Server) :
    Reply → Server → Prop
  | refused {r : Reply} (hst : s.recovery = none → r.status = -1) : JobTaken env c ja s r s
  | taken {uid : ℕ} {b : Addr} {r : Reply} {s' : Server}
      (huid : addJobUid c ((s.recovery.map Recovery.uid).getD ja.uid) = .ok uid)
      (hperm : deniedPerm c uid permSetuid s = .ok (false, s))
      (hqueue : addJobQueue s.toCore c ja.queue = .ok b)
      (hmade : JobMade env c ja ((s.recovery.map Recovery.jobid).getD ja.jobid) uid b s r s') :
      JobTaken env c ja s r s'

theorem commandAddJob_post : Post (commandAddJob env c ja) s (JobTaken env c ja s) := by
  refine .read (.read (.ite (fun hloaded ↦ .pure (.refused fun hrec ↦ ?_)) fun _ ↦ ?_))
  · rw [hrec] at hloaded
    exact nomatch hloaded
  refine .lift fun uid huid ↦ .ite (fun _ ↦ .pure (.refused fun _ ↦ rfl)) fun _ ↦ ?_
  refine .keep deniedPerm_ok fun denied hperm ↦ .ite (fun _ ↦ .pure (.refused fun _ ↦ rfl))
    fun hd ↦ ?_
  obtain rfl : denied = false := by simpa using hd
  refine .read ?_
  cases hqueue : addJobQueue s.toCore c ja.queue with
  | error r => exact .pure (.refused fun _ ↦ addJobQueue_refused hqueue)
  | ok b => exact fun _ _ h ↦ .taken huid hperm hqueue (addJobOn_post h)

/-- The moves of a new job. -/
theorem JobMade.path
    (hb : s.defaultQueue = some b ∨ ∃ q, s.queueTable.get? b = some q ∧
      q.internalState.deleted = false)
    (hwanted : s.recovery = none → wanted = ja.jobid)
    (h : JobMade env c ja wanted uid b s reply s') :
    Path (fun c l ↦ JobMove env s (.addJob ja) c l ∧ l.AddsFor uid) s.toCore s'.toCore := by
  have hrecycle {t : Server} (ht : Freed s t) :
      Path (fun c l ↦ JobMove env s (.addJob ja) c l ∧ l.AddsFor uid) s.toCore t.toCore :=
    (ht.recycle (.refl s)).path.mono fun _ _ ⟨_, _, hl, hj, hrem⟩ ↦ hl ▸ ⟨.recycle hj hrem, trivial⟩
  cases h with
  | refused hclean => exact hrecycle hclean
  | @added _ _ _ _ _ _ _ v _ _ hconv hclean hid hsmall _ _ _ hadd hlast =>
    have hcore : s'.toCore = v.toCore := by rw [hlast]
    rw [hcore]
    exact (hrecycle hclean).trans (addJob_submit hb hconv
      ((hclean.recycle (.refl s)).thinned (.refl s)) hid (fun hrec ↦ hwanted hrec ▸ hsmall) hadd)

/-- The id that is asked for, outside of recovery. -/
theorem wanted_eq (ja : JobAdd) (hrec : s.recovery = none) :
    (s.recovery.map Recovery.jobid).getD ja.jobid = ja.jobid := by
  rw [hrec]
  rfl

theorem commandAddJob_path : Post (commandAddJob env c ja) s fun _ s' ↦
    Path (JobMove env s (.addJob ja)) s.toCore s'.toCore := by
  intro reply s' h
  cases commandAddJob_post h with
  | refused => exact refl _
  | taken _ _ hqueue hmade =>
    exact (hmade.path (addJobQueue_ok hqueue) (wanted_eq ja)).mono fun _ _ hl ↦ hl.1

/-! ### JOB_MOD -/

/-- A restarted unknown job gives its resources back first. -/
theorem whenever_deallocate_shift (hj : s.jobTable.get? a = some j) [Decidable p]
    (h : whenever p (deallocateRes a) s = .ok ((), s')) :
    ∃ use w, Shift a j
        { j with history.held := if p then [] else j.history.held }
        { use := use, audit := w } s.toCore s'.toCore ∧
      if p then Gives s.toCore j use w else use = (fun _ ↦ 0) ∧ w = {} := by
  rcases whenever_ok_iff.mp h with ⟨hp, h⟩ | ⟨hp, rfl⟩
  · obtain ⟨reqs, use, w, hreqs, hshift, -, hexact⟩ := deallocateRes_shift hj h
    simp only [hp, if_true]
    exact ⟨use, w, hshift, reqs, hreqs, hexact⟩
  · simp only [hp, if_false]
    exact ⟨_, _, Shift.refl hj, rfl, rfl⟩

/-- A job that is modified is not started, so that no slot is given back. -/
theorem JobMod.not_started (h : mj.refusal c j = none) : j.internalState.started = false := by
  simp only [refusal] at h
  split at h
  · exact nomatch h
  split at h
  · exact nomatch h
  · next hrun =>
    simpa using (not_or.mp hrun).2

theorem slotsFreed_of_not_started {st : JobState} (h : j.internalState.started = false) :
    slotsFreed j st q = 0 := by
  simp [slotsFreed, h]

/-- The refusals do not depend on the client. -/
theorem JobMod.refusal_none (h : mj.refusal c j = none) : mj.refusal none j = none := by
  simp only [refusal] at h ⊢
  split_ifs at h ⊢
  rfl

theorem undefer_and (p : Prop) [Decidable p] (a : Addr) (time : ℤ) :
    (fun l : List Addr ↦ if p ∧ time ≠ 0 then l.erase a else l) =
      if p then undefer a time else id := by
  funext l
  by_cases hp : p
  · simp [hp, undefer]
  · simp [hp]

/-- A modify request is one shift of the job. -/
theorem applyMod_shift {new : Option (List JobResource)} (hj : s.jobTable.get? a = some j)
    (hallow : mj.refusal none j = none) (h : applyMod a mj q new s = .ok ((), s')) : ∃ k f,
      Shift a j (j.modified mj q new) k s.toCore s'.toCore ∧ k.slots = 0 ∧
      (if mj.restart ∧ j.state = .unknown then Gives s.toCore j k.use k.audit
        else k.use = (fun _ ↦ 0) ∧ k.audit = {}) ∧
      k.deferred = f ∘ mj.undefers a j ∧ mj.Defers s.toCore a f := by
  have h₁ := getJob_bind_at hj h
  obtain ⟨_, t, hgive, h₂⟩ := bind_ok_iff.mp h₁
  obtain ⟨_, u, hremove, h₃⟩ := bind_ok_iff.mp h₂
  obtain ⟨_, v, hmod, h₄⟩ := bind_ok_iff.mp h₃
  obtain ⟨_, w, hadd, hchange⟩ := bind_ok_iff.mp h₄
  -- the five calls, each a shift of the job
  obtain ⟨use, au, hgave, hgives⟩ := whenever_deallocate_shift hj hgive
  have hremoved := whenever_removeDeferred_shift hgave.found' hremove
  have hedit := (hgave.trans hremoved (.inl rfl)).edits hmod rfl rfl
  obtain ⟨f, hadded, hf⟩ := whenever_addDeferred_shift hedit.found' hadd
  have hall := (hedit.trans hadded (.inl rfl)).changes rfl hchange
  rw [slotsFreed_of_not_started (by exact mj.not_started hallow), neg_zero,
    Cost.andThen_default] at hall
  refine ⟨_, f, hall, rfl, ?_, ?_, ?_⟩
  · simpa [Cost.andThen] using hgives
  · change f ∘ (fun l ↦ if _ ∧ _ then l.erase a else l) ∘ id = _
    rw [undefer_and]
    rfl
  · rcases hf with ⟨hnot, hf⟩ | ⟨⟨hset, hne⟩, due, ⟨hdue, htimes⟩, hf⟩
    · exact .inl ⟨by simpa [or_iff_not_imp_left] using hnot, hf⟩
    · refine .inr ⟨hset, hne, due, ⟨hdue.trans (if_pos hset), fun b i hb hi ↦ htimes b i hb ?_⟩, hf⟩
      rw [hedit.get?_of_ne hb]
      exact hi

/-- What `JOB_MOD` does: it sends an error or passes over an old record, or it makes the changes. -/
inductive JobModified (c : Option Client) (mj : JobMod) (s : Server) : Reply → Server → Prop
  | refused {r : Reply} (hsent : r.sent ≠ some .returnCode) : JobModified c mj s r s
  | applied {a : Addr} {j j' : Job} {q : Option Addr} {new : Option (List JobResource)} {r : Reply}
      {s' : Server} (hfound : s.findJob mj.jobid = some (a, j))
      (hdel : j.internalState.deleted = false)
      (hnew : ¬s.recovery.any fun r ↦ r.revision ≤ j.obj.revision)
      (hallow : mj.refusal none j = none) (htarget : mj.target s.toTables = some q)
      (hconv : mj.converted s.toTables = some new) (happly : applyMod a mj q new s = .ok ((), s'))
      (hj' : s'.jobTable.get? a = some j')
      (hsend : sendClient c j'.obj .returnCode s' = .ok (r, s')) : JobModified c mj s r s'

theorem JobMod.refusal_sent {r : Reply} (h : mj.refusal c j = some r) :
    r.sent ≠ some .returnCode := by
  unfold refusal at h
  split_ifs at h <;> exact some.inj h ▸ sendError_sent

theorem commandModJob_post : Post (commandModJob c mj) s (JobModified c mj s) := by
  rw [commandModJob]
  refine .ite (fun _ ↦ .pure (.refused sendError_sent)) fun _ ↦ .read (.read ?_)
  refine .keep deniedPerm_ok fun _ _ ↦ .ite (fun _ ↦ .pure (.refused sendError_sent)) fun _ ↦ ?_
  cases hfound : s.findJob mj.jobid with
  | none => exact .pure (.refused sendError_sent)
  | some r =>
    refine .ite (fun _ ↦ .pure (.refused sendError_sent)) fun hdel ↦ ?_
    refine .ite (fun _ ↦ .pure (.refused nofun)) fun hnew ↦ ?_
    cases hallow : mj.refusal c r.2 with
    | some reply => exact .pure (.refused (JobMod.refusal_sent hallow))
    | none =>
      refine .read ?_
      cases htarget : mj.target s.toTables with
      | none => exact .pure (.refused sendError_sent)
      | some q =>
        refine .read ?_
        cases hconv : mj.converted s.toTables with
        | none => exact .pure (.refused sendError_sent)
        | some new =>
          refine .bind fun _ t happly ↦ .getJob fun j' hj' reply u hsend ↦ ?_
          obtain rfl := sendClient_ok hsend
          exact .applied hfound (by simpa using hdel) hnew (mj.refusal_none hallow) htarget hconv
            happly hj' hsend

theorem commandModJob_path : Post (commandModJob c mj) s fun _ s' ↦
    Path (JobMove env s (.modJob mj)) s.toCore s'.toCore := by
  intro reply s' h
  cases commandModJob_post h with
  | refused => exact refl _
  | applied hfound hdel _ hallow htarget hconv happly =>
    obtain ⟨k, f, hshift, hslots, hgives, hdeferred, hf⟩ :=
      applyMod_shift (Table.find?_some hfound).1 hallow happly
    exact single (.modify hfound hdel hallow htarget hconv hslots hgives hdeferred hf) hshift

/-! ### JOB_DEL, JOB_SIG -/

theorem commandDelJob_path : Post (commandDelJob c jobid) s fun _ s' ↦
    Path (JobMove env s (.delJob jobid)) s.toCore s'.toCore := by
  refine .read (.read (.keep deniedPerm_ok fun _ _ ↦ .ite (fun _ ↦ .pure (refl _)) fun _ ↦ ?_))
  cases hfound : s.findJob jobid with
  | none => exact .pure (refl _)
  | some r =>
    refine .ite (fun _ ↦ .pure (refl _)) fun hdel ↦ .bind fun _ t hdelete ↦ .answer fun _ ↦ ?_
    exact single (.delete hfound (by simpa using hdel))
      (deleteJob_shift (Table.find?_some hfound).1 hdelete)

theorem killUnknown_path (hj : s.findJob js.jobid = some (a, j))
    (hdel : j.internalState.deleted = false) (hunknown : j.state = .unknown)
    (h : killUnknown env a js.signum s = .ok ((), s')) :
    Path (JobMove env s (.sigJob js)) s.toCore s'.toCore := by
  obtain ⟨_, t, hmod, h₁⟩ := bind_ok_iff.mp h
  obtain ⟨_, u, hchange, hgive⟩ := bind_ok_iff.mp h₁
  have hmove := ((Shift.refl (Table.find?_some hj).1).edits hmod rfl rfl).changes rfl hchange
  obtain ⟨reqs, use, w, hreqs, hgave, -, hexact⟩ := deallocateRes_shift hmove.found' hgive
  have hall := hmove.trans hgave (.inr rfl)
  refine single (.kill hj hdel hunknown ?_ ⟨reqs, hreqs, fun hrel hheld ↦ ?_⟩ rfl) hall
  · simp [Cost.andThen, slotsFreed]
  · have hres : Releasable reqs u.toCore := by
      refine ⟨hrel.nonneg, fun b r hr ↦ ?_⟩
      obtain ⟨r', hr', rfl⟩ := optionRel_some' (hmove.resources b) hr
      simpa [Cost.andThen] using hrel.inUse b r' hr'
    obtain ⟨rfl, rfl⟩ := hexact hres hheld
    simp [Cost.andThen, Audit.join]

theorem commandSigJob_path : Post (commandSigJob env c js) s fun _ s' ↦
    Path (JobMove env s (.sigJob js)) s.toCore s'.toCore := by
  refine .read (.keep checkPerm_ok fun _ _ ↦ .ite (fun _ ↦ .pure (refl _)) fun _ ↦ ?_)
  cases hfound : s.findJob js.jobid with
  | none => exact .pure (refl _)
  | some r =>
    refine .ite (fun _ ↦ .pure (refl _)) fun hdel ↦ .ite (fun hunknown ↦ ?_) fun _ ↦ ?_
    · refine .bind fun _ t hkill ↦ .answer fun _ ↦ ?_
      exact killUnknown_path hfound (by simpa using hdel) hunknown.1 hkill
    refine .ite (fun _ ↦ .pure (refl _)) fun _ ↦ .ite (fun _ ↦ .answer fun _ ↦ refl _) fun _ ↦ ?_
    refine .getQueue fun q _ ↦ ?_
    cases q.agent with
    | none => exact .stop _
    | some g => exact .bind fun _ t hmsg ↦ .answer fun _ ↦ of_eq (sendAgentMessage_toCore hmsg).symm

/-! ### Tags -/

theorem editTags_shift {f : List (Str × Option Str) → List (Str × Option Str)}
    (hj : s.jobTable.get? a = some j) (h : editTags c a f s = .ok (reply, s')) :
    Shift a j { j with tags := f j.tags, obj := j.obj.updated true } {} s.toCore s'.toCore := by
  obtain ⟨_, t, hmod, h₁⟩ := bind_ok_iff.mp h
  obtain ⟨_, u, hupd, h₂⟩ := bind_ok_iff.mp h₁
  obtain ⟨_, -, hsend⟩ := getJob_bind_ok h₂
  obtain rfl := sendClient_ok hsend
  have hedit := (Shift.refl hj).edits hmod rfl rfl
  have hboth := hedit.trans (updateJob_shift hedit.found' hupd) (.inl rfl)
  rwa [Cost.default_andThen] at hboth

theorem commandTag_path {cmd : Command} {check : Job → Bool} {code : ErrCode}
    {f : List (Str × Option Str) → List (Str × Option Str)}
    (hmove : ∀ {a j}, s.findJob jobid = some (a, j) → check j = true → JobMove env s cmd s.toCore
      (.shift a j { j with tags := f j.tags, obj := j.obj.updated true } {})) :
    Post (commandTag c jobid check code f) s fun _ s' ↦
      Path (JobMove env s cmd) s.toCore s'.toCore := by
  refine .read (.keep deniedPerm_ok fun _ _ ↦ .ite (fun _ ↦ .pure (refl _)) fun _ ↦ ?_)
  cases hfound : s.findJob jobid with
  | none => exact .pure (refl _)
  | some r =>
    refine .ite (fun _ ↦ .pure (refl _)) fun hcheck _ _ h ↦ ?_
    exact single (hmove hfound (by simpa using hcheck))
      (editTags_shift (Table.find?_some hfound).1 h)

end Jers
