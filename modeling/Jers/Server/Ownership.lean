import Jers.Server.Journal
import Jers.Server.Progress
import Jers.Server.Runs

/-!
# What recovery makes of a submitted job

`command_add_job` takes the user a job runs as from the message, and the submitter from the client.
The journal keeps the user id of the client only, and in recovery `command_add_job` takes both from
the record. A job that was submitted for another user comes back as a job of the submitter, and the
record of a job that root submitted makes the daemon read the client that is not there.
-/

namespace Jers

open Exec List Option Table Sample

/-! ### Jobs of two daemons -/

/-- A job without its addresses and without the bookkeeping of the daemon. -/
def Job.definition (j : Job) : Job :=
  { j with obj := {}, queue := 0, reqResources := [], history := {} }

/-- A requirement, with the name of the resource. -/
def Tables.needed (t : Tables) (h : JobResource) : Option Str × ℤ :=
  ((t.resTable.get? h.res).map Resource.name, h.needed)

/-- The name of the queue at an address. -/
def Tables.queueName (t : Tables) (b : Addr) : Option Str := (t.queueTable.get? b).map Queue.name

/-- The job `j'` of one daemon is the job `j` of another: they have the same user, submitter, state,
submit time and definition, and their queues and resources have the same names. -/
structure SameSubmission (t t' : Tables) (j j' : Job) : Prop where
  definition : j'.definition = j.definition
  queue : t'.queueName j'.queue = t.queueName j.queue
  resources : j'.reqResources.map t'.needed = j.reqResources.map t.needed

/-- The name of the queue that a new job goes to. -/
def Core.queueFor (c : Core) (name : Option Str) : Option Str :=
  match addJobQueue c none name with
  | .ok b => c.queueName b
  | .error _ => none

/-- The daemon `t` can take a request that the daemon `s` has taken: it knows the user and the
resources, and the job goes to a queue of the same name. -/
structure Retakes (env : Env) (s t : Core) (uid : ℕ) (ja : JobAdd) : Prop where
  user : (env.lookupUser uid).isSome
  found : (t.queueFor ja.queue).isSome
  queue : t.queueFor ja.queue = s.queueFor ja.queue
  resources : (convertResourceStrings t.toTables ja.resources).isSome

/-- The user a job runs as is the client, and not root. -/
def OwnJob (c : Client) (ja : JobAdd) : Prop := c.uid ≠ 0 ∧ (ja.uid = 0 ∨ ja.uid = c.uid)

/-! ### Names -/

variable {j : Job} {b a : Addr} {name : Option Str} {c : Client} {uid : ℕ} {rc : ℤ}

theorem Shift.queueName {j' : Job} {k : Cost} {c c' : Core} (h : Shift a j j' k c c') (b : Addr) :
    c'.queueName b = c.queueName b := by
  have hq := h.queues b
  unfold Tables.queueName
  revert hq
  generalize c.queueTable.get? b = x
  generalize c'.queueTable.get? b = y
  intro hq
  cases hq with
  | none => rfl
  | some hq => rw [map_some, map_some, hq.rest]

theorem Shift.needed {j' : Job} {k : Cost} {c c' : Core} (h : Shift a j j' k c c') :
    c'.needed = c.needed := by
  funext r
  have hr := h.resources r.res
  unfold Tables.needed
  revert hr
  generalize c.resTable.get? r.res = x
  generalize c'.resTable.get? r.res = y
  intro hr
  cases hr with
  | none => rfl
  | some hr => rw [map_some, map_some, hr]

/-- A requirement of a request, with its name, does not depend on the daemon. -/
theorem needed_of_resourceString {t u : Tables} {x : Str} {r r' : JobResource}
    (h : resourceStringToResource t x = some r) (h' : resourceStringToResource u x = some r') :
    u.needed r' = t.needed r := by
  obtain ⟨row, hrow, rfl⟩ := map_eq_some_iff.mp h
  obtain ⟨row', hrow', rfl⟩ := map_eq_some_iff.mp h'
  obtain ⟨hget, hname⟩ := Table.find?_some hrow
  obtain ⟨hget', hname'⟩ := Table.find?_some hrow'
  have hsame : row'.2.name = row.2.name := (eq_of_beq hname').trans (eq_of_beq hname).symm
  simp [Tables.needed, hget, hget', hsame]

theorem needed_of_convert {t u : Tables} {xs : List Str} {rs rs' : List JobResource}
    (h : convertResourceStrings t xs = some rs) (h' : convertResourceStrings u xs = some rs') :
    rs'.map u.needed = rs.map t.needed := by
  induction xs generalizing rs rs' with
  | nil =>
    obtain rfl := some.inj h
    obtain rfl := some.inj h'
    rfl
  | cons x xs ih =>
    rw [convertResourceStrings] at h h'
    split at h
    · next r rest hr hrest =>
      split at h'
      · next r' rest' hr' hrest' =>
        obtain rfl := some.inj h
        obtain rfl := some.inj h'
        rw [map_cons, map_cons, needed_of_resourceString hr hr', ih hrest hrest']
      · contradiction
    · contradiction

/-- The queue that is chosen does not depend on who is answered. -/
theorem addJobQueue_client {t : Core} {c : Option Client} :
    addJobQueue t c name = .ok b ↔ addJobQueue t none name = .ok b := by
  cases name with
  | none =>
    unfold addJobQueue
    cases t.defaultQueue with
    | none => simp
    | some b => exact Iff.rfl
  | some name =>
    simp only [addJobQueue]
    cases t.findQueue name with
    | none => simp
    | some r =>
      dsimp only
      split
      · simp
      · split
        · simp
        · exact Iff.rfl

theorem queueFor_eq {t : Core} (h : addJobQueue t none name = .ok b) :
    t.queueFor name = t.queueName b := by
  rw [Core.queueFor, h]

/-! ### The command of a client -/

section

variable {s s' : Server} {env : Env} {ja : JobAdd} {reply : Reply}

/-- **What an accepted `JOB_ADD` has found and done**: the user that the job runs as, the queue, the
resources, and the new job. -/
theorem commandAddJob_accepted (hrec : s.recovery = none)
    (h : commandAddJob env (some c) ja s = .ok (reply, s')) (hst : reply.status = 0) :
    reply.jobid ≠ 0 ∧ (ja.tags.all fun t ↦ isprintable t.1) = true ∧
      ∃ b reqs u v rc, addJobQueue s.toCore none ja.queue = .ok b ∧
        convertResourceStrings s.toTables ja.resources = some reqs ∧ RecyclePath s s u ∧
        addJob (newJob ja reply.jobid (if ja.uid ≠ 0 then ja.uid else c.uid) c.uid b env.now reqs)
          true u = .ok (rc, v) ∧ s'.toCore = v.toCore := by
  cases commandAddJob_post h with
  | refused hne => exact nomatch (hne hrec).symm.trans hst
  | @taken uid b _ _ huid _ hqueue hmade =>
    rw [hrec] at huid
    have huid : uid = if ja.uid ≠ 0 then ja.uid else c.uid := by
      have huid : addJobUid (some c) ja.uid = .ok uid := huid
      unfold addJobUid at huid
      split at huid
      · next hne => rw [if_pos hne, Except.ok.inj huid]
      · next hne => rw [if_neg hne, Except.ok.inj huid]
    cases hmade with
    | refused => exact nomatch hst
    | @added reqs _ _ _ rc _ u v _ htags hconv hclean hid _ _ hclient htime hadd hlast =>
      obtain ⟨rfl, rfl⟩ := hclient c rfl
      obtain rfl := htime hrec
      exact ⟨hid, htags, b, reqs, u, v, rc, addJobQueue_client.mp hqueue, hconv,
        hclean.recycle (.refl s), huid ▸ hadd, by rw [hlast]⟩

end

/-! ### The record in recovery -/

section

variable {t t' : Server} {env : Env} {r : Record} {ja : JobAdd}

/-- The second half of a replayed `JOB_ADD`. -/
theorem addJobOn_replay {reply : Reply} (hrec : t.recovery = some r.recovery) (hid : r.jobid ≠ 0)
    (hnone : t.findJob r.jobid = none) (htags : (ja.tags.all fun t ↦ isprintable t.1) = true) :
    addJobOn env none ja r.jobid uid b t = .ok (reply, t') ∧ reply.status = 0 ↔
      reply = { status := 0 } ∧ (env.lookupUser uid).isSome ∧ ∃ reqs rc,
        convertResourceStrings t.toTables ja.resources = some reqs ∧
        addJob (newJob ja r.jobid uid r.uid b r.time reqs) true t = .ok (rc, t') := by
  have hclaim : claimJobid r.jobid t = .ok (true, t) := by
    rw [claimJobid, if_neg hid]
    exact bind_ok_iff.mpr ⟨none, t, read_ok_iff.mpr ⟨hnone, rfl⟩, pure_ok_iff.mpr ⟨rfl, rfl⟩⟩
  have hpick : pickJobid r.jobid t = .ok (r.jobid, t) := by
    rw [pickJobid, if_neg hid]
    exact pure_ok_iff.mpr ⟨rfl, rfl⟩
  have hread : read (fun s : Server ↦ s.recovery) t = (.ok (some r.recovery, t) : Except Fault _) :=
    read_ok_iff.mpr ⟨hrec, rfl⟩
  constructor
  · rintro ⟨h, hst⟩
    have hfail {code : ErrCode} {text : Option String} {u : Server}
        (h : (pure (sendError none (-1) code text) : Daemon Reply) u = .ok (reply, t')) :
        False := by
      obtain ⟨rfl, -⟩ := pure_ok_iff.mp h
      contradiction
    obtain ⟨free, _, hc, h₁⟩ := bind_ok_iff.mp h
    obtain ⟨rfl, rfl⟩ := Prod.mk.inj (Except.ok.inj (hclaim.symm.trans hc))
    rw [if_neg (by simp)] at h₁
    split at h₁
    · exact (hfail h₁).elim
    next huser =>
    obtain ⟨converted, hconv, h₂⟩ := read_bind_ok_iff.mp h₁
    cases converted with
    | none => exact (hfail h₂).elim
    | some reqs =>
      dsimp only at h₂
      rw [if_neg (by simpa using htags)] at h₂
      obtain ⟨jobid, _, hp, h₃⟩ := bind_ok_iff.mp h₂
      obtain ⟨rfl, rfl⟩ := Prod.mk.inj (Except.ok.inj (hpick.symm.trans hp))
      rw [if_neg hid] at h₃
      obtain ⟨recovery, _, hr, h₄⟩ := bind_ok_iff.mp h₃
      obtain ⟨rfl, rfl⟩ := Prod.mk.inj (Except.ok.inj (hread.symm.trans hr))
      obtain ⟨rc, rfl, hadd⟩ := bind_pure_ok h₄
      exact ⟨rfl, by simpa [isSome_iff_ne_none] using huser, reqs, rc, hconv, hadd⟩
  · rintro ⟨rfl, huser, reqs, rc, hconv, hadd⟩
    refine ⟨bind_ok_iff.mpr ⟨true, t, hclaim, ?_⟩, rfl⟩
    rw [if_neg (by simp), if_neg (by simpa [isSome_iff_ne_none] using huser)]
    refine bind_ok_iff.mpr ⟨some reqs, t, read_ok_iff.mpr ⟨hconv, rfl⟩, ?_⟩
    dsimp only
    rw [if_neg (by simpa using htags)]
    refine bind_ok_iff.mpr ⟨r.jobid, t, hpick, ?_⟩
    rw [if_neg hid]
    exact bind_ok_iff.mpr ⟨_, t, hread, bind_ok_iff.mpr ⟨rc, t', hadd, pure_ok_iff.mpr ⟨rfl, rfl⟩⟩⟩

/-- **The replay of a `JOB_ADD` record** on a daemon that does not have the job: what it has found,
and the call of `addJob`. -/
theorem replayTransaction_addJob (hentry : r.entry = .command (.addJob ja)) (hid : r.jobid ≠ 0)
    (hnone : t.findJob r.jobid = none) (htags : (ja.tags.all fun t ↦ isprintable t.1) = true) :
    replayTransaction env r t = .ok ((), t') ↔ r.uid ≠ 0 ∧ (env.lookupUser r.uid).isSome ∧
      ∃ b reqs rc, addJobQueue t.toCore none ja.queue = .ok b ∧
        convertResourceStrings t.toTables ja.resources = some reqs ∧
        addJob (newJob ja r.jobid r.uid r.uid b r.time reqs) true (t.recovering r) = .ok (rc,
        t') := by
  have hfind : (t.recovering r).findJob r.jobid = none := hnone
  have hrec : (t.recovering r).recovery = some r.recovery := rfl
  have hdenied : deniedPerm none r.uid permSetuid (t.recovering r) = .ok (false, t.recovering r) :=
    rfl
  constructor
  · intro h
    obtain ⟨_, u, hupd, h₁⟩ := bind_ok_iff.mp h
    obtain rfl : u = t.recovering r := update_ok_iff.mp hupd
    rw [hentry] at h₁
    obtain ⟨reply, v, hrun, hret⟩ := bind_ok_iff.mp h₁
    have hst : reply.status = 0 ∧ v = t' := by
      split at hret
      · exact nomatch hret
      · next hst => exact ⟨by simpa using hst, (pure_ok_iff.mp hret).2⟩
    obtain ⟨hst, rfl⟩ := hst
    obtain ⟨_, rfl, h₂⟩ := read_bind_ok_iff.mp hrun
    obtain ⟨_, rfl, h₃⟩ := read_bind_ok_iff.mp h₂
    rw [hrec, if_neg (by simp [Record.recovery, hfind])] at h₃
    obtain ⟨uid, _, hl, h₄⟩ := bind_ok_iff.mp h₃
    obtain ⟨huid, rfl⟩ := lift_ok_iff.mp hl
    have huid : addJobUid none r.uid = .ok uid := huid
    by_cases hzero : r.uid = 0
    · rw [addJobUid, if_neg (not_not.mpr hzero)] at huid
      exact nomatch huid
    rw [addJobUid, if_pos hzero] at huid
    obtain rfl := Except.ok.inj huid
    rw [if_neg hzero] at h₄
    obtain ⟨denied, _, hd, h₅⟩ := bind_ok_iff.mp h₄
    obtain ⟨rfl, rfl⟩ := Prod.mk.inj (Except.ok.inj (hdenied.symm.trans hd))
    rw [if_neg (by simp)] at h₅
    obtain ⟨queue, hqueue, h₆⟩ := read_bind_ok_iff.mp h₅
    cases queue with
    | error e =>
      obtain ⟨rfl, -⟩ := pure_ok_iff.mp h₆
      exact nomatch (addJobQueue_refused hqueue).symm.trans hst
    | ok b =>
      obtain ⟨-, huser, reqs, rc, hconv, hadd⟩ :=
        (addJobOn_replay hrec hid hfind htags).mp ⟨h₆, hst⟩
      exact ⟨hzero, huser, b, reqs, rc, hqueue, hconv, hadd⟩
  · rintro ⟨hzero, huser, b, reqs, rc, hqueue, hconv, hadd⟩
    have hon : addJobOn env none ja r.jobid r.uid b (t.recovering r) = .ok ({ status := 0 }, t') :=
      ((addJobOn_replay hrec hid hfind htags).mpr ⟨rfl, huser, reqs, rc, hconv, hadd⟩).1
    have hcommand : commandAddJob env none ja (t.recovering r) = .ok ({ status := 0 }, t') := by
      refine bind_ok_iff.mpr ⟨_, _, read_ok_iff.mpr ⟨rfl, rfl⟩, ?_⟩
      refine bind_ok_iff.mpr ⟨_, _, read_ok_iff.mpr ⟨rfl, rfl⟩, ?_⟩
      rw [hrec, if_neg (by simp [Record.recovery, hfind])]
      have huid : addJobUid none r.uid = .ok r.uid := by rw [addJobUid, if_pos hzero]
      refine bind_ok_iff.mpr ⟨r.uid, _, lift_ok_iff.mpr ⟨huid, rfl⟩, ?_⟩
      rw [if_neg hzero]
      refine bind_ok_iff.mpr ⟨false, _, hdenied, ?_⟩
      rw [if_neg (by simp)]
      exact bind_ok_iff.mpr ⟨.ok b, _, read_ok_iff.mpr ⟨hqueue, rfl⟩, hon⟩
    refine bind_ok_iff.mpr ⟨(), t.recovering r, update_ok_iff.mpr rfl, ?_⟩
    rw [hentry]
    exact bind_ok_iff.mpr ⟨{ status := 0 }, t', hcommand, pure_ok_iff.mpr ⟨rfl, rfl⟩⟩

end

/-! ### The two jobs -/

section

variable {s s' : Server}

/-- **A new job**, from the call of `addJob`: where it is, how it is found, and what the call leaves
of the names. -/
theorem addJob_new {dirty : Bool} (h : addJob j dirty s = .ok (rc, s'))
    (hnone : s.findJob j.jobid = none) : ∃ j', s'.jobTable.get? s.jobTable.next = some j' ∧
      s'.findJob j.jobid = some (s.jobTable.next, j') ∧
      (∀ a, a ≠ s.jobTable.next → s'.jobTable.get? a = s.jobTable.get? a) ∧
      j'.definition = j.definition ∧ j'.queue = j.queue ∧ j'.reqResources = j.reqResources ∧
      s'.queueName = s.queueName ∧ s'.needed = s.needed := by
  obtain ⟨-, hsome, -⟩ | ⟨-, -, f, hmove, -⟩ := addJob_ok h
  · exact absurd hnone hsome
  · have hmove : Shift s.jobTable.next _ _ _
        { s.toCore with jobTable := s.jobTable.push { j with state := .cleared } } s'.toCore :=
        hmove
    have hjobs : s'.jobTable = (s.jobTable.push { j with state := .cleared }).modify s.jobTable.next
        fun _ ↦ { j with state := .cleared }.changed j.state none dirty := hmove.jobs
    refine ⟨_, hmove.found', ?_, fun a ha ↦ ?_, rfl, rfl, rfl, funext hmove.queueName, hmove.needed⟩
    · have hrow :
          (s.jobTable.push { j with state := .cleared }).find? (fun i ↦ i.jobid == j.jobid) =
          some (s.jobTable.next, { j with state := .cleared }) := by
        rw [find?_push, show s.jobTable.find? (fun i ↦ i.jobid == j.jobid) = none from hnone]
        simp
      have hsame : (({ j with state := .cleared }.changed j.state none dirty).jobid == j.jobid) =
          (j.jobid == j.jobid) := rfl
      rw [Tables.findJob, hjobs, find?_modify (p := fun i ↦ i.jobid == j.jobid) hmove.found hsame,
        hrow]
      simp
    · rw [hmove.get?_of_ne ha]
      exact (get?_push _ _ _).trans (if_neg ha)

/-- The queue of a new job is there. -/
theorem addJob_queue {dirty : Bool} (h : addJob j dirty s = .ok (rc, s'))
    (hnone : s.findJob j.jobid = none) (hst : j.state ≠ .cleared) :
    (s.queueName j.queue).isSome := by
  obtain ⟨_, rfl, h₁⟩ := read_bind_ok_iff.mp h
  rw [hnone] at h₁
  obtain ⟨_, rfl, h₂⟩ := read_bind_ok_iff.mp h₁
  obtain ⟨_, t, hupd, h₃⟩ := bind_ok_iff.mp h₂
  obtain ⟨_, u, hdefer, h₄⟩ := bind_ok_iff.mp h₃
  obtain ⟨_, v, hchange, -⟩ := bind_ok_iff.mp h₄
  have ht := update_ok_iff.mp hupd
  have hget : t.jobTable.get? s.jobTable.next = some { j with state := .cleared } := by
    rw [ht]
    exact (get?_push _ _ _).trans (if_pos rfl)
  obtain ⟨f, hlist, -⟩ := whenever_addDeferred_shift hget hdefer
  -- the state changes from 0, so that the job is counted on its queue
  have hq := changeJobState_present hchange hlist.found' hst (Ne.symm hst)
  obtain ⟨q, hq⟩ := isSome_iff_exists.mp hq
  have hname : u.queueName j.queue = s.queueName j.queue := by
    rw [hlist.queueName j.queue, ht]
    rfl
  rw [← hname, Tables.queueName, hq]
  rfl

theorem newJob_state_ne (ja : JobAdd) (jobid uid submitter : ℕ) (b : Addr) (time : ℤ)
    (reqs : List JobResource) : (newJob ja jobid uid submitter b time reqs).state ≠ .cleared := by
  unfold newJob
  dsimp only
  split_ifs <;> exact nofun

/-- Two jobs of one request. -/
theorem definition_newJob_eq_iff {ja : JobAdd} {jobid uid' submitter submitter' : ℕ} {b' : Addr}
    {time time' : ℤ} {reqs reqs' : List JobResource} :
    (newJob ja jobid uid submitter b time reqs).definition =
        (newJob ja jobid uid' submitter' b' time' reqs').definition ↔
      uid = uid' ∧ submitter = submitter' ∧ time = time' ∧ reqs.length = reqs'.length := by
  simp only [Job.definition, newJob, Job.mk.injEq, true_and, and_true, Int.natCast_inj]

/-- The job at `a`, which has come into the table, is the one that `addJob` has added. -/
theorem addJob_created {u : Server} {i : Job} (hu : Thinned s u.toCore)
    (h : addJob i true u = .ok (rc, s')) (hold : s.jobTable.get? a = none)
    (hj : s'.jobTable.get? a = some j) :
    u.findJob i.jobid = none ∧ j.definition = i.definition ∧ j.queue = i.queue ∧
      j.reqResources = i.reqResources ∧ s'.queueName = s.queueName ∧ s'.needed = s.needed := by
  have hgone (hj : u.jobTable.get? a = some j) : False :=
    absurd (hold.symm.trans (hu.jobs a j hj)) nofun
  obtain ⟨-, -, rfl⟩ | ⟨-, hnone, -⟩ := addJob_ok h
  · exact (hgone hj).elim
  · obtain ⟨j', hj', -, hother, hdef, hqueue, hreqs, hname, hneeded⟩ := addJob_new h hnone
    by_cases ha : a = u.jobTable.next
    · subst ha
      obtain rfl := mem_unique hj' hj
      refine ⟨hnone, hdef, hqueue, hreqs, ?_, ?_⟩
      · rw [hname]
        unfold Tables.queueName
        rw [hu.queueTable]
      · rw [hneeded]
        unfold Tables.needed
        rw [hu.resTable]
    · exact (hgone ((hother a ha).symm.trans hj)).elim

end

/-- A `JOB_ADD` of a client is accepted: it creates the job `j`, and the record `r` is written. -/
structure Submitted (env : Env) (c : Client) (ja : JobAdd) (time : ℤ) (s s' : Server) (j : Job)
    (r : Record) : Prop where
  recovery : s.recovery = none
  ran : ∃ reply, runCommand env c (.addJob ja) s = .ok (reply, s') ∧
    journalCommand time c (.addJob ja) reply = some r
  new : ∃ a, s.jobTable.get? a = none ∧ s'.jobTable.get? a = some j

/-- **Which submitted jobs recovery brings back.** The record of an accepted `JOB_ADD` is replayed
on a daemon that does not have the job. The replay creates the same job exactly when the job runs as
the client, who is not root, the record was written in the second of the submission, and the daemon
can take the request. -/
theorem replay_addJob_iff {env env' : Env} {c : Client} {ja : JobAdd} {time : ℤ} {s s' t : Server}
    {j : Job} {r : Record} (h : Submitted env c ja time s s' j r)
    (hnone : t.findJob j.jobid = none) :
      (∃ t' a' j', replayTransaction env' r t = .ok ((), t') ∧ t'.findJob j.jobid = some (a', j') ∧
      SameSubmission s'.toTables t'.toTables j j') ↔
    OwnJob c ja ∧ time = env.now ∧ Retakes env' s.toCore t.toCore c.uid ja := by
  obtain ⟨hrec, ⟨reply, h, hr⟩, a, hold, hj⟩ := h
  obtain ⟨hst, rfl⟩ :
    reply.status = 0 ∧ _ = r := by simpa [journalCommand, Command.isUpdate] using hr
  obtain ⟨c', hvalid, hrun⟩ := runCommand_ran h hst
  obtain ⟨hid, htags, b, reqs, u, v, rc, hqueue, hconv, hu, hadd, hcore⟩ :=
    commandAddJob_accepted hrec hrun hst
  rw [validateUserAction_uid hvalid] at hadd
  rw [hcore] at hj ⊢
  obtain ⟨hfree, hdef, rfl, rfl, hname, hneeded⟩ :=
    addJob_created (hu.thinned (.refl s)) hadd hold hj
  have hjobid : j.jobid = reply.jobid := congrArg Job.jobid hdef
  rw [hjobid] at hnone ⊢
  constructor
  · rintro ⟨t', a', j', hreplay, hfound, hsame⟩
    obtain ⟨huid, huser, b', reqs', rc', hqueue', hconv', hadd'⟩ :=
      (replayTransaction_addJob rfl hid hnone htags).mp hreplay
    obtain ⟨j'', -, hfound', -, hdef', rfl, rfl, hname', -⟩ := addJob_new hadd' hnone
    obtain ⟨-, rfl⟩ := Prod.mk.inj (mem_unique hfound' hfound)
    obtain ⟨hsubmit, -, htime, -⟩ :=
      definition_newJob_eq_iff.mp ((hdef'.symm.trans hsame.definition).trans hdef)
    have hthere := addJob_queue hadd' hnone (newJob_state_ne _ _ _ _ _ _ _)
    refine ⟨⟨huid, ?_⟩, htime, huser, ?_, ?_, by rw [hconv']; rfl⟩
    · by_cases hzero : ja.uid = 0
      · exact .inl hzero
      · rw [if_pos hzero] at hsubmit
        exact .inr hsubmit.symm
    · rw [queueFor_eq hqueue']
      exact hthere
    · rw [queueFor_eq hqueue', queueFor_eq hqueue]
      calc t.queueName j''.queue = t'.queueName j''.queue := (congrFun hname' _).symm
        _ = v.queueName j.queue := hsame.queue
        _ = s.queueName j.queue := congrFun hname _
  · rintro ⟨⟨huid, hown⟩, rfl, hretakes⟩
    have hsubmit : (if ja.uid ≠ 0 then ja.uid else c.uid) = c.uid := by
      rcases hown with hzero | hsame
      · rw [if_neg (not_not.mpr hzero)]
      · rw [hsame, ite_self]
    obtain ⟨reqs', hconv'⟩ := isSome_iff_exists.mp hretakes.resources
    obtain ⟨b', hqueue'⟩ : ∃ b', addJobQueue t.toCore none ja.queue = .ok b' := by
      have hfound := hretakes.found
      unfold Core.queueFor at hfound
      split at hfound
      · next b' hb' => exact ⟨b', hb'⟩
      · exact nomatch hfound
    have hthere := hretakes.found
    rw [queueFor_eq hqueue', Tables.queueName, isSome_map] at hthere
    -- the daemon can take the request, so that the replay gets through
    obtain ⟨rc', t', hadd'⟩ := addJob_succeeds
      (s := t.recovering ⟨env.now, c.uid, .command (.addJob ja), reply.jobid, reply.revision⟩)
      (j := newJob ja reply.jobid c.uid c.uid b' env.now reqs') hnone hthere true
    obtain ⟨j', -, hfound, -, hdef', hb', hreqs', hname', hneeded'⟩ := addJob_new hadd' hnone
    refine ⟨t', _, j', (replayTransaction_addJob rfl hid hnone htags).mpr
      ⟨huid, hretakes.user, b', reqs', rc', hqueue', hconv', hadd'⟩, hfound, ?_, ?_, ?_⟩
    · have hlength := congrArg List.length (needed_of_convert hconv hconv')
      rw [length_map, length_map] at hlength
      rw [hdef', hdef]
      exact definition_newJob_eq_iff.mpr ⟨hsubmit.symm, rfl, rfl, hlength⟩
    · rw [hname', hname, hb']
      have hqueues := hretakes.queue
      rw [queueFor_eq hqueue', queueFor_eq hqueue] at hqueues
      exact hqueues
    · rw [hneeded', hneeded, hreqs']
      exact needed_of_convert hconv hconv'

/-! ### Submissions on fixed inputs -/

/-- Submit a job and write the record; the new job is looked up at the next address. -/
def submit (env : Env) (c : Client) (ja : JobAdd) (s : Server) :
    Option (Server × Job × Record) := do
  let (reply, s') ← (runCommand env c (.addJob ja) s).toOption
  let r ← journalCommand env.now c (.addJob ja) reply
  let j ← s'.jobTable.get? s.jobTable.next
  return (s', j, r)

theorem submitted_of_submit {env : Env} {ja : JobAdd} {s s' : Server} {r : Record}
    (hrec : s.recovery = none) (h : submit env c ja s = some (s', j, r)) :
    Submitted env c ja env.now s s' j r := by
  obtain ⟨⟨reply, u⟩, hrun, h₁⟩ := bind_eq_some_iff.mp h
  obtain ⟨r', hr, h₂⟩ := bind_eq_some_iff.mp h₁
  obtain ⟨j', hj, h₃⟩ := bind_eq_some_iff.mp h₂
  obtain ⟨rfl, rfl, rfl⟩ : u = s' ∧ j' = j ∧ r' = r := by simpa using h₃
  refine ⟨hrec, ⟨reply, ?_, hr⟩, _, ?_, hj⟩
  · revert hrun
    cases runCommand env c (.addJob ja) s with
    | error e => exact nofun
    | ok x => exact fun hx ↦ congrArg _ (some.inj hx)
  · by_contra hsome
    obtain ⟨i, hi⟩ := ne_none_iff_exists'.mp hsome
    exact absurd (lt_next hi) (lt_irrefl _)

namespace Sample

/-- Every user may submit jobs for others. -/
def setuidEnv : Env :=
  { env with lookupUser := fun _ ↦ some { permissions := permSetuid, groupList := [] } }

def user : Client := { uid := 5 }

/-- A daemon with one queue. -/
def withQueue : Option Server :=
  runEvents anyEvent (events [.client root addQueue]) (Server.initial config hosts)

def jobFor (uid : ℕ) : JobAdd := { queue := some "q".toList, uid, argv := ["x".toList] }

/-- A job is submitted by a user, and its record is replayed by the daemon as it was before. -/
def submitAndReplay (ja : JobAdd) (p : Server → Job → Server → Bool) : Bool :=
  withQueue.any fun s ↦ s.recovery = none && (submit setuidEnv user ja s).any fun x ↦
    s.findJob x.2.1.jobid = none && match replayTransaction setuidEnv x.2.2 s with
      | .ok y => p s x.2.1 y.2
      | .error _ => false

theorem exists_replay (ja : JobAdd) (p : Server → Job → Server → Bool)
    (h : submitAndReplay ja p = true) : ∃ s s' t' j r, Runs anyEvent config hosts s ∧
      Submitted setuidEnv user ja setuidEnv.now s s' j r ∧ s.findJob j.jobid = none ∧
      replayTransaction setuidEnv r s = .ok ((), t') ∧ p s j t' = true := by
  obtain ⟨s, hs, h₁⟩ := Option.any_eq_true _ _ |>.mp h
  obtain ⟨hrec, h₂⟩ := Bool.and_eq_true_iff.mp h₁
  obtain ⟨⟨s', j, r⟩, hsubmit, h₃⟩ := Option.any_eq_true _ _ |>.mp h₂
  obtain ⟨hnone, h₄⟩ := Bool.and_eq_true_iff.mp h₃
  dsimp only at h₄
  split at h₄
  · next y hy =>
    exact ⟨s, s', y.2, j, r, run_of_runEvents hs, submitted_of_submit (by simpa using hrec) hsubmit,
      by simpa using hnone, hy, h₄⟩
  · exact nomatch h₄

end Sample

/-- A job that a user submits for another user comes back as a job of the submitter. -/
theorem exists_replay_other_uid : ∃ s s' j r, Runs anyEvent config hosts s ∧
    Submitted setuidEnv user (jobFor 7) setuidEnv.now s s' j r ∧
    s.findJob j.jobid = none ∧
    ¬ ∃ t' a' j', replayTransaction setuidEnv r s = .ok ((), t') ∧
      t'.findJob j.jobid = some (a', j') ∧ SameSubmission s'.toTables t'.toTables j j' := by
  obtain ⟨s, s', t', j, r, hruns, hsubmitted, hnone, hreplay, hp⟩ := exists_replay
    (jobFor 7) (fun _ j t' ↦ j.uid = 7 && (t'.findJob j.jobid).any fun x ↦ x.2.uid = 5)
    (by decide +kernel)
  refine ⟨s, s', j, r, hruns, hsubmitted, hnone, ?_⟩
  rintro ⟨t'', a', j', hreplay', hfound, hsame⟩
  obtain ⟨-, rfl⟩ := Prod.mk.inj (Except.ok.inj (hreplay.symm.trans hreplay'))
  have huid : j.uid = 7 ∧ j'.uid = 5 := by simpa [hfound] using hp
  have heq : j'.definition.uid = j.definition.uid := congrArg Job.uid hsame.definition
  have heq : j'.uid = j.uid := heq
  omega

/-- A job that a user submits for themselves comes back. -/
theorem replay_addJob_iff_own : ∃ s s' j r t' a' j',
    (Submitted setuidEnv user (jobFor 5) setuidEnv.now s s' j r ∧
      s.findJob j.jobid = none) ∧ replayTransaction setuidEnv r s = .ok ((), t') ∧
      t'.findJob j.jobid = some (a', j') ∧ SameSubmission s'.toTables t'.toTables j j' := by
  obtain ⟨s, s', t, j, r, -, hsubmitted, hnone, -, hp⟩ := exists_replay
    (jobFor 5) (fun s _ _ ↦ (s.queueFor (jobFor 5).queue).isSome) (by decide +kernel)
  have hretakes : Retakes setuidEnv s.toCore s.toCore 5 (jobFor 5) := ⟨rfl, hp, rfl, rfl⟩
  obtain ⟨t', a', j', hall⟩ := (replay_addJob_iff hsubmitted hnone).mpr
    ⟨⟨by decide, .inr rfl⟩, rfl, hretakes⟩
  exact ⟨s, s', j, r, t', a', j', ⟨hsubmitted, hnone⟩, hall⟩

end Jers
