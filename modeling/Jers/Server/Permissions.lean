import Jers.Server.Connection

/-!
# What a user may do to the jobs of others

The commands on jobs ask for no permission in the table of commands, since users may change their
own jobs. Each of them calls `check_perm` with the user of the job, or with user 0 if there is no
such job, and `command_add_job` calls it with the user that the new job is to run as.

A command leaves a job alone if it is another one that the command names (`CommandMove.keeps`); a
command that names a job of another user is refused (`Command.run_denied`).
-/

namespace Jers

open Exec Option Table Sample

/-- The user of the client does not have the permission. -/
def Lacks (env : Env) (c : Client) (perm : ℕ) : Prop :=
  ∀ u, env.lookupUser c.uid = some u → hasBits u.permissions perm = false

/-- The id of the job that a command is about. -/
def Command.names : Command → Option ℕ
  | .modJob mj => some mj.jobid
  | .delJob jobid => some jobid
  | .sigJob js => some js.jobid
  | .setTag jobid _ _ => some jobid
  | .delTag jobid _ => some jobid
  | _ => none

/-- The user that `check_perm` is called with. -/
def Tables.ownerOf (t : Tables) (jobid : ℕ) : ℕ := ((t.findJob jobid).map fun r ↦ r.2.uid).getD 0

/-! ### Refusals -/

section

variable {env : Env} {s s' : Server} {c : Client} {u : User} {uid required : ℕ} {reply : Reply}

theorem checkPerm_denied (hroot : c.uid ≠ 0) (huser : c.user = some u) (hother : c.uid ≠ uid)
    (hlack : hasBits u.permissions required = false) :
    checkPerm (some c) uid required s = .ok (true, s) := by
  have hperms : userPermissions c = .ok u.permissions := by
    rw [userPermissions, huser]
  simp only [checkPerm, if_neg hroot, if_neg hother, hperms]
  exact bind_ok_iff.mpr ⟨_, _, lift_ok_iff.mpr ⟨rfl, rfl⟩, pure_ok_iff.mpr ⟨by simp [hlack], rfl⟩⟩

theorem deniedPerm_denied (hrec : s.recovery = none) (hroot : c.uid ≠ 0) (huser : c.user = some u)
    (hother : c.uid ≠ uid) (hlack : hasBits u.permissions required = false) :
    deniedPerm (some c) uid required s = .ok (true, s) := by
  refine bind_ok_iff.mpr ⟨none, s, read_ok_iff.mpr ⟨hrec, rfl⟩, ?_⟩
  exact checkPerm_denied hroot huser hother hlack

/-- The rest of a command that is refused. -/
theorem of_denied {f : Bool → Daemon Reply} {p : Daemon Bool} (hp : p s = .ok (true, s))
    (h : (p >>= f) s = .ok (reply, s')) : f true s = .ok (reply, s') := by
  obtain ⟨denied, t, hd, h₁⟩ := bind_ok_iff.mp h
  obtain ⟨rfl, rfl⟩ := Prod.mk.inj (Except.ok.inj (hd.symm.trans hp))
  exact h₁

/-- A user may ask whether a job runs, and that changes nothing. -/
theorem commandSigJob_zero {js : JobSig} {cl : Option Client} (hzero : js.signum = 0) :
    Post (commandSigJob env cl js) s fun _ s' ↦ s = s' := by
  refine .read (.keep checkPerm_ok fun _ _ ↦ .ite (fun _ ↦ .pure rfl) fun _ ↦ ?_)
  cases s.findJob js.jobid with
  | none => exact .pure rfl
  | some r =>
    refine .ite (fun _ ↦ .pure rfl) fun _ ↦ .ite (fun h ↦ absurd hzero h.2) fun _ ↦ ?_
    exact .ite (fun _ ↦ .pure rfl) fun _ ↦ .ite (fun _ ↦ .answer fun _ ↦ rfl) fun h ↦ absurd hzero h

/-- **A command that names a job of another user is refused.** -/
theorem Command.run_denied {cmd : Command} {jobid : ℕ} (hrec : s.recovery = none)
    (hroot : c.uid ≠ 0) (huser : c.user = some u) (hlack : hasBits u.permissions permWrite = false)
    (hnames : cmd.names = some jobid) (hother : c.uid ≠ s.ownerOf jobid)
    (h : cmd.run env (some c) s = .ok (reply, s')) : s = s' := by
  have hdenied := deniedPerm_denied hrec hroot huser hother hlack
  cases cmd with
  | modJob mj =>
    obtain rfl := some.inj hnames
    simp only [Command.run, commandModJob] at h
    split at h
    · exact (pure_ok_iff.mp h).2
    obtain ⟨_, rfl, h₁⟩ := read_bind_ok_iff.mp h
    obtain ⟨_, -, h₂⟩ := read_bind_ok_iff.mp h₁
    exact (pure_ok_iff.mp (of_denied hdenied h₂)).2
  | delJob id =>
    obtain rfl := some.inj hnames
    obtain ⟨_, rfl, h₁⟩ := read_bind_ok_iff.mp h
    obtain ⟨_, -, h₂⟩ := read_bind_ok_iff.mp h₁
    exact (pure_ok_iff.mp (of_denied hdenied h₂)).2
  | sigJob js =>
    obtain rfl := some.inj hnames
    by_cases hzero : js.signum = 0
    · exact commandSigJob_zero hzero h
    · obtain ⟨_, rfl, h₁⟩ := read_bind_ok_iff.mp h
      rw [if_neg hzero] at h₁
      exact (pure_ok_iff.mp (of_denied (checkPerm_denied hroot huser hother hlack) h₁)).2
  | setTag id key value | delTag id key =>
    obtain rfl := some.inj hnames
    obtain ⟨_, rfl, h₁⟩ := read_bind_ok_iff.mp h
    exact (pure_ok_iff.mp (of_denied hdenied h₁)).2
  | _ => contradiction

/-- **A new job runs as the client** if the client may not choose. -/
theorem commandAddJob_adds {ja : JobAdd} (hrec : s.recovery = none) (hroot : c.uid ≠ 0)
    (huser : c.user = some u) (hlack : hasBits u.permissions permSetuid = false)
    (h : commandAddJob env (some c) ja s = .ok (reply, s')) :
    Path (fun d l ↦ JobMove env s (.addJob ja) d l ∧ l.AddsFor c.uid) s.toCore s'.toCore := by
  cases commandAddJob_post h with
  | refused => exact Path.refl _
  | @taken uid _ _ _ _ hperm hqueue hmade =>
    by_cases hown : c.uid = uid
    · exact (hmade.path (addJobQueue_ok hqueue) (wanted_eq ja)).mono fun _ _ hl ↦
        ⟨hl.1, hown ▸ hl.2⟩
    · exact nomatch hperm.symm.trans (deniedPerm_denied hrec hroot huser hown hlack)

end

/-! ### What a command leaves alone -/

variable {a : Addr} {j : Job}

section

variable {env : Env} {s : Server} {cmd : Command} {c c' : Core} {l : Label} {b : Addr} {i : Job}

theorem QueueMove.onJobs (h : QueueMove env s cmd c l) : l.onJobs = false := by
  cases h <;> rfl

theorem ResMove.onJobs (h : ResMove s cmd c l) : l.onJobs = false := by
  cases h <;> rfl

theorem Move.keeps_shifted {j' : Job} {k : Cost} (hm : Move (.shift a j j' k) c c') (hb : b ≠ a)
    (hc : c.jobTable.get? b = some i) : c'.jobTable.get? b = some i :=
  (Shift.get?_of_ne hm hb).trans hc

/-- **A command leaves a job alone** that is not deleted and that it does not name. -/
theorem CommandMove.keeps (hl : CommandMove env s cmd c l) (hm : Move l c c')
    (hi : s.jobTable.get? b = some i) (hlive : i.internalState.deleted = false)
    (hnot : ∀ jobid j, cmd.names = some jobid → s.findJob jobid ≠ some (b, j))
    (hc : c.jobTable.get? b = some i) : c'.jobTable.get? b = some i := by
  rcases hl with hl | hl | hl
  · cases hl with
    | @recycle _ _ a j hj hrem =>
      have hb : b ≠ a := by
        rintro rfl
        obtain rfl := mem_unique hi hj
        exact nomatch hrem.1.symm.trans hlive
      rw [hm.2]
      exact (get?_erase _ _ _).trans ((if_neg hb).trans hc)
    | submit =>
      have hb : b ≠ c.jobTable.next := (lt_next hc).ne
      refine (Shift.get?_of_ne hm hb).trans ?_
      exact (get?_push _ _ _).trans ((if_neg hb).trans hc)
    | modify hfound | delete hfound | kill hfound | setTag hfound | delTag hfound =>
      refine hm.keeps_shifted ?_ hc
      rintro rfl
      exact hnot _ _ rfl hfound
  · rw [(hm.same_jobs hl.onJobs).1]
    exact hc
  · rw [(hm.same_jobs hl.onJobs).1]
    exact hc

/-- The jobs that are not among the jobs of `s` keep the user. -/
theorem CommandMove.added {uid : ℕ} (hl : CommandMove env s cmd c l) (hadds : l.AddsFor uid)
    (hm : Move l c c')
    (hc : ∀ a j, c.jobTable.get? a = some j → s.jobTable.get? a = none → j.uid = uid) :
    ∀ a j, c'.jobTable.get? a = some j → s.jobTable.get? a = none → j.uid = uid := by
  refine hm.jobs_all (P := fun a j ↦ s.jobTable.get? a = none → j.uid = uid) hc
    (fun a j j' k hshift _ hnew ↦ ?_) fun j j' k hadd _ ↦ ?_
  · subst hshift
    rcases hl with hl | hl | hl
    · cases hl with
      | modify hfound | delete hfound | kill hfound | setTag hfound | delTag hfound =>
        exact nomatch (Table.find?_some hfound).1.symm.trans hnew
    · exact nomatch hl.onJobs
    · exact nomatch hl.onJobs
  · subst hadd
    exact hadds

end

/-! ### Commands of a user -/

section

variable {env : Env} {s s' : Server} {c c' : Client} {cmd : Command} {reply : Reply}

theorem Command.run_adds {u : User} (hrec : s.recovery = none) (hroot : c.uid ≠ 0)
    (huser : c.user = some u) (hlack : hasBits u.permissions permSetuid = false)
    (h : cmd.run env (some c) s = .ok (reply, s')) :
    Path (fun d l ↦ CommandMove env s cmd d l ∧ l.AddsFor c.uid) s.toCore s'.toCore := by
  cases cmd with
  | addJob ja =>
    exact (commandAddJob_adds hrec hroot huser hlack h).mono fun _ _ hl ↦ ⟨.inl hl.1, hl.2⟩
  | _ =>
    refine (Command.run_path h).mono fun d l hl ↦ ⟨hl, ?_⟩
    -- the other commands add no job
    rcases hl with hl | hl | hl <;> cases hl <;> trivial

/-- The client of a command that is run is the client with its user. -/
theorem validateUserAction_user {required : ℕ} (hroot : c.uid ≠ 0)
    (h : validateUserAction env c required = some c') :
    c'.uid = c.uid ∧ ∃ u, env.lookupUser c.uid = some u ∧ c'.user = some u := by
  rw [validateUserAction, if_neg hroot] at h
  split at h
  · exact nomatch h
  · next u hu =>
    split at h
    · obtain rfl := some.inj h
      exact ⟨rfl, u, hu, rfl⟩
    · exact nomatch h

/-- **`runCommand` leaves the jobs of other users alone**, for a user who may not write. -/
theorem runCommand_keeps (hrec : s.recovery = none) (hroot : c.uid ≠ 0)
    (hlack : Lacks env c permWrite) (h : runCommand env c cmd s = .ok (reply, s'))
    (hj : s.jobTable.get? a = some j) (hlive : j.internalState.deleted = false)
    (hother : j.uid ≠ c.uid) : s'.jobTable.get? a = some j := by
  obtain ⟨rfl, -⟩ | ⟨c', hvalid, -, hrun⟩ := runCommand_checked h
  · exact hj
  obtain ⟨huid, u, hlookup, huser⟩ := validateUserAction_user hroot hvalid
  by_cases hnames : ∃ jobid i, cmd.names = some jobid ∧ s.findJob jobid = some (a, i)
  · obtain ⟨jobid, i, hname, hfound⟩ := hnames
    obtain rfl := some.inj (hj.symm.trans (Table.find?_some hfound).1)
    have howner : s.ownerOf jobid = j.uid := by
      rw [Tables.ownerOf, hfound]
      rfl
    obtain rfl := Command.run_denied hrec (huid ▸ hroot) huser (hlack u hlookup) hname
      (by rw [huid, howner]; exact hother.symm) hrun
    exact hj
  · refine (Command.run_path hrun).invariant (I := fun d ↦ d.jobTable.get? a = some j)
      (fun hc hl hm ↦ CommandMove.keeps hl hm hj hlive (fun jobid i hname hfound ↦ ?_) hc) hj
    exact hnames ⟨jobid, i, hname, hfound⟩

/-- **`runCommand` adds jobs of the client only**, for a user who may not choose. -/
theorem runCommand_adds (hrec : s.recovery = none) (hroot : c.uid ≠ 0)
    (hlack : Lacks env c permSetuid) (h : runCommand env c cmd s = .ok (reply, s'))
    (hj : s'.jobTable.get? a = some j) (hnew : s.jobTable.get? a = none) : j.uid = c.uid := by
  obtain ⟨rfl, -⟩ | ⟨c', hvalid, -, hrun⟩ := runCommand_checked h
  · exact nomatch hj.symm.trans hnew
  obtain ⟨huid, u, hlookup, huser⟩ := validateUserAction_user hroot hvalid
  have hpath := Command.run_adds hrec (huid ▸ hroot) huser (hlack u hlookup) hrun
  have hall := hpath.invariant
    (I := fun d ↦ ∀ a j, d.jobTable.get? a = some j → s.jobTable.get? a = none → j.uid = c'.uid)
    (fun hc hl hm ↦ CommandMove.added hl.1 hl.2 hm hc)
    fun a j hj hnew ↦ nomatch hj.symm.trans hnew
  exact (hall a j hj hnew).trans huid

end

/-- What a request may change and add, for a user. -/
structure OwnJobsOnly (env : Env) (c : Client) (s s' : Server) : Prop where
  keeps : Lacks env c permWrite → ∀ a j, s.jobTable.get? a = some j →
    j.internalState.deleted = false → j.uid ≠ c.uid → s'.jobTable.get? a = some j
  adds : Lacks env c permSetuid → ∀ a j, s'.jobTable.get? a = some j →
    s.jobTable.get? a = none → j.uid = c.uid

/-- **Users cannot touch the jobs of others.** Clients are served when the recovery is over. -/
theorem ownJobsOnly_of_request {env : Env} {ms : ℤ} {l l' : Link} {r : Request}
    (hrec : l.server.recovery = none) (hroot : l.conn.client.uid ≠ 0)
    (h : processRequest env ms l r = .ok l') :
    OwnJobsOnly env l.conn.client l.server l'.server := by
  have hsame (hs : l.server = l'.server) : OwnJobsOnly env l.conn.client l.server l'.server :=
    ⟨fun _ a j hj _ _ ↦ hs ▸ hj, fun _ a j hj hnew ↦ nomatch (hs ▸ hj).symm.trans hnew⟩
  cases r with
  | bad | unknown =>
    obtain rfl := Except.ok.inj h
    exact hsame rfl
  | run cmd =>
    obtain ⟨⟨reply, s'⟩, hrun, rfl⟩ := Except.map_eq_ok_iff.mp h
    exact ⟨fun hlack _ _ hj hlive hother ↦ runCommand_keeps hrec hroot hlack hrun hj hlive hother,
      fun hlack _ _ hj hnew ↦ runCommand_adds hrec hroot hlack hrun hj hnew⟩
  | wait jw =>
    simp only [processRequest] at h
    split at h
    · obtain rfl := Except.ok.inj h
      exact hsame rfl
    · obtain ⟨⟨answer, s'⟩, hwait, rfl⟩ := Except.map_eq_ok_iff.mp h
      exact hsame (commandWaitJob_ok hwait)

namespace Sample

/-- Every user is known and has no permissions. -/
def plainEnv : Env := { env with lookupUser := fun _ ↦ some { permissions := 0, groupList := [] } }

def stranger : Client := { uid := 8 }

end Sample

/-- A user without permissions asks to delete the job of another user. -/
theorem ownJobsOnly_of_request_delete : ∃ s l', Runs anyEvent config hosts s ∧
    (s.findJob 1).map (fun r ↦ r.2.uid) = some 7 ∧
    processRequest plainEnv 0 ⟨s, { client := stranger }⟩ (.run (.delJob 1)) = .ok l' ∧
    Lacks plainEnv stranger permWrite ∧
    OwnJobsOnly plainEnv stranger s l'.server := by
  obtain ⟨s, hrun, hrec, hjob, l', hl', -⟩ := exists_runs anyEvent config hosts
    (events [.client root Sample.addQueue, .client root Sample.addJob])
    (fun s ↦ s.recovery = none ∧ (s.findJob 1).map (fun r ↦ r.2.uid) = some 7 ∧
      ∃ l' ∈ (processRequest plainEnv 0 ⟨s, { client := stranger }⟩ (.run (.delJob 1))).toOption,
        True) (by decide +kernel)
  have hroot : stranger.uid ≠ 0 := by decide
  have hl := Except.toOption_eq_some_iff.mp hl'
  refine ⟨s, l', hrun, hjob, hl, fun u hu ↦ ?_, ownJobsOnly_of_request hrec hroot hl⟩
  obtain rfl := some.inj hu
  rfl

end Jers
