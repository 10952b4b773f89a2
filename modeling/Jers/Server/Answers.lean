import Jers.Server.AgentPower

/-!
# Commands answer their client

Outside of recovery every command sends its client one response (`runCommand_sent`). A command is a
sequence of reads, checks and writes that ends with `sendError`, `sendClient` or a refusal, and what
it returns with is carried backwards through it. The checks come before the first write, so that a
command that refuses has left the state alone (`Judges`) and what follows a write ends with a
success (`Finishes`).

There are three exceptions. `command_mod_job` returns 0 also for a request that it turns down, a
request for a new job may free deleted jobs for their ids before it is refused, and
`command_add_queue` takes the structure of a deleted queue before it looks for the host
(`Command.Spoils`).
-/

namespace Jers

open Exec Option

/-- The client was sent a return code or data. -/
def Reply.succeeded (r : Reply) : Bool :=
  match r.sent with
  | some (.error _ _) | none => false
  | some _ => true

/-- The client was sent a response, and the value the command returns is 0 if it is a success. -/
structure Reply.Told (r : Reply) : Prop where
  sent : r.sent.isSome = true
  status : r.status = 0 ↔ r.succeeded = true

/-- A computation that returns with a success. -/
structure Finishes (m : Daemon Reply) : Prop where
  out : ∀ {s r s'}, m s = .ok (r, s') → r.Told ∧ r.succeeded = true

/-- A computation that returns with a reply by its status, outside of recovery, and with an error if
it has left the state alone or changed it by `R`. -/
structure Judges (R : Server → Server → Prop) (m : Daemon Reply) : Prop where
  out : ∀ {s r s'}, s.recovery = none → m s = .ok (r, s') →
    r.Told ∧ (r.succeeded = false → s = s' ∨ R s s')

/-- A computation that sends a response whenever it returns, outside of recovery. -/
structure Answers (m : Daemon Reply) : Prop where
  sent : ∀ {s r s'}, s.recovery = none → m s = .ok (r, s') → r.sent.isSome = true

/-- No change at all. -/
def NoChange (_ _ : Server) : Prop := False

section Rules

variable {α : Type} {R : Server → Server → Prop} {m : Daemon Reply} {k : α → Daemon Reply}

theorem Finishes.judges (h : Finishes m) : Judges R m where
  out _ hm := by
    obtain ⟨htold, hsuccess⟩ := h.out hm
    exact ⟨htold, fun hfailed ↦ nomatch hsuccess.symm.trans hfailed⟩

/-- After anything at all. -/
theorem Finishes.bind {x : Daemon α} (hk : ∀ a, Finishes (k a)) : Finishes (x >>= k) where
  out h := by
    obtain ⟨a, _, -, hrest⟩ := bind_ok_iff.mp h
    exact (hk a).out hrest

/-- After something that leaves the state alone. -/
theorem Judges.bind {x : Daemon α} (hx : ∀ {s a s'}, x s = .ok (a, s') → s = s')
    (hk : ∀ a, Judges R (k a)) : Judges R (x >>= k) where
  out hrec h := by
    obtain ⟨a, _, hxs, hrest⟩ := bind_ok_iff.mp h
    obtain rfl := hx hxs
    exact (hk a).out hrec hrest

/-- After something that changes the state by `R`. -/
theorem Judges.after {x : Daemon α} (htrans : ∀ {s t u}, R s t → R t u → R s u)
    (hx : ∀ {s a s'}, x s = .ok (a, s') → R s s' ∧ s'.recovery = s.recovery)
    (hk : ∀ a, Judges R (k a)) : Judges R (x >>= k) where
  out hrec h := by
    obtain ⟨a, t, hxs, hrest⟩ := bind_ok_iff.mp h
    obtain ⟨hR, hsame⟩ := hx hxs
    obtain ⟨htold, hfailed⟩ := (hk a).out (hsame.trans hrec) hrest
    refine ⟨htold, fun hf ↦ .inr ?_⟩
    rcases hfailed hf with rfl | hrest
    · exact hR
    · exact htrans hR hrest

theorem Judges.read {f : Server → α} (hk : ∀ a, Judges R (k a)) : Judges R (Exec.read f >>= k) :=
  .bind (fun h ↦ (read_ok_iff.mp h).2) hk

theorem Judges.lift {x : Except Fault α} (hk : ∀ a, Judges R (k a)) :
    Judges R (Exec.lift x >>= k) :=
  .bind (fun h ↦ (lift_ok_iff.mp h).2) hk

/-- The record that is being replayed is not there. -/
theorem Judges.readRecovery {k : Option Recovery → Daemon Reply} (hk : Judges R (k none)) :
    Judges R (Exec.read (fun s ↦ s.recovery) >>= k) where
  out hrec h := by
    obtain ⟨_, rfl, hrest⟩ := read_bind_ok_iff.mp h
    rw [hrec] at hrest
    exact hk.out hrec hrest

theorem Judges.ite {p : Prop} [Decidable p] {n : Daemon Reply} (hm : p → Judges R m)
    (hn : ¬ p → Judges R n) : Judges R (if p then m else n) := by
  split
  · next h => exact hm h
  · next h => exact hn h

theorem Judges.reply {r : Reply} (hr : r.Told) : Judges R (pure r) where
  out _ h := by
    obtain ⟨rfl, rfl⟩ := pure_ok_iff.mp h
    exact ⟨hr, fun _ ↦ .inl rfl⟩

theorem Judges.answers (h : Judges R m) : Answers m := ⟨fun hrec hm ↦ (h.out hrec hm).1.sent⟩

instance neZero_minusOne : NeZero (-1 : ℤ) := ⟨by decide⟩

/-- An error that comes with a status. -/
theorem Reply.Told.error (c : Client) {status : ℤ} [NeZero status] (code : ErrCode)
    (text : Option String) : (sendError (some c) status code text).Told :=
  ⟨rfl, iff_of_false (NeZero.ne status) nofun⟩

theorem Reply.Told.errorFmt (c : Client) {status : ℤ} [NeZero status] (code : ErrCode)
    (before : String) (name : Str) (after : String) :
    (sendErrorFmt (some c) status code before name after).Told :=
  ⟨rfl, iff_of_false (NeZero.ne status) nofun⟩

theorem Judges.error (c : Client) {status : ℤ} [NeZero status] (code : ErrCode)
    (text : Option String) : Judges R (pure (sendError (some c) status code text)) :=
  .reply (.error c code text)

/-- A refusal before the rest. -/
theorem Judges.refuse {c : Client} {p : Prop} [Decidable p] {status : ℤ} [NeZero status]
    {code : ErrCode} {text : Option String} (h : Judges R m) :
    Judges R (if p then pure (sendError (some c) status code text) else m) :=
  .ite (fun _ ↦ .error c code text) fun _ ↦ h

theorem Reply.Told.success {obj : Option Obj} {r : Response} {s s' : Server} {reply : Reply}
    {c : Client} (hr : (Reply.succeeded { status := 0, sent := some r }) = true)
    (h : sendClient (some c) obj r s = .ok (reply, s')) : reply.Told ∧ reply.succeeded = true := by
  obtain ⟨rfl, -⟩ := pure_ok_iff.mp h
  exact ⟨⟨rfl, iff_of_true rfl hr⟩, hr⟩

theorem Finishes.client (c : Client) (obj : Option Obj) :
    Finishes (sendClient (some c) obj .returnCode) := ⟨Reply.Told.success rfl⟩

end Rules

/-- After a search for an id, which may have freed deleted jobs. -/
theorem Judges.freed {α : Type} {x : Daemon α} {k : α → Daemon Reply}
    (hx : ∀ s, Walks FreeStep x s) (hk : ∀ a, Judges Freed (k a)) : Judges Freed (x >>= k) :=
  .after .trans (fun h ↦ ⟨hx _ _ _ h, (Freed.same (hx _ _ _ h)).2⟩) hk

variable {s s' : Server} {cmd : Command} {reply : Reply} {c : Client} {env : Env}

/-! ### Job commands -/

section

variable (env : Env) (c : Client)

theorem addJobOn_judges (ja : JobAdd) (wanted uid : ℕ) (b : Addr) :
    Judges Freed (addJobOn env (some c) ja wanted uid b) := by
  refine .freed (claimJobid_walks _) fun free ↦ .refuse <| ?_
  refine .refuse <| .read fun converted ↦ ?_
  cases converted with
  | none => exact .error c _ _
  | some reqs =>
    refine .refuse <| .freed (pickJobid_walks _) fun jobid ↦ ?_
    refine .refuse <| Finishes.judges ?_
    refine .bind fun recovery ↦ .bind fun _ ↦ .bind fun obj ↦ .bind fun _ ↦ ⟨fun h ↦ ?_⟩
    obtain ⟨reply, _, hsend, hret⟩ := bind_ok_iff.mp h
    obtain ⟨rfl, -⟩ := pure_ok_iff.mp hret
    obtain ⟨htold, hsuccess⟩ := Reply.Told.success rfl hsend
    exact ⟨⟨htold.sent, htold.status⟩, hsuccess⟩

variable {mj : JobMod} {r : Reply}

/-- The refusals of a queue name. -/
theorem addJobQueue_told {s : Core} {name : Option Str}
    (h : addJobQueue s (some c) name = .error r) : r.Told := by
  unfold addJobQueue at h
  split at h
  · split at h
    · obtain rfl := Except.error.inj h
      exact .error c _ _
    · exact nomatch h
  · split at h
    · obtain rfl := Except.error.inj h
      exact .errorFmt c _ _ _ _
    · split_ifs at h
      · obtain rfl := Except.error.inj h
        exact .errorFmt c _ _ _ _
      · obtain rfl := Except.error.inj h
        exact .error c _ _

theorem commandAddJob_judges (ja : JobAdd) : Judges Freed (commandAddJob env (some c) ja) := by
  refine .readRecovery ⟨fun hrec h ↦ ?_⟩
  -- without a record nothing has been loaded
  obtain ⟨_, rfl, hrest⟩ := read_bind_ok_iff.mp h
  refine Judges.out ?_ hrec hrest
  refine .lift fun uid ↦ ?_
  refine .refuse <| .bind deniedPerm_ok fun denied ↦ ?_
  refine .refuse <| ⟨fun hrec h ↦ ?_⟩
  obtain ⟨queue, hqueue, hrest⟩ := read_bind_ok_iff.mp h
  cases queue with
  | error r =>
    obtain ⟨rfl, rfl⟩ := pure_ok_iff.mp hrest
    exact ⟨addJobQueue_told c hqueue, fun _ ↦ .inl rfl⟩
  | ok b => exact (addJobOn_judges env c ja _ uid b).out hrec hrest

/-- The request is one that the state of the job, or the priority, does not allow. -/
def JobMod.Refused (mj : JobMod) (j : Job) : Prop :=
  (j.state.isFinished = true ∧ mj.restart = false ∧
    (mj.deferTime ≠ unsetTimeT ∨ mj.hold ≠ unset8)) ∨
    j.state = .running ∨ j.internalState.started = true ∨
    (mj.priority ≠ unset32 ∧ (mj.priority < 0 ∨ 255 < mj.priority))

/-- A modify request of a client with the permission for it, on a job that is not there or does not
allow it, or to a queue that is not there. -/
def JobMod.TurnedDown (mj : JobMod) (c : Client) (s : Server) : Prop :=
  mj.jobid = 0 ∨
    checkPerm (some c) (((s.findJob mj.jobid).map fun r ↦ r.2.uid).getD 0)
      permWrite s = .ok (false, s) ∧ ∀ a j, s.findJob mj.jobid = some (a, j) →
        j.internalState.deleted = true ∨ mj.Refused j ∨ mj.target s.toTables = none

/-- A refusal comes with the status of a success. -/
theorem refusal_some {j : Job} (h : mj.refusal (some c) j = some r) :
    mj.Refused j ∧ r.status = 0 ∧ r.sent.isSome = true ∧ r.succeeded = false := by
  unfold JobMod.refusal at h
  split_ifs at h with h₁ h₂ h₃
  · obtain rfl := some.inj h
    exact ⟨.inl ⟨h₁.1, by simpa using h₁.2.1, h₁.2.2⟩, rfl, rfl, rfl⟩
  · obtain rfl := some.inj h
    exact ⟨.inr (h₂.elim .inl fun h ↦ .inr (.inl h)), rfl, rfl, rfl⟩
  · obtain rfl := some.inj h
    exact ⟨.inr (.inr (.inr h₃)), rfl, rfl, rfl⟩

theorem not_refused {j : Job} {c : Option Client} (h : mj.refusal c j = none) : ¬ mj.Refused j := by
  unfold JobMod.refusal at h
  split_ifs at h with h₁ h₂ h₃
  rintro (⟨hfin, hrestart, hset⟩ | hrun | hstarted | hpriority)
  · exact h₁ ⟨hfin, by simpa using hrestart, hset⟩
  · exact h₂ (.inl hrun)
  · exact h₂ (.inr hstarted)
  · exact h₃ hpriority

/-- `command_mod_job` outside of recovery: it is turned down with status 0 and an error, or returns
with a status that says what it sent. -/
theorem commandModJob_cases {s s' : Server} (hrec : s.recovery = none)
    (h : commandModJob (some c) mj s = .ok (r, s')) :
    (mj.TurnedDown c s ∧ s = s' ∧ r.status = 0 ∧ r.sent.isSome = true ∧ r.succeeded = false) ∨
      (¬ mj.TurnedDown c s ∧ r.Told ∧ (r.succeeded = false → s = s')) := by
  unfold commandModJob at h
  split at h
  · next hid =>
    obtain ⟨rfl, rfl⟩ := pure_ok_iff.mp h
    exact .inl ⟨.inl hid, rfl, rfl, rfl, rfl⟩
  next hid =>
  obtain ⟨_, rfl, h₁⟩ := read_bind_ok_iff.mp h
  obtain ⟨_, rfl, h₂⟩ := read_bind_ok_iff.mp h₁
  obtain ⟨denied, _, hperm, h₃⟩ := bind_ok_iff.mp h₂
  obtain rfl := deniedPerm_ok hperm
  have hcheck : checkPerm (some c) (((s.findJob mj.jobid).map fun r ↦ r.2.uid).getD 0) permWrite s =
      .ok (denied, s) := by
    rw [deniedPerm, read_bind, hrec] at hperm
    exact hperm
  cases denied with
  | true =>
    obtain ⟨rfl, rfl⟩ := pure_ok_iff.mp h₃
    refine .inr ⟨?_, .error c _ _, fun _ ↦ rfl⟩
    rintro (hzero | ⟨hallowed, -⟩)
    · exact hid hzero
    · exact nomatch hcheck.symm.trans hallowed
  | false =>
    rw [if_neg Bool.false_ne_true] at h₃
    generalize hfound : s.findJob mj.jobid = found at h₃
    match found, h₃ with
    | none, h₃ =>
      obtain ⟨rfl, rfl⟩ := pure_ok_iff.mp h₃
      refine .inl ⟨.inr ⟨hcheck, fun a j hj ↦ ?_⟩, rfl, rfl, rfl, rfl⟩
      exact nomatch hfound.symm.trans hj
    | some (a, j), h₃ =>
      -- what is turned down is turned down for this job
      have hdown : ∀ {p : Prop}, (j.internalState.deleted = true ∨ mj.Refused j ∨
          mj.target s.toTables = none) → p → mj.TurnedDown c s ∧ p := by
        intro p hwhy hp
        refine ⟨.inr ⟨hcheck, fun a' j' hj ↦ ?_⟩, hp⟩
        obtain ⟨rfl, rfl⟩ := Prod.mk.inj (mem_unique hfound hj)
        exact hwhy
      dsimp only at h₃
      split at h₃
      · next hdel =>
        obtain ⟨rfl, rfl⟩ := pure_ok_iff.mp h₃
        exact .inl (hdown (.inl hdel) ⟨rfl, rfl, rfl, rfl⟩)
      next hdel =>
      rw [hrec] at h₃
      split at h₃
      · next hskip => exact nomatch hskip
      cases hrefuse : mj.refusal (some c) j with
      | some reply =>
        rw [hrefuse] at h₃
        obtain ⟨rfl, rfl⟩ := pure_ok_iff.mp h₃
        obtain ⟨hrefused, hreply⟩ := refusal_some c hrefuse
        exact .inl (hdown (.inr (.inl hrefused)) ⟨rfl, hreply⟩)
      | none =>
        rw [hrefuse] at h₃
        obtain ⟨target, htarget, h₄⟩ := read_bind_ok_iff.mp h₃
        cases target with
        | none =>
          obtain ⟨rfl, rfl⟩ := pure_ok_iff.mp h₄
          exact .inl (hdown (.inr (.inr htarget)) ⟨rfl, rfl, rfl, rfl⟩)
        | some q =>
          refine .inr ⟨?_, ?_⟩
          · rintro (hzero | ⟨-, hwhy⟩)
            · exact hid hzero
            · rcases hwhy a j hfound with h | h | h
              · exact hdel h
              · exact not_refused hrefuse h
              · exact nomatch htarget.symm.trans h
          · obtain ⟨converted, -, h₅⟩ := read_bind_ok_iff.mp h₄
            cases converted with
            | none =>
              obtain ⟨rfl, rfl⟩ := pure_ok_iff.mp h₅
              exact ⟨.error c _ _, fun _ ↦ rfl⟩
            | some new =>
              have hdone : Finishes (applyMod a mj q new >>= fun _ ↦ getJob a >>= fun j ↦
                  sendClient (some c) j.obj .returnCode) := .bind fun _ ↦ .bind fun j ↦ .client c _
              obtain ⟨htold, hsuccess⟩ := hdone.out h₅
              exact ⟨htold, fun hfailed ↦ nomatch hsuccess.symm.trans hfailed⟩

theorem commandModJob_answers (mj : JobMod) : Answers (commandModJob (some c) mj) where
  sent hrec h := by
    rcases commandModJob_cases c hrec h with ⟨-, -, -, hsent, -⟩ | ⟨-, htold, -⟩
    · exact hsent
    · exact htold.sent

theorem commandDelJob_judges (jobid : ℕ) : Judges NoChange (commandDelJob (some c) jobid) := by
  refine .read fun found ↦ .readRecovery (.bind deniedPerm_ok fun denied ↦ ?_)
  refine .refuse <| ?_
  cases found with
  | none => exact .error c _ _
  | some r =>
    refine .refuse <| ?_
    exact (Finishes.bind fun _ ↦ .client ..).judges

theorem commandSigJob_judges (js : JobSig) : Judges NoChange (commandSigJob env (some c) js) := by
  refine .read fun found ↦ .bind checkPerm_ok fun denied ↦ ?_
  refine .refuse <| ?_
  cases found with
  | none => exact .error c _ _
  | some r =>
    refine .refuse <| .ite (fun _ ↦ ?_) fun _ ↦ ?_
    · exact (Finishes.bind fun _ ↦ .client ..).judges
    refine .refuse <| .ite (fun _ ↦ (Finishes.client ..).judges) fun _ ↦ ?_
    refine Finishes.judges (.bind fun q ↦ ?_)
    cases q.agent with
    | none => exact ⟨fun h ↦ nomatch h⟩
    | some g => exact .bind fun _ ↦ .client ..

theorem editTags_finishes (a : Addr) (f : List (Str × Option Str) → List (Str × Option Str)) :
    Finishes (editTags (some c) a f) :=
  .bind fun _ ↦ .bind fun _ ↦ .bind fun _ ↦ .client ..

theorem commandTag_judges (jobid : ℕ) (check : Job → Bool) (code : ErrCode)
    (f : List (Str × Option Str) → List (Str × Option Str)) :
    Judges NoChange (commandTag (some c) jobid check code f) := by
  refine .read fun found ↦ .bind deniedPerm_ok fun denied ↦ .refuse <| ?_
  cases found with
  | none => exact .error c _ _
  | some r => exact .refuse <| (editTags_finishes ..).judges

end

/-! ### Queue commands -/

section

variable (env : Env) (c : Client)

/-- A request for a new queue on a host that is not known has freed the structure of a deleted queue
of that name. -/
def Dropped (env : Env) (qa : QueueRequest) (s s' : Server) : Prop :=
  ∃ b q, qa.Drops env s b q ∧ s' = { s with queueTable := s.queueTable.erase b }

theorem commandAddQueue_judges (qa : QueueRequest) :
    Judges (Dropped env qa) (commandAddQueue env (some c) qa) where
  out {s r s'} _ h := by
    cases commandAddQueue_post h with
    | refused => exact ⟨.error c _ _, fun _ ↦ .inl rfl⟩
    | dropped hdrops => exact ⟨.error c _ _, fun _ ↦ .inr ⟨_, _, hdrops, rfl⟩⟩
    | added _ _ _ _ _ hsend =>
      obtain ⟨htold, hsuccess⟩ := (Finishes.client c _).out hsend
      exact ⟨htold, fun hfailed ↦ nomatch hsuccess.symm.trans hfailed⟩

theorem commandModQueue_judges (qm : QueueRequest) :
    Judges NoChange (commandModQueue env (some c) qm) := by
  unfold commandModQueue
  cases qm.name with
  | none => exact .error c _ _
  | some name =>
    refine .read fun found ↦ ?_
    cases found with
    | none => exact .error c _ _
    | some r =>
      refine .readRecovery (.ite (fun h ↦ nomatch h) fun _ ↦ .lift fun denied ↦ ?_)
      refine .refuse <| .read fun agent ↦ .refuse <| ?_
      exact (Finishes.bind fun _ ↦ .bind fun _ ↦ .client ..).judges

theorem commandDelQueue_judges (name : Option Str) :
    Judges NoChange (commandDelQueue (some c) name) := by
  cases name with
  | none => exact .error c _ _
  | some name =>
    refine .readRecovery (.read fun found ↦ ?_)
    cases found with
    | none => exact .error c _ _
    | some r =>
      refine .refuse <| .read fun inUse ↦ .refuse <| ?_
      exact (Finishes.bind fun _ ↦ .client ..).judges

end

/-! ### Resource commands -/

section

variable (c : Client)

theorem createRes_finishes (old : Option Addr) (r : Resource) :
    Finishes (createRes (some c) old r) :=
  .bind fun _ ↦ .bind fun _ ↦ .client ..

theorem commandAddResource_judges (name : Option Str) (count : ℤ) :
    Judges NoChange (commandAddResource (some c) name count) := by
  cases name with
  | none => exact .error c _ _
  | some name =>
    refine .refuse <| .read fun found ↦ ?_
    cases found with
    | none => exact (createRes_finishes ..).judges
    | some r =>
      refine .readRecovery (.ite (fun h ↦ nomatch h) fun _ ↦ ?_)
      exact .refuse <| (createRes_finishes ..).judges

theorem commandModResource_judges (name : Option Str) (count : ℤ) :
    Judges NoChange (commandModResource (some c) name count) := by
  cases name with
  | none => exact .error c _ _
  | some name =>
    refine .read fun found ↦ ?_
    cases found with
    | none => exact .error c _ _
    | some r =>
      refine .refuse <| .readRecovery (.ite (fun h ↦ nomatch h) fun _ ↦ ?_)
      exact (Finishes.bind fun _ ↦ .bind fun _ ↦ .bind fun _ ↦ .client ..).judges

theorem commandDelResource_judges (name : Option Str) :
    Judges NoChange (commandDelResource (some c) name) := by
  cases name with
  | none => exact .error c _ _
  | some name =>
    refine .read fun found ↦ ?_
    cases found with
    | none => exact .error c _ _
    | some r =>
      refine .refuse <| .read fun inUse ↦ .lift fun inUse ↦ ?_
      exact .refuse <| (Finishes.bind fun _ ↦ .client ..).judges

end

/-! ### The dispatcher -/

/-- What a command that is refused may have changed. -/
def Command.Spoils (env : Env) : Command → Server → Server → Prop
  | .addJob _ => Freed
  | .addQueue qa => Dropped env qa
  | _ => NoChange

/-- Every command but one says by its status what it has sent. -/
theorem Command.run_judges (env : Env) (c : Client) (cmd : Command) (h : ∀ mj, cmd ≠ .modJob mj) :
    Judges (cmd.Spoils env) (cmd.run env (some c)) := by
  cases cmd with
  | addJob ja => exact commandAddJob_judges env c ja
  | modJob mj => exact absurd rfl (h mj)
  | delJob jobid => exact commandDelJob_judges c jobid
  | sigJob js => exact commandSigJob_judges env c js
  | setTag | delTag => exact commandTag_judges c ..
  | addQueue qa => exact commandAddQueue_judges env c qa
  | modQueue qm => exact commandModQueue_judges env c qm
  | delQueue name => exact commandDelQueue_judges c name
  | addResource name count => exact commandAddResource_judges c name count
  | modResource name count => exact commandModResource_judges c name count
  | delResource name => exact commandDelResource_judges c name
  | query => exact (Finishes.client c none).judges

theorem Command.run_answers (env : Env) (c : Client) (cmd : Command) :
    Answers (cmd.run env (some c)) := by
  by_cases h : ∃ mj, cmd = .modJob mj
  · obtain ⟨mj, rfl⟩ := h
    exact commandModJob_answers c mj
  · exact (cmd.run_judges env c fun mj hmj ↦ h ⟨mj, hmj⟩).answers

/-- **Every command that returns has answered its client**, outside of recovery. -/
theorem runCommand_sent (hrec : s.recovery = none) (h : runCommand env c cmd s = .ok (reply, s')) :
    reply.sent.isSome = true := by
  rcases runCommand_checked h with ⟨-, c', code, text, rfl⟩ | ⟨c', -, -, hrun⟩
  · rfl
  · exact (cmd.run_answers env c').sent hrec hrun

/-- Every command but one returns by its status what it has sent. -/
theorem runCommand_told (hrec : s.recovery = none) (hmod : ∀ mj, cmd ≠ .modJob mj)
    (h : runCommand env c cmd s = .ok (reply, s')) : reply.Told := by
  rcases runCommand_checked h with ⟨-, c', code, text, rfl⟩ | ⟨c', -, -, hrun⟩
  · exact .error c' code text
  · exact ((cmd.run_judges env c' hmod).out hrec hrun).1

/-- **What a refused command leaves behind.** -/
theorem runCommand_refused (hrec : s.recovery = none) (h : runCommand env c cmd s = .ok (reply, s'))
    (hfailed : reply.succeeded = false) : s = s' ∨ cmd.Spoils env s s' := by
  rcases runCommand_checked h with ⟨hsame, -⟩ | ⟨c', -, -, hrun⟩
  · exact .inl hsame
  by_cases hmod : ∃ mj, cmd = .modJob mj
  · obtain ⟨mj, rfl⟩ := hmod
    rcases commandModJob_cases c' hrec hrun with ⟨-, hsame, -⟩ | ⟨-, -, hsame⟩
    · exact .inl hsame
    · exact .inl (hsame hfailed)
  · exact ((cmd.run_judges env c' fun mj hmj ↦ hmod ⟨mj, hmj⟩).out hrec hrun).2 hfailed

end Jers
