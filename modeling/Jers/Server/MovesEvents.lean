import Jers.Server.MovesObjects
import Jers.Server.MovesSched

/-!
# The moves of agent messages and of the timed events

The remaining handlers, and the result of the analysis: an event that is handled makes moves that
are allowed only (`handle_path`).
-/

namespace Jers

open Exec Table Jers.Path

variable {s s' : Server}

/-- The server has made moves of `P`. -/
abbrev Server.Paths (P : Core → Label → Prop) (s t : Server) : Prop := Path P s.toCore t.toCore

instance {P : Core → Label → Prop} : IsPreorder Server (Server.Paths P) where
  refl _ := Path.refl _
  trans _ _ _ := Path.trans

variable {env : Env} {g a : Addr} {rc pid : ℤ} {j : Job} {cmd : Command} {c : Core} {jobid n m : ℕ}
  {i : ReconItem} {s₀ : Server} {reply : Reply} {l : Label} {P : Core → Label → Prop}
  {exitcode finishTime : ℤ} {f : Agent → Agent} {maxClean k : ℕ} {bs : List Addr} {startTime : ℤ}
  {usage : Usage}

/-- The records of the agents are no part of the core, and their changes are no moves. -/
theorem modifyAgent_keeps : Keeps (Server.Paths P) (modifyAgent g f) := by
  intro t _ t' h
  rw [modifyAgent_ok h]
  exact refl _

/-- A change of a job that leaves its queue and its state is a shift without a cost. -/
theorem modifyJob_keeps {f : Job → Job} (hq : ∀ j, (f j).queue = j.queue)
    (hs : ∀ j, (f j).state = j.state) (hP : ∀ {c j}, P c (.shift a j (f j) {})) :
    Keeps (Server.Paths P) (modifyJob a f) := by
  intro t _ t' h
  obtain ⟨j, hj, -⟩ := modifyJob_ok h
  exact single hP ((Shift.refl hj).edits h (hq j) (hs j))

theorem modifyQueue_keeps {b : Addr} {f : Queue → Queue} (hP : ∀ {c q},
    P c (.editQueue b q (f q))) : Keeps (Server.Paths P) (modifyQueue b f) := by
  intro t _ t' h
  obtain ⟨q, hmove, -⟩ := modifyQueue_move h
  exact single hP hmove

theorem modifyRes_keeps {b : Addr} {f : Resource → Resource} (hP : ∀ {c r},
    P c (.editRes b r (f r))) : Keeps (Server.Paths P) (modifyRes b f) := by
  intro t _ t' h
  obtain ⟨r, hmove⟩ := modifyRes_move h
  exact single hP hmove

/-- The queues of an agent are tied to it, or untied, one by one. -/
theorem eachQueue_keeps {c : Queue → Prop} [DecidablePred c] {f : Queue → Queue}
    (hP : ∀ {c b q}, P c (.editQueue b q (f q))) (l : List Addr) : Keeps (Server.Paths P)
      (each (fun b ↦ do let q ← getQueue b; whenever (c q) (modifyQueue b f)) l) := by
  refine .each (fun b ↦ .bind .getQueue fun q ↦ .whenever fun _ ↦ ?_) l
  exact modifyQueue_keeps hP

/-! ### Login -/

/-- A message to an agent and a note about it. -/
theorem sendNote_keeps {m : AgentRequest} {k : ℤ} :
    Keeps (Server.Paths P) (do sendAgentMessage g m; modifyAgent g f; return k) :=
  .bind modifyAgent_keeps fun _ ↦ .bind modifyAgent_keeps fun _ ↦ .pure k

/-- A login ties the queues of the host to the agent, before anything is checked. -/
theorem commandAgentLogin_keeps :
    Keeps (Server.Paths (AgentMove env s g .login)) (commandAgentLogin env g) := by
  refine .bind .getAgent fun agent ↦ .bind (.read _) fun addrs ↦ ?_
  refine .bind (eachQueue_keeps .link addrs) fun _ ↦ .bind (.read _) fun secret ↦
    .ite (fun _ ↦ ?_) ?_
  · split
    · exact .pure 1
    · exact sendNote_keeps
  · exact fun _ ↦ sendNote_keeps

theorem commandAgentAuthresp_keeps {nonce hmac : Option Str} {datetime : ℤ} :
    Keeps (Server.Paths P) (commandAgentAuthresp env g nonce hmac datetime) := by
  refine .bind .getAgent fun agent ↦ ?_
  split
  · exact .ite (fun _ ↦ .pure 1) fun _ ↦ sendNote_keeps
  · exact .pure 1

/-! ### Reports on jobs -/

/-- A start that is reported confirms the job. Resources are taken in recovery only. -/
theorem jobStarted_shift (hrec : s.recovery = none)
    (h : jobStarted a pid startTime s = .ok ((), s')) :
    ∃ j, Shift a j (j.confirmed pid startTime) { slots := -slotsFreed j .running none }
      s.toCore s'.toCore := by
  obtain ⟨_, t, hchange, h₁⟩ := bind_ok_iff.mp h
  obtain ⟨_, u, hmod, h₂⟩ := bind_ok_iff.mp h₁
  obtain ⟨i, -, h₃⟩ := getJob_bind_ok h₂
  obtain ⟨recovery, hrecovery, h₄⟩ := read_bind_ok_iff.mp h₃
  obtain ⟨_, v, halloc, hupd⟩ := bind_ok_iff.mp h₄
  obtain rfl := update_ok_iff.mp hupd
  obtain ⟨j, hmove⟩ := changeJobState_shift hchange
  have hboth := hmove.edits hmod rfl rfl
  have hnone : recovery = none := by
    rw [← hrecovery, hboth.recovery, hrec]
  rw [hnone] at halloc
  obtain ⟨⟨hsome, -⟩, -⟩ | ⟨-, rfl⟩ := whenever_ok_iff.mp halloc
  · exact nomatch hsome
  exact ⟨j, hboth⟩

/-- A report for a job that is not there does nothing. -/
theorem commandAgentJobstart_path (hrec : s.recovery = none)
    (h : commandAgentJobstart jobid pid startTime s = .ok (rc, s')) :
    Path (AgentMove env s g (.jobStarted jobid pid startTime)) s.toCore s'.toCore := by
  obtain ⟨found, hfound, h₁⟩ := read_bind_ok_iff.mp h
  match found with
  | none => exact of_eq (congrArg _ (pure_ok_iff.mp h₁).2)
  | some (a, j) =>
    obtain ⟨_, -, hstart⟩ := bind_pure_ok h₁
    obtain ⟨i, hshift⟩ := jobStarted_shift hrec hstart
    obtain rfl := hshift.unique (Table.find?_some hfound).1
    exact single (.started hfound) hshift

/-- A completed job gives its resources back, if it has a requirement count. -/
theorem whenever_deallocate_completed (hj : s.jobTable.get? a = some j)
    (h : whenever (j.resCount ≠ 0) (deallocateRes a) s = .ok ((), s')) :
    ∃ use w held, Shift a j { j with history.held := held }
        { use := use, audit := w } s.toCore s'.toCore ∧ Gives s.toCore j use w ∧
      ∃ reqs, j.requirements = .ok reqs ∧ GivesBack reqs use s.toCore := by
  rcases whenever_ok_iff.mp h with ⟨-, h⟩ | ⟨hzero, rfl⟩
  · obtain ⟨reqs, use, w, hreqs, hshift, hback, hexact⟩ := deallocateRes_shift hj h
    exact ⟨use, w, [], hshift, ⟨reqs, hreqs, hexact⟩, reqs, hreqs, hback⟩
  · have hreqs := Job.requirements_of_resCount_zero (not_not.mp hzero)
    refine ⟨_, _, j.history.held, Shift.refl hj, ⟨[], hreqs, fun _ _ ↦ ⟨?_, rfl⟩⟩, [], hreqs,
      fun _ _ _ ↦ add_zero _⟩
    funext b
    simp

/-- A completed job gives back its slot and its resources, and takes the state of its exit code. -/
theorem jobCompleted_shift
    (hj : s.jobTable.get? a = some j)
    (h : jobCompleted a exitcode finishTime usage s = .ok ((), s')) :
    ∃ k, Shift a j (j.ended exitcode finishTime usage) k s.toCore s'.toCore ∧
      k.slots = -slotsFreed j (exitStatus exitcode).state none ∧ Gives s.toCore j k.use k.audit ∧
      k.deferred = id ∧ ∃ reqs, j.requirements = .ok reqs ∧ GivesBack reqs k.use s.toCore := by
  have h₁ := getJob_bind_at hj h
  obtain ⟨_, t, hgive, h₂⟩ := bind_ok_iff.mp h₁
  obtain ⟨_, u, hmod, h₃⟩ := bind_ok_iff.mp h₂
  obtain ⟨_, v, hchange, h₄⟩ := bind_ok_iff.mp h₃
  obtain ⟨_, w, hflag, hupd⟩ := bind_ok_iff.mp h₄
  obtain ⟨use, au, held, hgave, hgives, hback⟩ := whenever_deallocate_completed hj hgive
  have hall := ((hgave.edits hmod rfl rfl).changes rfl hchange).edits hflag rfl rfl
  have hcore : s'.toCore = w.toCore := by
    rw [update_ok_iff.mp hupd]
    split <;> rfl
  rw [hcore]
  refine ⟨_, hall, ?_, ?_, rfl, ?_⟩
  · simp [Cost.andThen, slotsFreed]
  · simpa [Cost.andThen] using hgives
  · simpa [Cost.andThen] using hback

theorem commandAgentJobcompleted_path
    (h : commandAgentJobcompleted jobid exitcode finishTime usage s = .ok (rc, s')) :
    Path (AgentMove env s g (.jobCompleted jobid exitcode finishTime usage))
    s.toCore s'.toCore := by
  obtain ⟨found, hfound, h₁⟩ := read_bind_ok_iff.mp h
  match found with
  | none => exact of_eq (congrArg _ (pure_ok_iff.mp h₁).2)
  | some (a, j) =>
    obtain ⟨_, -, hdone⟩ := bind_pure_ok h₁
    obtain ⟨k, hshift, hslots, hgives, hdeferred, -⟩ :=
      jobCompleted_shift (Table.find?_some hfound).1 hdone
    exact single (.completed hfound hslots hgives hdeferred) hshift

/-- A part of a reconciliation entry, for a job that has ended or that runs. -/
theorem reconPart_shift {p : Prop} [Decidable p] {f : Job → Job} {st : JobState} {dirty : Bool}
    (hj : s.jobTable.get? a = some j) (hq : (f j).queue = j.queue) (hs : (f j).state = j.state)
    (h : whenever p (do modifyJob a f; changeJobState a st none dirty) s = .ok ((), s')) :
    Shift a j (if p then (f j).changed st none dirty else j)
      { slots := -if p then slotsFreed (f j) st none else 0 } s.toCore s'.toCore := by
  rcases whenever_ok_iff.mp h with ⟨hp, h⟩ | ⟨hp, rfl⟩
  · obtain ⟨_, t, hmod, hchange⟩ := bind_ok_iff.mp h
    have hboth := ((Shift.refl hj).edits hmod hq hs).changes rfl hchange
    rw [Cost.default_andThen] at hboth
    rw [if_pos hp, if_pos hp]
    exact hboth
  · rw [if_neg hp, if_neg hp, neg_zero]
    exact Shift.refl hj

/-- An entry of a reconciliation is about a job that is there: `reconItem` follows what it finds. -/
theorem reconItem_shift (h : reconItem i s = .ok ((), s')) :
    ∃ a j, s.findJob i.jobid = some (a, j) ∧
      Shift a j (j.reconciled i) { slots := -reconFreed j i } s.toCore s'.toCore := by
  obtain ⟨found, hfound, h₁⟩ := read_bind_ok_iff.mp h
  match found with
  | none => exact (stop_ok_iff.mp h₁).elim
  | some (a, j) =>
    refine ⟨a, j, hfound, ?_⟩
    obtain ⟨_, t, hmod, h₂⟩ := bind_ok_iff.mp h₁
    obtain ⟨_, u, hfinish, h₃⟩ := bind_ok_iff.mp h₂
    obtain ⟨_, v, hpid, husage⟩ := bind_ok_iff.mp h₃
    have hedit := (Shift.refl (Table.find?_some hfound).1).edits hmod rfl rfl
    have hfinished := reconPart_shift hedit.found' rfl rfl hfinish
    have hran := reconPart_shift hfinished.found' rfl rfl hpid
    have hqueue {p : Prop} [Decidable p] (x : Job) :
        x.queue = (if p then { x with pid := i.pid }.changed .running none false else x).queue := by
      split <;> rfl
    have hall :=
      ((hedit.trans hfinished (.inl rfl)).trans hran (.inr (hqueue _))).edits husage rfl rfl
    rw [Cost.default_andThen] at hall
    have hcost (x y : ℤ) :
        Cost.andThen { slots := -x } { slots := -y } = { slots := -(x + y) } := by
      simp [Cost.andThen, Audit.join]
      ring
    rw [hcost] at hall
    exact hall

/-- A search by id is not changed by a shift of a job that has another one. -/
theorem Shift.findJob_of_ne {j' : Job} {k : Cost} {c' : Core} (h : Shift a j j' k c c')
    (hid : j'.jobid = j.jobid) (hne : j.jobid ≠ jobid) : c'.findJob jobid = c.findJob jobid := by
  have hmod : c'.findJob jobid = (c.findJob jobid).map fun r ↦ if r.1 = a then (r.1, j')
      else r := by
    simp only [Tables.findJob, h.jobs]
    exact find?_modify h.found (by rw [hid])
  rw [hmod]
  cases hfound : c.findJob jobid with
  | none => rfl
  | some r =>
    have hr := Table.find?_some hfound
    have hra : r.1 ≠ a := by
      intro hra
      rw [hra, h.found] at hr
      obtain ⟨hj, hp⟩ := hr
      rw [← Option.some.inj hj] at hp
      exact hne (by simpa using hp)
    simp [hra]

/-- The entries are handled, and what follows is not about them. -/
theorem commandAgentRecon_items {items : List ReconItem}
    (h : commandAgentRecon g items s = .ok (rc, s')) :
    ∃ t, each reconItem items s = .ok ((), t) ∧ s'.toCore = t.toCore := by
  obtain ⟨_, t, hitems, h₁⟩ := bind_ok_iff.mp h
  obtain ⟨_, u, hsend, h₂⟩ := bind_ok_iff.mp h₁
  obtain ⟨_, -, hmod⟩ := bind_pure_ok h₂
  have hsent := sendAgentMessage_toCore hsend
  refine ⟨t, hitems, ?_⟩
  rw [modifyAgent_ok hmod]
  exact hsent

/-- The entries of a reconciliation are handled one by one. If no job has two entries, each of them
finds its job as it was before. -/
theorem commandAgentRecon_path {items : List ReconItem}
    (h : commandAgentRecon g items s = .ok (rc, s')) :
    Path (AgentMove env s g (.recon items)) s.toCore s'.toCore := by
  obtain ⟨t, hitems, htail⟩ := commandAgentRecon_items h
  rw [htail]
  -- an entry keeps what is found for the entries of other jobs
  refine each_own (R := fun t t' ↦ Path (AgentMove env s g (.recon items)) t.toCore t'.toCore)
    (fun _ ↦ Path.refl _) Path.trans
    (D := fun i i' ↦ (items.map ReconItem.jobid).Nodup → i.jobid ≠ i'.jobid)
    (F := fun i t ↦ (items.map ReconItem.jobid).Nodup → t.findJob i.jobid = s.findJob i.jobid)
    ?_ (fun i hi t t' hF hround ↦ ?_) (fun _ _ _ ↦ rfl) hitems
  · by_cases hnodup : (items.map ReconItem.jobid).Nodup
    · exact (List.pairwise_map.mp hnodup).imp fun hne _ ↦ hne
    · exact List.pairwise_of_forall fun _ _ hnd ↦ absurd hnd hnodup
  · obtain ⟨a, j, hfound, hshift⟩ := reconItem_shift hround
    have hid : j.jobid = i.jobid := by simpa using (Table.find?_some hfound).2
    refine ⟨single (.recon hi hid fun hnd ↦ (hF hnd).symm.trans hfound) hshift, ?_⟩
    intro i' hne hF' hnd
    rw [← hF' hnd]
    exact hshift.findJob_of_ne (j.reconciled_jobid i) (hid ▸ hne hnd)

/-! ### The dispatcher -/

theorem commandAgentProxyconn_keeps {uid : ℕ} :
    Keeps (Server.Paths P) (commandAgentProxyconn g pid uid) :=
  .bind (.update fun _ ↦ refl _) fun _ ↦ .pure 0

/-- What a proxied client sends goes into its buffer. -/
theorem commandAgentProxydata_keeps {data : Option Str} :
    Keeps (Server.Paths P) (commandAgentProxydata g pid data) := by
  unfold commandAgentProxydata
  split
  · exact .pure 1
  · refine .bind (.read _) fun client ↦ ?_
    split
    · exact .pure 1
    · exact .bind (.update fun _ ↦ refl _) fun _ ↦ .pure 0

theorem commandAgentProxyclose_keeps : Keeps (Server.Paths P) (commandAgentProxyclose g pid) := by
  refine .bind (.read _) fun client ↦ ?_
  split
  · exact .pure 1
  · exact .bind (.update fun _ ↦ refl _) fun _ ↦ .pure 0

/-- **Agent messages make agent moves.** -/
theorem runAgentCommand_path {m : AgentMsg} (hrec : s.recovery = none)
    (h : runAgentCommand env g m s = .ok (rc, s')) :
    Path (AgentMove env s g m) s.toCore s'.toCore := by
  cases m with
  | login => exact commandAgentLogin_keeps h
  | authResp nonce hmac datetime => exact commandAgentAuthresp_keeps h
  | recon items => exact commandAgentRecon_path h
  | jobStarted jobid pid startTime => exact commandAgentJobstart_path hrec h
  | jobCompleted jobid exitcode finishTime usage => exact commandAgentJobcompleted_path h
  | proxyConn pid uid => exact commandAgentProxyconn_keeps h
  | proxyData pid data => exact commandAgentProxydata_keeps h
  | proxyClose pid => exact commandAgentProxyclose_keeps h
  | unknown => exact of_eq (congrArg _ (pure_ok_iff.mp h).2)

/-! ### Disconnections -/

/-- The queues of `t` are those of `s`, on the same agents. -/
def SameAgents (s t : Server) : Prop :=
  ∀ b, Option.Rel (fun q q' : Queue ↦ q'.agent = q.agent) (s.queueTable.get? b)
  (t.queueTable.get? b)

theorem SameAgents.refl (s : Server) : SameAgents s s := fun _ ↦
  optionRel_refl (R := fun q q' : Queue ↦ q'.agent = q.agent) (fun _ ↦ rfl) _

/-- A shift of a job changes the counters of its queue only. -/
theorem SameAgents.shift {t t' : Server} (h : SameAgents s t) {j' : Job} {k : Cost}
    (hshift : Shift a j j' k t.toCore t'.toCore) : SameAgents s t' := by
  intro b
  refine optionRel_trans (fun hq hq' ↦ ?_) (h b) (hshift.queues b)
  rw [hq'.rest]
  exact hq

/-- A job of the agent that runs or is about to run becomes unknown and keeps its resources. -/
theorem markJobUnknown_shift (h : markJobUnknown g a s = .ok ((), s')) :
    s = s' ∨ ∃ j q, s.queueTable.get? j.queue = some q ∧ q.agent = some g ∧
      (j.state = .running ∨ j.internalState.started = true) ∧
      Shift a j j.lost {} s.toCore s'.toCore := by
  obtain ⟨j, hj, h₁⟩ := getJob_bind_ok h
  obtain ⟨q, hq, h₂⟩ := getQueue_bind_ok h₁
  rcases whenever_ok_iff.mp h₂ with ⟨⟨hagent, hactive⟩, h⟩ | ⟨-, rfl⟩
  · obtain ⟨_, t, hmod, hchange⟩ := bind_ok_iff.mp h
    have hboth := ((Shift.refl hj).edits hmod rfl rfl).changes rfl hchange
    rw [slotsFreed_of_not_started (by rfl), neg_zero, Cost.default_andThen] at hboth
    exact .inr ⟨j, q, hq, hagent, hactive, hboth⟩
  · exact .inl rfl

/-- Each job is still as it was before the event when its turn comes. -/
theorem markJobsUnknown_path (h : markJobsUnknown g s = .ok ((), s')) :
    Path (Allowed env s (.disconnect g)) s.toCore s'.toCore := by
  obtain ⟨_, rfl, h₁⟩ := read_bind_ok_iff.mp h
  refine each_own (R := fun t t' ↦ Path (Allowed env s (.disconnect g)) t.toCore t'.toCore)
    (fun _ ↦ Path.refl _) Path.trans (D := (· ≠ ·))
    (F := fun a t ↦ t.jobTable.get? a = s.jobTable.get? a ∧ SameAgents s t)
    s.jobTable.nodup (fun a _ t t' hF hround ↦ ?_)
    (fun _ _ ↦ ⟨rfl, .refl s⟩) h₁
  obtain rfl | ⟨j, q, hq, hagent, hactive, hshift⟩ := markJobUnknown_shift hround
  · exact ⟨refl _, fun _ _ hF ↦ hF⟩
  · obtain ⟨q₀, hq₀, hsame⟩ := optionRel_some' (hF.2 j.queue) hq
    refine ⟨single (.lose (hF.1.symm.trans hshift.found) hq₀ (hsame.symm.trans hagent) hactive)
      hshift, fun b hne hFb ↦ ?_⟩
    exact ⟨(hshift.get?_of_ne (Ne.symm hne)).trans hFb.1, hFb.2.shift hshift⟩

theorem markQueueStopped_keeps :
    Keeps (Server.Paths (Allowed env s₀ (.disconnect g))) (markQueueStopped g) :=
  .bind (.read _) fun addrs ↦ eachQueue_keeps .unlink addrs

/-- A disconnection loses the jobs of the agent, and then stops its queues. -/
theorem handleAgentDisconnect_path :
    Post (handleAgentDisconnect g) s fun _ t ↦ s.Paths (Allowed env s (.disconnect g)) t := by
  refine .bind fun _ t hjobs _ _ hrest ↦ (markJobsUnknown_path hjobs).trans ?_
  exact Keeps.bind markQueueStopped_keeps (fun _ ↦ modifyAgent_keeps) hrest

theorem handleAgentConnection_keeps : Keeps (Server.Paths P) (handleAgentConnection g) :=
  .bind .getAgent fun _ ↦ .whenever fun _ ↦ modifyAgent_keeps

/-! ### Cleaning up -/

/-- Old finished jobs are deleted, each of them as it was before the event. -/
theorem autoCleanup_path (h : autoCleanup env s = .ok ((), s')) :
    Path (Allowed env s .autoCleanup) s.toCore s'.toCore := by
  obtain ⟨hours, -, h₁⟩ := read_bind_ok_iff.mp h
  obtain ⟨_, rfl, h₂⟩ := read_bind_ok_iff.mp h₁
  refine each_own (R := fun t t' ↦ Path (Allowed env s .autoCleanup) t.toCore t'.toCore)
    (fun _ ↦ Path.refl _) Path.trans (D := (· ≠ ·))
    (F := fun a t ↦ t.jobTable.get? a = s.jobTable.get? a)
    s.jobTable.nodup (fun a _ t t' hF hround ↦ ?_) (fun _ _ ↦ rfl) h₂
  obtain ⟨j, hj, h₃⟩ := getJob_bind_ok hround
  rcases whenever_ok_iff.mp h₃ with ⟨⟨hdel, hstate, -⟩, hdelete⟩ | ⟨-, rfl⟩
  · have hshift := deleteJob_shift hj hdelete
    refine ⟨single (.expire (hF.symm.trans hj) (by simpa using hdel) hstate) hshift,
      fun b hne hFb ↦ ?_⟩
    exact (hshift.get?_of_ne (Ne.symm hne)).trans hFb
  · exact ⟨refl _, fun _ _ hFb ↦ hFb⟩

/-- The jobs that are freed were flagged deleted before the event, and saved. -/
theorem cleanupJobs_path (h : cleanupJobs n s = .ok (m, s')) :
    Path (Allowed env s (.cleanupJobs n)) s.toCore s'.toCore :=
  (Freed.recycle (cleanupJobs_walks n s m s' h) (.refl s)).path.mono fun _ _ ⟨_, _, hl, hj, hrem⟩ ↦
  hl ▸ .cleanJob hj hrem

/-- The loop frees objects under an invariant of the states on its way. -/
theorem cleanupFrom_path {stays : Addr → Daemon Bool} {free : Addr → Server → Server}
    {I : Server → Prop} (hround : ∀ b t, I t → Post (stays b) t fun r u ↦
      t = u ∧ (r = false → t.Paths P (free b t) ∧ I (free b t)))
    (hs : I s) (h : cleanupFrom stays free maxClean k bs s = .ok (m, s')) : s.Paths P s' := by
  induction bs generalizing k s with
  | nil => exact of_eq (congrArg _ (pure_ok_iff.mp h).2)
  | cons b bs ih =>
    obtain ⟨r, t, hstays, h₁⟩ := bind_ok_iff.mp h
    obtain ⟨rfl, hfree⟩ := hround b s hs hstays
    split at h₁
    · exact ih hs h₁
    · next hr =>
      obtain ⟨hfirst, hI⟩ := hfree (by simpa using hr)
      obtain ⟨_, t, hupd, h₂⟩ := bind_ok_iff.mp h₁
      obtain rfl := update_ok_iff.mp hupd
      split at h₂
      · obtain ⟨-, rfl⟩ := pure_ok_iff.mp h₂
        exact hfirst
      · exact hfirst.trans (ih hI h₂)

theorem cleanupQueues_path (h : cleanupQueues n s = .ok (m, s')) :
    s.Paths (Allowed env s (.cleanupQueues n)) s' := by
  obtain ⟨_, -, hloop⟩ := read_bind_ok_iff.mp h
  refine cleanupFrom_path (I := fun t ↦
      (∀ b q, t.queueTable.get? b = some q → s.queueTable.get? b = some q) ∧
      t.jobTable = s.jobTable ∧ t.defaultQueue = s.defaultQueue)
    (fun b t hI ↦ .getQueue fun q hq ↦ .pure ⟨rfl, fun hrem ↦ ?_⟩)
    ⟨fun _ _ hq ↦ hq, rfl, rfl⟩ hloop
  obtain ⟨hsub, hjobs, hdefault⟩ := hI
  have hremovable : q.Removable := by simpa [Queue.Removable, and_assoc] using hrem
  exact ⟨single (.cleanQueue (hsub b q hq) hremovable hjobs hdefault) ⟨hq, rfl⟩,
    fun b' q' hq' ↦ hsub b' q' (get?_erase_some hq').2, hjobs, hdefault⟩

theorem cleanupResources_path (h : cleanupResources n s = .ok (m, s')) :
    s.Paths (Allowed env s (.cleanupResources n)) s' := by
  obtain ⟨_, -, hloop⟩ := read_bind_ok_iff.mp h
  refine cleanupFrom_path (I := fun t ↦
      (∀ b r, t.resTable.get? b = some r → s.resTable.get? b = some r) ∧ t.jobTable = s.jobTable)
    (fun b t hI ↦ .getRes fun r hr ↦ .pure ⟨rfl, fun hrem ↦ ?_⟩)
    ⟨fun _ _ hr ↦ hr, rfl⟩ hloop
  obtain ⟨hsub, hjobs⟩ := hI
  have hremovable : r.Removable := by simpa [Resource.Removable, and_assoc] using hrem
  exact ⟨single (.cleanRes (hsub b r hr) hremovable hjobs) ⟨hr, rfl⟩,
    fun b' r' hr' ↦ hsub b' r' (get?_erase_some hr').2, hjobs⟩

/-! ### Saves -/

theorem saveStart_path {x : Bool} :
    Post (saveStart x) s fun _ t ↦ s.Paths (Allowed env s (.saveStart x)) t := by
  refine .read (.ite (fun _ ↦ .pure (Path.refl _)) fun _ ↦ .ite (fun _ ↦ .pure (Path.refl _))
    fun _ ↦
    .ite (fun _ ↦ .pure (Path.refl _)) fun _ _ _ h ↦ ?_)
  refine Keeps.bind (.each (fun a ↦ ?_) _) (fun _ ↦ .bind (.each (fun b ↦ ?_) _) fun _ ↦
    .bind (.each (fun b ↦ ?_) _) fun _ ↦ .update fun t ↦ ?_) h
  · exact modifyJob_keeps (fun _ ↦ rfl) (fun _ ↦ rfl) .captureJob
  · exact modifyQueue_keeps .captureQueue
  · exact modifyRes_keeps .captureRes
  · exact single (.capture (f := s.toFlush)) rfl

theorem saveFinish_path {failed : Bool} :
    Post (saveFinish failed) s fun _ t ↦ s.Paths (Allowed env s (.saveFinish failed)) t := by
  refine .read ?_
  cases s.flush with
  | none => exact .pure (Path.refl _)
  | some f =>
    refine fun _ _ h ↦ Keeps.bind (.each (fun a ↦ ?_) _)
      (fun _ ↦ .bind (.each (fun b ↦ ?_) _) fun _ ↦
      .bind (.each (fun b ↦ ?_) _) fun _ ↦ .update fun t ↦ ?_) h
    · exact modifyJob_keeps (fun _ ↦ rfl) (fun _ ↦ rfl) .reapJob
    · exact modifyQueue_keeps .reapQueue
    · exact modifyRes_keeps .reapRes
    · exact single .reap rfl

/-! ### Events -/

/-- The moves of a command. -/
def CommandMove (env : Env) (s : Server) (cmd : Command) (c : Core) (l : Label) : Prop :=
  JobMove env s cmd c l ∨ QueueMove env s cmd c l ∨ ResMove s cmd c l

/-- The function of a command makes the moves of the command. -/
theorem Command.run_path {c : Option Client} (h : cmd.run env c s = .ok (reply, s')) :
    Path (CommandMove env s cmd) s.toCore s'.toCore := by
  have hjob (hp : Path (JobMove env s cmd) s.toCore s'.toCore) :
      Path (CommandMove env s cmd) s.toCore s'.toCore := hp.mono fun _ _ ↦ .inl
  have hqueue (hp : Path (QueueMove env s cmd) s.toCore s'.toCore) :
      Path (CommandMove env s cmd) s.toCore s'.toCore := hp.mono fun _ _ hl ↦ .inr (.inl hl)
  have hres (hp : Path (ResMove s cmd) s.toCore s'.toCore) :
      Path (CommandMove env s cmd) s.toCore s'.toCore := hp.mono fun _ _ hl ↦ .inr (.inr hl)
  cases cmd with
  | addJob ja => exact hjob (commandAddJob_path h)
  | modJob mj => exact hjob (commandModJob_path h)
  | delJob jobid => exact hjob (commandDelJob_path h)
  | sigJob js => exact hjob (commandSigJob_path h)
  | setTag jobid key value => exact hjob (commandTag_path .setTag h)
  | delTag jobid key => exact hjob (commandTag_path (fun hfound _ ↦ .delTag hfound) h)
  | addQueue qa => exact hqueue (commandAddQueue_path h)
  | modQueue qm => exact hqueue (commandModQueue_path h)
  | delQueue name => exact hqueue (commandDelQueue_path h)
  | addResource name count => exact hres (commandAddResource_path h)
  | modResource name count => exact hres (commandModResource_path h)
  | delResource name => exact hres (commandDelResource_path h)
  | query perm => exact of_eq (congrArg _ (sendClient_ok h))

/-- A command that moves a queue is an update. -/
theorem QueueMove.isUpdate (h : QueueMove env s cmd c l) : cmd.isUpdate = true := by
  cases h <;> rfl

theorem ResMove.isUpdate (h : ResMove s cmd c l) : cmd.isUpdate = true := by
  cases h <;> rfl

/-- A command that is refused makes no moves. -/
theorem runCommand_path {c : Client} (h : runCommand env c cmd s = .ok (reply, s')) :
    Path (Allowed env s (.client c cmd)) s.toCore s'.toCore := by
  obtain ⟨rfl, -⟩ | ⟨c', -, hok, hrun⟩ := runCommand_checked h
  · exact refl _
  · refine (Command.run_path hrun).mono fun _ _ hl ↦ ?_
    rcases hl with hl | hl | hl
    · exact .job hok hl
    · exact .queue (hok hl.isUpdate) hl
    · exact .res (hok hl.isUpdate) hl

/-- **Events make allowed moves only**, outside of recovery. -/
theorem handle_path {e : Event} (hrec : s.recovery = none) (h : handle env e s = .ok ((), s')) :
    Path (Allowed env s e) s.toCore s'.toCore := by
  cases e with
  | client c cmd =>
    obtain ⟨_, -, hrun⟩ := bind_pure_ok h
    exact runCommand_path hrun
  | agent g m =>
    obtain ⟨_, -, hrun⟩ := bind_pure_ok h
    exact (runAgentCommand_path hrec hrun).mono fun _ _ ↦ .agent
  | connect g => exact handleAgentConnection_keeps h
  | disconnect g => exact handleAgentDisconnect_path h
  | checkJobs => exact checkJobs_path h
  | releaseDeferred => exact releaseDeferred_path h
  | cleanupJobs n =>
    obtain ⟨_, -, hclean⟩ := bind_pure_ok h
    exact cleanupJobs_path hclean
  | cleanupQueues n =>
    obtain ⟨_, -, hclean⟩ := bind_pure_ok h
    exact cleanupQueues_path hclean
  | cleanupResources n =>
    obtain ⟨_, -, hclean⟩ := bind_pure_ok h
    exact cleanupResources_path hclean
  | autoCleanup => exact autoCleanup_path h
  | saveStart x => exact saveStart_path h
  | saveFinish failed => exact saveFinish_path h
  | extendJournal extended =>
    have hs' := update_ok_iff.mp (show extendJournal extended s = .ok ((), s') from h)
    exact of_eq (by rw [hs'])

/-- No event sets the recovery record. -/
theorem handle_recovery {e : Event} (hrec : s.recovery = none) (h : handle env e s = .ok ((), s')) :
    s'.recovery = none :=
  (handle_path hrec h).invariant (I := fun c ↦ c.recovery = none)
    (fun hc _ hmove ↦ hmove.frame.recovery.trans hc) hrec

end Jers
