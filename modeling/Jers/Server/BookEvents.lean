import Jers.Server.Books

/-!
# The books through commands and events

Every command, every message of an agent and every event goes by steps of the books
(`handle_books`).
-/

namespace Jers

open Exec

variable {L : Job → Prop} {G : Prop} {s s' : Server} {a b g : Addr} {dirty : Bool}
  {c : Option Client} {env : Env}

/-! ### Commands on jobs -/

/-- A request for a new job frees deleted jobs and adds one. -/
theorem commandAddJob_books {ja : JobAdd} : Keeps (BookRun L G) (commandAddJob env c ja) := by
  intro s _ s' h
  cases commandAddJob_post h with
  | refused => exact .refl
  | taken _ _ _ hmade =>
    cases hmade with
    | refused hclean => exact hclean.books
    | @added _ _ _ _ _ _ u v _ _ _ hclean _ _ _ _ _ hadd hlast =>
      rw [hlast]
      exact (hclean.books.trans (addJob_walks rfl true u _ v hadd)).tail .quiet

variable {name : Option Str} {old : Option Addr} {qm : QueueRequest} {jobid : ℕ} {cmd : Command}
  {mj : JobMod} {count : ℤ}

theorem applyMod_books {q : Option Addr} {new : Option (List JobResource)} :
    Keeps (BookRun L G) (applyMod a mj q new) :=
  .bind .getJob fun _ ↦ .bind (.whenever fun _ ↦ deallocateRes_books) fun _ ↦
    .bind (.whenever fun _ ↦ update_books fun _ ↦ rfl) fun _ ↦ .bind (modifyJob_books fun _ ↦ rfl)
    fun _ ↦
      .bind (.whenever fun _ ↦ update_books fun _ ↦ rfl) fun _ ↦ changeJobState_books

/-- A modify request moves a job between states. -/
theorem commandModJob_books : Keeps (BookRun L G) (commandModJob c mj) := by
  intro s _ s' h
  cases commandModJob_post h with
  | refused => exact .refl
  | applied _ _ _ _ _ _ happly => exact applyMod_books happly

/-- A job is deleted once, since a deleted one is refused. -/
theorem commandDelJob_books : Keeps (BookRun L G) (commandDelJob c jobid) := by
  refine fun s ↦
    Post.read (.read (.keep deniedPerm_ok fun _ _ ↦ .ite (fun _ ↦ .pure .refl) fun _ ↦ ?_))
  cases hfound : s.findJob jobid with
  | none => exact .pure .refl
  | some r =>
    refine .ite (fun _ ↦ .pure .refl) fun hdel ↦ .bind fun u t hdelete ↦ .answer fun _ ↦ ?_
    exact deleteJob_walks (Table.find?_some hfound).1 (by simpa using hdel) u t hdelete

theorem commandSigJob_books {js : JobSig} : Keeps (BookRun L G) (commandSigJob env c js) := by
  refine .bind (.read _) fun found ↦ .bind .checkPerm fun _ ↦ .unless <| ?_
  cases found with
  | none => exact .pure _
  | some r =>
    refine .unless <| .ite (fun _ ↦ ?_) fun _ ↦ .unless <|
      .ite (fun _ ↦ .answer) fun _ ↦ .bind .getQueue fun _ ↦ ?_
    · exact .bind (.bind (modifyJob_books fun _ ↦ rfl) fun _ ↦ .bind changeJobState_books fun _ ↦
        deallocateRes_books) fun _ ↦ .answer
    split
    · exact .stop _
    · exact .bind modifyAgent_books fun _ ↦ .answer

theorem editTags_books {f : List (Str × Option Str) → List (Str × Option Str)} :
    Keeps (BookRun L G) (editTags c a f) :=
  .bind (modifyJob_books fun _ ↦ rfl) fun _ ↦ .bind updateJob_books fun _ ↦
  .bind .getJob fun _ ↦ .answer

/-- Tags are not in the books. -/
theorem commandTag_books {check : Job → Bool} {code : ErrCode}
    {f : List (Str × Option Str) → List (Str × Option Str)} :
    Keeps (BookRun L G) (commandTag c jobid check code f) := by
  refine .bind (.read _) fun found ↦ .bind .deniedPerm fun _ ↦ .unless <| ?_
  cases found with
  | none => exact .pure _
  | some r => exact .unless <| editTags_books

/-! ### Commands on queues and resources -/

theorem addQueue_books {q : Queue} : Keeps (BookRun L G) (addQueue env old q dirty) :=
  .bind (.read _) fun _ ↦ .bind (.read _) fun _ ↦ .bind (.whenever fun _ ↦ .stop _) fun _ ↦
    .bind (update_books fun _ ↦ rfl) fun _ ↦ .bind (.whenever fun _ ↦ update_books fun _ ↦ rfl)
    fun _ ↦
    .bind updateQueue_books fun _ ↦ .pure _

/-- Neither are queues. -/
theorem commandAddQueue_books {qa : QueueRequest} :
    Keeps (BookRun L G) (commandAddQueue env c qa) := by
  intro s _ s' h
  cases commandAddQueue_post h with
  | refused => exact .refl
  | dropped => exact .single .quiet
  | added _ _ _ _ hadd _ => exact addQueue_books hadd

theorem applyQueueMod_books {agent : Option Addr} :
    Keeps (BookRun L G) (applyQueueMod b qm agent) :=
  .bind .getQueue fun _ ↦ .bind modifyQueue_books fun _ ↦
  .bind (.whenever fun _ ↦ update_books fun _ ↦ rfl) fun _ ↦
    updateQueue_books

theorem commandModQueue_books : Keeps (BookRun L G) (commandModQueue env c qm) := by
  intro s _ s' h
  cases commandModQueue_post h with
  | refused => exact .refl
  | applied _ _ _ happly => exact applyQueueMod_books happly

theorem commandDelQueue_books : Keeps (BookRun L G) (commandDelQueue c name) := by
  cases name with
  | none => exact .pure _
  | some name =>
    refine .bind (.read _) fun _ ↦ .bind (.read _) fun found ↦ ?_
    cases found with
    | none => exact .pure _
    | some r =>
      refine .unless <| .bind (.read _) fun _ ↦ .unless <| ?_
      exact .bind modifyQueue_books fun _ ↦ .answer

/-- Freed queues and resources leave the books as they are. -/
theorem cleanupFrom_books {stays : Addr → Daemon Bool} {free : Addr → Server → Server}
    (hstays : ∀ b, Keeps (BookRun L G) (stays b)) (hfree : ∀ b s, (free b s).books = s.books)
    (n k : ℕ) (bs : List Addr) : Keeps (BookRun L G) (cleanupFrom stays free n k bs) := by
  induction bs generalizing k with
  | nil => exact .pure _
  | cons b bs ih =>
    refine .bind (hstays b) fun _ ↦ .ite (fun _ ↦ ih _) fun _ ↦ ?_
    exact .bind (update_books (hfree b)) fun _ ↦ .unless <| ih _

theorem cleanupQueues_books {n : ℕ} : Keeps (BookRun L G) (cleanupQueues n) :=
  .bind (.read _) fun _ ↦
    cleanupFrom_books (fun _ ↦ .bind .getQueue fun _ ↦ .pure _) (fun _ _ ↦ by rfl) _ _ _

theorem cleanupResources_books {n : ℕ} : Keeps (BookRun L G) (cleanupResources n) :=
  .bind (.read _) fun _ ↦
    cleanupFrom_books (fun _ ↦ .bind .getRes fun _ ↦ .pure _) (fun _ _ ↦ by rfl) _ _ _

theorem createRes_books {r : Resource} : Keeps (BookRun L G) (createRes c old r) :=
  .bind (.bind (.read _) fun _ ↦ .bind (update_books fun _ ↦ rfl) fun _ ↦
    .bind updateRes_books fun _ ↦ .pure _) fun _ ↦ .bind .getRes fun _ ↦ .answer

theorem commandAddResource_books : Keeps (BookRun L G) (commandAddResource c name count) := by
  cases name with
  | none => exact .pure _
  | some name =>
    refine .unless <| .bind (.read _) fun found ↦ ?_
    cases found with
    | none => exact createRes_books
    | some r =>
      exact .bind (.read _) fun _ ↦ .unless <| .unless <| createRes_books

theorem commandModResource_books : Keeps (BookRun L G) (commandModResource c name count) := by
  cases name with
  | none => exact .pure _
  | some name =>
    refine .bind (.read _) fun found ↦ ?_
    cases found with
    | none => exact .pure _
    | some r =>
      refine .unless <| .bind (.read _) fun _ ↦ .unless <| ?_
      exact .bind modifyRes_books fun _ ↦ .bind updateRes_books fun _ ↦
        .bind .getRes fun _ ↦ .answer

theorem commandDelResource_books : Keeps (BookRun L G) (commandDelResource c name) := by
  cases name with
  | none => exact .pure _
  | some name =>
    refine .bind (.read _) fun found ↦ ?_
    cases found with
    | none => exact .pure _
    | some r =>
      refine .unless <| .bind (.read _) fun _ ↦ .bind (.lift _) fun _ ↦ ?_
      exact .unless <| .bind modifyRes_books fun _ ↦ .answer

/-! ### Messages of agents -/

/-- A message to an agent and a note about it. -/
theorem sendNote_books {m : AgentRequest} {f : Agent → Agent} {k : ℤ} :
    Keeps (BookRun L G) (do sendAgentMessage g m; modifyAgent g f; return k) :=
  .bind modifyAgent_books fun _ ↦ .bind modifyAgent_books fun _ ↦ .pure k

/-- An entry of a reconciliation changes the state of its job twice at most. -/
theorem reconItem_books (i : ReconItem) : Keeps (BookRun L G) (reconItem i) := by
  refine .bind (.read _) fun found ↦ ?_
  cases found with
  | none => exact .stop _
  | some r =>
    refine .bind (modifyJob_books fun _ ↦ rfl) fun _ ↦
      .bind (.whenever fun _ ↦ .bind (modifyJob_books fun _ ↦ rfl) fun _ ↦ ?_)
      fun _ ↦ .bind (.whenever fun _ ↦ .bind (modifyJob_books fun _ ↦ rfl) fun _ ↦ ?_) fun _ ↦
      modifyJob_books fun _ ↦ rfl
    · exact changeJobState_books
    · exact changeJobState_books

theorem jobStarted_books {pid startTime : ℤ} : Keeps (BookRun L G) (jobStarted a pid startTime) :=
  .bind changeJobState_books fun _ ↦ .bind (modifyJob_books fun _ ↦ rfl) fun _ ↦
  .bind .getJob fun _ ↦
    .bind (.read _) fun _ ↦ .bind (.whenever fun _ ↦ allocateRes_books) fun _ ↦
    update_books fun _ ↦ rfl

theorem jobCompleted_books {exitcode finishTime : ℤ} {usage : Usage} :
    Keeps (BookRun L G) (jobCompleted a exitcode finishTime usage) := by
  refine .bind .getJob fun _ ↦ .bind (.whenever fun _ ↦ deallocateRes_books) fun _ ↦
    .bind (modifyJob_books fun _ ↦ rfl) fun _ ↦ .bind changeJobState_books fun _ ↦
    .bind (modifyJob_books fun _ ↦ rfl) fun _ ↦ update_books fun _ ↦ ?_
  split <;> rfl

/-- **Messages of agents** go by steps of the books. -/
theorem runAgentCommand_books {m : AgentMsg} : Keeps (BookRun L G) (runAgentCommand env g m) := by
  cases m with
  | login =>
    refine .bind .getAgent fun _ ↦ .bind (.read _) fun _ ↦
      .bind (.each (fun _ ↦ .bind .getQueue fun _ ↦
      .whenever fun _ ↦ modifyQueue_books) _) fun _ ↦ .bind (.read _) fun _ ↦ .ite (fun _ ↦ ?_) ?_
    · split
      · exact .pure _
      · exact sendNote_books
    · exact fun _ ↦ sendNote_books
  | authResp nonce hmac datetime =>
    refine .bind .getAgent fun _ ↦ ?_
    split
    · exact .unless <| sendNote_books
    · exact .pure _
  | recon items => exact .bind (.each reconItem_books _) fun _ ↦ sendNote_books
  | jobStarted jobid pid startTime =>
    refine .bind (.read _) fun found ↦ ?_
    cases found with
    | none => exact .pure _
    | some r => exact .bind jobStarted_books fun _ ↦ .pure _
  | jobCompleted jobid exitcode finishTime usage =>
    refine .bind (.read _) fun found ↦ ?_
    cases found with
    | none => exact .pure _
    | some r => exact .bind jobCompleted_books fun _ ↦ .pure _
  | proxyConn pid uid => exact .bind (update_books fun _ ↦ rfl) fun _ ↦ .pure _
  | proxyData pid data =>
    cases data with
    | none => exact .pure _
    | some data =>
      refine .bind (.read _) fun client ↦ ?_
      cases client with
      | none => exact .pure _
      | some k => exact .bind (update_books fun _ ↦ rfl) fun _ ↦ .pure _
  | proxyClose pid =>
    refine .bind (.read _) fun client ↦ ?_
    cases client with
    | none => exact .pure _
    | some k => exact .bind (update_books fun _ ↦ rfl) fun _ ↦ .pure _
  | unknown => exact .pure _

/-! ### Events -/

/-- **Commands** go by steps of the books. -/
theorem Command.run_books : Keeps (BookRun L G) (cmd.run env c) := by
  cases cmd with
  | addJob ja => exact commandAddJob_books
  | modJob mj => exact commandModJob_books
  | delJob jobid => exact commandDelJob_books
  | sigJob js => exact commandSigJob_books
  | setTag | delTag => exact commandTag_books
  | addQueue qa => exact commandAddQueue_books
  | modQueue qm => exact commandModQueue_books
  | delQueue name => exact commandDelQueue_books
  | addResource name count => exact commandAddResource_books
  | modResource name count => exact commandModResource_books
  | delResource name => exact commandDelResource_books
  | query perm => exact .answer

theorem runCommand_books {c : Client} : Keeps (BookRun L G) (runCommand env c cmd) := by
  intro s reply s' h
  obtain ⟨rfl, -⟩ | ⟨c', -, -, hrun⟩ := runCommand_checked h
  · exact .refl
  · exact Command.run_books hrun

/-- Writes to the objects of a save. -/
theorem eachObject_books {as bs rs : List Addr} {f : Job → Job} {g : Queue → Queue}
    {h : Resource → Resource} {k : Server → Server}
    (hf : ∀ a, Keeps (BookRun L G) (modifyJob a f)) (hk : ∀ s, (k s).books = s.books) :
    Keeps (BookRun L G) (do
      each (fun a ↦ modifyJob a f) as
      each (fun b ↦ modifyQueue b g) bs
      each (fun b ↦ modifyRes b h) rs
      update k) :=
  .bind (.each hf _) fun _ ↦ .bind (.each (fun _ ↦ modifyQueue_books) _) fun _ ↦
    .bind (.each (fun _ ↦ modifyRes_books) _) fun _ ↦ update_books hk

/-- The first half of a save flags objects. -/
theorem saveStart_books {extended : Bool} : Keeps (BookRun L G) (saveStart extended) :=
  .bind (.read _) fun _ ↦ .unless <| .unless <|
    .unless <| eachObject_books (fun _ ↦ modifyJob_books fun _ ↦ rfl) fun _ ↦ rfl

/-- The second half takes the flags back. -/
theorem saveFinish_books {failed : Bool} : Keeps (BookRun L G) (saveFinish failed) := by
  refine .bind (.read _) fun flush ↦ ?_
  cases flush with
  | none => exact .pure _
  | some f => exact eachObject_books (fun _ ↦ modifyJob_books fun _ ↦ rfl) fun _ ↦ rfl

/-- **Events keep the books**, if the counter of pending jobs is not wrong when it is 0. -/
theorem handle_books {env : Env} {e : Event} (hcount : s.stats.pending = 0 → s.candidates = [])
    (hL : ∀ g, e = .disconnect g → Losable L g s) (hG : e = .checkJobs → G)
    (h : handle env e s = .ok ((), s')) : Relation.ReflTransGen (Booked L G) s s' := by
  cases e with
  | client c cmd => exact Keeps.bind runCommand_books (fun _ ↦ .pure _) h
  | agent g m => exact Keeps.bind runAgentCommand_books (fun _ ↦ .pure _) h
  | connect g => exact Keeps.bind .getAgent (fun _ ↦ .whenever fun _ ↦ modifyAgent_books) h
  | disconnect g =>
    have hrest : Keeps (BookRun L G) (markQueueStopped g) := .bind (.read _) fun _ ↦
      .each (fun _ ↦ .bind .getQueue fun _ ↦ .whenever fun _ ↦ modifyQueue_books) _
    refine Walks.bind (markJobsUnknown_walks (hL g rfl)) (fun _ ↦ ?_) () s' h
    exact (Keeps.bind hrest fun _ ↦ modifyAgent_books).walks
  | checkJobs => exact checkJobs_walks (hG rfl) hcount () s' h
  | releaseDeferred => exact releaseDeferred_books h
  | cleanupJobs n =>
    obtain ⟨m, -, hclean⟩ := bind_pure_ok h
    exact Freed.books (cleanupJobs_walks n s m _ hclean)
  | cleanupQueues n => exact Keeps.bind cleanupQueues_books (fun _ ↦ .pure _) h
  | cleanupResources n => exact Keeps.bind cleanupResources_books (fun _ ↦ .pure _) h
  | autoCleanup => exact autoCleanup_walks env s () s' h
  | saveStart extended => exact saveStart_books h
  | saveFinish failed => exact saveFinish_books h
  | extendJournal extended =>
    rw [update_ok_iff.mp (show extendJournal extended s = .ok ((), s') from h)]
    exact .single .quiet

end Jers
