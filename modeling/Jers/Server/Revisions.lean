import Jers.Server.Ownership
import Jers.State.SavedRevision

/-!
# Modifies and the revision guard

A modify raises the revision of its object by one, and its record carries the revision that it left.
Recovery takes a record to be in the state file when the loaded object has at least that revision.
But an object is put into its table by a call that raises the revision too, so that right after
loading its revision is one above the saved one: the first modify after the save is passed over.
-/

namespace Jers

open Exec Option Table Sample

/-! ### Objects and their revisions -/

/-- What a modify command names. -/
inductive ObjKey
  | job (jobid : ℕ)
  | queue (name : Str)
  | resource (name : Str)
  deriving DecidableEq

/-- The revision of an object, if there is one of that name. -/
def Tables.revision (t : Tables) : ObjKey → Option ℤ
  | .job jobid => (t.findJob jobid).map fun x ↦ x.2.obj.revision
  | .queue name => (t.findQueue name).map fun x ↦ x.2.obj.revision
  | .resource name => (t.findResource name).map fun x ↦ x.2.obj.revision

/-- The object of a `JOB_MOD`, `QUEUE_MOD` or `RESOURCE_MOD`. -/
def Command.modifies : Command → Option ObjKey
  | .modJob mj => some (.job mj.jobid)
  | .modQueue qm => qm.name.map .queue
  | .modResource name _ => name.map .resource
  | _ => none

variable {n : ℤ} {mj : JobMod} {b : Addr} {qm : QueueRequest} {r : Record} {dirty : Bool}

section Accepted

variable {s s' : Server} {c : Client} {reply : Reply}

/-- What `JOB_MOD` does: it sends an error and changes nothing, or it changes the job. -/
theorem commandModJob_applied (h : commandModJob (some c) mj s = .ok (reply, s')) :
    (s = s' ∧ reply.sent ≠ some .returnCode) ∨ ∃ a j q new k f, s.findJob mj.jobid = some (a, j) ∧
      j.internalState.deleted = false ∧ mj.refusal none j = none ∧
      Shift a j (j.modified mj q new) k s.toCore s'.toCore ∧
      k.deferred = f ∘ mj.undefers a j ∧ mj.Defers s.toCore a f ∧
      reply.sent = some .returnCode ∧ reply.revision = j.obj.revision + 1 := by
  cases commandModJob_post h with
  | refused hsent => exact .inl ⟨rfl, hsent⟩
  | applied hfound hdel _ hallow _ _ happly hj' hsend =>
    obtain ⟨rfl, -⟩ := pure_ok_iff.mp hsend
    obtain ⟨k, f, hshift, -, -, hdeferred, hf⟩ :=
      applyMod_shift (Table.find?_some hfound).1 hallow happly
    refine .inr ⟨_, _, _, _, k, f, hfound, hdel, hallow, hshift, hdeferred, hf, rfl, ?_⟩
    obtain rfl := some.inj (hj'.symm.trans hshift.found')
    rfl

/-- **An accepted `JOB_MOD`** is one shift of the job, and answers with its new revision. -/
theorem commandModJob_accepted
    (h : commandModJob (some c) mj s = .ok (reply, s')) (hsent : reply.sent = some .returnCode) :
    ∃ a j q new k, s.findJob mj.jobid = some (a, j) ∧
      Shift a j (j.modified mj q new) k s.toCore s'.toCore ∧ reply.revision = j.obj.revision +
      1 := by
  rcases commandModJob_applied h with
    ⟨-, hnot⟩ | ⟨a, j, q, new, k, -, hfound, -, -, hshift, -, -, -, hrev⟩
  · exact absurd hsent hnot
  · exact ⟨a, j, q, new, k, hfound, hshift, hrev⟩

/-- What `QUEUE_MOD` writes. -/
theorem applyQueueMod_ok {agent : Option Addr} (h : applyQueueMod b qm agent s = .ok ((), s')) :
    ∃ q, s.queueTable.get? b = some q ∧ (s'.queueTable = s.queueTable.modify b fun q ↦
        { qm.edit agent q with obj := q.obj.updated (qm.dirty q) }) ∧
      s'.defaultQueue = if qm.defaultQueue ≠ unset32 then some b else s.defaultQueue := by
  obtain ⟨q, hq, h₁⟩ := getQueue_bind_ok h
  obtain ⟨_, t, hmod, h₂⟩ := bind_ok_iff.mp h₁
  obtain ⟨_, u, hdefault, hupdate⟩ := bind_ok_iff.mp h₂
  obtain ⟨-, -, rfl⟩ := modifyQueue_ok hmod
  obtain ⟨-, -, htable, hdef, -⟩ := updateQueue_ok hupdate
  have hu : u.queueTable = s.queueTable.modify b (qm.edit agent) ∧
      u.defaultQueue = if qm.defaultQueue ≠ unset32 then some b else s.defaultQueue := by
    rcases whenever_ok_iff.mp hdefault with ⟨hd, hupd⟩ | ⟨hd, rfl⟩
    · rw [update_ok_iff.mp hupd, if_pos hd]
      exact ⟨rfl, rfl⟩
    · exact ⟨rfl, (if_neg hd).symm⟩
  refine ⟨q, hq, ?_, hdef.trans hu.2⟩
  rw [htable, hu.1, modify_modify]
  exact modify_congr hq rfl

theorem commandModQueue_accepted {env : Env}
    (h : commandModQueue env (some c) qm s = .ok (reply, s'))
    (hsent : reply.sent = some .returnCode) : ∃ name b q agent, qm.name = some name ∧
      s.findQueue name = some (b, q) ∧ s'.queueTable = (s.queueTable.modify b fun q ↦
        { qm.edit agent q with obj := q.obj.updated (qm.dirty q) }) ∧
      reply.revision = q.obj.revision + 1 := by
  cases commandModQueue_post h with
  | refused hnot => exact absurd hsent hnot
  | @applied name b q q' agent _ _ hname hfound _ happly hq' hsend =>
    obtain ⟨rfl, -⟩ := pure_ok_iff.mp hsend
    obtain ⟨-, -, htable, -⟩ := applyQueueMod_ok happly
    refine ⟨name, b, q, agent, hname, hfound, htable, ?_⟩
    rw [htable, get?_modify_self (Table.find?_some hfound).1] at hq'
    obtain rfl := some.inj hq'
    rfl

theorem commandModResource_accepted {name : Option Str} {count : ℤ}
    (h : commandModResource (some c) name count s = .ok (reply, s'))
    (hsent : reply.sent = some .returnCode) : ∃ n b r, name = some n ∧
      s.findResource n = some (b, r) ∧ s'.resTable = (s.resTable.modify b fun r ↦
        { r with count := count, obj := r.obj.updated true }) ∧
      reply.revision = r.obj.revision + 1 := by
  cases commandModResource_post h with
  | refused hnot => exact absurd hsent hnot
  | @applied n b r r' _ _ _ hname hfound _ _ hmod hupdate hr' hsend =>
    obtain ⟨rfl, -⟩ := pure_ok_iff.mp hsend
    obtain ⟨-, -, rfl⟩ := modifyRes_ok hmod
    obtain ⟨_, v, htouch, hdirty⟩ := bind_ok_iff.mp hupdate
    obtain ⟨-, -, rfl⟩ := modifyRes_ok htouch
    obtain rfl : s' = _ := by
      rcases whenever_ok_iff.mp hdirty with ⟨-, hupd⟩ | ⟨hne, -⟩
      · exact update_ok_iff.mp hupd
      · exact absurd rfl hne
    have htable : (s.resTable.modify b fun r ↦ { r with count := count }).modify b
        (fun r ↦ { r with obj := r.obj.updated true }) =
        s.resTable.modify b fun r ↦ { r with count := count, obj := r.obj.updated true } := by
      rw [modify_modify]
      rfl
    refine ⟨n, b, r, hname, hfound, htable, ?_⟩
    have hr' : (_ : Table Resource).get? b = some r' := hr'
    rw [htable, get?_modify_self (Table.find?_some hfound).1] at hr'
    obtain rfl := some.inj hr'
    rfl

end Accepted

/-! ### The modifies after a save -/

/-- A modify of the object `key` is accepted, and `r` is its record. -/
structure Modifies (key : ObjKey) (s : Server) (r : Record) (s' : Server) : Prop where
  recovery : s.recovery = none
  ran : ∃ env c cmd time reply, cmd.modifies = some key ∧ runCommand env c cmd s = .ok (reply, s') ∧
    reply.sent = some .returnCode ∧ journalCommand time c cmd reply = some r

variable {key : ObjKey}

/-- **A modify raises the revision by one**, and its record carries the new one. -/
theorem Modifies.revision {s s' : Server} (h : Modifies key s r s') :
    ∃ n cmd, s.revision key = some n ∧ s'.revision key = some (n + 1) ∧ r.revision = n + 1 ∧
      r.entry = .command cmd ∧ cmd.modifies = some key := by
  obtain ⟨hrec, env, c, cmd, time, reply, hkey, hrun, hsent, hjournal⟩ := h
  obtain ⟨⟨-, hst⟩, rfl⟩ : (cmd.isUpdate = true ∧ reply.status = 0) ∧ _ = r := by
    simpa [journalCommand] using hjournal
  obtain ⟨c', -, hran⟩ := runCommand_ran hrun hst
  cases cmd with
  | modJob mj =>
    obtain rfl := some.inj hkey
    obtain ⟨a, j, q, new, k, hj, hshift, hrev⟩ := commandModJob_accepted hran hsent
    refine ⟨j.obj.revision, .modJob mj, congrArg (Option.map _) hj, ?_, hrev, rfl, rfl⟩
    have hfind : s'.findJob mj.jobid = some (a, j.modified mj q new) := by
      rw [Tables.findJob, hshift.jobs]
      exact find?_modify_self hj (Table.find?_some hj).2
    exact congrArg (Option.map _) hfind
  | modQueue qm =>
    obtain ⟨name, b, q, agent, hname, hq, htable, hrev⟩ := commandModQueue_accepted hran hsent
    obtain rfl : ObjKey.queue name = key := by simpa [Command.modifies, hname] using hkey
    refine ⟨q.obj.revision, .modQueue qm, congrArg (Option.map _) hq, ?_, hrev, rfl, hkey⟩
    have hfind : s'.findQueue name =
        some (b, { qm.edit agent q with obj := q.obj.updated (qm.dirty q) }) := by
      rw [Tables.findQueue, htable]
      exact find?_modify_self hq (Table.find?_some hq).2
    exact congrArg (Option.map _) hfind
  | modResource n count =>
    obtain ⟨name, b, x, rfl, hx, htable, hrev⟩ := commandModResource_accepted hran hsent
    obtain rfl := some.inj hkey
    refine ⟨x.obj.revision, .modResource name count, congrArg (Option.map _) hx, ?_, hrev, rfl, rfl⟩
    have hfind : s'.findResource name =
        some (b, { x with count := count, obj := x.obj.updated true }) := by
      rw [Tables.findResource, htable]
      exact find?_modify_self hx (Table.find?_some hx).2
    exact congrArg (Option.map _) hfind
  | addJob | delJob | sigJob | setTag | delTag | addQueue | delQueue | addResource | delResource
  | query => contradiction

/-- From a save to the crash: modifies of the object `key` with their records, and between them
anything that leaves the revision of the object alone and writes no record. -/
inductive Later (key : ObjKey) : Server → List Record → Server → Prop
  | crash (s : Server) : Later key s [] s
  | quiet {s s' s'' : Server} {rs : List Record} :
      s'.revision key = s.revision key → Later key s' rs s'' → Later key s rs s''
  | modify {s s' s'' : Server} {r : Record} {rs : List Record} :
      Modifies key s r s' → Later key s' rs s'' → Later key s (r :: rs) s''

/-- The first record after a save has the revision after the saved one. -/
theorem Later.first {s s' : Server} {rs' : List Record} (h : Later key s rs' s')
    (hn : s.revision key = some n) {rs : List Record} (hrs : rs' = r :: rs) :
    r.revision = n + 1 ∧ ∃ cmd, r.entry = .command cmd ∧ cmd.modifies = some key := by
  induction h with
  | crash s => exact nomatch hrs
  | quiet hkeep _ ih => exact ih (hkeep.trans hn) hrs
  | modify hmod _ _ =>
    obtain ⟨rfl, -⟩ := List.cons.inj hrs
    obtain ⟨m, cmd, hm, -, hrev, hentry, hkey⟩ := hmod.revision
    obtain rfl := mem_unique hm hn
    exact ⟨hrev, cmd, hentry, hkey⟩

/-! ### The guard -/

section

variable {t t' : Server} {c : Option Client} {reply : Reply} {rec : Recovery}

/-- A record that is not above the revision of the job changes nothing. -/
theorem commandModJob_skips (hrec : t.recovery = some rec)
    (hn : t.revision (.job mj.jobid) = some n) (hle : rec.revision ≤ n)
    (h : commandModJob c mj t = .ok (reply, t')) : t = t' := by
  cases commandModJob_post h with
  | refused => rfl
  | @applied _ j _ _ _ _ _ hfound _ hnew =>
    have hj : j.obj.revision = n := by simpa [Tables.revision, hfound] using hn
    simp [hrec, hj, hle] at hnew

theorem commandModQueue_skips {env : Env} {name : Str} (hname : qm.name = some name)
    (hrec : t.recovery = some rec) (hn : t.revision (.queue name) = some n) (hle : rec.revision ≤ n)
    (h : commandModQueue env c qm t = .ok (reply, t')) : t = t' := by
  cases commandModQueue_post h with
  | refused => rfl
  | @applied name' _ q _ _ _ _ hname' hfound hnew =>
    obtain rfl := mem_unique hname hname'
    have hq : q.obj.revision = n := by simpa [Tables.revision, hfound] using hn
    simp [hrec, hq, hle] at hnew

theorem commandModResource_skips {name : Str} {count : ℤ} (hrec : t.recovery = some rec)
    (hn : t.revision (.resource name) = some n) (hle : rec.revision ≤ n)
    (h : commandModResource c (some name) count t = .ok (reply, t')) : t = t' := by
  cases commandModResource_post h with
  | refused => rfl
  | @applied name' _ r _ _ _ _ hname hfound _ hnew =>
    obtain rfl := some.inj hname
    have hres : r.obj.revision = n := by simpa [Tables.revision, hfound] using hn
    simp [hrec, hres, hle] at hnew

end

/-- **The guard of recovery**: a record that is not above the revision of its object is passed
over. -/
theorem replayTransaction_skips {env : Env} {t t' : Server} {cmd : Command}
    (hentry : r.entry = .command cmd) (hkey : cmd.modifies = some key)
    (hn : t.revision key = some n) (hle : r.revision ≤ n)
    (h : replayTransaction env r t = .ok ((), t')) : t' = t.recovering r := by
  cases cmd with
  | modJob mj =>
    obtain rfl := some.inj hkey
    obtain ⟨reply, hrun, -⟩ := (replayTransaction_command hentry rfl).mp h
    exact (commandModJob_skips (t := t.recovering r) rfl hn hle hrun).symm
  | modQueue qm =>
    obtain ⟨name, hname, rfl⟩ := map_eq_some_iff.mp hkey
    obtain ⟨reply, hrun, -⟩ := (replayTransaction_command hentry rfl).mp h
    exact (commandModQueue_skips (t := t.recovering r) hname rfl hn hle hrun).symm
  | modResource name count =>
    obtain ⟨name, rfl, rfl⟩ := map_eq_some_iff.mp hkey
    obtain ⟨reply, hrun, -⟩ := (replayTransaction_command hentry rfl).mp h
    exact (commandModResource_skips (t := t.recovering r) rfl hn hle hrun).symm
  | addJob | delJob | sigJob | setTag | delTag | addQueue | delQueue | addResource | delResource
  | query => exact nomatch hkey

/-! ### Loading -/

/-- The daemon `t` has loaded the object `key` from the state file that was written of it in the
state `s`; what it has loaded besides leaves the revision of the object alone. A job is one whose
raw texts have no newline, so that its file has the lines that were written. -/
inductive Loaded (s t : Server) : ObjKey → Prop
  | job {a : Addr} {j j' : Job} {now rc : ℤ} {text : Str} {t₀ t₁ : Server} :
      s.findJob j.jobid = some (a, j) → j.WellFormed s.toTables →
      (∀ (x : RawItem) (i : ℕ), x.At j i → '\n' ∉ x.pre) →
      stateSaveJob s.toTables now j = .ok text →
      stateLoadJob t₀.toTables (jobFileName j.jobid) text = .ok j' → t₀.findJob j.jobid = none →
      addJob j' false t₀ = .ok (rc, t₁) → t.revision (.job j.jobid) = t₁.revision (.job j.jobid) →
      Loaded s t (.job j.jobid)
  | queue {b b' : Addr} {q q' : Queue} {now : ℤ} {env : Env} {t₀ t₁ : Server} :
      s.findQueue q.name = some (b, q) → IsInt64 q.obj.revision →
      stateLoadQueue (queueFileName q.name)
        (stateSaveQueue now (s.defaultQueue = some b) q) = .ok q' →
      t₀.findQueue q.name = none → addQueue env none q' false t₀ = .ok (b', t₁) →
      t.revision (.queue q.name) = t₁.revision (.queue q.name) → Loaded s t (.queue q.name)
  | resource {b b' : Addr} {r r' : Resource} {now : ℤ} {t₀ t₁ : Server} :
      s.findResource r.name = some (b, r) → IsInt64 r.obj.revision →
      stateLoadResource (resourceFileName r.name) (stateSaveResource now r) = .ok r' →
      t₀.findResource r.name = none → addRes none r' false t₀ = .ok (b', t₁) →
      t.revision (.resource r.name) = t₁.revision (.resource r.name) → Loaded s t (.resource r.name)

section

variable {t t' : Server}

theorem addJob_revision {j : Job} {rc : ℤ} (h : addJob j dirty t = .ok (rc, t'))
    (hnone : t.findJob j.jobid = none) :
    t'.revision (.job j.jobid) = some (j.obj.revision + 1) := by
  obtain ⟨j', hget, hfind, -⟩ := addJob_new h hnone
  obtain ⟨-, hsome, -⟩ | ⟨-, -, f, hmove, -⟩ := addJob_ok h
  · exact absurd hnone hsome
  · have hmove : Shift t.jobTable.next _ _ _
        { t.toCore with jobTable := t.jobTable.push { j with state := .cleared } } t'.toCore :=
        hmove
    obtain rfl := some.inj (hget.symm.trans hmove.found')
    exact congrArg (Option.map _) hfind

theorem addQueue_revision {env : Env} {q : Queue} (h : addQueue env none q dirty t = .ok (b, t'))
    (hnone : t.findQueue q.name = none) :
    t'.revision (.queue q.name) = some (q.obj.revision + 1) := by
  obtain ⟨rfl, hget, -⟩ := addQueue_ok h
  have hfound : t'.findQueue q.name = some (t.queueTable.next, q.added env t dirty) := by
    refine find?_of_unique ((hget _).trans (if_pos rfl)) (beq_self_eq_true _) fun b w hw hb ↦ ?_
    by_contra hne
    have hw := (if_neg hne).symm.trans ((hget b).symm.trans hw)
    exact nomatch hb.symm.trans (find?_none hnone hw)
  exact congrArg (Option.map _) hfound

theorem addRes_revision {r : Resource} (h : addRes none r dirty t = .ok (b, t'))
    (hnone : t.findResource r.name = none) :
    t'.revision (.resource r.name) = some (r.obj.revision + 1) := by
  obtain ⟨_, rfl, h₁⟩ := read_bind_ok_iff.mp h
  obtain ⟨_, u, hupd, h₂⟩ := bind_ok_iff.mp h₁
  obtain ⟨_, -, hupdate⟩ := bind_pure_ok h₂
  have hu : u.resTable = t.resTable.push r := by
    rw [update_ok_iff.mp hupd]
    rfl
  have hfound : u.findResource r.name = some (t.resTable.next, r) := by
    rw [Tables.findResource, hu, find?_push,
      show t.resTable.find? (fun i ↦ i.name == r.name) = none from hnone]
    simp
  obtain ⟨_, w, htouch, hdirty⟩ := bind_ok_iff.mp hupdate
  obtain ⟨-, -, rfl⟩ := modifyRes_ok htouch
  have hw : t'.resTable = u.resTable.modify t.resTable.next
      fun r ↦ { r with obj := r.obj.updated dirty } := by
    rcases whenever_ok_iff.mp hdirty with ⟨-, hupd⟩ | ⟨-, rfl⟩
    · rw [update_ok_iff.mp hupd]
      rfl
    · rfl
  rw [Tables.revision, Tables.findResource, hw,
    find?_modify_self hfound (Table.find?_some hfound).2]
  rfl

end

/-- **A loaded object has the revision after the saved one.** -/
theorem Loaded.revision {s t : Server} (h : Loaded s t key) :
    ∃ n, s.revision key = some n ∧ t.revision key = some (n + 1) := by
  cases h with
  | job hj hwf hfree hsave hload hnone hadd hrest =>
    obtain ⟨hid, hrev⟩ := stateLoadJob_revision hwf hfree hsave hload
    rw [← hid] at hnone
    have hadded := addJob_revision hadd hnone
    rw [hid, hrev] at hadded
    exact ⟨_, congrArg (Option.map _) hj, hrest.trans hadded⟩
  | queue hq hfit hload hnone hadd hrest =>
    have hrev := stateLoadQueue_revision hfit hload
    have hname := stateLoadQueue_name hload
    rw [← hname] at hnone
    have hadded := addQueue_revision hadd hnone
    rw [hname, hrev] at hadded
    exact ⟨_, congrArg (Option.map _) hq, hrest.trans hadded⟩
  | resource hr hfit hload hnone hadd hrest =>
    have hrev := stateLoadResource_revision hfit hload
    have hname := stateLoadResource_name hload
    rw [← hname] at hnone
    have hadded := addRes_revision hadd hnone
    rw [hname, hrev] at hadded
    exact ⟨_, congrArg (Option.map _) hr, hrest.trans hadded⟩

/-! ### What recovery is to do -/

/-- The fields of a job that a modify names are the same after recovery. -/
structure JobMod.Agrees (mj : JobMod) (s t : Tables) (i j : Job) : Prop where
  name : mj.name.isSome → j.jobname = i.jobname
  queue : mj.queue.isSome → t.queueName j.queue = s.queueName i.queue
  deferTime : mj.deferTime ≠ unsetTimeT → j.deferTime = i.deferTime
  nice : mj.nice ≠ unset32 → j.nice = i.nice
  priority : mj.priority ≠ unset32 → j.priority = i.priority
  state : mj.hold ≠ unset8 ∨ mj.restart = true → j.state = i.state
  envs : mj.envs.isSome → j.envs = i.envs
  tags : mj.tags.isSome → j.tags = i.tags
  resources : mj.resources.isSome ∨ mj.clearResources = true →
    j.reqResources.map t.needed = i.reqResources.map s.needed

/-- The fields of a queue that a modify names. -/
structure QueueRequest.Agrees (qm : QueueRequest) (p q : Queue) : Prop where
  host : qm.node.isSome → q.host = p.host
  desc : qm.desc.isSome → q.desc = p.desc
  jobLimit : qm.jobLimit ≠ unset32 → q.jobLimit = p.jobLimit
  state : qm.state ≠ unset32 → q.state = p.state
  priority : qm.priority ≠ unset32 → q.priority = p.priority
  nice : qm.nice ≠ unset32 → q.nice = p.nice

/-- The object of a modify is there before the crash and after recovery, and the fields that the
modify names are the same. -/
def Command.Agrees (s t : Server) : Command → Prop
  | .modJob mj => ∃ x y, s.findJob mj.jobid = some x ∧ t.findJob mj.jobid = some y ∧
      mj.Agrees s.toTables t.toTables x.2 y.2
  | .modQueue qm => ∃ name x y, qm.name = some name ∧ s.findQueue name = some x ∧
      t.findQueue name = some y ∧ qm.Agrees x.2 y.2 ∧
      (qm.defaultQueue ≠ unset32 → (t.defaultQueue = some y.1 ↔ s.defaultQueue = some x.1))
  | .modResource name _ => ∃ n x y, name = some n ∧ s.findResource n = some x ∧
      t.findResource n = some y ∧ y.2.count = x.2.count
  | _ => True

/-- The records are replayed, and none of them is passed over: each moves the revision of the
object. -/
def AppliesAll (env : Env) (key : ObjKey) : List Record → Server → Server → Prop
  | [], t, t' => t = t'
  | r :: rs, t, t' => ∃ u, replayTransaction env r t = .ok ((), u) ∧
      u.revision key ≠ t.revision key ∧ AppliesAll env key rs u t'

/-- The daemon `t`, which has loaded the state file, recovers the modifies `rs` that led to `s'`. -/
def Recovers (env : Env) (key : ObjKey) (rs : List Record) (s' t : Server) : Prop :=
  ∃ t', AppliesAll env key rs t t' ∧ ∀ r ∈ rs, ∀ cmd, r.entry = .command cmd → cmd.Agrees s' t'

/-- **Which modifies survive a crash.** After a save that has written the state file of an object
and has marked the journal, the modifies that follow are recovered exactly when there are none: the
first one is always passed over. -/
theorem recovers_later_iff {env : Env} {key : ObjKey} {s s' t : Server} {rs : List Record}
    (hload : Loaded s t key) (hlater : Later key s rs s') : Recovers env key rs s' t ↔ rs = [] := by
  obtain ⟨n, hs, ht⟩ := hload.revision
  constructor
  · rintro ⟨t', happlies, -⟩
    cases rs with
    | nil => rfl
    | cons r rs =>
      -- the first record has the revision that loading has already given to the object
      obtain ⟨hrev, cmd, hentry, hkey⟩ := hlater.first hs rfl
      obtain ⟨u, hreplay, hmoved, -⟩ := happlies
      obtain rfl := replayTransaction_skips hentry hkey ht hrev.le hreplay
      exact absurd rfl hmoved
  · rintro rfl
    exact ⟨t, rfl, fun r hr ↦ nomatch hr⟩

/-! ### A modify that is lost -/

namespace Sample

def resourceName : Str := "licence".toList

def modify : Command := .modResource (some resourceName) 5

set_option synthInstance.maxSize 256 in
/-- A resource is added and saved, and then modified; the state file is loaded by a new daemon, and
the record of the modify is replayed. -/
theorem exists_modifyAfterSave : ∃ s s' t t' r, Runs anyEvent config hosts s ∧
    Loaded s t (.resource resourceName) ∧ Modifies (.resource resourceName) s r s' ∧
    r.entry = .command modify ∧ replayTransaction env r t = .ok ((), t') ∧
    (∃ x ∈ s'.findResource resourceName, x.2.count = 5) ∧
    ∃ y ∈ t'.findResource resourceName, y.2.count = 2 := by
  obtain ⟨s, hrun, hrec, m, hm, hsent, x, hx, hname, hfit, r, hr, x', hload, t, hadd, t', hreplay,
      hcounts⟩ := exists_runs anyEvent config hosts (events
        [.client root (.addResource (some resourceName) 2), .saveStart true, .saveFinish false])
    (fun s ↦ s.recovery = none ∧
      ∃ m ∈ (runCommand env root modify s).toOption, m.1.sent = some .returnCode ∧
      ∃ x ∈ s.findResource resourceName, x.2.name = resourceName ∧ IsInt64 x.2.obj.revision ∧
      ∃ r ∈ journalCommand env.now root modify m.1,
      ∃ x' ∈ (stateLoadResource (resourceFileName x.2.name)
        (stateSaveResource env.now x.2)).toOption,
      ∃ t ∈ (addRes none x' false (Server.initial config hosts)).toOption,
      ∃ t' ∈ (replayTransaction env r t.2).toOption,
      (∃ x ∈ m.2.findResource resourceName, x.2.count = 5) ∧
      ∃ y ∈ t'.2.findResource resourceName, y.2.count = 2) (by decide +kernel)
  have hentry : r.entry = .command modify := by
    rw [journalCommand] at hr
    split at hr
    · rw [← some.inj hr]
    · contradiction
  have hloaded : Loaded s t.2 (.resource x.2.name) := .resource (by rwa [hname]) hfit
    (Except.toOption_eq_some_iff.mp hload) rfl (Except.toOption_eq_some_iff.mp hadd) rfl
  rw [hname] at hloaded
  exact ⟨s, m.2, t.2, t'.2, r, hrun, hloaded, ⟨hrec, env, root, _, env.now, m.1, rfl,
    Except.toOption_eq_some_iff.mp hm, hsent, hr⟩, hentry,
    Except.toOption_eq_some_iff.mp hreplay, hcounts⟩

end Sample

/-- A `RESOURCE_MOD` right after a save: after the crash the resource has the old count. -/
theorem exists_modify_lost : ∃ s s' t rs, Runs anyEvent config hosts s ∧
    Loaded s t (.resource resourceName) ∧ Later (.resource resourceName) s rs s' ∧
    ¬ Recovers env (.resource resourceName) rs s' t := by
  obtain ⟨s, s', t, t', r, hruns, hload, hmod, hentry, hreplay, ⟨x', hx', hfive⟩, y', hy', htwo⟩ :=
    exists_modifyAfterSave
  refine ⟨s, s', t, [r], hruns, hload, .modify hmod (.crash s'), ?_⟩
  rintro ⟨t'', ⟨u, hreplay', -, rfl⟩, hagree⟩
  obtain ⟨-, rfl⟩ := Prod.mk.inj (Except.ok.inj (hreplay.symm.trans hreplay'))
  obtain ⟨n, x, y, hn, hx, hy, hcount⟩ := hagree r List.mem_cons_self _ hentry
  obtain rfl := some.inj hn
  obtain rfl := Option.mem_unique hx hx'
  obtain rfl := Option.mem_unique hy hy'
  omega

/-- Without a modify after the save there is nothing to recover, and one modify is not recovered. -/
theorem recovers_later_iff_none : ∃ s s' t r, Loaded s t (.resource resourceName) ∧
    Later (.resource resourceName) s [r] s' ∧ Recovers env (.resource resourceName) [] s t ∧
    ¬Recovers env (.resource resourceName) [r] s' t := by
  obtain ⟨s, s', t, t', r, -, hload, hmod, -⟩ := exists_modifyAfterSave
  have hone := Later.modify hmod (.crash s')
  exact ⟨s, s', t, r, hload, hone, (recovers_later_iff hload (.crash s)).mpr rfl,
    fun h ↦ List.cons_ne_nil _ _ ((recovers_later_iff hload hone).mp h)⟩

end Jers
