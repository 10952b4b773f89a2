import Jers.Server.Moves

/-!
# The moves of the commands on queues and resources

The commands of `command_queue.c` and `command_resource.c` make the moves of `QueueMove` and
`ResMove`. An object is put into its table first and updated afterwards, so that adding one takes
two or three moves.
-/

namespace Jers

open Exec Option Table Jers.Path

variable {s s' : Server}

/-! ### Queues -/

variable {c : Option Client} {reply : Reply} {b : Addr} {env : Env} {name : Option Str}
  {qa : QueueRequest} {count : ℤ}

theorem modifyQueue_move {f : Queue → Queue} (h : modifyQueue b f s = .ok ((), s')) :
    ∃ q, Move (.editQueue b q (f q)) s.toCore s'.toCore ∧
      s' = { s with queueTable := s.queueTable.modify b f } := by
  obtain ⟨q, hq, rfl⟩ := modifyQueue_ok h
  refine ⟨q, ⟨hq, ?_⟩, rfl⟩
  rw [modify_congr hq (g := fun _ ↦ f q) rfl]

variable {dirty : Bool} {old : Option Addr} {qm : QueueRequest}

theorem updateQueue_move (h : updateQueue b dirty s = .ok ((), s')) :
    ∃ q, Move (.editQueue b q { q with obj := q.obj.updated dirty }) s.toCore s'.toCore := by
  obtain ⟨_, t, hmod, hdirty⟩ := bind_ok_iff.mp h
  obtain ⟨q, hmove, -⟩ := modifyQueue_move hmod
  refine ⟨q, ?_⟩
  rcases whenever_ok_iff.mp hdirty with ⟨-, hupd⟩ | ⟨-, rfl⟩
  · obtain rfl := update_ok_iff.mp hupd
    exact hmove
  · exact hmove

/-- A queue as `addQueue` leaves it. -/
def Queue.added (q : Queue) (env : Env) (s : Server) (dirty : Bool) : Queue :=
  { q with
    permissions := queuePermissions env s.config.queueAcls q.name
    obj := q.obj.updated dirty }

theorem updateQueue_ok (h : updateQueue b dirty s = .ok ((), s')) :
    ∃ q, s.queueTable.get? b = some q ∧
    s'.queueTable = s.queueTable.modify b (fun q ↦ { q with obj := q.obj.updated dirty }) ∧
    s'.defaultQueue = s.defaultQueue ∧ s'.config = s.config := by
  obtain ⟨_, t, hmod, hflag⟩ := bind_ok_iff.mp h
  obtain ⟨q, hq, rfl⟩ := modifyQueue_ok hmod
  refine ⟨q, hq, ?_⟩
  rcases whenever_ok_iff.mp hflag with ⟨-, hupd⟩ | ⟨-, rfl⟩
  · obtain rfl := update_ok_iff.mp hupd
    exact ⟨rfl, rfl, rfl⟩
  · exact ⟨rfl, rfl, rfl⟩

/-- **What `addQueue` does.** -/
theorem addQueue_ok {q : Queue} (h : addQueue env old q dirty s = .ok (b, s')) :
    b = old.getD s.queueTable.next ∧ (∀ b', s'.queueTable.get? b' =
        if b' = b then some (q.added env s dirty) else s.queueTable.get? b') ∧
      s'.defaultQueue = (if q.isDefault ≠ 0 then some b else s.defaultQueue) ∧
      s'.config = s.config := by
  unfold addQueue at h
  rw [read_bind, read_bind] at h
  obtain ⟨_, _, hscan, h₁⟩ := bind_ok_iff.mp h
  obtain ⟨-, rfl⟩ := whenever_stop_ok hscan
  obtain ⟨_, t, hput, h₂⟩ := bind_ok_iff.mp h₁
  obtain rfl := update_ok_iff.mp hput
  obtain ⟨_, u, hdefault, h₃⟩ := bind_ok_iff.mp h₂
  obtain ⟨_, rfl, hupdate⟩ := bind_pure_ok h₃
  obtain ⟨-, -, htable, hdef, hconfig⟩ := updateQueue_ok hupdate
  have hu : u.queueTable = (if old.isSome then s.queueTable.reput (old.getD s.queueTable.next)
      { q with permissions := queuePermissions env s.config.queueAcls q.name }
      else s.queueTable.push
        { q with permissions := queuePermissions env s.config.queueAcls q.name }) ∧
      u.defaultQueue = (if q.isDefault ≠ 0 then some (old.getD s.queueTable.next)
        else s.defaultQueue) ∧ u.config = s.config := by
    rcases whenever_ok_iff.mp hdefault with ⟨hd, hupd⟩ | ⟨hd, rfl⟩
    · obtain rfl := update_ok_iff.mp hupd
      exact ⟨rfl, (if_pos hd).symm, rfl⟩
    · exact ⟨rfl, (if_neg hd).symm, rfl⟩
  refine ⟨rfl, fun b' ↦ ?_, hdef.trans hu.2.1, hconfig.trans hu.2.2⟩
  have hget (p : Queue) : (if old.isSome then s.queueTable.reput (old.getD s.queueTable.next) p
      else s.queueTable.push p).get? b' =
        if b' = old.getD s.queueTable.next then some p else s.queueTable.get? b' := by
    cases old with
    | none => exact get?_push ..
    | some b => exact get?_reput ..
  rw [htable, hu.1, get?_modify, hget]
  split <;> rfl

/-- Choosing the default queue, if that is asked for. -/
theorem whenever_setDefault_path {P : Core → Label → Prop} {p : Prop} [Decidable p] {q : Queue}
    (hq : s.queueTable.get? b = some q) (hP : p → P s.toCore (.setDefault b))
    (h : whenever p (update fun s ↦ { s with defaultQueue := some b } : Daemon Unit)
      s = .ok ((), s')) :
    Path P s.toCore s'.toCore := by
  rcases whenever_ok_iff.mp h with ⟨hp, hupd⟩ | ⟨-, rfl⟩
  · obtain rfl := update_ok_iff.mp hupd
    exact single (hP hp) ⟨by rw [hq]; rfl, rfl⟩
  · exact refl _

/-- Adding a queue: the first move puts it into the table. -/
theorem addQueue_path {name : Str} {g : Addr}
    (hput : ∀ q, old = some q → (s.queueTable.get? q).isSome)
    (hP : ∀ q, match old with
      | none => QueueMove env s (.addQueue qa) s.toCore (.addQueue (qa.queue env s name g))
      | some b => s.queueTable.get? b = some q →
        QueueMove env s (.addQueue qa) s.toCore (.reuseQueue b q (qa.queue env s name g)))
    (h : addQueue env old (newQueue qa name (qa.node.getD "localhost".toList)
      g s.config.defaultJobNice) true s = .ok (b, s')) : Path (QueueMove env s (.addQueue qa))
      s.toCore s'.toCore := by
  obtain ⟨_, rfl, h₁⟩ := read_bind_ok_iff.mp h
  obtain ⟨_, rfl, h₂⟩ := read_bind_ok_iff.mp h₁
  obtain ⟨_, _, hscan, h₂⟩ := bind_ok_iff.mp h₂
  obtain ⟨-, rfl⟩ := whenever_stop_ok hscan
  obtain ⟨_, t, hupd, h₃⟩ := bind_ok_iff.mp h₂
  obtain ⟨_, u, hdefault, h₄⟩ := bind_ok_iff.mp h₃
  obtain ⟨_, rfl, hupdate⟩ := bind_pure_ok h₄
  have ht := update_ok_iff.mp hupd
  have hfirst : Path (QueueMove env s (.addQueue qa)) s.toCore t.toCore ∧
      t.queueTable.get? (old.getD s.queueTable.next) = some (qa.queue env s name g) := by
    cases old with
    | none =>
      refine ⟨single (hP (qa.queue env s name g)) ?_, ?_⟩
      · rw [ht]
        rfl
      · rw [ht]
        exact (get?_push _ _ _).trans (if_pos rfl)
    | some b =>
      obtain ⟨q, hq⟩ := isSome_iff_exists.mp (hput b rfl)
      refine ⟨single (hP q hq) ⟨hq, ?_⟩, ?_⟩
      · rw [ht]
        rfl
      · rw [ht]
        exact (get?_reput _ _ _ _).trans (if_pos rfl)
  obtain ⟨hpath, hget⟩ := hfirst
  have hchoose := whenever_setDefault_path (P := QueueMove env s (.addQueue qa)) hget
    (fun hd ↦ .chooseNew hd) hdefault
  obtain ⟨q, htouch⟩ := updateQueue_move hupdate
  exact (hpath.trans hchoose).trans (single .touchNew htouch)

/-- The request is for the name of a deleted queue, and there is no agent for its host. -/
structure QueueRequest.Drops (env : Env) (qa : QueueRequest) (s : Server) (b : Addr) (q : Queue) :
    Prop where
  named : ∃ name, qa.name = some name ∧ checkName (lowercasestring name) = true ∧
    s.findQueue (lowercasestring name) = some (b, q)
  deleted : q.internalState.deleted = true
  agent : findAgent env s (qa.node.getD "localhost".toList) = none

/-- What `QUEUE_ADD` does: it sends an error, or it frees the structure of a deleted queue of the
name since there is no agent for the host, or it adds the queue. -/
inductive QueueMade (env : Env) (c : Option Client) (qa : QueueRequest) (s : Server) :
    Reply → Server → Prop
  | refused {code : ErrCode} {text : Option String} :
      QueueMade env c qa s (sendError c 1 code text) s
  | dropped {b : Addr} {q : Queue} {text : Option String} (h : qa.Drops env s b q) :
      QueueMade env c qa s (sendError c 1 .invarg text)
        { s with queueTable := s.queueTable.erase b }
  | added {name : Str} {old : Option (Addr × Queue)} {g b : Addr} {obj : Obj} {reply : Reply}
      {s' : Server} (hname : qa.name = some name) (hcheck : checkName (lowercasestring name) = true)
      (hfound : s.findQueue (lowercasestring name) = old)
      (hdel : ∀ r, old = some r → r.2.internalState.deleted = true)
      (hadd : addQueue env (old.map Prod.fst) (newQueue qa (lowercasestring name)
        (qa.node.getD "localhost".toList) g s.config.defaultJobNice) true s = .ok (b, s'))
      (hsend : sendClient c obj .returnCode s' = .ok (reply, s')) : QueueMade env c qa s reply s'

/-- The host is looked up after the old structure has been taken. -/
theorem createQueue_post {name : Str} {old : Option (Addr × Queue)} (hname : qa.name = some name)
    (hcheck : checkName (lowercasestring name) = true)
    (hfound : s.findQueue (lowercasestring name) = old)
    (hdel : ∀ r, old = some r → r.2.internalState.deleted = true) :
    Post (createQueue env c qa (lowercasestring name) (old.map Prod.fst)) s
      (QueueMade env c qa s) := by
  refine .read ?_
  cases hagent : findAgent env s (qa.node.getD "localhost".toList) with
  | none =>
    refine .update (.pure ?_)
    match old with
    | none => exact .refused
    | some (b, q) => exact .dropped ⟨⟨name, hname, hcheck, hfound⟩, hdel _ rfl, hagent⟩
  | some g =>
    refine .read (.bind fun b t hadd ↦ .getQueue fun q _ reply s' hsend ↦ ?_)
    obtain rfl := sendClient_ok hsend
    exact .added hname hcheck hfound hdel hadd hsend

theorem commandAddQueue_post : Post (commandAddQueue env c qa) s (QueueMade env c qa s) := by
  rw [commandAddQueue]
  cases hname : qa.name with
  | none => exact .stop _
  | some name =>
    refine .ite (fun _ ↦ .pure .refused) fun hcheck ↦ .read ?_
    have hcheck : checkName (lowercasestring name) = true := by simpa using hcheck
    cases hfound : s.findQueue (lowercasestring name) with
    | none => exact createQueue_post hname hcheck hfound fun _ hr ↦ nomatch hr
    | some r =>
      refine .ite (fun _ ↦ .pure .refused) fun hdel ↦ createQueue_post hname hcheck hfound ?_
      rintro _ ⟨rfl⟩
      simpa using hdel

/-- A request for a queue adds one, frees an old structure, or does nothing. -/
theorem commandAddQueue_path : Post (commandAddQueue env c qa) s fun _ s' ↦
    Path (QueueMove env s (.addQueue qa)) s.toCore s'.toCore := by
  intro reply s' h
  cases commandAddQueue_post h with
  | refused => exact refl _
  | dropped hdrops =>
    obtain ⟨⟨name, hname, -, hfound⟩, hdel, hagent⟩ := hdrops
    exact single (.drop hname rfl hfound hdel hagent) ⟨(Table.find?_some hfound).1, rfl⟩
  | @added _ old _ _ _ _ _ hname _ hfound hdel hadd _ =>
    cases old with
    | none =>
      have hput (b : Addr) (hb : none = some b) : (s.queueTable.get? b).isSome := nomatch hb
      exact addQueue_path hput (fun _ ↦ QueueMove.make hfound) hadd
    | some r =>
      have hr : s.queueTable.get? r.1 = some r.2 := (Table.find?_some hfound).1
      have hput (b : Addr) (hb : some r.1 = some b) : (s.queueTable.get? b).isSome := by
        obtain rfl := some.inj hb
        rw [hr]
        rfl
      refine addQueue_path hput (fun q hq ↦ ?_) hadd
      obtain rfl := mem_unique hr hq
      exact .remake hname rfl hfound (hdel _ rfl)

/-- What `QUEUE_MOD` does: it sends an error or passes over an old record, or it makes the
changes. -/
inductive QueueModified (c : Option Client) (qm : QueueRequest) (s : Server) : Reply → Server → Prop
  | refused {r : Reply} (hsent : r.sent ≠ some .returnCode) : QueueModified c qm s r s
  | applied {name : Str} {b : Addr} {q q' : Queue} {agent : Option Addr} {r : Reply} {s' : Server}
      (hname : qm.name = some name) (hfound : s.findQueue name = some (b, q))
      (hnew : ¬s.recovery.any fun r ↦ r.revision ≤ q.obj.revision)
      (happly : applyQueueMod b qm agent s = .ok ((), s')) (hq' : s'.queueTable.get? b = some q')
      (hsend : sendClient c q'.obj .returnCode s' = .ok (r, s')) : QueueModified c qm s r s'

theorem commandModQueue_post : Post (commandModQueue env c qm) s (QueueModified c qm s) := by
  rw [commandModQueue]
  cases hname : qm.name with
  | none => exact .pure (.refused sendError_sent)
  | some name =>
    refine .read ?_
    cases hfound : s.findQueue name with
    | none => exact .pure (.refused sendError_sent)
    | some r =>
      refine .read (.ite (fun _ ↦ .pure (.refused nofun)) fun hnew ↦ .lift fun denied _ ↦ ?_)
      refine .ite (fun _ ↦ .pure (.refused sendError_sent)) fun _ ↦ .read ?_
      refine .ite (fun _ ↦ .pure (.refused sendError_sent)) fun _ ↦ .bind fun _ t happly ↦ ?_
      refine .getQueue fun q' hq' reply u hsend ↦ ?_
      obtain rfl := sendClient_ok hsend
      exact .applied hname hfound hnew happly hq' hsend

/-- A modify request edits one queue, and the default if it is asked to. -/
theorem commandModQueue_path : Post (commandModQueue env c qm) s fun _ s' ↦
    Path (QueueMove env s (.modQueue qm)) s.toCore s'.toCore := by
  intro reply s' h
  cases commandModQueue_post h with
  | refused => exact refl _
  | @applied name b q _ agent _ _ hname hfound _ happly =>
    -- the edit, the choice of the default queue and the update
    obtain ⟨_, -, happly₁⟩ := getQueue_bind_ok happly
    obtain ⟨_, u, hmod, happly₂⟩ := bind_ok_iff.mp happly₁
    obtain ⟨_, v, hdefault, hupdate⟩ := bind_ok_iff.mp happly₂
    obtain ⟨q', hedit, hu⟩ := modifyQueue_move hmod
    have hq : s.queueTable.get? b = some q := (Table.find?_some hfound).1
    obtain rfl := some.inj (hq.symm.trans hedit.1)
    have hget : u.queueTable.get? b = some (qm.edit agent q) := by
      rw [hu]
      exact get?_modify_self hq _
    have hchoose := whenever_setDefault_path (P := QueueMove env s (.modQueue qm)) hget
      (fun hd ↦ .choose hd) hdefault
    obtain ⟨_, htouch⟩ := updateQueue_move hupdate
    exact ((single (.modify hname hfound) hedit).trans hchoose).trans
      (single .touch htouch)

theorem commandDelQueue_path : Post (commandDelQueue c name) s fun _ s' ↦
    Path (QueueMove env s (.delQueue name)) s.toCore s'.toCore := by
  cases name with
  | none => exact .pure (refl _)
  | some name =>
    refine .read (.read ?_)
    cases hfound : s.findQueue name with
    | none => exact .pure (refl _)
    | some r =>
      refine .ite (fun _ ↦ .pure (refl _)) fun hdel ↦ .read ?_
      refine .ite (fun _ ↦ .pure (refl _)) fun hfree ↦ .bind fun _ t hmod ↦ .answer fun _ ↦ ?_
      obtain ⟨q', hedit, -⟩ := modifyQueue_move hmod
      obtain rfl := some.inj (hedit.1.symm.trans (Table.find?_some hfound).1)
      exact single (.delete hfound (by simpa using hdel) (by simpa using hfree)) hedit

/-! ### Resources -/

theorem modifyRes_move {f : Resource → Resource} (h : modifyRes b f s = .ok ((), s')) :
    ∃ r, Move (.editRes b r (f r)) s.toCore s'.toCore := by
  obtain ⟨r, hr, rfl⟩ := modifyRes_ok h
  refine ⟨r, hr, ?_⟩
  rw [modify_congr hr (g := fun _ ↦ f r) rfl]

theorem updateRes_move (h : updateRes b dirty s = .ok ((), s')) :
    ∃ r, Move (.editRes b r { r with obj := r.obj.updated dirty }) s.toCore s'.toCore := by
  obtain ⟨_, t, hmod, hdirty⟩ := bind_ok_iff.mp h
  obtain ⟨r, hmove⟩ := modifyRes_move hmod
  refine ⟨r, ?_⟩
  rcases whenever_ok_iff.mp hdirty with ⟨-, hupd⟩ | ⟨-, rfl⟩
  · obtain rfl := update_ok_iff.mp hupd
    exact hmove
  · exact hmove

theorem createRes_path {r : Resource} (hP : match old with
      | none => ResMove s (.addResource name count) s.toCore (.addRes r)
      | some b => ∃ r₀, s.resTable.get? b = some r₀ ∧
        ResMove s (.addResource name count) s.toCore (.reuseRes b r₀ r)) :
    Post (createRes c old r) s fun _ s' ↦
      Path (ResMove s (.addResource name count)) s.toCore s'.toCore := by
  refine .bind fun b t hadd ↦ .getRes fun _ _ ↦ .answer fun _ ↦ ?_
  obtain ⟨fresh, -, h₂⟩ := read_bind_ok_iff.mp hadd
  obtain ⟨_, u, hupd, h₃⟩ := bind_ok_iff.mp h₂
  obtain rfl := update_ok_iff.mp hupd
  obtain ⟨_, -, hupdate⟩ := bind_pure_ok h₃
  obtain ⟨_, htouch⟩ := updateRes_move hupdate
  refine Path.trans ?_ (Path.single .touchNew htouch)
  cases old with
  | none => exact single hP rfl
  | some b =>
    obtain ⟨r₀, hr₀, hP⟩ := hP
    exact single hP ⟨hr₀, rfl⟩

theorem commandAddResource_path : Post (commandAddResource c name count) s fun _ s' ↦
    Path (ResMove s (.addResource name count)) s.toCore s'.toCore := by
  cases name with
  | none => exact .pure (refl _)
  | some name =>
    refine .ite (fun _ ↦ .pure (refl _)) fun _ ↦ .read ?_
    cases hfound : s.findResource name with
    | none => exact createRes_path (ResMove.make hfound)
    | some r =>
      refine .read (.ite (fun _ ↦ .pure (refl _)) fun _ ↦ ?_)
      refine .ite (fun _ ↦ .pure (refl _)) fun hdel ↦ createRes_path ?_
      exact ⟨r.2, (Table.find?_some hfound).1, .remake hfound (by simpa using hdel)⟩

/-- What `RESOURCE_MOD` does: it sends an error or passes over an old record, or it sets the
count. -/
inductive ResModified (c : Option Client) (name : Option Str) (count : ℤ) (s : Server) :
    Reply → Server → Prop
  | refused {r : Reply} (hsent : r.sent ≠ some .returnCode) : ResModified c name count s r s
  | applied {n : Str} {b : Addr} {r r' : Resource} {reply : Reply} {t s' : Server}
      (hname : name = some n) (hfound : s.findResource n = some (b, r))
      (hdel : r.internalState.deleted = false)
      (hnew : ¬s.recovery.any fun x ↦ x.revision ≤ r.obj.revision)
      (hmod : modifyRes b (fun r ↦ { r with count := count }) s = .ok ((), t))
      (hupdate : updateRes b true t = .ok ((), s')) (hr' : s'.resTable.get? b = some r')
      (hsend : sendClient c r'.obj .returnCode s' = .ok (reply, s')) :
      ResModified c name count s reply s'

theorem commandModResource_post :
    Post (commandModResource c name count) s (ResModified c name count s) := by
  cases name with
  | none => exact .pure (.refused sendError_sent)
  | some name =>
    refine .read ?_
    cases hfound : s.findResource name with
    | none => exact .pure (.refused sendError_sent)
    | some r =>
      refine .ite (fun _ ↦ .pure (.refused sendError_sent)) fun hdel ↦ .read ?_
      refine .ite (fun _ ↦ .pure (.refused nofun)) fun hnew ↦ .bind fun _ t hmod ↦ ?_
      refine .bind fun _ u hupdate ↦ .getRes fun r' hr' reply v hsend ↦ ?_
      obtain rfl := sendClient_ok hsend
      exact .applied rfl hfound (by simpa using hdel) hnew hmod hupdate hr' hsend

theorem commandModResource_path : Post (commandModResource c name count) s fun _ s' ↦
    Path (ResMove s (.modResource name count)) s.toCore s'.toCore := by
  intro reply s' h
  cases commandModResource_post h with
  | refused => exact refl _
  | applied hname hfound hdel _ hmod hupdate =>
    obtain rfl := hname
    obtain ⟨_, hedit⟩ := modifyRes_move hmod
    obtain rfl := some.inj (hedit.1.symm.trans (Table.find?_some hfound).1)
    obtain ⟨_, htouch⟩ := updateRes_move hupdate
    exact (single (.modify hfound hdel) hedit).trans (single .touch htouch)

/-- A resource that no job needs is flagged deleted. -/
theorem commandDelResource_path : Post (commandDelResource c name) s fun _ s' ↦
    Path (ResMove s (.delResource name)) s.toCore s'.toCore := by
  cases name with
  | none => exact .pure (refl _)
  | some name =>
    refine .read ?_
    cases hfound : s.findResource name with
    | none => exact .pure (refl _)
    | some r =>
      refine .ite (fun _ ↦ .pure (refl _)) fun hdel ↦ .read (.lift fun used huse ↦ ?_)
      refine .ite (fun _ ↦ .pure (refl _)) fun hfree ↦ .bind fun _ t hmod ↦ .answer fun _ ↦ ?_
      obtain rfl : used = false := by simpa using hfree
      obtain ⟨r', hedit⟩ := modifyRes_move hmod
      obtain rfl := some.inj (hedit.1.symm.trans (Table.find?_some hfound).1)
      exact single (.delete hfound (by simpa using hdel) huse) hedit

end Jers
