import Jers.Server.State

/-!
# Answers and permissions

What a command sends to its client and returns to the dispatcher, and the checks a command makes
on the rights of the client. During recovery there is no client: nothing is sent, and reading the
absent client is a fault.
-/

namespace Jers

open Exec

/-- The `JERS_ERR_*` codes the commands answer with. -/
inductive ErrCode
  | nojob
  | noperm
  | noqueue
  | invarg
  | invtag
  | notag
  | jobexists
  | resexists
  | queueexists
  | notempty
  | nores
  | nochange
  | invstate
  | resinuse
  | readonly
  | timeout
  deriving DecidableEq, Repr

/-- What a client is sent. -/
inductive Response
  | error (code : ErrCode) (text : Option Str)
  | returnCode
  | jobid (jobid : ℕ)
  deriving DecidableEq, Repr

/-- The outcome of a command: the value it returns, what it sent, and the revision and the job id
it left in the message of the client for the journal. -/
structure Reply where
  status : ℤ
  sent : Option Response := none
  revision : ℤ := 0
  jobid : ℕ := 0
  deriving DecidableEq, Repr

/-- `sendError` and the status that the command returns with it. -/
def sendError (c : Option Client) (status : ℤ) (code : ErrCode) (text : Option String) : Reply where
  status := status
  sent := c.map fun _ ↦ .error code (text.map String.toList)

theorem sendError_sent {c : Option Client} {status : ℤ} {code : ErrCode} {text : Option String} :
    (sendError c status code text).sent ≠ some .returnCode := by
  cases c <;> nofun

/-- `sendErrorFmt`, for a text with a name in it. The text is cut to its buffer. -/
def sendErrorFmt (c : Option Client) (status : ℤ) (code : ErrCode) (before : String) (name : Str)
    (after : String) : Reply where
  status := status
  sent := c.map fun _ ↦ .error code (some ((before.toList ++ name ++ after.toList).take 1023))

/-- `sendClientReturnCode` and `sendClientMessage`: without a client the call succeeds in recovery
only. The object, if one is given, leaves its revision in the message. -/
def sendClient (c : Option Client) (obj : Option Obj) (r : Response) : Daemon Reply := do
  match c with
  | none => return { status := if (← read fun s ↦ s.recovery).isSome then 0 else 1 }
  | some _ => return { status := 0, sent := some r, revision := (obj.map Obj.revision).getD 0 }

variable {c : Option Client} {s s' : Server}

theorem sendClient_ok {obj : Option Obj} {r : Response} {reply : Reply}
    (h : sendClient c obj r s = .ok (reply, s')) : s = s' := by
  cases c with
  | none =>
    obtain ⟨_, -, hp⟩ := read_bind_ok_iff.mp h
    exact (pure_ok_iff.mp hp).2
  | some c => exact (pure_ok_iff.mp h).2

/-! ### Permissions -/

/-- The `PERM_*` bits. -/
def permRead : ℕ := 0x01
def permWrite : ℕ := 0x02
def permSetuid : ℕ := 0x04
def permQueue : ℕ := 0x08
def permSelf : ℕ := 0x10

/-- The bits for changing a queue. -/
def queueControl : ℕ := 0x01
def queueLimit : ℕ := 0x02
def queueAdmin : ℕ := 0xFFFF

/-- The bits `required` are all among `bits`. -/
def hasBits (bits required : ℕ) : Bool := bits &&& required == required

/-- `c->user->permissions`. -/
def userPermissions (c : Client) : Except Fault ℕ :=
  match c.user with
  | none => .error .nullDeref
  | some u => .ok u.permissions

/-- `check_perm`: the client may not act on a job of `jobUid`. Root may do anything, and a user
anything to their own jobs unless the `SELF` permission is in use. -/
def checkPerm (c : Option Client) (jobUid required : ℕ) : Daemon Bool :=
  match c with
  | none => stop .nullDeref
  | some c =>
    if c.uid = 0 then
      return false
    else if c.uid = jobUid then do
      let self ← read fun s ↦ s.config.selfPermission
      if self then do
        let perms ← lift (userPermissions c)
        return !hasBits perms permSelf
      else
        return false
    else do
      let perms ← lift (userPermissions c)
      return !hasBits perms required

/-- `check_perm` as the update commands call it, not during recovery. -/
def deniedPerm (c : Option Client) (jobUid required : ℕ) : Daemon Bool := do
  let recovery ← read fun s ↦ s.recovery
  if recovery.isSome then
    return false
  checkPerm c jobUid required

/-- The bits of the permissions of a queue that the groups of a user add up to, until they
suffice. -/
def aclGrants (permissions : List (ℕ × ℕ)) (required : ℕ) : ℕ → List ℕ → Bool
  | _, [] => false
  | perms, gid :: gids =>
    match permissions.find? fun p ↦ p.1 == gid with
    | none => aclGrants permissions required perms gids
    | some p =>
      let perms := perms ||| p.2
      hasBits perms required || aclGrants permissions required perms gids

/-- `checkQueueACL`: the client may not change the queue in the required ways. -/
def checkQueueACL (c : Option Client) (q : Queue) (required : ℕ) : Except Fault Bool :=
  match c with
  | none => .ok false
  | some c =>
    if c.uid = 0 then .ok false
    else match c.user with
      | none => .error .nullDeref
      | some u =>
        if hasBits u.permissions permQueue then .ok false
        else .ok !aclGrants q.permissions required 0 u.groupList

theorem checkPerm_ok {jobUid required : ℕ} {b : Bool}
    (h : checkPerm c jobUid required s = .ok (b, s')) : s = s' := by
  cases c with
  | none => exact nomatch h
  | some c =>
    have hlift {x : Except Fault ℕ} {f : ℕ → Bool} {t : Server}
        (h : (lift x >>= fun p ↦ pure (f p) : Daemon Bool) t = .ok (b, s')) : t = s' := by
      obtain ⟨_, _, hl, hp⟩ := bind_ok_iff.mp h
      obtain ⟨-, rfl⟩ := lift_ok_iff.mp hl
      exact (pure_ok_iff.mp hp).2
    simp only [checkPerm] at h
    split at h
    · exact (pure_ok_iff.mp h).2
    · split at h
      · obtain ⟨_, -, hself⟩ := read_bind_ok_iff.mp h
        split at hself
        · exact hlift hself
        · exact (pure_ok_iff.mp hself).2
      · exact hlift h

theorem deniedPerm_ok {jobUid required : ℕ} {b : Bool}
    (h : deniedPerm c jobUid required s = .ok (b, s')) : s = s' := by
  obtain ⟨_, -, h₁⟩ := read_bind_ok_iff.mp h
  split at h₁
  · exact (pure_ok_iff.mp h₁).2
  · exact checkPerm_ok h₁

end Jers

open Jers in
/-- A command that ends with an answer. -/
theorem Exec.Post.answer {c : Option Client} {obj : Option Obj} {r : Response} {s : Server}
    {Q : Reply → Server → Prop} (h : ∀ reply, Q reply s) : Post (sendClient c obj r) s Q := by
  intro reply s' hm
  obtain rfl := sendClient_ok hm
  exact h reply

section

open Jers

variable {R : Server → Server → Prop} [IsPreorder Server R] {c : Option Client}

theorem Exec.Keeps.answer {obj : Option Obj} {r : Response} : Keeps R (sendClient c obj r) :=
  .of_eq sendClient_ok

theorem Exec.Keeps.checkPerm {uid required : ℕ} : Keeps R (Jers.checkPerm c uid required) :=
  .of_eq checkPerm_ok

theorem Exec.Keeps.deniedPerm {uid required : ℕ} : Keeps R (Jers.deniedPerm c uid required) :=
  .of_eq deniedPerm_ok

end
