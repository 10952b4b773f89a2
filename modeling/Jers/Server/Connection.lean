import Jers.Server.Answers

/-!
# Requests and responses of a client

A client sends requests, and the daemon queues responses. `JOB_WAIT` may block: the daemon stores a
callback, which `checkBlockingClientEvent` runs every half second until the job has changed or the
time is up. `Conn.InOrder` says that responses answer requests one by one, the oldest first.

A stored callback is never removed, so it answers again at every later check, and the requests that
come in behind a blocked one are answered before it. `framed` excludes both.
-/

namespace Jers

open Exec List Option Bool Sample

/-- The arguments of `JOB_WAIT`. -/
structure JobWait where
  jobid : ℕ := 0
  revision : ℤ := 0
  timeout : ℤ := 0
  deriving DecidableEq, Repr

/-- What `runCommand` finds in a message: no command, one that is not in the table, or one that
is. -/
inductive Request
  | bad
  | unknown
  | run (cmd : Command)
  | wait (jw : JobWait)
  deriving DecidableEq

/-- A connection: the data of the stored callback, the time at which it gives up, and the responses.
Each response is kept with the number of the request it answers; that number, the number of requests
so far and the number of the request that stored the callback are read by no function. -/
structure Conn where
  client : Client
  waiting : Option JobWait := none
  deadline : ℤ := 0
  responses : List (ℕ × Response) := []
  requests : ℕ := 0
  waiter : ℕ := 0
  deriving DecidableEq

/-- The daemon and one of its clients. -/
structure Link where
  server : Server
  conn : Conn

/-- Queue a response to the request that is being processed. -/
def Conn.answer (c : Conn) (r : Response) : Conn :=
  { c with responses := c.responses ++ [(c.requests, r)] }

/-- Queue a response to the request that stored the callback. -/
def Conn.answerWait (c : Conn) (r : Response) : Conn :=
  { c with responses := c.responses ++ [(c.waiter, r)] }

/-- A request has been processed. -/
def Conn.next (c : Conn) : Conn := { c with requests := c.requests + 1 }

/-- `command_wait_job`: the answer, or the data of the callback that is to be stored. -/
def commandWaitJob (c : Client) (jw : JobWait) : Daemon (Response ⊕ JobWait) := do
  let found ← read fun s ↦ s.findJob jw.jobid
  let denied ← checkPerm (some c) ((found.map fun r ↦ r.2.uid).getD 0) permWrite
  if denied then
    return .inl (.error .noperm none)
  match found with
  | none => return .inl (.error .nojob none)
  | some (_, j) =>
    if j.internalState.deleted then
      return .inl (.error .nojob none)
    else if jw.revision ≠ 0 ∧ jw.revision ≠ j.obj.revision then
      return .inl .returnCode
    else if jw.timeout = 0 then
      return .inl (.error .nochange (some "Job not changed".toList))
    else
      return .inr { jw with revision := if jw.revision = 0 then j.obj.revision else jw.revision }

/-- Store a callback. A negative timeout leaves the time of an earlier callback. -/
def Conn.block (c : Conn) (ms : ℤ) (jw : JobWait) : Conn :=
  { c with
    waiting := some jw
    deadline := if 0 < jw.timeout then ms + jw.timeout * 1000 else c.deadline
    waiter := c.requests }

/-- `runCommand` on a request, at a time in milliseconds. A message without a command is dropped. -/
def processRequest (env : Env) (ms : ℤ) (l : Link) : Request → Except Fault Link
  | .bad => .ok { l with conn := l.conn.next }
  | .unknown =>
    .ok { l with conn := (l.conn.answer (.error .invarg (some "Unknown command".toList))).next }
  | .run cmd =>
    (runCommand env l.conn.client cmd l.server).map fun r ↦
      { server := r.2, conn := ((r.1.sent.map l.conn.answer).getD l.conn).next }
  | .wait jw =>
    match validateUserAction env l.conn.client 0 with
    | none => .ok { l with conn := (l.conn.answer (.error .noperm none)).next }
    | some c =>
      (commandWaitJob c jw l.server).map fun r ↦
        { server := r.2
          conn := (match r.1 with
            | .inl response => l.conn.answer response
            | .inr jw => l.conn.block ms jw).next }

/-- The time of the callback is up. -/
def Conn.timedOut (c : Conn) (ms : ℤ) : Bool := 0 < c.deadline && c.deadline < ms

/-- The job of the callback has changed or is gone. -/
def JobWait.changed (jw : JobWait) (s : Server) : Bool :=
  (s.findJob jw.jobid).all fun r ↦ jw.revision != r.2.obj.revision

/-- `checkBlockingClientEvent` for the client. -/
def checkBlocking (ms : ℤ) (l : Link) : Conn :=
  match l.conn.waiting with
  | none => l.conn
  | some jw =>
    if l.conn.timedOut ms then l.conn.answerWait (.error .timeout none)
    else if jw.changed l.server then l.conn.answerWait .returnCode
    else l.conn

/-- A request of the client, a check of the blocked clients, or another event of the daemon. -/
inductive LinkEvent
  | request (env : Env) (ms : ℤ) (r : Request)
  | check (ms : ℤ)
  | daemon (env : Env) (e : Event)

/-- One event that is handled without a fault. -/
def LinkStep (l : Link) : LinkEvent → Link → Prop
  | .request env ms r, l' => processRequest env ms l r = .ok l'
  | .check ms, l' => l' = { l with conn := checkBlocking ms l }
  | .daemon env e, l' => Step l.server (env, e) l'.server ∧ l'.conn = l.conn

/-- **Responses answer requests in order**: there are no more of them than requests, and the
response with number `n` answers the request with number `n`. -/
structure Conn.InOrder (c : Conn) : Prop where
  count : c.responses.length ≤ c.requests
  order : c.responses.map Prod.fst = List.range c.responses.length

/-! ### The condition -/

/-- A request waits and has not been answered. -/
def Conn.blocked (c : Conn) : Bool :=
  c.waiting.isSome && !(c.responses.map Prod.fst).contains c.waiter

/-- A request comes when no other one waits, and has a command; a check that finds a callback whose
request has been answered finds the job unchanged and the time not up. -/
def framed (l : Link) : LinkEvent → Bool
  | .request _ _ r => r ≠ .bad && !l.conn.blocked
  | .check ms => l.conn.blocked ||
    l.conn.waiting.all fun jw ↦ !l.conn.timedOut ms && !jw.changed l.server
  | .daemon _ _ => true

/-! ### The invariant -/

/-- The first `n` requests have been answered, in order; one more has been processed if it waits. -/
structure Conn.Framed (c : Conn) (n : ℕ) : Prop where
  answered : c.responses.map Prod.fst = List.range n
  requests : c.requests = if c.blocked then n + 1 else n
  waiter : c.blocked = true → c.waiter = n

namespace Conn.Framed

variable {c : Conn} {n : ℕ}

theorem inOrder (h : c.Framed n) : c.InOrder := by
  have hlen : c.responses.length = n := by
    simpa using congrArg List.length h.answered
  refine ⟨?_, by rw [hlen]; exact h.answered⟩
  rw [hlen, h.requests]
  split
  · exact Nat.le_succ n
  · exact le_rfl

/-- In terms of the numbers: the callback is one of a request that has been answered. -/
theorem blocked_eq (h : c.Framed n) : c.blocked = (c.waiting.isSome && !decide (c.waiter < n)) := by
  rw [Conn.blocked, h.answered]
  congr 2
  simp [contains_eq_mem]

/-- The request is answered at once. -/
theorem answer (h : c.Framed n) (hfree : c.blocked = false) (r : Response) :
    (c.answer r).next.Framed (n + 1) := by
  have hreq : c.requests = n := by simpa [hfree] using h.requests
  have hanswered : (c.answer r).next.responses.map Prod.fst = List.range (n + 1) := by
    simp [Conn.answer, Conn.next, h.answered, hreq, range_succ]
  have hstill : (c.answer r).next.blocked = false := by
    have hold := h.blocked_eq.symm.trans hfree
    rw [Conn.blocked, hanswered]
    simp only [and_eq_false_iff, not_eq_false', decide_eq_true_eq] at hold
    rcases hold with hnone | hlt
    · exact and_eq_false_iff.mpr (.inl hnone)
    · refine and_eq_false_iff.mpr (.inr ?_)
      have hlt : c.waiter < n + 1 := Nat.lt_succ_of_lt hlt
      simpa [Conn.answer, Conn.next] using hlt
  refine ⟨hanswered, ?_, fun hblocked ↦ nomatch hstill.symm.trans hblocked⟩
  rw [hstill]
  exact congrArg (· + 1) hreq

/-- The request waits. -/
theorem block (h : c.Framed n) (hfree : c.blocked = false) (ms : ℤ) (jw : JobWait) :
    (c.block ms jw).next.Framed n := by
  have hreq : c.requests = n := by simpa [hfree] using h.requests
  have hblocked : (c.block ms jw).next.blocked = true := by
    simp [Conn.blocked, Conn.block, Conn.next, h.answered, hreq]
  refine ⟨h.answered, ?_, fun _ ↦ hreq⟩
  rw [hblocked]
  exact congrArg (· + 1) hreq

/-- The request that waits is answered. -/
theorem answerWait (h : c.Framed n) (hblocked : c.blocked = true) (r : Response) :
    (c.answerWait r).Framed (n + 1) := by
  have hwaiter : c.waiter = n := h.waiter hblocked
  have hanswered : (c.answerWait r).responses.map Prod.fst = List.range (n + 1) := by
    simp [Conn.answerWait, h.answered, hwaiter, range_succ]
  have hfree : (c.answerWait r).blocked = false := by
    rw [Conn.blocked, hanswered]
    simp [Conn.answerWait, hwaiter]
  refine ⟨hanswered, ?_, fun hstill ↦ nomatch hfree.symm.trans hstill⟩
  rw [hfree]
  exact h.requests.trans (if_pos hblocked)

end Conn.Framed

/-! ### Runs -/

theorem commandWaitJob_ok {c : Client} {jw : JobWait} {s s' : Server} {r : Response ⊕ JobWait}
    (h : commandWaitJob c jw s = .ok (r, s')) : s = s' := by
  obtain ⟨found, -, h₁⟩ := read_bind_ok_iff.mp h
  obtain ⟨denied, _, hperm, h₂⟩ := bind_ok_iff.mp h₁
  obtain rfl := checkPerm_ok hperm
  split at h₂
  · exact (pure_ok_iff.mp h₂).2
  cases found with
  | none => exact (pure_ok_iff.mp h₂).2
  | some r =>
    dsimp only at h₂
    split_ifs at h₂
    all_goals exact (pure_ok_iff.mp h₂).2

/-- What is kept of the daemon and of the connection. -/
def Link.Good (l : Link) : Prop := l.server.recovery = none ∧ ∃ n, l.conn.Framed n

variable {l l' : Link}

theorem Link.Good.request {env : Env} {ms : ℤ} {r : Request} (h : l.Good)
    (hgood : framed l (.request env ms r) = true) (hstep : processRequest env ms l r = .ok l') :
    l'.Good := by
  obtain ⟨hrec, n, hn⟩ := h
  simp only [framed, and_eq_true, decide_eq_true_eq, not_eq_true'] at hgood
  obtain ⟨hbad, hfree⟩ := hgood
  cases r with
  | bad => exact absurd rfl hbad
  | unknown =>
    obtain rfl := Except.ok.inj hstep
    exact ⟨hrec, n + 1, hn.answer hfree _⟩
  | run cmd =>
    obtain ⟨⟨reply, s'⟩, hrun, rfl⟩ := Except.map_eq_ok_iff.mp hstep
    have hrec' : s'.recovery = none := by
      have hev : handle env (.client l.conn.client cmd) l.server = .ok ((), s') :=
        bind_ok_iff.mpr ⟨reply, s', hrun, rfl⟩
      exact handle_recovery hrec hev
    obtain ⟨response, hsent⟩ := isSome_iff_exists.mp (runCommand_sent hrec hrun)
    refine ⟨hrec', n + 1, ?_⟩
    simp only [hsent, map_some, getD_some]
    exact hn.answer hfree response
  | wait jw =>
    simp only [processRequest] at hstep
    split at hstep
    · obtain rfl := Except.ok.inj hstep
      exact ⟨hrec, n + 1, hn.answer hfree _⟩
    · obtain ⟨⟨outcome, s'⟩, hwait, rfl⟩ := Except.map_eq_ok_iff.mp hstep
      obtain rfl := commandWaitJob_ok hwait
      cases outcome with
      | inl response => exact ⟨hrec, n + 1, hn.answer hfree response⟩
      | inr jw' => exact ⟨hrec, n, hn.block hfree ms jw'⟩

theorem Conn.Framed.check {ms : ℤ} {n : ℕ} (h : l.conn.Framed n)
    (hgood : framed l (.check ms) = true) : ∃ m, (checkBlocking ms l).Framed m := by
  simp only [framed, or_eq_true] at hgood
  rw [checkBlocking]
  cases hwait : l.conn.waiting with
  | none => exact ⟨n, h⟩
  | some jw =>
    dsimp only
    rcases hgood with hblocked | hquiet
    · split_ifs
      · exact ⟨n + 1, h.answerWait hblocked _⟩
      · exact ⟨n + 1, h.answerWait hblocked _⟩
      · exact ⟨n, h⟩
    · rw [hwait] at hquiet
      simp only [all_some, and_eq_true, not_eq_true'] at hquiet
      rw [hquiet.1, hquiet.2]
      exact ⟨n, h⟩

theorem Link.Good.step {e : LinkEvent} (h : l.Good) (hgood : framed l e = true)
    (hstep : LinkStep l e l') : l'.Good := by
  cases e with
  | request env ms r => exact h.request hgood hstep
  | check ms =>
    obtain rfl := hstep
    obtain ⟨hrec, n, hn⟩ := h
    exact ⟨hrec, hn.check hgood⟩
  | daemon env e =>
    obtain ⟨hrec, n, hn⟩ := h
    obtain ⟨hstep, hconn⟩ := hstep
    exact ⟨handle_recovery hrec hstep, n, hconn ▸ hn⟩

/-- **One request, one response**, in every state of every run of a connection whose events meet the
condition, whatever the daemon does otherwise. -/
theorem inOrder_of_run {s : Server} {c : Client} {l : Link} (hrec : s.recovery = none)
    (h : Run LinkStep (fun l e ↦ framed l e = true) ⟨s, { client := c }⟩ l) : l.conn.InOrder := by
  have hall : l.Good := by
    refine h.invariant (fun hl hgood hstep ↦ hl.step hgood hstep) ⟨hrec, 0, ?_⟩
    exact ⟨rfl, rfl, fun h ↦ nomatch h⟩
  obtain ⟨-, n, hn⟩ := hall
  exact hn.inOrder

/-! ### Concrete runs -/

/-- Handle an event that meets a condition. -/
def linkNext (good : Link → LinkEvent → Bool) (l : Link) (e : LinkEvent) : Option Link :=
  if good l e then
    match e with
    | .request env ms r => (processRequest env ms l r).toOption
    | .check ms => some { l with conn := checkBlocking ms l }
    | .daemon env e => (handle env e l.server).toOption.map fun r ↦ { l with server := r.2 }
  else
    none

theorem linkNext_some {good : Link → LinkEvent → Bool} {e : LinkEvent}
    (h : linkNext good l e = some l') : good l e = true ∧ LinkStep l e l' := by
  unfold linkNext at h
  split at h
  · next hgood =>
    refine ⟨hgood, ?_⟩
    cases e with
    | request env ms r => exact Except.toOption_eq_some_iff.mp h
    | check ms => exact (some.inj h).symm
    | daemon env e =>
      obtain ⟨r, hr, rfl⟩ := map_eq_some_iff.mp h
      exact ⟨Except.toOption_eq_some_iff.mp hr, rfl⟩
  · exact nomatch h

namespace Sample

/-- A client waits for a job, which is then deleted. -/
def waitDelete : List LinkEvent :=
  [.daemon env (.client root addQueue), .daemon env (.client root addJob),
    .request env 0 (.wait { jobid := 1, timeout := 60 }), .check 500,
    .daemon env (.client root (.delJob 1)), .check 1000]

end Sample

/-- The callback of a `JOB_WAIT` stays when it has answered, and answers again at the next check. -/
theorem not_inOrder_second_check :
    ∃ l, Run LinkStep (fun _ _ ↦ true = true)
      ⟨Server.initial config hosts, { client := root }⟩ l ∧
        ¬ l.conn.InOrder := by
  obtain ⟨l, hrun, hp⟩ := Run.exists_of_follow (linkNext fun _ _ ↦ true)
    (waitDelete ++ [.check 1500])
    ⟨Server.initial config hosts, { client := root }⟩
    (fun l ↦ l.conn.requests < l.conn.responses.length) linkNext_some (by decide +kernel)
  exact ⟨l, hrun, fun h ↦ absurd h.count (Nat.not_le.mpr hp)⟩

/-- A wait that is answered by the deletion of the job. -/
theorem inOrder_of_run_wait :
    ∃ l, Run LinkStep (fun l e ↦ framed l e = true)
      ⟨Server.initial config hosts, { client := root }⟩ l ∧
        l.conn.responses.length = 1 ∧ l.conn.InOrder := by
  obtain ⟨l, hrun, hp⟩ := Run.exists_of_follow (linkNext framed) waitDelete
    ⟨Server.initial config hosts, { client := root }⟩
    (fun l ↦ l.conn.responses.length = 1) linkNext_some (by decide +kernel)
  exact ⟨l, hrun, hp, inOrder_of_run rfl hrun⟩

end Jers
