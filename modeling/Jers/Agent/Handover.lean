import Mathlib.Data.Int.Notation
import Mathlib.Data.List.Nodup
import Jers.Lib.Run

/-!
# How completions reach the daemon

The agent of `jers_agentd.c`, the daemon and the connection between them, as far as the start and
the end of jobs is concerned. The agent keeps a list of running jobs. A completion is sent when the
agent is connected, and the record is freed then; otherwise the record stays in the list with the
pid `-1`, and the reconciliation after the next login reports it. The records that have ended are
freed when the daemon acknowledges the report.

`Net.Safe` says that no completion is lost. It can fail in two ways, which `handedOver` excludes:
the connection breaks while a completion is on its way, and a job ends between the report and its
acknowledgement. It also excludes that a job is started again, and that an agent with a shared
secret takes a request for a report, which it does not survive.
-/

namespace Jers.Handover

open List Function

/-! ### The two parties -/

/-- What the daemon knows of a job: not sent out yet, sent, running, unknown since the agent went,
or recorded as finished. -/
inductive Phase
  | fresh
  | sent
  | running
  | unknown
  | finished
  deriving DecidableEq, Repr

/-- `struct runningJob`. The pid is 0 when the process has ended and its completion has not been
read yet, and `-1` when the job is complete. -/
structure RunningJob where
  jobID : ℕ
  pid : ℤ
  deriving DecidableEq, Repr

/-- What an entry of a `RECON_RESP` message says. -/
inductive Report
  | ended
  | nothing
  | running
  deriving DecidableEq, Repr

structure Entry where
  jobID : ℕ
  report : Report
  deriving DecidableEq, Repr

def RunningJob.entry (r : RunningJob) : Entry where
  jobID := r.jobID
  report := if r.pid = -1 then .ended else if r.pid = 0 then .nothing else .running

/-- Messages of the agent. -/
inductive ToDaemon
  | login
  | reconResp (items : List Entry)
  | jobStarted (jobid : ℕ)
  | jobCompleted (jobid : ℕ)
  deriving DecidableEq, Repr

/-- Messages of the daemon. -/
inductive ToAgent
  | reconReq
  | reconComplete
  | startJob (jobid : ℕ)
  deriving DecidableEq, Repr

/-- The agent (`secret`, `jobs`, `inRecon`), the connection with the messages that have not arrived
yet in either direction, and the daemon (`loggedIn`, `recon`, `phase`). `ended` are the jobs that
have ended; no function reads it. The defaults are an agent process that has adopted no job of an
earlier one. -/
structure Net where
  secret : Bool := false
  jobs : List RunningJob := []
  inRecon : Bool := false
  connected : Bool := false
  up : List ToDaemon := []
  down : List ToAgent := []
  loggedIn : Bool := false
  recon : Bool := false
  phase : ℕ → Phase := fun _ ↦ .fresh
  ended : List ℕ := []

/-- The message reports the end of a job. -/
def ToDaemon.ends (jobid : ℕ) : ToDaemon → Bool
  | .reconResp items => items.contains ⟨jobid, .ended⟩
  | .jobCompleted j => j == jobid
  | _ => false

/-- **No completion is lost**: a job that has ended is recorded, or a message on the current
connection reports its end, or it is in the list of the agent. -/
def Net.Safe (n : Net) : Prop :=
  ∀ j ∈ n.ended, n.phase j = .finished ∨ (n.connected = true ∧ ∃ m ∈ n.up, m.ends j = true) ∨
    ∃ r ∈ n.jobs, r.jobID = j

/-! ### Steps -/

/-- The records with the pid of one job set. -/
def setPid (jobid : ℕ) (pid : ℤ) (jobs : List RunningJob) : List RunningJob :=
  jobs.map fun r ↦ if r.jobID = jobid then { r with pid } else r

/-- `connectjers`, and the daemon accepts. -/
def Net.connect (n : Net) : Net := { n with connected := true, up := [.login], down := [] }

/-- `disconnectFromDaemon` and `handleAgentDisconnect`: nothing that is on its way arrives, and the
daemon does not know any more what its running jobs do. The agent keeps `in_recon`. -/
def Net.disconnect (n : Net) : Net :=
  { n with
    connected := false
    up := []
    down := []
    loggedIn := false
    phase := fun j ↦ if n.phase j = .running ∨ n.phase j = .sent then .unknown else n.phase j }

/-- `sendStartCmd`. -/
def Net.send (n : Net) (jobid : ℕ) : Net :=
  { n with
    phase := Function.update n.phase jobid .sent
    down := n.down ++ [.startJob jobid] }

/-- The agent reports its jobs. -/
def Net.report (n : Net) : Net :=
  { n with up := n.up ++ [.reconResp (n.jobs.map RunningJob.entry)], inRecon := true }

/-- The agent process ends, and its list with it. -/
def Net.abort (n : Net) : Net := { n.disconnect with jobs := [], inRecon := false }

/-- The agent handles a message: `start_command` (with the pid of the new process, or none if it
cannot be started), `recon_command`, which frees the HMAC of the request twice if there is a secret,
and `recon_complete`. -/
def Net.agentGets (n : Net) (pid : Option ℕ) : ToAgent → Net
  | .startJob jobid =>
    match pid with
    | some pid =>
      { n with
        jobs := ⟨jobid, pid + 1⟩ :: n.jobs
        up := n.up ++ [.jobStarted jobid] }
    | none => { n with up := n.up ++ [.jobCompleted jobid], ended := jobid :: n.ended }
  | .reconReq => if n.secret then n.abort else n.report
  | .reconComplete => { n with jobs := n.jobs.filter fun r ↦ r.pid ≠ -1, inRecon := false }

/-- An entry of the report, for the daemon. -/
def Entry.apply (phase : ℕ → Phase) (e : Entry) : ℕ → Phase :=
  match e.report with
  | .ended => Function.update phase e.jobID .finished
  | .nothing => phase
  | .running => Function.update phase e.jobID .running

/-- The daemon handles a message. -/
def Net.daemonGets (n : Net) : ToDaemon → Net
  | .login => { n with down := n.down ++ [.reconReq], loggedIn := true, recon := true }
  | .reconResp items =>
    { n with
      phase := items.foldl Entry.apply n.phase
      down := n.down ++ [.reconComplete]
      recon := false }
  | .jobStarted jobid => { n with phase := Function.update n.phase jobid .running }
  | .jobCompleted jobid => { n with phase := Function.update n.phase jobid .finished }

/-- `check_children` finds the process of a job ended. -/
def Net.reap (n : Net) (jobid : ℕ) : Net :=
  { n with jobs := setPid jobid 0 n.jobs, ended := jobid :: n.ended }

/-- `send_completion`. -/
def Net.complete (n : Net) (jobid : ℕ) : Net :=
  if !n.connected || n.inRecon then
    { n with jobs := setPid jobid (-1) n.jobs }
  else
    { n with
      jobs := n.jobs.filter fun r ↦ r.jobID ≠ jobid
      up := n.up ++ [.jobCompleted jobid] }

inductive Event
  | connect
  | disconnect
  | send (jobid : ℕ)
  | toAgent (pid : Option ℕ)
  | toDaemon
  | reap (jobid : ℕ)
  | complete (jobid : ℕ)
  deriving DecidableEq, Repr

/-- One event, if it can happen. -/
def next (n : Net) : Event → Option Net
  | .connect => if n.connected then none else some n.connect
  | .disconnect => if n.connected then some n.disconnect else none
  | .send jobid =>
    if n.loggedIn && !n.recon && n.phase jobid ≠ .sent && n.phase jobid ≠ .running then
      some (n.send jobid)
    else
      none
  | .toAgent pid =>
    match n.down with
    | [] => none
    | m :: down => some ({ n with down }.agentGets pid m)
  | .toDaemon =>
    match n.up with
    | [] => none
    | m :: up => some ({ n with up }.daemonGets m)
  | .reap jobid =>
    if n.jobs.any fun r ↦ r.jobID = jobid && 0 < r.pid then some (n.reap jobid) else none
  | .complete jobid =>
    if n.jobs.any fun r ↦ r.jobID = jobid && r.pid = 0 then some (n.complete jobid) else none

def Step (n : Net) (e : Event) (n' : Net) : Prop := next n e = some n'

/-! ### The condition -/

/-- The connection does not break while a completion is on its way, no completion is read while a
report waits for its acknowledgement, no job is started again, and the agent reports without a
secret. -/
def handedOver (n : Net) : Event → Bool
  | .disconnect => n.up.all fun m ↦ match m with
    | .jobCompleted jobid => n.phase jobid = .finished
    | _ => true
  | .complete _ => !(n.connected && n.inRecon)
  | .send jobid => n.phase jobid = .fresh
  | .toAgent _ => !n.secret || n.down.head? ≠ some .reconReq
  | _ => true

/-! ### The invariant -/

/-- The messages of a reconciliation, from the login to the acknowledgement. -/
def ToDaemon.isRecon : ToDaemon → Bool
  | .login | .reconResp _ => true
  | _ => false

def ToAgent.isRecon : ToAgent → Bool
  | .reconReq | .reconComplete => true
  | _ => false

/-- The message is about a job. -/
def ToDaemon.mentions (jobid : ℕ) : ToDaemon → Prop
  | .login => False
  | .reconResp items => ∃ e ∈ items, e.jobID = jobid
  | .jobStarted j | .jobCompleted j => j = jobid

variable {m : ToDaemon}

theorem ToDaemon.mentions_of_ends {jobid : ℕ} (h : m.ends jobid = true) : m.mentions jobid := by
  cases m with
  | login | jobStarted => exact nomatch h
  | reconResp items =>
    have hmem : (⟨jobid, .ended⟩ : Entry) ∈ items := by simpa [ends] using h
    exact ⟨_, hmem, rfl⟩
  | jobCompleted j => simpa [ends, mentions] using h

/-- The agent has not heard of the job. -/
structure Net.Unborn (n : Net) (jobid : ℕ) : Prop where
  jobs : ∀ r ∈ n.jobs, r.jobID ≠ jobid
  ended : jobid ∉ n.ended
  up : ∀ m ∈ n.up, ¬ m.mentions jobid
  phase : n.phase jobid ≠ .finished

/-- A report on a list of jobs: its entries are of jobs in the list, one for each, and it has the
jobs that are complete. -/
structure Covers (items : List Entry) (jobs : List RunningJob) : Prop where
  listed : ∀ e ∈ items, ∃ r ∈ jobs, r.jobID = e.jobID
  nodup : (items.map Entry.jobID).Nodup
  complete : ∀ r ∈ jobs, r.pid = -1 → (⟨r.jobID, .ended⟩ : Entry) ∈ items

/-- What is known about a report that is on its way or waits for its acknowledgement. There is one
at most on a connection. -/
structure Net.Reported (n : Net) : Prop where
  token : n.up.countP ToDaemon.isRecon + n.down.countP ToAgent.isRecon ≤ 1
  covers : ∀ items, .reconResp items ∈ n.up → n.inRecon = true ∧ Covers items n.jobs
  acknowledged : .reconComplete ∈ n.down → n.inRecon = true
  recorded : .reconComplete ∈ n.down → ∀ r ∈ n.jobs, r.pid = -1 → n.phase r.jobID = .finished

/-- What is known about the starts of jobs: a job is started once, and its start is reported before
its end. -/
structure Net.Started (n : Net) : Prop where
  nodup : (n.jobs.map RunningJob.jobID).Nodup
  unborn : ∀ j, n.phase j = .fresh ∨ .startJob j ∈ n.down → n.Unborn j
  unsent : ∀ j, n.phase j = .fresh → .startJob j ∉ n.down
  once : n.down.Pairwise fun m m' ↦ ∀ j, m = .startJob j → m' ≠ .startJob j
  order : n.up.Pairwise fun m m' ↦ ∀ j, m.ends j = true → m' ≠ .jobStarted j
  begun : ∀ j, .jobStarted j ∈ n.up → n.phase j ≠ .finished ∧
    ∀ r ∈ n.jobs, r.jobID = j → r.pid ≠ -1

structure Net.Inv (n : Net) : Prop where
  offline : n.connected = false → n.up = [] ∧ n.down = []
  loggedIn : n.loggedIn = true → n.connected = true
  reported : n.Reported
  started : n.Started
  safe : n.Safe

/-! ### One event -/

section

variable {n : Net}

theorem Net.Inv.connected_of_down {n : Net} (h : n.Inv) {m : ToAgent} (hm : m ∈ n.down) :
    n.connected = true := by
  by_contra hoff
  rw [(h.offline (by simpa using hoff)).2] at hm
  exact nomatch hm

theorem Net.Inv.of_connected (hon : n.connected = true) (hrep : n.Reported) (hst : n.Started)
    (hsafe : n.Safe) : n.Inv :=
  ⟨fun hoff ↦ absurd (hon.symm.trans hoff) nofun, fun _ ↦ hon, hrep, hst, hsafe⟩

/-- Without a report and an acknowledgement, there is nothing to be known. -/
theorem Net.Reported.of_none (htoken : n.up.countP ToDaemon.isRecon +
    n.down.countP ToAgent.isRecon ≤ 1) (hup : ∀ items, .reconResp items ∉ n.up) (hdown :
    .reconComplete ∉ n.down) : n.Reported where
  token := htoken
  covers items hm := absurd hm (hup items)
  acknowledged hm := absurd hm hdown
  recorded hm := absurd hm hdown

theorem Net.Inv.connect (h : n.Inv) (hoff : n.connected = false) : n.connect.Inv where
  offline hoff := absurd hoff nofun
  loggedIn _ := rfl
  reported := .of_none (by simp [Net.connect, ToDaemon.isRecon]) (by simp [Net.connect]) not_mem_nil
  started :=
    { nodup := h.started.nodup
      unborn := fun j hj ↦ have hu := h.started.unborn j (.inl (hj.resolve_right not_mem_nil))
        ⟨hu.jobs, hu.ended, by simp [Net.connect, ToDaemon.mentions], hu.phase⟩
      unsent := fun _ _ ↦ not_mem_nil
      once := List.Pairwise.nil
      order := pairwise_singleton _ _
      begun := by simp [Net.connect] }
  safe j hj := by
    rcases h.safe j hj with hfin | ⟨-, m, hm, hends⟩ | hlist
    · exact .inl hfin
    · rw [(h.offline hoff).1] at hm
      exact nomatch hm
    · exact .inr (.inr hlist)

/-- The phases after a disconnect. -/
theorem Net.disconnect_phase (n : Net) (j : ℕ) (p : Phase) (hp : p = .fresh ∨ p = .finished) :
    n.disconnect.phase j = p ↔ n.phase j = p := by
  simp only [Net.disconnect]
  split
  · next hrun =>
    rcases hp with rfl | rfl
    · refine iff_of_false nofun fun h ↦ ?_
      simp [h] at hrun
    · refine iff_of_false nofun fun h ↦ ?_
      simp [h] at hrun
  · exact Iff.rfl

theorem Net.Inv.disconnect (h : n.Inv) (hgood : handedOver n .disconnect = true) :
    n.disconnect.Inv where
  offline _ := ⟨rfl, rfl⟩
  loggedIn hlog := absurd hlog nofun
  reported := .of_none (Nat.zero_le _) (fun _ ↦ not_mem_nil) not_mem_nil
  started :=
    { nodup := h.started.nodup
      unborn := fun j hj ↦
        have hfresh := (n.disconnect_phase j _ (.inl rfl)).mp (hj.resolve_right not_mem_nil)
        have hu := h.started.unborn j (.inl hfresh)
        ⟨hu.jobs, hu.ended, fun _ hm ↦ absurd hm not_mem_nil,
          fun hfin ↦ hu.phase ((n.disconnect_phase j _ (.inr rfl)).mp hfin)⟩
      unsent := fun _ _ ↦ not_mem_nil
      once := List.Pairwise.nil
      order := List.Pairwise.nil
      begun := fun _ hm ↦ absurd hm not_mem_nil }
  safe j hj := by
    rcases h.safe j hj with hfin | ⟨-, m, hm, hends⟩ | hlist
    · exact .inl ((n.disconnect_phase j _ (.inr rfl)).mpr hfin)
    · -- an end that is on its way is recorded, or the record is still there
      cases m with
      | login | jobStarted => exact nomatch hends
      | jobCompleted i =>
        obtain rfl : i = j := by simpa [ToDaemon.ends] using hends
        have hfin : n.phase i = .finished := by
          simpa using List.all_eq_true.mp hgood _ hm
        exact .inl ((n.disconnect_phase i _ (.inr rfl)).mpr hfin)
      | reconResp items =>
        have hmem : (⟨j, .ended⟩ : Entry) ∈ items := by simpa [ToDaemon.ends] using hends
        exact .inr (.inr ((h.reported.covers items hm).2.listed _ hmem))
    · exact .inr (.inr hlist)

variable {i j : ℕ} {pid : ℤ}

theorem Net.Inv.send (h : n.Inv) (hlog : n.loggedIn = true) (hfresh : n.phase i = .fresh) :
    (n.send i).Inv := by
  have hunborn := h.started.unborn i (.inl hfresh)
  have hphase {j : ℕ} (hj : j ≠ i) : (n.send i).phase j = n.phase j := update_of_ne hj _ _
  have hsent : (n.send i).phase i = .sent := update_self _ _ _
  have hkeep {j : ℕ} (hu : n.Unborn j) : (n.send i).Unborn j := by
    refine ⟨hu.jobs, hu.ended, hu.up, ?_⟩
    by_cases hj : j = i
    · rw [hj, hsent]
      exact nofun
    · rw [hphase hj]
      exact hu.phase
  have hdown {m : ToAgent} (hm : m ∈ (n.send i).down) : m ∈ n.down ∨ m = .startJob i := by
    simpa [Net.send] using hm
  refine .of_connected (h.loggedIn hlog) ?_ ?_ ?_
  · have hrep := h.reported
    have hcomplete (hm : ToAgent.reconComplete ∈ (n.send i).down) : .reconComplete ∈ n.down :=
      (hdown hm).resolve_right nofun
    refine ⟨?_, hrep.covers, fun hm ↦ hrep.acknowledged (hcomplete hm), fun hm r hr hpid ↦ ?_⟩
    · simpa [Net.send, ToAgent.isRecon] using hrep.token
    · rw [hphase (hunborn.jobs r hr)]
      exact hrep.recorded (hcomplete hm) r hr hpid
  · refine ⟨h.started.nodup, fun j hj ↦ ?_, fun j hj ↦ ?_, ?_, h.started.order, fun j hj ↦ ?_⟩
    · by_cases hne : j = i
      · exact hkeep (hne ▸ hunborn)
      refine hkeep (h.started.unborn j ?_)
      rw [hphase hne] at hj
      exact hj.imp_right fun hm ↦ (hdown hm).resolve_right fun heq ↦ hne (ToAgent.startJob.inj heq)
    · have hne : j ≠ i := by
        rintro rfl
        exact nomatch hsent.symm.trans hj
      intro hm
      rcases hdown hm with hm | hm
      · exact h.started.unsent j ((hphase hne).symm.trans hj) hm
      · exact hne (ToAgent.startJob.inj hm)
    · refine pairwise_append.mpr ⟨h.started.once, pairwise_singleton _ _, ?_⟩
      rintro m hm m' hm' j rfl
      obtain rfl := mem_singleton.mp hm'
      rintro heq
      exact h.started.unsent i hfresh (ToAgent.startJob.inj heq ▸ hm)
    · have hne : j ≠ i := by
        rintro rfl
        exact hunborn.up _ hj rfl
      rw [hphase hne]
      exact h.started.begun j hj
  · intro j hj
    have hne : j ≠ i := by
      rintro rfl
      exact hunborn.ended hj
    rw [hphase hne]
    exact h.safe j hj

variable {rest : List ToAgent}

/-- The first message of the daemon is taken off the connection. -/
theorem Net.Inv.pop {m : ToAgent} (h : n.Inv) (hd : n.down = m :: rest) :
    { n with down := rest }.Inv := by
  have hsub {m' : ToAgent} (hm : m' ∈ rest) : m' ∈ n.down := hd ▸ mem_cons_of_mem _ hm
  have hon : n.connected = true := h.connected_of_down (hd ▸ mem_cons_self)
  have hrep := h.reported
  have hst := h.started
  have hkeep {j : ℕ} (hu : n.Unborn j) : { n with down := rest }.Unborn j :=
    ⟨hu.jobs, hu.ended, hu.up, hu.phase⟩
  refine .of_connected hon ?_ ?_ h.safe
  · refine ⟨?_, hrep.covers, fun hm ↦ hrep.acknowledged (hsub hm),
      fun hm ↦ hrep.recorded (hsub hm)⟩
    have htoken := hrep.token
    rw [hd, countP_cons] at htoken
    exact Nat.le_trans (by dsimp only; omega) htoken
  · have honce := hst.once
    rw [hd] at honce
    exact ⟨hst.nodup, fun j hj ↦ hkeep (hst.unborn j (hj.imp_right hsub)),
      fun j hj hm ↦ hst.unsent j hj (hsub hm), (pairwise_cons.mp honce).2, hst.order, hst.begun⟩

/-- A job whose start arrives has been sent, and is not started again. -/
theorem Net.Started.head (h : n.Started) (hd : n.down = .startJob i :: rest) :
    n.Unborn i ∧ n.phase i ≠ .fresh ∧ .startJob i ∉ rest := by
  have hmem : .startJob i ∈ n.down := hd ▸ mem_cons_self
  have honce := h.once
  rw [hd] at honce
  exact ⟨h.unborn i (.inr hmem), fun hfresh ↦ h.unsent i hfresh hmem,
    fun hagain ↦ (pairwise_cons.mp honce).1 _ hagain i rfl rfl⟩

/-- More messages of the agent, and the same records. -/
theorem Net.Safe.append {jobs : List RunningJob} {ms : List ToDaemon} {b : Bool} (h : n.Safe)
    (hon : n.connected = true) (hjobs : ∀ r ∈ n.jobs, r ∈ jobs) :
    { n with jobs := jobs, up := n.up ++ ms, inRecon := b }.Safe := by
  intro j hj
  rcases h j hj with hfin | ⟨-, m, hm, hends⟩ | ⟨r, hr, hid⟩
  · exact .inl hfin
  · exact .inr (.inl ⟨hon, m, mem_append_left _ hm, hends⟩)
  · exact .inr (.inr ⟨r, hjobs r hr, hid⟩)

/-- A message that is not about a start goes after the others. -/
theorem Net.Started.order_append (h : n.Started) (hm : ∀ j, m ≠ .jobStarted j) :
    (n.up ++ [m]).Pairwise fun m m' ↦ ∀ j, m.ends j = true → m' ≠ .jobStarted j := by
  refine pairwise_append.mpr ⟨h.order, pairwise_singleton _ _, ?_⟩
  rintro m₁ - m₂ hm₂ j -
  rw [mem_singleton.mp hm₂]
  exact hm j

theorem Net.Inv.startJob (h : n.Inv) (hon : n.connected = true) (hunborn : n.Unborn i)
    (hfresh : n.phase i ≠ .fresh) (hunsent : .startJob i ∉ n.down) (pid : ℕ) :
    (n.agentGets (some pid) (.startJob i)).Inv := by
  have hrep := h.reported
  have hst := h.started
  have hkeep {j : ℕ} (hne : j ≠ i) (hu : n.Unborn j) :
      (n.agentGets (some pid) (.startJob i)).Unborn j := by
    exact ⟨forall_mem_cons.mpr ⟨Ne.symm hne, hu.jobs⟩, hu.ended,
      forall_mem_append.mpr ⟨hu.up, forall_mem_singleton.mpr (Ne.symm hne)⟩, hu.phase⟩
  -- the new record is not one that has ended
  have hold {r : RunningJob} (hr : r ∈ (⟨i, pid + 1⟩ : RunningJob) :: n.jobs) (hpid : r.pid = -1) :
      r ∈ n.jobs := by
    rcases mem_cons.mp hr with rfl | hr
    · dsimp only at hpid
      omega
    · exact hr
  refine .of_connected hon ?_ ?_ ?_
  · refine ⟨?_, fun items hm ↦ ?_, hrep.acknowledged,
      fun hm r hr hpid ↦ hrep.recorded hm r (hold hr hpid) hpid⟩
    · simpa [Net.agentGets, ToDaemon.isRecon] using hrep.token
    · obtain ⟨hin, hcov⟩ := hrep.covers items (by simpa [Net.agentGets] using hm)
      refine ⟨hin, fun e he ↦ ?_, hcov.nodup, fun r hr hpid ↦ hcov.complete r (hold hr hpid) hpid⟩
      obtain ⟨r, hr, hid⟩ := hcov.listed e he
      exact ⟨r, mem_cons_of_mem _ hr, hid⟩
  · refine ⟨?_, fun j hj ↦ hkeep ?_ (hst.unborn j hj), hst.unsent, hst.once, ?_, fun j hj ↦ ?_⟩
    · refine nodup_cons.mpr ⟨fun hmem ↦ ?_, hst.nodup⟩
      obtain ⟨r, hr, hid⟩ := List.mem_map.mp hmem
      exact hunborn.jobs r hr hid
    · rintro rfl
      exact hj.elim hfresh hunsent
    · refine pairwise_append.mpr ⟨hst.order, pairwise_singleton _ _, ?_⟩
      rintro m hm m' hm' j hends rfl
      obtain rfl := ToDaemon.jobStarted.inj (mem_singleton.mp hm')
      exact hunborn.up m hm (m.mentions_of_ends hends)
    · have hj : .jobStarted j ∈ n.up ∨ j = i := by simpa [Net.agentGets] using hj
      rcases hj with hj | rfl
      · obtain ⟨hphase, hpid⟩ := hst.begun j hj
        exact ⟨hphase, fun r hr hid hend ↦ hpid r (hold hr hend) hid hend⟩
      · exact ⟨hunborn.phase, fun r hr hid hend ↦ hunborn.jobs r (hold hr hend) hid⟩
  · exact h.safe.append hon fun r hr ↦ mem_cons_of_mem _ hr

theorem Net.Inv.startFails (h : n.Inv) (hon : n.connected = true) (hfresh : n.phase i ≠ .fresh)
    (hunsent : .startJob i ∉ n.down) : (n.agentGets none (.startJob i)).Inv := by
  have hrep := h.reported
  have hst := h.started
  have hkeep {j : ℕ} (hne : j ≠ i) (hu : n.Unborn j) :
      (n.agentGets none (.startJob i)).Unborn j := by
    exact ⟨hu.jobs, not_mem_cons_of_ne_of_not_mem hne hu.ended,
      forall_mem_append.mpr ⟨hu.up, forall_mem_singleton.mpr (Ne.symm hne)⟩, hu.phase⟩
  refine .of_connected hon ?_ ?_ ?_
  · refine ⟨?_, fun items hm ↦ hrep.covers items (by simpa [Net.agentGets] using hm),
      hrep.acknowledged, hrep.recorded⟩
    simpa [Net.agentGets, ToDaemon.isRecon] using hrep.token
  · refine ⟨hst.nodup, fun j hj ↦ hkeep ?_ (hst.unborn j hj), hst.unsent, hst.once,
      hst.order_append fun _ ↦ nofun, fun j hj ↦ hst.begun j (by simpa [Net.agentGets] using hj)⟩
    rintro rfl
    exact hj.elim hfresh hunsent
  · intro j hj
    rcases mem_cons.mp hj with rfl | hj
    · exact .inr (.inl ⟨hon, _, mem_append_right _ mem_cons_self, by simp [ToDaemon.ends]⟩)
    · exact h.safe.append (b := n.inRecon) hon (fun _ hr ↦ hr) j hj

/-- With a message of a reconciliation on its way to the agent, there is no other. -/
theorem Net.Reported.alone {m : ToAgent} (h : n.Reported) (hd : n.down = m :: rest)
    (hm : m.isRecon = true) :
    (∀ m' ∈ n.up, m'.isRecon = false) ∧ ∀ m' ∈ rest, m'.isRecon = false := by
  have htoken := h.token
  rw [hd, countP_cons, if_pos hm] at htoken
  have hup : n.up.countP ToDaemon.isRecon = 0 := by omega
  have hrest : rest.countP ToAgent.isRecon = 0 := by omega
  rw [countP_eq_zero] at hup hrest
  exact ⟨fun m' hm' ↦ by simpa using hup m' hm', fun m' hm' ↦ by simpa using hrest m' hm'⟩

theorem Net.Inv.reconReq (h : n.Inv) (hon : n.connected = true) (halone : ∀ m ∈ n.up,
    m.isRecon = false) (halone' : ∀ m ∈ n.down, m.isRecon = false) : n.report.Inv := by
  have hst := h.started
  have hup {items : List Entry}
      (hm : ToDaemon.reconResp items ∈ n.up ++ [ToDaemon.reconResp (n.jobs.map RunningJob.entry)]) :
      items = n.jobs.map RunningJob.entry := by
    rcases mem_append.mp hm with hm | hm
    · exact nomatch halone _ hm
    · exact ToDaemon.reconResp.inj (mem_singleton.mp hm)
  have hkeep {j : ℕ} (hu : n.Unborn j) : n.report.Unborn j := by
    refine ⟨hu.jobs, hu.ended, forall_mem_append.mpr ⟨hu.up, forall_mem_singleton.mpr ?_⟩, hu.phase⟩
    rintro ⟨e, he, hid⟩
    obtain ⟨r, hr, rfl⟩ := List.mem_map.mp he
    exact hu.jobs r hr hid
  refine .of_connected hon ?_ ?_ ?_
  · refine ⟨?_, fun items hm ↦ ⟨rfl, hup hm ▸ ⟨fun e he ↦ ?_, ?_, fun r hr hpid ↦ ?_⟩⟩, fun _ ↦ rfl,
      fun hm ↦ nomatch halone' _ hm⟩
    · simp only [Net.report, countP_append, countP_singleton]
      rw [countP_eq_zero.mpr fun m hm ↦ by simp [halone m hm],
        countP_eq_zero.mpr fun m hm ↦ by simp [halone' m hm]]
      exact Nat.le_refl _
    · obtain ⟨r, hr, rfl⟩ := List.mem_map.mp he
      exact ⟨r, hr, rfl⟩
    · rw [List.map_map]
      exact hst.nodup
    · refine List.mem_map.mpr ⟨r, hr, ?_⟩
      simp [RunningJob.entry, hpid]
  · exact ⟨hst.nodup, fun j hj ↦ hkeep (hst.unborn j hj), hst.unsent, hst.once,
      hst.order_append fun _ ↦ nofun,
      fun j hj ↦ hst.begun j (by simpa [Net.report] using hj)⟩
  · exact h.safe.append hon fun _ hr ↦ hr

theorem Net.Inv.reconComplete (h : n.Inv) (halone : ∀ m ∈ n.up, m.isRecon = false)
    (halone' : ∀ m ∈ n.down, m.isRecon = false)
    (hrecorded : ∀ r ∈ n.jobs, r.pid = -1 → n.phase r.jobID = .finished) (pid : Option ℕ) :
    (n.agentGets pid .reconComplete).Inv := by
  have hst := h.started
  have hkeep {j : ℕ} (hu : n.Unborn j) : (n.agentGets pid .reconComplete).Unborn j :=
    ⟨fun r hr ↦ hu.jobs r (mem_filter.mp hr).1, hu.ended, hu.up, hu.phase⟩
  refine ⟨h.offline, h.loggedIn, ?_, ?_, ?_⟩
  · exact .of_none h.reported.token (fun _ hm ↦ nomatch halone _ hm) fun hm ↦ nomatch halone' _ hm
  · refine ⟨hst.nodup.sublist (filter_sublist.map _), fun j hj ↦ hkeep (hst.unborn j hj),
      hst.unsent, hst.once, hst.order, fun j hj ↦ ?_⟩
    obtain ⟨hphase, hpid⟩ := hst.begun j hj
    exact ⟨hphase, fun r hr ↦ hpid r (mem_filter.mp hr).1⟩
  · intro j hj
    rcases h.safe j hj with hfin | hup | ⟨r, hr, hid⟩
    · exact .inl hfin
    · exact .inr (.inl hup)
    · -- a record that is freed has been reported and recorded
      by_cases hpid : r.pid = -1
      · exact .inl (hid ▸ hrecorded r hr hpid)
      · exact .inr (.inr ⟨r, mem_filter.mpr ⟨hr, by simpa using hpid⟩, hid⟩)

/-! ### The daemon receives a message -/

theorem Net.Inv.connected_of_up (h : n.Inv) (hm : m ∈ n.up) : n.connected = true := by
  by_contra hoff
  rw [(h.offline (by simpa using hoff)).1] at hm
  exact nomatch hm

variable {p : ℕ → Phase}

/-- A phase that is new to the daemon's record of one job, when a message about the job has been
taken off the connection. -/
theorem Net.Started.received {rest : List ToDaemon} (h : n.Started)
    (hu : n.up = m :: rest) (hfresh : ∀ j, p j = .fresh → n.phase j = .fresh)
    (hfin : ∀ j, p j = .finished → n.phase j = .finished ∨ m.ends j = true) :
    { n with up := rest, phase := p }.Started := by
  have hsub {m' : ToDaemon} (hm : m' ∈ rest) : m' ∈ n.up := hu ▸ mem_cons_of_mem _ hm
  have hkeep {j : ℕ} (hb : n.Unborn j) : { n with up := rest, phase := p }.Unborn j := by
    refine ⟨hb.jobs, hb.ended, fun m' hm ↦ hb.up m' (hsub hm), fun hp ↦ ?_⟩
    rcases hfin j hp with hp | hends
    · exact hb.phase hp
    · exact hb.up m (hu ▸ mem_cons_self) (m.mentions_of_ends hends)
  have horder := h.order
  rw [hu] at horder
  obtain ⟨hfirst, hrest⟩ := pairwise_cons.mp horder
  refine ⟨h.nodup, fun j hj ↦ hkeep (h.unborn j (hj.imp_left (hfresh j))),
    fun j hj ↦ h.unsent j (hfresh j hj), h.once, hrest, fun j hj ↦ ?_⟩
  obtain ⟨hphase, hpid⟩ := h.begun j (hsub hj)
  refine ⟨fun hp ↦ ?_, hpid⟩
  rcases hfin j hp with hp | hends
  · exact hphase hp
  · exact hfirst _ hj j hends rfl

/-- The first message of the agent leaves the others as they are, if what it changes is not a record
that waits to be acknowledged. -/
theorem Net.Reported.received {rest : List ToDaemon} (h : n.Reported) (hu : n.up = m :: rest)
    (hp : ∀ r ∈ n.jobs, r.pid = -1 → n.phase r.jobID = .finished → p r.jobID = .finished) :
    { n with up := rest, phase := p }.Reported := by
  have hsub {m' : ToDaemon} (hm : m' ∈ rest) : m' ∈ n.up := hu ▸ mem_cons_of_mem _ hm
  refine ⟨?_, fun items hm ↦ h.covers items (hsub hm), h.acknowledged,
    fun hm r hr hpid ↦ hp r hr hpid (h.recorded hm r hr hpid)⟩
  have htoken := h.token
  rw [hu, countP_cons] at htoken
  exact Nat.le_trans (by dsimp only; omega) htoken

/-- An end that has been received is recorded, or the record of the job is still in the list. -/
theorem Net.Safe.received {rest : List ToDaemon} (h : n.Safe) (hon : n.connected = true)
    (hu : n.up = m :: rest) (hfin : ∀ j, n.phase j = .finished ∨ m.ends j = true → p j = .finished ∨
      ∃ r ∈ n.jobs, r.jobID = j) :
    { n with up := rest, phase := p }.Safe := by
  intro j hj
  rcases h j hj with hphase | ⟨-, m', hm, hends⟩ | hlist
  · exact (hfin j (.inl hphase)).imp_right .inr
  · rw [hu] at hm
    rcases mem_cons.mp hm with rfl | hm
    · exact (hfin j (.inr hends)).imp_right .inr
    · exact .inr (.inl ⟨hon, m', hm, hends⟩)
  · exact .inr (.inr hlist)

/-- The daemon sends a message of a reconciliation. -/
theorem Net.Started.append_down {m : ToAgent} {b b' : Bool} (h : n.Started)
    (hm : ∀ j, m ≠ .startJob j) :
    { n with down := n.down ++ [m], loggedIn := b, recon := b' }.Started := by
  have hdown {j : ℕ} (hj : .startJob j ∈ n.down ++ [m]) : .startJob j ∈ n.down := by
    simpa [Ne.symm (hm j)] using hj
  have hkeep {j : ℕ} (hb : n.Unborn j) :
    { n with down := n.down ++ [m], loggedIn := b, recon := b' }.Unborn j :=
    ⟨hb.jobs, hb.ended, hb.up, hb.phase⟩
  refine ⟨h.nodup, fun j hj ↦ hkeep (h.unborn j (hj.imp_right hdown)),
    fun j hj hm ↦ h.unsent j hj (hdown hm), ?_, h.order, h.begun⟩
  refine pairwise_append.mpr ⟨h.once, pairwise_singleton _ _, ?_⟩
  rintro m' - m'' hm'' j -
  rw [mem_singleton.mp hm'']
  exact hm j

theorem Net.Inv.login (h : n.Inv) {rest : List ToDaemon} (hu : n.up = .login :: rest) :
    ({ n with up := rest }.daemonGets .login).Inv := by
  have hon : n.connected = true := h.connected_of_up (hu ▸ mem_cons_self)
  have hst : { n with up := rest }.Started :=
    h.started.received hu (fun _ hj ↦ hj) fun _ hj ↦ .inl hj
  have hrep : { n with up := rest }.Reported := h.reported.received hu fun _ _ _ hp ↦ hp
  have hdown {m : ToAgent} (hm : m ∈ n.down ++ [ToAgent.reconReq]) (hne : m ≠ .reconReq) :
      m ∈ n.down := by
    simpa [hne] using hm
  refine .of_connected hon ?_ ?_ ?_
  · refine ⟨?_, hrep.covers, fun hm ↦ hrep.acknowledged (hdown hm nofun),
      fun hm ↦ hrep.recorded (hdown hm nofun)⟩
    have htoken := h.reported.token
    rw [hu, countP_cons] at htoken
    simp only [Net.daemonGets, countP_append, countP_singleton]
    exact Nat.le_trans (by simp [ToDaemon.isRecon, ToAgent.isRecon]; omega) htoken
  · exact hst.append_down nofun
  · exact h.safe.received hon hu fun _ hj ↦ .inl (hj.resolve_right nofun)

theorem Net.Inv.jobStarted (h : n.Inv) {rest : List ToDaemon} (hu : n.up = .jobStarted i :: rest) :
    ({ n with up := rest }.daemonGets (.jobStarted i)).Inv := by
  have hon : n.connected = true := h.connected_of_up (hu ▸ mem_cons_self)
  obtain ⟨hbegun, hpids⟩ := h.started.begun i (hu ▸ mem_cons_self)
  have hphase {j : ℕ} (hj : j ≠ i) : update n.phase i .running j = n.phase j :=
    update_of_ne hj _ _
  refine .of_connected hon ?_ ?_ ?_
  · refine h.reported.received hu fun r hr hpid hfin ↦ ?_
    rw [hphase fun hid ↦ hpids r hr hid hpid]
    exact hfin
  · have hback {j : ℕ} {q : Phase} (hq : .running ≠ q) (hj : update n.phase i .running j = q) :
        n.phase j = q := by
      refine (hphase ?_).symm.trans hj
      rintro rfl
      exact hq ((update_self ..).symm.trans hj)
    exact h.started.received hu (fun _ hj ↦ hback nofun hj) fun _ hj ↦ .inl (hback nofun hj)
  · refine h.safe.received hon hu fun j hj ↦ .inl ?_
    have hfin := hj.resolve_right nofun
    rw [hphase, hfin]
    rintro rfl
    exact hbegun hfin

theorem Net.Inv.jobCompleted (h : n.Inv) {rest : List ToDaemon}
    (hu : n.up = .jobCompleted i :: rest) :
    ({ n with up := rest }.daemonGets (.jobCompleted i)).Inv := by
  have hon : n.connected = true := h.connected_of_up (hu ▸ mem_cons_self)
  have hself : update n.phase i .finished i = .finished := update_self ..
  have hphase {j : ℕ} (hj : j ≠ i) : update n.phase i .finished j = n.phase j :=
    update_of_ne hj _ _
  refine .of_connected hon ?_ ?_ ?_
  · refine h.reported.received hu fun r hr hpid hfin ↦ ?_
    by_cases hid : r.jobID = i
    · rw [hid]
      exact hself
    · rw [hphase hid]
      exact hfin
  · refine h.started.received hu (fun j hj ↦ ?_) fun j hj ↦ ?_
    · by_cases hji : j = i
      · subst hji
        exact nomatch hself.symm.trans hj
      · exact (hphase hji).symm.trans hj
    · by_cases hji : j = i
      · exact .inr (by simp [ToDaemon.ends, hji])
      · exact .inl ((hphase hji).symm.trans hj)
  · refine h.safe.received hon hu fun j hj ↦ .inl ?_
    by_cases hji : j = i
    · exact hji ▸ hself
    · rw [hphase hji]
      exact hj.resolve_right fun hends ↦ hji (by simpa [ToDaemon.ends] using hends : i = j).symm

/-- What one entry of a report does to the phase of a job. -/
theorem Entry.apply_cases (phase : ℕ → Phase) (e : Entry) (j : ℕ) : e.apply phase j = phase j ∨
      e.jobID = j ∧ (e.report = .ended ∧ e.apply phase j = .finished ∨
        e.report = .running ∧ e.apply phase j = .running) := by
  by_cases hj : e.jobID = j
  · subst hj
    unfold Entry.apply
    cases hr : e.report with
    | ended => exact .inr ⟨rfl, .inl ⟨rfl, update_self ..⟩⟩
    | nothing => exact .inl rfl
    | running => exact .inr ⟨rfl, .inr ⟨rfl, update_self ..⟩⟩
  · refine .inl ?_
    unfold Entry.apply
    cases e.report with
    | ended | running => exact update_of_ne (Ne.symm hj) _ _
    | nothing => rfl

/-- **What a report does to the phase of a job.** -/
theorem foldl_apply_cases (items : List Entry) (phase : ℕ → Phase) (j : ℕ) :
    items.foldl Entry.apply phase j = phase j ∨
    ∃ e ∈ items, e.jobID = j ∧ (e.report = .ended ∧ items.foldl Entry.apply phase j = .finished ∨
      e.report = .running ∧ items.foldl Entry.apply phase j = .running) := by
  induction items generalizing phase with
  | nil => exact .inl rfl
  | cons e items ih =>
    rw [foldl_cons]
    rcases ih (e.apply phase) with hsame | ⟨e', he', hid, hcase⟩
    · rw [hsame]
      rcases e.apply_cases phase j with hkeep | ⟨hid, hcase⟩
      · exact .inl hkeep
      · exact .inr ⟨e, mem_cons_self, hid, hcase⟩
    · exact .inr ⟨e', mem_cons_of_mem _ he', hid, hcase⟩

variable {items : List Entry}

/-- An entry that reports the end of a job, in a report with one entry for each job. -/
theorem foldl_apply_of_ended {phase : ℕ → Phase}
    (hnodup : (items.map Entry.jobID).Nodup) (hmem : (⟨j, .ended⟩ : Entry) ∈ items) :
    items.foldl Entry.apply phase j = .finished := by
  induction items generalizing phase with
  | nil => exact nomatch hmem
  | cons e items ih =>
    rw [map_cons, nodup_cons] at hnodup
    rw [foldl_cons]
    rcases mem_cons.mp hmem with rfl | hmem
    · rcases foldl_apply_cases items (Entry.apply phase ⟨j, .ended⟩) j with
        hsame | ⟨e', he', hid, -⟩
      · rw [hsame]
        exact update_self ..
      · exact absurd (List.mem_map.mpr ⟨e', he', hid⟩) hnodup.1
    · exact ih hnodup.2 hmem

theorem Net.Inv.reconResp (h : n.Inv) {rest : List ToDaemon}
    (hu : n.up = .reconResp items :: rest) :
    ({ n with up := rest }.daemonGets (.reconResp items)).Inv := by
  have hhead : .reconResp items ∈ n.up := hu ▸ mem_cons_self
  have hon : n.connected = true := h.connected_of_up hhead
  obtain ⟨hin, hcov⟩ := h.reported.covers items hhead
  have hst : { n with up := rest, phase := items.foldl Entry.apply n.phase }.Started := by
    refine h.started.received hu (fun j hj ↦ ?_) fun j hj ↦ ?_
    · rcases foldl_apply_cases items n.phase j with
        hsame | ⟨e, -, -, ⟨-, hcase⟩ | ⟨-, hcase⟩⟩
      · exact hsame.symm.trans hj
      · exact nomatch hcase.symm.trans hj
      · exact nomatch hcase.symm.trans hj
    · rcases foldl_apply_cases items n.phase j with
        hsame | ⟨e, he, rfl, ⟨hreport, -⟩ | ⟨-, hcase⟩⟩
      · exact .inl (hsame.symm.trans hj)
      · refine .inr ?_
        have heq : e = ⟨e.jobID, .ended⟩ := by rw [← hreport]
        simpa [ToDaemon.ends] using heq ▸ he
      · exact nomatch hcase.symm.trans hj
  have hrecorded : ∀ r ∈ n.jobs, r.pid = -1 → items.foldl Entry.apply n.phase r.jobID = .finished :=
    fun r hr hpid ↦ foldl_apply_of_ended hcov.nodup (hcov.complete r hr hpid)
  have hrep : { n with up := rest, phase := items.foldl Entry.apply n.phase }.Reported :=
    h.reported.received hu fun r hr hpid _ ↦ hrecorded r hr hpid
  refine .of_connected hon ?_ ?_ ?_
  · refine ⟨?_, hrep.covers, fun _ ↦ hin, fun _ ↦ hrecorded⟩
    have htoken := h.reported.token
    rw [hu, countP_cons] at htoken
    simp only [Net.daemonGets, countP_append, countP_singleton]
    exact Nat.le_trans (by simp [ToDaemon.isRecon, ToAgent.isRecon]; omega) htoken
  · exact hst.append_down nofun
  · refine h.safe.received hon hu fun j hj ↦ ?_
    -- a job of the report is still in the list of the agent
    rcases hj with hfin | hends
    · rcases foldl_apply_cases items n.phase j with hsame | ⟨e, he, hid, -⟩
      · exact .inl (hsame.trans hfin)
      · exact .inr (hid ▸ hcov.listed e he)
    · have hmem : (⟨j, .ended⟩ : Entry) ∈ items := by simpa [ToDaemon.ends] using hends
      exact .inr (hcov.listed _ hmem)

/-! ### A job ends -/

theorem map_jobID_setPid (j : ℕ) (pid : ℤ) (jobs : List RunningJob) :
    (setPid j pid jobs).map RunningJob.jobID = jobs.map RunningJob.jobID := by
  rw [setPid, List.map_map]
  refine map_congr_left fun r _ ↦ ?_
  rw [comp_apply]
  split <;> rfl

variable {jobs : List RunningJob}

theorem exists_mem_setPid : (∃ r ∈ setPid j pid jobs, r.jobID = i) ↔ ∃ r ∈ jobs, r.jobID = i := by
  rw [← List.mem_map, ← List.mem_map, map_jobID_setPid]

theorem forall_mem_setPid : (∀ r ∈ setPid j pid jobs, r.jobID ≠ i) ↔ ∀ r ∈ jobs, r.jobID ≠ i := by
  have hiff : (∃ r ∈ setPid j pid jobs, r.jobID = i) ↔ _ := exists_mem_setPid
  simpa using not_congr hiff

theorem mem_setPid {r : RunningJob} (hr : r ∈ setPid j pid jobs) :
    r ∈ jobs ∨ r.jobID = j ∧ r.pid = pid := by
  obtain ⟨r', hr', rfl⟩ := List.mem_map.mp hr
  split
  · next hid => exact .inr ⟨hid, rfl⟩
  · exact .inl hr'

theorem Net.Inv.reap (h : n.Inv) (hi : ∃ r ∈ n.jobs, r.jobID = i) : (n.reap i).Inv := by
  have hold {r : RunningJob} (hr : r ∈ setPid i 0 n.jobs) (hpid : r.pid = -1) : r ∈ n.jobs := by
    rcases mem_setPid hr with hr | ⟨-, hzero⟩
    · exact hr
    · exact nomatch hzero.symm.trans hpid
  have hkeep {j : ℕ} (hu : n.Unborn j) : (n.reap i).Unborn j := by
    refine ⟨forall_mem_setPid.mpr hu.jobs, fun hmem ↦ ?_, hu.up, hu.phase⟩
    rcases mem_cons.mp hmem with rfl | hmem
    · obtain ⟨r, hr, hid⟩ := hi
      exact hu.jobs r hr hid
    · exact hu.ended hmem
  have hrep := h.reported
  have hst := h.started
  refine ⟨h.offline, h.loggedIn, ?_, ?_, fun j hj ↦ ?_⟩
  · refine ⟨hrep.token, fun items hm ↦ ?_, hrep.acknowledged,
      fun hm r hr hpid ↦ hrep.recorded hm r (hold hr hpid) hpid⟩
    obtain ⟨hin, hcov⟩ := hrep.covers items hm
    exact ⟨hin, fun e he ↦ exists_mem_setPid.mpr (hcov.listed e he), hcov.nodup,
      fun r hr hpid ↦ hcov.complete r (hold hr hpid) hpid⟩
  · refine ⟨?_, fun j hj ↦ hkeep (hst.unborn j hj), hst.unsent, hst.once, hst.order, fun j hj ↦ ?_⟩
    · exact (map_jobID_setPid i 0 n.jobs).symm ▸ hst.nodup
    · obtain ⟨hphase, hpids⟩ := hst.begun j hj
      exact ⟨hphase, fun r hr hid hpid ↦ hpids r (hold hr hpid) hid hpid⟩
  · rcases mem_cons.mp hj with rfl | hj
    · exact .inr (.inr (exists_mem_setPid.mpr hi))
    · exact (h.safe j hj).imp_right (Or.imp_right exists_mem_setPid.mpr)

/-- Offline, the record stays in the list and waits for the next report. -/
theorem Net.Inv.complete_offline (h : n.Inv) (hoff : n.connected = false) :
    { n with jobs := setPid i (-1) n.jobs }.Inv := by
  obtain ⟨hup, hdown⟩ := h.offline hoff
  have hst := h.started
  have hkeep {j : ℕ} (hu : n.Unborn j) : { n with jobs := setPid i (-1) n.jobs }.Unborn j :=
    ⟨forall_mem_setPid.mpr hu.jobs, hu.ended, hu.up, hu.phase⟩
  refine ⟨h.offline, h.loggedIn, ?_, ?_, fun j hj ↦ ?_⟩
  · exact .of_none h.reported.token (by simp [hup]) (by simp [hdown])
  · refine ⟨?_, fun j hj ↦ hkeep (hst.unborn j hj), hst.unsent, hst.once, hst.order, ?_⟩
    · exact (map_jobID_setPid i (-1) n.jobs).symm ▸ hst.nodup
    · simp [hup]
  · exact (h.safe j hj).imp_right (Or.imp_right exists_mem_setPid.mpr)

/-- Online and outside a reconciliation, the completion is sent and the record is freed. No report
is on its way then, nor an acknowledgement. -/
theorem Net.Inv.complete_online (h : n.Inv) (hi : ∃ r ∈ n.jobs, r.jobID = i)
    (hon : n.connected = true) (hrecon : n.inRecon = false) :
    { n with
      jobs := n.jobs.filter fun r ↦ r.jobID ≠ i
      up := n.up ++ [ToDaemon.jobCompleted i] }.Inv := by
  have hnone (items : List Entry) : .reconResp items ∉ n.up ++ [ToDaemon.jobCompleted i] := by
    intro hm
    have hm : .reconResp items ∈ n.up := by simpa using hm
    exact nomatch hrecon.symm.trans (h.reported.covers items hm).1
  have hst := h.started
  have hkeep {j : ℕ} (hu : n.Unborn j) :
      { n with
        jobs := n.jobs.filter fun r ↦ r.jobID ≠ i
        up := n.up ++ [ToDaemon.jobCompleted i] }.Unborn j := by
    refine ⟨fun r hr ↦ hu.jobs r (mem_filter.mp hr).1, hu.ended,
      forall_mem_append.mpr ⟨hu.up, forall_mem_singleton.mpr ?_⟩, hu.phase⟩
    rintro rfl
    obtain ⟨r, hr, hid⟩ := hi
    exact hu.jobs r hr hid
  refine .of_connected hon ?_ ?_ fun j hj ↦ ?_
  · refine .of_none ?_ hnone fun hm ↦ nomatch hrecon.symm.trans (h.reported.acknowledged hm)
    simpa [ToDaemon.isRecon] using h.reported.token
  · refine ⟨hst.nodup.sublist (filter_sublist.map _), fun j hj ↦ hkeep (hst.unborn j hj),
      hst.unsent, hst.once, ?_, fun j hj ↦ ?_⟩
    · exact hst.order_append fun _ ↦ nofun
    · obtain ⟨hphase, hpids⟩ := hst.begun j (by simpa using hj)
      exact ⟨hphase, fun r hr ↦ hpids r (mem_filter.mp hr).1⟩
  · rcases h.safe j hj with hfin | ⟨-, m, hm, hends⟩ | ⟨r, hr, hid⟩
    · exact .inl hfin
    · exact .inr (.inl ⟨hon, m, mem_append_left _ hm, hends⟩)
    · by_cases hij : j = i
      · exact .inr (.inl ⟨hon, _, mem_append_right _ mem_cons_self, by simp [ToDaemon.ends, hij]⟩)
      · exact .inr (.inr ⟨r, mem_filter.mpr ⟨hr, by simpa [hid] using hij⟩, hid⟩)

theorem Net.Inv.complete (h : n.Inv) (hi : ∃ r ∈ n.jobs, r.jobID = i)
    (hgood : handedOver n (.complete i) = true) : (n.complete i).Inv := by
  cases hon : n.connected with
  | false =>
    rw [Net.complete, if_pos (by simp [hon])]
    exact h.complete_offline hon
  | true =>
    have hrecon : n.inRecon = false := by simpa [handedOver, hon] using hgood
    rw [Net.complete, if_neg (by simp [hon, hrecon])]
    exact h.complete_online hi hon hrecon

end

/-! ### Runs -/

theorem Net.Inv.initial (secret : Bool) : ({ secret } : Net).Inv where
  offline _ := ⟨rfl, rfl⟩
  loggedIn hlog := absurd hlog nofun
  reported := .of_none (Nat.zero_le _) (fun _ ↦ not_mem_nil) not_mem_nil
  started := by
    refine ⟨nodup_nil, fun j _ ↦ ⟨?_, ?_, ?_, nofun⟩, ?_, List.Pairwise.nil, List.Pairwise.nil, ?_⟩
    all_goals simp
  safe _ hj := absurd hj not_mem_nil

theorem Net.Inv.step {n n' : Net} {e : Event} (h : n.Inv) (hgood : handedOver n e = true)
    (hstep : Step n e n') : n'.Inv := by
  unfold Step at hstep
  cases e with
  | connect =>
    cases hon : n.connected with
    | true => simp [next, hon] at hstep
    | false =>
      obtain rfl : n.connect = n' := by simpa [next, hon] using hstep
      exact h.connect hon
  | disconnect =>
    cases hon : n.connected with
    | false => simp [next, hon] at hstep
    | true =>
      obtain rfl : n.disconnect = n' := by simpa [next, hon] using hstep
      exact h.disconnect hgood
  | send jobid =>
    have hfresh : n.phase jobid = .fresh := of_decide_eq_true hgood
    obtain ⟨⟨hlog, -⟩, rfl⟩ : (n.loggedIn = true ∧ n.recon = false) ∧ n.send jobid = n' := by
      simpa [next, hfresh] using hstep
    exact h.send hlog hfresh
  | toAgent pid =>
    cases hd : n.down with
    | nil => simp [next, hd] at hstep
    | cons m rest =>
      obtain rfl : { n with down := rest }.agentGets pid m = n' := by simpa [next, hd] using hstep
      have hhead : m ∈ n.down := hd ▸ mem_cons_self
      have hon := h.connected_of_down hhead
      have hpop := h.pop hd
      cases m with
      | reconReq =>
        obtain ⟨halone, halone'⟩ := h.reported.alone hd rfl
        have hsecret : n.secret = false := by simpa [handedOver, hd] using hgood
        rw [Net.agentGets, if_neg (by simp [hsecret])]
        exact hpop.reconReq hon halone halone'
      | reconComplete =>
        obtain ⟨halone, halone'⟩ := h.reported.alone hd rfl
        exact hpop.reconComplete halone halone' (h.reported.recorded hhead) pid
      | startJob jobid =>
        obtain ⟨hu, hfresh, hunsent⟩ := h.started.head hd
        cases pid with
        | none => exact hpop.startFails hon hfresh hunsent
        | some pid =>
          exact hpop.startJob hon ⟨hu.jobs, hu.ended, hu.up, hu.phase⟩ hfresh hunsent pid
  | toDaemon =>
    cases hu : n.up with
    | nil => simp [next, hu] at hstep
    | cons m rest =>
      obtain rfl : { n with up := rest }.daemonGets m = n' := by simpa [next, hu] using hstep
      cases m with
      | login => exact h.login hu
      | reconResp items => exact h.reconResp hu
      | jobStarted jobid => exact h.jobStarted hu
      | jobCompleted jobid => exact h.jobCompleted hu
  | reap jobid =>
    obtain ⟨⟨r, hr, hid, -⟩, rfl⟩ :
        (∃ r ∈ n.jobs, r.jobID = jobid ∧ 0 < r.pid) ∧ n.reap jobid = n' := by
      simpa [next] using hstep
    exact h.reap ⟨r, hr, hid⟩
  | complete jobid =>
    obtain ⟨⟨r, hr, hid, -⟩, rfl⟩ :
        (∃ r ∈ n.jobs, r.jobID = jobid ∧ r.pid = 0) ∧ n.complete jobid = n' := by
      simpa [next] using hstep
    exact h.complete ⟨r, hr, hid⟩ hgood

namespace Sample

/-- The agent logs in, reconciles and starts job 1. -/
def started : List Event :=
  [.connect, .toDaemon, .toAgent none, .toDaemon, .toAgent none, .send 1, .toAgent (some 100),
    .toDaemon]

/-- Job 1 has ended, and nothing is left that says so. -/
abbrev lost (n : Net) : Prop :=
  1 ∈ n.ended ∧ n.phase 1 ≠ .finished ∧ n.up = [] ∧ n.jobs = []

theorem not_safe_of_lost {n : Net} (h : lost n) : ¬ n.Safe := by
  obtain ⟨hended, hphase, hup, hjobs⟩ := h
  intro hsafe
  rcases hsafe 1 hended with hfin | ⟨-, m, hm, -⟩ | ⟨r, hr, -⟩
  · exact hphase hfin
  · rw [hup] at hm
    exact nomatch hm
  · rw [hjobs] at hr
    exact nomatch hr

end Sample

/-- The connection breaks when the completion is on its way. -/
theorem exists_not_safe_disconnect : ∃ n, Run Step (fun _ _ ↦ True) {} n ∧ ¬ n.Safe := by
  obtain ⟨n, hrun, hp⟩ := Run.exists_of_next (fun _ _ ↦ true) next
    (Sample.started ++ [.reap 1, .complete 1, .disconnect]) {} Sample.lost (by decide +kernel)
  exact ⟨n, hrun.mono fun _ _ _ ↦ trivial, Sample.not_safe_of_lost hp⟩

end Jers.Handover
