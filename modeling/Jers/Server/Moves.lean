import Jers.Server.Events
import Jers.Server.Shift

/-!
# Moves of the core

Every event changes the core of the server by a sequence of moves: a job shifts, is added or is
removed, a queue or a resource is added, reused, edited or removed, and the default queue or the
save in progress is set. `Allowed env s e c l` says which moves an event `e` that finds the server
in state `s` can make from the core `c`, with everything the code has checked by then.

The invariants of the daemon are proved on moves; that an event makes only moves it is allowed is
proved once, in the modules that follow.
-/

namespace Jers

/-- The kinds of moves, with the records before and after. -/
inductive Label
  | shift (a : Addr) (j j' : Job) (k : Cost)
  | addJob (j j' : Job) (k : Cost)
  | removeJob (a : Addr) (j : Job)
  | addQueue (q : Queue)
  | reuseQueue (b : Addr) (q q' : Queue)
  | editQueue (b : Addr) (q q' : Queue)
  | removeQueue (b : Addr) (q : Queue)
  | addRes (r : Resource)
  | reuseRes (b : Addr) (r r' : Resource)
  | editRes (b : Addr) (r r' : Resource)
  | removeRes (b : Addr) (r : Resource)
  | setDefault (b : Addr)
  | setFlush (f : Option Flush)

/-- What a move does. A new job is put into the table and then shifted to its state. -/
def Move : Label → Core → Core → Prop
  | .shift a j j' k, c, c' => Shift a j j' k c c'
  | .addJob j j' k, c, c' =>
    Shift c.jobTable.next j j' k { c with jobTable := c.jobTable.push j } c'
  | .removeJob a j, c, c' =>
    c.jobTable.get? a = some j ∧ c' = { c with jobTable := c.jobTable.erase a }
  | .addQueue q, c, c' => c' = { c with queueTable := c.queueTable.push q }
  | .reuseQueue b q q', c, c' =>
    c.queueTable.get? b = some q ∧ c' = { c with queueTable := c.queueTable.reput b q' }
  | .editQueue b q q', c, c' =>
    c.queueTable.get? b = some q ∧ c' = { c with queueTable := c.queueTable.modify b fun _ ↦ q' }
  | .removeQueue b q, c, c' =>
    c.queueTable.get? b = some q ∧ c' = { c with queueTable := c.queueTable.erase b }
  | .addRes r, c, c' => c' = { c with resTable := c.resTable.push r }
  | .reuseRes b r r', c, c' =>
    c.resTable.get? b = some r ∧ c' = { c with resTable := c.resTable.reput b r' }
  | .editRes b r r', c, c' =>
    c.resTable.get? b = some r ∧ c' = { c with resTable := c.resTable.modify b fun _ ↦ r' }
  | .removeRes b r, c, c' =>
    c.resTable.get? b = some r ∧ c' = { c with resTable := c.resTable.erase b }
  | .setDefault b, c, c' =>
    (c.queueTable.get? b).isSome ∧ c' = { c with defaultQueue := some b }
  | .setFlush f, c, c' => c' = { c with flush := f }

theorem Move.shifted {a : Addr} {j j' : Job} {k : Cost} {c c' : Core}
    (h : Move (.shift a j j' k) c c') : Shift a j j' k c c' := h

theorem Move.added {j j' : Job} {k : Cost} {c c' : Core} (h : Move (.addJob j j' k) c c') :
    Shift c.jobTable.next j j' k { c with jobTable := c.jobTable.push j } c' := h

/-- What no move changes, the addresses that are not taken back, and where the default queue comes
from. -/
structure Frame (c c' : Core) : Prop where
  config : c'.config = c.config
  recovery : c'.recovery = c.recovery
  jobNext : c.jobTable.next ≤ c'.jobTable.next
  queueNext : c.queueTable.next ≤ c'.queueTable.next
  resNext : c.resTable.next ≤ c'.resTable.next
  default : ∀ b, c'.defaultQueue = some b → c.defaultQueue = some b ∨ (c.queueTable.get? b).isSome

theorem Shift.frame {a : Addr} {j j' : Job} {k : Cost} {c c' : Core} (h : Shift a j j' k c c') :
    Frame c c' where
  config := h.config
  recovery := h.recovery
  jobNext := by rw [h.jobs, Table.next_modify]
  queueNext := h.queueNext.ge
  resNext := h.resNext.ge
  default b hb := .inl (h.defaultQueue.symm.trans hb)

/-- **The frame of a move.** -/
theorem Move.frame {l : Label} {c c' : Core} (h : Move l c c') : Frame c c' := by
  cases l with
  | shift => exact Shift.frame h
  | addJob j j' k =>
    have hframe := h.added.frame
    exact { hframe with jobNext := (Nat.le_succ _).trans hframe.jobNext }
  | addQueue q =>
    obtain rfl := h
    exact ⟨rfl, rfl, le_rfl, Nat.le_succ _, le_rfl, fun _ ↦ .inl⟩
  | addRes r =>
    obtain rfl := h
    exact ⟨rfl, rfl, le_rfl, le_rfl, Nat.le_succ _, fun _ ↦ .inl⟩
  | reuseQueue =>
    obtain ⟨-, rfl⟩ := h
    exact ⟨rfl, rfl, le_rfl, Table.next_le_reput _ _ _, le_rfl, fun _ ↦ .inl⟩
  | reuseRes =>
    obtain ⟨-, rfl⟩ := h
    exact ⟨rfl, rfl, le_rfl, le_rfl, Table.next_le_reput _ _ _, fun _ ↦ .inl⟩
  | setDefault b =>
    obtain ⟨hb, rfl⟩ := h
    exact ⟨rfl, rfl, le_rfl, le_rfl, le_rfl, fun _ hb' ↦ .inr (Option.some.inj hb' ▸ hb)⟩
  | setFlush f =>
    obtain rfl := h
    exact ⟨rfl, rfl, le_rfl, le_rfl, le_rfl, fun _ ↦ .inl⟩
  | removeJob | editQueue | removeQueue | editRes | removeRes =>
    obtain ⟨-, rfl⟩ := h
    exact ⟨rfl, rfl, le_rfl, le_rfl, le_rfl, fun _ ↦ .inl⟩

/-- A sequence of moves, each allowed by `P` where it is made. -/
def Path (P : Core → Label → Prop) : Core → Core → Prop :=
  Relation.ReflTransGen fun c c' ↦ ∃ l, P c l ∧ Move l c c'

namespace Path

variable {P Q : Core → Label → Prop} {c c' c'' : Core}

theorem refl (c : Core) : Path P c c := Relation.ReflTransGen.refl

theorem of_eq (h : c = c') : Path P c c' := h ▸ refl c

theorem single {l : Label} (hP : P c l) (h : Move l c c') : Path P c c' :=
  Relation.ReflTransGen.single ⟨l, hP, h⟩

theorem trans (h : Path P c c') (h' : Path P c' c'') : Path P c c'' :=
  Relation.ReflTransGen.trans h h'

theorem mono (hPQ : ∀ c l, P c l → Q c l) (h : Path P c c') : Path Q c c' :=
  Relation.ReflTransGen.mono (fun _ _ ⟨l, hl, hm⟩ ↦ ⟨l, hPQ _ l hl, hm⟩) _ _ h

/-- **Paths keep what allowed moves keep.** -/
theorem invariant {I : Core → Prop} (hmove : ∀ {c c' l}, I c → P c l → Move l c c' → I c')
    (h : Path P c c') (hc : I c) : I c' := by
  induction h with
  | refl => exact hc
  | tail _ hstep ih =>
    obtain ⟨l, hl, hm⟩ := hstep
    exact hmove ih hl hm

end Path

/-! ### Records after an event -/

/-- A job that is sent to its agent. -/
def Job.begun (j : Job) (reqs : List JobResource) : Job :=
  { j with
    internalState.started := true
    pendReason := PendReason.agent.toInt
    history :=
      { awaiting := true
        held := if j.resCount ≠ 0 then reqs else j.history.held
        starts := j.history.starts + 1 } }

/-- A deferred job that is released. -/
def Job.released (j : Job) : Job := { j with deferTime := 0 }.changed .pending none false

/-- A job that is deleted. -/
def Job.deleted (j : Job) : Job :=
  { j with internalState.deleted := true, history.held := [] }.changed .cleared none false

/-- A job whose agent has gone. -/
def Job.lost (j : Job) : Job := { j with internalState := {} }.changed .unknown none true

/-- A job that is reported started. -/
def Job.confirmed (j : Job) (pid startTime : ℤ) : Job :=
  { j.changed .running none true with
    internalState := { j.internalState with started := false }
    pendReason := 0
    pid := pid
    startTime := startTime
    history := { j.history with awaiting := false } }

/-- A job that is reported completed. -/
def Job.ended (j : Job) (exitcode finishTime : ℤ) (usage : Usage) : Job :=
  { { j with
      exitcode := (exitStatus exitcode).exitcode
      failReason := (exitStatus exitcode).failReason.getD j.failReason
      signal := (exitStatus exitcode).signal.getD j.signal
      pid := -1
      finishTime := finishTime
      usage := usage }.changed (exitStatus exitcode).state none true with
    internalState := { j.internalState with started := false }
    history := { j.history with awaiting := false, held := [] } }

/-- The first part of a `RECON_RESP` entry: what it says about the end of the job. -/
def Job.reconFinish (j : Job) (i : ReconItem) : Job :=
  let j :=
    { j with
      pendReason := 0
      startTime := if i.startTime ≠ 0 then i.startTime else j.startTime
      history.awaiting := j.history.awaiting && i.finishTime == 0 && i.pid == 0 }
  if i.finishTime ≠ 0 then
    { j with finishTime := i.finishTime, exitcode := i.exitcode, history.held := [] }.changed
      (if i.exitcode ≠ 0 then .exited else .completed) none true
  else
    j

/-- A job after an entry of a `RECON_RESP` message. -/
def Job.reconciled (j : Job) (i : ReconItem) : Job :=
  let j := j.reconFinish i
  { (if i.pid ≠ 0 then { j with pid := i.pid }.changed .running none false else j) with
    usage := i.usage }

section

variable (j : Job) (i : ReconItem)

theorem Job.reconciled_state : (j.reconciled i).state = if i.pid ≠ 0 then .running
    else if i.finishTime ≠ 0 then if i.exitcode ≠ 0 then .exited else .completed
    else j.state := by
  simp only [reconciled, reconFinish, changed]
  split_ifs <;> rfl

@[simp]
theorem Job.reconciled_jobid : (j.reconciled i).jobid = j.jobid := by
  simp only [reconciled, reconFinish, changed]
  split_ifs <;> rfl

@[simp]
theorem Job.reconciled_queue : (j.reconciled i).queue = j.queue := by
  simp only [reconciled, reconFinish, changed]
  split_ifs <;> rfl

@[simp]
theorem Job.reconciled_internalState : (j.reconciled i).internalState = j.internalState := by
  simp only [reconciled, reconFinish, changed]
  split_ifs <;> rfl

@[simp]
theorem Job.reconciled_deferTime : (j.reconciled i).deferTime = j.deferTime := by
  simp only [reconciled, reconFinish, changed]
  split_ifs <;> rfl

@[simp]
theorem Job.reconciled_requirements : (j.reconciled i).resCount = j.resCount ∧
    (j.reconciled i).reqResources = j.reqResources := by
  simp only [reconciled, reconFinish, changed]
  split_ifs <;> exact ⟨rfl, rfl⟩

theorem Job.reconciled_history : (j.reconciled i).history =
    { awaiting := j.history.awaiting && i.finishTime == 0 && i.pid == 0
      held := if i.finishTime ≠ 0 then [] else j.history.held
      starts := j.history.starts } := by
  simp only [reconciled, reconFinish, changed]
  split_ifs <;> rfl

end

/-- The slots a `RECON_RESP` entry gives back. -/
def reconFreed (j : Job) (i : ReconItem) : ℤ :=
  (if i.finishTime ≠ 0 then slotsFreed j (if i.exitcode ≠ 0 then .exited else .completed) none
    else 0) +
  if i.pid ≠ 0 then slotsFreed (j.reconFinish i) .running none else 0

/-- An unknown job that is taken to have ended by a signal. -/
def Job.killed (j : Job) (now signum : ℤ) : Job :=
  { { j with pid := -1, finishTime := now, signal := signum, exitcode := 128 + signum }.changed
      .exited none true with
    history := { j.history with held := [] } }

/-- A job after a modify request. -/
def Job.modified (j : Job) (mj : JobMod) (q : Option Addr) (new : Option (List JobResource)) :
    Job :=
  { (mj.edit new j).changed (mj.state new j) q (mj.dirty new q j) with
    history :=
      { j.history with
        held := if mj.restart ∧ j.state = .unknown then [] else j.history.held } }

/-! ### What an event may do -/

/-- The resources of a job are given back by `deallocateRes`: exactly, and without a mark, if they
are in use and are the ones that were allocated. -/
def Gives (c : Core) (j : Job) (use : Addr → ℤ) (w : Audit) : Prop :=
  ∃ reqs, j.requirements = .ok reqs ∧
    (Releasable reqs c → j.history.held = reqs → use = (fun b ↦ -amount reqs b) ∧ w = {})

/-- The deferred list without a job, if the job was on it. -/
def undefer (a : Addr) (deferTime : ℤ) (l : List Addr) : List Addr :=
  if deferTime ≠ 0 then l.erase a else l

/-- The times by which the job at `a`, which is deferred to `t`, is put into the deferred list. -/
def DeferTimes (c : Core) (a : Addr) (t : ℤ) (due : Addr → ℤ) : Prop :=
  due a = t ∧ ∀ b i, b ≠ a → c.jobTable.get? b = some i → due b = i.deferTime

/-- The deferred list without a job that is given another time. -/
abbrev JobMod.undefers (mj : JobMod) (a : Addr) (j : Job) : List Addr → List Addr :=
  if mj.deferTime ≠ unsetTimeT then undefer a j.deferTime else id

/-- A modify request puts the job into the deferred list by `f`, if it has a time. -/
def JobMod.Defers (mj : JobMod) (c : Core) (a : Addr) (f : List Addr → List Addr) : Prop :=
  (mj.deferTime = unsetTimeT ∨ mj.deferTime = 0) ∧ f = id ∨
    mj.deferTime ≠ unsetTimeT ∧ mj.deferTime ≠ 0 ∧
      ∃ due, DeferTimes c a mj.deferTime due ∧ f = insertDeferred due a

/-- The job can be cleaned up. -/
def Job.Removable (j : Job) : Prop :=
  j.internalState.deleted = true ∧ j.obj.dirty = false ∧ j.internalState.flushing = false

instance (j : Job) : Decidable j.Removable := inferInstanceAs (Decidable (_ ∧ _))

def Queue.Removable (q : Queue) : Prop :=
  q.internalState.deleted = true ∧ q.obj.dirty = false ∧ q.internalState.flushing = false

instance (q : Queue) : Decidable q.Removable := inferInstanceAs (Decidable (_ ∧ _))

def Resource.Removable (r : Resource) : Prop :=
  r.internalState.deleted = true ∧ r.obj.dirty = false ∧ r.internalState.flushing = false

instance (r : Resource) : Decidable r.Removable := inferInstanceAs (Decidable (_ ∧ _))

/-- The moves of a command on jobs. -/
inductive JobMove (env : Env) (s : Server) : Command → Core → Label → Prop
  /-- A deleted job gives way to a new one. -/
  | recycle {ja : JobAdd} {c : Core} {a : Addr} {j : Job} :
      s.jobTable.get? a = some j → j.Removable → JobMove env s (.addJob ja) c (.removeJob a j)
  | submit {ja : JobAdd} {c : Core} {jobid uid submitter : ℕ} {b : Addr} {time : ℤ}
      {reqs : List JobResource} {f : List Addr → List Addr} :
      (s.defaultQueue = some b ∨ ∃ q, s.queueTable.get? b = some q ∧
        q.internalState.deleted = false) →
      c.queueTable = s.queueTable → c.resTable = s.resTable → c.defaultQueue = s.defaultQueue →
      convertResourceStrings s.toTables ja.resources = some reqs → c.findJob jobid = none →
      ((ja.deferTime = 0 ∧ f = id) ∨
        (ja.deferTime ≠ 0 ∧ ∃ due, DeferTimes c c.jobTable.next ja.deferTime due ∧
          f = insertDeferred due c.jobTable.next)) →
      jobid ≠ 0 → (s.recovery = none → jobid = ja.jobid ∨ jobid ≤ max 1 s.config.maxJobid) →
      JobMove env s (.addJob ja) c
        (.addJob { newJob ja jobid uid submitter b time reqs with state := .cleared }
          ({ newJob ja jobid uid submitter b time reqs with state := .cleared }.changed
            (newJob ja jobid uid submitter b time reqs).state none true)
          { deferred := f })
  | modify {mj : JobMod} {a : Addr} {j : Job} {q : Option Addr} {new : Option (List JobResource)}
      {k : Cost} {f : List Addr → List Addr} :
      s.findJob mj.jobid = some (a, j) → j.internalState.deleted = false →
      mj.refusal none j = none → mj.target s.toTables = some q →
      mj.converted s.toTables = some new → k.slots = 0 →
      (if mj.restart ∧ j.state = .unknown then Gives s.toCore j k.use k.audit
        else k.use = (fun _ ↦ 0) ∧ k.audit = {}) →
      k.deferred = f ∘ mj.undefers a j → mj.Defers s.toCore a f →
      JobMove env s (.modJob mj) s.toCore (.shift a j (j.modified mj q new) k)
  | delete {jobid : ℕ} {a : Addr} {j : Job} :
      s.findJob jobid = some (a, j) → j.internalState.deleted = false →
      JobMove env s (.delJob jobid) s.toCore
        (.shift a j j.deleted { deferred := undefer a j.deferTime })
  | kill {js : JobSig} {a : Addr} {j : Job} {k : Cost} :
      s.findJob js.jobid = some (a, j) → j.internalState.deleted = false → j.state = .unknown →
      k.slots = -slotsFreed j .exited none → Gives s.toCore j k.use k.audit → k.deferred = id →
      JobMove env s (.sigJob js) s.toCore (.shift a j (j.killed env.now js.signum) k)
  | setTag {jobid : ℕ} {key : Str} {value : Option Str} {a : Addr} {j : Job} :
      s.findJob jobid = some (a, j) → isprintable key = true →
      JobMove env s (.setTag jobid key value) s.toCore
        (.shift a j { j with tags := Jers.setTag key value j.tags, obj := j.obj.updated true } {})
  | delTag {jobid : ℕ} {key : Str} {a : Addr} {j : Job} :
      s.findJob jobid = some (a, j) →
      JobMove env s (.delTag jobid key) s.toCore
        (.shift a j { j with tags := Jers.delTag key j.tags, obj := j.obj.updated true } {})

/-- The queue that a request to add one describes, with its permissions. -/
def QueueRequest.queue (qa : QueueRequest) (env : Env) (s : Server) (name : Str) (g : Addr) :
    Queue :=
  { newQueue qa name (qa.node.getD "localhost".toList) g s.config.defaultJobNice with
    permissions := queuePermissions env s.config.queueAcls name }

/-- The moves of a command on queues. -/
inductive QueueMove (env : Env) (s : Server) : Command → Core → Label → Prop
  | make {qa : QueueRequest} {name : Str} {g : Addr} :
      s.findQueue name = none → QueueMove env s (.addQueue qa)
      s.toCore (.addQueue (qa.queue env s name g))
  /-- The structure of a deleted queue is cleared and used again. -/
  | remake {qa : QueueRequest} {orig name : Str} {g b : Addr} {q : Queue} :
      qa.name = some orig → lowercasestring orig = name →
      s.findQueue name = some (b, q) → q.internalState.deleted = true →
      QueueMove env s (.addQueue qa) s.toCore (.reuseQueue b q (qa.queue env s name g))
  /-- The structure of a deleted queue is freed, since the host of the new one is not known. -/
  | drop {qa : QueueRequest} {orig name : Str} {b : Addr} {q : Queue} :
      qa.name = some orig → lowercasestring orig = name →
      s.findQueue name = some (b, q) → q.internalState.deleted = true →
      findAgent env s (qa.node.getD "localhost".toList) = none →
      QueueMove env s (.addQueue qa) s.toCore (.removeQueue b q)
  | chooseNew {qa : QueueRequest} {c : Core} {b : Addr} :
      setOr qa.defaultQueue 0 ≠ 0 → QueueMove env s (.addQueue qa) c (.setDefault b)
  | touchNew {qa : QueueRequest} {c : Core} {b : Addr} {q : Queue} :
      QueueMove env s (.addQueue qa) c (.editQueue b q { q with obj := q.obj.updated true })
  | modify {qm : QueueRequest} {name : Str} {b : Addr} {q : Queue} {agent : Option Addr} :
      qm.name = some name → s.findQueue name = some (b, q) →
      QueueMove env s (.modQueue qm) s.toCore (.editQueue b q (qm.edit agent q))
  | choose {qm : QueueRequest} {c : Core} {b : Addr} :
      qm.defaultQueue ≠ unset32 → QueueMove env s (.modQueue qm) c (.setDefault b)
  | touch {qm : QueueRequest} {c : Core} {b : Addr} {q : Queue} {dirty : Bool} :
      QueueMove env s (.modQueue qm) c (.editQueue b q { q with obj := q.obj.updated dirty })
  | delete {name : Str} {b : Addr} {q : Queue} :
      s.findQueue name = some (b, q) → q.internalState.deleted = false → s.queueInUse b = false →
      QueueMove env s (.delQueue (some name)) s.toCore
        (.editQueue b q { q with internalState.deleted := true })

/-- The moves of a command on resources. -/
inductive ResMove (s : Server) : Command → Core → Label → Prop
  | make {name : Str} {count : ℤ} :
      s.findResource name = none →
      ResMove s (.addResource (some name) count) s.toCore (.addRes { name, count })
  | remake {name : Str} {count : ℤ} {b : Addr} {r : Resource} :
      s.findResource name = some (b, r) → r.internalState.deleted = true →
      ResMove s (.addResource (some name) count) s.toCore
        (.reuseRes b r { r with name, count, internalState.deleted := false })
  | touchNew {name : Option Str} {count : ℤ} {c : Core} {b : Addr} {r : Resource} :
      ResMove s (.addResource name count) c (.editRes b r { r with obj := r.obj.updated true })
  | modify {name : Str} {count : ℤ} {b : Addr} {r : Resource} :
      s.findResource name = some (b, r) → r.internalState.deleted = false →
      ResMove s (.modResource (some name) count) s.toCore (.editRes b r { r with count := count })
  | touch {name : Option Str} {count : ℤ} {c : Core} {b : Addr} {r : Resource} :
      ResMove s (.modResource name count) c (.editRes b r { r with obj := r.obj.updated true })
  | delete {name : Str} {b : Addr} {r : Resource} :
      s.findResource name = some (b, r) → r.internalState.deleted = false →
      s.resInUse b = .ok false →
      ResMove s (.delResource (some name)) s.toCore
        (.editRes b r { r with internalState.deleted := true })

/-- The moves of an agent message, outside of recovery. -/
inductive AgentMove (env : Env) (s : Server) (g : Addr) : AgentMsg → Core → Label → Prop
  | link {c : Core} {b : Addr} {q : Queue} :
      AgentMove env s g .login c (.editQueue b q { q with agent := some g })
  | started {jobid : ℕ} {pid startTime : ℤ} {a : Addr} {j : Job} :
      s.findJob jobid = some (a, j) →
      AgentMove env s g (.jobStarted jobid pid startTime) s.toCore
        (.shift a j (j.confirmed pid startTime) { slots := -slotsFreed j .running none })
  | completed {jobid : ℕ} {exitcode finishTime : ℤ} {usage : Usage} {a : Addr} {j : Job}
      {k : Cost} : s.findJob jobid = some (a, j) →
      k.slots = -slotsFreed j (exitStatus exitcode).state none → Gives s.toCore j k.use k.audit →
      k.deferred = id →
      AgentMove env s g (.jobCompleted jobid exitcode finishTime usage) s.toCore
        (.shift a j (j.ended exitcode finishTime usage) k)
  /-- If no job is listed twice, an entry finds the job as it was before the message. -/
  | recon {items : List ReconItem} {i : ReconItem} {c : Core} {a : Addr} {j : Job} :
      i ∈ items → j.jobid = i.jobid →
      ((items.map ReconItem.jobid).Nodup → s.findJob i.jobid = some (a, j)) →
      AgentMove env s g (.recon items) c
        (.shift a j (j.reconciled i) { slots := -reconFreed j i })

/-- The moves of an event that finds the server in state `s`. -/
inductive Allowed (env : Env) (s : Server) : Event → Core → Label → Prop
  | job {cl : Client} {cmd : Command} {c : Core} {l : Label} :
      (cmd.isUpdate = true → s.readonly = none) → JobMove env s cmd c l →
      Allowed env s (.client cl cmd) c l
  | queue {cl : Client} {cmd : Command} {c : Core} {l : Label} :
      s.readonly = none → QueueMove env s cmd c l → Allowed env s (.client cl cmd) c l
  | res {cl : Client} {cmd : Command} {c : Core} {l : Label} :
      s.readonly = none → ResMove s cmd c l → Allowed env s (.client cl cmd) c l
  | agent {g : Addr} {m : AgentMsg} {c : Core} {l : Label} :
      AgentMove env s g m c l → Allowed env s (.agent g m) c l
  | lose {g : Addr} {c : Core} {a : Addr} {j : Job} {q : Queue} :
      s.jobTable.get? a = some j → s.queueTable.get? j.queue = some q → q.agent = some g →
      (j.state = .running ∨ j.internalState.started = true) →
      Allowed env s (.disconnect g) c (.shift a j j.lost {})
  | unlink {g : Addr} {c : Core} {b : Addr} {q : Queue} :
      Allowed env s (.disconnect g) c
        (.editQueue b q { q with agent := none, state := q.state - q.state % 2 })
  /-- A candidate that is passed over. -/
  | idle {c : Core} {a : Addr} {j : Job} {r : ℤ} :
      Allowed env s .checkJobs c (.shift a j { j with pendReason := r } {})
  /-- A candidate that is started. Earlier rounds may have touched its reason only. -/
  | start {c : Core} {a : Addr} {j j₀ : Job} {reqs : List JobResource} :
      s.jobTable.get? a = some j₀ → j = { j₀ with pendReason := j.pendReason } →
      s.readonly = none → j.state = .pending → j.internalState.started = false →
      j.requirements = .ok reqs →
      Allowed env s .checkJobs c (.shift a j (j.begun reqs) { slots := 1, use := amount reqs })
  | release {c : Core} {a : Addr} {j : Job} :
      a ∈ c.deferredList →
      Allowed env s .releaseDeferred c (.shift a j j.released { deferred := fun l ↦ l.erase a })
  | expire {c : Core} {a : Addr} {j : Job} :
      s.jobTable.get? a = some j → j.internalState.deleted = false → j.state = .completed →
      Allowed env s .autoCleanup c (.shift a j j.deleted { deferred := undefer a j.deferTime })
  | cleanJob {n : ℕ} {c : Core} {a : Addr} {j : Job} :
      s.jobTable.get? a = some j → j.Removable → Allowed env s (.cleanupJobs n) c (.removeJob a j)
  | cleanQueue {n : ℕ} {c : Core} {b : Addr} {q : Queue} :
      s.queueTable.get? b = some q → q.Removable → c.jobTable = s.jobTable →
      c.defaultQueue = s.defaultQueue → Allowed env s (.cleanupQueues n) c (.removeQueue b q)
  | cleanRes {n : ℕ} {c : Core} {b : Addr} {r : Resource} :
      s.resTable.get? b = some r → r.Removable → c.jobTable = s.jobTable →
      Allowed env s (.cleanupResources n) c (.removeRes b r)
  | captureJob {x : Bool} {c : Core} {a : Addr} {j : Job} :
      Allowed env s (.saveStart x) c (.shift a j j.captured {})
  | captureQueue {x : Bool} {c : Core} {b : Addr} {q : Queue} :
      Allowed env s (.saveStart x) c (.editQueue b q q.captured)
  | captureRes {x : Bool} {c : Core} {b : Addr} {r : Resource} :
      Allowed env s (.saveStart x) c (.editRes b r r.captured)
  | capture {x : Bool} {c : Core} {f : Flush} : Allowed env s (.saveStart x) c (.setFlush (some f))
  | reapJob {failed : Bool} {c : Core} {a : Addr} {j : Job} :
      Allowed env s (.saveFinish failed) c (.shift a j (j.reaped failed) {})
  | reapQueue {failed : Bool} {c : Core} {b : Addr} {q : Queue} :
      Allowed env s (.saveFinish failed) c (.editQueue b q (q.reaped failed))
  | reapRes {failed : Bool} {c : Core} {b : Addr} {r : Resource} :
      Allowed env s (.saveFinish failed) c (.editRes b r (r.reaped failed))
  | reap {failed : Bool} {c : Core} : Allowed env s (.saveFinish failed) c (.setFlush none)

/-- A job is added by a submission only. -/
theorem Allowed.submitted {env : Env} {s : Server} {e : Event} {c : Core} {j j' : Job} {k : Cost}
    (h : Allowed env s e c (.addJob j j' k)) :
    ∃ cl cmd, e = .client cl cmd ∧ JobMove env s cmd c (.addJob j j' k) := by
  cases h with
  | job _ hm => exact ⟨_, _, rfl, hm⟩
  | queue _ hm | res _ hm | agent hm => cases hm

/-- A job is freed by a cleanup, or to make room for a new one. -/
theorem Allowed.removed {env : Env} {s : Server} {e : Event} {c : Core} {a : Addr} {j : Job}
    (h : Allowed env s e c (.removeJob a j)) : s.jobTable.get? a = some j ∧ j.Removable ∧
      ((∃ cl ja, e = .client cl (.addJob ja)) ∨ ∃ n, e = .cleanupJobs n) := by
  cases h with
  | job _ hm => cases hm with | recycle hget hrem => exact ⟨hget, hrem, .inl ⟨_, _, rfl⟩⟩
  | queue _ hm | res _ hm | agent hm => cases hm
  | cleanJob hget hrem => exact ⟨hget, hrem, .inr ⟨_, rfl⟩⟩

end Jers
