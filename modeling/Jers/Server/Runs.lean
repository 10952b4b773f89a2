import Jers.Server.MovesEvents

/-!
# Runs of the daemon

`Runs good config hosts s` says that a daemon that starts without state files can reach the
state `s` by events that all meet the condition `good` on the state they find. A property of the
core that every allowed move keeps holds in every state of every such run (`Runs.core_invariant`).

A concrete run is a list of events that `runEvents` takes without a fault; such runs show that a
property can fail.
-/

namespace Jers

/-- A test of an event and the state it finds. -/
abbrev Condition := Server → Env × Event → Bool

/-- Every event, in every state. -/
def anyEvent : Condition := fun _ _ ↦ true

/-- The states that a daemon reaches by events that meet a condition. -/
def Runs (good : Condition) (config : Config) (hosts : List Str) (s : Server) : Prop :=
  Run Step (fun t e ↦ good t e = true) (Server.initial config hosts) s

variable {good : Condition} {s : Server} {es : List (Env × Event)} {s₀ : Server}

/-- **Runs keep what allowed moves keep.** -/
theorem Run.core_invariant {I : Core → Prop}
    (hmove : ∀ {env e t c c' l}, good t (env, e) = true → I t.toCore → I c → Allowed env t e c l →
      Move l c c' → I c')
    (h : Run Step (fun t e ↦ good t e = true) s₀ s) (hrec : s₀.recovery = none) (h₀ : I s₀.toCore) :
    I s.toCore := by
  have hall : s.recovery = none ∧ I s.toCore := by
    refine h.invariant (I := fun t ↦ t.recovery = none ∧ I t.toCore) (fun ht hgood hstep ↦ ?_)
      ⟨hrec, h₀⟩
    refine ⟨handle_recovery ht.1 hstep, ?_⟩
    exact (handle_path ht.1 hstep).invariant (fun hc hl hm ↦ hmove hgood ht.2 hc hl hm) ht.2
  exact hall.2

/-- **Every state that a daemon reaches keeps what allowed moves keep.** -/
theorem Runs.core_invariant {I : Core → Prop} {config : Config} {hosts : List Str}
    (hmove : ∀ {env e t c c' l}, good t (env, e) = true → I t.toCore → I c → Allowed env t e c l →
      Move l c c' → I c')
    (h : Runs good config hosts s) (h₀ : I (Server.initial config hosts).toCore) : I s.toCore :=
  Run.core_invariant hmove h rfl h₀

/-! ### Concrete runs -/

/-- The state after an event that is handled without a fault. -/
def after (e : Env × Event) (s : Server) : Option Server := (handle e.1 e.2 s).toOption.map Prod.snd

theorem step_of_after {e : Env × Event} {s' : Server} (h : s' ∈ after e s) : Step s e s' := by
  obtain ⟨r, hr, rfl⟩ := Option.map_eq_some_iff.mp h
  exact Except.toOption_eq_some_iff.mp hr

/-- Handle a list of events that meet a condition. -/
def runEvents (good : Condition) : List (Env × Event) → Server → Option Server :=
  Run.follow fun s e ↦ if good s e then after e s else none

theorem run_of_runEvents {s' : Server} (h : s' ∈ runEvents good es s) :
    Run Step (fun t e ↦ good t e = true) s s' := by
  refine Run.of_follow (fun hnext ↦ ?_) h
  obtain ⟨hgood, hafter⟩ := Option.ite_none_right_eq_some.mp hnext
  exact ⟨hgood, step_of_after hafter⟩

/-- A run of a daemon from its start that ends in a state with a property that can be tested. -/
theorem exists_runs (good : Condition) (config : Config) (hosts : List Str)
    (es : List (Env × Event)) (p : Server → Prop)
    (h : ∃ s ∈ runEvents good es (Server.initial config hosts), p s) :
    ∃ s, Runs good config hosts s ∧ p s := by
  obtain ⟨s, hs, hp⟩ := h
  exact ⟨s, run_of_runEvents hs, hp⟩

/-! ### The setting of the concrete runs -/

namespace Sample

/-- Every user is known. -/
def env : Env where
  now := 1000
  host := "node".toList
  lookupUser _ := some { permissions := permRead + permWrite, groupList := [] }

def config : Config := { maxJobid := 100 }

def hosts : List Str := ["node".toList]

def root : Client := { uid := 0 }

def events (es : List Event) : List (Env × Event) := es.map fun e ↦ (env, e)

/-- An open and started queue for two jobs. -/
def addQueue : Command := .addQueue { name := some "q".toList, state := 3, jobLimit := 2 }

def plainJob : JobAdd := { queue := some "q".toList, uid := 7, argv := ["x".toList] }

def addJob : Command := .addJob plainJob

/-- The agent of the queue connects and logs in. -/
def readyQueue : List Event :=
  [.client root addQueue, .connect 0, .agent 0 .login, .agent 0 (.recon [])]

/-- A job is added and sent to its agent. -/
def startJob : List Event := readyQueue ++ [.client root addJob, .checkJobs]

/-- A resource with a number of units, and a job for a list of requirements. -/
def addJobFor (count : ℤ) (resources : List Str) : List Event :=
  .client root (.addResource (some "r".toList) count) ::
    readyQueue ++ [.client root (.addJob { plainJob with resources })]

end Sample

end Jers
