import Jers.Json.Builder
import Jers.Server.Reply
import Jers.State.JobFile

/-!
# Queries for jobs

`command_get_job`: a job that is asked for by its id, or all jobs that pass the filters of a
request. The search goes through the job table or, if a filter asks for a value of the indexed tag,
through the jobs that the index has for this value. A job is held against the filters before it is
looked at whose job it is.

A string of a request or of a tag can be a null pointer; comparing it is a fault.
-/

namespace Jers

open Exec List

/-! ### Filters -/

/-- Three times of a filter. A time of 0 does not count. -/
structure FilterTimes where
  added : ℤ := 0
  started : ℤ := 0
  finished : ℤ := 0
  deriving DecidableEq, Repr

/-- `jersJobFilter`: the fields that have been set are those that are filtered on. The resources and
the node of a request are not looked at. -/
structure JobFilter where
  jobid : ℕ := 0
  jobName : Option (Option Str) := none
  queueName : Option (Option Str) := none
  state : Option ℕ := none
  tags : Option (List (Str × Option Str)) := none
  uid : Option ℕ := none
  before : Option FilterTimes := none
  after : Option FilterTimes := none
  returnFields : ℕ := 0
  deriving DecidableEq, Repr

/-- The pattern has a wildcard. -/
def hasWildcard (pattern : Str) : Bool := pattern.any fun c ↦ c == '*' || c == '?'

/-- `matches`, with `fnmatch` of the environment. -/
def matchesPattern (env : Env) (pattern string : Option Str) : Except Fault Bool :=
  match pattern, string with
  | some p, some s => .ok (if hasWildcard p then env.queueMatch p s else s == p)
  | _, _ => .error .nullDeref

/-- Some tag of a job has the key and a value that matches. -/
def tagMatches (env : Env) (key : Str) (value : Option Str) :
    List (Str × Option Str) → Except Fault Bool
  | [] => .ok false
  | t :: ts =>
    if t.1 = key then do
      if ← matchesPattern env value t.2 then
        return true
      tagMatches env key value ts
    else
      tagMatches env key value ts

/-- All tags of a filter match, from position `i` on. The one at `skip` has been found in the
index. -/
def tagsMatch (env : Env) (skip : Option ℕ) (tags : List (Str × Option Str)) :
    ℕ → List (Str × Option Str) → Except Fault Bool
  | _, [] => .ok true
  | i, t :: ts =>
    if skip = some i then
      tagsMatch env skip tags (i + 1) ts
    else do
      if ← tagMatches env t.1 t.2 tags then
        tagsMatch env skip tags (i + 1) ts
      else
        return false

/-- The job is not later than the times of a filter. -/
def FilterTimes.bounds (f : FilterTimes) (j : Job) : Bool :=
  !(f.added ≠ 0 && f.added < j.submitTime) &&
    !(f.started ≠ 0 && (j.startTime = 0 || f.started < j.startTime)) &&
    !(f.finished ≠ 0 && (j.finishTime = 0 || f.finished < j.finishTime))

/-- The job is not earlier than the times of a filter. -/
def FilterTimes.boundedBy (f : FilterTimes) (j : Job) : Bool :=
  !(f.added ≠ 0 && j.submitTime < f.added) &&
    !(f.started ≠ 0 && (j.startTime = 0 || j.startTime < f.started)) &&
    !(f.finished ≠ 0 && (j.finishTime = 0 || j.finishTime < f.finished))

/-- The queue filter, when the queue of that name is `q`. -/
def JobFilter.queueMatches (f : JobFilter) (env : Env) (t : Tables) (q : Option Addr) (j : Job) :
    Except Fault Bool :=
  match f.queueName with
  | none => .ok true
  | some name =>
    if q.any fun b ↦ j.queue != b then
      .ok false
    else match t.queueTable.get? j.queue with
      | none => .error .useAfterFree
      | some queue => matchesPattern env name (some queue.name)

def JobFilter.nameMatches (f : JobFilter) (env : Env) (j : Job) : Except Fault Bool :=
  match f.jobName with
  | none => .ok true
  | some name => matchesPattern env name (some j.jobname)

/-- The job passes the filters, which are looked at one after the other. -/
def JobFilter.accepts (f : JobFilter) (env : Env) (t : Tables) (q : Option Addr) (skip : Option ℕ)
    (j : Job) : Except Fault Bool := do
  if j.internalState.deleted then
    return false
  if f.state.any fun bits ↦ bits &&& j.state.toInt.toNat == 0 then
    return false
  if !(← f.queueMatches env t q j) then
    return false
  if f.uid.any fun uid ↦ uid != j.uid then
    return false
  if !(← f.nameMatches env j) then
    return false
  if !(← tagsMatch env skip j.tags 0 (f.tags.getD [])) then
    return false
  return f.before.all (fun b ↦ b.bounds j) && f.after.all fun b ↦ b.boundedBy j

/-! ### The answer -/

/-- The bits of the fields that can be asked for. -/
def retJobid : ℕ := 0x01
def retQueue : ℕ := 0x02
def retName : ℕ := 0x04
def retState : ℕ := 0x08
def retUid : ℕ := 0x20
def retStdout : ℕ := 0x40
def retStderr : ℕ := 0x80
def retTags : ℕ := 0x0100
def retResources : ℕ := 0x0200
def retPriority : ℕ := 0x0400
def retSubmittime : ℕ := 0x0800
def retDefertime : ℕ := 0x1000
def retStarttime : ℕ := 0x2000
def retFinishtime : ℕ := 0x4000
def retNice : ℕ := 0x008000
def retPrecmd : ℕ := 0x010000
def retPostcmd : ℕ := 0x020000
def retArgs : ℕ := 0x040000
def retShell : ℕ := 0x080000
def retNode : ℕ := 0x100000
def retSubmitter : ℕ := 0x200000
def retPid : ℕ := 0x400000
def retRevision : ℕ := 0x800000
def retEnv : ℕ := 0x10000000

/-- The field is asked for, or no field is. -/
def wants (fields bit : ℕ) : Bool := fields == 0 || fields &&& bit != 0

/-- Write a field if it is wanted. -/
def addIf (wanted : Bool) (write : Str → Str) (b : Str) : Str := if wanted then write b else b

/-- Write something of the queue of a job. -/
def addOfQueue (t : Tables) (j : Job) (wanted : Bool) (write : Queue → Str → Str) (b : Str) :
    Except Fault Str :=
  if wanted then
    match t.queueTable.get? j.queue with
    | none => .error .useAfterFree
    | some q => .ok (write q b)
  else
    .ok b

/-- The nice value that a job would be started with. -/
def addNice (t : Tables) (defaultNice : ℤ) (j : Job) (wanted : Bool) (b : Str) : Except Fault Str :=
  if j.nice ≠ unset32 then .ok (addIf wanted (jsonAddInt · .nice j.nice) b)
  else addOfQueue t j wanted (fun q b ↦
    jsonAddInt b .nice (if q.nice ≠ unset32 then q.nice else defaultNice)) b

/-- The tags, all of which must have a value. -/
def addTags (j : Job) (wanted : Bool) (b : Str) : Except Fault Str :=
  if wanted && !j.tags.isEmpty then
    match j.tags.mapM fun t ↦ t.2.map fun v ↦ (t.1, v) with
    | none => .error .nullDeref
    | some tags => .ok (jsonAddMap b .tags tags)
  else
    .ok b

def addResources (t : Tables) (j : Job) (wanted : Bool) (b : Str) : Except Fault Str :=
  if wanted && j.resCount != 0 then do
    let reqs ← j.requirements
    let texts ← reqs.mapM (resText t)
    return jsonAddStringArray b .resources texts
  else
    .ok b

/-- `serialize_jersJob`. The names of the commands before and after the job are interchanged. -/
def serializeJob (t : Tables) (defaultNice : ℤ) (fields : ℕ) (b : Str) (j : Job) :
    Except Fault Str := do
  let want := wants fields
  let b := jsonStartObject b none
  let b := addIf (want retJobid) (jsonAddInt · .jobid j.jobid) b
  let b := addIf (want retName) (jsonAddString · .jobname (some j.jobname)) b
  let b ← addOfQueue t j (want retQueue) (fun q b ↦ jsonAddString b .queuename (some q.name)) b
  let b := addIf (want retState) (jsonAddInt · .state j.state.toInt) b
  let b := addIf (want retUid) (jsonAddInt · .uid j.uid) b
  let b := addIf (want retSubmitter) (jsonAddInt · .submitter j.submitter) b
  let b := addIf (want retPriority) (jsonAddInt · .priority j.priority) b
  let b := addIf (want retSubmittime) (jsonAddInt · .submittime j.submitTime) b
  let b ← addNice t defaultNice j (want retNice) b
  let b := addIf (want retArgs) (jsonAddStringArray · .args j.argv) b
  let b ← addOfQueue t j (want retNode) (fun q b ↦ jsonAddString b .node (some q.host)) b
  let b := addIf (want retRevision) (jsonAddInt · .revision j.obj.revision) b
  let b := addIf (j.stdout.isSome && want retStdout) (jsonAddString · .stdout j.stdout) b
  let b := addIf (j.stderr.isSome && want retStderr) (jsonAddString · .stderr j.stderr) b
  let b := addIf (j.deferTime ≠ 0 && want retDefertime) (jsonAddInt · .defertime j.deferTime) b
  let b := addIf (j.startTime ≠ 0 && want retStarttime) (jsonAddInt · .starttime j.startTime) b
  let b := addIf (j.finishTime ≠ 0 && want retFinishtime) (jsonAddInt · .finishtime j.finishTime) b
  let b ← addTags j (want retTags) b
  let b := addIf (j.shell.isSome && want retShell) (jsonAddString · .shell j.shell) b
  let b := addIf (j.preCmd.isSome && want retPrecmd) (jsonAddString · .postcmd j.preCmd) b
  let b := addIf (j.postCmd.isSome && want retPostcmd) (jsonAddString · .precmd j.postCmd) b
  let b ← addResources t j (want retResources) b
  let b := addIf (!j.envs.isEmpty && want retEnv) (jsonAddStringArray · .envs j.envs) b
  let b := addIf (j.pid ≠ 0 && want retPid) (jsonAddInt · .jobpid j.pid) b
  let b := jsonAddInt b .exitcode j.exitcode
  let b := jsonAddInt b .signal j.signal
  let b := addIf (j.pendReason ≠ 0) (jsonAddInt · .pendreason j.pendReason) b
  let b := addIf (j.failReason ≠ 0) (jsonAddInt · .failreason j.failReason) b
  return jsonEndObject b

/-- The answer to a query: an error, or the text with the jobs. -/
inductive JobReply
  | error (code : ErrCode)
  | jobs (text : Str)
  deriving DecidableEq, Repr

/-- `initClientResponse`. -/
def initClientResponse (readonly : Option Readonly) : Str :=
  match readonly with
  | some _ => initResponseAlert 1 (some "ReadOnly mode is active".toList)
  | none => initResponse 1

/-! ### The index -/

/-- `server.index_tag_table`: the jobs of each value of the indexed tag. -/
abbrev TagIndex := List (Str × List Addr)

/-- The jobs that the index has for the value of a filter, with the position of that filter. A value
with a wildcard, and one that the index does not have, is left to the search. -/
def JobFilter.bucket (f : JobFilter) (indexTag : Option Str) (index : TagIndex) :
    Except Fault (Option (ℕ × List Addr)) :=
  match indexTag, f.tags with
  | some key, some tags =>
    match tags.findIdx? fun t ↦ t.1 == key with
    | none => .ok none
    | some i =>
      match tags[i]? with
      | some (_, some value) =>
        .ok (if hasWildcard value then none else (index.lookup value).map fun jobs ↦ (i, jobs))
      | _ => .error .nullDeref
  | _, _ => .ok none

/-! ### The command -/

/-- `read_all`: the client may see all jobs. -/
def Client.readsAll (c : Client) : Except Fault Bool :=
  if c.uid = 0 then .ok true else (userPermissions c).map fun p ↦ p &&& permRead != 0

/-- `self`: the client may see their own jobs. -/
def Client.readsOwn (c : Client) (selfPermission : Bool) : Except Fault Bool :=
  if !selfPermission || c.uid = 0 then .ok true else (userPermissions c).map fun p ↦
    hasBits p permSelf

/-- The jobs of a list that pass a test, in their order. -/
def selectFrom (t : Tables) (accepts : Job → Except Fault Bool) :
    List Addr → Except Fault (List Addr)
  | [] => .ok []
  | a :: as =>
    match t.jobTable.get? a with
    | none => .error .useAfterFree
    | some j => do
      let accepted ← accepts j
      let rest ← selectFrom t accepts as
      return if accepted then a :: rest else rest

/-- The queue that the queue filter names, if it has no wildcard: `none` if there is no such
queue. -/
def JobFilter.queue (f : JobFilter) (t : Tables) : Except Fault (Option (Option Addr)) :=
  match f.queueName with
  | none => .ok (some none)
  | some none => .error .nullDeref
  | some (some name) =>
    .ok (if hasWildcard name then some none else (t.findQueue name).map fun r ↦ some r.1)

/-- The jobs that a search finds and the client may see: `none` if the queue of the filter is not
found. -/
def searchJobs (env : Env) (c : Client) (f : JobFilter) (indexTag : Option Str) (index : TagIndex)
    (config : Config) (t : Tables) : Except Fault (Option (List Addr)) := do
  let all ← c.readsAll
  let own ← c.readsOwn config.selfPermission
  match ← f.queue t with
  | none => return none
  | some q => do
    let bucket ← f.bucket indexTag index
    let found ← selectFrom t (fun j ↦ do
      return (← f.accepts env t q (bucket.map Prod.fst) j) && (all || (own && j.uid == c.uid)))
      ((bucket.map Prod.snd).getD t.jobTable.addrs)
    return some found

/-- The text of an answer. The source writes each job when it finds it. -/
def jobsText (s : Server) (fields : ℕ) (as : List Addr) : Except Fault Str := do
  let text ← as.foldlM (fun b a ↦ match s.jobTable.get? a with
    | none => .error .useAfterFree
    | some j => serializeJob s.toTables s.config.defaultJobNice fields b j)
    (initClientResponse s.readonly)
  return closeResponse text

/-- The jobs that a query is answered with, and the fields of them. -/
def jobsFor (env : Env) (c : Client) (f : JobFilter) (indexTag : Option Str) (index : TagIndex) :
    Daemon (ErrCode ⊕ List Addr × ℕ) := do
  if f.jobid ≠ 0 then do
    let found ← read fun s ↦ s.findJob f.jobid
    let denied ← checkPerm (some c) ((found.map fun r ↦ r.2.uid).getD 0) permRead
    if denied then
      return .inl .noperm
    match found with
    | none => return .inl .nojob
    | some (a, j) =>
      if j.internalState.deleted then
        return .inl .nojob
      else
        return .inr ([a], 0)
  else do
    let found ← read fun s ↦ searchJobs env c f indexTag index s.config s.toTables
    match ← lift found with
    | none => return .inl .noqueue
    | some as => return .inr (as, f.returnFields)

/-- `command_get_job`. -/
def commandGetJob (env : Env) (c : Client) (f : JobFilter) (indexTag : Option Str)
    (index : TagIndex) : Daemon JobReply := do
  match ← jobsFor env c f indexTag index with
  | .inl code => return .error code
  | .inr (as, fields) => do
    let text ← read fun s ↦ jobsText s fields as
    return .jobs (← lift text)

/-! ### What a search finds -/

section

variable {t : Tables} {accepts : Job → Except Fault Bool} {as found : List Addr}

/-- A search has gone through all its jobs, and has found those that pass the test. -/
theorem selectFrom_ok (h : selectFrom t accepts as = .ok found) :
    (∀ a ∈ as, ∃ j b, t.jobTable.get? a = some j ∧ accepts j = .ok b) ∧
      ∀ a, a ∈ found ↔ a ∈ as ∧ ∃ j, t.jobTable.get? a = some j ∧ accepts j = .ok true := by
  induction as generalizing found with
  | nil =>
    obtain rfl := Except.ok.inj h
    exact ⟨fun a ha ↦ absurd ha not_mem_nil, fun a ↦ by simp⟩
  | cons a as ih =>
    rw [selectFrom] at h
    split at h
    · exact nomatch h
    · next j hj =>
      obtain ⟨accepted, hacc, h₁⟩ := Except.bind_eq_ok_iff.mp h
      obtain ⟨rest, hrest, h₂⟩ := Except.bind_eq_ok_iff.mp h₁
      obtain ⟨hall, hmem⟩ := ih hrest
      refine ⟨fun b hb ↦ ?_, fun b ↦ ?_⟩
      · rcases mem_cons.mp hb with rfl | hb
        · exact ⟨j, accepted, hj, hacc⟩
        · exact hall b hb
      · -- the first job passes if the test says so
        have hfirst : (b = a ∧ ∃ i, t.jobTable.get? b = some i ∧ accepts i = .ok true) ↔
            b = a ∧ accepted = true := by
          refine and_congr_right fun hb ↦ ?_
          subst hb
          constructor
          · rintro ⟨i, hi, htrue⟩
            obtain rfl := Option.mem_unique hj hi
            exact Except.ok.inj (hacc.symm.trans htrue)
          · rintro rfl
            exact ⟨j, hj, hacc⟩
        rw [← Except.ok.inj h₂, mem_cons, or_and_right, hfirst, ← hmem b]
        cases accepted <;> simp

/-- A search goes through if all its tests do. -/
theorem selectFrom_runs (h : ∀ a ∈ as, ∃ j b, t.jobTable.get? a = some j ∧ accepts j = .ok b) :
    ∃ found, selectFrom t accepts as = .ok found := by
  induction as with
  | nil => exact ⟨[], rfl⟩
  | cons a as ih =>
    obtain ⟨j, accepted, hj, hacc⟩ := h a mem_cons_self
    obtain ⟨rest, hrest⟩ := ih fun b hb ↦ h b (mem_cons_of_mem _ hb)
    refine ⟨if accepted then a :: rest else rest, ?_⟩
    rw [selectFrom, hj]
    dsimp only
    rw [hacc, Except.ok_bind, hrest]
    rfl

end

end Jers
