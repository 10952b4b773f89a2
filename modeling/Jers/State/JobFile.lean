import Jers.Server.Types
import Jers.Text.Escape

/-!
# Job state files

`stateSaveJob` writes the state file of a job and `stateLoadJob` reads it back. The two functions
keep their own lists of keys; here the keys are an inductive type with one table of names, and the
numeric and the string keys, which are all treated alike, are two families. Everything else is
line for line the source: what is optional, what is escaped, and in which order.

A file is its text. The arrays of a job are allocated by the line with their count and filled by
the indexed lines; an index outside the allocated array is a fault, and so is returning an array
with an element that was never written.
-/

namespace Jers

/-! ### The keys of a job file -/

/-- The keys whose value is a number. -/
inductive NumKey
  | revision
  | submittime
  | submitter
  | uid
  | nice
  | state
  | priority
  | defertime
  | starttime
  | finishtime
  | exitcode
  | signal
  | flags
  | usage (k : UsageKey)
  deriving DecidableEq, Repr

/-- The keys whose value is a string of the job. -/
inductive StrKey
  | jobname
  | shell
  | precmd
  | postcmd
  | stdout
  | stderr
  deriving DecidableEq, Repr

/-- The arrays of a job. Each has a key for its count and an indexed key for its elements. -/
inductive ArrKey
  | argv
  | env
  | tag
  | res
  deriving DecidableEq, Repr

inductive JobKey
  | num (k : NumKey)
  | str (k : StrKey)
  | queuename
  | count (a : ArrKey)
  | item (a : ArrKey)
  deriving DecidableEq, Repr

def UsageKey.name : UsageKey → String
  | utimeSec => "USAGE_UTIME_SEC"
  | utimeUsec => "USAGE_UTIME_USEC"
  | stimeSec => "USAGE_STIME_SEC"
  | stimeUsec => "USAGE_STIME_USEC"
  | maxrss => "USAGE_MAXRSS"
  | minflt => "USAGE_MINFLT"
  | majflt => "USAGE_MAJFLT"
  | inblock => "USAGE_INBLOCK"
  | oublock => "USAGE_OUBLOCK"
  | nvcsw => "USAGE_NVCSW"
  | nivcsw => "USAGE_NIVCSW"

def NumKey.name : NumKey → String
  | revision => "REVISION"
  | submittime => "SUBMITTIME"
  | submitter => "SUBMITTER"
  | uid => "UID"
  | nice => "NICE"
  | state => "STATE"
  | priority => "PRIORITY"
  | defertime => "DEFERTIME"
  | starttime => "STARTTIME"
  | finishtime => "FINISHTIME"
  | exitcode => "EXITCODE"
  | signal => "SIGNAL"
  | flags => "FLAGS"
  | usage k => k.name

def StrKey.name : StrKey → String
  | jobname => "JOBNAME"
  | shell => "SHELL"
  | precmd => "PRECMD"
  | postcmd => "POSTCMD"
  | stdout => "STDOUT"
  | stderr => "STDERR"

def JobKey.word : JobKey → String
  | num k => k.name
  | str k => k.name
  | queuename => "QUEUENAME"
  | count .argv => "ARGC"
  | count .env => "ENV_COUNT"
  | count .tag => "TAG_COUNT"
  | count .res => "RES_COUNT"
  | item .argv => "ARGV"
  | item .env => "ENV"
  | item .tag => "TAG"
  | item .res => "RES"

def JobKey.name (k : JobKey) : Str := k.word.toList

/-- The keys in the order in which the reader tries them. -/
def JobKey.all : List JobKey :=
  [str .jobname, queuename, str .shell, str .precmd, str .postcmd, str .stdout, str .stderr,
    count .argv, item .argv, count .env, item .env, count .tag, item .tag, count .res, item .res,
    num .uid, num .submitter, num .nice, num .state, num .priority, num .submittime,
    num .defertime, num .finishtime, num .starttime, num .exitcode, num .signal, num .flags,
    num .revision] ++ UsageKey.all.map fun k ↦ num (.usage k)

/-- The key with a name: the chain of `strcmp` in the reader. -/
def JobKey.ofName (name : Str) : Option JobKey := JobKey.all.find? fun k ↦ k.name == name

theorem JobKey.mem_all (k : JobKey) : k ∈ JobKey.all := by
  rcases k with (_ | _ | _ | _ | _ | _ | _ | _ | _ | _ | _ | _ | _ | ⟨k⟩) | k | _ | a | a
  case num.usage =>
    exact List.mem_append_right _ (List.mem_map_of_mem k.mem_all)
  case str => cases k <;> decide
  case count => cases a <;> decide
  case item => cases a <;> decide
  all_goals decide

/-- Key names are words of capital letters and underscores. -/
def isKeyChar (c : Char) : Bool := c.isUpper || c == '_'

theorem JobKey.all_spec : ∀ k ∈ JobKey.all,
    JobKey.ofName k.name = some k ∧ k.name ≠ [] ∧ k.name.all isKeyChar = true := by
  decide +kernel

theorem JobKey.ofName_name (k : JobKey) : JobKey.ofName k.name = some k :=
  (all_spec k k.mem_all).1

theorem JobKey.name_ne_nil (k : JobKey) : k.name ≠ [] := (all_spec k k.mem_all).2.1

theorem JobKey.isKeyChar_of_mem {k : JobKey} {c : Char} (h : c ∈ k.name) : isKeyChar c = true :=
  List.all_eq_true.mp (all_spec k k.mem_all).2.2 c h

/-! ### Numbers in a file -/

/-- The C types of the numeric fields. -/
inductive NumType
  | int32
  | uint32
  | int64
  deriving DecidableEq, Repr

/-- The values of a C type. -/
def NumType.Fits : NumType → ℤ → Prop
  | int32, n => IsInt32 n
  | uint32, n => 0 ≤ n ∧ n < 2 ^ 32
  | int64, n => IsInt64 n

instance (w : NumType) (n : ℤ) : Decidable (w.Fits n) := by
  cases w
  · exact inferInstanceAs (Decidable (IsInt32 n))
  · exact inferInstanceAs (Decidable (_ ∧ _))
  · exact inferInstanceAs (Decidable (IsInt64 n))

/-- The text of a number: `%ld`, or `%d`, which shows an unsigned value as an `int`. -/
def NumType.print : NumType → ℤ → Str
  | int32, n => int64tostr n
  | uint32, n => int64tostr (Int.bmod n (2 ^ 32))
  | int64, n => int64tostr n

/-- The number in a text: `strtoint64`, or `atoi`, whose result is converted on assignment. -/
def NumType.read : NumType → Str → ℤ
  | int32, s => atoi s
  | uint32, s => atoi s % 2 ^ 32
  | int64, s => (strtoint64 s).1

def NumKey.type : NumKey → NumType
  | submitter | uid => .uint32
  | nice | state | priority | exitcode | signal => .int32
  | revision | submittime | defertime | starttime | finishtime | flags | usage _ => .int64

theorem notDigitHead_nil : NotDigitHead [] := fun _ _ h ↦ absurd h (by simp)

/-- **Numbers are read back**, whatever their type. -/
theorem NumType.read_print {w : NumType} {n : ℤ} (h : w.Fits n) : w.read (w.print n) = n := by
  cases w with
  | int32 => simpa [read, print] using atoi_int64tostr h notDigitHead_nil
  | uint32 =>
    have hread : atoi (int64tostr (Int.bmod n (2 ^ 32))) = Int.bmod n (2 ^ 32) := by
      simpa using atoi_int64tostr (isInt32_bmod n) notDigitHead_nil
    rw [read, print, hread, bmod_emod_of_lt h.1 h.2]
  | int64 =>
    have := strtoint64_int64tostr h notDigitHead_nil
    rw [List.append_nil] at this
    rw [read, print, this]

/-- Numbers are written with digits and a sign. -/
theorem NumType.mem_print {w : NumType} {n : ℤ} {c : Char} (h : c ∈ w.print n) :
    c ≠ '\n' ∧ c ≠ '\\' := by
  have hdigit : ∀ m : ℤ, c ∈ int64tostr m → c ≠ '\n' ∧ c ≠ '\\' := by
    intro m hm
    rcases mem_int64tostr hm with rfl | ⟨d, hd, rfl⟩
    · decide
    · interval_cases d <;> decide
  cases w <;> exact hdigit _ h

/-! ### Writing -/

/-- The number of a job under a key. -/
def Job.num (j : Job) : NumKey → ℤ
  | .revision => j.obj.revision
  | .submittime => j.submitTime
  | .submitter => j.submitter
  | .uid => j.uid
  | .nice => j.nice
  | .state => j.state.toInt
  | .priority => j.priority
  | .defertime => j.deferTime
  | .starttime => j.startTime
  | .finishtime => j.finishTime
  | .exitcode => j.exitcode
  | .signal => j.signal
  | .flags => j.flags
  | .usage k => j.usage k

/-- The string of a job under a key. -/
def Job.str (j : Job) : StrKey → Option Str
  | .jobname => some j.jobname
  | .shell => j.shell
  | .precmd => j.preCmd
  | .postcmd => j.postCmd
  | .stdout => j.stdout
  | .stderr => j.stderr

/-- The line `KEY value`. -/
def keyLine (k : JobKey) (raw : Str) : Str := k.name ++ ' ' :: raw

/-- The line `KEY[i] value`. -/
def itemLine (a : ArrKey) (i : ℕ) (raw : Str) : Str :=
  indexedKey (JobKey.item a).name i ++ ' ' :: raw

def numLine (j : Job) (k : NumKey) : Str := keyLine (.num k) (k.type.print (j.num k))

/-- A number that is written only `if (j->…)`. -/
def optNumLine (j : Job) (k : NumKey) : List Str := if j.num k = 0 then [] else [numLine j k]

/-- A string that is written, escaped, if there is one. -/
def strLine (j : Job) (k : StrKey) : List Str :=
  match j.str k with
  | none => []
  | some s => [keyLine (.str k) (escapeString s)]

def countLine (a : ArrKey) (n : ℤ) : Str := keyLine (.count a) (int64tostr n)

def itemLines (a : ArrKey) (raws : List Str) : List Str := raws.mapIdx (itemLine a)

/-- The text of a tag: the key as it is, a tab, the value escaped. -/
def tagText (tag : Str × Option Str) : Str :=
  tag.1 ++ '\t' :: escapeString (tag.2.getD [])

/-- The text of a requirement, `name:needed`. -/
def resText (s : Tables) (r : JobResource) : Except Fault Str :=
  match s.resTable.get? r.res with
  | none => .error .useAfterFree
  | some res => .ok (res.name ++ ':' :: int64tostr r.needed)

/-- The entries of `req_resources` that a loop up to `res_count` visits. -/
def Job.requirements (j : Job) : Except Fault (List JobResource) :=
  if j.resCount ≤ j.reqResources.length then .ok (j.reqResources.take j.resCount.toNat)
  else .error .nullDeref

/-- The lines of a job file, for the name of the queue and the texts of the requirements. -/
def jobLines (now : ℤ) (j : Job) (queuename : Str) (res : List Str) : List Str :=
  List.flatten [["# JOB ".toList ++ int64tostr j.jobid], ["# SAVETIME ".toList ++ int64tostr now],
    [numLine j .revision],
    strLine j .jobname,
    [keyLine .queuename (escapeString queuename)],
    [numLine j .submittime],
    [numLine j .submitter],
    countLine .argv j.argv.length :: itemLines .argv (j.argv.map escapeString),
    strLine j .shell,
    strLine j .precmd,
    strLine j .postcmd,
    strLine j .stdout,
    strLine j .stderr,
    if j.envs = [] then [] else countLine .env j.envs.length :: itemLines .env j.envs,
    if j.tags = [] then []
      else countLine .tag j.tags.length :: itemLines .tag (j.tags.map tagText),
    if j.resCount = 0 then [] else countLine .res j.resCount :: itemLines .res res,
    optNumLine j .uid,
    if j.nice = unset32 then [] else [numLine j .nice],
    optNumLine j .state,
    optNumLine j .priority,
    optNumLine j .defertime,
    optNumLine j .starttime,
    optNumLine j .finishtime,
    optNumLine j .exitcode,
    optNumLine j .signal,
    optNumLine j .flags,
    if j.finishTime = 0 then [] else UsageKey.all.map fun k ↦ numLine j (.usage k)]

/-- `stateSaveJob`: the text of the state file. `now` is the time of the save. -/
def stateSaveJob (s : Tables) (now : ℤ) (j : Job) : Except Fault Str :=
  match s.queueTable.get? j.queue with
  | none => .error .useAfterFree
  | some q => do
    let reqs ← j.requirements
    let res ← reqs.mapM (resText s)
    return (jobLines now j q.name res).flatMap (· ++ ['\n'])

/-- The last part of the path of a job's state file. -/
def jobFileName (jobid : ℕ) : Str := int64tostr (Int.bmod jobid (2 ^ 32)) ++ ".job".toList

/-! ### Reading -/

/-- The job under construction in `stateLoadJob`. A `none` in an array is an element that has been
allocated but not written. -/
@[ext]
structure JobDraft where
  num : NumKey → ℤ := fun _ ↦ 0
  str : StrKey → Option Str := fun _ ↦ none
  queue : Option Addr := none
  argv : List (Option Str) := []
  envs : List (Option Str) := []
  tags : List (Option (Str × Option Str)) := []
  res : List (Option JobResource) := []

/-- The key and the value of a tag, separated by the first tab. -/
def splitTag (value : Str) : Str × Option Str :=
  match value.dropWhile (· != '\t') with
  | [] => (value, none)
  | _ :: rest => (value.takeWhile (· != '\t'), some rest)

/-- `resourceStringToResource`: a requirement `name:needed`, or `name` alone for one unit. -/
def resourceStringToResource (s : Tables) (string : Str) : Option JobResource :=
  let needed := match string.dropWhile (· != ':') with
    | [] => 1
    | _ :: rest => atoi rest
  (s.findResource (string.takeWhile (· != ':'))).map fun r ↦ { needed, res := r.1 }

/-- The array that the line with a count allocates. A negative count leaves no array. -/
def allocate {α : Type} (count : ℤ) : Except Fault (List (Option α)) :=
  if count < 0 then .error .nullDeref else .ok (List.replicate count.toNat none)

/-- The assignment `array[index] = x`. -/
def assign {α : Type} (array : List (Option α)) (index : ℤ) (x : α) :
    Except Fault (List (Option α)) :=
  if 0 ≤ index ∧ index < array.length then .ok (array.set index.toNat (some x))
  else .error .outOfBounds

/-- What one line of the file does to the job under construction. -/
def applyKey (s : Tables) (d : JobDraft) (key : JobKey) (index : ℤ) (value : Str) :
    Except Fault JobDraft :=
  match key with
  | .num k => .ok { d with num := Function.update d.num k (k.type.read value) }
  | .str k => .ok { d with str := Function.update d.str k (some value) }
  | .queuename =>
    match s.findQueue value with
    | none => .error .errorDie
    | some q => .ok { d with queue := some q.1 }
  | .count .argv => (allocate (atoi value)).map fun l ↦ { d with argv := l }
  | .count .env => (allocate (atoi value)).map fun l ↦ { d with envs := l }
  | .count .tag => (allocate (atoi value)).map fun l ↦ { d with tags := l }
  | .count .res => (allocate (atoi value)).map fun l ↦ { d with res := l }
  | .item .argv => (assign d.argv index value).map fun l ↦ { d with argv := l }
  | .item .env => (assign d.envs index value).map fun l ↦ { d with envs := l }
  | .item .tag => (assign d.tags index (splitTag value)).map fun l ↦ { d with tags := l }
  | .item .res =>
    match resourceStringToResource s value with
    | none => .error .errorDie
    | some r => (assign d.res index r).map fun l ↦ { d with res := l }

/-- One round of the loop of `stateLoadJob`. Unknown keys are passed over. -/
def loadLine (s : Tables) (d : JobDraft) (line : Str) : Except Fault JobDraft :=
  match loadKeyValue line with
  | none => .ok d
  | some kv =>
    match JobKey.ofName kv.key with
    | none => .ok d
    | some k => applyKey s d k kv.index kv.value

/-- The elements of an array that has been written completely. -/
def written {α : Type} (array : List (Option α)) : Except Fault (List α) :=
  match array.mapM id with
  | none => .error .outOfBounds
  | some l => .ok l

/-- The end of `stateLoadJob`: the checks, and the default for the state. -/
def finishJob (jobid : ℕ) (d : JobDraft) : Except Fault Job := do
  let some queue := d.queue | throw .errorDie
  let some jobname := d.str .jobname | throw .nullDeref
  let some state := JobState.ofInt (d.num .state) | throw .errorDie
  let argv ← written d.argv
  let envs ← written d.envs
  let tags ← written d.tags
  let reqResources ← written d.res
  return {
    obj := { revision := d.num .revision }
    jobid, jobname, queue
    shell := d.str .shell, preCmd := d.str .precmd, postCmd := d.str .postcmd
    stdout := d.str .stdout, stderr := d.str .stderr
    flags := d.num .flags
    argv, envs
    uid := (d.num .uid).toNat, submitter := (d.num .submitter).toNat
    nice := d.num .nice, exitcode := d.num .exitcode, signal := d.num .signal
    usage := fun k ↦ d.num (.usage k)
    state := if state = .cleared then .pending else state
    priority := d.num .priority
    submitTime := d.num .submittime, startTime := d.num .starttime
    deferTime := d.num .defertime, finishTime := d.num .finishtime
    tags, resCount := reqResources.length, reqResources }

/-- `stateLoadJob`, on the last part of the file's path and the text of the file. -/
def stateLoadJob (s : Tables) (fileName text : Str) : Except Fault Job := do
  let d ← (getlines text).foldlM (loadLine s) {}
  finishJob (atoi fileName % 2 ^ 32).toNat d

end Jers
