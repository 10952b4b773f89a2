import Jers.State.JobFile

/-!
# Queue and resource state files

`stateSaveQueue`, `stateLoadQueue`, `stateSaveResource` and `stateLoadResource`. The files have one
line for each key, like a job file; the texts of a queue are written as they are. The name of the
object is the name of its file.
-/

namespace Jers

open List

/-! ### Files and their names -/

/-- The name of a file without its extension: `strrchr(name, '.')` has to find one. -/
def dropExtension (fileName : Str) : Except Fault Str :=
  match fileName.reverse.dropWhile (· != '.') with
  | [] => .error .errorDie
  | _ :: rest => .ok rest.reverse

theorem dropExtension_append {ext : Str} (h : '.' ∉ ext) (name : Str) :
    dropExtension (name ++ '.' :: ext) = .ok name := by
  have hext : ∀ c ∈ ext.reverse, (c != '.') = true :=
    fun c hc ↦ bne_iff_ne.mpr fun he ↦ h (he ▸ mem_reverse.mp hc)
  have hdrop : (name ++ '.' :: ext).reverse.dropWhile (· != '.') = '.' :: name.reverse := by
    rw [reverse_append, reverse_cons, append_assoc, dropWhile_append_of_pos hext]
    rfl
  rw [dropExtension, hdrop]
  exact congrArg _ (reverse_reverse name)

/-- The line `KEY value`. -/
def wordLine (key : String) (raw : Str) : Str := key.toList ++ ' ' :: raw

/-- The text of a file. -/
def fileText (lines : List Str) : Str := lines.flatMap (· ++ ['\n'])

/-! ### Queues -/

def queueFileName (name : Str) : Str := name ++ ".queue".toList

/-- The keys of a queue file. -/
inductive QueueKey
  | desc
  | joblimit
  | priority
  | isDefault
  | host
  | revision
  | nice
  deriving DecidableEq, Repr

def QueueKey.name : QueueKey → String
  | desc => "DESC"
  | joblimit => "JOBLIMIT"
  | priority => "PRIORITY"
  | isDefault => "DEFAULT"
  | host => "HOST"
  | revision => "REVISION"
  | nice => "NICE"

def QueueKey.all : List QueueKey := [desc, joblimit, priority, isDefault, host, revision, nice]

/-- The key with a name: the chain of `strcmp` in the reader. -/
def QueueKey.ofName (name : Str) : Option QueueKey :=
  QueueKey.all.find? fun k ↦ k.name.toList == name

/-- The lines of a queue file. Whether the queue is the default queue is looked up in the server. -/
def queueLines (now : ℤ) (isDefault : Bool) (q : Queue) : List Str :=
  ["# QUEUE ".toList ++ q.name, "# SAVETIME ".toList ++ int64tostr now] ++
    (q.desc.map (wordLine "DESC")).toList ++
    [wordLine "JOBLIMIT" (int64tostr q.jobLimit), wordLine "PRIORITY" (int64tostr q.priority),
      wordLine "HOST" q.host, wordLine "REVISION" (int64tostr q.obj.revision)] ++
    (if q.nice = unset32 then [] else [wordLine "NICE" (int64tostr q.nice)]) ++
    (if isDefault then [wordLine "DEFAULT" ['1']] else [])

def stateSaveQueue (now : ℤ) (isDefault : Bool) (q : Queue) : Str :=
  fileText (queueLines now isDefault q)

/-- The queue under construction in `stateLoadQueue`. -/
structure QueueDraft where
  desc : Option Str := none
  jobLimit : ℤ := 1
  priority : ℤ := 100
  isDefault : ℤ := 0
  host : Option Str := none
  revision : ℤ := 0
  nice : ℤ := unset32

def QueueDraft.apply (d : QueueDraft) (value : Str) : QueueKey → QueueDraft
  | .desc => { d with desc := some value }
  | .joblimit => { d with jobLimit := atoi value }
  | .priority => { d with priority := atoi value }
  | .isDefault => { d with isDefault := atoi value }
  | .host => { d with host := some value }
  | .revision => { d with revision := (strtoint64 value).1 }
  | .nice => { d with nice := atoi value }

/-- One round of the loop of `stateLoadQueue`. Unknown keys are passed over. -/
def loadQueueLine (d : QueueDraft) (line : Str) : QueueDraft :=
  match loadKeyValue line with
  | none => d
  | some kv =>
    match QueueKey.ofName kv.key with
    | none => d
    | some k => d.apply kv.value k

/-- `stateLoadQueue`, on the last part of the file's path and the text of the file. The state is not
in the file; a queue is loaded open and stopped. -/
def stateLoadQueue (fileName text : Str) : Except Fault Queue := do
  let name ← dropExtension fileName
  let d := (getlines text).foldl loadQueueLine {}
  match d.host with
  | none => throw .errorDie
  | some host =>
    return {
      obj := { revision := d.revision }
      name
      desc := d.desc
      jobLimit := d.jobLimit
      state := 2
      priority := d.priority
      nice := d.nice
      isDefault := d.isDefault
      host }

/-! ### Resources -/

def resourceFileName (name : Str) : Str := name ++ ".resource".toList

def stateSaveResource (now : ℤ) (r : Resource) : Str :=
  fileText ["# RESOURCE ".toList ++ r.name, "# SAVETIME ".toList ++ int64tostr now,
    wordLine "COUNT" (int64tostr r.count), wordLine "REVISION" (int64tostr r.obj.revision)]

/-- One round of the loop of `stateLoadResource`, on the count and the revision. -/
def loadResourceLine (d : ℤ × ℤ) (line : Str) : ℤ × ℤ :=
  match loadKeyValue line with
  | none => d
  | some kv =>
    if kv.key = "COUNT".toList then (atoi kv.value, d.2)
    else if kv.key = "REVISION".toList then (d.1, (strtoint64 kv.value).1)
    else d

def stateLoadResource (fileName text : Str) : Except Fault Resource := do
  let name ← dropExtension fileName
  let d := (getlines text).foldl loadResourceLine (0, 0)
  return { obj := { revision := d.2 }, name, count := d.1 }

end Jers
