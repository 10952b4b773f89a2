import Jers.State.JobRoundTrip
import Jers.State.ObjectFile

/-!
# The revision in a state file

Recovery decides by the revision of an object whether a journal record is already in its state file.
Here it is shown that the revision that was saved is the one that is read back: for queues and
resources always, since no line after it has its key, and for jobs if no text that is written as it
is contains a newline.
-/

namespace Jers

open List Option Except

/-! ### Lines -/

theorem int64tostr_no_newline (n : ℤ) : '\n' ∉ int64tostr n :=
  fun h ↦ (NumType.mem_print (w := .int64) h).1 rfl

/-- What a line with a key is read as. -/
theorem loadKeyValue_wordLine {key : String} (hne : key.toList ≠ [])
    (hkey : ∀ c ∈ key.toList, isKeyChar c = true) (raw : Str) :
    loadKeyValue (wordLine key raw) =
      some { key := key.toList, index := 0, value := unescapeString raw } := by
  have hhead : ∀ t, key.toList ≠ '#' :: t := fun t ht ↦
    (isKeyChar_spec (hkey _ (ht ▸ mem_cons_self))).2.1 rfl
  have hbracket : '[' ∉ key.toList := fun h ↦ (isKeyChar_spec (hkey _ h)).2.2.1 rfl
  rw [wordLine, loadKeyValue_line (fun c hc ↦ (isKeyChar_spec (hkey c hc)).1) hhead hne,
    keyOf_of_notMem hbracket, indexOf_of_notMem hbracket]

/-- The number on the line of the revision. -/
theorem strtoint64_saved {n : ℤ} (h : IsInt64 n) :
    (strtoint64 (unescapeString (int64tostr n))).1 = n := by
  have hun := NumType.unescapeString_print .int64 n
  have hread := NumType.read_print (w := .int64) h
  rw [NumType.print] at hun hread
  rw [hun]
  exact hread

/-- A line without a newline is read as one line. -/
theorem pieces_wordLine {key : String} (hkey : '\n' ∉ key.toList) {raw : Str} (hraw : '\n' ∉ raw) :
    pieces (wordLine key raw) = [wordLine key raw] :=
  pieces_of_notMem (by simp [wordLine, hkey, hraw])

/-! ### Queues and resources -/

theorem loadQueueLine_wordLine {k : QueueKey} (d : QueueDraft) (raw : Str) :
    loadQueueLine d (wordLine k.name raw) = d.apply (unescapeString raw) k := by
  have hkey : k.name.toList ≠ [] ∧ (∀ c ∈ k.name.toList, isKeyChar c = true) ∧
      QueueKey.ofName k.name.toList = some k := by
    cases k <;> decide +kernel
  rw [loadQueueLine, loadKeyValue_wordLine hkey.1 hkey.2.1]
  simp only [hkey.2.2]

theorem foldl_wordLine (k : QueueKey) {raw : Str} (h : '\n' ∉ raw) (d : QueueDraft) :
    (pieces (wordLine k.name raw)).foldl loadQueueLine d = d.apply (unescapeString raw) k := by
  rw [pieces_wordLine (by cases k <;> decide) h, foldl_cons, foldl_nil, loadQueueLine_wordLine]

/-- **What the lines of a queue are read as.** Only those of its name and its texts can be more than
one. -/
theorem foldl_queueLines (now : ℤ) (isDefault : Bool) (q : Queue) :
    ((queueLines now isDefault q).flatMap pieces).foldl loadQueueLine {} =
      let d₀ := (pieces ("# QUEUE ".toList ++ q.name)).foldl loadQueueLine {}
      let d₁ := ((q.desc.map (wordLine "DESC")).toList.flatMap pieces).foldl loadQueueLine d₀
      let d₂ := (pieces (wordLine "HOST" q.host)).foldl loadQueueLine { d₁ with
        jobLimit := atoi (unescapeString (int64tostr q.jobLimit))
        priority := atoi (unescapeString (int64tostr q.priority)) }
      { d₂ with
        revision := (strtoint64 (unescapeString (int64tostr q.obj.revision))).1
        nice := if q.nice = unset32 then d₂.nice else atoi (unescapeString (int64tostr q.nice))
        isDefault := if isDefault then 1 else d₂.isDefault } := by
  have htime (d : QueueDraft) :
      (pieces ("# SAVETIME ".toList ++ int64tostr now)).foldl loadQueueLine d = d := by
    rw [pieces_of_notMem (by simpa using int64tostr_no_newline now)]
    rfl
  have hint (k : QueueKey) (n : ℤ) := foldl_wordLine k (int64tostr_no_newline n)
  have hlimit := hint .joblimit
  have hpriority := hint .priority
  have hrevision := hint .revision
  have hnice := hint .nice
  have hdefault := foldl_wordLine .isDefault (by decide : '\n' ∉ ['1'])
  have hone : atoi (unescapeString ['1']) = 1 := rfl
  simp only [QueueKey.name, QueueDraft.apply] at hlimit hpriority hrevision hnice hdefault
  simp only [queueLines, flatMap_append, flatMap_cons, flatMap_nil, append_nil, foldl_append, htime,
    hlimit, hpriority, hrevision]
  split_ifs
  all_goals simp only [flatMap_nil, flatMap_cons, append_nil, foldl_nil, hnice, hdefault, hone]

variable {line text : Str} {now : ℤ} {d d' : JobDraft}

theorem stateLoadQueue_ok {fileName : Str} {q : Queue} (h : stateLoadQueue fileName text = .ok q) :
    dropExtension fileName = .ok q.name ∧ ((getlines text).foldl loadQueueLine {}).desc = q.desc ∧
      ((getlines text).foldl loadQueueLine {}).host = some q.host ∧
      ((getlines text).foldl loadQueueLine {}).revision = q.obj.revision := by
  obtain ⟨name, hname, h₁⟩ := bind_eq_ok_iff.mp h
  dsimp only at h₁
  split at h₁
  · exact nomatch h₁
  · next hhost =>
    obtain rfl := ok.inj h₁
    exact ⟨hname, rfl, hhost, rfl⟩

/-- **The revision of a queue is read back.** -/
theorem stateLoadQueue_revision {isDefault : Bool} {q q' : Queue} {fileName : Str}
    (hfit : IsInt64 q.obj.revision)
    (h : stateLoadQueue fileName (stateSaveQueue now isDefault q) = .ok q') :
    q'.obj.revision = q.obj.revision := by
  obtain ⟨-, -, -, hrevision⟩ := stateLoadQueue_ok h
  rw [← hrevision, stateSaveQueue, fileText, getlines_flatMap, foldl_queueLines]
  exact strtoint64_saved hfit

/-- **The revision of a resource is read back.** -/
theorem stateLoadResource_revision {r r' : Resource} {fileName : Str}
    (hfit : IsInt64 r.obj.revision)
    (h : stateLoadResource fileName (stateSaveResource now r) = .ok r') :
    r'.obj.revision = r.obj.revision := by
  obtain ⟨name, -, h₁⟩ := bind_eq_ok_iff.mp h
  rw [← ok.inj h₁]
  have hline (d : ℤ × ℤ) :
      (loadResourceLine d (wordLine "REVISION" (int64tostr r.obj.revision))).2 =
      r.obj.revision := by
    rw [loadResourceLine, loadKeyValue_wordLine (by decide) (by decide)]
    exact strtoint64_saved hfit
  have hlines : ["# RESOURCE ".toList ++ r.name, "# SAVETIME ".toList ++ int64tostr now,
      wordLine "COUNT" (int64tostr r.count), wordLine "REVISION" (int64tostr r.obj.revision)] =
      ["# RESOURCE ".toList ++ r.name, "# SAVETIME ".toList ++ int64tostr now,
        wordLine "COUNT" (int64tostr r.count)] ++
        [wordLine "REVISION" (int64tostr r.obj.revision)] :=
    rfl
  dsimp only
  rw [stateSaveResource, fileText, getlines_flatMap, hlines, flatMap_append,
    flatMap_singleton, pieces_wordLine (by decide) (int64tostr_no_newline _), foldl_append,
    foldl_cons, foldl_nil, hline]

/-- The name of a queue is the name of its file. -/
theorem stateLoadQueue_name {name : Str} {q : Queue}
    (h : stateLoadQueue (queueFileName name) text = .ok q) : q.name = name :=
  ok.inj ((stateLoadQueue_ok h).1.symm.trans (dropExtension_append (by decide : _ ∉ "queue".toList)
  name))

theorem stateLoadResource_name {name : Str} {r : Resource}
    (h : stateLoadResource (resourceFileName name) text = .ok r) : r.name = name := by
  obtain ⟨name', hname, h₁⟩ := bind_eq_ok_iff.mp h
  obtain rfl := ok.inj
    ((dropExtension_append (by decide : _ ∉ "resource".toList) name).symm.trans hname)
  rw [← ok.inj h₁]

/-! ### Jobs -/

variable {s t : Tables} {j j' : Job}

/-- The line does not set the revision of a job. -/
def NotRevision (line : Str) : Prop :=
  ∀ kv, loadKeyValue line = some kv → JobKey.ofName kv.key ≠ some (.num .revision)

theorem NotRevision.key {k : JobKey} (hk : k ≠ .num .revision) (raw : Str) :
    NotRevision (keyLine k raw) := by
  intro kv hkv
  rw [loadKeyValue_keyLine] at hkv
  rw [← some.inj hkv, JobKey.ofName_name]
  exact fun h ↦ hk (some.inj h)

theorem NotRevision.item {a : ArrKey} {i : ℕ} (hi : i < 2 ^ 31) (raw : Str) :
    NotRevision (itemLine a i raw) := by
  intro kv hkv
  rw [loadKeyValue_itemLine a hi] at hkv
  rw [← some.inj hkv, JobKey.ofName_name]
  exact nofun

theorem applyKey_revision {k : JobKey} (hk : k ≠ .num .revision) {index : ℤ} {value : Str}
    (h : applyKey t d k index value = .ok d') : d'.num .revision = d.num .revision := by
  have hmap {α : Type} {x : Except Fault α} {f : α → JobDraft} (h : x.map f = .ok d')
      (hf : ∀ l, (f l).num = d.num) : d'.num .revision = d.num .revision := by
    obtain ⟨l, -, rfl⟩ := map_eq_ok_iff.mp h
    rw [hf]
  cases k with
  | num k =>
    rw [← ok.inj h]
    exact Function.update_of_ne (fun he ↦ hk (congrArg _ he.symm)) _ _
  | str k => rw [← ok.inj h]
  | queuename =>
    simp only [applyKey] at h
    split at h
    · contradiction
    · rw [← ok.inj h]
  | count a => cases a <;> exact hmap h fun _ ↦ rfl
  | item a =>
    cases a with
    | argv | env | tag => exact hmap h fun _ ↦ rfl
    | res =>
      simp only [applyKey] at h
      split at h
      · contradiction
      · exact hmap h fun _ ↦ rfl

/-- A line that does not set the revision keeps it. -/
theorem NotRevision.loadLine (h : NotRevision line) (hload : loadLine t d line = .ok d') :
    d'.num .revision = d.num .revision := by
  unfold Jers.loadLine at hload
  split at hload
  · rw [ok.inj hload]
  · next kv hkv =>
    split at hload
    · rw [ok.inj hload]
    · next k hk => exact applyKey_revision (fun he ↦ h kv hkv (he ▸ hk)) hload

theorem NotRevision.foldlM {lines : List Str} (h : ∀ line ∈ lines, NotRevision line)
    (hload : lines.foldlM (Jers.loadLine t) d = .ok d') : d'.num .revision = d.num .revision := by
  refine foldlM_invariant (P := fun e ↦ e.num .revision = d.num .revision) ?_ rfl hload
  intro e line e' hline he hstep
  exact ((h line hline).loadLine hstep).trans he

theorem BodyLine.notRevision {qname : Str} {res : List Str} (hj : j.WellFormed s)
    (hres : res.length < 2 ^ 31) (h : BodyLine j qname res line) : NotRevision line := by
  have hlen (a : ArrKey) : (j.itemTexts res a).length < 2 ^ 31 := by
    cases a with
    | argv => simpa [Job.itemTexts] using hj.argv
    | env => exact hj.envs
    | tag => simpa [Job.itemTexts] using hj.tags
    | res => exact hres
  cases h with
  | num hk => exact .key (fun he ↦ hk (JobKey.num.inj he)) _
  | str | queuename | count => exact .key (by simp) _
  | @item a _ hline =>
    obtain ⟨i, raw, hraw, rfl⟩ := mem_itemLines hline
    exact .item ((List.getElem?_eq_some_iff.mp hraw).1.trans (hlen a)) raw

/-- A job read from its state file has the id and the revision it was saved with, whatever the
tables of the reader. -/
theorem stateLoadJob_revision (hj : j.WellFormed s)
    (hfree : ∀ (x : RawItem) (i : ℕ), x.At j i → '\n' ∉ x.pre)
    (hsave : stateSaveJob s now j = .ok text)
    (hload : stateLoadJob t (jobFileName j.jobid) text = .ok j') :
    j'.jobid = j.jobid ∧ j'.obj.revision = j.obj.revision := by
  obtain ⟨q, -, hsaved⟩ := stateSaveJob_eq hj now
  obtain rfl := ok.inj (hsaved.symm.trans hsave)
  obtain ⟨rest, hlines, hrest⟩ :=
    jobLines_split now j q.name (j.reqResources.map (JobResource.text s))
  rw [stateLoadJob, getlines_flatMap, flatMap_pieces_jobLines hj hfree,
    atoi_jobFileName hj.jobid] at hload
  obtain ⟨d, hd, hfinish⟩ := bind_eq_ok_iff.mp hload
  have hfields := finishJob_fields hfinish
  have hbody := fun line hline ↦ (hrest line hline).notRevision hj (by simpa using hj.res)
  have hjob (d : JobDraft) (n : ℤ) : loadLine t d ("# JOB ".toList ++ int64tostr n) = .ok d :=
    loadLine_comment d _
  have htime (d : JobDraft) (n : ℤ) : loadLine t d ("# SAVETIME ".toList ++ int64tostr n) = .ok d :=
    loadLine_comment d _
  rw [hlines, foldlM_append, foldlM_cons, hjob, ok_bind, foldlM_cons, htime,
    ok_bind, foldlM_nil, pure_bind, foldlM_cons, loadLine_numLine (hj.num _),
    ok_bind] at hd
  refine ⟨hfields.jobid, hfields.revision.trans ((NotRevision.foldlM hbody hd).trans ?_)⟩
  show Function.update ({} : JobDraft).num .revision (j.num .revision) .revision = _
  rw [Function.update_self]
  rfl

end Jers
