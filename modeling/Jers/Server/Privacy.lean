import Jers.Server.CommandGet
import Jers.Server.Loading

/-!
# What a query tells about the jobs of others

A client who may only see their own jobs gets the same answer in two states that differ in the jobs
of others (`answerTo_eq_iff`), with one exception. The search holds every job against the filters
before it looks at the owner. If a filter goes through a null or a freed pointer for a job of
another user, then there is no answer at all, since the daemon is gone.
-/

namespace Jers

open Exec List Table Sample Except Bool

/-! ### States that look alike -/

/-- What an answer shows of a queue. -/
def Queue.shown (q : Queue) : Str × Str × ℤ := (q.name, q.host, q.nice)

/-- The jobs of a user, in the order of the table. -/
def Tables.jobsOf (t : Tables) (uid : ℕ) : List Job :=
  (t.jobTable.rows.map Prod.snd).filter fun j ↦ j.uid == uid

/-- The queues and resources have the same looks at the same addresses. -/
structure SameObjects (t t' : Tables) : Prop where
  queues : ∀ b, (t.queueTable.get? b).map Queue.shown = (t'.queueTable.get? b).map Queue.shown
  resources : ∀ b, (t.resTable.get? b).map Resource.name = (t'.resTable.get? b).map Resource.name

/-- The states agree on all but the jobs of other users, and the counters that these change. -/
structure SameFor (uid : ℕ) (s s' : Server) : Prop where
  config : s.config = s'.config
  readonly : s.readonly = s'.readonly
  queues : s.queueTable.rows.map (fun r ↦ (r.1, r.2.shown)) =
    s'.queueTable.rows.map fun r ↦ (r.1, r.2.shown)
  resources : ∀ b, (s.resTable.get? b).map Resource.name = (s'.resTable.get? b).map Resource.name
  jobs : s.jobsOf uid = s'.jobsOf uid

variable {uid fields : ℕ} {q : Option Addr} {g : Str → Except Fault Str}

section Looks

variable {t t' : Tables} {env : Env} {j : Job}

/-- The first row with a property of what is kept of the rows. -/
theorem find?_map_eq {α β : Type} {rows rows' : List (ℕ × α)} {g : α → β} (p : ℕ × β → Bool)
    (h : rows.map (fun r ↦ (r.1, g r.2)) = rows'.map fun r ↦ (r.1, g r.2)) :
    ((rows.find? fun r ↦ p (r.1, g r.2)).map fun r ↦ (r.1, g r.2)) =
      (rows'.find? fun r ↦ p (r.1, g r.2)).map fun r ↦ (r.1, g r.2) := by
  have hmap (l : List (ℕ × α)) : ((l.find? fun r ↦ p (r.1, g r.2)).map fun r ↦ (r.1, g r.2)) =
      (l.map fun r ↦ (r.1, g r.2)).find? p := by
    rw [find?_map]
    rfl
  rw [hmap, hmap, h]

variable {s s' : Server}

theorem SameFor.objects (h : SameFor uid s s') : SameObjects s.toTables s'.toTables := by
  refine ⟨fun b ↦ ?_, h.resources⟩
  have hrow := congrArg (Option.map Prod.snd) (find?_map_eq (fun r ↦ r.1 == b) h.queues)
  simpa [Table.get?, Function.comp_def] using hrow

theorem SameFor.symm (h : SameFor uid s s') : SameFor uid s' s :=
  ⟨h.config.symm, h.readonly.symm, h.queues.symm, fun b ↦ (h.resources b).symm, h.jobs.symm⟩

/-- The filter finds the same queue. -/
theorem SameFor.filterQueue (h : SameFor uid s s') (f : JobFilter) :
    f.queue s.toTables = f.queue s'.toTables := by
  have hfound (name : Str) : ((s.findQueue name).map fun r ↦ some r.1) =
      (s'.findQueue name).map fun r ↦ some r.1 := by
    have hrow :=
      congrArg (Option.map fun r ↦ some r.1) (find?_map_eq (fun r ↦ r.2.1 == name) h.queues)
    simpa [Tables.findQueue, Table.find?, Queue.shown, Function.comp_def] using hrow
  simp only [JobFilter.queue, hfound]

/-- The same look, queue by queue. -/
theorem SameObjects.queue (h : SameObjects t t') (b : Addr) :
    t.queueTable.get? b = none ∧ t'.queueTable.get? b = none ∨
      ∃ q q', t.queueTable.get? b = some q ∧ t'.queueTable.get? b = some q' ∧
        q.name = q'.name ∧ q.host = q'.host ∧ q.nice = q'.nice := by
  have hb := h.queues b
  cases hq : t.queueTable.get? b with
  | none =>
    rw [hq] at hb
    exact .inl ⟨rfl, Option.map_eq_none_iff.mp hb.symm⟩
  | some q =>
    rw [hq] at hb
    obtain ⟨q', hq', hshown⟩ := Option.map_eq_some_iff.mp hb.symm
    simp only [Queue.shown, Prod.mk.injEq] at hshown
    exact .inr ⟨q, q', rfl, hq', hshown.1.symm, hshown.2.1.symm, hshown.2.2.symm⟩

/-- **The filters see the same.** -/
theorem SameObjects.accepts_eq (h : SameObjects t t') (f : JobFilter) (q : Option Addr)
    (skip : Option ℕ) : f.accepts env t q skip j = f.accepts env t' q skip j := by
  have hqueue : f.queueMatches env t q j = f.queueMatches env t' q j := by
    simp only [JobFilter.queueMatches]
    obtain ⟨hq, hq'⟩ | ⟨p, p', hq, hq', hname, -⟩ := h.queue j.queue
    · rw [hq, hq']
    · rw [hq, hq']
      dsimp only
      rw [hname]
  simp only [JobFilter.accepts, hqueue]

theorem SameObjects.addOfQueue_eq (h : SameObjects t t') (wanted : Bool) {write : Queue → Str → Str}
    (hwrite : ∀ q q' : Queue, q.name = q'.name → q.host = q'.host → q.nice = q'.nice →
      write q = write q') (b : Str) :
    addOfQueue t j wanted write b = addOfQueue t' j wanted write b := by
  simp only [addOfQueue]
  obtain ⟨hq, hq'⟩ | ⟨p, p', hq, hq', hname, hhost, hnice⟩ := h.queue j.queue
  · rw [hq, hq']
  · rw [hq, hq']
    dsimp only
    rw [hwrite p p' hname hhost hnice]

theorem SameObjects.resText_eq (h : SameObjects t t') : resText t = resText t' := by
  funext r
  have hr := h.resources r.res
  simp only [resText]
  cases hres : t.resTable.get? r.res with
  | none =>
    rw [hres] at hr
    rw [Option.map_eq_none_iff.mp hr.symm]
  | some x =>
    rw [hres] at hr
    obtain ⟨x', hx', hname⟩ := Option.map_eq_some_iff.mp hr.symm
    rw [hx']
    dsimp only
    rw [hname]

/-- **The same text is written.** -/
theorem SameObjects.serializeJob_eq (h : SameObjects t t') (defaultNice : ℤ) (fields : ℕ)
    (b : Str) : serializeJob t defaultNice fields b j = serializeJob t' defaultNice fields b j := by
  have hname (wanted : Bool) (b : Str) :
      addOfQueue t j wanted (fun q b ↦ jsonAddString b .queuename (some q.name)) b =
        addOfQueue t' j wanted (fun q b ↦ jsonAddString b .queuename (some q.name)) b :=
    h.addOfQueue_eq wanted (fun q q' hn _ _ ↦ by rw [hn]) b
  have hhost (wanted : Bool) (b : Str) :
      addOfQueue t j wanted (fun q b ↦ jsonAddString b .node (some q.host)) b =
        addOfQueue t' j wanted (fun q b ↦ jsonAddString b .node (some q.host)) b :=
    h.addOfQueue_eq wanted (fun q q' _ hh _ ↦ by rw [hh]) b
  have hnice (wanted : Bool) (b : Str) : addNice t defaultNice j wanted b =
      addNice t' defaultNice j wanted b := by
    simp only [addNice]
    rw [h.addOfQueue_eq wanted fun q q' _ _ hn ↦ by rw [hn]]
  simp only [serializeJob, hname, hhost, hnice, addResources, h.resText_eq]

end Looks

/-! ### A search as a function of the jobs -/

/-- The jobs of a list that pass a test. -/
def selectJobs (accepts : Job → Except Fault Bool) : List Job → Except Fault (List Job)
  | [] => .ok []
  | j :: js => do
    let accepted ← accepts j
    let rest ← selectJobs accepts js
    return if accepted then j :: rest else rest

/-- The text of an answer with the given jobs. -/
def textOf (s : Server) (fields : ℕ) (js : List Job) : Except Fault Str :=
  (js.foldlM (serializeJob s.toTables s.config.defaultJobNice fields)
    (initClientResponse s.readonly)).map closeResponse

section

variable {s : Server} {rows : List (Addr × Job)}

/-- Addresses that are picked with their jobs. -/
theorem selectFrom_rows (accepts : Job → Except Fault Bool)
    (h : ∀ r ∈ rows, s.jobTable.get? r.1 = some r.2) :
    (∃ e, selectFrom s.toTables accepts (rows.map Prod.fst) = .error e ∧
      selectJobs accepts (rows.map Prod.snd) = .error e) ∨ ∃ picked, picked ⊆ rows ∧
      selectFrom s.toTables accepts (rows.map Prod.fst) = .ok (picked.map Prod.fst) ∧
      selectJobs accepts (rows.map Prod.snd) = .ok (picked.map Prod.snd) := by
  induction rows with
  | nil => exact .inr ⟨[], List.Subset.refl _, rfl, rfl⟩
  | cons r rows ih =>
    have hr := h r mem_cons_self
    rw [map_cons, map_cons, selectFrom, selectJobs, hr]
    dsimp only
    cases hacc : accepts r.2 with
    | error e => exact .inl ⟨e, rfl, rfl⟩
    | ok accepted =>
      rw [ok_bind, ok_bind]
      obtain ⟨e, hfrom, hjobs⟩ | ⟨picked, hsub, hfrom, hjobs⟩ :=
        ih fun r hr ↦ h r (mem_cons_of_mem _ hr)
      · rw [hfrom, hjobs]
        exact .inl ⟨e, rfl, rfl⟩
      · rw [hfrom, hjobs]
        right
        cases accepted with
        | false => exact ⟨picked, fun x hx ↦ mem_cons_of_mem _ (hsub hx), rfl, rfl⟩
        | true => exact ⟨r :: picked, cons_subset_cons r hsub, rfl, rfl⟩

/-- Two folds, over addresses and over their jobs. -/
theorem foldlM_rows {f : Str → Addr → Except Fault Str} {g : Str → Job → Except Fault Str}
    (h : ∀ r ∈ rows, ∀ b, f b r.1 = g b r.2) (b : Str) :
    (rows.map Prod.fst).foldlM f b = (rows.map Prod.snd).foldlM g b := by
  induction rows generalizing b with
  | nil => rfl
  | cons r rows ih =>
    rw [map_cons, map_cons, foldlM_cons, foldlM_cons, h r mem_cons_self]
    exact bind_congr fun b' ↦ ih (fun r hr ↦ h r (mem_cons_of_mem _ hr)) b'

theorem jobsText_rows (fields : ℕ) (h : ∀ r ∈ rows, s.jobTable.get? r.1 = some r.2) :
    jobsText s fields (rows.map Prod.fst) = textOf s fields (rows.map Prod.snd) := by
  rw [jobsText, textOf, foldlM_rows (g := serializeJob s.toTables s.config.defaultJobNice fields)]
  · rfl
  · intro r hr b
    rw [h r hr]

/-- The answer that is made of the jobs that have been found. -/
theorem answer_rows (fields : ℕ) (h : ∀ r ∈ rows, s.jobTable.get? r.1 = some r.2) :
    Option.map Prod.fst (((do
      let text ← read fun s ↦ jobsText s fields (rows.map Prod.fst)
      return JobReply.jobs (← lift text)) : Daemon JobReply) s).toOption =
        (textOf s fields (rows.map Prod.snd)).toOption.map .jobs := by
  rw [read_bind, jobsText_rows fields h]
  cases textOf s fields (rows.map Prod.snd) <;> rfl

end

/-! ### Where a search ends with a fault -/

section

variable {p : Job → Except Fault Bool} {js : List Job}

/-- A search ends with a fault if the test of a job does. -/
theorem selectJobs_eq_none_iff :
    (selectJobs p js).toOption = none ↔ ∃ j ∈ js, (p j).toOption = none := by
  induction js with
  | nil => simp [selectJobs, Except.toOption]
  | cons j js ih =>
    rw [exists_mem_cons_iff, ← ih, selectJobs]
    cases p j with
    | error e => exact iff_of_true rfl (.inl rfl)
    | ok accepted =>
      cases selectJobs p js with
      | error e => exact iff_of_true rfl (.inr rfl)
      | ok rest => simp [Except.toOption, Except.ok_bind, pure, Except.pure]

/-- What a search finds has passed the test, and is all that has. -/
theorem mem_selectJobs {found : List Job} (h : selectJobs p js = .ok found) (j : Job) :
    j ∈ found ↔ j ∈ js ∧ p j = .ok true := by
  induction js generalizing found with
  | nil =>
    obtain rfl := ok.inj h
    simp
  | cons i js ih =>
    rw [selectJobs] at h
    obtain ⟨accepted, hacc, h₁⟩ := bind_eq_ok_iff.mp h
    obtain ⟨rest, hrest, h₂⟩ := bind_eq_ok_iff.mp h₁
    rw [← ok.inj h₂, mem_cons]
    cases accepted with
    | false =>
      have hne : ¬ (j = i ∧ p j = .ok true) := by
        rintro ⟨rfl, hj⟩
        exact nomatch hacc.symm.trans hj
      rw [if_neg Bool.false_ne_true, ih hrest, or_and_right]
      exact (or_iff_right hne).symm
    | true =>
      rw [if_pos rfl, mem_cons, ih hrest, or_and_right]
      refine or_congr_left ⟨fun hj ↦ ⟨hj, hj ▸ hacc⟩, fun hj ↦ hj.1⟩

/-- Jobs that never pass and cause no fault may be left out. -/
theorem selectJobs_filter {mine : Job → Bool} (hother : ∀ j, mine j = false → p j ≠ .ok true)
    (hok : ¬ ∃ j ∈ js, mine j = false ∧ (p j).toOption = none) :
    selectJobs p js = selectJobs p (js.filter mine) := by
  induction js with
  | nil => rfl
  | cons j js ih =>
    have hrest := ih fun ⟨i, hi, hbad⟩ ↦ hok ⟨i, mem_cons_of_mem _ hi, hbad⟩
    cases hmine : mine j with
    | true => rw [filter_cons_of_pos hmine, selectJobs, selectJobs, hrest]
    | false =>
      rw [filter_cons_of_neg (by simp [hmine]), selectJobs, hrest]
      cases hj : p j with
      | error e => exact absurd ⟨j, mem_cons_self, hmine, by rw [hj]; rfl⟩ hok
      | ok accepted =>
        cases accepted with
        | true => exact absurd hj (hother j hmine)
        | false =>
          rw [ok_bind]
          cases selectJobs p (js.filter mine) <;> rfl

/-- Whether something can be written does not depend on the text before it. -/
def Steady (g : Str → Except Fault Str) : Prop :=
  (∀ b, (g b).toOption = none) ∨ ∀ b, (g b).toOption ≠ none

theorem Steady.write (g : Str → Str) : Steady fun b ↦ .ok (g b) := .inr fun _ ↦ nofun

theorem Steady.after (hg : Steady g) (f : Str → Str) : Steady fun b ↦ g (f b) :=
  hg.imp (fun h b ↦ h (f b)) fun h b ↦ h (f b)

theorem Steady.bind {h : Str → Except Fault Str} (hg : Steady g) (hh : Steady h) :
    Steady fun b ↦ g b >>= h := by
  rcases hg with hg | hg
  · refine .inl fun b ↦ ?_
    obtain ⟨e, he⟩ := toOption_eq_none_iff.mp (hg b)
    show (g b >>= h).toOption = none
    rw [he]
    rfl
  · have hnext (b : Str) : ∃ b', (g b >>= h) = h b' := by
      obtain ⟨b', hb'⟩ := toOption_ne_none_iff.mp (hg b)
      exact ⟨b', by rw [hb']; rfl⟩
    refine hh.imp (fun hh b ↦ ?_) fun hh b ↦ ?_
    · obtain ⟨b', hb'⟩ := hnext b
      exact (congrArg Except.toOption hb').trans (hh b')
    · obtain ⟨b', hb'⟩ := hnext b
      exact fun hnone ↦ hh b' ((congrArg Except.toOption hb').symm.trans hnone)

theorem Steady.stop {e : Fault} (h : ∀ b, g b = .error e) : Steady g :=
  .inl fun b ↦ by rw [h b]; rfl

end

section

variable (t : Tables) (j : Job) (wanted : Bool)

theorem addOfQueue_steady (write : Queue → Str → Str) : Steady (addOfQueue t j wanted write) := by
  unfold addOfQueue
  cases wanted with
  | false => exact .write id
  | true =>
    cases t.queueTable.get? j.queue with
    | none => exact .stop fun _ ↦ rfl
    | some q => exact .write (write q)

theorem addNice_steady (defaultNice : ℤ) : Steady (addNice t defaultNice j wanted) := by
  unfold addNice
  split
  · exact .write _
  · exact addOfQueue_steady t j wanted _

theorem addTags_steady : Steady (addTags j wanted) := by
  unfold addTags
  split
  · cases j.tags.mapM fun t ↦ t.2.map fun v ↦ (t.1, v) with
    | none => exact .stop fun _ ↦ rfl
    | some tags => exact .write _
  · exact .write id

theorem addResources_steady : Steady (addResources t j wanted) := by
  unfold addResources
  split
  · cases j.requirements with
    | error e => exact .stop fun _ ↦ rfl
    | ok reqs =>
      cases hres : reqs.mapM (resText t) with
      | error e => exact .stop fun _ ↦ by rw [ok_bind, hres]; rfl
      | ok texts =>
        have heq : (fun b ↦ (do
            let reqs ← (ok reqs : Except Fault (List JobResource))
            let texts ← reqs.mapM (resText t)
            return jsonAddStringArray b .resources texts : Except Fault Str)) =
            fun b ↦ .ok (jsonAddStringArray b .resources texts) := by
          funext b
          rw [ok_bind, hres]
          rfl
        rw [heq]
        exact .write _
  · exact .write id

/-- **A job can be written after any text, or after none.** -/
theorem serializeJob_steady (defaultNice : ℤ) (fields : ℕ) :
    Steady fun b ↦ serializeJob t defaultNice fields b j := by
  unfold serializeJob
  refine ((addOfQueue_steady t j _ _).after _).bind ?_
  refine ((addNice_steady t j _ _).after _).bind ?_
  refine ((addOfQueue_steady t j _ _).after _).bind ?_
  refine ((addTags_steady j _).after _).bind ?_
  refine ((addResources_steady t j _).after _).bind ?_
  exact .write _

end

/-! ### Answers -/

/-- What a client without an index in the daemon is sent: nothing if the daemon does not survive. -/
def answerTo (env : Env) (c : Client) (f : JobFilter) (s : Server) : Option JobReply :=
  (commandGetJob env c f none [] s).toOption.map Prod.fst

/-- The client may see their own jobs. -/
def Server.seesOwn (s : Server) (u : User) : Bool :=
  !s.config.selfPermission || hasBits u.permissions permSelf

/-- The test of a search for a client who may see no other jobs. -/
def searchTest (env : Env) (c : Client) (u : User) (f : JobFilter) (s : Server) (q : Option Addr)
    (j : Job) : Except Fault Bool := do
  return (← f.accepts env s.toTables q none j) && (s.seesOwn u && j.uid == c.uid)

/-- The answer of a search. -/
def foundAnswer (s : Server) (fields : ℕ) (found : Except Fault (List Job)) : Option JobReply :=
  (found.toOption.bind fun js ↦ (textOf s fields js).toOption).map .jobs

section Answers

variable {env : Env} {c : Client} {u : User} {f : JobFilter} {s s' : Server}

theorem answerTo_search (hid : f.jobid = 0) (hroot : c.uid ≠ 0) (huser : c.user = some u)
    (hlack : u.permissions &&& permRead = 0) :
    answerTo env c f s = match f.queue s.toTables with
      | .error _ => none
      | .ok none => some (.error .noqueue)
      | .ok (some q) => foundAnswer s f.returnFields
          (selectJobs (searchTest env c u f s q) (s.jobTable.rows.map Prod.snd)) := by
  have hall : c.readsAll = .ok false := by
    simp [Client.readsAll, hroot, userPermissions, huser, Except.map, hlack]
  have hown : c.readsOwn s.config.selfPermission = .ok (s.seesOwn u) := by
    cases hself : s.config.selfPermission <;>
      simp [Client.readsOwn, Server.seesOwn, hself, hroot, userPermissions, huser, Except.map]
  have hrows : ∀ r ∈ s.jobTable.rows, s.jobTable.get? r.1 = some r.2 :=
    fun r hr ↦ mem_rows_iff.mp hr
  have hbucket : f.bucket none [] = .ok none := rfl
  simp only [answerTo, commandGetJob, jobsFor, hid, ne_eq, not_true_eq_false, if_false]
  rw [bind_assoc, read_bind]
  simp only [searchJobs, hall, hown, ok_bind, hbucket]
  cases hq : f.queue s.toTables with
  | error e => rfl
  | ok q =>
    cases q with
    | none => rfl
    | some q =>
      have htest : (fun j ↦ do
          return (← f.accepts env s.toTables q none j) &&
            (false || (s.seesOwn u && j.uid == c.uid))) =
          searchTest env c u f s q := rfl
      simp only [ok_bind, Option.map_none, Option.getD_none, Table.addrs, htest]
      obtain ⟨e, hfrom, hjobs⟩ | ⟨picked, hsub, hfrom, hjobs⟩ :=
        selectFrom_rows (searchTest env c u f s q) hrows
      · rw [hfrom, hjobs]
        rfl
      · rw [hfrom, hjobs]
        exact answer_rows f.returnFields fun r hr ↦ hrows r (hsub hr)

/-! ### The jobs that matter -/

/-- Holding a job against the filters goes through a null or a freed pointer. -/
def JobFilter.Faults (f : JobFilter) (env : Env) (t : Tables) (q : Option Addr) (j : Job) : Prop :=
  (f.accepts env t q none j).toOption = none

/-- The filters fault on a job of another user. -/
def Server.OthersFault (s : Server) (env : Env) (c : Client) (f : JobFilter) (q : Option Addr) :
    Prop :=
  ∃ a j, s.jobTable.get? a = some j ∧ j.uid ≠ c.uid ∧ f.Faults env s.toTables q j

/-- The filters fault on a job of the client, or such a job passes them and cannot be written. -/
def Server.OwnFault (s : Server) (env : Env) (c : Client) (u : User) (f : JobFilter)
    (q : Option Addr) : Prop :=
  ∃ a j, s.jobTable.get? a = some j ∧ j.uid = c.uid ∧ (f.Faults env s.toTables q j ∨
    f.accepts env s.toTables q none j = .ok true ∧ s.seesOwn u = true ∧
      (serializeJob s.toTables s.config.defaultJobNice f.returnFields [] j).toOption = none)

variable {j : Job} {jobid : ℕ}

theorem mem_jobs_iff : j ∈ s.jobTable.rows.map Prod.snd ↔ ∃ a, s.jobTable.get? a = some j := by
  rw [List.mem_map]
  constructor
  · rintro ⟨r, hr, rfl⟩
    exact ⟨r.1, mem_rows_iff.mp hr⟩
  · rintro ⟨a, hj⟩
    exact ⟨(a, j), mem_rows_iff.mpr hj, rfl⟩

theorem mem_jobsOf_iff : j ∈ s.jobsOf uid ↔ ∃ a, s.jobTable.get? a = some j ∧ j.uid = uid := by
  rw [Tables.jobsOf, mem_filter, mem_jobs_iff, beq_iff_eq, exists_and_right]

theorem searchTest_eq_none_iff :
    (searchTest env c u f s q j).toOption = none ↔ f.Faults env s.toTables q j := by
  rw [searchTest, JobFilter.Faults]
  cases f.accepts env s.toTables q none j with
  | error e => exact iff_of_true rfl rfl
  | ok accepted => simp [Except.toOption, Except.ok_bind, pure, Except.pure]

theorem searchTest_true_iff : searchTest env c u f s q j = .ok true ↔
      f.accepts env s.toTables q none j = .ok true ∧ s.seesOwn u = true ∧ j.uid = c.uid := by
  rw [searchTest]
  cases f.accepts env s.toTables q none j with
  | error e => exact iff_of_false nofun fun h ↦ nomatch h.1
  | ok accepted => simp [Except.ok_bind, pure, Except.pure]

/-- **The jobs of others do not show**, unless the filters fault on one of them. -/
theorem foundAnswer_others (h : ¬ s.OthersFault env c f q) :
    foundAnswer s fields (selectJobs (searchTest env c u f s q) (s.jobTable.rows.map Prod.snd)) =
      foundAnswer s fields (selectJobs (searchTest env c u f s q) (s.jobsOf c.uid)) := by
  rw [Tables.jobsOf, selectJobs_filter]
  · intro j hother htrue
    exact absurd (searchTest_true_iff.mp htrue).2.2 (by simpa using hother)
  · rintro ⟨j, hj, hother, hnone⟩
    obtain ⟨a, ha⟩ := mem_jobs_iff.mp hj
    exact h ⟨a, j, ha, by simpa using hother, searchTest_eq_none_iff.mp hnone⟩

theorem foundAnswer_none_of_others (h : s.OthersFault env c f q) :
    foundAnswer s fields (selectJobs (searchTest env c u f s q) (s.jobTable.rows.map Prod.snd)) =
      none := by
  obtain ⟨a, j, hj, -, hfault⟩ := h
  have hnone := selectJobs_eq_none_iff.mpr
    ⟨j, mem_jobs_iff.mpr ⟨a, hj⟩, (searchTest_eq_none_iff (c := c) (u := u)).mpr hfault⟩
  rw [foundAnswer, hnone]
  rfl

/-- A list of jobs cannot be written if one of them cannot. -/
theorem textOf_eq_none_iff {js : List Job} : (textOf s fields js).toOption = none ↔
    ∃ j ∈ js, (serializeJob s.toTables s.config.defaultJobNice fields [] j).toOption = none := by
  have hfold (b : Str) :
      (js.foldlM (serializeJob s.toTables s.config.defaultJobNice fields) b).toOption = none ↔
        ∃ j ∈ js, (serializeJob s.toTables s.config.defaultJobNice fields [] j).toOption =
        none := by
    induction js generalizing b with
    | nil => simp [Except.toOption, pure, Except.pure]
    | cons j js ih =>
      rw [foldlM_cons, exists_mem_cons_iff]
      rcases serializeJob_steady s.toTables j s.config.defaultJobNice fields with hbad | hgood
      · refine iff_of_true ?_ (.inl (hbad []))
        obtain ⟨e, he⟩ := toOption_eq_none_iff.mp (hbad b)
        dsimp only at he
        rw [he]
        rfl
      · obtain ⟨b', hb'⟩ := toOption_ne_none_iff.mp (hgood b)
        dsimp only at hb'
        rw [hb', ok_bind, ih b']
        exact (or_iff_right (hgood [])).symm
  rw [← hfold (initClientResponse s.readonly), textOf]
  cases js.foldlM (serializeJob s.toTables s.config.defaultJobNice fields)
    (initClientResponse s.readonly) with
  | error e => exact iff_of_true rfl rfl
  | ok b => exact iff_of_false nofun nofun

/-- **Where the own jobs leave no answer.** -/
theorem foundAnswer_own_none_iff :
    foundAnswer s f.returnFields (selectJobs (searchTest env c u f s q) (s.jobsOf c.uid)) = none ↔
      s.OwnFault env c u f q := by
  cases hsel : selectJobs (searchTest env c u f s q) (s.jobsOf c.uid) with
  | error e =>
    refine iff_of_true rfl ?_
    obtain ⟨j, hj, hnone⟩ := selectJobs_eq_none_iff.mp (congrArg Except.toOption hsel)
    obtain ⟨a, ha, hown⟩ := mem_jobsOf_iff.mp hj
    exact ⟨a, j, ha, hown, .inl (searchTest_eq_none_iff.mp hnone)⟩
  | ok found =>
    rw [foundAnswer, Option.map_eq_none_iff]
    show (textOf s f.returnFields found).toOption = none ↔ _
    rw [textOf_eq_none_iff]
    constructor
    · rintro ⟨j, hj, hbad⟩
      obtain ⟨hmem, htrue⟩ := (mem_selectJobs hsel j).mp hj
      obtain ⟨a, ha, hown⟩ := mem_jobsOf_iff.mp hmem
      obtain ⟨hacc, hsees, -⟩ := searchTest_true_iff.mp htrue
      exact ⟨a, j, ha, hown, .inr ⟨hacc, hsees, hbad⟩⟩
    · rintro ⟨a, j, ha, hown, hfault | ⟨hacc, hsees, hbad⟩⟩
      · have hnone := selectJobs_eq_none_iff.mpr ⟨j, mem_jobsOf_iff.mpr ⟨a, ha, hown⟩,
          (searchTest_eq_none_iff (c := c) (u := u)).mpr hfault⟩
        rw [hsel] at hnone
        exact nomatch hnone
      · exact ⟨j, (mem_selectJobs hsel j).mpr ⟨mem_jobsOf_iff.mpr ⟨a, ha, hown⟩,
          searchTest_true_iff.mpr ⟨hacc, hsees, hown⟩⟩, hbad⟩

theorem SameFor.textOf_eq (h : SameFor uid s s') (fields : ℕ) :
    textOf s fields = textOf s' fields := by
  have hser : serializeJob s.toTables s.config.defaultJobNice fields =
      serializeJob s'.toTables s'.config.defaultJobNice fields := by
    funext b j
    rw [h.config, h.objects.serializeJob_eq]
  funext js
  rw [textOf, textOf, hser, h.readonly]

/-- The own jobs are answered with alike. -/
theorem SameFor.foundAnswer_own (h : SameFor c.uid s s') (q : Option Addr) (fields : ℕ) :
    foundAnswer s fields (selectJobs (searchTest env c u f s q) (s.jobsOf c.uid)) =
      foundAnswer s' fields (selectJobs (searchTest env c u f s' q) (s'.jobsOf c.uid)) := by
  have htest : searchTest env c u f s q = searchTest env c u f s' q := by
    funext j
    simp only [searchTest, Server.seesOwn, h.config, h.objects.accepts_eq]
  rw [h.jobs, htest, foundAnswer, foundAnswer, h.textOf_eq]

/-- A search is answered alike if the filters fault in both states or in neither, and if there is no
answer anyway. -/
theorem SameFor.foundAnswer_iff (h : SameFor c.uid s s') : foundAnswer s f.returnFields
        (selectJobs (searchTest env c u f s q) (s.jobTable.rows.map Prod.snd)) =
      foundAnswer s' f.returnFields
        (selectJobs (searchTest env c u f s' q) (s'.jobTable.rows.map Prod.snd)) ↔
    s.OwnFault env c u f q ∨ (s.OthersFault env c f q ↔ s'.OthersFault env c f q) := by
  have hown :
      foundAnswer s f.returnFields (selectJobs (searchTest env c u f s q) (s.jobsOf c.uid)) =
      foundAnswer s' f.returnFields (selectJobs (searchTest env c u f s' q) (s'.jobsOf c.uid)) :=
    h.foundAnswer_own q f.returnFields
  have hnone : foundAnswer s f.returnFields
      (selectJobs (searchTest env c u f s q) (s.jobsOf c.uid)) = none ↔ s.OwnFault env c u f q :=
    foundAnswer_own_none_iff
  by_cases hs : s.OthersFault env c f q <;> by_cases hs' : s'.OthersFault env c f q
  · rw [foundAnswer_none_of_others hs, foundAnswer_none_of_others hs']
    exact iff_of_true rfl (.inr (iff_of_true hs hs'))
  · rw [foundAnswer_none_of_others hs, foundAnswer_others hs', ← hown, eq_comm, hnone]
    exact ⟨.inl, fun h ↦ h.resolve_right fun hiff ↦ hs' (hiff.mp hs)⟩
  · rw [foundAnswer_none_of_others hs', foundAnswer_others hs, hnone]
    exact ⟨.inl, fun h ↦ h.resolve_right fun hiff ↦ hs (hiff.mpr hs')⟩
  · rw [foundAnswer_others hs, foundAnswer_others hs', hown]
    exact iff_of_true rfl (.inr (iff_of_false hs hs'))

/-! ### A job by its id -/

/-- With unique ids, the job of an id is found wherever it is. -/
theorem UniqueIds.findJob_iff (h : UniqueIds s.toTables) {a : Addr} :
    s.findJob jobid = some (a, j) ↔ s.jobTable.get? a = some j ∧ j.jobid = jobid := by
  constructor
  · intro hfound
    obtain ⟨hj, hid⟩ := Table.find?_some hfound
    exact ⟨hj, by simpa using hid⟩
  · rintro ⟨hj, hid⟩
    cases hfound : s.findJob jobid with
    | none => exact absurd hid (by simpa using find?_none hfound hj)
    | some r =>
      obtain ⟨hr, hrid⟩ := Table.find?_some hfound
      obtain rfl := h r.1 a r.2 j hr hj ((by simpa using hrid : r.2.jobid = jobid).trans hid.symm)
      obtain rfl := Option.mem_unique hr hj
      rfl

/-- The own job of an id is found in both states or in neither. -/
theorem SameFor.findJob_own (h : SameFor c.uid s s') (hids' : UniqueIds s'.toTables)
    {a : Addr} (hfound : s.findJob jobid = some (a, j)) (hown : j.uid = c.uid) :
    ∃ a', s'.findJob jobid = some (a', j) := by
  obtain ⟨hj, hid⟩ := Table.find?_some hfound
  have hmem : j ∈ s'.jobsOf c.uid := h.jobs ▸ mem_jobsOf_iff.mpr ⟨a, hj, hown⟩
  obtain ⟨a', hj', -⟩ := mem_jobsOf_iff.mp hmem
  exact ⟨a', hids'.findJob_iff.mpr ⟨hj', by simpa using hid⟩⟩

/-- What `check_perm` says about a job of `uid` to a client without `PERM_READ`. -/
theorem checkPerm_read (hroot : c.uid ≠ 0) (huser : c.user = some u)
    (hlack : u.permissions &&& permRead = 0) :
    checkPerm (some c) uid permRead s = .ok (!(c.uid == uid && s.seesOwn u), s) := by
  have hbits : hasBits u.permissions permRead = false := by
    rw [hasBits, hlack]
    rfl
  by_cases huid : c.uid = uid
  · subst huid
    simp only [checkPerm, hroot, if_false, if_true, userPermissions, huser]
    rw [read_bind]
    cases hself : s.config.selfPermission with
    | false =>
      simp only [Server.seesOwn, hself, Bool.not_false, Bool.true_or, beq_self_eq_true,
        Bool.and_self]
      rfl
    | true =>
      simp only [Server.seesOwn, hself, Bool.not_true, Bool.false_or, beq_self_eq_true,
        Bool.true_and]
      rfl
  · simp only [checkPerm, hroot, if_false, huid, userPermissions, huser]
    show ok (!hasBits u.permissions permRead, s) = _
    simp [hbits, huid]

/-- **The answer about one job**: the own job if it is not deleted, or a refusal. -/
theorem answerTo_jobid (hid : f.jobid ≠ 0) (hroot : c.uid ≠ 0) (huser : c.user = some u)
    (hlack : u.permissions &&& permRead = 0) :
    answerTo env c f s = match s.findJob f.jobid with
      | none => some (.error .noperm)
      | some r =>
        if r.2.uid = c.uid ∧ s.seesOwn u = true then
          if r.2.internalState.deleted then some (.error .nojob)
          else (textOf s 0 [r.2]).toOption.map .jobs
        else some (.error .noperm) := by
  simp only [answerTo, commandGetJob, jobsFor, hid, ne_eq, not_false_eq_true, if_true]
  rw [bind_assoc, read_bind, bind_assoc, bind_of_ok (checkPerm_read hroot huser hlack)]
  cases hfound : s.findJob f.jobid with
  | none =>
    have hne : (c.uid == 0) = false := by simpa using hroot
    simp only [Option.map_none, Option.getD_none, hne, Bool.false_and, Bool.not_false, if_true]
    rfl
  | some r =>
    obtain ⟨a, j⟩ := r
    simp only [Option.map_some, Option.getD_some]
    by_cases hown : j.uid = c.uid ∧ s.seesOwn u = true
    · have hgranted : (!(c.uid == j.uid && s.seesOwn u)) = false := by simp [hown.1, hown.2]
      rw [hgranted, if_pos hown]
      cases hdel : j.internalState.deleted with
      | true => rfl
      | false =>
        have hrow : ∀ r ∈ [(a, j)], s.jobTable.get? r.1 = some r.2 := by
          intro r hr
          obtain rfl := mem_singleton.mp hr
          exact (Table.find?_some hfound).1
        exact answer_rows 0 hrow
    · have hrefused : (!(c.uid == j.uid && s.seesOwn u)) = true := by
        rw [not_eq_true', and_eq_false_iff, beq_eq_false_iff_ne]
        by_cases huid : j.uid = c.uid
        · exact .inr (eq_false_of_not_eq_true fun hsees ↦ hown ⟨huid, hsees⟩)
        · exact .inl fun heq ↦ huid heq.symm
      rw [hrefused, if_neg hown]
      rfl

/-- **One job is answered with alike.** -/
theorem SameFor.answerTo_jobid_eq (h : SameFor c.uid s s') (hids : UniqueIds s.toTables)
    (hids' : UniqueIds s'.toTables) (hid : f.jobid ≠ 0) (hroot : c.uid ≠ 0)
    (huser : c.user = some u) (hlack : u.permissions &&& permRead = 0) :
    answerTo env c f s = answerTo env c f s' := by
  have hsees : s.seesOwn u = s'.seesOwn u := by rw [Server.seesOwn, Server.seesOwn, h.config]
  -- without an own job of this id the answer is a refusal
  have hrefuse {t : Server} (hother : ∀ a j, t.findJob f.jobid = some (a, j) → j.uid ≠ c.uid) :
      answerTo env c f t = some (.error .noperm) := by
    rw [answerTo_jobid hid hroot huser hlack]
    cases hfound : t.findJob f.jobid with
    | none => rfl
    | some r => exact if_neg fun hown ↦ hother r.1 r.2 hfound hown.1
  by_cases hown : ∃ a j, s.findJob f.jobid = some (a, j) ∧ j.uid = c.uid
  · obtain ⟨a, j, hfound, huid⟩ := hown
    obtain ⟨a', hfound'⟩ := h.findJob_own hids' hfound huid
    rw [answerTo_jobid hid hroot huser hlack, answerTo_jobid hid hroot huser hlack, hfound, hfound']
    dsimp only
    rw [hsees, h.textOf_eq]
  · rw [hrefuse fun a j hfound huid ↦ hown ⟨a, j, hfound, huid⟩, hrefuse fun a j hfound huid ↦ ?_]
    obtain ⟨a', hfound'⟩ := h.symm.findJob_own hids hfound huid
    exact hown ⟨a', j, hfound', huid⟩

/-- **A query tells nothing about the jobs of others**, exactly if the filters fault on such a job
in both states or in neither. By its id no job of others can be told from one that is not there. -/
theorem answerTo_eq_iff (hroot : c.uid ≠ 0) (huser : c.user = some u)
    (hlack : u.permissions &&& permRead = 0) (hids : UniqueIds s.toTables)
    (hids' : UniqueIds s'.toTables) (h : SameFor c.uid s s') :
    answerTo env c f s = answerTo env c f s' ↔
      ∀ q, f.jobid = 0 → f.queue s.toTables = .ok (some q) →
        s.OwnFault env c u f q ∨ (s.OthersFault env c f q ↔ s'.OthersFault env c f q) := by
  by_cases hid : f.jobid = 0
  · rw [answerTo_search hid hroot huser hlack,
      answerTo_search hid hroot huser hlack, ← h.filterQueue f]
    cases hq : f.queue s.toTables with
    | error e => exact iff_of_true rfl fun q _ hq' ↦ nomatch hq'
    | ok found =>
      cases found with
      | none => exact iff_of_true rfl fun q _ hq' ↦ nomatch hq'
      | some q =>
        dsimp only
        rw [h.foundAnswer_iff]
        constructor
        · intro hcond q' _ hq'
          obtain rfl := Option.some.inj (ok.inj hq')
          exact hcond
        · exact fun hcond ↦ hcond q hid rfl
  · refine iff_of_true (h.answerTo_jobid_eq hids hids' hid hroot huser hlack) fun q hzero ↦ ?_
    exact absurd hzero hid

end Answers

/-! ### Two states that can be told apart -/

namespace Sample

/-- A user who may see their own jobs only. -/
def reader : Client := { uid := 5, user := some { permissions := 0, groupList := [] } }

/-- A job of the user with this number. -/
def addJobOf (uid : ℕ) : Event :=
  .client root (.addJob { queue := some "q".toList, uid, argv := ["x".toList] })

/-- A test of `SameFor`, for states with the same resources. -/
abbrev sameFor (uid : ℕ) (s s' : Server) : Prop :=
  s.config = s'.config ∧ s.readonly = s'.readonly ∧
    (s.queueTable.rows.map (fun r ↦ (r.1, r.2.shown)) =
      s'.queueTable.rows.map fun r ↦ (r.1, r.2.shown)) ∧
    s.resTable = s'.resTable ∧ s.jobsOf uid = s'.jobsOf uid

theorem sameFor_iff {s s' : Server} (h : sameFor uid s s') : SameFor uid s s' :=
  ⟨h.1, h.2.1, h.2.2.1, fun b ↦ by rw [h.2.2.2.1], h.2.2.2.2⟩

end Sample

/-- A job of user 7 gets a tag without a value, and user 5 asks for jobs by this tag: the daemon
compares the missing value, although user 5 has no job at all. -/
theorem exists_answerTo_ne : ∃ s s' f, LoadRuns (fun _ _ ↦ true) config hosts s ∧
    LoadRuns (fun _ _ ↦ true) config hosts s' ∧ SameFor reader.uid s s' ∧
    answerTo Sample.env reader f s ≠ answerTo Sample.env reader f s' := by
  let f : JobFilter := { tags := some [("k".toList, some "v".toList)] }
  obtain ⟨s, hrun, s', hafter, hsame, hne⟩ := exists_runs anyEvent config hosts
    (events [.client root Sample.addQueue, addJobOf 7])
    (fun s ↦ ∃ s' ∈ after (Sample.env, .client root (.setTag 1 "k".toList none)) s,
      sameFor 5 s s' ∧ answerTo Sample.env reader f s ≠ answerTo Sample.env reader f s')
    (by decide +kernel)
  have hrun' : Runs anyEvent config hosts s' := .tail hrun rfl (step_of_after hafter)
  exact ⟨s, s', f, .of_runs hrun, .of_runs hrun', sameFor_iff hsame, hne⟩

/-- A user with one job asks for all jobs, before and after another user adds one. -/
theorem answerTo_eq_iff_added : ∃ s s', LoadRuns (fun _ _ ↦ true) config hosts s ∧
    LoadRuns (fun _ _ ↦ true) config hosts s' ∧ s.jobTable.next = 1 ∧
    s'.jobTable.next = 2 ∧ SameFor reader.uid s s' ∧
    answerTo Sample.env reader {} s = answerTo Sample.env reader {} s' := by
  obtain ⟨s, hrun, hone, s', hafter, htwo, hsame⟩ := exists_runs anyEvent config hosts
    (events [.client root Sample.addQueue, addJobOf 5])
    (fun s ↦ s.jobTable.next = 1 ∧ ∃ s' ∈ after (Sample.env, addJobOf 7) s,
      s'.jobTable.next = 2 ∧ sameFor 5 s s') (by decide +kernel)
  have hload : LoadRuns (fun _ _ ↦ true) config hosts s := .of_runs hrun
  have hrun' : Runs anyEvent config hosts s' := .tail hrun rfl (step_of_after hafter)
  have hload' : LoadRuns (fun _ _ ↦ true) config hosts s' := .of_runs hrun'
  have hsame := sameFor_iff hsame
  -- a request without filters faults on no job
  have hnone (t : Server) (q : Option Addr) : ¬ t.OthersFault Sample.env reader {} q := by
    rintro ⟨a, j, -, -, hfault⟩
    cases hdel : j.internalState.deleted <;>
      simp [JobFilter.Faults, JobFilter.accepts, JobFilter.queueMatches, JobFilter.nameMatches,
        tagsMatch, hdel, pure, Except.pure, Except.toOption, bind, Except.bind] at hfault
  refine ⟨s, s', hload, hload', hone, htwo, hsame, ?_⟩
  refine (answerTo_eq_iff (by decide) rfl (by decide) (uniqueIds_of_runs hload)
    (uniqueIds_of_runs hload') hsame).mpr fun q _ _ ↦ .inr ?_
  exact iff_of_false (hnone s q) (hnone s' q)

end Jers
