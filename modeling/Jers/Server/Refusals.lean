import Jers.Server.Answers
import Jers.Server.Disk
import Jers.Server.TagIndex

/-!
# Refused updates

A command that answers with an error has left the tables alone (`runCommand_refused`), but for two.
A request for a new job may have freed deleted jobs, whose files are removed with them. A request
for a new queue that names a deleted one takes the structure of that queue out of the table before
it looks for the host, and frees it if the host is not known. If the queue has a file, it is back
after a restart, and what refers to the queue is left with a freed structure (`refusedClean_iff`).
-/

namespace Jers

open Exec List Option Table Sample

/-! ### What is spared -/

/-- Nothing is added to a table or changed in it, what is not deleted is still there, and what is
gone has no file. -/
structure TableSpared {α : Type} (deleted : α → Bool) (hasFile : α → Prop) (t t' : Table α) :
    Prop where
  kept : ∀ a v, t.get? a = some v → deleted v = false → t'.get? a = some v
  old : ∀ a v, t'.get? a = some v → t.get? a = some v
  gone : ∀ a v, t.get? a = some v → t'.get? a = some v ∨ ¬ hasFile v

/-- A live job is on the queue at `b`, or it is the default queue. -/
def Server.Refers (s : Server) (b : Addr) : Prop :=
  s.defaultQueue = some b ∨
    ∃ a j, s.jobTable.get? a = some j ∧ j.internalState.deleted = false ∧ j.queue = b

/-- The tables with the queues that are referred to, the counters, the lists and the index are
spared: `s`, `ix` before, and `s'`, `ix'` and the files `d'` after. -/
structure Spared (s s' : Server) (ix ix' : Index) (d' : Disk) : Prop where
  jobs : TableSpared (fun j ↦ j.internalState.deleted) (fun j ↦ j.jobid ∈ d'.jobs)
    s.jobTable s'.jobTable
  queues : TableSpared (fun q ↦ q.internalState.deleted) (fun q ↦ q.name ∈ d'.queues.map Prod.fst)
    s.queueTable s'.queueTable
  resources : TableSpared (fun r ↦ r.internalState.deleted) (fun r ↦ r.name ∈ d'.resources)
    s.resTable s'.resTable
  referred : ∀ b, s.Refers b → s'.queueTable.get? b = s.queueTable.get? b
  stats : s'.stats = s.stats
  total : s'.total = s.total
  defaultQueue : s'.defaultQueue = s.defaultQueue
  deferred : s'.deferredList = s.deferredList
  pool : ∀ a j, s.jobTable.get? a = some j → j.internalState.deleted = false →
    (some a ∈ s'.candidatePool ↔ some a ∈ s.candidatePool)
  index : ∀ a j, s.jobTable.get? a = some j → j.internalState.deleted = false →
    ∀ v, a ∈ ix'.bucket v ↔ a ∈ ix.bucket v

theorem TableSpared.refl {α : Type} {deleted : α → Bool} {hasFile : α → Prop} (t : Table α) :
    TableSpared deleted hasFile t t :=
  ⟨fun _ _ h _ ↦ h, fun _ _ h ↦ h, fun _ _ h ↦ .inl h⟩

theorem Spared.refl (s : Server) (ix : Index) (d' : Disk) : Spared s s ix ix d' :=
  ⟨.refl _, .refl _, .refl _, fun _ _ ↦ rfl, rfl, rfl, rfl, rfl, fun _ _ _ _ ↦ .rfl,
    fun _ _ _ _ _ ↦ .rfl⟩

/-- **A refused update changes nothing**: if the client is sent an error, everything is spared. -/
def RefusedClean (env : Env) (c : Client) (cmd : Command) (key : Str) (s : Server) (ix : Index)
    (d : Disk) : Prop :=
  ∀ reply s', runCommand env c cmd s = .ok (reply, s') → reply.succeeded = false →
    ∃ ix', indexCommand key cmd reply s s' ix = .ok ix' ∧
      Spared s s' ix ix' (d.after env.now (.client c cmd) s s')

/-! ### Freed jobs -/

/-- The jobs of a state that was reached by freeing deleted jobs, and what else is as before. -/
structure Thinner (s s' : Server) : Prop where
  jobs : ∀ a, s'.jobTable.get? a = s.jobTable.get? a ∨
    s'.jobTable.get? a = none ∧ ∃ j, s.jobTable.get? a = some j ∧ j.internalState.deleted = true
  queues : s'.queueTable = s.queueTable
  resources : s'.resTable = s.resTable
  stats : s'.stats = s.stats
  total : s'.total = s.total
  defaultQueue : s'.defaultQueue = s.defaultQueue
  deferred : s'.deferredList = s.deferredList
  pool : ∀ a, (s'.jobTable.get? a).isSome → (some a ∈ s'.candidatePool ↔ some a ∈ s.candidatePool)

theorem mem_clearCandidate_of_ne {a b : Addr} (h : b ≠ a) (pool : List (Option Addr)) :
    some b ∈ clearCandidate a pool ↔ some b ∈ pool := by
  induction pool with
  | nil => rfl
  | cons x xs ih =>
    rw [clearCandidate]
    split
    · next hx => simp [hx, h]
    · simp [ih]

variable {s s' : Server}

theorem Freed.thinner (h : Freed s s') : Thinner s s' := by
  induction h with
  | refl => exact ⟨fun _ ↦ .inl rfl, rfl, rfl, rfl, rfl, rfl, rfl, fun _ _ ↦ .rfl⟩
  | tail _ hstep ih =>
    cases hstep with
    | search id =>
      exact ⟨ih.jobs, ih.queues, ih.resources, ih.stats, ih.total, ih.defaultQueue, ih.deferred,
        ih.pool⟩
    | @free a j hj hrem =>
      unfold Server.without
      refine ⟨fun b ↦ ?_, ih.queues, ih.resources, ih.stats, ih.total, ih.defaultQueue, ih.deferred,
        fun b hb ↦ ?_⟩
      · by_cases hb : b = a
        · subst hb
          have hj₀ := (ih.jobs b).resolve_right fun hnone ↦ nomatch hj.symm.trans hnone.1
          exact .inr ⟨by simp [get?_erase], j, hj₀.symm.trans hj, hrem.1⟩
        · rw [get?_erase, if_neg hb]
          exact ih.jobs b
      · have hba : b ≠ a := by
          rintro rfl
          simp [get?_erase] at hb
        rw [get?_erase, if_neg hba] at hb
        rw [mem_clearCandidate_of_ne hba]
        exact ih.pool b hb

/-- A job that has been freed has no file any more. -/
theorem Thinner.spared (h : Thinner s s') (d : Disk) (now : ℤ) (c : Client) (ja : JobAdd) :
    TableSpared (fun j ↦ j.internalState.deleted)
      (fun j ↦ j.jobid ∈ (d.after now (.client c (.addJob ja)) s s').jobs)
      s.jobTable s'.jobTable where
  kept a j hj hlive := by
    rcases h.jobs a with hsame | ⟨-, j', hj', hdel⟩
    · exact hsame.trans hj
    · obtain rfl := mem_unique hj hj'
      exact nomatch hlive.symm.trans hdel
  old a j hj := by
    rcases h.jobs a with hsame | ⟨hnone, -⟩
    · exact hsame.symm.trans hj
    · exact nomatch hnone.symm.trans hj
  gone a j hj := by
    rcases h.jobs a with hsame | ⟨hnone, -⟩
    · exact .inl (hsame.trans hj)
    · refine .inr fun hfile ↦ ?_
      have hfreed : j ∈ freed s.jobTable s'.jobTable :=
        List.mem_map.mpr ⟨(a, j), mem_filter.mpr ⟨mem_rows_iff.mpr hj, by simp [hnone]⟩, rfl⟩
      have hall := List.all_eq_true.mp (mem_filter.mp hfile).2 j hfreed
      simp at hall

/-! ### The index -/

/-- The jobs of `s` have their places in the index. -/
def SameBuckets (s : Server) (ix ix' : Index) : Prop :=
  ∀ a, (s.jobTable.get? a).isSome → ∀ v, a ∈ ix'.bucket v ↔ a ∈ ix.bucket v

/-- Without new jobs the index loses the freed ones. -/
theorem indexMoved_of_old {key : Str} {ix : Index}
    (hold : ∀ a j, s'.jobTable.get? a = some j → s.jobTable.get? a = some j) :
    ∃ ix', indexMoved key s s' ix = .ok ix' ∧ SameBuckets s' ix ix' := by
  have hadded : (s'.jobTable.rows.filter fun r ↦ (s.jobTable.get? r.1).isNone) = [] := by
    rw [filter_eq_nil_iff]
    intro r hr
    simp [hold r.1 r.2 (mem_rows_iff.mp hr)]
  refine ⟨_, by rw [indexMoved, hadded]; rfl, fun a ha v ↦ ?_⟩
  have hother : ∀ b ∈ s.jobTable.addrs.filter fun a ↦ (s'.jobTable.get? a).isNone, a ≠ b := by
    rintro b hb rfl
    exact absurd ha (by simp [(mem_filter.mp hb).2] : ¬ _)
  generalize (s.jobTable.addrs.filter fun a ↦ (s'.jobTable.get? a).isNone) = freed at hother
  induction freed generalizing ix with
  | nil => rfl
  | cons b bs ih =>
    rw [foldl_cons]
    exact (ih fun b' hb' ↦ hother b' (mem_cons_of_mem _ hb')).trans
      (Buckets.mem_bucket_del_of_ne (hother b mem_cons_self) v)

/-- A refused command moves no job that is still there in the index. -/
theorem indexCommand_refused {env : Env} {key : Str} {c : Client} {cmd : Command} {reply : Reply}
    {ix : Index} (hrec : s.recovery = none) (h : runCommand env c cmd s = .ok (reply, s'))
    (hfailed : reply.succeeded = false)
    (hold : ∀ a j, s'.jobTable.get? a = some j → s.jobTable.get? a = some j) :
    ∃ ix', indexCommand key cmd reply s s' ix = .ok ix' ∧ SameBuckets s' ix ix' := by
  have hmoved : ∃ ix', indexMoved key s s' ix = .ok ix' ∧ SameBuckets s' ix ix' :=
    indexMoved_of_old hold
  have hstatus : (∀ mj, cmd ≠ .modJob mj) → reply.status ≠ 0 := by
    intro hmod hzero
    have hsuccess := (runCommand_told hrec hmod h).status.mp hzero
    exact nomatch hsuccess.symm.trans hfailed
  have hsame : ∃ ix', (.ok ix : Except Fault Index) = .ok ix' ∧ SameBuckets s' ix ix' :=
    ⟨ix, rfl, fun _ _ _ ↦ .rfl⟩
  cases cmd with
  | setTag jobid tag value | delTag jobid tag =>
    rw [indexCommand]
    split
    · rw [if_neg (hstatus fun mj ↦ Command.noConfusion)]
      exact hsame
    · exact hsame
  | addJob | modJob | delJob | sigJob | addQueue | modQueue | delQueue | addResource | modResource
    | delResource | query => exact hmoved

/-! ### What a refusal leaves -/

/-- A request for a new queue that frees the structure of a deleted queue of the name, which has a
file or is referred to. -/
def LosesQueue (env : Env) (c : Client) (cmd : Command) (s : Server) (d : Disk) : Prop :=
  ∃ qa b q, cmd = .addQueue qa ∧ (validateUserAction env c permQueue).isSome ∧
    s.readonly = none ∧ qa.Drops env s b q ∧ (q.name ∈ d.queues.map Prod.fst ∨ s.Refers b)

/-- The request is refused, and the queue is gone. -/
theorem runCommand_drops {env : Env} {c c' : Client} {qa : QueueRequest} {b : Addr} {q : Queue}
    (hvalid : validateUserAction env c permQueue = some c') (hreadonly : s.readonly = none)
    (hdrops : qa.Drops env s b q) : ∃ reply, runCommand env c (.addQueue qa) s =
      .ok (reply, { s with queueTable := s.queueTable.erase b }) ∧ reply.succeeded = false := by
  obtain ⟨⟨name, hname, hcheck, hfound⟩, hdel, hagent⟩ := hdrops
  refine ⟨sendError (some c') 1 .invarg "Invalid hostname provided", ?_, rfl⟩
  generalize hs' : ({ s with queueTable := s.queueTable.erase b } : Server) = s'
  have hvalid' : validateUserAction env c (Command.addQueue qa).perm = some c' := hvalid
  rw [runCommand, hvalid']
  dsimp only
  rw [read_bind, hreadonly]
  show commandAddQueue env (some c') qa s = _
  have hcreate : createQueue env (some c') qa (lowercasestring name) (some b) s =
      .ok (sendError (some c') 1 .invarg "Invalid hostname provided", s') :=
    bind_ok_iff.mpr ⟨none, s, read_ok_iff.mpr ⟨hagent, rfl⟩,
      bind_ok_iff.mpr ⟨(), s', update_ok_iff.mpr hs'.symm, rfl⟩⟩
  unfold commandAddQueue
  rw [hname]
  dsimp only
  rw [if_neg (by simp [hcheck])]
  refine bind_ok_iff.mpr ⟨_, s, read_ok_iff.mpr ⟨hfound, rfl⟩, ?_⟩
  dsimp only
  rw [if_neg (by simp [hdel])]
  exact hcreate

/-- For every command, every client, every state outside of recovery with any index and any files: a
refusal spares everything exactly if it does not lose a queue. -/
theorem refusedClean_iff {env : Env} {c : Client} {cmd : Command} (key : Str) {s : Server}
    (ix : Index) (d : Disk) (hrec : s.recovery = none) :
    RefusedClean env c cmd key s ix d ↔ ¬ LosesQueue env c cmd s d := by
  constructor
  · rintro hclean ⟨qa, b, q, rfl, hvalid, hreadonly, hdrops, hlost⟩
    obtain ⟨c', hc'⟩ := isSome_iff_exists.mp hvalid
    obtain ⟨reply, h, hfailed⟩ := runCommand_drops hc' hreadonly hdrops
    obtain ⟨name, -, -, hfound⟩ := hdrops.named
    obtain ⟨ix', -, hspared⟩ := hclean reply _ h hfailed
    have hq := (Table.find?_some hfound).1
    have hgone : (s.queueTable.erase b).get? b = none := by rw [get?_erase, if_pos rfl]
    rcases hlost with hfile | hrefers
    · rcases hspared.queues.gone b q hq with hthere | hnofile
      · exact nomatch hgone.symm.trans hthere
      · exact hnofile hfile
    · exact nomatch hgone.symm.trans ((hspared.referred b hrefers).trans hq)
  · intro hkeeps reply s' h hfailed
    -- the jobs and the other tables first; the index follows from the jobs
    have hall : (∀ a j, s'.jobTable.get? a = some j → s.jobTable.get? a = some j) ∧
        ∀ ix', SameBuckets s' ix ix' →
          Spared s s' ix ix' (d.after env.now (.client c cmd) s s') := by
      rcases runCommand_refused hrec h hfailed with rfl | hspoils
      · refine ⟨fun _ _ hj ↦ hj, fun ix' hix ↦ { Spared.refl s ix _ with index := ?_ }⟩
        exact fun a j hj _ ↦ hix a (by rw [hj]; rfl)
      cases cmd with
      | addJob ja =>
        have hthin := Freed.thinner hspoils
        have hjobs := hthin.spared d env.now c ja
        have hthere : ∀ {a j}, s.jobTable.get? a = some j → j.internalState.deleted = false →
            (s'.jobTable.get? a).isSome := by
          intro a j hj hlive
          rw [hjobs.kept a j hj hlive]
          rfl
        refine ⟨hjobs.old, fun ix' hix ↦ ⟨hjobs, ?_, ?_, fun b _ ↦ by rw [hthin.queues],
          hthin.stats, hthin.total, hthin.defaultQueue, hthin.deferred,
          fun a j hj hlive ↦ hthin.pool a (hthere hj hlive),
          fun a j hj hlive ↦ hix a (hthere hj hlive)⟩⟩
        · rw [hthin.queues]
          exact .refl _
        · rw [hthin.resources]
          exact .refl _
      | addQueue qa =>
        obtain ⟨b, q, hdrops, rfl⟩ := hspoils
        obtain ⟨name, -, -, hfound⟩ := hdrops.named
        have hq := (Table.find?_some hfound).1
        have hkept : ∀ {a}, a ≠ b → (s.queueTable.erase b).get? a = s.queueTable.get? a :=
          fun ha ↦ (get?_erase ..).trans (if_neg ha)
        have hspared : ¬(q.name ∈ d.queues.map Prod.fst ∨ s.Refers b) := by
          intro hlost
          rcases runCommand_checked h with ⟨hsame, -⟩ | ⟨c', hvalid, hreadonly, -⟩
          · have hgone := congrArg (fun t : Server ↦ t.queueTable.get? b) hsame
            simp [get?_erase, hq] at hgone
          · exact hkeeps ⟨qa, b, q, rfl, isSome_iff_exists.mpr ⟨c', hvalid⟩, hreadonly rfl, hdrops,
              hlost⟩
        obtain ⟨hnofile, hfree⟩ := not_or.mp hspared
        refine ⟨fun _ _ hj ↦ hj, fun ix' hix ↦ ⟨.refl _, ⟨fun a v hv hlive ↦ ?_,
          fun a v hv ↦ (get?_erase_some hv).2, fun a v hv ↦ ?_⟩, .refl _, fun a ha ↦ ?_, rfl,
          rfl, rfl, rfl, fun _ _ _ _ ↦ .rfl, fun a j hj _ ↦ hix a (isSome_iff_exists.mpr ⟨j, hj⟩)⟩⟩
        · refine (hkept ?_).trans hv
          rintro rfl
          obtain rfl := mem_unique hv hq
          exact nomatch hlive.symm.trans hdrops.deleted
        · rcases eq_or_ne a b with rfl | hab
          · obtain rfl := mem_unique hv hq
            exact .inr hnofile
          · exact .inl ((hkept hab).trans hv)
        · exact hkept fun hab ↦ hfree (hab ▸ ha)
      | modJob | delJob | sigJob | setTag | delTag | modQueue | delQueue | addResource | modResource
        | delResource | query => exact hspoils.elim
    obtain ⟨hold, hspared⟩ := hall
    obtain ⟨ix', hindex, hmem⟩ := indexCommand_refused hrec h hfailed hold
    exact ⟨ix', hindex, hspared ix' hmem⟩

namespace Sample

/-- A queue is added and saved, and deleted. -/
def deletedQueue : List Event :=
  [.client root addQueue, .saveStart true, .saveFinish false,
  .client root (.delQueue (some "q".toList))]

/-- A request for a queue on a host that is not there. -/
def addQueueNowhere : Command :=
  .addQueue { name := some "q".toList, node := some "nowhere".toList }

end Sample

/-- The queue is out of its table, and its file is still there. -/
theorem not_refusedClean_nowhere : ∃ x, DiskRuns (fun _ _ ↦ true) config hosts x ∧
    ¬ RefusedClean env root addQueueNowhere [] x.server {} x.disk := by
  obtain ⟨x, hrun, r, hr, hfailed, hnone, q, hq, hfile⟩ :=
    exists_diskRuns (fun _ _ ↦ true) (events deletedQueue)
      (fun x ↦ ∃ r ∈ (runCommand env root addQueueNowhere x.server).toOption,
        r.1.succeeded = false ∧ r.2.queueTable.get? 0 = none ∧
        ∃ q ∈ x.server.queueTable.get? 0, q.name ∈ x.disk.queues.map Prod.fst) (by decide +kernel)
  refine ⟨x, hrun, fun hclean ↦ ?_⟩
  obtain ⟨ix', -, hspared⟩ := hclean r.1 r.2 (Except.toOption_eq_some_iff.mp hr) hfailed
  rcases hspared.queues.gone 0 q hq with hthere | hnofile
  · exact nomatch hnone.symm.trans hthere
  · exact hnofile hfile

/-- A refused request for a new job that has freed the deleted job with its id. -/
theorem refusedClean_iff_claimed : ∃ x, DiskRuns (fun _ _ ↦ true) config hosts x ∧
    RefusedClean env root
      (.addJob { jobid := 1, queue := some "q".toList, uid := 7, resources := ["none".toList] }) []
      x.server {} x.disk := by
  obtain ⟨x, hrun, hp⟩ := exists_diskRuns (fun _ _ ↦ true)
    (events [.client root Sample.addQueue, .client root Sample.addJob,
      .saveStart true, .saveFinish false, .client root (.delJob 1)])
    (fun x ↦ x.server.recovery = none) (by decide +kernel)
  refine ⟨x, hrun, (refusedClean_iff [] {} x.disk hp).mpr ?_⟩
  rintro ⟨qa, b, q, hcmd, -⟩
  exact nomatch hcmd

end Jers
