import Jers.Server.Loading
import Jers.Server.Progress
import Jers.Server.StartOnce

/-!
# The deferred list

`server.deferred_list` is to hold the jobs that wait for their defer time, in the order of these
times: `releaseDeferred` stops at the first job whose time has not come. `DeferredExact` says that
it does.

Two jobs are compared by the difference of their times, in 64 bits. The order is kept as long as all
defer times lie in a window in which differences do not overflow (`inWindow`); any such window will
do. The list loses a job when a disconnect takes the deletion flag off a job that was deferred.
-/

namespace Jers

open Exec List Option Table Sample Function

/-! ### Sorted insertion -/

variable {l : List Addr} {a : Addr} {s s' : Server}

theorem insertDeferred_congr {time time' : Addr → ℤ} (ha : time a = time' a)
    (hl : ∀ b ∈ l, time b = time' b) : insertDeferred time a l = insertDeferred time' a l := by
  induction l with
  | nil => rfl
  | cons b l ih =>
    rw [insertDeferred, insertDeferred, ih fun x hx ↦ hl x (mem_cons_of_mem _ hx), ha,
      hl b mem_cons_self]

/-- A sorted list stays sorted if the differences to the new time do not overflow. -/
theorem pairwise_insertDeferred {time : Addr → ℤ}
    (hl : l.Pairwise fun b c ↦ time b ≤ time c) (hfit : ∀ b ∈ l, IsInt64 (time b - time a)) :
    (insertDeferred time a l).Pairwise fun b c ↦ time b ≤ time c := by
  induction l with
  | nil => exact pairwise_singleton _ _
  | cons b l ih =>
    obtain ⟨hb, hsorted⟩ := pairwise_cons.mp hl
    rw [insertDeferred, (hfit b mem_cons_self).bmod_eq]
    split
    · next hle =>
      have hab : time a ≤ time b := by omega
      refine pairwise_cons.mpr ⟨fun c hc ↦ ?_, hl⟩
      rcases mem_cons.mp hc with rfl | hc
      · exact hab
      · exact hab.trans (hb c hc)
    · next hlt =>
      refine pairwise_cons.mpr ⟨fun c hc ↦ ?_, ih hsorted fun x hx ↦ hfit x (mem_cons_of_mem _ hx)⟩
      rcases mem_insertDeferred.mp hc with rfl | hc
      · omega
      · exact hb c hc

/-! ### The list -/

/-- The job waits for its defer time. -/
def Job.Waits (j : Job) : Prop := j.internalState.deleted = false ∧ j.deferTime ≠ 0

instance (j : Job) : Decidable j.Waits := inferInstanceAs (Decidable (_ ∧ _))

/-- The defer time of the job at an address. -/
def Core.dueAt (c : Core) (a : Addr) : ℤ := ((c.jobTable.get? a).map Job.deferTime).getD 0

theorem Core.dueAt_eq {c : Core} {j : Job} (h : c.jobTable.get? a = some j) :
    c.dueAt a = j.deferTime := by
  rw [dueAt, h]
  rfl

/-- The list holds the jobs that wait, each once, in the order of their times. -/
structure DeferredExact (c : Core) : Prop where
  nodup : c.deferredList.Nodup
  mem : ∀ a, a ∈ c.deferredList ↔ ∃ j, c.jobTable.get? a = some j ∧ j.Waits
  sorted : c.deferredList.Pairwise fun a b ↦ c.dueAt a ≤ c.dueAt b

/-- A list that differs from the deferred list at the job at `a`, which is now `j'`. -/
structure Relisted (c : Core) (a : Addr) (j' : Job) (l : List Addr) : Prop where
  nodup : l.Nodup
  others : ∀ b, b ≠ a → (b ∈ l ↔ b ∈ c.deferredList)
  self : a ∈ l ↔ j'.Waits
  sorted : l.Pairwise fun b b' ↦
    Function.update c.dueAt a j'.deferTime b ≤ Function.update c.dueAt a j'.deferTime b'

section Relisted

variable {c c' : Core} {a : Addr} {j j' : Job}

/-- The times of the other jobs are not touched. -/
theorem pairwise_update (ha : a ∉ l) (t : ℤ) (hl : l.Pairwise fun b b' ↦ c.dueAt b ≤ c.dueAt b') :
    l.Pairwise fun b b' ↦ Function.update c.dueAt a t b ≤ Function.update c.dueAt a t b' := by
  refine hl.imp_of_mem fun hb hb' hle ↦ ?_
  rwa [update_of_ne (ne_of_mem_of_not_mem hb ha), update_of_ne (ne_of_mem_of_not_mem hb' ha)]

/-- A job that waits as before. -/
theorem Relisted.keep (h : DeferredExact c) (hj : c.jobTable.get? a = some j)
    (hwaits : j'.Waits ↔ j.Waits) (htime : j'.deferTime = j.deferTime) :
    Relisted c a j' c.deferredList where
  nodup := h.nodup
  others _ _ := Iff.rfl
  self := by
    rw [hwaits, h.mem a, hj]
    exact ⟨fun ⟨_, hi, hw⟩ ↦ some.inj hi ▸ hw, fun hw ↦ ⟨j, rfl, hw⟩⟩
  sorted := by
    rw [htime, ← c.dueAt_eq hj, update_eq_self]
    exact h.sorted

theorem not_mem_erase_self (h : DeferredExact c) : a ∉ c.deferredList.erase a :=
  fun hmem ↦ (List.Nodup.mem_erase_iff h.nodup).mp hmem |>.1 rfl

/-- A job that does not wait any more. -/
theorem Relisted.remove (h : DeferredExact c) (a : Addr) (hwaits : ¬ j'.Waits) :
    Relisted c a j' (c.deferredList.erase a) where
  nodup := h.nodup.erase a
  others _ hb := mem_erase_of_ne hb
  self := iff_of_false (not_mem_erase_self h) hwaits
  sorted := pairwise_update (not_mem_erase_self h) _ (h.sorted.sublist erase_sublist)

/-- A job that waits for a new time. -/
theorem Relisted.insert (h : DeferredExact c) {due : Addr → ℤ}
    (hdue : DeferTimes c a j'.deferTime due) (hwaits : j'.Waits)
    (hfit : ∀ b ∈ c.deferredList, IsInt64 (c.dueAt b - j'.deferTime)) :
    Relisted c a j' (insertDeferred due a (c.deferredList.erase a)) := by
  have hnot := not_mem_erase_self (a := a) h
  have hsub {b : Addr} (hb : b ∈ c.deferredList.erase a) :
      b ∈ c.deferredList ∧ b ≠ a := ⟨mem_of_mem_erase hb, ne_of_mem_of_not_mem hb hnot⟩
  have hsame : insertDeferred due a (c.deferredList.erase a) =
      insertDeferred (update c.dueAt a j'.deferTime) a (c.deferredList.erase a) := by
    refine insertDeferred_congr (by rw [hdue.1, update_self]) fun b hb ↦ ?_
    obtain ⟨i, hi, -⟩ := (h.mem b).mp (hsub hb).1
    rw [update_of_ne (hsub hb).2, hdue.2 b i (hsub hb).2 hi, c.dueAt_eq hi]
  refine ⟨nodup_insertDeferred (h.nodup.erase a) hnot, fun b hb ↦ ?_, ?_, ?_⟩
  · rw [mem_insertDeferred, or_iff_right hb, mem_erase_of_ne hb]
  · exact iff_of_true (mem_insertDeferred.mpr (.inl rfl)) hwaits
  · rw [hsame]
    refine pairwise_insertDeferred
      (pairwise_update hnot _ (h.sorted.sublist erase_sublist)) fun b hb ↦ ?_
    rw [update_of_ne (hsub hb).2, update_self]
    exact hfit b (hsub hb).1

/-- The list after a job has been taken off it, or was not on it. -/
theorem undefer_eq_erase (h : DeferredExact c) (hj : c.jobTable.get? a = some j) :
    undefer a j.deferTime c.deferredList = c.deferredList.erase a := by
  rw [undefer]
  split
  · rfl
  · next htime =>
    refine (erase_of_not_mem fun hmem ↦ ?_).symm
    obtain ⟨i, hi, hw⟩ := (h.mem a).mp hmem
    obtain rfl := mem_unique hi hj
    exact htime hw.2

/-- **A shift keeps the list exact** if the list follows the job. -/
theorem DeferredExact.shift {k : Cost} (hm : Shift a j j' k c c')
    (hmem : ∀ b, b ≠ a → (b ∈ c.deferredList ↔ ∃ i, c.jobTable.get? b = some i ∧ i.Waits))
    (hl : Relisted c a j' (k.deferred c.deferredList)) : DeferredExact c' := by
  have hdue : c'.dueAt = update c.dueAt a j'.deferTime := by
    funext b
    by_cases hb : b = a
    · rw [hb, update_self, Core.dueAt_eq hm.found']
    · rw [update_of_ne hb, Core.dueAt, hm.get?_of_ne hb]
      rfl
  refine ⟨hm.deferred ▸ hl.nodup, fun b ↦ ?_, ?_⟩
  · rw [hm.deferred]
    by_cases hb : b = a
    · rw [hb, hl.self, hm.found']
      exact ⟨fun hw ↦ ⟨j', rfl, hw⟩, fun ⟨_, hi, hw⟩ ↦ some.inj hi ▸ hw⟩
    · rw [hl.others b hb, hmem b hb, hm.get?_of_ne hb]
  · rw [hm.deferred, hdue]
    exact hl.sorted

end Relisted

/-! ### The condition -/

/-- The time is none, or lies in the window of width 2^63 that begins at `w`. -/
def InWindow (w t : ℤ) : Prop := t = 0 ∨ w ≤ t ∧ t < w + 2 ^ 63

instance (w t : ℤ) : Decidable (InWindow w t) := inferInstanceAs (Decidable (_ ∨ _))

/-- The defer times that are sent lie in the window, and a disconnect finds no deleted job that was
deferred and that it would make unknown. -/
def timesKept (w : ℤ) : Condition
  | _, (_, .client _ (.addJob ja)) => InWindow w ja.deferTime
  | _, (_, .client _ (.modJob mj)) => mj.deferTime = unsetTimeT || InWindow w mj.deferTime
  | s, (_, .disconnect g) => s.jobTable.all fun _ j ↦
    !(j.internalState.deleted && j.deferTime != 0 &&
      (j.state = .running || j.internalState.started) &&
      (s.queueTable.get? j.queue).any fun q ↦ q.agent = some g)
  | _, _ => true

/-- The invariant: the list is exact, and the times lie in the window. -/
structure DeferInv (w : ℤ) (c : Core) : Prop where
  exact : DeferredExact c
  times : ∀ a j, c.jobTable.get? a = some j → InWindow w j.deferTime

section Moves

variable {w : ℤ} {env : Env} {s : Server} {e : Event} {c c' : Core} {a : Addr} {j j' : Job}
  {k : Cost}

/-- Differences within the window do not overflow. -/
theorem DeferInv.fits (h : DeferInv w c) {t : ℤ} (ht : InWindow w t) (hne : t ≠ 0) :
    ∀ b ∈ c.deferredList, IsInt64 (c.dueAt b - t) := by
  intro b hb
  obtain ⟨i, hi, hw⟩ := (h.exact.mem b).mp hb
  rw [c.dueAt_eq hi]
  have hi := (h.times b i hi).resolve_left hw.2
  have ht := ht.resolve_left hne
  constructor <;> omega

/-- **The list follows the job that an event shifts.** -/
theorem Allowed.relisted (hgood : timesKept w s (env, e) = true)
    (h : Allowed env s e c (.shift a j j' k)) (hc : DeferInv w c)
    (hj : c.jobTable.get? a = some j) : Relisted c a j' (k.deferred c.deferredList) ∧
    InWindow w j'.deferTime := by
  have hx := hc.exact
  have htime := hc.times a j hj
  cases h with
  | job _ hm =>
    cases hm with
    | @modify mj _ _ q new _ f _ hdel _ _ _ _ _ hdef hf =>
      have hset : mj.deferTime = unsetTimeT ∨ InWindow w mj.deferTime := by
        simpa [timesKept] using hgood
      have hnew : mj.deferTime ≠ unsetTimeT → (j.modified mj q new).deferTime = mj.deferTime :=
        fun hne ↦ if_pos hne
      have hdel' : (j.modified mj q new).internalState.deleted = false := hdel
      rw [hdef, comp_apply, JobMod.undefers]
      rcases hf with ⟨hzero, rfl⟩ | ⟨hne, hne', due, hdue, rfl⟩
      · by_cases hunset : mj.deferTime = unsetTimeT
        · have hsame : (j.modified mj q new).deferTime = j.deferTime := if_neg (not_not.mpr hunset)
          rw [if_neg (not_not.mpr hunset), hsame]
          refine ⟨.keep hx hj ?_ hsame, htime⟩
          rw [Job.Waits, Job.Waits, hsame, hdel', hdel]
        · rw [if_pos hunset, undefer_eq_erase hx hj, hnew hunset]
          refine ⟨.remove hx a fun hw ↦ hw.2 ?_, hset.resolve_left hunset⟩
          exact (hnew hunset).trans (hzero.resolve_left hunset)
      · have hwindow := hset.resolve_left hne
        rw [if_pos hne, undefer_eq_erase hx hj]
        rw [← hnew hne] at hdue hwindow hne'
        exact ⟨.insert hx hdue ⟨hdel', hne'⟩ (hc.fits hwindow hne'), hwindow⟩
    | delete =>
      dsimp only
      rw [undefer_eq_erase hx hj]
      exact ⟨.remove hx a fun hw ↦ absurd hw.1 nofun, htime⟩
    | kill _ _ _ _ _ hdef =>
      rw [hdef]
      exact ⟨.keep hx hj Iff.rfl rfl, htime⟩
    | setTag | delTag => exact ⟨.keep hx hj Iff.rfl rfl, htime⟩
  | queue _ hm | res _ hm => cases hm
  | agent hm =>
    cases hm with
    | started => exact ⟨.keep hx hj Iff.rfl rfl, htime⟩
    | completed _ _ _ hdef =>
      rw [hdef]
      exact ⟨.keep hx hj Iff.rfl rfl, htime⟩
    | @recon _ i =>
      have hsame := j.reconciled_deferTime i
      refine ⟨.keep hx hj ?_ hsame, hsame ▸ htime⟩
      rw [Job.Waits, Job.Waits, hsame, Job.reconciled_internalState]
  | @lose g _ _ _ q hget hq hagent hrun =>
    refine ⟨.keep hx hj ?_ rfl, htime⟩
    -- the flags are all reset, so that a deleted job must not have had a time
    rw [timesKept] at hgood
    have hno := all_iff.mp hgood a j hget
    have hno : j.internalState.deleted = true → j.deferTime = 0 := by
      intro hdel
      by_contra hne
      have hrun :
        (decide (j.state = .running) || j.internalState.started) = true := by simpa using hrun
      simp [hdel, hne, hrun, hq, hagent] at hno
    cases hdel : j.internalState.deleted with
    | false => exact ⟨fun hw ↦ ⟨hdel, hw.2⟩, fun hw ↦ ⟨rfl, hw.2⟩⟩
    | true =>
      refine iff_of_false (fun hw ↦ hw.2 (hno hdel)) fun hw ↦ ?_
      exact nomatch hdel.symm.trans hw.1
  | idle | start | captureJob | reapJob => exact ⟨.keep hx hj Iff.rfl rfl, htime⟩
  | release => exact ⟨.remove hx a fun hw ↦ hw.2 rfl, .inl rfl⟩
  | expire =>
    dsimp only
    rw [undefer_eq_erase hx hj]
    exact ⟨.remove hx a fun hw ↦ absurd hw.1 nofun, htime⟩

/-- A new job is on the list if it waits. -/
theorem DeferInv.add (h : DeferInv w c) (hm : Move (.addJob j j' k) c c') {t : ℤ}
    (hj' : j'.internalState.deleted = false ∧ j'.deferTime = t) (ht : InWindow w t)
    (hf : t = 0 ∧ k.deferred = id ∨ t ≠ 0 ∧ ∃ due, DeferTimes c c.jobTable.next t due ∧
      k.deferred = insertDeferred due c.jobTable.next) : DeferInv w c' := by
  have hm := hm.added
  have hold {b : Addr} (hb : b ≠ c.jobTable.next) :
    (c.jobTable.push j).get? b = c.jobTable.get? b :=
    (get?_push _ _ _).trans (if_neg hb)
  have hnone : c.jobTable.next ∉ c.deferredList := by
    intro hmem
    obtain ⟨i, hi, -⟩ := (h.exact.mem _).mp hmem
    exact lt_irrefl _ (lt_next hi)
  have hrel : Relisted c c.jobTable.next j' (k.deferred c.deferredList) := by
    rcases hf with ⟨hzero, hk⟩ | ⟨hne, due, hdue, hk⟩
    · have hkeep : Relisted c c.jobTable.next j' (c.deferredList.erase c.jobTable.next) :=
        .remove h.exact _ fun hw ↦ hw.2 (hj'.2.trans hzero)
      rw [erase_of_not_mem hnone] at hkeep
      rw [hk]
      exact hkeep
    · have hins : Relisted c c.jobTable.next j'
          (insertDeferred due c.jobTable.next (c.deferredList.erase c.jobTable.next)) :=
        .insert h.exact (hj'.2 ▸ hdue) ⟨hj'.1, hj'.2.trans_ne hne⟩ (hj'.2 ▸ h.fits ht hne)
      rw [erase_of_not_mem hnone] at hins
      rw [hk]
      exact hins
  refine ⟨.shift hm (fun b hb ↦ ?_) ⟨hrel.nodup, hrel.others, hrel.self, ?_⟩, fun b i hi ↦ ?_⟩
  · have hget : (c.jobTable.push j).get? b = c.jobTable.get? b := hold hb
    rw [hget]
    exact h.exact.mem b
  · have hdue : update (Core.dueAt { c with jobTable := c.jobTable.push j })
        c.jobTable.next j'.deferTime = update c.dueAt c.jobTable.next j'.deferTime := by
      funext b
      by_cases hb : b = c.jobTable.next
      · rw [hb, update_self, update_self]
      · rw [update_of_ne hb, update_of_ne hb, Core.dueAt, Core.dueAt]
        exact congrArg (fun x ↦ (Option.map Job.deferTime x).getD 0) (hold hb)
    rw [hdue]
    exact hrel.sorted
  · obtain ⟨rfl, rfl⟩ | ⟨hb, hi⟩ := hm.get?_cases hi
    · exact hj'.2 ▸ ht
    · exact h.times b i ((hold hb).symm.trans hi)

/-- **A move keeps the list exact** under the condition. -/
theorem DeferInv.move {l : Label} (hgood : timesKept w s (env, e) = true) (h : DeferInv w c)
    (hl : Allowed env s e c l) (hm : Move l c c') : DeferInv w c' := by
  rcases hm.jobs_cases with hon | ⟨a, j, j', k, rfl, hm⟩ | ⟨j, j', k, rfl, hm⟩ |
    ⟨a, j, rfl, hj, rfl⟩
  · obtain ⟨hjobs, -, hlist, -⟩ := hm.same_jobs hon
    have hdue : c'.dueAt = c.dueAt := by
      funext b
      rw [Core.dueAt, Core.dueAt, hjobs]
    refine ⟨⟨hlist ▸ h.exact.nodup, ?_, ?_⟩, ?_⟩
    · rw [hlist, hjobs]
      exact h.exact.mem
    · rw [hlist, hdue]
      exact h.exact.sorted
    · rw [hjobs]
      exact h.times
  · obtain ⟨hrel, htime⟩ := hl.relisted hgood h hm.found
    refine ⟨.shift hm (fun b _ ↦ h.exact.mem b) hrel, fun b i hi ↦ ?_⟩
    obtain ⟨rfl, rfl⟩ | ⟨-, hi⟩ := hm.get?_cases hi
    · exact htime
    · exact h.times b i hi
  · obtain ⟨_, _, rfl, hsub⟩ := hl.submitted
    cases hsub with
    | @submit ja _ _ _ _ _ _ _ _ _ _ _ _ _ _ hf =>
      have hwindow : InWindow w ja.deferTime := by simpa [timesKept] using hgood
      exact h.add hm ⟨rfl, rfl⟩ hwindow hf
  · have hnot : a ∉ c.deferredList := by
      intro hmem
      obtain ⟨i, hi, hw⟩ := (h.exact.mem a).mp hmem
      obtain rfl := mem_unique hi hj
      exact nomatch hl.removed.2.1.1.symm.trans hw.1
    have hother {b : Addr} (hb : b ≠ a) : (c.jobTable.erase a).get? b = c.jobTable.get? b :=
      (get?_erase _ _ _).trans (if_neg hb)
    refine ⟨⟨h.exact.nodup, fun b ↦ ?_, h.exact.sorted.imp_of_mem fun hb hb' hle ↦ ?_⟩,
      fun b i hi ↦ h.times b i (get?_erase_some hi).2⟩
    · by_cases hb : b = a
      · subst hb
        refine iff_of_false hnot ?_
        rintro ⟨i, hi, -⟩
        exact (get?_erase_some hi).1 rfl
      · have hget : (c.jobTable.erase a).get? b = c.jobTable.get? b := hother hb
        rw [hget]
        exact h.exact.mem b
    · have hb := hother (ne_of_mem_of_not_mem hb hnot)
      have hb' := hother (ne_of_mem_of_not_mem hb' hnot)
      simp only [Core.dueAt] at hle ⊢
      rwa [hb, hb']

end Moves

/-! ### The release -/

section

variable {s s' : Server} {now : ℤ}

theorem Job.Linked.released {c : Core} {j : Job} (h : j.Linked c) : j.released.Linked c :=
  ⟨h.queue, h.counted, h.resources⟩

/-- What the release of a job keeps. -/
theorem DeferredExact.release {a : Addr} {j : Job} {c c' : Core} (h : DeferredExact c)
    (hm : Shift a j j.released { deferred := fun l ↦ l.erase a } c c') : DeferredExact c' :=
  .shift hm (fun b _ ↦ h.mem b) (.remove h a fun hw ↦ hw.2 rfl)

/-- The pointers that the release of a job follows lead to objects. -/
theorem releaseFrom_succeeds {k : ℕ} {as : List Addr} (hlist : s.deferredList = as)
    (hx : DeferredExact s.toCore) (hl : Linked s.toCore) : Succeeds (releaseFrom now k as) s := by
  induction as generalizing k s with
  | nil => exact .pure k s
  | cons a as ih =>
    obtain ⟨j, hj, -⟩ := (hx.mem a).mp (by rw [hlist]; exact mem_cons_self)
    refine getJob_bind_succeeds hj ?_
    split
    · exact .pure k s
    refine .bind (modifyJob_succeeds (hj ▸ rfl) _) fun hmod ↦ ?_
    refine .bind ?_ fun hchange ↦ .bind (.update _ _) fun hremove ↦ ?_
    · have hedit := (Shift.refl hj).edits hmod rfl rfl
      have hq := hedit.keepsObjects.queues _ (hl.jobs a j hj).queue
      exact changeJobState_succeeds (q := none) hedit.found' hq hq false
    · have hmove := release_shift hj hmod hchange hremove
      exact ih (hmove.deferred.trans (hlist ▸ erase_cons_head a as)) (hx.release hmove)
        (hl.shift hmove (hl.jobs a j hj).released)

/-- The jobs of the list whose time has come are pending, and all other jobs are as they were. -/
def Releases (now : ℤ) (c c' : Core) : Prop :=
  ∀ a, c'.jobTable.get? a = if a ∈ c.deferredList ∧ c.dueAt a ≤ now then
    (c.jobTable.get? a).map Job.released else c.jobTable.get? a

theorem releaseFrom_releases {k m : ℕ} {as : List Addr} (hlist : s.deferredList = as)
    (hx : DeferredExact s.toCore) (h : releaseFrom now k as s = .ok (m, s')) :
    Releases now s.toCore s'.toCore := by
  induction as generalizing k s with
  | nil =>
    obtain rfl := (pure_ok_iff.mp h).2
    intro b
    rw [hlist, if_neg fun hb ↦ absurd hb.1 not_mem_nil]
  | cons a as ih =>
    obtain ⟨j, hj, ⟨hlt, rfl⟩ | ⟨hle, t, hmove, hrest⟩⟩ := releaseFrom_cons h
    · -- the list is sorted, so that no later job is due
      intro b
      refine (if_neg fun hb ↦ ?_).symm
      have hsorted := hx.sorted
      rw [hlist] at hsorted hb
      have hdue : s.dueAt a ≤ s.dueAt b := by
        rcases mem_cons.mp hb.1 with rfl | hmem
        · exact le_rfl
        · exact (pairwise_cons.mp hsorted).1 b hmem
      rw [Core.dueAt_eq hj] at hdue
      have := hb.2
      omega
    · have hlist' : t.deferredList = as :=
        hmove.deferred.trans (hlist ▸ erase_cons_head a as)
      have hnodup := hx.nodup
      rw [hlist] at hnodup
      intro b
      rw [ih hlist' (hx.release hmove) hrest b, hlist', hlist]
      by_cases hb : b = a
      · subst hb
        rw [if_neg fun hb ↦ (nodup_cons.mp hnodup).1 hb.1,
          if_pos ⟨mem_cons_self, (Core.dueAt_eq hj).le.trans hle⟩, hmove.found', hj]
        rfl
      · have hdue : t.dueAt b = s.dueAt b := by
          rw [Core.dueAt, Core.dueAt, hmove.get?_of_ne hb]
        simp only [hdue, hmove.get?_of_ne hb, mem_cons, or_iff_right hb]

/-- **`releaseDeferred` releases the jobs that are due and no others.** -/
theorem releaseDeferred_releases {env : Env} (hx : DeferredExact s.toCore) (hl : Linked s.toCore) :
    ∃ s', releaseDeferred env s = .ok ((), s') ∧ Releases env.now s.toCore s'.toCore := by
  obtain ⟨m, t, hrelease⟩ : Succeeds (releaseFrom env.now 0 s.deferredList) s :=
    releaseFrom_succeeds rfl hx hl
  have hjobs := releaseFrom_releases rfl hx hrelease
  by_cases hm : m ≠ 0
  · exact ⟨_, bind_ok_iff.mpr ⟨_, _, read_ok_iff.mpr ⟨rfl, rfl⟩, bind_ok_iff.mpr ⟨m, t, hrelease,
      whenever_ok_iff.mpr (.inl ⟨hm, update_ok_iff.mpr rfl⟩)⟩⟩, hjobs⟩
  · exact ⟨t, bind_ok_iff.mpr ⟨_, _, read_ok_iff.mpr ⟨rfl, rfl⟩, bind_ok_iff.mpr ⟨m, t, hrelease,
      whenever_ok_iff.mpr (.inr ⟨hm, rfl⟩)⟩⟩, hjobs⟩

end

/-! ### Runs -/

/-- The list is exact, and a release at any time changes the jobs that are due and no others. -/
def DeferredRight (s : Server) : Prop :=
  DeferredExact s.toCore ∧ ∀ env, ∃ s', handle env .releaseDeferred s = .ok ((), s') ∧
    Releases env.now s.toCore s'.toCore

/-- The times of loaded jobs lie in the window as well, and no object is freed that a job needs. -/
def deferKept (w : ℤ) (s : Server) : LoadEvent → Bool
  | .load fileName text => (stateLoadJob s.toTables fileName text).toOption.all fun j ↦
      InWindow w j.deferTime
  | .event env e => timesKept w s (env, e) && refsKept s (env, e)

/-- **A load keeps the list exact** under the condition. -/
theorem DeferInv.load {w : ℤ} {fileName text : Str} (h : DeferInv w s.toCore)
    (hgood : deferKept w s (.load fileName text) = true)
    (hstep : LoadStep s (.load fileName text) s') : DeferInv w s'.toCore := by
  obtain ⟨j, f, hload, -, hflags, hm, hf⟩ := hstep.load
  have hwindow : InWindow w j.deferTime := by simpa [deferKept, hload, Except.toOption] using hgood
  exact h.add hm ⟨congrArg Flags.deleted hflags, rfl⟩ hwindow hf

/-- What a daemon with loads keeps. -/
theorem LoadStep.deferInv {w : ℤ} {e : LoadEvent}
    (h : s.recovery = none ∧ DeferInv w s.toCore ∧ Linked s.toCore)
    (hgood : deferKept w s e = true) (hstep : LoadStep s e s') :
    s'.recovery = none ∧ DeferInv w s'.toCore ∧ Linked s'.toCore := by
  obtain ⟨hrec, hinv, hlinked⟩ := h
  cases e with
  | load fileName text =>
    obtain ⟨j, f, -, hj, -, hm, -⟩ := hstep.load
    exact ⟨hm.frame.recovery.trans hrec, hinv.load hgood hstep,
      hlinked.add hm ⟨hj.queue, hj.counted, hj.resources⟩⟩
  | event env e =>
    obtain ⟨htimes, hrefs⟩ := (Bool.and_eq_true _ _).mp hgood
    refine ⟨handle_recovery hrec hstep, (handle_path hrec hstep).invariant
      (I := fun c ↦ DeferInv w c ∧ Linked c) (fun hc hl hm ↦ ?_) ⟨hinv, hlinked⟩⟩
    exact ⟨hc.1.move htimes hl hm, hc.2.move hrefs hl hm⟩

/-- **The deferred list is exact in every run** with defer times in one window. -/
theorem deferredRight_of_runs {w : ℤ} {config : Config} {hosts : List Str} {s : Server}
    (h : LoadRuns (deferKept w) config hosts s) : DeferredRight s := by
  have hinv : s.recovery = none ∧ DeferInv w s.toCore ∧ Linked s.toCore := by
    refine h.invariant (I := fun t ↦ t.recovery = none ∧ DeferInv w t.toCore ∧ Linked t.toCore)
      (fun ht hgood hstep ↦ hstep.deferInv ht hgood)
      ⟨rfl, ⟨⟨nodup_nil, fun a ↦ ?_, List.Pairwise.nil⟩, ?_⟩, ?_⟩
    · exact iff_of_false not_mem_nil fun ⟨_, hj, _⟩ ↦ nomatch hj
    · exact fun a j hj ↦ nomatch hj
    · exact ⟨fun a j hj ↦ absurd hj nofun, fun b hb ↦ nomatch hb⟩
  exact ⟨hinv.2.1.exact, fun env ↦ releaseDeferred_releases hinv.2.1.exact hinv.2.2⟩

namespace Sample

/-- A job with a defer time. -/
def deferJob (t : ℤ) : Event :=
  .client root
  (.addJob { plainJob with deferTime := t })

end Sample

/-- A job that is deferred to the last second of all and then a job whose time has passed: the
difference of the times overflows, the second job comes after the first, and is not released. -/
theorem not_deferredRight_overflow : ∃ s, LoadRuns (fun _ _ ↦ true) config hosts s ∧
    ¬ DeferredExact s.toCore ∧ ¬ DeferredRight s := by
  obtain ⟨s, hrun, hlist, hlt⟩ := exists_runs anyEvent config hosts
    (events [.client root Sample.addQueue, deferJob (2 ^ 63 - 1), deferJob (-2)])
    (fun s ↦ s.deferredList = [0, 1] ∧ s.dueAt 1 < s.dueAt 0) (by decide +kernel)
  have hnot : ¬ DeferredExact s.toCore := by
    intro h
    have hsorted := h.sorted
    rw [hlist] at hsorted
    exact absurd ((pairwise_cons.mp hsorted).1 1 mem_cons_self) (not_le.mpr hlt)
  exact ⟨s, .of_runs hrun, hnot, fun h ↦ hnot h.1⟩

/-- Two jobs that are deferred, the later one first. -/
theorem deferredRight_of_runs_two : ∃ s, LoadRuns (deferKept 0) config hosts s ∧
    s.deferredList = [1, 0] ∧ DeferredRight s := by
  obtain ⟨s, hrun, hp⟩ := exists_runs (fun s e ↦ deferKept 0 s (.event e.1 e.2)) config
    hosts (events [.client root Sample.addQueue, deferJob 3000, deferJob 2000])
    (fun s ↦ s.deferredList = [1, 0]) (by decide +kernel)
  exact ⟨s, .of_runs hrun, hp, deferredRight_of_runs (.of_runs hrun)⟩

end Jers
