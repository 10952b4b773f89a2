import Jers.Server.Pool
import Jers.Server.QueueLimits

/-!
# The order of dispatch

Jobs are to be started by the priority of their queue, then by their own priority, then by their id.
The candidate pool is sorted when it is made. It is made anew when a job comes to wait, but a change
of a priority does not ask for it: `JOB_MOD` and `QUEUE_MOD` write the new value, and the pool stays
in the old order until some other change. Besides, `__comp` subtracts in 32 bits, so that priorities
far apart compare the wrong way round.

`orderKept` excludes these steps. In the runs that are left the pool is sorted by the current
priorities in every state (`PoolSorted`), and a job that is started before one that ranks higher
finds that one held up for a reason of its own (`DispatchOrdered`).
-/

namespace Jers

open Exec List Option Table Sample

/-! ### Ranks -/

/-- The order in which jobs are to be started. -/
def Rank.Before (a b : Rank) : Prop :=
  b.queuePriority < a.queuePriority ∨ a.queuePriority = b.queuePriority ∧
    (b.priority < a.priority ∨ a.priority = b.priority ∧ a.jobid < b.jobid)

instance (a b : Rank) : Decidable (a.Before b) := inferInstanceAs (Decidable (_ ∨ _ ∧ (_ ∨ _ ∧ _)))

/-- The differences of two ranks are in the range of an `int`. -/
def Rank.Near (a b : Rank) : Prop :=
  IsInt32 (b.queuePriority - a.queuePriority) ∧ IsInt32 (b.priority - a.priority) ∧
    IsInt32 (a.jobid - b.jobid : ℤ)

instance (a b : Rank) : Decidable (a.Near b) := inferInstanceAs (Decidable (_ ∧ _ ∧ _))

variable {j j' : Job} {pool : List (Option Addr)} {n : ℤ} {t : Tables} {k : Cost} {r : Rank}
  {started : Bool}

/-- **`__comp` is the order of ranks** when they are near. -/
theorem Rank.comp_le_zero_iff {a b : Rank} (h : a.Near b) : a.comp b ≤ 0 ↔ ¬b.Before a := by
  obtain ⟨hq, hp, hid⟩ := h
  simp only [Rank.comp, hq.bmod_eq, hp.bmod_eq, hid.bmod_eq, Rank.Before]
  split_ifs <;> omega

/-- The fields of a rank have the values of their types, two `int`s and an unsigned id. -/
def Rank.Fits (a : Rank) : Prop := IsInt32 a.queuePriority ∧ IsInt32 a.priority ∧ a.jobid < 2 ^ 32

/-- The difference that decides between two ranks is in the range of an `int`. -/
def Rank.Comparable (a b : Rank) : Prop :=
  IsInt32 (if a.queuePriority ≠ b.queuePriority then b.queuePriority - a.queuePriority
    else if a.priority ≠ b.priority then b.priority - a.priority else a.jobid - b.jobid)

instance (a : Rank) : Decidable a.Fits := inferInstanceAs (Decidable (_ ∧ _ ∧ _))

instance (a b : Rank) : Decidable (a.Comparable b) := inferInstanceAs (Decidable (IsInt32 _))

/-- The sign of `__comp` is the order of the two ranks. -/
def Rank.Agrees (a b : Rank) : Prop := (a.comp b < 0 ↔ a.Before b) ∧ (0 < a.comp b ↔ b.Before a)

/-- A difference of two values of 32 bits wraps around at most once. -/
theorem bmod_cases (hlow : -2 ^ 32 < n) (hhigh : n < 2 ^ 32) :
    IsInt32 n ∧ Int.bmod n (2 ^ 32) = n ∨ 2 ^ 31 ≤ n ∧ Int.bmod n (2 ^ 32) = n - 2 ^ 32 ∨
      n < -2 ^ 31 ∧ Int.bmod n (2 ^ 32) = n + 2 ^ 32 := by
  simp only [IsInt32, Int.bmod]
  split_ifs <;> omega

theorem Rank.agrees_iff {a b : Rank} (ha : a.Fits) (hb : b.Fits) : a.Agrees b ↔ a.Comparable b := by
  obtain ⟨⟨haq, haq'⟩, ⟨hap, hap'⟩, hai⟩ := ha
  obtain ⟨⟨hbq, hbq'⟩, ⟨hbp, hbp'⟩, hbi⟩ := hb
  have hq := bmod_cases (n := b.queuePriority - a.queuePriority) (by omega) (by omega)
  have hp := bmod_cases (n := b.priority - a.priority) (by omega) (by omega)
  have hid := bmod_cases (n := (a.jobid - b.jobid : ℤ)) (by omega) (by omega)
  simp only [Rank.Agrees, Rank.Comparable, Rank.comp, Rank.Before, IsInt32] at hq hp hid ⊢
  by_cases hqe : a.queuePriority = b.queuePriority
  · by_cases hpe : a.priority = b.priority
    · simp only [hqe, hpe, sub_self, Int.zero_bmod, ne_eq, not_true_eq_false, if_false, lt_irrefl,
        true_and, false_or]
      omega
    · have hne : Int.bmod (b.priority - a.priority) (2 ^ 32) ≠ 0 := by omega
      simp only [hqe, hpe, Ne.symm hpe, hne, sub_self, Int.zero_bmod, ne_eq, not_true_eq_false,
        not_false_eq_true, if_false, if_true, lt_irrefl, true_and, false_or, false_and, or_false]
      omega
  · have hne : Int.bmod (b.queuePriority - a.queuePriority) (2 ^ 32) ≠ 0 := by omega
    simp only [hqe, Ne.symm hqe, hne, ne_eq, not_false_eq_true, if_true, false_and, or_false]
    omega

/-- What the scheduler needs of `__comp` on the jobs of a pool: it is the order of dispatch, it is
antisymmetric and transitive, and there is one way to sort the pool by it. -/
structure Rank.Orders (l : List Rank) : Prop where
  agrees : ∀ a ∈ l, ∀ b ∈ l, a.Agrees b
  antisymm : ∀ a ∈ l, ∀ b ∈ l, a.comp b ≤ 0 → b.comp a ≤ 0 → a = b
  trans : ∀ a ∈ l, ∀ b ∈ l, ∀ c ∈ l, a.comp b ≤ 0 → b.comp c ≤ 0 → a.comp c ≤ 0
  sorted : ∃! p : List Rank, p.Perm l ∧ p.Pairwise fun a b ↦ a.comp b ≤ 0

instance : Std.Total fun a b : Rank ↦ ¬b.Before a := ⟨fun a b ↦ by simp only [Rank.Before]; omega⟩

instance : IsTrans Rank fun a b ↦ ¬b.Before a := ⟨fun a b c ↦ by simp only [Rank.Before]; omega⟩

theorem Rank.eq_of_not_before {a b : Rank} (h : ¬b.Before a) (h' : ¬a.Before b) : a = b := by
  obtain ⟨aq, ap, ai⟩ := a
  obtain ⟨bq, bp, bi⟩ := b
  simp only [Rank.Before, Rank.mk.injEq] at h h' ⊢
  omega

/-- **When `__comp` orders the jobs of a pool**: exactly if the differences that it returns for them
fit an `int`. Sorting by `Before` gives the one order then. -/
theorem Rank.orders_iff {l : List Rank} (hfits : ∀ a ∈ l, a.Fits) :
    Rank.Orders l ↔ ∀ a ∈ l, ∀ b ∈ l, a.Comparable b := by
  constructor
  · intro h a ha b hb
    exact (agrees_iff (hfits a ha) (hfits b hb)).mp (h.agrees a ha b hb)
  · intro h
    have hagrees (a : Rank) (ha : a ∈ l) (b : Rank) (hb : b ∈ l) : a.Agrees b :=
      (agrees_iff (hfits a ha) (hfits b hb)).mpr (h a ha b hb)
    have hle (a : Rank) (ha : a ∈ l) (b : Rank) (hb : b ∈ l) : a.comp b ≤ 0 ↔ ¬b.Before a := by
      rw [← (hagrees a ha b hb).2, not_lt]
    have hanti (a : Rank) (ha : a ∈ l) (b : Rank) (hb : b ∈ l) (hab : a.comp b ≤ 0)
        (hba : b.comp a ≤ 0) : a = b :=
      eq_of_not_before ((hle a ha b hb).mp hab) ((hle b hb a ha).mp hba)
    refine ⟨hagrees, hanti, fun a ha b hb c hc hab hbc ↦ ?_, ?_⟩
    · rw [hle a ha b hb] at hab
      rw [hle b hb c hc] at hbc
      exact (hle a ha c hc).mpr (IsTrans.trans (r := fun x y : Rank ↦ ¬y.Before x) a b c hab hbc)
    · have hperm := perm_insertionSort (fun x y : Rank ↦ ¬y.Before x) l
      refine ⟨l.insertionSort fun x y ↦ ¬y.Before x, ⟨hperm, ?_⟩, fun p hp ↦ ?_⟩
      · refine (pairwise_insertionSort (fun x y : Rank ↦ ¬y.Before x) l).imp_of_mem ?_
        intro a b ha hb hab
        exact (hle a (hperm.subset ha) b (hperm.subset hb)).mpr hab
      · refine (hp.1.trans hperm.symm).eq_of_pairwise ?_ (hp.2.imp_of_mem ?_)
          (pairwise_insertionSort _ l)
        · exact fun a b _ _ hab hba ↦ eq_of_not_before hab hba
        · intro a b ha hb hab
          exact (hle a (hp.1.subset ha) b (hp.1.subset hb)).mp hab

/-- Priorities and ids as they are in use. -/
theorem Rank.orders_iff_near : Rank.Orders [⟨10, -5, 4000000000⟩, ⟨10, 7, 2⟩, ⟨100, 0, 3⟩] :=
  (Rank.orders_iff (by decide)).mpr (by decide)

/-- A queue of priority 2000000000 and one of priority -2000000000: `b->queue->priority -
a->queue->priority` is -4000000000, which is 294967296 as an `int`, and the job of the second queue
comes first. -/
theorem Rank.not_orders_far : (∀ a ∈ [Rank.mk 2000000000 0 1, ⟨-2000000000, 0, 2⟩], a.Fits) ∧
    ¬Rank.Orders [⟨2000000000, 0, 1⟩, ⟨-2000000000, 0, 2⟩] := by
  refine ⟨by decide, fun h ↦ ?_⟩
  have hagrees := h.agrees ⟨2000000000, 0, 1⟩ (by simp) ⟨-2000000000, 0, 2⟩ (by simp)
  exact absurd hagrees.1 (by decide)

/-- The place of a job in the order of dispatch, if it is pending. -/
def Tables.place (t : Tables) (a : Addr) : Option Rank :=
  (t.jobTable.get? a).bind fun j ↦ if j.state = .pending then
      (t.queueTable.get? j.queue).map fun q ↦ ⟨q.priority, j.priority, j.jobid⟩
    else
      none

variable {s s' : Server} {pool' : List (Option Addr)} {a : Addr}

theorem place_eq_some_iff : t.place a = some r ↔
    ∃ j q, t.jobTable.get? a = some j ∧ j.state = .pending ∧ t.queueTable.get? j.queue = some q ∧
      r = ⟨q.priority, j.priority, j.jobid⟩ := by
  rw [Tables.place, bind_eq_some_iff]
  constructor
  · rintro ⟨j, hj, h⟩
    split at h
    · next hwaits =>
      obtain ⟨q, hq, rfl⟩ := map_eq_some_iff.mp h
      exact ⟨j, q, hj, hwaits, hq, rfl⟩
    · exact nomatch h
  · rintro ⟨j, q, hj, hst, hq, rfl⟩
    exact ⟨j, hj, by rw [if_pos hst, hq]; rfl⟩

/-- The place of a job is its rank. -/
theorem rank_of_place (h : t.place a = some r) : t.rank a = r := by
  obtain ⟨j, q, hj, -, hq, rfl⟩ := place_eq_some_iff.mp h
  simp [Tables.rank, hj, hq]

/-! ### Sorted pools -/

/-- No job of the pool comes after one that it should be started before. -/
def PoolSorted (t : Tables) (pool : List (Option Addr)) : Prop :=
  pool.Pairwise fun x y ↦ ∀ a b ra rb, x = some a → y = some b → t.place a = some ra →
    t.place b = some rb → ¬rb.Before ra

/-- Jobs that have left their place do not matter. -/
theorem PoolSorted.mono {t' : Tables} (h : PoolSorted t pool)
    (hplace : ∀ a r, some a ∈ pool → t'.place a = some r → t.place a = some r) :
    PoolSorted t' pool := by
  refine List.Pairwise.imp_of_mem (fun {x y} hx hy hxy ↦ ?_) h
  rintro a b ra rb rfl rfl ha hb
  exact hxy a b ra rb rfl rfl (hplace a ra hx ha) (hplace b rb hy hb)

/-- Entries of the pool have been cleared. -/
def Gapped (pool pool' : List (Option Addr)) : Prop :=
  List.Forall₂ (fun x x' ↦ x' = x ∨ x' = none) pool pool'

theorem Gapped.refl (pool : List (Option Addr)) : Gapped pool pool :=
  forall₂_same.mpr fun _ _ ↦ .inl rfl

theorem Gapped.trans {p p' p'' : List (Option Addr)} (h : Gapped p p') (h' : Gapped p' p'') :
    Gapped p p'' := by
  induction h generalizing p'' with
  | nil => exact h'
  | cons hx _ ih =>
    cases h' with
    | cons hx' h' =>
      refine .cons ?_ (ih h')
      rcases hx' with rfl | rfl
      · exact hx
      · exact .inr rfl

theorem gapped_clearCandidate (a : Addr) (pool : List (Option Addr)) :
    Gapped pool (clearCandidate a pool) := by
  induction pool with
  | nil => exact .nil
  | cons x pool ih =>
    rw [clearCandidate]
    split
    · exact .cons (.inr rfl) (Gapped.refl pool)
    · exact .cons (.inl rfl) ih

theorem Gapped.mem (h : Gapped pool pool') (ha : some a ∈ pool') : some a ∈ pool := by
  induction h with
  | nil => exact ha
  | cons hx _ ih =>
    rcases mem_cons.mp ha with rfl | ha
    · rcases hx with rfl | hx
      · exact mem_cons_self
      · exact nomatch hx
    · exact mem_cons_of_mem _ (ih ha)

theorem PoolSorted.gaps (h : PoolSorted t pool)
    (hgaps : Gapped pool pool') : PoolSorted t pool' := by
  induction hgaps with
  | nil => exact h
  | cons hx hrest ih =>
    obtain ⟨hfirst, htail⟩ := pairwise_cons.mp h
    refine pairwise_cons.mpr ⟨fun y hy ↦ ?_, ih htail⟩
    rintro a b ra rb rfl rfl
    rcases hx with rfl | hx
    · exact hfirst _ (Gapped.mem hrest hy) a b ra rb rfl rfl
    · exact nomatch hx

/-- The ranks of the candidates are near each other. -/
def Tables.ranksNear (t : Tables) : Bool :=
  t.candidates.all fun a ↦ t.candidates.all fun b ↦ decide ((t.rank a).Near (t.rank b))

/-- **A new pool is sorted** if the ranks are near. -/
theorem poolSorted_candidates (hnear : t.ranksNear = true) :
    PoolSorted t (t.sortedCandidates.map some) := by
  have hnear' : ∀ a ∈ t.candidates, ∀ b ∈ t.candidates, (t.rank a).Near (t.rank b) := by
    simpa [Tables.ranksNear] using hnear
  -- on the candidates the comparison agrees with a total preorder
  let le (a b : Addr) : Prop := ¬(t.rank b).Before (t.rank a)
  have hsame : t.sortedCandidates = t.candidates.insertionSort le := by
    have hmap := map_insertionSort (fun a b ↦ (t.rank a).comp (t.rank b) ≤ 0) le id t.candidates
      fun a ha b hb ↦ Rank.comp_le_zero_iff (hnear' a ha b hb)
    rwa [List.map_id, List.map_id] at hmap
  have htotal : Std.Total le := ⟨fun a b ↦ by simp only [le, Rank.Before]; omega⟩
  have htrans : IsTrans Addr le := ⟨fun a b c ↦ by simp only [le, Rank.Before]; omega⟩
  rw [PoolSorted, pairwise_map, hsame]
  refine (pairwise_insertionSort le t.candidates).imp fun {a b} hab ↦ ?_
  rintro a' b' ra rb ha' hb' ha hb
  obtain rfl := some.inj ha'
  obtain rfl := some.inj hb'
  rw [← rank_of_place ha, ← rank_of_place hb]
  exact hab

/-! ### Between passes -/

/-- What becomes of the books when no pool is made: if none is asked for in the end, then none was
asked for before, the pool has at most lost jobs, and the jobs that are pending were so before,
under the same id and on the same queue. -/
def Books.Kept (b b' : Books) : Prop :=
  b'.recalc = false → b.recalc = false ∧ Gapped b.pool b'.pool ∧
    ∀ a j', b'.jobs.get? a = some j' → j'.state = .pending →
      ∃ j, b.jobs.get? a = some j ∧ j.state = .pending ∧ j.jobid = j'.jobid ∧ j.queue = j'.queue

theorem Books.Kept.refl (b : Books) : b.Kept b :=
  fun hrecalc ↦ ⟨hrecalc, .refl _, fun _ j hj hst ↦ ⟨j, hj, hst, rfl, rfl⟩⟩

theorem Books.Kept.trans {b b' b'' : Books} (h : b.Kept b') (h' : b'.Kept b'') : b.Kept b'' := by
  intro hrecalc
  obtain ⟨hrecalc', hgaps', hjobs'⟩ := h' hrecalc
  obtain ⟨hrecalc₀, hgaps, hjobs⟩ := h hrecalc'
  refine ⟨hrecalc₀, hgaps.trans hgaps', fun a j'' hj'' hst ↦ ?_⟩
  obtain ⟨j', hj', hst', hid', hqueue'⟩ := hjobs' a j'' hj'' hst
  obtain ⟨j, hj, hst, hid, hqueue⟩ := hjobs a j' hj' hst'
  exact ⟨j, hj, hst, hid.trans hid', hqueue.trans hqueue'⟩

/-- A job has been written to. -/
theorem Books.Kept.modify {b : Books} {recalc : Bool} {deleted : ℕ} (hj : b.jobs.get? a = some j)
    (hnew : recalc = false → b.recalc = false ∧ (j'.state = .pending →
      j.state = .pending ∧ j.jobid = j'.jobid ∧ j.queue = j'.queue)) :
    b.Kept { jobs := b.jobs.modify a fun _ ↦ j', pool := b.pool, recalc, deleted } := by
  intro hrecalc
  obtain ⟨hfresh, hwas⟩ := hnew hrecalc
  refine ⟨hfresh, .refl _, fun c i hi hst ↦ ?_⟩
  rcases get?_modify_some hi with ⟨rfl, v, hv, rfl⟩ | ⟨-, hi⟩
  · exact ⟨j, hj, hwas hst⟩
  · exact ⟨i, hi, hst, rfl, rfl⟩

theorem BookStep.kept {L : Job → Prop} {b b' : Books} (h : BookStep L False b b') : b.Kept b' := by
  cases h with
  | quiet => exact .refl b
  | edit hj hid hqueue hst _ =>
    exact .modify hj fun hrecalc ↦
      ⟨hrecalc, fun hst' ↦ ⟨hst.symm.trans hst', hid.symm, hqueue.symm⟩⟩
  | @change a j st q dirty hj =>
    refine .modify hj fun hrecalc ↦ ?_
    obtain ⟨hfresh, hask⟩ := Bool.or_eq_false_iff.mp hrecalc
    refine ⟨hfresh, fun hst ↦ ?_⟩
    -- a job that comes to be pending, or is moved while it is, asks for a new pool
    obtain rfl : st = .pending := hst
    simp only [JobState.waits, Bool.and_true, decide_eq_false_iff_not, not_or, not_not] at hask
    obtain ⟨hst, rfl⟩ := hask
    exact ⟨hst, rfl, rfl⟩
  | lose hj _ | delete hj _ => exact .modify hj fun hrecalc ↦ ⟨hrecalc, fun hst ↦ by cases hst⟩
  | @add j _ _ hst =>
    refine fun hrecalc ↦ ⟨hrecalc, .refl _, fun c i hi hpend ↦ ?_⟩
    rw [get?_push] at hi
    split at hi
    · obtain rfl := some.inj hi
      exact absurd (hst.symm.trans hpend) (by decide)
    · exact ⟨i, hi, hpend, rfl, rfl⟩
  | @clean a j hj _ =>
    refine fun hrecalc ↦ ⟨hrecalc, gapped_clearCandidate a _, fun c i hi hpend ↦ ?_⟩
    exact ⟨i, (get?_erase_some hi).2, hpend, rfl, rfl⟩
  | ask => exact fun hrecalc ↦ by cases hrecalc
  | generate hG => exact hG.elim

theorem Books.Kept.of_walk (h : Relation.ReflTransGen (Booked (fun _ ↦ True) False) s s') :
    s.books.Kept s'.books := by
  induction h with
  | refl => exact .refl _
  | tail _ hstep ih => exact ih.trans hstep.kept

/-- **Events other than a pass keep the books.** -/
theorem handle_kept {env : Env} {e : Event} (hcount : s.stats.pending = 0 → s.candidates = [])
    (he : e ≠ .checkJobs) (h : handle env e s = .ok ((), s')) : s.books.Kept s'.books :=
  .of_walk (handle_books hcount (fun _ _ _ _ _ _ _ _ _ ↦ trivial) (fun hcheck ↦ absurd hcheck he) h)

/-! ### Priorities -/

/-- A pending job is on the queue. -/
def Server.awaited (s : Server) (b : Addr) : Bool :=
  !s.jobTable.all fun _ j ↦ j.state != .pending || j.queue != b

/-- No priority of a pending job, or of a queue with one, changes while the pool is taken to be
sorted; and the pool is made only when the ranks are near. -/
def orderKept : Condition
  | s, (_, .client _ (.modJob mj)) =>
    s.candidateRecalc || mj.priority == unset32 ||
      (s.findJob mj.jobid).all fun r ↦ r.2.state != .pending || r.2.priority == mj.priority
  | s, (_, .client _ (.modQueue qm)) =>
    s.candidateRecalc || qm.priority == unset32 ||
      (qm.name.bind s.findQueue).all fun r ↦ !s.awaited r.1 || r.2.priority == qm.priority
  | s, (_, .client _ (.addQueue qa)) =>
    s.candidateRecalc || ((qa.name.map lowercasestring).bind s.findQueue).all fun r ↦
      !s.awaited r.1 || r.2.priority == setOr qa.priority 100
  | s, (_, .checkJobs) => !s.candidateRecalc || s.ranksNear
  | _, _ => true

@[simp]
theorem Job.reconciled_priority (j : Job) (i : ReconItem) :
    (j.reconciled i).priority = j.priority := by
  simp only [reconciled, reconFinish, changed]
  split_ifs <;> rfl

section Priorities

variable {env : Env} {s : Server} {e : Event} {c c' : Core} {a : Addr} {q q' : Queue}

/-- Only a modify request changes the priority of a job. -/
theorem Allowed.shift_priority (h : Allowed env s e c (.shift a j j' k)) :
    j'.priority = j.priority ∨ ∃ cl mj, e = .client cl (.modJob mj) ∧ c = s.toCore ∧
      s.findJob mj.jobid = some (a, j) ∧
      j'.priority = if mj.priority ≠ unset32 then mj.priority else j.priority := by
  cases h with
  | job _ hm =>
    cases hm with
    | modify hfind => exact .inr ⟨_, _, rfl, rfl, hfind, rfl⟩
    | _ => exact .inl rfl
  | queue _ hm | res _ hm => cases hm
  | agent hm =>
    cases hm with
    | recon => exact .inl (Job.reconciled_priority _ _)
    | _ => exact .inl rfl
  | _ => exact .inl rfl

/-- Only a modify request changes the priority of a queue. -/
theorem Allowed.editQueue_priority {b : Addr} (h : Allowed env s e c (.editQueue b q q')) :
    q'.priority = q.priority ∨ ∃ cl qm name, e = .client cl (.modQueue qm) ∧ c = s.toCore ∧
      qm.name = some name ∧ s.findQueue name = some (b, q) ∧
      q'.priority = setOr qm.priority q.priority := by
  cases h with
  | job _ hm | res _ hm => cases hm
  | queue _ hm =>
    cases hm with
    | modify hname hfind => exact .inr ⟨_, _, _, rfl, rfl, hname, hfind, rfl⟩
    | _ => exact .inl rfl
  | agent hm =>
    cases hm with
    | _ => exact .inl rfl
  | _ => exact .inl rfl

/-- The structure of a queue is used again for a queue that is added. -/
theorem Allowed.reuseQueue_priority {b : Addr} (h : Allowed env s e c (.reuseQueue b q q')) :
    ∃ cl qa orig, e = .client cl (.addQueue qa) ∧ c = s.toCore ∧ qa.name = some orig ∧
      s.findQueue (lowercasestring orig) = some (b, q) ∧ q'.priority = setOr qa.priority 100 := by
  cases h with
  | job _ hm | res _ hm | agent hm => cases hm
  | queue _ hm =>
    cases hm with
    | remake hname hlower hfind => exact ⟨_, _, _, rfl, rfl, hname, hlower ▸ hfind, rfl⟩

/-- The event changes no priority that the pool depends on. -/
def PrioritySafe (env : Env) (s : Server) (e : Event) : Prop :=
  e = .checkJobs ∨ s.candidateRecalc = false ∧ orderKept s (env, e) = true

/-- Pending jobs and the queues of such jobs have the priorities they had in `s`. -/
structure PrioritiesKept (s : Server) (c : Core) : Prop where
  jobNext : s.jobTable.next ≤ c.jobTable.next
  queueNext : s.queueTable.next ≤ c.queueTable.next
  jobs : ∀ a j j', s.jobTable.get? a = some j → j.state = .pending → c.jobTable.get? a = some j' →
    j'.priority = j.priority
  queues : ∀ b q', b < s.queueTable.next → s.awaited b = true → c.queueTable.get? b = some q' →
    ∃ q, s.queueTable.get? b = some q ∧ q'.priority = q.priority

theorem PrioritiesKept.refl (s : Server) : PrioritiesKept s s.toCore where
  jobNext := le_rfl
  queueNext := le_rfl
  jobs _ _ _ hj _ hj' := by rw [mem_unique hj hj']
  queues _ q' _ _ hq' := ⟨q', hq', rfl⟩

/-- The priority of a job that is shifted. -/
theorem PrioritiesKept.shift_priority (hsafe : PrioritySafe env s e) {i : Job}
    (hl : Allowed env s e c (.shift a j j' k)) (hm : Shift a j j' k c c')
    (hi : s.jobTable.get? a = some i) (hst : i.state = .pending) : j'.priority = j.priority := by
  rcases hl.shift_priority with heq | ⟨cl, mj, rfl, rfl, hfind, hpriority⟩
  · exact heq
  · obtain rfl := hm.unique hi
    obtain ⟨hrecalc, hgood⟩ := hsafe.resolve_left nofun
    simp only [orderKept, hrecalc, hfind, hst, all_some, Bool.false_or, bne_self_eq_false,
      Bool.or_eq_true, beq_iff_eq] at hgood
    rw [hpriority]
    split
    · next hset => exact (hgood.resolve_left hset).symm
    · rfl

theorem PrioritiesKept.shift (h : PrioritiesKept s c) (hm : Shift a j j' k c c')
    (hpriority : ∀ i, s.jobTable.get? a = some i → i.state = .pending → j'.priority = j.priority) :
    PrioritiesKept s c' where
  jobNext := h.jobNext.trans hm.frame.jobNext
  queueNext := hm.queueNext ▸ h.queueNext
  jobs d i i' hi hst hi' := by
    obtain ⟨rfl, rfl⟩ | ⟨-, hi'⟩ := hm.get?_cases hi'
    · exact (hpriority i hi hst).trans (h.jobs d i j hi hst hm.found)
    · exact h.jobs d i i' hi hst hi'
  queues b q' hb hawait hq' := by
    obtain ⟨q₁, hq₁, hmoved⟩ := optionRel_some' (hm.queues b) hq'
    obtain ⟨q, hq, hpriority⟩ := h.queues b q₁ hb hawait hq₁
    exact ⟨q, hq, by rw [hmoved.rest]; exact hpriority⟩

/-- **The moves of an event keep the priorities**, under the condition. -/
theorem PrioritiesKept.move (hsafe : PrioritySafe env s e)
    {l : Label} (h : PrioritiesKept s c) (hl : Allowed env s e c l) (hm : Move l c c') :
    PrioritiesKept s c' := by
  have hnext := h.jobNext.trans hm.frame.jobNext
  cases l with
  | shift a j j' k =>
    exact h.shift hm fun i hi hst ↦ PrioritiesKept.shift_priority hsafe hl hm hi hst
  | addJob j j' k =>
    -- the address of the new job is not one of `s`
    have hnew {d : Addr} {i : Job} (hi : s.jobTable.get? d = some i) : d ≠ c.jobTable.next :=
      ((lt_next hi).trans_le h.jobNext).ne
    have hpushed : PrioritiesKept s { c with jobTable := c.jobTable.push j } := by
      refine ⟨h.jobNext.trans (Nat.le_succ _), h.queueNext, fun d i i' hi hst hi' ↦ ?_, h.queues⟩
      rw [get?_push, if_neg (hnew hi)] at hi'
      exact h.jobs d i i' hi hst hi'
    exact hpushed.shift hm.added fun i hi _ ↦ absurd rfl (hnew hi)
  | removeJob a j =>
    obtain ⟨-, rfl⟩ := hm
    exact ⟨hnext, h.queueNext, fun d i i' hi hst hi' ↦ h.jobs d i i' hi hst (get?_erase_some hi').2,
      h.queues⟩
  | addQueue q =>
    obtain rfl := hm
    refine ⟨hnext, h.queueNext.trans (Nat.le_succ _), h.jobs, fun b q' hb hawait hq' ↦ ?_⟩
    replace hq' : (c.queueTable.push q).get? b = some q' := hq'
    rw [get?_push, if_neg (hb.trans_le h.queueNext).ne] at hq'
    exact h.queues b q' hb hawait hq'
  | reuseQueue b q q' =>
    obtain ⟨hq, rfl⟩ := hm
    refine ⟨hnext, h.queueNext.trans (next_le_reput _ _ _), h.jobs, fun d p' hd hawait hp' ↦ ?_⟩
    replace hp' : (c.queueTable.reput b q').get? d = some p' := hp'
    rw [get?_reput] at hp'
    split at hp'
    · next hdb =>
      subst hdb
      obtain rfl := some.inj hp'
      obtain ⟨cl, qa, orig, rfl, rfl, hname, hfind, hpriority⟩ := hl.reuseQueue_priority
      obtain ⟨hrecalc, hgood⟩ := hsafe.resolve_left nofun
      simp only [orderKept, hrecalc, hname, map_some, bind_some, hfind, all_some, hawait,
        Bool.false_or, Bool.not_true, beq_iff_eq] at hgood
      exact ⟨q, hq, hpriority.trans hgood.symm⟩
    · exact h.queues d p' hd hawait hp'
  | editQueue b q q' =>
    obtain ⟨hq, rfl⟩ := hm
    refine ⟨hnext, h.queueNext, h.jobs, fun d p' hd hawait hp' ↦ ?_⟩
    rcases get?_modify_some hp' with ⟨rfl, v, hv, rfl⟩ | ⟨-, hp'⟩
    · obtain ⟨p, hp, hbefore⟩ := h.queues d q hd hawait hq
      rcases hl.editQueue_priority with heq | ⟨cl, qm, name, rfl, rfl, hname, hfind, hpriority⟩
      · exact ⟨p, hp, heq.trans hbefore⟩
      · obtain ⟨hrecalc, hgood⟩ := hsafe.resolve_left nofun
        simp only [orderKept, hrecalc, hname, bind_some, hfind, all_some, hawait,
          Bool.false_or, Bool.not_true, Bool.or_eq_true, beq_iff_eq] at hgood
        refine ⟨p, hp, hpriority.trans (Eq.trans ?_ hbefore)⟩
        rw [setOr]
        split
        · next hset => exact (hgood.resolve_left hset).symm
        · rfl
    · exact h.queues d p' hd hawait hp'
  | removeQueue b q =>
    obtain ⟨-, rfl⟩ := hm
    exact ⟨hnext, h.queueNext, h.jobs, fun d p' hd hawait hp' ↦
      h.queues d p' hd hawait (get?_erase_some hp').2⟩
  | addRes | setFlush =>
    obtain rfl := hm
    exact ⟨hnext, h.queueNext, h.jobs, h.queues⟩
  | reuseRes | editRes | removeRes | setDefault =>
    obtain ⟨-, rfl⟩ := hm
    exact ⟨hnext, h.queueNext, h.jobs, h.queues⟩

/-- Places after an event are places from before. -/
theorem place_of_kept {s' : Server} (hknown : KnownQueues s.toCore) (hkept : s.books.Kept s'.books)
    (hpriorities : PrioritiesKept s s'.toCore) (hrecalc : s'.candidateRecalc = false)
    (h : s'.place a = some r) : s.place a = some r := by
  obtain ⟨j', q', hj', hst', hq', rfl⟩ := place_eq_some_iff.mp h
  obtain ⟨j, hj, hst, hid, hqueue⟩ := (hkept hrecalc).2.2 a j' hj' hst'
  have hawait : s.awaited j.queue = true := by
    rw [Server.awaited, Bool.not_eq_true', Bool.eq_false_iff]
    intro hall
    have hno := all_iff.mp hall a j hj
    simp [hst] at hno
  rw [← hqueue] at hq'
  obtain ⟨q, hq, hpriority⟩ := hpriorities.queues j.queue q' (hknown.jobs a j hj) hawait hq'
  refine place_eq_some_iff.mpr ⟨j, q, hj, hst, hq, ?_⟩
  rw [hpriority, hpriorities.jobs a j j' hj hst hj', hid]

end Priorities

/-! ### The pool along a run -/

/-- What is true of the pool and the counters between events. -/
structure PoolFilled (s : Server) : Prop where
  recovery : s.recovery = none
  counts : CountsCover s.toCore
  good : PoolGood s.books
  known : KnownQueues s.toCore

/-- The pool is sorted besides, unless a new one is asked for. -/
structure PoolReady (s : Server) : Prop extends PoolFilled s where
  sorted : s.candidateRecalc = false → PoolSorted s.toTables s.candidatePool

section Ready

variable {s s' : Server}

theorem PoolFilled.candidates (h : PoolFilled s) (hzero : s.stats.pending = 0) :
    s.candidates = [] := by
  have hle := h.counts.candidates_le
  rw [hzero] at hle
  exact eq_nil_of_length_eq_zero (by omega)

/-- The pool of a pass is sorted. -/
theorem PoolReady.passPool_sorted (h : PoolReady s) {env : Env}
    (hgood : orderKept s (env, .checkJobs) = true) : PoolSorted s.toTables s.passPool := by
  rw [Server.passPool]
  split
  · next hrecalc =>
    split
    · exact .nil
    · simp only [orderKept, hrecalc, Bool.not_true, Bool.false_or] at hgood
      exact poolSorted_candidates hgood
  · next hrecalc => exact h.sorted (Bool.eq_false_iff.mpr hrecalc)

/-- The pool of a pass has every job that waits. -/
theorem PoolFilled.mem_passPool (h : PoolFilled s) {a : Addr} (hj : s.jobTable.get? a = some j)
    (hdel : j.internalState.deleted = false) (hst : j.state = .pending) : some a ∈ s.passPool := by
  have hmem : a ∈ s.candidates := mem_candidates.mpr ⟨j, hj, hdel, hst⟩
  rw [Server.passPool]
  split
  · split
    · next hzero =>
      rw [h.candidates hzero] at hmem
      contradiction
    · exact List.mem_map_of_mem ((mem_insertionSort _).mpr hmem)
  · next hrecalc => exact h.good.listed (Bool.eq_false_iff.mpr hrecalc) a j hj hdel hst

/-- A pass keeps the books once it has its pool. -/
theorem checkJobs_kept {t : Server} (h : each tagReadonly t.candidatePool t = .ok ((), s') ∨
    startFrom (jobsToStart t) 0 t.candidatePool t = .ok ((), s')) : t.books.Kept s'.books := by
  rcases h with h | h
  · exact .of_walk (Keeps.each tagReadonly_books _ h)
  · exact .of_walk (startFrom_books _ _ _ h)

theorem PoolFilled.step (h : PoolFilled s) {env : Env} {e : Event}
    (hstep : handle env e s = .ok ((), s')) : PoolFilled s' := by
  have hpath := handle_path h.recovery hstep
  refine ⟨handle_recovery h.recovery hstep, hpath.invariant (fun hc hl hm ↦ hc.move hl hm)
    h.counts, ?_, hpath.invariant (fun hc hl hm ↦ KnownQueues.move hc hl hm) h.known⟩
  have hwalk : Relation.ReflTransGen (Booked (fun _ ↦ True) True) s s' :=
    handle_books h.candidates (fun _ _ _ _ _ _ _ _ _ ↦ trivial) (fun _ ↦ trivial) hstep
  have hgood := h.good
  clear hstep hpath h
  induction hwalk with
  | refl => exact hgood
  | tail _ hb ih => exact ih.step hb

/-- **The pool stays sorted** along every step that meets the condition. -/
theorem PoolReady.step (h : PoolReady s) {env : Env} {e : Event}
    (hgood : orderKept s (env, e) = true)
    (hstep : handle env e s = .ok ((), s')) : PoolReady s' := by
  have hpath := handle_path h.recovery hstep
  refine ⟨h.toPoolFilled.step hstep, ?_⟩
  intro hrecalc'
  by_cases he : e = .checkJobs
  · subst he
    have hpriorities :=
      hpath.invariant (fun hc hl hm ↦ PrioritiesKept.move (.inl rfl) hc hl hm) (.refl s)
    rcases checkJobs_cases hstep with ⟨-, rfl⟩ | ⟨-, t, ⟨n, pool, recalc, rfl⟩, hpool, -, hwalk⟩
    · exact h.sorted hrecalc'
    · have hkept := checkJobs_kept (hwalk.imp And.right And.right)
      obtain ⟨-, hgaps, -⟩ := hkept hrecalc'
      have hsorted := h.passPool_sorted hgood
      rw [← hpool] at hsorted
      refine (hsorted.gaps hgaps).mono fun a r _ ha ↦ ?_
      have hplace :=
        place_of_kept
        (s := { s with candidatePoolSize := n, candidatePool := pool, candidateRecalc := recalc })
        h.known hkept ⟨hpriorities.jobNext, hpriorities.queueNext, hpriorities.jobs,
        hpriorities.queues⟩ hrecalc' ha
      exact hplace
  · have hkept := handle_kept h.candidates he hstep
    obtain ⟨hrecalc, hgaps, -⟩ := hkept hrecalc'
    have hpriorities :=
      hpath.invariant (fun hc hl hm ↦ PrioritiesKept.move (.inr ⟨hrecalc, hgood⟩) hc hl hm)
      (.refl s)
    exact ((h.sorted hrecalc).gaps hgaps).mono fun a r _ ha ↦
      place_of_kept h.known hkept hpriorities hrecalc' ha

theorem poolReady_initial (config : Config) (hosts : List Str) :
    PoolReady (Server.initial config hosts) := by
  refine ⟨⟨rfl, fun S _ ↦ ?_, ⟨nofun, nofun, fun a ↦ Nat.zero_le 1⟩, .initial config hosts⟩,
    fun _ ↦ .nil⟩
  cases S <;> exact le_rfl

end Ready

/-! ### The order of a pass -/

section

variable {s s' : Server} {a b : Addr}

theorem pendingFor_some {r : PendReason} (h : pendingFor a s = .ok (some r, s')) :
    s.Busy ∨ r.own = true := by
  obtain ⟨-, j, -, hverdict⟩ := pendingFor_ok h
  cases hverdict with
  | busy hbusy => exact .inl hbusy
  | own _ hown => exact .inr hown

/-- The job has not been sent to its agent. -/
def Unsent (s : Server) (a : Addr) : Prop :=
  ∀ j, s.jobTable.get? a = some j → j.internalState.started = false

variable {front : List (Option Addr)} {c : Addr}

theorem Unsent.shift (hb : Unsent s b) (h : Shift c j j' k s.toCore s'.toCore)
    (hflag : j'.internalState.started = j.internalState.started) : Unsent s' b := by
  intro i hi
  obtain ⟨rfl, rfl⟩ | ⟨-, hi⟩ := h.get?_cases hi
  · exact hflag.trans (hb _ h.found)
  · exact hb i hi

/-- On a busy server nothing is started. -/
theorem Round.busy (h : Round s c s' started) (hbusy : s.Busy) (hb : Unsent s b) :
    s'.Busy ∧ Unsent s' b := by
  cases h with
  | skip _ _ heq =>
    subst heq
    exact ⟨hbusy, hb⟩
  | wait _ _ heq hshift =>
    exact ⟨by rw [heq]; exact hbusy, hb.shift hshift rfl⟩
  | start _ hclear _ _ =>
    rcases hclear.system with hno | hroom
    · exact absurd hno hbusy.1
    · exact absurd hroom (not_le.mpr hbusy.2)

/-- A job that has been sent stays so. -/
theorem Round.sent (h : Round s c s' started)
    (ha : ∃ j, s.jobTable.get? a = some j ∧ j.internalState.started = true) :
    ∃ j, s'.jobTable.get? a = some j ∧ j.internalState.started = true := by
  obtain ⟨j, hj, hsent⟩ := ha
  rcases eq_or_ne a c with rfl | hac
  · cases h with
    | skip _ _ heq =>
      subst heq
      exact ⟨j, hj, hsent⟩
    | wait hwaits _ _ hshift | start hwaits _ _ hshift =>
      obtain rfl := hshift.unique hj
      exact nomatch hwaits.2.symm.trans hsent
  · exact ⟨j, (h.other hac).trans hj, hsent⟩

theorem Round.config (h : Round s c s' started) : s'.config = s.config := by
  cases h with
  | skip _ _ heq => rw [heq]
  | wait _ _ _ hshift | start _ _ _ hshift => exact hshift.config

section

variable {k : ℤ} (h : startFrom n k (some a :: pool) s = .ok ((), s'))
  (hj : s.jobTable.get? a = some j) (hwaits : j.Startable) (hj' : s'.jobTable.get? a = some j')
  (hunsent : j'.internalState.started = false)

include h hj hwaits hj' hunsent

/-- A job that is reached and not sent has to wait. -/
theorem startFrom_waits : ∃ r t, pendingFor a s = .ok (some r, s) ∧ Round s a t false ∧
    startFrom n k pool t = .ok ((), s') := by
  rcases startFrom_cons h with ⟨habs, -⟩ | ⟨c, started, t, hc, htry, hrest⟩
  · exact nomatch habs
  obtain rfl := some.inj hc
  have hround := tryStart_round htry
  cases hround with
  | skip hi hidle _ =>
    obtain rfl := mem_unique hj hi
    exact absurd hwaits hidle
  | @wait _ r _ hwhy _ _ =>
    rcases hrest with ⟨habs, -⟩ | ⟨-, hrest⟩
    · exact nomatch habs
    · exact ⟨r, t, hwhy, tryStart_round htry, hrest⟩
  | start _ _ _ hshift =>
    have hnow : ∃ j, t.jobTable.get? a = some j ∧ j.internalState.started = true :=
      ⟨_, hshift.found', rfl⟩
    obtain ⟨j'', hj'', hsent⟩ :
        ∃ j, s'.jobTable.get? a = some j ∧ j.internalState.started = true := by
      rcases hrest with ⟨-, -, rfl⟩ | ⟨-, hrest⟩
      · exact hnow
      · exact startFrom_invariant (fun _ hround hu ↦ hround.sent hu) hrest hnow
    obtain rfl := mem_unique hj' hj''
    exact nomatch hunsent.symm.trans hsent

/-- If a later one is sent, it waits for a reason of its own. -/
theorem startFrom_head {i' : Job} (hb : Unsent s b) (hi' : s'.jobTable.get? b = some i')
    (hsent : i'.internalState.started = true) :
    ∃ r : PendReason, pendingFor a s = .ok (some r, s) ∧ r.own = true := by
  obtain ⟨r, t, hwhy, hround, hrest⟩ := startFrom_waits h hj hwaits hj' hunsent
  refine ⟨r, hwhy, (pendingFor_some hwhy).resolve_left fun hbusy ↦ ?_⟩
  -- nothing could have been started after it
  obtain ⟨hbusy', hb'⟩ := hround.busy hbusy hb
  obtain ⟨-, hnot⟩ := startFrom_invariant (I := fun u ↦ u.Busy ∧ Unsent u b)
    (fun _ hround hu ↦ hround.busy hu.1 hu.2) hrest ⟨hbusy', hb'⟩
  exact nomatch (hnot i' hi').symm.trans hsent

end

/-- The same for a job further on in the pool, in front of the later one. -/
theorem startFrom_ordered {k : ℤ} {i' : Job}
    (h : startFrom n k (front ++ some a :: pool) s = .ok ((), s')) (ha : some a ∉ front)
    (hbf : some b ∉ front) (hj : s.jobTable.get? a = some j) (hwaits : j.Startable)
    (hj' : s'.jobTable.get? a = some j') (hunsent : j'.internalState.started = false)
    (hb : Unsent s b) (hi' : s'.jobTable.get? b = some i')
    (hsent : i'.internalState.started = true) :
    ∃ u, ∃ r : PendReason, Reaches n a u k (front ++ some a :: pool) s ∧
      pendingFor a u = .ok (some r, u) ∧ r.own = true := by
  induction front generalizing k s with
  | nil =>
    obtain ⟨r, hr, hown⟩ := startFrom_head h hj hwaits hj' hunsent hb hi' hsent
    exact ⟨s, r, .here, hr, hown⟩
  | cons x front ih =>
    have ha' := not_mem_of_not_mem_cons ha
    have hbf' := not_mem_of_not_mem_cons hbf
    rcases startFrom_cons h with ⟨rfl, hrest⟩ | ⟨c, started, t, rfl, htry, hrest⟩
    · obtain ⟨u, r, hu, hr⟩ := ih hrest ha' hbf' hj hb
      exact ⟨u, r, .gap hu, hr⟩
    have hround := tryStart_round htry
    have hac : a ≠ c := fun heq ↦ ne_of_not_mem_cons ha (congrArg some heq)
    have hbc : b ≠ c := fun heq ↦ ne_of_not_mem_cons hbf (congrArg some heq)
    have hb' : Unsent t b := fun i hi ↦ hb i ((hround.other hbc).symm.trans hi)
    rcases hrest with ⟨-, -, rfl⟩ | ⟨hmore, hrest⟩
    · exact nomatch (hb' i' hi').symm.trans hsent
    · obtain ⟨u, r, hu, hr⟩ := ih hrest ha' hbf' ((hround.other hac).trans hj) hb'
      exact ⟨u, r, .round htry hmore hu, hr⟩

/-- With room for the whole pool the loop comes to every job, and leaves those that it has not come
to as they were. -/
theorem startFrom_reaches {k : ℤ}
    (h : startFrom n k (front ++ some a :: pool) s = .ok ((), s')) (ha : some a ∉ front)
    (hroom : k + (front ++ some a :: pool).length ≤ n) (hj : s.jobTable.get? a = some j) :
    ∃ u, Reaches n a u k (front ++ some a :: pool) s ∧ u.jobTable.get? a = some j ∧
      u.config = s.config := by
  induction front generalizing k s with
  | nil => exact ⟨s, .here, hj, rfl⟩
  | cons x front ih =>
    have ha' := not_mem_of_not_mem_cons ha
    rw [cons_append, length_cons, Nat.cast_succ] at hroom
    have hrest' : (1 : ℤ) ≤ (front ++ some a :: pool).length := by simp; omega
    rcases startFrom_cons h with ⟨rfl, hrest⟩ |
      ⟨c, started, t, rfl, htry, ⟨-, hlast, -⟩ | ⟨hmore, hrest⟩⟩
    · obtain ⟨u, hu, hu'⟩ := ih hrest ha' (by omega) hj
      exact ⟨u, .gap hu, hu'⟩
    · -- the loop does not end before the pool does
      omega
    · have hround := tryStart_round htry
      have hac : a ≠ c := fun heq ↦ ne_of_not_mem_cons ha (congrArg some heq)
      obtain ⟨u, hu, hju, hconf⟩ := ih hrest ha' (by split <;> omega) ((hround.other hac).trans hj)
      exact ⟨u, .round htry hmore hu, hju, hconf.trans hround.config⟩

end

/-- The first of two entries of a list. -/
theorem exists_first {α : Type} {x y : α} {l : List α} (hx : x ∈ l) (hy : y ∈ l) :
    (∃ front rest, l = front ++ x :: rest ∧ x ∉ front ∧ y ∉ front) ∨
      ∃ front rest, l = front ++ y :: rest ∧ x ∈ rest := by
  induction l with
  | nil => exact nomatch hx
  | cons z l ih =>
    by_cases hzx : x = z
    · exact .inl ⟨[], l, by rw [hzx]; rfl, not_mem_nil, not_mem_nil⟩
    have hxl := (mem_cons.mp hx).resolve_left hzx
    by_cases hzy : y = z
    · exact .inr ⟨[], l, by rw [hzy]; rfl, hxl⟩
    rcases ih hxl ((mem_cons.mp hy).resolve_left hzy) with ⟨front, rest, rfl, hxf, hyf⟩ |
      ⟨front, rest, rfl, hxr⟩
    · exact .inl ⟨z :: front, rest, rfl, not_mem_cons_of_ne_of_not_mem hzx hxf,
        not_mem_cons_of_ne_of_not_mem hzy hyf⟩
    · exact .inr ⟨z :: front, rest, rfl, hxr⟩

/-- In a pass from `s` to `s'` the job at `b` is sent while the job at `a`, which should be started
before it, is not. -/
structure Overtaken (s s' : Server) (a b : Addr) : Prop where
  waits : ∃ j, s.jobTable.get? a = some j ∧ j.internalState.deleted = false ∧ j.Startable
  unsent : ∃ j, s.jobTable.get? b = some j ∧ j.internalState.started = false
  still : ∃ j, s'.jobTable.get? a = some j ∧ j.Startable
  sent : ∃ j, s'.jobTable.get? b = some j ∧ j.internalState.started = true
  before : ∃ ra rb, s.place a = some ra ∧ s.place b = some rb ∧ ra.Before rb

/-- **The order of dispatch**: a job is overtaken only when it was reached and had a reason of its
own to wait. -/
def DispatchOrdered (s s' : Server) : Prop :=
  ∀ a b, Overtaken s s' a b → ∃ u r, Reached s a u ∧ pendingFor a u = .ok (some r, u) ∧ r.own = true

/-- In readonly mode nothing is sent. -/
theorem each_tagReadonly_unsent {b : Addr}
    (h : each tagReadonly pool s = .ok ((), s')) (hb : Unsent s b) : Unsent s' b := by
  refine each_rel (R := fun u u' ↦ Unsent u b → Unsent u' b) (fun _ ↦ id) (fun h₁ h₂ ↦ h₂ ∘ h₁)
    (fun x _ u u' hround hu ↦ ?_) h hb
  rcases tagReadonly_cases hround with rfl | ⟨c, j, -, -, hshift, -⟩
  · exact hu
  · exact hu.shift hshift rfl

/-- A pass in which a job is sent is a walk of the loop over the pool, and the job is in the
pool. -/
theorem checkJobs_sent (h : checkJobs s = .ok ((), s')) {b : Addr}
    (hj : s.jobTable.get? b = some j) (hj' : s'.jobTable.get? b = some j')
    (hunsent : j.internalState.started = false) (hsent : j'.internalState.started = true) :
    ¬s.Full ∧ some b ∈ s.passPool ∧ ∃ t, Repooled s t ∧ t.candidatePool = s.passPool ∧
      whenever (s.candidateRecalc = true) generateCandidatePool s = .ok ((), t) ∧
      startFrom (jobsToStart t) 0 s.passPool t = .ok ((), s') := by
  rcases checkJobs_cases h with ⟨-, rfl⟩ | ⟨hroom, t, hsame, hpool, hgen, ⟨-, htag⟩ | ⟨-, hstart⟩⟩
  · obtain rfl := mem_unique hj hj'
    exact nomatch hunsent.symm.trans hsent
  · obtain ⟨n, pool, recalc, rfl⟩ := hsame
    exact nomatch (each_tagReadonly_unsent htag (fun i hi ↦ mem_unique hj hi ▸ hunsent)
      j' hj').symm.trans hsent
  · refine ⟨hroom, ?_, t, hsame, hpool, hgen, hpool ▸ hstart⟩
    obtain ⟨n, pool, recalc, rfl⟩ := hsame
    have htouched := startFrom_rel (R := TouchesWaiting pool) (.refl pool) .trans
      (fun hc hround ↦ hround.touchesWaiting hc) hstart
    rcases htouched b with heq | ⟨hb, -⟩
    · obtain rfl := some.inj (hj.symm.trans (heq.symm.trans hj'))
      exact nomatch hunsent.symm.trans hsent
    · rw [← hpool]
      exact hb

/-- A pass over a sorted pool. -/
theorem PoolReady.dispatchOrdered (h : PoolReady s) {env : Env}
    (hgood : orderKept s (env, .checkJobs) = true) (hcheck : checkJobs s = .ok ((), s')) :
    DispatchOrdered s s' := by
  rintro a b ⟨⟨ja, hja, hdel, hwaits⟩, ⟨jb, hjb, hbunsent⟩, ⟨ja', hja', hwaits'⟩,
    ⟨jb', hjb', hbsent⟩, ra, rb, hra, hrb, hbefore⟩
  obtain ⟨hroom, hbmem, t, hsame, hpool, hgen, hstart⟩ :=
    checkJobs_sent hcheck hjb hjb' hbunsent hbsent
  have hsorted := h.passPool_sorted hgood
  rcases exists_first (h.mem_passPool hja hdel hwaits.1) hbmem with
    ⟨front, rest, hsplit, ha, hb⟩ | ⟨front, rest, hsplit, harest⟩
  · obtain ⟨n, pool, recalc, rfl⟩ := hsame
    rw [hsplit] at hstart
    obtain ⟨u, r, hreach, hwhy⟩ := startFrom_ordered hstart ha hb hja hwaits hja' hwaits'.2
      (fun i hi ↦ mem_unique hjb hi ▸ hbunsent) hjb' hbsent
    rw [← hsplit, ← hpool] at hreach
    exact ⟨u, r, ⟨hroom, _, hgen, hreach⟩, hwhy⟩
  · -- the pool would not be sorted
    rw [hsplit] at hsorted
    have hpair := (pairwise_cons.mp (pairwise_append.mp hsorted).2.1).1 (some a) harest
    exact absurd hbefore (hpair b a rb ra rfl rfl hrb hra)

/-- A pass that is not limited considers every job, in whatever order. -/
theorem PoolFilled.dispatchOrdered_unlimited (h : PoolFilled s) (hmax : s.config.maxRunJobs = -1)
    (hlength : s.passPool.length < 2 ^ 32) (hcheck : checkJobs s = .ok ((), s')) :
    DispatchOrdered s s' := by
  rintro a b ⟨⟨ja, hja, hdel, hwaits⟩, ⟨jb, hjb, hbunsent⟩, ⟨ja', hja', hwaits'⟩,
    ⟨jb', hjb', hbsent⟩, -⟩
  obtain ⟨hroom, -, t, hsame, hpool, hgen, hstart⟩ := checkJobs_sent hcheck hjb hjb' hbunsent hbsent
  obtain ⟨n, pool, recalc, rfl⟩ := hsame
  obtain ⟨front, rest, hsplit, ha⟩ := eq_append_cons_of_mem (h.mem_passPool hja hdel hwaits.1)
  have hn :
      jobsToStart
      { s with candidatePoolSize := n, candidatePool := pool, candidateRecalc := recalc } =
      s.passPool.length := by
    rw [jobsToStart, if_neg fun hlimit ↦ hlimit.1 hmax, hpool]
    omega
  rw [hsplit] at hstart hn
  obtain ⟨u, hreach, hju, hconf⟩ := startFrom_reaches hstart ha (by rw [hn, zero_add]) hja
  obtain ⟨k', rest', hrest⟩ := hreach.rest hstart
  obtain ⟨r, -, hwhy, -, -⟩ := startFrom_waits hrest hju hwaits hja' hwaits'.2
  rw [← hsplit, ← hpool] at hreach
  refine ⟨u, r, ⟨hroom, _, hgen, hreach⟩, hwhy, (pendingFor_some hwhy).resolve_left fun hbusy ↦ ?_⟩
  exact hbusy.1 (by rw [hconf]; exact hmax)

/-- **Dispatch follows the current priorities** in every run that does not change them behind the
pool, and in every run in which passes are not limited. -/
theorem dispatchOrdered_of_runs {config : Config} {hosts : List Str} {s s' : Server} {env : Env}
    (h : Runs orderKept config hosts s ∧ orderKept s (env, .checkJobs) = true ∨
      Runs anyEvent config hosts s ∧ s.config.maxRunJobs = -1 ∧ s.passPool.length < 2 ^ 32)
    (hcheck : checkJobs s = .ok ((), s')) : DispatchOrdered s s' := by
  rcases h with ⟨hrun, hgood⟩ | ⟨hrun, hmax, hlength⟩
  · have hready := hrun.invariant (I := PoolReady) (fun ht hgood hstep ↦ ht.step hgood hstep)
      (poolReady_initial config hosts)
    exact hready.dispatchOrdered hgood hcheck
  · have hfilled := hrun.invariant (I := PoolFilled) (fun ht _ hstep ↦ ht.step hstep)
      (poolReady_initial config hosts).toPoolFilled
    exact hfilled.dispatchOrdered_unlimited hmax hlength hcheck

namespace Sample

/-- A server for one job at a time. -/
def narrow : Config := { maxJobid := 100, maxRunJobs := 1 }

/-- Two jobs on a queue that is not started yet; a pass puts them into the pool. -/
def pooledPair : List Event :=
  [.client root (.addQueue { name := some "q".toList, state := 2, jobLimit := 2 }), .connect 0,
    .agent 0 .login, .agent 0 (.recon []), .client root addJob, .client root addJob, .checkJobs]

/-- The second job is given a higher priority, and the queue is started. -/
def raiseSecond : List Event :=
  [.client root (.modJob { jobid := 2, priority := 200 }),
    .client root (.modQueue { name := some "q".toList, state := 3 })]

/-- The first job is sent, if the loop comes to it now. -/
def startsFirst (s : Server) : Bool :=
  match tryStart 0 s with
  | .ok (started, _) => started
  | .error _ => false

/-- The pool has the two jobs, the first in front, and a pass is to start one. -/
def stalePool (s : Server) : Bool :=
  s.candidateRecalc == false && s.candidatePool == [some 0, some 1] && jobsToStart s == 1 &&
  startsFirst s

/-- The jobs in the table at the two addresses, as far as they matter. -/
def flagsOf (s : Server) (a : Addr) : Option (Bool × JobState × Bool) :=
  (s.jobTable.get? a).map fun j ↦ (j.internalState.deleted, j.state, j.internalState.started)

end Sample

/-- With the old pool, the loop ends before it comes to the second job. -/
theorem not_reached_of_stalePool {s u : Server} (h : stalePool s = true) : ¬Reached s 1 u := by
  simp only [stalePool, Bool.and_eq_true, beq_iff_eq] at h
  obtain ⟨⟨⟨hrecalc, hpool⟩, hlimit⟩, hfirst⟩ := h
  rintro ⟨-, t, hgen, hreach⟩
  rcases whenever_ok_iff.mp hgen with ⟨habs, -⟩ | ⟨-, rfl⟩
  · exact nomatch hrecalc.symm.trans habs
  rw [hpool, hlimit] at hreach
  cases hreach with
  | @round _ _ started _ _ t' htry hmore _ =>
    rw [startsFirst, htry] at hfirst
    exact hmore ⟨hfirst, le_rfl⟩

/-- A job whose priority has been raised is overtaken by the job in front of it in the old pool. -/
theorem not_dispatchOrdered_stale : ∃ s s', Runs anyEvent narrow hosts s ∧
    checkJobs s = .ok ((), s') ∧ ¬DispatchOrdered s s' := by
  obtain ⟨s, hrun, hstale, hplace₁, hplace₀, hflags₁, hflags₀, t, hafter, ht₁, ht₀⟩ :=
    exists_runs anyEvent narrow hosts (events (pooledPair ++ raiseSecond))
      (fun s ↦ stalePool s = true ∧ s.place 1 = some ⟨100, 200, 2⟩ ∧
        s.place 0 = some ⟨100, 100, 1⟩ ∧ flagsOf s 1 = some (false, .pending, false) ∧
        flagsOf s 0 = some (false, .pending, false) ∧ ∃ t ∈ after (Sample.env, .checkJobs) s,
          flagsOf t 1 = some (false, .pending, false) ∧
          flagsOf t 0 = some (false, .pending, true)) (by decide +kernel)
  have hflags {v : Server} {a : Addr} {sent : Bool}
      (h : flagsOf v a = some (false, .pending, sent)) :
      ∃ j, v.jobTable.get? a = some j ∧ j.internalState.deleted = false ∧ j.state = .pending ∧
        j.internalState.started = sent := by
    obtain ⟨j, hj, heq⟩ := map_eq_some_iff.mp h
    simp only [Prod.mk.injEq] at heq
    exact ⟨j, hj, heq⟩
  obtain ⟨j₁, hj₁, hdel₁, hst₁, hsent₁⟩ := hflags hflags₁
  obtain ⟨j₀, hj₀, -, -, hsent₀⟩ := hflags hflags₀
  obtain ⟨i₁, hi₁, -, hst₁', hsent₁'⟩ := hflags ht₁
  obtain ⟨i₀, hi₀, -, -, hsent₀'⟩ := hflags ht₀
  refine ⟨s, t, hrun, step_of_after hafter, fun hordered ↦ ?_⟩
  obtain ⟨u, -, hreached, -⟩ := hordered 1 0
    { waits := ⟨j₁, hj₁, hdel₁, hst₁, hsent₁⟩
      unsent := ⟨j₀, hj₀, hsent₀⟩
      still := ⟨i₁, hi₁, hst₁', hsent₁'⟩
      sent := ⟨i₀, hi₀, hsent₀'⟩
      before := ⟨_, _, hplace₁, hplace₀, .inr ⟨rfl, .inl (by decide)⟩⟩ }
  exact not_reached_of_stalePool hstale hreached

/-- Without the change of the priority, a pass over the same pool. -/
theorem dispatchOrdered_pair : ∃ s s', Runs orderKept narrow hosts s ∧
    checkJobs s = .ok ((), s') ∧ DispatchOrdered s s' ∧
    flagsOf s' 0 = some (false, .pending, true) := by
  obtain ⟨s, hrun, hgood, t, hafter, ht⟩ := exists_runs orderKept narrow hosts
    (events (pooledPair ++ [.client root (.modQueue { name := some "q".toList, state := 3 })]))
    (fun s ↦ orderKept s (Sample.env, .checkJobs) = true ∧
      ∃ t ∈ after (Sample.env, .checkJobs) s, flagsOf t 0 = some (false, .pending, true))
    (by decide +kernel)
  have hstep := step_of_after hafter
  exact ⟨s, t, hrun, hstep, dispatchOrdered_of_runs (.inl ⟨hrun, hgood⟩) hstep, ht⟩

end Jers
