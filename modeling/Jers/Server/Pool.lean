import Jers.Server.BookEvents
import Jers.Server.Loading

/-!
# The candidate pool

The scheduler keeps the pending jobs in `server.candidate_pool`, an array that it fills again only
when `server.candidate_recalc` asks for it. Its size is taken from the counters of the states. These
are never too low (`CountsCover`), although they may be too high: a job that is freed in a state
other than 0 stays counted. So the pool is large enough, and it is empty only if no job is pending.
-/

namespace Jers

open Exec List Option Bool Table Sample

/-! ### The counters are not too low -/

/-- No state has more jobs than its counter says. -/
def CountsCover (c : Core) : Prop :=
  ∀ S, S ≠ .cleared → c.jobTable.count (fun j ↦ j.state = S) ≤ c.stats.count S

variable {a : Addr} {s : Server}

section

variable {c c' : Core} {l : Label}

/-- A job that is freed stays counted, so that the counters may become too high. -/
theorem CountsCover.of_move (h : CountsCover c) (hm : Move l c c')
    (hadd : ∀ {j j' k}, l = .addJob j j' k → j.state = .cleared) : CountsCover c' := by
  intro S hS
  refine sub_nonneg.mp (Tallied.move (f := (·.count S)) (R := (0 ≤ ·)) (Q := fun _ ↦ True) (c := c)
    ⟨sub_nonneg.mpr (h S hS), fun _ _ _ ↦ trivial⟩ hm (fun _ _ _ _ _ ↦ follows_count hS)
    (fun j j' k he ↦ hadd he ▸ hS.symm) ?_ fun _ _ _ _ ↦ .inr trivial).server
  exact fun _ _ _ _ ↦ ⟨fun x hx ↦ by omega, fun _ _ ↦ trivial⟩

theorem CountsCover.move {env : Env} {e : Event} (h : CountsCover c)
    (hl : Allowed env s e c l) (hm : Move l c c') : CountsCover c' :=
  h.of_move hm hl.addJob_cleared

/-- The candidates are among the pending jobs. -/
theorem CountsCover.candidates_le (h : CountsCover c) :
    (c.candidates.length : ℤ) ≤ c.stats.pending := by
  have hle : (c.candidates.length : ℤ) ≤ c.jobTable.count fun j ↦ j.state = .pending := by
    rw [Tables.candidates, ← countP_eq_length_filter, Table.addrs, countP_map, Table.count,
      Nat.cast_le]
    refine countP_mono_left fun r hr hp ↦ ?_
    have hget := mem_rows_iff.mp (show (r.1, r.2) ∈ c.jobTable.rows from hr)
    simp only [Function.comp_apply, hget, any_some, and_eq_true, beq_iff_eq] at hp
    exact decide_eq_true hp.2
  exact hle.trans (h .pending (by simp))

end

/-! ### The pool -/

/-- The entries of the pool are jobs of the table, each once, and the pool is complete unless a new
one is asked for. -/
structure PoolGood (b : Books) : Prop where
  listed : b.recalc = false → ∀ a j, b.jobs.get? a = some j → j.internalState.deleted = false →
    j.state = .pending → some a ∈ b.pool
  live : ∀ a, some a ∈ b.pool → (b.jobs.get? a).isSome
  once : ∀ a, b.pool.count (some a) ≤ 1

theorem count_clearCandidate (a b : Addr) (l : List (Option Addr)) :
    (clearCandidate a l).count (some b) = l.count (some b) - if b = a then 1 else 0 := by
  induction l with
  | nil => simp [clearCandidate]
  | cons x l ih =>
    rw [clearCandidate]
    split
    · next hx =>
      subst hx
      by_cases hb : b = a
      · simp [hb]
      · simp [hb, Ne.symm hb]
    · next hx =>
      rw [count_cons, count_cons, ih]
      by_cases hb : b = a
      · subst hb
        simp [hx]
      · simp [hb]

theorem mem_clearCandidate {b : Addr} {l : List (Option Addr)} (hb : b ≠ a) :
    some b ∈ clearCandidate a l ↔ some b ∈ l := by
  rw [← count_pos_iff, ← count_pos_iff, count_clearCandidate, if_neg hb, tsub_zero]

/-- A job has been written to, in a way that leaves it listed or asks for a new pool. -/
theorem PoolGood.modify {b : Books} {j j' : Job} {recalc : Bool} {deleted : ℕ}
    (h : PoolGood b) (hj : b.jobs.get? a = some j)
    (hnew : recalc = false → b.recalc = false ∧ (j'.internalState.deleted = false →
      j'.state = .pending → j.internalState.deleted = false ∧ j.state = .pending)) :
    PoolGood { jobs := b.jobs.modify a fun _ ↦ j', pool := b.pool, recalc, deleted } := by
  refine ⟨fun hrecalc c i hi hdel hst ↦ ?_, fun c hc ↦ isSome_modify (h.live c hc), h.once⟩
  obtain ⟨hfresh, hwas⟩ := hnew hrecalc
  rcases get?_modify_some hi with ⟨rfl, v, hv, rfl⟩ | ⟨-, hi⟩
  · obtain ⟨hdel', hst'⟩ := hwas hdel hst
    exact h.listed hfresh c j hj hdel' hst'
  · exact h.listed hfresh c i hi hdel hst

/-- **Every step of the books keeps the pool.** -/
theorem PoolGood.step {L : Job → Prop} {G : Prop} {b b' : Books} (h : PoolGood b)
    (hstep : BookStep L G b b') : PoolGood b' := by
  cases hstep with
  | quiet => exact h
  | edit hj _ _ hst hdel =>
    refine h.modify hj fun hrecalc ↦ ⟨hrecalc, fun hdel' hst' ↦ ?_⟩
    exact ⟨hdel.symm.trans hdel', hst.symm.trans hst'⟩
  | @change a j st q dirty hj =>
    refine h.modify hj fun hrecalc ↦ ?_
    obtain ⟨hfresh, hask⟩ := or_eq_false_iff.mp hrecalc
    refine ⟨hfresh, fun hdel hst ↦ ⟨hdel, ?_⟩⟩
    -- a job that has come to be pending would have asked for a new pool
    have hst : st = .pending := hst
    subst hst
    by_contra hne
    simp [hne, JobState.waits] at hask
  | lose hj _ => exact h.modify hj fun hrecalc ↦ ⟨hrecalc, fun _ hst ↦ by cases hst⟩
  | delete hj _ => exact h.modify hj fun hrecalc ↦ ⟨hrecalc, fun hdel ↦ by cases hdel⟩
  | @add j _ _ hst =>
    refine ⟨fun hrecalc c i hi hdel hpend ↦ ?_, fun c hc ↦ isSome_push (h.live c hc), h.once⟩
    rw [get?_push] at hi
    split at hi
    · obtain rfl := some.inj hi
      exact absurd (hst.symm.trans hpend) (by decide)
    · exact h.listed hrecalc c i hi hdel hpend
  | @clean a j hj hdel =>
    refine ⟨fun hrecalc c i hi hdel' hst ↦ ?_, fun c hc ↦ ?_, fun c ↦ ?_⟩
    · obtain ⟨hne, hi⟩ := get?_erase_some hi
      exact (mem_clearCandidate hne).mpr (h.listed hrecalc c i hi hdel' hst)
    · have hne : c ≠ a := by
        rintro rfl
        have hcount := count_clearCandidate c c b.pool
        have honce := h.once c
        have hpos : 0 < (clearCandidate c b.pool).count (some c) := count_pos_iff.mpr hc
        rw [if_pos rfl] at hcount
        omega
      exact isSome_erase (h.live c ((mem_clearCandidate hne).mp hc)) hne
    · have honce := h.once c
      show (clearCandidate a b.pool).count (some c) ≤ 1
      rw [count_clearCandidate]
      omega
  | ask => exact ⟨by simp, h.live, h.once⟩
  | @generate pool _ hnodup hmem =>
    have hin {c : Addr} : some c ∈ pool.map some ↔ c ∈ pool := by simp
    refine ⟨fun _ c i hi hdel hst ↦ hin.mpr ((hmem c).mpr ⟨i, hi, hdel, hst⟩), fun c hc ↦ ?_,
      fun c ↦ ?_⟩
    · obtain ⟨i, hi, -⟩ := (hmem c).mp (hin.mp hc)
      rw [hi]
      rfl
    · exact nodup_iff_count_le_one.mp (hnodup.map (some_injective _)) _

/-! ### Runs -/

/-- The pool is complete, has no entry of a freed job and no job twice, unless a new one is asked
for; and a new one fits into the array. -/
structure PoolRight (s : Server) : Prop where
  listed : s.candidateRecalc = false → ∀ a j, s.jobTable.get? a = some j →
    j.internalState.deleted = false → j.state = .pending → j.internalState.started = false →
    some a ∈ s.candidatePool
  live : s.candidateRecalc = false → ∀ a, some a ∈ s.candidatePool → (s.jobTable.get? a).isSome
  once : s.candidateRecalc = false → ∀ a, s.candidatePool.count (some a) ≤ 1
  fits : generateCandidatePool s ≠ .error .outOfBounds

/-- **A new pool fits into the array.** -/
theorem CountsCover.fits (h : CountsCover s.toCore) :
    generateCandidatePool s ≠ .error .outOfBounds := by
  have hpending := h.candidates_le
  have hdeferred : 0 ≤ s.stats.deferred := (count_nonneg _).trans (h .deferred nofun)
  have hholding : 0 ≤ s.stats.holding := (count_nonneg _).trans (h .holding nofun)
  intro hfault
  rw [generateCandidatePool, update_bind] at hfault
  -- the array after it has been made larger
  generalize ht :
    (if s.candidatePoolSize < s.stats.pending + s.stats.deferred + s.stats.holding then
    { s with candidatePoolSize := (s.stats.pending + s.stats.deferred + s.stats.holding) * 3 / 2 }
    else s) = t at hfault
  have hsize : (t.candidates.length : ℤ) ≤ t.candidatePoolSize := by
    rw [← ht]
    split
    · show (s.candidates.length : ℤ) ≤ _
      dsimp only
      omega
    · omega
  rw [read_bind] at hfault
  split at hfault
  · exact nomatch hfault
  rw [read_bind, read_bind] at hfault
  split at hfault
  · next hlt => exact absurd hsize (not_le.mpr hlt)
  rw [read_bind] at hfault
  split at hfault
  · exact nomatch hfault
  · exact nomatch hfault

theorem LoadStep.poolGood {s' : Server} {e : LoadEvent}
    (h : s.recovery = none ∧ CountsCover s.toCore ∧ PoolGood s.books) (hstep : LoadStep s e s') :
    s'.recovery = none ∧ CountsCover s'.toCore ∧ PoolGood s'.books := by
  obtain ⟨hrec, hcover, hpool⟩ := h
  have hkeep {t t' : Server} (ht : PoolGood t.books)
      (hwalk : Relation.ReflTransGen (Booked (fun _ ↦ True) True) t t') : PoolGood t'.books := by
    induction hwalk with
    | refl => exact ht
    | tail _ hb ih => exact ih.step hb
  cases e with
  | load fileName text =>
    obtain ⟨j, f, -, -, -, hm, -⟩ := LoadStep.load hstep
    obtain ⟨j, hload, hadd⟩ := hstep
    exact ⟨hm.frame.recovery.trans hrec, hcover.of_move hm (fun he ↦ by cases he; rfl),
      hkeep hpool (addJob_walks (stateLoadJob_linked hload).2 false s 0 s' hadd)⟩
  | event env e =>
    have hcount : s.stats.pending = 0 → s.candidates = [] := by
      intro hzero
      have hle := hcover.candidates_le
      rw [hzero] at hle
      exact eq_nil_of_length_eq_zero (by omega)
    exact ⟨handle_recovery hrec hstep,
      (handle_path hrec hstep).invariant (fun hc hl hm ↦ hc.move hl hm) hcover,
      hkeep hpool (handle_books hcount (fun _ _ _ _ _ _ _ _ _ ↦ trivial) (fun _ ↦ trivial) hstep)⟩

/-- **The candidate pool is right in every run.** -/
theorem poolRight_of_runs {config : Config} {hosts : List Str} {s : Server}
    (h : LoadRuns (fun _ _ ↦ true) config hosts s) : PoolRight s := by
  have hinv : s.recovery = none ∧ CountsCover s.toCore ∧ PoolGood s.books := by
    refine h.invariant (I := fun t ↦ t.recovery = none ∧ CountsCover t.toCore ∧ PoolGood t.books)
      (fun ht _ hstep ↦ hstep.poolGood ht) ⟨rfl, fun S _ ↦ ?_, nofun, nofun, fun a ↦ ?_⟩
    · cases S <;> exact le_rfl
    · exact Nat.zero_le 1
  obtain ⟨-, hcover, hpool⟩ := hinv
  exact ⟨fun hrecalc a j hj hdel hst _ ↦ hpool.listed hrecalc a j hj hdel hst,
    fun _ ↦ hpool.live, fun _ ↦ hpool.once, hcover.fits⟩

/-- Two jobs in the pool, of which one was started before. -/
theorem poolRight_of_runs_two : ∃ s, LoadRuns (fun _ _ ↦ true) config hosts s ∧
    s.candidateRecalc = false ∧ s.candidatePool.length = 2 ∧ PoolRight s := by
  obtain ⟨s, hrun, hp⟩ := exists_runs anyEvent config hosts
    (events (Sample.startJob ++ [.client root Sample.addJob, .checkJobs]))
    (fun s ↦ s.candidateRecalc = false ∧ s.candidatePool.length = 2) (by decide +kernel)
  have hall : LoadRuns (fun _ _ ↦ true) config hosts s := .of_runs hrun
  exact ⟨s, hall, hp.1, hp.2, poolRight_of_runs hall⟩

end Jers
