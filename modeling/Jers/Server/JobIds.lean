import Jers.Server.Moves

/-!
# Job ids, and the jobs that are freed for them

`getNextJobID` looks for an unused id and, when there is none, has deleted jobs freed. Whatever the
functions around it do, they go by steps that free a deleted job or move the start of the search
(`FreeStep`).
-/

namespace Jers

open Exec Option

/-- The server without the job at `a`. -/
def Server.without (s : Server) (a : Addr) : Server :=
  { s with
    jobTable := s.jobTable.erase a
    candidatePool := clearCandidate a s.candidatePool
    deleted := (s.deleted + 2 ^ 32 - 1) % 2 ^ 32 }

/-- A deleted job that nothing holds back is freed, or the search for an id goes on elsewhere. -/
inductive FreeStep (s : Server) : Server → Prop
  | free {a : Addr} {j : Job} (hj : s.jobTable.get? a = some j) (hrem : j.Removable) :
    FreeStep s (s.without a)
  | search (id : ℕ) : FreeStep s { s with startJobid := id }

/-- Deleted jobs have been freed. -/
abbrev Freed : Server → Server → Prop := Relation.ReflTransGen FreeStep

variable {s s' : Server} {a : Addr} {j : Job} {n id id' maxJobid : ℕ} {t : Tables}

/-- The search for an id touches no settings, and no record is replayed by it. -/
theorem Freed.same (h : Freed s s') : s'.config = s.config ∧ s'.recovery = s.recovery := by
  induction h with
  | refl => exact ⟨rfl, rfl⟩
  | tail _ hstep ih => cases hstep <;> exact ih

theorem cleanupJob_walks (hj : s.jobTable.get? a = some j) (hdel : j.internalState.deleted = true) :
    Walks FreeStep (cleanupJob a) s := by
  refine .bind (.of_eq fun h ↦ (getJob_ok h).2) fun {i _} hg ↦ ?_
  obtain ⟨hi, rfl⟩ := getJob_ok hg
  obtain rfl := mem_unique hj hi
  split
  · exact .pure _ _
  · next hclean =>
    simp only [Bool.or_eq_true, not_or, Bool.not_eq_true] at hclean
    exact .bind (.update (.free hj ⟨hdel, hclean⟩)) fun _ ↦ .pure _ _

theorem cleanupJobsFrom_walks (maxClean n : ℕ) (as : List Addr) (s : Server) :
    Walks FreeStep (cleanupJobsFrom maxClean n as) s := by
  induction as generalizing n s with
  | nil => exact .pure _ _
  | cons a as ih =>
    refine .bind (.of_eq fun h ↦ (getJob_ok h).2) fun {j _} hg ↦ ?_
    obtain ⟨hj, rfl⟩ := getJob_ok hg
    split
    · exact ih _ _
    · next hdel =>
      refine .bind (cleanupJob_walks hj (by simpa using hdel)) fun _ ↦ ?_
      split
      · exact .pure _ _
      · exact ih _ _

theorem cleanupJobs_walks (maxClean : ℕ) (s : Server) :
    Walks FreeStep (cleanupJobs maxClean) s := by
  refine .bind (.read _ s) fun _ ↦ ?_
  split
  · exact .pure _ _
  · exact .bind (.read _ _) fun _ ↦ cleanupJobsFrom_walks _ _ _ _

theorem getNextJobIDWithin_walks (depth : ℕ) (s : Server) :
    Walks FreeStep (getNextJobIDWithin depth) s := by
  induction depth generalizing s with
  | zero => exact .stop _ _
  | succ depth ih =>
    refine .bind (.read _ s) fun {id _} _ ↦ ?_
    cases id with
    | some id => exact .bind (.update (.search id)) fun _ ↦ .pure _ _
    | none =>
      refine .bind (cleanupJobs_walks _ _) fun _ ↦ ?_
      split
      · exact .pure _ _
      · exact ih _

theorem pickJobid_walks (wanted : ℕ) (s : Server) : Walks FreeStep (pickJobid wanted) s := by
  rw [pickJobid]
  split
  · exact .bind (.read _ s) fun _ ↦ getNextJobIDWithin_walks _ _
  · exact .pure _ _

theorem claimJobid_walks (jobid : ℕ) (s : Server) : Walks FreeStep (claimJobid jobid) s := by
  rw [claimJobid]
  split
  · exact .pure _ _
  refine .bind (.read _ s) fun {found _} hr ↦ ?_
  obtain ⟨hfound, rfl⟩ := read_ok_iff.mp hr
  cases found with
  | none => exact .pure _ _
  | some r =>
    dsimp only
    split
    · exact .pure _ _
    · next hdel =>
      exact .bind (cleanupJob_walks (Table.find?_some hfound).1 (by simpa using hdel))
        fun _ ↦ .pure _ _

/-! ### The search -/

/-- The search finds unused ids only. -/
theorem freeId_unused (h : freeId t maxJobid n id = some id') : t.findJob id' = none := by
  induction n generalizing id with
  | zero => exact nomatch h
  | succ n ih =>
    simp only [freeId] at h
    split at h
    · next hnone =>
      obtain rfl := some.inj h
      exact isNone_iff_eq_none.mp hnone
    · exact ih h

/-- The search stays within the ids. -/
theorem freeId_le (h : freeId t maxJobid n id = some id') : id' ≤ max 1 maxJobid := by
  induction n generalizing id with
  | zero => exact nomatch h
  | succ n ih =>
    simp only [freeId] at h
    split at h
    · obtain rfl := some.inj h
      simp only [nextId]
      split <;> omega
    · exact ih h

/-- An id that is given out is unused. -/
theorem getNextJobIDWithin_post {depth : ℕ} : Post (getNextJobIDWithin depth) s fun id s' ↦
    id ≤ max 1 s.config.maxJobid ∧ (id ≠ 0 → s'.findJob id = none) := by
  induction depth generalizing s with
  | zero => exact .stop _
  | succ depth ih =>
    refine .read ?_
    cases hfound : freeId s.toTables s.config.maxJobid s.config.maxJobid s.startJobid with
    | some id => exact .update (.pure ⟨freeId_le hfound, fun _ ↦ freeId_unused hfound⟩)
    | none =>
      refine .bind fun cleaned t hclean ↦ .ite (fun _ ↦ .pure ⟨Nat.zero_le _, absurd rfl⟩)
        fun _ ↦ ?_
      rw [← (Freed.same (cleanupJobs_walks 5 s cleaned t hclean)).1]
      exact ih

end Jers
