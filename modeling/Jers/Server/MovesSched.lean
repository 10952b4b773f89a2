import Jers.Server.Pass

/-!
# The moves of the scheduler

The release of deferred jobs and the scheduling pass make the moves `release`, `idle` and `start` of
`Allowed`. In a pass a job is started at most once, since it is flagged from then on.
-/

namespace Jers

open Exec

variable {s s' : Server}

/-! ### Deferred jobs -/

variable {a : Addr} {env : Env} {j : Job} {s₀ : Server}

/-- The release of one job. -/
theorem release_shift {t u v : Server} (hj : s.jobTable.get? a = some j)
    (hmod : modifyJob a (fun j ↦ { j with deferTime := 0 }) s = .ok ((), t))
    (hchange : changeJobState a .pending none false t = .ok ((), u))
    (hremove : removeDeferredJob a u = .ok ((), v)) :
    Shift a j j.released { deferred := fun l ↦ l.erase a } s.toCore v.toCore := by
  have hmove := ((Shift.refl hj).edits hmod rfl rfl).changes rfl hchange
  have hcost (i : Job) : slotsFreed i .pending none = 0 := by simp [slotsFreed]
  rw [Cost.default_andThen, hcost, neg_zero] at hmove
  obtain rfl := removeDeferredJob_ok hremove
  have hall := hmove.trans (Shift.defer hmove.found' fun l ↦ l.erase a) (.inl rfl)
  rw [Cost.default_andThen] at hall
  exact hall

/-- The first job of the list: its time has not come, or it is released. -/
theorem releaseFrom_cons {now : ℤ} {k m : ℕ} {as : List Addr}
    (h : releaseFrom now k (a :: as) s = .ok (m, s')) : ∃ j, s.jobTable.get? a = some j ∧
      (now < j.deferTime ∧ s = s' ∨ j.deferTime ≤ now ∧ ∃ t,
        Shift a j j.released { deferred := fun l ↦ l.erase a } s.toCore t.toCore ∧
        releaseFrom now (k + 1) as t = .ok (m, s')) := by
  obtain ⟨j, hj, h₁⟩ := getJob_bind_ok h
  split at h₁
  · next hlt => exact ⟨j, hj, .inl ⟨hlt, (pure_ok_iff.mp h₁).2⟩⟩
  · next hle =>
    obtain ⟨_, t, hmod, h₂⟩ := bind_ok_iff.mp h₁
    obtain ⟨_, u, hchange, h₃⟩ := bind_ok_iff.mp h₂
    obtain ⟨_, v, hremove, hrest⟩ := bind_ok_iff.mp h₃
    exact ⟨j, hj, .inr ⟨not_lt.mp hle, v, release_shift hj hmod hchange hremove, hrest⟩⟩

theorem releaseFrom_path {now : ℤ} {k m : ℕ} {as : List Addr} (hlist : s.deferredList = as)
    (h : releaseFrom now k as s = .ok (m, s')) :
    Path (Allowed env s₀ .releaseDeferred) s.toCore s'.toCore := by
  induction as generalizing k s with
  | nil => exact Path.of_eq (congrArg _ (pure_ok_iff.mp h).2)
  | cons a as ih =>
    obtain ⟨j, hj, ⟨-, rfl⟩ | ⟨-, t, hmove, hrest⟩⟩ := releaseFrom_cons h
    · exact .refl _
    · have hfirst : Path (Allowed env s₀ .releaseDeferred) s.toCore t.toCore :=
        Path.single (.release (by rw [hlist]; exact List.mem_cons_self)) hmove
      refine hfirst.trans (ih ?_ hrest)
      -- the first job of the list has been taken out of it
      exact hmove.deferred.trans (hlist ▸ List.erase_cons_head a as)

theorem releaseDeferred_path (h : releaseDeferred env s = .ok ((), s')) :
    Path (Allowed env s .releaseDeferred) s.toCore s'.toCore := by
  obtain ⟨_, rfl, h₁⟩ := read_bind_ok_iff.mp h
  obtain ⟨released, t, hrelease, h₂⟩ := bind_ok_iff.mp h₁
  have hpath : Path (Allowed env s .releaseDeferred) s.toCore t.toCore :=
    releaseFrom_path rfl hrelease
  rcases whenever_ok_iff.mp h₂ with ⟨-, hupd⟩ | ⟨-, rfl⟩
  · rw [update_ok_iff.mp hupd]
    exact hpath
  · exact hpath

/-! ### The scheduling pass -/

/-- The jobs that are not flagged are as they were in `s`, apart from the reason they wait for. -/
def Untouched (s : Server) (c : Core) : Prop :=
  ∀ a j, c.jobTable.get? a = some j → j.internalState.started = false →
    ∃ j₀, s.jobTable.get? a = some j₀ ∧ j = { j₀ with pendReason := j.pendReason }

theorem Untouched.refl (s : Server) : Untouched s s.toCore := fun _ j hj _ ↦ ⟨j, hj, rfl⟩

/-- A round that only writes a reason. -/
theorem Untouched.idle {c c' : Core} (h : Untouched s c) {r : ℤ}
    (hshift : Shift a j { j with pendReason := r } {} c c') : Untouched s c' := by
  intro b i hi hflag
  obtain ⟨rfl, rfl⟩ | ⟨-, hi⟩ := hshift.get?_cases hi
  · obtain ⟨j₀, hj₀, heq⟩ := h b j hshift.found hflag
    exact ⟨j₀, hj₀, by rw [heq]⟩
  · exact h b i hi hflag

/-- A round that flags the job. -/
theorem Untouched.flag {c c' : Core} (h : Untouched s c) {j' : Job} {k : Cost}
    (hshift : Shift a j j' k c c') (hflag' : j'.internalState.started = true) : Untouched s c' := by
  intro b i hi hflag
  obtain ⟨rfl, rfl⟩ | ⟨-, hi⟩ := hshift.get?_cases hi
  · exact nomatch hflag'.symm.trans hflag
  · exact h b i hi hflag

theorem Round.untouched {b : Bool} (hun : Untouched s₀ s.toCore) (h : Round s a s' b) :
    Untouched s₀ s'.toCore := by
  cases h with
  | skip _ _ heq => exact heq ▸ hun
  | wait _ _ _ hshift => exact hun.idle hshift
  | start _ _ _ hshift => exact hun.flag hshift rfl

theorem Round.path {b : Bool} (hun : Untouched s₀ s.toCore) (hreadonly : s₀.readonly = none)
    (h : Round s a s' b) : Path (Allowed env s₀ .checkJobs) s.toCore s'.toCore := by
  cases h with
  | skip _ _ heq => exact heq ▸ Path.refl _
  | wait _ _ _ hshift => exact Path.single .idle hshift
  | start hwaits hclear _ hshift =>
    obtain ⟨j₀, hj₀, heq⟩ := hun a _ hshift.found hwaits.2
    exact Path.single (.start hj₀ heq hreadonly hwaits.1 hwaits.2 hclear.requires) hshift

theorem tagReadonly_path {x : Option Addr} (h : tagReadonly x s = .ok ((), s')) :
    Path (Allowed env s₀ .checkJobs) s.toCore s'.toCore := by
  rcases tagReadonly_cases h with rfl | ⟨a, j, -, -, hshift, -⟩
  · exact Path.refl _
  · exact Path.single .idle hshift

theorem checkJobs_path (h : checkJobs s = .ok ((), s')) :
    Path (Allowed env s .checkJobs) s.toCore s'.toCore := by
  rcases checkJobs_cases h with ⟨-, rfl⟩ | ⟨-, t, ⟨n, pool, recalc, rfl⟩, -, -, ⟨-, htag⟩ |
    ⟨hreadonly, hstart⟩⟩
  · exact Path.refl _
  · exact each_rel (R := fun t t' ↦ Path (Allowed env s .checkJobs) t.toCore t'.toCore)
      (fun _ ↦ Path.refl _) Path.trans (fun x _ _ _ hround ↦ tagReadonly_path hround) htag
  · refine (startFrom_rel (R := fun t t' ↦ Untouched s t.toCore →
      Path (Allowed env s .checkJobs) t.toCore t'.toCore ∧ Untouched s t'.toCore)
      (fun t hun ↦ ⟨Path.refl _, hun⟩) (fun h₁ h₂ hun ↦ ?_)
      (fun _ hround hun ↦ ⟨hround.path hun hreadonly, hround.untouched hun⟩) hstart (.refl s)).1
    exact ⟨(h₁ hun).1.trans (h₂ (h₁ hun).2).1, (h₂ (h₁ hun).2).2⟩

end Jers
