import Jers.Server.Gates

/-!
# Resources in a scheduling pass

`checkRes` compares each requirement of a job with what is free, and `allocateRes` adds them all up.
A list that names a resource twice passes the check with each count alone and takes their sum; a
negative count lowers the amount in use. Over a pass the amounts in use stay between what they were
and the larger of this and the count of the resource, if no ready job lowers one, and if the ready
jobs ask for no more than their largest entry, or for no more than is free all together
(`Server.fits`).
-/

namespace Jers

open Exec List Option Table Sample

variable {s s' t t' : Server} {reqs : List JobResource} {b : Addr}

/-! ### Requirement lists -/

/-- The largest amount of the resource at `b` that one entry of a list asks for. -/
def peak (reqs : List JobResource) (b : Addr) : ℤ :=
  ((reqs.filter fun x ↦ x.res = b).map JobResource.needed).foldr max 0

theorem foldr_max_le {l : List ℤ} {k : ℤ} (h : ∀ n ∈ l, n ≤ k) : l.foldr max 0 ≤ max 0 k := by
  induction l with
  | nil => exact le_max_left _ _
  | cons m l ih =>
    rw [foldr_cons]
    exact max_le ((h m mem_cons_self).trans (le_max_right _ _))
      (ih fun n hn ↦ h n (mem_cons_of_mem m hn))

/-- A list whose entries are available for themselves asks for no more than is free in one entry. -/
theorem Available.peak_le {c : Core} {r : Resource} (h : Available c reqs)
    (hr : c.resTable.get? b = some r) : peak reqs b ≤ max 0 (r.count - r.inUse) := by
  refine foldr_max_le fun n hn ↦ ?_
  obtain ⟨x, hx, rfl⟩ := List.mem_map.mp hn
  obtain ⟨hmem, hres⟩ := mem_filter.mp hx
  obtain ⟨r', hr', hfree⟩ := h x hmem
  rw [of_decide_eq_true hres] at hr'
  obtain rfl := mem_unique hr hr'
  exact hfree

/-- What the ready jobs ask for of one resource: nothing is given back, and no list asks for more
than its largest entry, or all of them fit together. -/
def Server.fitsAt (s : Server) (b : Addr) (r : Resource) : Bool :=
  (s.jobTable.all fun _ j ↦ !s.ready j || 0 ≤ amount j.asks b) &&
    ((s.jobTable.all fun _ j ↦ !s.ready j || amount j.asks b ≤ peak j.asks b) ||
      s.tally (fun j ↦ amount j.asks b) s ≤ max 0 (r.count - r.inUse))

/-- What the ready jobs ask for can be taken. -/
def Server.fits (s : Server) : Bool := s.resTable.all s.fitsAt

/-! ### The amounts in use over a pass -/

/-- A resource from which more and more is taken. -/
structure Resource.Taken (r r' : Resource) : Prop where
  count : r'.count = r.count
  grows : r.inUse ≤ r'.inUse
  bound : r'.inUse ≤ max r.inUse r.count

theorem Resource.Taken.refl (r : Resource) : r.Taken r := ⟨rfl, le_rfl, le_max_left _ _⟩

/-- What is taken is taken for the ready jobs. -/
structure TakenFor (s t : Server) : Prop extends Narrowed s t where
  taken : ∀ b, Option.Rel (fun r r' ↦ r.Taken r' ∧ r'.inUse + s.tally (fun j ↦ amount j.asks b) t =
    r.inUse + s.tally (fun j ↦ amount j.asks b) s) (s.resTable.get? b) (t.resTable.get? b)

/-- A test of the ready jobs of `s` holds for those that are left in `t`. -/
theorem Narrowed.all_ready (h : Narrowed s t) (p : List JobResource → Prop) [DecidablePred p]
    (hall : (s.jobTable.all fun _ j ↦ !s.ready j || p j.asks) = true) {a : Addr} {j : Job}
    (hj : t.jobTable.get? a = some j) (hready : s.ready j = true) : p j.asks := by
  have hflag : j.internalState.started = false := by
    simp only [Server.ready, Bool.and_eq_true, decide_eq_true_iff] at hready
    exact hready.1.1.2
  obtain ⟨i, hi, heq⟩ := h.untouched a j hj hflag
  have hp := all_iff.mp hall a i hi
  rw [heq] at hready ⊢
  have hready : s.ready i = true := hready
  have hpi : p i.asks := by simpa [hready] using hp
  exact hpi

/-- **A round takes what fits.** -/
theorem TakenFor.round {a : Addr} {started : Bool} (h : TakenFor s t) (hfits : s.fits = true)
    (hround : Round t a t' started) : TakenFor s t' := by
  have hnarrowed := h.toNarrowed.round hround
  refine ⟨hnarrowed, fun b ↦ ?_⟩
  cases hround with
  | skip _ _ heq => exact heq ▸ h.taken b
  | wait _ _ heq hshift =>
    rw [tally_wait rfl hshift, heq]
    exact h.taken b
  | @start j reqs hwaits hclear _ hshift =>
    have hready := h.ready hwaits hclear
    refine optionRel_trans (fun {r r' r''} hr hr' ↦ ?_)
      (optionRel_mono (fun hr hrel ↦ And.intro hr hrel) (h.taken b))
      (optionRel_mono (fun hr' hmoved ↦ And.intro hr' hmoved) (hshift.resources b))
    obtain ⟨hr, htaken, htally⟩ := hr
    obtain ⟨hr', rfl⟩ := hr'
    obtain ⟨hlow, hhigh⟩ := Bool.and_eq_true_iff.mp (all_iff.mp hfits b r hr)
    have hnonneg := h.all_ready (0 ≤ amount · b) hlow hshift.found hready
    have hleft : 0 ≤ s.tally (fun j ↦ amount j.asks b) t' := tally_nonneg fun c i hi hready' ↦
      hnarrowed.all_ready (0 ≤ amount · b) hlow hi hready'
    rw [h.tally_start hwaits hclear hshift] at hleft ⊢
    rw [hclear.asks] at hnonneg hleft ⊢
    have hcount := htaken.count
    have hgrows := htaken.grows
    have hbound := htaken.bound
    refine ⟨⟨hcount, by dsimp only; omega, ?_⟩, by dsimp only; omega⟩
    dsimp only
    rcases Bool.or_eq_true_iff.mp hhigh with hpeak | hsum
    · -- the list is checked against what is free now
      have hfree := hclear.available.peak_le hr'
      have hentry := h.all_ready (fun l ↦ amount l b ≤ peak l b) hpeak hshift.found hready
      rw [hclear.asks] at hentry
      omega
    · have hall := of_decide_eq_true hsum
      omega

end Jers
