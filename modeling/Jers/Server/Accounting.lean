import Jers.Server.Slots

/-!
# Resources in use

The scheduler adds the requirements of a job to the amounts in use when it starts the job, and
`deallocateRes` takes them away again when the execution ends. `Conserved` says that the amount in
use of every resource is what the outstanding executions were given, and that nothing else was
ever given back.

An execution can also end without `deallocateRes`, and the requirements can change in between.
`amountsKept` excludes these events; without them the accounts are right all along every run.
-/

namespace Jers

open List Option Bool Table

/-- The accounts: every amount in use is the sum of what the jobs hold, no other amounts than the
allocated ones were ever given back, and no negative amount was ever corrected. -/
structure Conserved (c : Core) : Prop where
  inUse : ∀ b r, c.resTable.get? b = some r →
    r.inUse = c.jobTable.sum fun _ j ↦ amount j.history.held b
  matched : c.audit.unmatched = false
  unclamped : c.audit.clamped = false

/-! ### Amounts of the jobs -/

/-- The resources of a list have been allocated. -/
def KnownRes (n : Addr) (hs : List JobResource) : Prop := ∀ h ∈ hs, h.res < n

/-- What a job holds and needs refers to allocated resources, and it holds no negative amount. -/
structure Job.Sound (n : Addr) (j : Job) : Prop where
  nonneg : ∀ h ∈ j.history.held, 0 ≤ h.needed
  held : KnownRes n j.history.held
  required : KnownRes n j.reqResources

/-- Every job is sound. -/
def SoundJobs (c : Core) : Prop := ∀ a j, c.jobTable.get? a = some j → j.Sound c.resTable.next

/-- The job holds nothing. -/
def Job.holdsNothing (j : Job) : Bool := j.history.held.all fun h ↦ h.needed == 0

variable {j j' : Job} {c c' : Core} {a n b : Addr} {env : Env} {s : Server} {e : Event} {l : Label}
  {k : Cost} {reqs : List JobResource} {t : Tables}

theorem amount_of_holdsNothing (h : j.holdsNothing = true) (b : Addr) :
    amount j.history.held b = 0 := by
  have hzero : ∀ x ∈ j.history.held, x.needed = 0 := by
    simpa [Job.holdsNothing, List.all_eq_true] using h
  refine sum_eq_zero fun v hv ↦ ?_
  obtain ⟨x, hx, rfl⟩ := List.mem_map.mp hv
  simp [hzero x hx]

variable {hs : List JobResource} {xs : List Str}

/-- A resource that has not been allocated is not held. -/
theorem amount_of_known (h : KnownRes n hs) (hb : n ≤ b) : amount hs b = 0 := by
  refine sum_eq_zero fun v hv ↦ ?_
  obtain ⟨x, hx, rfl⟩ := List.mem_map.mp hv
  refine if_neg fun he ↦ ?_
  exact absurd (he ▸ h x hx) (not_lt.mpr hb)

theorem KnownRes.mono {m : Addr} (h : KnownRes n hs) (hnm : n ≤ m) :
    KnownRes m hs := fun x hx ↦ (h x hx).trans_le hnm

theorem Job.Sound.mono {m : Addr} (h : j.Sound n) (hnm : n ≤ m) : j.Sound m :=
  ⟨h.nonneg, h.held.mono hnm, h.required.mono hnm⟩

/-- The requirements of a job are on its list. -/
theorem Job.mem_of_requirements (h : j.requirements = .ok reqs) :
    ∀ x ∈ reqs, x ∈ j.reqResources := by
  rw [requirements] at h
  split at h
  · obtain rfl := Except.ok.inj h
    exact fun x hx ↦ mem_of_mem_take hx
  · contradiction

/-- Requirements that are looked up are resources of the table. -/
theorem convertResourceStrings_isSome
    (h : convertResourceStrings t xs = some reqs) : ∀ x ∈ reqs, (t.resTable.get? x.res).isSome := by
  induction xs generalizing reqs with
  | nil =>
    obtain rfl := some.inj h
    simp
  | cons x xs ih =>
    rw [convertResourceStrings] at h
    split at h
    · next r rs hr hrs =>
      obtain rfl := some.inj h
      obtain ⟨⟨b, v⟩, hfound, rfl⟩ := map_eq_some_iff.mp hr
      intro y hy
      rcases mem_cons.mp hy with rfl | hy
      · exact isSome_iff_exists.mpr ⟨v, (Table.find?_some hfound).1⟩
      · exact ih hrs y hy
    · contradiction

theorem lt_next_of_isSome (x : JobResource) (h : (t.resTable.get? x.res).isSome) :
    x.res < t.resTable.next := by
  obtain ⟨r, hr⟩ := isSome_iff_exists.mp h
  exact lt_next hr

/-! ### What keeps the accounts -/

/-- A change of one job, whose amounts change as the amounts in use do. -/
theorem Conserved.shift (h : Conserved c) (hm : Shift a j j' k c c') (hk : k.audit = {})
    (huse : ∀ b, k.use b = amount j'.history.held b - amount j.history.held b) : Conserved c' := by
  have haudit : c'.audit = c.audit := by
    rw [hm.audit, hk, Audit.join_default]
  refine ⟨fun b r' hr' ↦ ?_, haudit ▸ h.matched, haudit ▸ h.unclamped⟩
  obtain ⟨r, hr, rfl⟩ := optionRel_some' (hm.resources b) hr'
  rw [hm.jobs, sum_modify hm.found]
  dsimp only
  rw [h.inUse b r hr, huse b]
  ring

theorem Conserved.push (h : Conserved c) (hj : j.history.held = []) :
    Conserved { c with jobTable := c.jobTable.push j } := by
  refine ⟨fun b r hr ↦ ?_, h.matched, h.unclamped⟩
  rw [sum_push, hj, amount_nil, add_zero]
  exact h.inUse b r hr

theorem Conserved.erase (h : Conserved c) (ha : c.jobTable.get? a = some j)
    (hj : j.holdsNothing = true) : Conserved { c with jobTable := c.jobTable.erase a } := by
  refine ⟨fun b r hr ↦ ?_, h.matched, h.unclamped⟩
  rw [Table.sum_erase ha, amount_of_holdsNothing hj, sub_zero]
  exact h.inUse b r hr

/-- A change of the resource table alone, in which every resource has kept its amount in use or is
new. -/
theorem Conserved.restock (h : Conserved c) (hs : SoundJobs c)
    (hj : c'.jobTable = c.jobTable) (ha : c'.audit = c.audit)
    (hr : ∀ b r', c'.resTable.get? b = some r' →
      (∃ r, c.resTable.get? b = some r ∧ r'.inUse = r.inUse) ∨
      r'.inUse = 0 ∧ b = c.resTable.next) : Conserved c' := by
  refine ⟨fun b r' hr' ↦ ?_, ha ▸ h.matched, ha ▸ h.unclamped⟩
  rw [hj]
  rcases hr b r' hr' with ⟨r, hget, heq⟩ | ⟨heq, rfl⟩
  · rw [heq]
    exact h.inUse b r hget
  · rw [heq]
    have hzero : c.jobTable.sum (fun _ j ↦ amount j.history.held c.resTable.next) =
        c.jobTable.sum fun _ _ ↦ 0 :=
      sum_congr fun a j hj ↦ amount_of_known (hs a j hj).held le_rfl
    rw [hzero]
    simp [Table.sum]

/-- The amounts that a job holds are all in use. -/
theorem Conserved.releasable (h : Conserved c) (hs : SoundJobs c)
    (hj : c.jobTable.get? a = some j) : Releasable j.history.held c := by
  refine ⟨(hs a j hj).nonneg, fun b r hr ↦ ?_⟩
  have hrest : 0 ≤ (c.jobTable.erase a).sum fun _ i ↦ amount i.history.held b :=
    Table.sum_nonneg fun a' i hi ↦ amount_nonneg (hs a' i (get?_erase_some hi).2).nonneg b
  rw [Table.sum_erase hj] at hrest
  rw [h.inUse b r hr]
  omega

/-- **Giving back is exact** when the requirements are what the job holds. -/
theorem Conserved.gives (h : Conserved c) (hs : SoundJobs c) (hj : c.jobTable.get? a = some j)
    {use : Addr → ℤ} {w : Audit} (hgives : Gives c j use w)
    (hheld : j.requirements = .ok j.history.held) :
    use = (fun b ↦ -amount j.history.held b) ∧ w = {} := by
  obtain ⟨reqs, hreqs, hexact⟩ := hgives
  obtain rfl := Except.ok.inj (hheld.symm.trans hreqs)
  exact hexact (h.releasable hs hj) rfl

/-! ### The condition -/

/-- The job may be started: it holds nothing yet, and needs no negative amount. -/
def Job.startsClean (j : Job) : Bool :=
  j.resCount == 0 || (j.holdsNothing && j.reqResources.all fun h ↦ 0 ≤ h.needed)

/-- What a job gives back is what it was given, and an execution that ends without giving back holds
nothing. -/
def amountsKept : Condition
  | s, (_, .client _ (.modJob mj)) =>
    (s.findJob mj.jobid).all fun r ↦
      !mj.restart || r.2.state != .unknown || r.2.requirements = .ok r.2.history.held
  | s, (_, .client _ (.delJob jobid)) => (s.findJob jobid).all fun r ↦ r.2.holdsNothing
  | s, (_, .client _ (.sigJob js)) =>
    (s.findJob js.jobid).all fun r ↦
      r.2.state != .unknown || r.2.requirements = .ok r.2.history.held
  | s, (_, .agent _ (.jobCompleted jobid _ _ _)) =>
    (s.findJob jobid).all fun r ↦ r.2.requirements = .ok r.2.history.held
  | s, (_, .agent _ (.recon items)) =>
    decide (items.map ReconItem.jobid).Nodup &&
      items.all fun i ↦ i.finishTime == 0 || (s.findJob i.jobid).all fun r ↦ r.2.holdsNothing
  | s, (_, .checkJobs) =>
    s.jobTable.all fun _ j ↦ j.state != .pending || j.internalState.started || j.startsClean
  | s, (_, .autoCleanup) => s.jobTable.all fun _ j ↦ j.state != .completed || j.holdsNothing
  | s, (_, .cleanupJobs _) | s, (_, .client _ (.addJob _)) =>
    s.jobTable.all fun _ j ↦ !decide j.Removable || j.holdsNothing
  | _, _ => true

/-! ### Amounts of the single shifts -/

/-- A pending job that is started under the condition is one that may be. -/
theorem startsClean_of_amountsKept {j₀ : Job} (hgood : amountsKept s (env, .checkJobs) = true)
    (hj₀ : s.jobTable.get? a = some j₀) (heq : j = { j₀ with pendReason := j.pendReason })
    (hpend : j.state = .pending) (hflag : j.internalState.started = false) :
    j.startsClean = true := by
  simp only [amountsKept] at hgood
  have hall := all_iff.mp hgood a j₀ hj₀
  have hsame : j.startsClean = j₀.startsClean := by rw [heq]; rfl
  have hstate : j₀.state = .pending := by rw [← hpend, heq]
  have hstarted : j₀.internalState.started = false := by rw [← hflag, heq]
  rw [hsame]
  simpa [hstate, hstarted] using hall

/-- **The amounts of a shift.** Under the condition the amounts in use change as the amounts that
the job holds do, and nothing is marked. -/
theorem Allowed.amounts (hgood : amountsKept s (env, e) = true)
    (h : Allowed env s e c (.shift a j j' k)) (hc : Conserved c) (hs : SoundJobs c)
    (hj : c.jobTable.get? a = some j) :
    k.audit = {} ∧ ∀ b, k.use b = amount j'.history.held b - amount j.history.held b := by
  have hsame : (({} : Cost).audit = {}) ∧ ∀ b, ({} : Cost).use b =
      amount j.history.held b - amount j.history.held b := ⟨rfl, fun b ↦ (sub_self _).symm⟩
  -- an execution that ends with nothing in hand
  have hdrop (hnone : j.holdsNothing = true) (b : Addr) :
      (0 : ℤ) = amount [] b - amount j.history.held b := by
    rw [amount_of_holdsNothing hnone, amount_nil, sub_zero]
  -- an execution that gives back what it holds
  have hgive {use : Addr → ℤ} {w : Audit} (hgives : Gives c j use w)
      (hheld : j.requirements = .ok j.history.held) :
      w = {} ∧ ∀ b, use b = amount [] b - amount j.history.held b := by
    obtain ⟨rfl, rfl⟩ := hc.gives hs hj hgives hheld
    exact ⟨rfl, fun b ↦ by rw [amount_nil, zero_sub]⟩
  cases h with
  | job _ hm =>
    cases hm with
    | @modify mj _ _ q new _ _ hfound _ _ _ _ _ hgives =>
      simp only [amountsKept, hfound, all_some] at hgood
      by_cases hrestart : mj.restart = true ∧ j.state = .unknown
      · rw [if_pos hrestart] at hgives
        have hheld : j.requirements = .ok j.history.held := by simpa [hrestart] using hgood
        have hnew : (j.modified mj q new).history.held = [] := if_pos hrestart
        rw [hnew]
        exact hgive hgives hheld
      · rw [if_neg hrestart] at hgives
        have hnew : (j.modified mj q new).history.held = j.history.held := if_neg hrestart
        rw [hnew, hgives.1, hgives.2]
        exact hsame
    | delete hfound =>
      simp only [amountsKept, hfound, all_some] at hgood
      exact ⟨rfl, hdrop hgood⟩
    | kill hfound _ hunknown _ hgives =>
      simp only [amountsKept, hfound, all_some] at hgood
      exact hgive hgives (by simpa [hunknown] using hgood)
    | setTag | delTag => exact hsame
  | queue _ hm | res _ hm => cases hm
  | agent hm =>
    cases hm with
    | started => exact hsame
    | completed hfound _ hgives =>
      simp only [amountsKept, hfound, all_some] at hgood
      exact hgive hgives (by simpa using hgood)
    | @recon _ i _ _ _ hi _ hfound =>
      simp only [amountsKept, and_eq_true, decide_eq_true_eq, List.all_eq_true] at hgood
      have hitem := hgood.2 i hi
      rw [hfound hgood.1, all_some] at hitem
      refine ⟨rfl, fun b ↦ ?_⟩
      rw [Job.reconciled_history]
      by_cases hf : i.finishTime = 0
      · simp [hf]
      · have hnone : j.holdsNothing = true := by simpa [hf] using hitem
        rw [if_pos hf]
        exact hdrop hnone b
  | lose | idle | release | captureJob | reapJob => exact hsame
  | @start _ _ _ j₀ reqs hj₀ heq _ hpend hflag hreqs =>
    have hclean := startsClean_of_amountsKept hgood hj₀ heq hpend hflag
    refine ⟨rfl, fun b ↦ ?_⟩
    change amount reqs b = amount (if j.resCount ≠ 0 then reqs else j.history.held) b - _
    by_cases hzero : j.resCount = 0
    · obtain rfl := Except.ok.inj ((Job.requirements_of_resCount_zero hzero).symm.trans hreqs)
      simp [hzero]
    · have hnone : j.holdsNothing = true := by
        simp only [Job.startsClean, or_eq_true, beq_iff_eq, and_eq_true] at hclean
        exact (hclean.resolve_left hzero).1
      rw [if_pos hzero, amount_of_holdsNothing hnone, sub_zero]
  | expire hget _ hstate =>
    simp only [amountsKept] at hgood
    have hnone : j.holdsNothing = true := by simpa [hstate] using all_iff.mp hgood a j hget
    exact ⟨rfl, hdrop hnone⟩

/-! ### Sound jobs stay sound -/

/-- A job with the same requirements that holds the same or nothing. -/
theorem Job.Sound.of_held (h : j.Sound n) (hreq : j'.reqResources = j.reqResources)
    (hheld : j'.history.held = j.history.held ∨ j'.history.held = []) : j'.Sound n := by
  have hreq' : KnownRes n j'.reqResources := hreq ▸ h.required
  rcases hheld with hheld | hheld
  · exact ⟨hheld ▸ h.nonneg, hheld ▸ h.held, hreq'⟩
  · exact ⟨fun x hx ↦ absurd (hheld ▸ hx) not_mem_nil,
      fun x hx ↦ absurd (hheld ▸ hx) not_mem_nil, hreq'⟩

/-- The requirements after a modify request are old ones or have just been looked up. -/
theorem JobMod.requirements_all {P : JobResource → Prop} {mj : JobMod}
    {new : Option (List JobResource)} (hconv : mj.converted t = some new) (hfound : ∀ x,
      (t.resTable.get? x.res).isSome → P x)
    (hj : ∀ x ∈ j.reqResources, P x) : ∀ x ∈ (mj.requirements new j).2, P x := by
  have hnew : ∀ rs, new = some rs → ∀ x ∈ rs, P x := by
    rintro rs rfl
    rw [converted] at hconv
    split at hconv
    · obtain ⟨rs', hrs, heq⟩ := map_eq_some_iff.mp hconv
      obtain rfl := some.inj heq
      exact fun x hx ↦ hfound x (convertResourceStrings_isSome hrs x hx)
    · exact nomatch hconv
  unfold requirements
  split
  · exact nofun
  cases mj.resources with
  | none => exact hj
  | some xs =>
    cases new with
    | some rs => exact hnew rs rfl
    | none =>
      dsimp only
      split
      · exact nofun
      · exact hj

theorem Allowed.sound (hgood : amountsKept s (env, e) = true)
    (h : Allowed env s e c (.shift a j j' k)) (hj : j.Sound c.resTable.next) :
    j'.Sound c.resTable.next := by
  cases h with
  | job _ hm =>
    cases hm with
    | @modify mj _ _ q new _ _ _ _ _ _ hconv =>
      have hheld : (j.modified mj q new).history.held = j.history.held ∨
          (j.modified mj q new).history.held = [] := by
        change (if _ then [] else _) = _ ∨ (if _ then [] else _) = _
        split
        · exact .inr rfl
        · exact .inl rfl
      have hold : Job.Sound s.resTable.next { j with history := (j.modified mj q new).history } :=
        hj.of_held rfl hheld
      exact ⟨hold.nonneg, hold.held, JobMod.requirements_all hconv lt_next_of_isSome hj.required⟩
    | delete | kill => exact hj.of_held rfl (.inr rfl)
    | setTag | delTag => exact hj.of_held rfl (.inl rfl)
  | queue _ hm | res _ hm => cases hm
  | agent hm =>
    cases hm with
    | started => exact hj.of_held rfl (.inl rfl)
    | completed => exact hj.of_held rfl (.inr rfl)
    | @recon _ i =>
      refine hj.of_held (j.reconciled_requirements i).2 ?_
      rw [Job.reconciled_history]
      by_cases hf : i.finishTime = 0
      · exact .inl (if_neg (not_not.mpr hf))
      · exact .inr (if_pos hf)
  | lose | idle | release | captureJob | reapJob => exact hj.of_held rfl (.inl rfl)
  | @start _ _ _ j₀ reqs hj₀ heq _ hpend hflag hreqs =>
    have hclean := startsClean_of_amountsKept hgood hj₀ heq hpend hflag
    by_cases hzero : j.resCount = 0
    · exact hj.of_held rfl (.inl (if_neg (not_not.mpr hzero)))
    · have hnonneg : ∀ x ∈ j.reqResources, 0 ≤ x.needed := by
        simp only [Job.startsClean, or_eq_true, beq_iff_eq, and_eq_true,
          List.all_eq_true, decide_eq_true_eq] at hclean
        exact (hclean.resolve_left hzero).2
      have hheld : (j.begun reqs).history.held = reqs := if_pos hzero
      have hmem := Job.mem_of_requirements hreqs
      refine ⟨?_, ?_, hj.required⟩
      · rw [hheld]
        exact fun x hx ↦ hnonneg x (hmem x hx)
      · rw [hheld]
        exact fun x hx ↦ hj.required x (hmem x hx)
  | expire => exact hj.of_held rfl (.inr rfl)

/-- A new job holds nothing, and its requirements have been looked up. -/
theorem Allowed.addJob_sound (h : Allowed env s e c (.addJob j j' k)) :
    j.history.held = [] ∧ j'.history.held = [] ∧ k.audit = {} ∧ k.use = (fun _ ↦ 0) ∧
      j'.Sound c.resTable.next := by
  obtain ⟨_, _, _, hm⟩ := h.submitted
  cases hm with
  | submit _ _ hres _ hconv =>
    refine ⟨rfl, rfl, rfl, rfl, nofun, nofun, ?_⟩
    rw [hres]
    exact fun x hx ↦ lt_next_of_isSome x (convertResourceStrings_isSome hconv x hx)

theorem SoundJobs.move (hgood : amountsKept s (env, e) = true) (h : SoundJobs c)
    (hl : Allowed env s e c l) (hm : Move l c c') : SoundJobs c' := by
  have hall : ∀ a j, c'.jobTable.get? a = some j → j.Sound c.resTable.next := by
    refine hm.jobs_all (P := fun _ j ↦ j.Sound c.resTable.next) h (fun a j j' k hshift hj ↦ ?_)
      fun j j' k hadd ↦ ?_
    · subst hshift
      exact hl.sound hgood hj
    · subst hadd
      exact hl.addJob_sound.2.2.2.2
  exact fun a j hj ↦ (hall a j hj).mono hm.frame.resNext

/-! ### Runs -/

/-- What an edit of a resource leaves alone. -/
theorem Allowed.editRes_inUse {r r' : Resource} (h : Allowed env s e c (.editRes b r r')) :
    r'.inUse = r.inUse := by
  cases h with
  | job _ hm | queue _ hm | agent hm => cases hm
  | res _ hm => cases hm <;> rfl
  | _ => rfl

/-- A resource that is added anew starts at 0, and one that is taken over keeps the amount. -/
theorem Allowed.res_inUse (h : Allowed env s e c l) (hm : Move l c c') (hl : l.onJobs = false)
    {r' : Resource} (hr' : c'.resTable.get? b = some r') :
    (∃ r, c.resTable.get? b = some r ∧ r'.inUse = r.inUse) ∨
      r'.inUse = 0 ∧ b = c.resTable.next := by
  cases l with
  | shift | addJob | removeJob => exact nomatch hl
  | addRes r =>
    obtain rfl := hm
    rw [get?_push] at hr'
    split at hr'
    · next hb =>
      obtain rfl := some.inj hr'
      refine .inr ⟨?_, hb⟩
      cases h with
      | job _ hm | queue _ hm | agent hm => cases hm
      | res _ hm => cases hm; rfl
    · exact .inl ⟨r', hr', rfl⟩
  | reuseRes b' r r'' =>
    obtain ⟨hr, rfl⟩ := hm
    rw [get?_reput] at hr'
    split at hr'
    · next hb =>
      obtain rfl := some.inj hr'
      subst hb
      refine .inl ⟨r, hr, ?_⟩
      cases h with
      | job _ hm | queue _ hm | agent hm => cases hm
      | res _ hm => cases hm; rfl
    · exact .inl ⟨r', hr', rfl⟩
  | editRes b' r r'' =>
    obtain ⟨hr, rfl⟩ := hm
    rw [get?_modify] at hr'
    split at hr'
    · next hb =>
      subst hb
      rw [hr] at hr'
      obtain rfl := some.inj hr'
      exact .inl ⟨r, hr, h.editRes_inUse⟩
    · exact .inl ⟨r', hr', rfl⟩
  | removeRes b' r =>
    obtain ⟨hr, rfl⟩ := hm
    exact .inl ⟨r', (get?_erase_some hr').2, rfl⟩
  | reuseQueue | editQueue | removeQueue | setDefault =>
    obtain ⟨-, rfl⟩ := hm
    exact .inl ⟨r', hr', rfl⟩
  | addQueue | setFlush =>
    obtain rfl := hm
    exact .inl ⟨r', hr', rfl⟩

theorem holdsNothing_of_all {t : Table Job}
    (h : t.all (fun _ j ↦ !decide j.Removable || j.holdsNothing) = true) (hj : t.get? a = some j)
    (hrem : j.Removable) : j.holdsNothing = true := by
  simpa [hrem] using all_iff.mp h a j hj

/-- **A move keeps the accounts** under the condition. -/
theorem Conserved.move (hgood : amountsKept s (env, e) = true) (h : Conserved c) (hs : SoundJobs c)
    (hl : Allowed env s e c l) (hm : Move l c c') : Conserved c' := by
  rcases hm.jobs_cases with hon | ⟨a, j, j', k, rfl, hm⟩ | ⟨j, j', k, rfl, hm⟩ |
    ⟨a, j, rfl, hj, rfl⟩
  · obtain ⟨hjobs, -, -, haudit⟩ := hm.same_jobs hon
    exact h.restock hs hjobs haudit fun b r' hr' ↦ hl.res_inUse hm hon hr'
  · obtain ⟨haudit, huse⟩ := hl.amounts hgood h hs hm.found
    exact h.shift hm haudit huse
  · obtain ⟨hheld, hheld', haudit, huse, -⟩ := hl.addJob_sound
    refine (h.push hheld).shift hm haudit fun b ↦ ?_
    rw [huse, hheld, hheld', sub_self]
  · obtain ⟨hget, hrem, ⟨_, _, rfl⟩ | ⟨_, rfl⟩⟩ := hl.removed
    all_goals exact h.erase hj (holdsNothing_of_all hgood hget hrem)

/-- **Resource accounting is conserved**, in every state of every run whose events meet the
condition. -/
theorem conserved_of_runs {config : Config} {hosts : List Str} {s : Server}
    (h : Runs amountsKept config hosts s) : Conserved s.toCore := by
  have hall : Conserved s.toCore ∧ SoundJobs s.toCore := by
    refine h.core_invariant (I := fun c ↦ Conserved c ∧ SoundJobs c)
      (fun hgood _ hc hl hm ↦ ⟨hc.1.move hgood hc.2 hl hm, hc.2.move hgood hl hm⟩) ?_
    refine ⟨⟨fun b r hr ↦ ?_, rfl, rfl⟩, fun a j hj ↦ ?_⟩
    · exact absurd ((get?_empty b).symm.trans hr) (by simp)
    · exact absurd ((get?_empty a).symm.trans hj) (by simp)
  exact hall.1

/-! ### A run that loses an amount -/

/-- A job that needs one of two units of a resource is added and sent to its agent. -/
def Sample.startHolder : List Event :=
  addJobFor 2 ["r:1".toList] ++ [.checkJobs, .agent 0 (.jobStarted 1 42 1000)]

/-- The agent disconnects while the job runs and reports its end when it reconciles: the unit stays
in use without an execution. -/
theorem not_conserved_recon :
    ∃ s, Runs anyEvent Sample.config Sample.hosts s ∧ ¬ Conserved s.toCore := by
  obtain ⟨s, hrun, r, hr, hne⟩ := exists_runs anyEvent Sample.config Sample.hosts
    (Sample.events (Sample.startHolder ++
      [.disconnect 0, .connect 0, .agent 0 .login,
        .agent 0 (.recon [{ jobid := 1, startTime := 1000, finishTime := 1001 }])]))
    (fun s ↦ ∃ r ∈ s.resTable.get? 0,
      r.inUse ≠ s.jobTable.sum fun _ j ↦ amount j.history.held 0) (by decide +kernel)
  exact ⟨s, hrun, fun h ↦ hne (h.inUse 0 r hr)⟩

/-- A job that holds its unit while it runs. -/
theorem conserved_of_runs_holder :
    ∃ s, Runs amountsKept Sample.config Sample.hosts s ∧
      (s.resTable.get? 0).map Resource.inUse = some 1 ∧ Conserved s.toCore := by
  obtain ⟨s, hrun, hp⟩ := exists_runs amountsKept Sample.config Sample.hosts
    (Sample.events Sample.startHolder)
    (fun s ↦ (s.resTable.get? 0).map Resource.inUse = some 1) (by decide +kernel)
  exact ⟨s, hrun, hp, conserved_of_runs hrun⟩

end Jers
