import Jers.Server.References
import Jers.State.JobRoundTrip

/-!
# Loading jobs

`stateLoadJobs` reads the state files of the jobs and adds each job to the table with `addJob`, not
dirty. A line that names a queue or a resource is looked up when it is read, so that the pointers of
a loaded job lead to objects of the tables.
-/

namespace Jers

open Option Table Except

/-- The pointers of a draft lead to objects of the tables. -/
structure JobDraft.Linked (t : Tables) (d : JobDraft) : Prop where
  queue : ∀ b, d.queue = some b → (t.queueTable.get? b).isSome
  res : ∀ r, some r ∈ d.res → (t.resTable.get? r.res).isSome

section

variable {t : Tables} {d d' : JobDraft}

theorem mem_of_assign {α : Type} {array l : List (Option α)} {index : ℤ} {x y : α}
    (h : assign array index x = .ok l) (hy : some y ∈ l) : y = x ∨ some y ∈ array := by
  rw [assign] at h
  split at h
  · rw [← ok.inj h] at hy
    rcases List.mem_or_eq_of_mem_set hy with hy | hy
    · exact .inr hy
    · exact .inl (some.inj hy)
  · contradiction

theorem not_mem_of_allocate {α : Type} {count : ℤ} {l : List (Option α)} {y : α}
    (h : allocate count = .ok l) : some y ∉ l := by
  rw [allocate] at h
  split at h
  · contradiction
  · rw [← ok.inj h]
    simp

theorem JobDraft.Linked.applyKey {k : JobKey} {index : ℤ} {value : Str} (hd : d.Linked t)
    (h : applyKey t d k index value = .ok d') : d'.Linked t := by
  have hkeep {α : Type} {x : Except Fault α} {f : α → JobDraft} (h : x.map f = .ok d')
      (hf : ∀ l, (f l).queue = d.queue ∧ (f l).res = d.res) : d'.Linked t := by
    obtain ⟨l, -, rfl⟩ := map_eq_ok_iff.mp h
    exact ⟨(hf l).1 ▸ hd.queue, (hf l).2 ▸ hd.res⟩
  cases k with
  | num k | str k =>
    rw [← ok.inj h]
    exact ⟨hd.queue, hd.res⟩
  | queuename =>
    simp only [Jers.applyKey] at h
    split at h
    · contradiction
    · next q hq =>
      rw [← ok.inj h]
      refine ⟨fun b hb ↦ ?_, hd.res⟩
      rw [← some.inj hb, (Table.find?_some hq).1]
      rfl
  | count a =>
    cases a with
    | argv | env | tag => exact hkeep h fun _ ↦ ⟨rfl, rfl⟩
    | res =>
      obtain ⟨l, hl, rfl⟩ := map_eq_ok_iff.mp h
      exact ⟨hd.queue, fun r hr ↦ absurd hr (not_mem_of_allocate hl)⟩
  | item a =>
    cases a with
    | argv | env | tag => exact hkeep h fun _ ↦ ⟨rfl, rfl⟩
    | res =>
      simp only [Jers.applyKey] at h
      split at h
      · contradiction
      · next r hr =>
        obtain ⟨l, hl, rfl⟩ := map_eq_ok_iff.mp h
        refine ⟨hd.queue, fun y hy ↦ ?_⟩
        rcases mem_of_assign hl hy with rfl | hy
        · obtain ⟨x, hx, rfl⟩ := map_eq_some_iff.mp hr
          dsimp only
          rw [(Table.find?_some hx).1]
          rfl
        · exact hd.res y hy

theorem JobDraft.Linked.loadLine {line : Str} (hd : d.Linked t) (h : loadLine t d line = .ok d') :
    d'.Linked t := by
  unfold Jers.loadLine at h
  split at h
  · exact ok.inj h ▸ hd
  · split at h
    · exact ok.inj h ▸ hd
    · exact hd.applyKey h

end

variable {fileName text : Str} {hosts : List Str} {config : Config}

/-- **The pointers of a loaded job lead to objects**, and its flags are not set. -/
theorem stateLoadJob_linked {c : Core} {j : Job}
    (h : stateLoadJob c.toTables fileName text = .ok j) : j.Linked c ∧ j.internalState = {} := by
  obtain ⟨d, hd, hfinish⟩ := bind_eq_ok_iff.mp h
  have hfin := finishJob_fields hfinish
  have hlinked : d.Linked c.toTables := by
    refine foldlM_invariant (P := JobDraft.Linked c.toTables) ?_
      ⟨fun b (hq : none = some b) ↦ absurd hq nofun, fun _ hr ↦ absurd hr List.not_mem_nil⟩ hd
    intro e line e' _ he hstep
    exact he.loadLine hstep
  refine ⟨⟨hlinked.queue _ hfin.queue, hfin.resCount.le, fun r hr ↦ hlinked.res r ?_⟩, hfin.flags⟩
  rw [hfin.res]
  exact List.mem_map_of_mem hr

/-! ### The daemon with its loads -/

/-- Loading the state file of a job, or an event. -/
inductive LoadEvent
  | load (fileName text : Str)
  | event (env : Env) (e : Event)

/-- A job that cannot be added ends the daemon. -/
def LoadStep (s : Server) : LoadEvent → Server → Prop
  | .load fileName text, s' => ∃ j, stateLoadJob s.toTables fileName text = .ok j ∧
      addJob j false s = .ok (0, s')
  | .event env e, s' => Step s (env, e) s'

/-- The states that a daemon reaches by loads and events that meet a condition. -/
def LoadRuns (good : Server → LoadEvent → Bool) (config : Config) (hosts : List Str) (s : Server) :
    Prop :=
  Run LoadStep (fun t e ↦ good t e = true) (Server.initial config hosts) s

variable {s : Server}

/-- A run without loads. -/
theorem LoadRuns.of_runs {good : Server → LoadEvent → Bool}
    (h : Runs (fun t e ↦ good t (.event e.1 e.2)) config hosts s) :
    LoadRuns good config hosts s := by
  refine h.invariant (I := LoadRuns good config hosts) (fun {t e t'} ht hgood hstep ↦ ?_) .refl
  exact .tail (e := .event e.1 e.2) ht hgood hstep

/-- A job that is loaded is a new job. -/
theorem LoadStep.load {s' : Server} (h : LoadStep s (.load fileName text) s') : ∃ j f,
      stateLoadJob s.toTables fileName text = .ok j ∧ j.Linked s.toCore ∧ j.internalState = {} ∧
      Move (.addJob { j with state := .cleared }
        ({ j with state := .cleared }.changed j.state none false)
        { slots := 0, deferred := f }) s.toCore s'.toCore ∧
      (j.deferTime = 0 ∧ f = id ∨ j.deferTime ≠ 0 ∧ ∃ due,
        DeferTimes s.toCore s.jobTable.next j.deferTime due ∧
          f = insertDeferred due s.jobTable.next) := by
  obtain ⟨j, hload, hadd⟩ := h
  obtain ⟨hlinked, hflags⟩ := stateLoadJob_linked hload
  obtain ⟨hone, -⟩ | ⟨-, -, f, hmove, hf⟩ := addJob_ok hadd
  · exact nomatch hone
  · have hslots : slotsFreed { j with state := .cleared } j.state none = 0 := by
      simp [slotsFreed, hflags]
    rw [hslots, neg_zero] at hmove
    exact ⟨j, f, hload, hlinked, hflags, hmove, hf⟩

/-! ### Job ids -/

/-- No two jobs have the same id. -/
def UniqueIds (t : Tables) : Prop :=
  ∀ a b i j, t.jobTable.get? a = some i → t.jobTable.get? b = some j → i.jobid = j.jobid → a = b

section

variable {c c' : Core} {a : Addr} {j j' : Job} {k : Cost}

/-- A job keeps its id. -/
theorem Allowed.shift_jobid {env : Env} {e : Event} (h : Allowed env s e c (.shift a j j' k)) :
    j'.jobid = j.jobid := by
  cases h with
  | job _ hm => cases hm <;> rfl
  | queue _ hm | res _ hm => cases hm
  | agent hm =>
    cases hm with
    | recon => exact Job.reconciled_jobid _ _
    | _ => rfl
  | start => rfl
  | _ => rfl

theorem UniqueIds.shift (h : UniqueIds c.toTables) (hm : Shift a j j' k c c')
    (hid : j'.jobid = j.jobid) : UniqueIds c'.toTables := by
  intro b d i₁ i₂ h₁ h₂ heq
  -- each record has the id of the one that was there before
  have hback {x : Addr} {i : Job} (hi : c'.jobTable.get? x = some i) :
      ∃ i₀, c.jobTable.get? x = some i₀ ∧ i₀.jobid = i.jobid := by
    rw [hm.jobs] at hi
    rcases get?_modify_some hi with ⟨rfl, v, hv, rfl⟩ | ⟨-, hi⟩
    · exact ⟨j, hm.found, hid.symm⟩
    · exact ⟨i, hi, rfl⟩
  obtain ⟨j₁, hj₁, hid₁⟩ := hback h₁
  obtain ⟨j₂, hj₂, hid₂⟩ := hback h₂
  exact h b d j₁ j₂ hj₁ hj₂ (hid₁.trans (heq.trans hid₂.symm))

/-- A new job has an id of its own. -/
theorem UniqueIds.push (h : UniqueIds c.toTables) (hnew : c.findJob j.jobid = none) :
    UniqueIds { c.toTables with jobTable := c.jobTable.push j } := by
  intro b d i₁ i₂ h₁ h₂ heq
  have hother {x : Addr} {i : Job} (hi : c.jobTable.get? x = some i) : i.jobid ≠ j.jobid := by
    simpa using find?_none hnew hi
  simp only [get?_push] at h₁ h₂
  split at h₁ <;> split at h₂
  · next hb hd => exact hb.trans hd.symm
  · obtain rfl := some.inj h₁
    exact absurd heq.symm (hother h₂)
  · obtain rfl := some.inj h₂
    exact absurd heq (hother h₁)
  · exact h b d i₁ i₂ h₁ h₂ heq

theorem UniqueIds.add (h : UniqueIds c.toTables) (hm : Move (.addJob j j' k) c c')
    (hnew : c.findJob j.jobid = none) (hid : j'.jobid = j.jobid) : UniqueIds c'.toTables := by
  have hpush : UniqueIds (Core.toTables { c with jobTable := c.jobTable.push j }) := h.push hnew
  exact hpush.shift hm hid

theorem UniqueIds.erase (h : UniqueIds c.toTables) (a : Addr) :
    UniqueIds { c.toTables with jobTable := c.jobTable.erase a } := fun b d i₁ i₂ h₁ h₂ ↦
  h b d i₁ i₂ (get?_erase_some h₁).2 (get?_erase_some h₂).2

theorem UniqueIds.move {env : Env} {e : Event} {l : Label} (h : UniqueIds c.toTables)
    (hl : Allowed env s e c l) (hm : Move l c c') : UniqueIds c'.toTables := by
  rcases hm.jobs_cases with hon | ⟨a, j, j', k, rfl, hm⟩ | ⟨j, j', k, rfl, hm⟩ | ⟨a, j, rfl, -, rfl⟩
  · rw [UniqueIds, (hm.same_jobs hon).1]
    exact h
  · exact h.shift hm hl.shift_jobid
  · obtain ⟨_, _, _, hsub⟩ := hl.submitted
    cases hsub with
    | submit _ _ _ _ _ hnone => exact h.add hm hnone rfl
  · exact h.erase a

end

/-- **Job ids are unique in every run.** -/
theorem uniqueIds_of_runs
    (h : LoadRuns (fun _ _ ↦ true) config hosts s) : UniqueIds s.toTables := by
  have hall : s.recovery = none ∧ UniqueIds s.toTables := by
    refine h.invariant (I := fun t ↦ t.recovery = none ∧ UniqueIds t.toTables)
      (fun {t e t'} ht _ hstep ↦ ?_) ⟨rfl, fun a b i j hi ↦ nomatch hi⟩
    cases e with
    | load fileName text =>
      obtain ⟨j, f, hload, -, -, hm, -⟩ := LoadStep.load hstep
      obtain ⟨j₁, hload₁, hadd⟩ := hstep
      obtain rfl : j₁ = j := ok.inj (hload₁.symm.trans hload)
      refine ⟨hm.frame.recovery.trans ht.1, ?_⟩
      obtain ⟨hone, -⟩ | ⟨-, hnone, -⟩ := addJob_ok hadd
      · exact nomatch hone
      · exact ht.2.add hm hnone rfl
    | event env e =>
      exact ⟨handle_recovery ht.1 hstep,
        (handle_path ht.1 hstep).invariant (I := fun c ↦ UniqueIds c.toTables)
          (fun hc hl hm ↦ hc.move hl hm) ht.2⟩
  exact hall.2

end Jers
