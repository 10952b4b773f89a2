import Jers.Lib.Exec

/-!
# Runs of a labelled transition system

A system moves from state to state by labelled steps. `Run step good s t` says that `t` is reached
from `s` by steps that all meet a condition on the state before the step and the label. A property
that every such step keeps holds all along the run.
-/

universe u v

/-- `t` is reached from `s` by steps that meet the condition `good`. -/
inductive Run {σ : Type u} {ι : Type v} (step : σ → ι → σ → Prop) (good : σ → ι → Prop) (s : σ) :
    σ → Prop
  | refl : Run step good s s
  | tail {t u : σ} {e : ι} : Run step good s t → good t e → step t e u → Run step good s u

namespace Run

open Option

variable {σ : Type u} {ι : Type v} {step : σ → ι → σ → Prop} {good good' : σ → ι → Prop} {s t u : σ}

/-- **Runs keep what steps keep.** -/
theorem invariant {I : σ → Prop}
    (hstep : ∀ {t e u}, I t → good t e → step t e u → I u) (h : Run step good s t) (hs : I s) :
    I t := by
  induction h with
  | refl => exact hs
  | tail _ hgood hmove ih => exact hstep ih hgood hmove

theorem mono (hgood : ∀ t e, good t e → good' t e) (h : Run step good s t) :
    Run step good' s t := by
  induction h with
  | refl => exact .refl
  | tail _ hg hmove ih => exact .tail ih (hgood _ _ hg) hmove

theorem trans (h : Run step good s t) (h' : Run step good t u) : Run step good s u := by
  induction h' with
  | refl => exact h
  | tail _ hg hmove ih => exact .tail ih hg hmove

/-- Take the labels of a list one after another, as long as the system goes on. -/
def follow (next : σ → ι → Option σ) : List ι → σ → Option σ
  | [], s => some s
  | e :: es, s => (next s e).bind (follow next es)

/-- **Computed runs are runs.** -/
theorem of_follow {next : σ → ι → Option σ}
    (hnext : ∀ {s e t}, next s e = some t → good s e ∧ step s e t) {es : List ι} {s t : σ}
    (h : follow next es s = some t) : Run step good s t := by
  induction es generalizing s with
  | nil =>
    obtain rfl := some.inj h
    exact .refl
  | cons e es ih =>
    obtain ⟨u, hu, hrest⟩ := bind_eq_some_iff.mp h
    obtain ⟨hgood, hstep⟩ := hnext hu
    exact Run.trans (.tail .refl hgood hstep) (ih hrest)

/-- A computed run that ends in a state with a property that can be tested. -/
theorem exists_of_follow (next : σ → ι → Option σ) (es : List ι) (s : σ) (p : σ → Prop)
    (hnext : ∀ {s e t}, next s e = some t → good s e ∧ step s e t)
    (h : ∃ t ∈ follow next es s, p t) : ∃ t, Run step good s t ∧ p t := by
  obtain ⟨t, ht, hp⟩ := h
  exact ⟨t, of_follow hnext ht, hp⟩

/-- A computed run of a function that says which labels are possible. -/
theorem exists_of_next (good : σ → ι → Bool) (next : σ → ι → Option σ) (es : List ι) (s : σ)
    (p : σ → Prop) (h : ∃ t ∈ follow (fun s e ↦ if good s e then next s e else none) es s, p t) :
    ∃ t, Run (fun s e t ↦ next s e = some t) (fun s e ↦ good s e = true) s t ∧ p t :=
  exists_of_follow (fun s e ↦ if good s e then next s e else none) es s p
    (fun hnext ↦ ite_none_right_eq_some.mp hnext) h

/-- The step of a function that may fail, if it meets a condition. -/
def stepIf {ε : Type*} (good : σ → ι → Bool) (f : σ → ι → Except ε σ) (s : σ) (e : ι) : Option σ :=
  if good s e then (f s e).toOption else none

/-- A computed run of a function that may fail. -/
theorem exists_of_stepIf {ε : Type*} (good : σ → ι → Bool) (f : σ → ι → Except ε σ) (es : List ι)
    (s : σ) (p : σ → Prop) (h : ∃ t ∈ follow (stepIf good f) es s, p t) :
    ∃ t, Run (fun s e t ↦ f s e = .ok t) (fun s e ↦ good s e = true) s t ∧ p t := by
  refine exists_of_follow (stepIf good f) es s p (fun {s e t} hnext ↦ ?_) h
  exact (ite_none_right_eq_some.mp hnext).imp_right Except.toOption_eq_some_iff.mp

end Run
