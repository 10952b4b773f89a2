import Mathlib.Data.List.Nodup

/-!
# Lists whose entries have a key

Entries of one key are picked out of a list by `filter`. Picking them out of a list that is made
from another one, entry by entry and with the same keys, is picking them out of the other one first.
-/

namespace List

variable {α : Type*}

/-- Lists that are put together from one part per entry, each with the key of the entry. -/
theorem filter_flatMap_of_key {β : Type*} (l : List α) (f : α → List β) (key : α → ℕ) {key' : β → ℕ}
    (hf : ∀ a, ∀ b ∈ f a, key' b = key a) (k : ℕ) :
    (l.flatMap f).filter (key' · = k) = (l.filter (key · = k)).flatMap f := by
  induction l with
  | nil => rfl
  | cons a l ih =>
    rw [flatMap_cons, filter_append, ih]
    by_cases hk : key a = k
    · rw [filter_cons_of_pos (by simpa using hk), flatMap_cons]
      congr 1
      exact filter_eq_self.mpr fun b hb ↦ by simpa [hf a b hb] using hk
    · rw [filter_cons_of_neg (by simpa using hk)]
      have hnone : (f a).filter (key' · = k) = [] :=
        filter_eq_nil_iff.mpr fun b hb ↦ by simpa [hf a b hb] using hk
      rw [hnone, nil_append]

/-- Where keys are not repeated, there is one entry with a key. -/
theorem filter_key_of_nodup {l : List α} {key : α → ℕ} (hnodup : (l.map key).Nodup) {a : α}
    (ha : a ∈ l) : l.filter (key · = key a) = [a] := by
  induction l with
  | nil => exact nomatch ha
  | cons b l ih =>
    rw [map_cons, nodup_cons] at hnodup
    rcases mem_cons.mp ha with rfl | hmem
    · rw [filter_cons_of_pos (by simp)]
      congr 1
      refine filter_eq_nil_iff.mpr fun b hb heq ↦ hnodup.1 ?_
      exact (of_decide_eq_true heq) ▸ mem_map_of_mem hb
    · have hne : key b ≠ key a := fun heq ↦ hnodup.1 (heq ▸ mem_map_of_mem hmem)
      rw [filter_cons_of_neg (by simpa using hne), ih hnodup.2 hmem]

theorem map_filterMap_sublist {β : Type*} (l : List α) (f : α → Option α) {key : α → β}
    (hf : ∀ a b, f a = some b → key b = key a) : ((l.filterMap f).map key).Sublist (l.map key) := by
  induction l with
  | nil => exact .refl _
  | cons a l ih =>
    cases hfa : f a with
    | none =>
      rw [filterMap_cons_none hfa]
      exact ih.cons _
    | some b =>
      rw [filterMap_cons_some hfa, map_cons, map_cons, hf a b hfa]
      exact ih.cons_cons _

theorem filter_filterMap_of_key (l : List α) (f : α → Option α) {key : α → ℕ}
    (hf : ∀ a b, f a = some b → key b = key a) (k : ℕ) :
    (l.filterMap f).filter (key · = k) = (l.filter (key · = k)).filterMap f := by
  induction l with
  | nil => rfl
  | cons a l ih =>
    by_cases hk : key a = k
    · rw [filter_cons_of_pos (by simpa using hk)]
      cases hfa : f a with
      | none => rw [filterMap_cons_none hfa, filterMap_cons_none hfa, ih]
      | some b =>
        rw [filterMap_cons_some hfa, filterMap_cons_some hfa,
          filter_cons_of_pos (by simpa [hf a b hfa] using hk), ih]
    · rw [filter_cons_of_neg (by simpa using hk)]
      cases hfa : f a with
      | none => rw [filterMap_cons_none hfa, ih]
      | some b =>
        rw [filterMap_cons_some hfa, filter_cons_of_neg (by simpa [hf a b hfa] using hk), ih]

end List
