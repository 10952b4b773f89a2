import Mathlib.Algebra.BigOperators.Group.List.Basic
import Mathlib.Algebra.Order.BigOperators.Group.List
import Mathlib.Algebra.Ring.Int.Defs
import Mathlib.Data.List.Find
import Mathlib.Data.List.Nodup

/-!
# Tables of allocated records

A table holds records at addresses. The rows stand in the order in which the records were added,
an address occurs once, and every address in use lies below the allocation counter, so an address
that has been freed is not handed out again by `push`. The rows carry these facts, so no operation
can build a table without them.

`Table.sum` adds up a quantity over the rows; how each operation changes a sum is what the
accounting arguments over a table need.
-/

/-- Records at addresses, in the order in which they were added. -/
structure Table (α : Type*) where
  rows : List (ℕ × α)
  next : ℕ
  nodup : (rows.map Prod.fst).Nodup
  bound : ∀ r ∈ rows, r.1 < next

namespace Table

open List Option

variable {α : Type*}

instance [DecidableEq α] : DecidableEq (Table α) := fun s t ↦
  decidable_of_iff (s.rows = t.rows ∧ s.next = t.next) <| by
    cases s
    cases t
    simp

instance : Inhabited (Table α) := ⟨⟨[], 0, List.nodup_nil, by simp⟩⟩

/-- The table without records. -/
def empty : Table α := ⟨[], 0, List.nodup_nil, by simp⟩

/-- The record at address `a`. -/
def get? (t : Table α) (a : ℕ) : Option α :=
  (t.rows.find? fun r ↦ r.1 == a).map Prod.snd

/-- The first record, in table order, that satisfies `p`, with its address. -/
def find? (t : Table α) (p : α → Bool) : Option (ℕ × α) :=
  t.rows.find? fun r ↦ p r.2

/-- The addresses in use, in table order. -/
def addrs (t : Table α) : List ℕ := t.rows.map Prod.fst

/-- Replace the record at `a` by its image under `f`. -/
def modify (t : Table α) (a : ℕ) (f : α → α) : Table α where
  rows := t.rows.map fun r ↦ if r.1 = a then (r.1, f r.2) else r
  next := t.next
  nodup := by
    have h : (t.rows.map fun r ↦ if r.1 = a then (r.1, f r.2) else r).map Prod.fst =
        t.rows.map Prod.fst := by
      rw [List.map_map]
      refine List.map_congr_left fun r _ ↦ ?_
      simp only [Function.comp_apply]
      split <;> rfl
    rw [h]
    exact t.nodup
  bound := by
    intro r hr
    obtain ⟨r', hr', rfl⟩ := List.mem_map.mp hr
    have := t.bound r' hr'
    split <;> exact this

/-- Add a record at a fresh address, which is `t.next`. -/
def push (t : Table α) (v : α) : Table α where
  rows := t.rows ++ [(t.next, v)]
  next := t.next + 1
  nodup := by
    rw [List.map_append, List.map_singleton]
    refine t.nodup.append (List.nodup_singleton _) fun a ha ha' ↦ ?_
    obtain ⟨r, hr, rfl⟩ := List.mem_map.mp ha
    exact absurd (List.mem_singleton.mp ha') (t.bound r hr).ne
  bound := by
    intro r hr
    rcases List.mem_append.mp hr with h | h
    · exact Nat.lt_succ_of_lt (t.bound r h)
    · rw [List.mem_singleton.mp h]
      exact Nat.lt_succ_self _

/-- Free the record at `a`. -/
def erase (t : Table α) (a : ℕ) : Table α where
  rows := t.rows.filter fun r ↦ r.1 != a
  next := t.next
  nodup := t.nodup.sublist ((List.filter_sublist).map _)
  bound := fun r hr ↦ t.bound r (List.mem_of_mem_filter hr)

/-- Take the record at `a` out of its place and put `v` at the same address as the newest row. -/
def reput (t : Table α) (a : ℕ) (v : α) : Table α where
  rows := (t.erase a).rows ++ [(a, v)]
  next := max t.next (a + 1)
  nodup := by
    rw [List.map_append, List.map_singleton]
    refine (t.erase a).nodup.append (List.nodup_singleton _) fun b hb hb' ↦ ?_
    obtain ⟨r, hr, rfl⟩ := List.mem_map.mp hb
    have hne := (List.mem_filter.mp hr).2
    exact absurd (List.mem_singleton.mp hb') (bne_iff_ne.mp hne)
  bound := by
    intro r hr
    rcases List.mem_append.mp hr with h | h
    · exact lt_max_of_lt_left ((t.erase a).bound r h)
    · rw [List.mem_singleton.mp h]
      exact lt_max_of_lt_right (Nat.lt_succ_self _)

/-- The sum of a quantity over all records. -/
def sum (t : Table α) (g : ℕ → α → ℤ) : ℤ := (t.rows.map fun r ↦ g r.1 r.2).sum

/-! ### Rows and lookup -/

variable {a : ℕ}

/-- An address has one row at most, so a row is what a lookup finds. -/
theorem mem_rows_iff {t : Table α} {v : α} : (a, v) ∈ t.rows ↔ t.get? a = some v := by
  obtain ⟨rows, next, nodup, bound⟩ := t
  simp only [get?]
  clear bound
  induction rows with
  | nil => simp
  | cons r rows ih =>
    rw [map_cons, nodup_cons] at nodup
    by_cases h : r.1 = a
    · have hnot : (a, v) ∉ rows := fun hm ↦ nodup.1 (h ▸ mem_map_of_mem hm)
      rw [find?_cons_of_pos (by simpa using h), map_some, mem_cons]
      simp only [hnot, or_false, some.injEq]
      exact ⟨fun he ↦ by rw [← he], fun he ↦ by rw [← h, ← he]⟩
    · rw [find?_cons_of_neg (by simpa using h), ← ih nodup.2, mem_cons]
      simp only [or_iff_right_iff_imp]
      rintro rfl
      exact absurd rfl h

theorem find?_some {t : Table α} {p : α → Bool} {r : ℕ × α} (h : t.find? p = some r) :
    t.get? r.1 = some r.2 ∧ p r.2 = true :=
  ⟨mem_rows_iff.mp (mem_of_find?_eq_some h), List.find?_some (p := fun s : ℕ × α ↦ p s.2) h⟩

theorem find?_none {t : Table α} {p : α → Bool} (h : t.find? p = none) {v : α}
    (hv : t.get? a = some v) : p v = false := by
  have := find?_eq_none.mp h _ (mem_rows_iff.mpr hv)
  simpa using this

/-- The order of the rows does not matter if one record satisfies `p`. -/
theorem find?_of_unique {t : Table α} {p : α → Bool} {v : α} (h : t.get? a = some v)
    (hp : p v = true) (hone : ∀ b w, t.get? b = some w → p w = true → b = a) :
    t.find? p = some (a, v) := by
  cases hfind : t.find? p with
  | none => exact nomatch hp.symm.trans (find?_none hfind h)
  | some r =>
    obtain ⟨hr, hpr⟩ := find?_some hfind
    have ha := hone r.1 r.2 hr hpr
    rw [ha] at hr
    exact congrArg some (Prod.ext ha (mem_unique hr h))

/-- An address in use lies below the counter. -/
theorem lt_next {t : Table α} {v : α} (h : t.get? a = some v) : a < t.next :=
  t.bound _ (mem_rows_iff.mpr h)

@[simp]
theorem get?_empty (a : ℕ) : (empty : Table α).get? a = none := rfl

theorem get?_modify (t : Table α) (a : ℕ) (f : α → α) (b : ℕ) :
    (t.modify a f).get? b = if b = a then (t.get? b).map f else t.get? b := by
  have hfind : ∀ rows : List (ℕ × α),
      ((rows.map fun r ↦ if r.1 = a then (r.1, f r.2) else r).find? fun r ↦ r.1 == b).map Prod.snd =
        if b = a then ((rows.find? fun r ↦ r.1 == b).map Prod.snd).map f
        else (rows.find? fun r ↦ r.1 == b).map Prod.snd := by
    intro rows
    induction rows with
    | nil => simp
    | cons r rows ih =>
      rw [map_cons]
      by_cases hb : r.1 = b
      · rw [find?_cons_of_pos (by split <;> simpa using hb), find?_cons_of_pos (by simpa using hb)]
        simp only [hb]
        split <;> rfl
      · rw [find?_cons_of_neg (by split <;> simpa using hb), ih,
          find?_cons_of_neg (by simpa using hb)]
  exact hfind t.rows

theorem get?_modify_self {t : Table α} {v : α} (h : t.get? a = some v) (f : α → α) :
    (t.modify a f).get? a = some (f v) := by
  rw [get?_modify, if_pos rfl, h, map_some]

theorem get?_modify_of_ne {a b : ℕ} (h : b ≠ a) (t : Table α) (f : α → α) :
    (t.modify a f).get? b = t.get? b := by
  rw [get?_modify, if_neg h]

/-- What a record of the modified table was before. -/
theorem get?_modify_some {t : Table α} {f : α → α} {b : ℕ} {w : α}
    (h : (t.modify a f).get? b = some w) :
    (b = a ∧ ∃ v, t.get? a = some v ∧ w = f v) ∨ (b ≠ a ∧ t.get? b = some w) := by
  rw [get?_modify] at h
  split at h
  · next hb =>
    subst hb
    obtain ⟨v, hv, rfl⟩ := map_eq_some_iff.mp h
    exact Or.inl ⟨rfl, v, hv, rfl⟩
  · next hb => exact Or.inr ⟨hb, h⟩

/-- Tables are equal if their rows and their counters are. -/
theorem ext_rows {s t : Table α} (h : s.rows = t.rows) (hn : s.next = t.next) : s = t := by
  obtain ⟨_, _, _, _⟩ := s
  obtain ⟨_, _, _, _⟩ := t
  simp only at h hn
  subst h hn
  rfl

theorem modify_modify (t : Table α) (a : ℕ) (f g : α → α) :
    (t.modify a f).modify a g = t.modify a (g ∘ f) := by
  refine ext_rows ?_ rfl
  simp only [modify, List.map_map]
  refine List.map_congr_left fun r _ ↦ ?_
  by_cases h : r.1 = a
  · simp [h]
  · simp [h]

/-- Only the record that is there matters to `modify`. -/
theorem modify_congr {t : Table α} {v : α} (h : t.get? a = some v) {f g : α → α}
    (hfg : f v = g v) : t.modify a f = t.modify a g := by
  refine ext_rows ?_ rfl
  refine map_congr_left fun r hr ↦ ?_
  by_cases hra : r.1 = a
  · have hv : r.2 = v := by
      have hget := mem_rows_iff.mp (show (r.1, r.2) ∈ t.rows from hr)
      rw [hra, h] at hget
      exact (some.inj hget).symm
    simp [hra, hv, hfg]
  · simp [hra]

theorem modify_id (t : Table α) (a : ℕ) : t.modify a id = t := by
  refine ext_rows ?_ rfl
  refine (map_congr_left fun r _ ↦ ?_).trans (map_id' t.rows)
  split <;> rfl

@[simp]
theorem next_modify (t : Table α) (a : ℕ) (f : α → α) : (t.modify a f).next = t.next := rfl

@[simp]
theorem addrs_modify (t : Table α) (a : ℕ) (f : α → α) : (t.modify a f).addrs = t.addrs := by
  simp only [addrs, modify, List.map_map]
  refine List.map_congr_left fun r _ ↦ ?_
  simp only [Function.comp_apply]
  split <;> rfl

/-- A search on a property that a change of one record keeps. -/
theorem find?_modify {t : Table α} {v w : α} {p : α → Bool} (h : t.get? a = some v)
    (hp : p w = p v) :
    (t.modify a fun _ ↦ w).find? p = (t.find? p).map fun r ↦ if r.1 = a then (r.1, w) else r := by
  simp only [find?, modify, find?_map]
  congr 1
  refine find?_congr fun r hr ↦ ?_
  simp only [Function.comp_apply]
  split
  · next hra =>
    have hget := mem_rows_iff.mp (show (r.1, r.2) ∈ t.rows from hr)
    rw [hra, h] at hget
    rw [hp, some.inj hget]
  · rfl

/-- The record that is found stays the one that is found. -/
theorem find?_modify_self {t : Table α} {v : α} {f : α → α} {p : α → Bool}
    (h : t.find? p = some (a, v)) (hp : p (f v) = true) :
    (t.modify a f).find? p = some (a, f v) := by
  obtain ⟨hget, hv⟩ := find?_some h
  rw [modify_congr hget (g := fun _ ↦ f v) rfl, find?_modify hget (hp.trans hv.symm), h,
    map_some, if_pos rfl]

/-- `push` gives out an address that is not in use. -/
theorem get?_push (t : Table α) (v : α) (b : ℕ) :
    (t.push v).get? b = if b = t.next then some v else t.get? b := by
  refine ext fun w ↦ ?_
  rw [← mem_rows_iff]
  simp only [push, mem_append, mem_singleton, Prod.mk.injEq]
  split
  · next hb =>
    subst hb
    have hfresh : (t.next, w) ∉ t.rows := fun hm ↦ (t.bound _ hm).false
    simp [hfresh, eq_comm]
  · next hb => rw [mem_rows_iff]; simp [hb]

/-- A search finds an older record before the newest one. -/
theorem find?_push (t : Table α) (v : α) (p : α → Bool) :
    (t.push v).find? p = (t.find? p).or (if p v then some (t.next, v) else none) := by
  simp only [find?, push, find?_append, find?_singleton]

theorem get?_push_of_some {t : Table α} {b : ℕ} {w : α} (h : t.get? b = some w) (v : α) :
    (t.push v).get? b = some w := by
  rw [get?_push, if_neg (lt_next h).ne, h]

theorem get?_erase (t : Table α) (a b : ℕ) :
    (t.erase a).get? b = if b = a then none else t.get? b := by
  refine ext fun w ↦ ?_
  rw [← mem_rows_iff]
  simp only [erase, mem_filter, bne_iff_ne, ne_eq]
  split
  · next hb => simp [hb]
  · next hb => rw [mem_rows_iff]; simp [hb]

theorem get?_erase_some {t : Table α} {a b : ℕ} {w : α} (h : (t.erase a).get? b = some w) :
    b ≠ a ∧ t.get? b = some w := by
  rw [get?_erase] at h
  split at h
  · simp at h
  · next hb => exact ⟨hb, h⟩

/-- Lookups see `reput` as a change of one record. -/
theorem get?_reput (t : Table α) (a : ℕ) (v : α) (b : ℕ) :
    (t.reput a v).get? b = if b = a then some v else t.get? b := by
  refine ext fun w ↦ ?_
  rw [← mem_rows_iff]
  simp only [reput, mem_append, mem_singleton, Prod.mk.injEq, mem_rows_iff, get?_erase]
  split
  · next hb => simp [hb, eq_comm]
  · next hb => simp [hb]

theorem next_le_reput (t : Table α) (a : ℕ) (v : α) : t.next ≤ (t.reput a v).next :=
  le_max_left _ _

/-! ### Addresses in use -/

section

variable {t : Table α} {a b : ℕ} {v : α}

theorem isSome_push (h : (t.get? b).isSome) : ((t.push v).get? b).isSome := by
  obtain ⟨w, hw⟩ := isSome_iff_exists.mp h
  rw [get?_push_of_some hw]
  rfl

theorem isSome_modify {f : α → α} (h : (t.get? b).isSome) : ((t.modify a f).get? b).isSome := by
  rw [get?_modify]
  split
  · rwa [isSome_map]
  · exact h

theorem isSome_reput (h : (t.get? b).isSome) : ((t.reput a v).get? b).isSome := by
  rw [get?_reput]
  split
  · rfl
  · exact h

theorem isSome_erase (h : (t.get? b).isSome) (hb : b ≠ a) : ((t.erase a).get? b).isSome := by
  rw [get?_erase, if_neg hb]
  exact h

end

/-! ### Tests -/

theorem mem_addrs_iff {t : Table α} : a ∈ t.addrs ↔ ∃ v, t.get? a = some v := by
  simp [addrs, ← mem_rows_iff]

/-- Every record satisfies `p`. -/
def all (t : Table α) (p : ℕ → α → Bool) : Bool := t.rows.all fun r ↦ p r.1 r.2

theorem all_iff {t : Table α} {p : ℕ → α → Bool} :
    t.all p = true ↔ ∀ a v, t.get? a = some v → p a v = true := by
  rw [all, List.all_eq_true]
  exact ⟨fun h a v hv ↦ h (a, v) (mem_rows_iff.mpr hv), fun h r hr ↦ h r.1 r.2 (mem_rows_iff.mp hr)⟩

/-! ### Sums -/

theorem sum_push (t : Table α) (v : α) (g : ℕ → α → ℤ) :
    (t.push v).sum g = t.sum g + g t.next v := by
  simp [sum, push]

/-- A record that is freed takes its part of the sum with it. -/
theorem sum_erase {t : Table α} {v : α} (h : t.get? a = some v) (g : ℕ → α → ℤ) :
    (t.erase a).sum g = t.sum g - g a v := by
  have hlist : ∀ rows : List (ℕ × α), (rows.map Prod.fst).Nodup → (a, v) ∈ rows →
      ((rows.filter fun r ↦ r.1 != a).map fun r ↦ g r.1 r.2).sum =
        (rows.map fun r ↦ g r.1 r.2).sum - g a v := by
    intro rows nodup hmem
    induction rows with
    | nil => exact nomatch hmem
    | cons r rows ih =>
      rw [map_cons, nodup_cons] at nodup
      rcases mem_cons.mp hmem with rfl | hmem
      · have hrest : (rows.filter fun r ↦ r.1 != a) = rows :=
          filter_eq_self.mpr fun r hr ↦ bne_iff_ne.mpr fun he ↦ nodup.1 (mem_map.mpr ⟨r, hr, he⟩)
        rw [filter_cons_of_neg (by simp), hrest, map_cons, sum_cons]
        dsimp only
        omega
      · have hne : r.1 ≠ a := fun he ↦ nodup.1 (he ▸ mem_map_of_mem hmem)
        rw [filter_cons_of_pos (by simpa using hne), map_cons, sum_cons,
          ih nodup.2 hmem, map_cons, sum_cons]
        omega
  exact hlist t.rows t.nodup (mem_rows_iff.mpr h)

theorem erase_modify (t : Table α) (a : ℕ) (f : α → α) : (t.modify a f).erase a = t.erase a := by
  refine ext_rows ?_ rfl
  show (t.rows.map fun r ↦ if r.1 = a then (r.1, f r.2) else r).filter (fun r ↦ r.1 != a) =
    t.rows.filter fun r ↦ r.1 != a
  induction t.rows with
  | nil => rfl
  | cons r rows ih => by_cases hr : r.1 = a <;> simp [hr, ih]

/-- Replacing a record changes a sum by the difference of the two contributions. -/
theorem sum_modify {t : Table α} {v : α} (h : t.get? a = some v) (f : α → α)
    (g : ℕ → α → ℤ) : (t.modify a f).sum g = t.sum g - g a v + g a (f v) := by
  have hold := sum_erase h g
  have hnew := sum_erase (get?_modify_self h f) g
  rw [erase_modify] at hnew
  omega

/-- Two quantities that agree on every record have the same sum. -/
theorem sum_congr {t : Table α} {g g' : ℕ → α → ℤ}
    (h : ∀ a v, t.get? a = some v → g a v = g' a v) : t.sum g = t.sum g' := by
  refine congrArg List.sum (List.map_congr_left fun r hr ↦ ?_)
  exact h r.1 r.2 (mem_rows_iff.mp hr)

theorem sum_nonneg {t : Table α} {g : ℕ → α → ℤ} (h : ∀ a v, t.get? a = some v → 0 ≤ g a v) :
    0 ≤ t.sum g := by
  refine List.sum_nonneg fun x hx ↦ ?_
  obtain ⟨r, hr, rfl⟩ := List.mem_map.mp hx
  exact h r.1 r.2 (mem_rows_iff.mp hr)

theorem sum_le_sum {t : Table α} {g g' : ℕ → α → ℤ}
    (h : ∀ a v, t.get? a = some v → g a v ≤ g' a v) : t.sum g ≤ t.sum g' :=
  List.sum_le_sum fun r hr ↦ h r.1 r.2 (mem_rows_iff.mp hr)

/-- A quantity that differs at one record only. -/
theorem sum_eq_add {t : Table α} {v : α} {g g' : ℕ → α → ℤ} (h : t.get? a = some v)
    (hne : ∀ b w, b ≠ a → g' b w = g b w) : t.sum g' = t.sum g + (g' a v - g a v) := by
  have hrest : (t.erase a).sum g' = (t.erase a).sum g :=
    sum_congr fun b w hb ↦ hne b w (get?_erase_some hb).1
  rw [sum_erase h, sum_erase h] at hrest
  omega

/-! ### Counting -/

/-- The number of records that satisfy `p`. -/
def count (t : Table α) (p : α → Prop) [DecidablePred p] : ℤ :=
  (t.rows.countP fun r ↦ decide (p r.2) : ℕ)

section

variable (p : α → Prop) [DecidablePred p]

/-- Counting is adding up ones. -/
theorem count_eq_sum (t : Table α) : t.count p = t.sum fun _ v ↦ if p v then 1 else 0 := by
  have hlist (rows : List (ℕ × α)) : ((rows.countP fun r ↦ decide (p r.2) : ℕ) : ℤ) =
      (rows.map fun r ↦ if p r.2 then (1 : ℤ) else 0).sum := by
    induction rows with
    | nil => rfl
    | cons r rows ih =>
      rw [countP_cons, map_cons, sum_cons, ← ih]
      by_cases hr : p r.2
      · simp [hr, add_comm]
      · simp [hr]
  exact hlist t.rows

/-- A changed record is counted by what it was and what it is. -/
theorem count_modify {t : Table α} {a : ℕ} {v : α} (h : t.get? a = some v) (f : α → α) :
    (t.modify a f).count p = t.count p - (if p v then 1 else 0) + if p (f v) then 1 else 0 := by
  rw [count_eq_sum, count_eq_sum, sum_modify h]

theorem count_push (t : Table α) (v : α) :
    (t.push v).count p = t.count p + if p v then 1 else 0 := by
  rw [count_eq_sum, count_eq_sum, sum_push]

theorem count_erase {t : Table α} {a : ℕ} {v : α} (h : t.get? a = some v) :
    (t.erase a).count p = t.count p - if p v then 1 else 0 := by
  rw [count_eq_sum, count_eq_sum, sum_erase h]

variable {p}

theorem count_eq_zero {t : Table α} (h : ∀ a v, t.get? a = some v → ¬ p v) : t.count p = 0 := by
  rw [count, countP_eq_zero.mpr fun r hr ↦ ?_]
  · rfl
  · simpa using h r.1 r.2 (mem_rows_iff.mp hr)

theorem count_nonneg (t : Table α) : 0 ≤ t.count p := Int.natCast_nonneg _

end

end Table
