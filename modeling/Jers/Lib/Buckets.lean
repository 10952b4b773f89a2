import Mathlib.Data.List.Nodup
import Mathlib.Logic.Function.Basic

/-!
# Buckets

An inverted index: members are kept in buckets, one for each key in use, and every member remembers
the key of its bucket. Members come to the end of their bucket. Empty buckets stay until they are
cleaned.

Nothing stops a member from being added twice. `Buckets.Sound` says that the buckets and what the
members remember agree, and it is kept as long as only members without a bucket are added.
-/

/-- Buckets of members, and the key that each member remembers. -/
structure Buckets (κ α : Type) where
  table : List (κ × List α) := []
  keyOf : α → Option κ := fun _ ↦ none

namespace Buckets

open List Option

variable {κ α : Type} [BEq κ] [LawfulBEq κ] [DecidableEq α]

/-- Change the bucket of a key. -/
def onKey (k : κ) (g : List α → List α) : List (κ × List α) → List (κ × List α)
  | [] => []
  | e :: es => if k == e.1 then (e.1, g e.2) :: es else e :: onKey k g es

/-- Make a bucket for a key if there is none. -/
def opened (k : κ) (l : List (κ × List α)) : List (κ × List α) :=
  if (l.lookup k).isNone then l ++ [(k, [])] else l

def add (b : Buckets κ α) (a : α) (k : κ) : Buckets κ α where
  table := onKey k (· ++ [a]) (opened k b.table)
  keyOf := Function.update b.keyOf a (some k)

/-- Take a member out of the bucket it remembers. -/
def del (b : Buckets κ α) (a : α) : Buckets κ α :=
  match b.keyOf a with
  | none => b
  | some k => { table := onKey k (·.erase a) b.table, keyOf := Function.update b.keyOf a none }

/-- Free the empty buckets. -/
def clean (b : Buckets κ α) : Buckets κ α := { b with table := b.table.filter fun e ↦ !e.2.isEmpty }

/-- The members of a key. -/
def bucket (b : Buckets κ α) (k : κ) : List α := (b.table.lookup k).getD []

/-! ### Lookups -/

omit [DecidableEq α] in
theorem lookup_onKey (k k' : κ) (g : List α → List α) (l : List (κ × List α)) :
    (onKey k g l).lookup k' = if k' == k then (l.lookup k).map g else l.lookup k' := by
  induction l with
  | nil => simp [onKey]
  | cons e es ih =>
    obtain ⟨k₀, as⟩ := e
    by_cases he : k = k₀
    · subst he
      by_cases hk' : k' = k
      · simp [onKey, hk']
      · have hne : (k' == k) = false := by simpa using hk'
        simp [onKey, lookup_cons, hne]
    · have hk : (k == k₀) = false := by simpa using he
      by_cases hk' : k' = k₀
      · have hne : (k₀ == k) = false := by simpa using Ne.symm he
        subst hk'
        simp [onKey, hk, hne]
      · have hne : (k' == k₀) = false := by simpa using hk'
        simp [onKey, lookup_cons, hk, hne, ih]

omit [LawfulBEq κ] [DecidableEq α] in
theorem map_fst_onKey (k : κ) (g : List α → List α) (l : List (κ × List α)) :
    (onKey k g l).map Prod.fst = l.map Prod.fst := by
  induction l with
  | nil => rfl
  | cons e es ih =>
    rw [onKey]
    split
    · rfl
    · rw [map_cons, map_cons, ih]

omit [DecidableEq α] in
/-- An open bucket has no new members. -/
theorem lookup_opened (k k' : κ) (l : List (κ × List α)) :
    (opened k l).lookup k' = if k' == k then some ((l.lookup k).getD []) else l.lookup k' := by
  rw [opened]
  cases hk : l.lookup k with
  | none =>
    rw [isNone_none, if_pos rfl, lookup_append]
    by_cases hk' : k' = k
    · subst hk'
      simp [hk]
    · have hne : (k' == k) = false := by simpa using hk'
      simp [lookup_cons, hne]
  | some as =>
    rw [isNone_some, if_neg Bool.false_ne_true]
    by_cases hk' : k' = k
    · subst hk'
      simp [hk]
    · simp [hk']

omit [DecidableEq α] in
theorem nodup_opened {k : κ} {l : List (κ × List α)} (h : (l.map Prod.fst).Nodup) :
    ((opened k l).map Prod.fst).Nodup := by
  rw [opened]
  split
  · next hnone =>
    rw [map_append, map_cons, map_nil, nodup_append_comm, singleton_append, nodup_cons]
    refine ⟨fun hmem ↦ ?_, h⟩
    obtain ⟨e, he, rfl⟩ := List.mem_map.mp hmem
    exact absurd (lookup_eq_none_iff.mp (isNone_iff_eq_none.mp hnone) e he) (by simp)
  · exact h

variable {b : Buckets κ α}

omit [DecidableEq α] in
/-- Freeing the empty buckets leaves the members. -/
theorem bucket_clean (h : (b.table.map Prod.fst).Nodup) (k : κ) :
    b.clean.bucket k = b.bucket k := by
  have hlist (l : List (κ × List α)) (h : (l.map Prod.fst).Nodup) :
      ((l.filter fun e ↦ !e.2.isEmpty).lookup k).getD [] = (l.lookup k).getD [] := by
    induction l with
    | nil => rfl
    | cons e es ih =>
      obtain ⟨k₀, as⟩ := e
      rw [map_cons, nodup_cons] at h
      have ih := ih h.2
      rw [lookup_cons]
      cases hempty : as.isEmpty with
      | false =>
        rw [filter_cons_of_pos (by simp [hempty]), lookup_cons]
        split
        · rfl
        · exact ih
      | true =>
        rw [filter_cons_of_neg (by simp [hempty]), ih]
        split
        · next hk =>
          -- the key has no other bucket
          have hnone : es.lookup k = none := by
            rw [lookup_eq_none_iff]
            intro e' he'
            rw [bne_iff_ne]
            rintro rfl
            exact h.1 (List.mem_map.mpr ⟨e', he', beq_iff_eq.mp hk⟩)
          rw [hnone]
          exact (List.isEmpty_iff.mp hempty).symm
        · rfl
  exact hlist b.table h

/-! ### Agreement -/

/-- The buckets have the members that remember their key, each once. -/
structure Sound (b : Buckets κ α) : Prop where
  keys : (b.table.map Prod.fst).Nodup
  mem : ∀ k a, a ∈ b.bucket k ↔ b.keyOf a = some k
  nodup : ∀ k, (b.bucket k).Nodup

omit [LawfulBEq κ] [DecidableEq α] in
theorem Sound.empty : Sound ({} : Buckets κ α) :=
  ⟨nodup_nil, fun _ _ ↦ iff_of_false not_mem_nil nofun, fun _ ↦ nodup_nil⟩

omit [LawfulBEq κ] in
@[simp]
theorem keyOf_add (b : Buckets κ α) (a a' : α) (k : κ) :
    (b.add a k).keyOf a' = if a' = a then some k else b.keyOf a' :=
  Function.update_apply ..

omit [LawfulBEq κ] in
@[simp]
theorem keyOf_del (b : Buckets κ α) (a a' : α) :
    (b.del a).keyOf a' = if a' = a then none else b.keyOf a' := by
  rw [del]
  cases ha : b.keyOf a with
  | none =>
    show b.keyOf a' = _
    by_cases h : a' = a
    · rw [if_pos h, h, ha]
    · rw [if_neg h]
  | some k => exact Function.update_apply ..

theorem bucket_add (b : Buckets κ α) (a : α) (k k' : κ) :
    (b.add a k).bucket k' = if k' == k then b.bucket k ++ [a] else b.bucket k' := by
  simp only [bucket, add, lookup_onKey, lookup_opened, beq_self_eq_true, if_true, map_some]
  split <;> rfl

variable {a : α}

theorem bucket_del {k : κ} (h : b.keyOf a = some k) (k' : κ) :
    (b.del a).bucket k' = if k' == k then (b.bucket k).erase a else b.bucket k' := by
  simp only [bucket, del, h, lookup_onKey]
  split
  · cases b.table.lookup k <;> rfl
  · rfl

/-- The other members stay where they are. -/
theorem mem_bucket_del_of_ne {a' : α} (h : a' ≠ a) (k : κ) :
    a' ∈ (b.del a).bucket k ↔ a' ∈ b.bucket k := by
  cases ha : b.keyOf a with
  | none => rw [del, ha]
  | some k' =>
    rw [bucket_del ha]
    split
    · next hk => rw [mem_erase_of_ne h, beq_iff_eq.mp hk]
    · rfl

/-- **A member without a bucket can be added.** -/
theorem Sound.add (h : b.Sound) (ha : b.keyOf a = none) (k : κ) : (b.add a k).Sound := by
  have hnot (k' : κ) : a ∉ b.bucket k' := fun hmem ↦ absurd ((h.mem k' a).mp hmem) (by simp [ha])
  refine ⟨?_, fun k' a' ↦ ?_, fun k' ↦ ?_⟩
  · rw [Buckets.add, map_fst_onKey]
    exact nodup_opened h.keys
  · rw [bucket_add, keyOf_add]
    by_cases hk : k' = k
    · subst hk
      rw [if_pos (beq_self_eq_true _), mem_append, mem_singleton, h.mem]
      by_cases haa : a' = a
      · simp [haa]
      · simp [haa]
    · rw [if_neg (by simpa using hk), h.mem]
      by_cases haa : a' = a
      · simp [haa, ha, Ne.symm hk]
      · simp [haa]
  · rw [bucket_add]
    split
    · exact List.Nodup.append (h.nodup k) (nodup_singleton a) (by simpa using hnot k)
    · exact h.nodup k'

/-- **Any member can be taken out.** -/
theorem Sound.del (h : b.Sound) (a : α) : (b.del a).Sound := by
  cases ha : b.keyOf a with
  | none =>
    rw [Buckets.del, ha]
    exact h
  | some k =>
    refine ⟨?_, fun k' a' ↦ ?_, fun k' ↦ ?_⟩
    · rw [Buckets.del, ha]
      dsimp only
      rw [map_fst_onKey]
      exact h.keys
    · rw [bucket_del ha, keyOf_del]
      by_cases hk : k' = k
      · subst hk
        rw [if_pos (beq_self_eq_true _), (h.nodup k').mem_erase_iff, h.mem]
        by_cases haa : a' = a
        · simp [haa]
        · simp [haa]
      · rw [if_neg (by simpa using hk), h.mem]
        by_cases haa : a' = a
        · simp [haa, ha, Ne.symm hk]
        · simp [haa]
    · rw [bucket_del ha]
      split
      · exact (h.nodup k).erase a
      · exact h.nodup k'

omit [DecidableEq α] in
theorem Sound.clean (h : b.Sound) : b.clean.Sound :=
  ⟨h.keys.sublist (filter_sublist.map Prod.fst),
    fun k a ↦ by rw [bucket_clean h.keys]; exact h.mem k a,
    fun k ↦ by rw [bucket_clean h.keys]; exact h.nodup k⟩

end Buckets
