import Jers.Lib.CString
import Jers.Text.Escape

/-!
# The buffer of `escapeString`

The result of `escapeString` is in a static buffer. If the buffer is not longer than twice the
string, it is made just that long. A string with nothing but characters that are escaped then has no
room for its terminator, nor has the empty string in a buffer without any bytes (`inside_iff`).
-/

namespace Jers.StaticBuffer

open CString Exec List

/-- `realloc`, where it succeeds; `fresh` is what the new memory happens to hold. -/
def realloc (fresh : ℕ → Char) (size : ℕ) : Access Unit :=
  update fun m ↦ m.take size ++ (range (size - m.length)).map fresh

/-- `*dest++ = c`, for one character after the other. -/
def put : ℕ → Str → Access ℕ
  | dest, [] => pure dest
  | dest, c :: cs => do
    store dest c
    put (dest + 1) cs

def escapeLoop : ℕ → Str → Access ℕ
  | dest, [] => pure dest
  | dest, c :: temp => do escapeLoop (← put dest (escapeChar c)) temp

/-- `escapeString` on its static buffer; `escaped_size` is the length of the block. -/
def escapeString (fresh : ℕ → Char) (string : Str) : Access Unit := do
  let escapedSize ← read length
  whenever (escapedSize ≤ string.length * 2) (realloc fresh (string.length * 2))
  let dest ← escapeLoop 0 string
  store dest '\x00'

/-- **The calls stay inside**: no byte is written outside of the buffer, which is null at first. -/
def Inside (fresh : ℕ → Char) (calls : List Str) : Prop :=
  Succeeds (each (escapeString fresh) calls) []

variable {fresh : ℕ → Char} {m : List Char} {dest : ℕ} {c : Char} {cs s : Str} {calls : List Str}

theorem put_append (dest : ℕ) (cs t : Str) : put dest (cs ++ t) = put dest cs >>= (put · t) := by
  induction cs generalizing dest with
  | nil => rfl
  | cons c cs ih => simp only [cons_append, put, ih, bind_assoc]

theorem escapeLoop_eq (dest : ℕ) (s : Str) :
    escapeLoop dest s = put dest (Jers.escapeString s) := by
  induction s generalizing dest with
  | nil => rfl
  | cons c s ih =>
    rw [Jers.escapeString, flatMap_cons, put_append, escapeLoop]
    exact congrArg _ (funext ih)

/-- The characters and the terminator have to fit. -/
theorem put_store (dest : ℕ) (cs : Str) (m : List Char) : ∃ m', m'.length = m.length ∧
    (put dest cs >>= fun d ↦ store d c) m = if dest + cs.length < m.length then .ok ((), m')
    else .error .outOfBounds := by
  induction cs generalizing dest m with
  | nil => exact ⟨m.set dest c, length_set, rfl⟩
  | cons x cs ih =>
    obtain ⟨m', hlen, hrest⟩ := ih (dest + 1) (m.set dest x)
    rw [length_set] at hlen hrest
    refine ⟨m', hlen, ?_⟩
    rw [put, bind_assoc, length_cons, ← Nat.add_assoc, Nat.add_right_comm]
    by_cases hd : dest < m.length
    · have hstore : store dest x m = .ok ((), m.set dest x) := if_pos hd
      rw [bind_of_ok hstore, hrest]
    · have hstore : store dest x m = .error .outOfBounds := if_neg hd
      rw [if_neg (by omega)]
      exact congrArg (· >>= fun r ↦ (put (dest + 1) cs >>= fun d ↦ store d c) r.2) hstore

/-- Every character takes two bytes, but for those that are not escaped. -/
theorem length_escapeString_add (s : Str) :
    (Jers.escapeString s).length + s.countP (fun c ↦ escapeChar c = [c]) = s.length * 2 := by
  induction s with
  | nil => rfl
  | cons c s ih =>
    have hc : (escapeChar c).length + (if escapeChar c = [c] then 1 else 0) = 2 := by
      unfold escapeChar
      split_ifs <;> simp_all
    rw [Jers.escapeString, flatMap_cons, length_append, countP_cons, length_cons]
    rw [Jers.escapeString] at ih
    simp only [decide_eq_true_eq]
    omega

theorem length_escapeString_lt_iff (s : Str) (n : ℕ) :
    (Jers.escapeString s).length < max n (s.length * 2) ↔
    (∃ c ∈ s, escapeChar c = [c]) ∨ s.length * 2 < n := by
  have hlength := length_escapeString_add s
  have hplain : (∃ c ∈ s, escapeChar c = [c]) ↔ 0 < s.countP (fun c ↦ escapeChar c = [c]) := by
    simp [countP_pos_iff]
  rw [hplain]
  omega

/-- One call, on a buffer of any size. -/
theorem escapeString_eq (fresh : ℕ → Char) (s : Str) (m : List Char) :
    ∃ m', m'.length = max m.length (s.length * 2) ∧
    escapeString fresh s m = if (Jers.escapeString s).length < m'.length then .ok ((), m')
      else .error .outOfBounds := by
  rw [escapeString, read_bind, whenever]
  split
  · next hle =>
    obtain ⟨m', hlen, heq⟩ := put_store (c := '\x00') 0 (Jers.escapeString s)
      (m.take (s.length * 2) ++ (range (s.length * 2 - m.length)).map fresh)
    have hsize :
        (m.take (s.length * 2) ++ (range (s.length * 2 - m.length)).map fresh).length = s.length *
        2 := by
      simp
      omega
    refine ⟨m', by omega, ?_⟩
    rw [realloc, update_bind, escapeLoop_eq, heq, hlen, Nat.zero_add]
  · next hgt =>
    obtain ⟨m', hlen, heq⟩ := put_store (c := '\x00') 0 (Jers.escapeString s) m
    refine ⟨m', by omega, ?_⟩
    rw [pure_bind, escapeLoop_eq, heq, hlen, Nat.zero_add]

/-- Some character of every string is not escaped, or an earlier string was longer. -/
def Fits (calls : List Str) : Prop :=
  ∀ earlier s later, calls = earlier ++ s :: later →
    (∃ c ∈ s, escapeChar c = [c]) ∨ ∃ t ∈ earlier, s.length < t.length

theorem each_succeeds_iff (calls : List Str) (m : List Char) :
    Succeeds (each (escapeString fresh) calls) m ↔
    ∀ earlier s later, calls = earlier ++ s :: later →
      (∃ c ∈ s, escapeChar c = [c]) ∨ s.length * 2 < m.length ∨ ∃ t ∈ earlier,
      s.length < t.length := by
  induction calls generalizing m with
  | nil => exact iff_of_true (.pure () m) fun earlier s later h ↦ absurd h (by simp)
  | cons s calls ih =>
    obtain ⟨m', hlen, heq⟩ := escapeString_eq fresh s m
    rw [hlen] at heq
    rw [each]
    by_cases hfits : (∃ c ∈ s, escapeChar c = [c]) ∨ s.length * 2 < m.length
    · rw [if_pos ((length_escapeString_lt_iff s _).mpr hfits)] at heq
      have hrest : Succeeds (escapeString fresh s >>= fun _ ↦ each (escapeString fresh) calls) m ↔
          Succeeds (each (escapeString fresh) calls) m' := by
        rw [Succeeds, bind_of_ok heq]
        rfl
      -- the size that the call leaves stands for its string among the earlier ones
      have hsize (t : Str) (earlier : List Str) :
          t.length * 2 < m'.length ∨ (∃ u ∈ earlier, t.length < u.length) ↔
          t.length * 2 < m.length ∨ ∃ u ∈ s :: earlier, t.length < u.length := by
        have hmax : t.length * 2 < m'.length ↔ t.length * 2 < m.length ∨
          t.length < s.length := by omega
        rw [hmax, or_assoc, exists_mem_cons_iff]
      simp only [hrest, ih, hsize]
      refine ⟨fun h earlier t later heq ↦ ?_, fun h earlier t later heq ↦
        h _ t later (congrArg (s :: ·) heq)⟩
      rcases cons_eq_append_iff.mp heq with ⟨rfl, hcons⟩ | ⟨earlier, rfl, hcalls⟩
      · obtain ⟨rfl, rfl⟩ := cons.inj hcons
        exact hfits.imp_right .inl
      · exact h earlier t later hcalls
    · rw [if_neg (mt (length_escapeString_lt_iff s _).mp hfits)] at heq
      refine iff_of_false ?_ fun h ↦ ?_
      · refine not_succeeds_bind fun h ↦ ?_
        obtain ⟨u, m₁, hok⟩ := h
        exact absurd (heq.symm.trans hok) (by simp)
      · have hs := h [] s calls rfl
        simp only [not_mem_nil, false_and, exists_const, or_false] at hs
        exact hfits hs

/-- **The calls of `escapeString`** stay inside of the buffer if each of them fits. -/
theorem inside_iff (fresh : ℕ → Char) (calls : List Str) : Inside fresh calls ↔ Fits calls := by
  simp [Inside, Fits, each_succeeds_iff]

/-- The first string is empty. -/
theorem not_inside_nil : ¬Inside (fun _ ↦ ' ') [[]] := by
  rintro ⟨u, m, h⟩
  cases h

end Jers.StaticBuffer
