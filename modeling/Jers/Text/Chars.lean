import Mathlib.Data.List.Basic
import Mathlib.Data.List.TakeDrop
import Mathlib.Tactic.IntervalCases
import Mathlib.Tactic.NormNum
import Mathlib.Tactic.Ring

/-!
# Character strings and decimal numerals

The C program works on NUL-terminated buffers. Here a string is the list of the characters before
the terminator, so a cursor into a buffer is the list of the characters it still has in front of
it, and the end of the list is the NUL. The helpers of `common.c` and the number reader of
`json.c` are translated in that form, and the two numeral functions are shown to be inverse to
each other on `int64_t`.
-/

namespace Jers

open List

/-- A C string: its characters up to the terminating NUL. -/
abbrev Str := List Char

/-- What holds of every character of a string is tested on its characters, not on all characters. -/
instance (priority := 2000) decidableForallMemStr (P : Char → Prop) [DecidablePred P] (s : Str) :
    Decidable (∀ c ∈ s, P c) :=
  List.decidableBAll P s

/-! ### Cursor movement -/

/-- Blanks and tabs, the whitespace of `skipWhitespace`. -/
def isBlank (c : Char) : Bool := c == ' ' || c == '\t'

/-- The macro `skipWhitespace`: the cursor after leading blanks and tabs. -/
def skipWhitespace (s : Str) : Str := s.dropWhile isBlank

/-- The cursor at the first blank or tab, the macro `skipUntilWhitespace`. -/
def skipUntilWhitespace (s : Str) : Str := s.dropWhile fun c ↦ !isBlank c

/-- The cursor after the leading characters that occur in `skip`. -/
def skipChars (s skip : Str) : Str := s.dropWhile fun c ↦ skip.contains c

/-- The macro `uppercasestring`. -/
def uppercasestring (s : Str) : Str := s.map Char.toUpper

/-- The macro `lowercasestring`. -/
def lowercasestring (s : Str) : Str := s.map Char.toLower

/-- The names `check_name` accepts: letters, digits, dots, underscores and hyphens. -/
def checkName (name : Str) : Bool :=
  name.all fun c ↦ c.isAlphanum || c == '.' || c == '_' || c == '-'

variable {c : Char} {n : ℤ}

theorem skipWhitespace_cons_of_not_blank (h : isBlank c = false) (s : Str) :
    skipWhitespace (c :: s) = c :: s := by
  simp [skipWhitespace, h]

variable {skip : Str}

theorem skipChars_cons_of_notMem (h : skip.contains c = false) (s : Str) :
    skipChars (c :: s) skip = c :: s := by
  simp only [skipChars, dropWhile_cons, h, Bool.false_eq_true, if_false]

theorem skipChars_cons_of_mem (h : skip.contains c = true) (s : Str) :
    skipChars (c :: s) skip = skipChars s skip := by
  simp only [skipChars, dropWhile_cons, h, if_true]

theorem length_skipWhitespace_le (s : Str) : (skipWhitespace s).length ≤ s.length :=
  (dropWhile_suffix _).length_le

theorem length_skipChars_le (s skip : Str) : (skipChars s skip).length ≤ s.length :=
  (dropWhile_suffix _).length_le

/-! ### Numerals -/

/-- The digits of `v`, least significant first: the `do … while (v)` loop of `int64tostr`. -/
def digitsRev (v : ℕ) : Str :=
  Nat.digitChar (v % 10) :: if v / 10 = 0 then [] else digitsRev (v / 10)
termination_by v
decreasing_by omega

/-- The decimal numeral of an `int64_t`. The loop leaves the digits and the sign in reverse order
and the source swaps them in place; negating the least value wraps, so its magnitude is taken as a
`uint64_t`. -/
def int64tostr (value : ℤ) : Str :=
  let v := if value < 0 then (Int.bmod (value * -1) (2 ^ 64) % 2 ^ 64).toNat else value.toNat
  (digitsRev v ++ if value < 0 then ['-'] else []).reverse

/-- The digit loop of `strtoint64`: the accumulated value and the cursor at the first character
that is not a digit. -/
def readDigits (result : ℤ) : Str → ℤ × Str
  | [] => (result, [])
  | c :: s =>
    if c < '0' ∨ '9' < c then (result, c :: s)
    else readDigits (Int.bmod (result * 10 + c.toNat - '0'.toNat) (2 ^ 64)) s

/-- `strtoint64`: the number at the cursor and the cursor after it. -/
def strtoint64 (s : Str) : ℤ × Str :=
  match s with
  | '-' :: rest =>
    let r := readDigits 0 rest
    (Int.bmod (-r.1) (2 ^ 64), r.2)
  | _ => readDigits 0 s

/-- The values an `int64_t` can hold. -/
def IsInt64 (n : ℤ) : Prop := -2 ^ 63 ≤ n ∧ n < 2 ^ 63

instance (n : ℤ) : Decidable (IsInt64 n) := inferInstanceAs (Decidable (_ ∧ _))

theorem IsInt64.bmod_eq (h : IsInt64 n) : Int.bmod n (2 ^ 64) = n := by
  obtain ⟨h₁, h₂⟩ := h
  exact Int.bmod_eq_of_le (by norm_num at *; omega) (by norm_num at *; omega)

/-- A cursor at which a numeral ends: at the end of the text or before a character that is not a
digit. -/
def NotDigitHead (s : Str) : Prop := ∀ c t, s = c :: t → c < '0' ∨ '9' < c

theorem digitChar_bounds {d : ℕ} (h : d < 10) : ¬(Nat.digitChar d < '0' ∨ '9' < Nat.digitChar d) ∧
      ((Nat.digitChar d).toNat : ℤ) - '0'.toNat = d := by
  interval_cases d <;> decide

theorem digitsRev_ne_nil (v : ℕ) : digitsRev v ≠ [] := by
  rw [digitsRev]; exact cons_ne_nil _ _

/-- Every character of a numeral is a decimal digit. -/
theorem mem_digitsRev {v : ℕ} (h : c ∈ digitsRev v) : ∃ d < 10, c = Nat.digitChar d := by
  induction v using Nat.strong_induction_on with
  | _ v ih =>
    rw [digitsRev] at h
    rcases mem_cons.mp h with rfl | h
    · exact ⟨v % 10, Nat.mod_lt _ (by omega), rfl⟩
    · split at h
      · exact absurd h (not_mem_nil)
      · exact ih (v / 10) (by omega) h

variable {s : Str}

theorem readDigits_of_notDigitHead (h : NotDigitHead s) (r : ℤ) : readDigits r s = (r, s) := by
  cases s with
  | nil => rfl
  | cons c t => rw [readDigits, if_pos (h c t rfl)]

/-- The digit loop of `strtol`, before the result is brought into range. -/
def readDecimal (n : ℕ) : Str → ℕ
  | [] => n
  | c :: s => if c < '0' ∨ '9' < c then n else readDecimal (10 * n + (c.toNat - '0'.toNat)) s

theorem readDecimal_digitsRev (v : ℕ) (hs : NotDigitHead s) :
    readDecimal 0 ((digitsRev v).reverse ++ s) = v := by
  have hdigit : ∀ {d : ℕ}, d < 10 → ∀ (n : ℕ) (t : Str),
      readDecimal n (Nat.digitChar d :: t) = readDecimal (10 * n + d) t := by
    intro d hd n t
    obtain ⟨hr, hv⟩ := digitChar_bounds hd
    have hv' : (Nat.digitChar d).toNat - '0'.toNat = d := by omega
    rw [readDecimal, if_neg hr, hv']
  have hstop : ∀ n : ℕ, readDecimal n s = n := by
    intro n
    cases s with
    | nil => rfl
    | cons c t => rw [readDecimal, if_pos (hs c t rfl)]
  -- one digit at a time, from the most significant one
  suffices h : ∀ t : Str, readDecimal 0 ((digitsRev v).reverse ++ t) = readDecimal v t by
    rw [h, hstop]
  induction v using Nat.strong_induction_on with
  | _ v ih =>
    intro t
    rw [digitsRev, reverse_cons, append_assoc, singleton_append]
    have hlt : v % 10 < 10 := Nat.mod_lt _ (by omega)
    split
    · next h =>
      rw [reverse_nil, nil_append, hdigit hlt]
      congr 1
      omega
    · next h =>
      rw [ih (v / 10) (by omega), hdigit hlt]
      congr 1
      omega

/-- Decimal digits only. -/
def IsDigits (ds : Str) : Prop := ∀ c ∈ ds, ¬(c < '0' ∨ '9' < c)

/-- Reading digits from `n` accumulates the number they write, modulo the word size. -/
theorem readDigits_append {ds s : Str} (hds : IsDigits ds) (hs : NotDigitHead s) (n : ℕ) :
    readDigits (Int.bmod n (2 ^ 64)) (ds ++ s) = (Int.bmod (readDecimal n ds) (2 ^ 64), s) := by
  induction ds generalizing n with
  | nil => exact readDigits_of_notDigitHead hs _
  | cons c ds ih =>
    have hc := hds c mem_cons_self
    have hlow : '0'.toNat ≤ c.toNat := not_lt.mp fun h ↦ hc (.inl h)
    rw [cons_append, readDigits, if_neg hc, readDecimal, if_neg hc,
      ← ih fun d hd ↦ hds d (mem_cons_of_mem _ hd)]
    have hvalue :
        ((10 * n + (c.toNat - '0'.toNat) : ℕ) : ℤ) = n * 10 + (c.toNat - '0'.toNat : ℤ) := by
      omega
    rw [add_sub_assoc, hvalue, ← Int.bmod_add_bmod, Int.bmod_mul_bmod, Int.bmod_add_bmod]

theorem readDigits_digitsRev (v : ℕ) (hs : NotDigitHead s) :
    readDigits 0 ((digitsRev v).reverse ++ s) = (Int.bmod v (2 ^ 64), s) := by
  have hds : IsDigits (digitsRev v).reverse := by
    intro c hc
    obtain ⟨d, hd, rfl⟩ := mem_digitsRev (mem_reverse.mp hc)
    exact (digitChar_bounds hd).1
  have hvalue := readDecimal_digitsRev v (s := []) fun _ _ h ↦ nomatch h
  rw [append_nil] at hvalue
  exact (readDigits_append hds hs 0).trans (by rw [hvalue])

/-- The magnitude `int64tostr` prints is the absolute value, also for the least `int64_t`. -/
theorem int64_magnitude (h : IsInt64 n) (hn : n < 0) :
    ((Int.bmod (n * -1) (2 ^ 64) % 2 ^ 64).toNat : ℤ) = -n := by
  obtain ⟨h₁, h₂⟩ := h
  have hmod : Int.bmod (n * -1) (2 ^ 64) % 2 ^ 64 = -n := by
    rw [show (2 : ℤ) ^ 64 = ((2 ^ 64 : ℕ) : ℤ) by norm_num, Int.bmod_emod]
    norm_num at *
    omega
  rw [hmod]
  omega

/-- A numeral is the digits of the magnitude, after a minus sign if the number is negative. -/
theorem int64tostr_eq (h : IsInt64 n) :
    int64tostr n = (if n < 0 then ['-'] else []) ++ (digitsRev n.natAbs).reverse := by
  have hnat :
      (if n < 0 then (Int.bmod (n * -1) (2 ^ 64) % 2 ^ 64).toNat else n.toNat) = n.natAbs := by
    split
    · next hn =>
      have := int64_magnitude h hn
      omega
    · omega
  rw [int64tostr, hnat, reverse_append]
  split <;> rfl

theorem reverse_digitsRev_ne_minus (v : ℕ) (s t : Str) : (digitsRev v).reverse ++ s ≠ '-' :: t := by
  intro heq
  cases hd : (digitsRev v).reverse with
  | nil => exact digitsRev_ne_nil v (reverse_eq_nil_iff.mp hd)
  | cons c ds =>
    rw [hd, cons_append, List.cons.injEq] at heq
    have hmem : '-' ∈ digitsRev v := by
      rw [← mem_reverse, hd, heq.1]
      exact mem_cons_self
    obtain ⟨d, hd, hc⟩ := mem_digitsRev hmem
    exact (digitChar_bounds hd).1 (.inl (hc ▸ by decide))

/-- **Numerals are read back.** `strtoint64` at the numeral of an `int64_t` returns that number
and stops right after it. -/
theorem strtoint64_int64tostr (h : IsInt64 n) (hs : NotDigitHead s) :
    strtoint64 (int64tostr n ++ s) = (n, s) := by
  have hread := readDigits_digitsRev n.natAbs hs
  rw [int64tostr_eq h]
  split
  · have hneg : -(n.natAbs : ℤ) = n := by omega
    simp only [cons_append, nil_append, strtoint64, hread, Int.bmod_neg_bmod, hneg, h.bmod_eq]
  · have hpos : (n.natAbs : ℤ) = n := by omega
    rw [nil_append, strtoint64.eq_2 _ (reverse_digitsRev_ne_minus _ s), hread, hpos, h.bmod_eq]

theorem int64tostr_ne_nil (n : ℤ) : int64tostr n ≠ [] := by
  simp [int64tostr, digitsRev_ne_nil]

/-- A numeral consists of digits and possibly a minus sign. -/
theorem mem_int64tostr (h : c ∈ int64tostr n) : c = '-' ∨ ∃ d < 10, c = Nat.digitChar d := by
  unfold int64tostr at h
  rw [mem_reverse, mem_append] at h
  rcases h with h | h
  · exact Or.inr (mem_digitsRev h)
  · split at h
    · exact Or.inl (mem_singleton.mp h)
    · exact nomatch h

end Jers
