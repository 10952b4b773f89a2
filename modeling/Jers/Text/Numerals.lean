import Jers.Text.Chars

/-!
# The numerals of 64-bit integers

`int64tostr` and `strtoint64` are inverse to each other on every `int64_t`, the least one included,
if signed arithmetic wraps. But signed overflow is undefined, and there is some: `int64tostr`
negates the least value, and `strtoint64` adds the character of a digit before it takes `'0'` off,
which runs over for the numbers within 48 of the ends of the range (`exactNumeral_iff`).
-/

namespace Jers

open List

/-! ### The arithmetic -/

/-- The result of a signed operation, if it fits. -/
def signed (n : ℤ) : Option ℤ := if IsInt64 n then some n else none

/-- The value that `int64tostr` takes the digits of. -/
def int64tostrSigned (value : ℤ) : Option ℤ := if value < 0 then signed (value * -1) else some value

/-- `(*result * 10) + *pos - '0'` -/
def digitSigned (result : ℤ) (c : Char) : Option ℤ := do
  let tens ← signed (result * 10)
  let sum ← signed (tens + c.toNat)
  signed (sum - '0'.toNat)

def readDigitsSigned (result : ℤ) : Str → Option ℤ
  | [] => some result
  | c :: s =>
    if c < '0' ∨ '9' < c then some result else (digitSigned result c).bind (readDigitsSigned · s)

def strtoint64Signed : Str → Option ℤ
  | '-' :: rest => (readDigitsSigned 0 rest).bind fun result ↦ signed (-result)
  | s => readDigitsSigned 0 s

/-- The characters of `int64tostr` before they are swapped in place. -/
def int64tostrRev (value : ℤ) : Str :=
  digitsRev (if value < 0 then (Int.bmod (value * -1) (2 ^ 64) % 2 ^ 64).toNat else value.toNat) ++
    if value < 0 then ['-'] else []

/-- **The conversion is exact**: the canonical numeral is written and read back, and nothing
overflows. -/
structure ExactNumeral (value : ℤ) : Prop where
  swapped : (int64tostrRev value).toArray.reverse.toList = int64tostr value
  canonical : int64tostr value = (toString value).toList
  length_le : (int64tostr value).length ≤ 20
  read : strtoint64 (int64tostr value) = (value, [])
  printed : (int64tostrSigned value).isSome
  parsed : (strtoint64Signed (int64tostr value)).isSome

/-! ### Digits -/

theorem reverse_digitsRev (v : ℕ) : (digitsRev v).reverse = Nat.toDigits 10 v := by
  induction v using Nat.strong_induction_on with
  | _ v ih =>
    rw [digitsRev, Nat.toDigits_eq_if (by decide), reverse_cons]
    by_cases hv : v < 10
    · rw [if_pos hv, if_pos (by omega), Nat.mod_eq_of_lt hv]
      rfl
    · rw [if_neg hv, if_neg (by omega), ih (v / 10) (by omega)]

theorem toString_toList (n : ℤ) : (toString n).toList = (if n < 0 then ['-'] else []) ++
    Nat.toDigits 10 n.natAbs := by
  cases n with
  | ofNat n => simp [toString, Int.repr, Nat.repr_eq_ofList_toDigits]
  | negSucc n => simp [toString, Int.repr, Nat.repr_eq_ofList_toDigits]

theorem int64tostr_eq_toString {n : ℤ} (h : IsInt64 n) : int64tostr n = (toString n).toList := by
  rw [int64tostr_eq h, reverse_digitsRev, toString_toList]

theorem digitSigned_eq {t n : ℤ} {c : Char} (ht : 0 ≤ t) (hn : t * 10 ≤ n)
    (h : t * 10 + c.toNat = n + 48) :
    digitSigned t c = if n + 48 < 2 ^ 63 then some n else none := by
  have hfits {m : ℤ} (hm : IsInt64 m) : signed m = some m := if_pos hm
  have hlast : n + 48 - ('0'.toNat : ℤ) = n := add_sub_cancel_right n 48
  rw [digitSigned]
  split
  · have htens : IsInt64 (t * 10) := by constructor <;> omega
    have hsum : IsInt64 (n + 48) := by constructor <;> omega
    rw [hfits htens, Option.bind_eq_bind, Option.bind_some, h, hfits hsum, Option.bind_some, hlast]
    exact hfits (by constructor <;> omega)
  · have hsum : ¬IsInt64 (n + 48) := fun hsum ↦ by have := hsum.2; omega
    by_cases htens : IsInt64 (t * 10)
    · rw [hfits htens, Option.bind_eq_bind, Option.bind_some, h, signed, if_neg hsum]
      rfl
    · rw [signed, if_neg htens]
      rfl

/-- The reader overflows at a number if it does at the last digit. -/
theorem readDigitsSigned_digitsRev (n : ℕ) (s : Str) :
    readDigitsSigned 0 ((digitsRev n).reverse ++ s) =
    if n + 48 < 2 ^ 63 then readDigitsSigned n s else none := by
  induction n using Nat.strong_induction_on generalizing s with
  | _ n ih =>
    obtain ⟨hdigit, hvalue⟩ := digitChar_bounds (Nat.mod_lt n (by decide : 10 > 0))
    have hzero : ('0'.toNat : ℤ) = 48 := rfl
    have hstep : readDigitsSigned (n / 10 : ℕ) (Nat.digitChar (n % 10) :: s) =
        if n + 48 < 2 ^ 63 then readDigitsSigned n s else none := by
      rw [readDigitsSigned, if_neg hdigit, digitSigned_eq (n := n) (by omega) (by omega) (by omega)]
      norm_cast
      split <;> rfl
    rw [digitsRev, reverse_cons, append_assoc, singleton_append]
    split
    · next hn =>
      rw [hn] at hstep
      exact hstep
    · rw [ih (n / 10) (by omega), hstep]
      split_ifs
      · rfl
      · rfl
      · omega
      · rfl

theorem strtoint64Signed_int64tostr {n : ℤ} (h : IsInt64 n) :
    strtoint64Signed (int64tostr n) = if n.natAbs + 48 < 2 ^ 63 then some n else none := by
  have hread := readDigitsSigned_digitsRev n.natAbs []
  rw [readDigitsSigned] at hread
  rw [int64tostr_eq h, ← append_nil (digitsRev n.natAbs).reverse]
  split
  · next hn =>
    rw [singleton_append, strtoint64Signed, hread]
    split
    · have hneg : -(n.natAbs : ℤ) = n := by omega
      rw [Option.bind_some, hneg]
      exact if_pos h
    · rfl
  · next hn =>
    have hpos : (n.natAbs : ℤ) = n := by omega
    rw [nil_append, strtoint64Signed.eq_2 _ (reverse_digitsRev_ne_minus _ []), hread, hpos]

theorem length_int64tostr_le {n : ℤ} (h : IsInt64 n) : (int64tostr n).length ≤ 20 := by
  have hdigits : (Nat.toDigits 10 n.natAbs).length ≤ 19 := by
    rw [Nat.length_toDigits_le_iff (by decide) (by decide)]
    obtain ⟨h₁, h₂⟩ := h
    omega
  rw [int64tostr_eq h, reverse_digitsRev, length_append]
  split
  · exact Nat.add_comm _ _ ▸ Nat.succ_le_succ hdigits
  · exact (Nat.zero_add _).trans_le (hdigits.trans (by decide))

/-- **The conversion of an `int64_t`** is exact but for the numbers at the ends of the range. -/
theorem exactNumeral_iff (v : Int64) : ExactNumeral v.toInt ↔ v.toInt.natAbs + 48 < 2 ^ 63 := by
  have h : IsInt64 v.toInt := ⟨v.le_toInt, v.toInt_lt⟩
  generalize v.toInt = n at h
  have hparsed := strtoint64Signed_int64tostr h
  refine ⟨fun hexact ↦ by_contra fun hlarge ↦ ?_, fun hsmall ↦ ⟨?_, ?_, length_int64tostr_le h, ?_,
    ?_, ?_⟩⟩
  · have hsome := hexact.parsed
    rw [hparsed, if_neg hlarge] at hsome
    exact absurd hsome (by decide)
  · simp [int64tostrRev, int64tostr]
  · exact int64tostr_eq_toString h
  · simpa using strtoint64_int64tostr h (s := []) fun _ _ h ↦ absurd h (by simp)
  · rw [int64tostrSigned]
    split
    · have hfits : IsInt64 (n * -1) := by constructor <;> omega
      rw [signed, if_pos hfits]
      rfl
    · rfl
  · rw [hparsed, if_pos hsmall]
    rfl

/-- The greatest `int64_t` is printed and read back, by way of an overflow. -/
theorem not_exactNumeral_max : ¬ExactNumeral Int64.maxValue.toInt := by
  intro h
  have hsome := h.parsed
  rw [strtoint64Signed_int64tostr (by decide), if_neg (by decide)] at hsome
  exact absurd hsome (by decide)

end Jers
