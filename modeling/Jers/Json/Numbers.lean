import Jers.Json.Decode
import Mathlib.Data.List.TakeWhile

/-!
# Which numbers are read

`strtoint64` neither asks for a digit nor looks at the size of the number. So `JSONGetNum` reads a
number exactly, or rejects the text, unless what stands before the end of the value is an optional
minus sign and no digit, or a number that does not fit an `int64_t`.
-/

namespace Jers

open List

/-- The sign of a numeral. -/
def sign (neg : Bool) : Str := if neg then ['-'] else []

/-- The number that a sign and digits write. -/
def numeralValue (neg : Bool) (ds : Str) : ℤ := if neg then -readDecimal 0 ds else readDecimal 0 ds

/-- The text is, after blanks, a sign and digits up to the end of a value. -/
def NumeralText (s : Str) (neg : Bool) (ds rest : Str) : Prop :=
  skipWhitespace s = sign neg ++ (ds ++ rest) ∧ IsDigits ds ∧ ValueEnd rest

/-- The number `n` is written at the cursor, with at least one digit, and `rest` follows. -/
def NumberAt (s : Str) (n : ℤ) (rest : Str) : Prop :=
  ∃ neg ds, NumeralText s neg ds rest ∧ ds ≠ [] ∧ n = numeralValue neg ds ∧ IsInt64 n

/-- **Numbers are decoded exactly or rejected.** -/
def NumberExact (s : Str) : Prop := ∀ n rest, jsonGetNum s = some (n, rest) ↔ NumberAt s n rest

variable {s rest ds : Str} {neg : Bool} {n : ℤ}

theorem strtoint64_sign (hds : IsDigits ds) (hrest : NotDigitHead rest)
    (hhead : neg = false → ∀ t, ds ++ rest ≠ '-' :: t) :
    strtoint64 (sign neg ++ (ds ++ rest)) = (Int.bmod (numeralValue neg ds) (2 ^ 64), rest) := by
  have hread : readDigits 0 (ds ++ rest) = _ := readDigits_append hds hrest 0
  cases neg with
  | true =>
    show (Int.bmod (-(readDigits 0 (ds ++ rest)).1) (2 ^ 64), (readDigits 0 (ds ++ rest)).2) = _
    rw [hread, Int.bmod_neg_bmod]
    rfl
  | false => exact (strtoint64.eq_2 _ fun t ht ↦ hhead rfl t ht).trans hread

/-- **What `JSONGetNum` accepts**: a numeral with any number of digits, of any size. -/
theorem jsonGetNum_eq_some_iff : jsonGetNum s = some (n, rest) ↔
    ∃ neg ds, NumeralText s neg ds rest ∧ n = Int.bmod (numeralValue neg ds) (2 ^ 64) := by
  constructor
  · intro h
    -- the text after the sign is cut where the digits end
    obtain ⟨neg, t, ht, hhead⟩ : ∃ neg t, skipWhitespace s = sign neg ++ t ∧
        (neg = false → ∀ u, t ≠ '-' :: u) := by
      by_cases hminus : ∃ u, skipWhitespace s = '-' :: u
      · obtain ⟨u, hu⟩ := hminus
        exact ⟨true, u, hu, by simp⟩
      · exact ⟨false, _, rfl, fun _ u hu ↦ hminus ⟨u, hu⟩⟩
    let digit (c : Char) : Bool := !(c < '0' || '9' < c)
    have hds : IsDigits (t.takeWhile digit) := fun c hc ↦ by
      simpa [digit] using mem_takeWhile_imp hc
    have hend : NotDigitHead (t.dropWhile digit) := by
      intro c u hu
      have := head?_dropWhile_not digit t
      rw [hu] at this
      simpa [digit, or_iff_not_imp_left] using this
    have hsplit : t.takeWhile digit ++ t.dropWhile digit = t := takeWhile_append_dropWhile
    have hread := strtoint64_sign hds hend (hsplit.symm ▸ hhead)
    rw [hsplit, ← ht, strtoint64_of_jsonGetNum h] at hread
    obtain ⟨hn, hrest⟩ := Prod.mk.inj hread
    refine ⟨neg, t.takeWhile digit, ⟨?_, hds, fun c u hu ↦ ?_⟩, hn⟩
    · rw [hrest, hsplit, ht]
    · simp only [jsonGetNum, strtoint64_of_jsonGetNum h, hu] at h
      split at h
      · next hc => exact hc
      · contradiction
  · rintro ⟨neg, ds, ⟨htext, hds, hend⟩, rfl⟩
    have hhead : neg = false → ∀ t, ds ++ rest ≠ '-' :: t := by
      intro _ t ht
      cases ds with
      | nil => rcases hend _ _ ht with h | h | h <;> exact absurd h (by decide)
      | cons c ds => exact hds c mem_cons_self (.inl ((List.cons.inj ht).1 ▸ by decide))
    rw [jsonGetNum, htext, strtoint64_sign hds hend.notDigitHead hhead]
    cases rest with
    | nil => rfl
    | cons c t => exact if_pos (hend c t rfl)

/-- A text is a numeral in one way. -/
theorem NumeralText.unique {neg' : Bool} {ds' : Str} (h : NumeralText s neg ds rest)
    (h' : NumeralText s neg' ds' rest) : neg = neg' ∧ ds = ds' := by
  have hnot {ds t : Str} (hds : IsDigits ds) : ds ≠ '-' :: t := by
    rintro rfl
    exact hds '-' mem_cons_self (by decide)
  have heq : sign neg ++ ds = sign neg' ++ ds' := by
    have := h.1.symm.trans h'.1
    rwa [← append_assoc, ← append_assoc, append_cancel_right_eq] at this
  match neg, neg' with
  | true, true => exact ⟨rfl, (List.cons.inj heq).2⟩
  | false, false => exact ⟨rfl, heq⟩
  | true, false => exact absurd heq.symm (hnot h'.2.1)
  | false, true => exact absurd heq (hnot h.2.1)

/-- **Numbers are decoded exactly** where every numeral has a digit and fits an `int64_t`. -/
theorem numberExact_iff : NumberExact s ↔ ∀ neg ds rest, NumeralText s neg ds rest →
    ds ≠ [] ∧ IsInt64 (numeralValue neg ds) := by
  constructor
  · intro h neg ds rest htext
    obtain ⟨neg', ds', htext', hne, heq, hint⟩ :=
      (h _ _).mp (jsonGetNum_eq_some_iff.mpr ⟨neg, ds, htext, rfl⟩)
    obtain ⟨rfl, rfl⟩ := htext.unique htext'
    exact ⟨hne, heq ▸ hint⟩
  · intro h n rest
    rw [jsonGetNum_eq_some_iff]
    refine exists₂_congr fun neg ds ↦ and_congr_right fun htext ↦ ?_
    obtain ⟨hne, hint⟩ := h neg ds rest htext
    rw [hint.bmod_eq]
    exact ⟨fun hn ↦ ⟨hne, hn, hn ▸ hint⟩, fun hn ↦ hn.2.1⟩

/-- A minus sign without a digit is read as 0. -/
theorem not_numberExact_minus : ¬NumberExact "-,".toList := by
  intro h
  have htext : NumeralText "-,".toList true [] ",".toList := by
    refine ⟨rfl, by simp [IsDigits], fun c t heq ↦ ?_⟩
    exact .inl (List.cons.inj heq).1.symm
  obtain ⟨_, _, htext', hne, -⟩ := (h 0 ",".toList).mp (by decide)
  exact hne (htext.unique htext').2.symm

end Jers
