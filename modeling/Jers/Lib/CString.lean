import Jers.Lib.Exec
import Mathlib.Algebra.Order.Group.Nat

/-!
# Strings in memory

A block of memory is a list of characters, a pointer into it is an offset, and the null pointer is
`none`. Reading or writing outside the block, or through the null pointer, stops the computation;
so does a loop that has gone round as often as its fuel allows.

`Text m e p s` says that the characters from `p` on, up to a NUL at `e`, are those of `s`. `Within p
q` relates two memories that differ at most from `p` up to and not including `q`. The loops of the C
library that go through a string are given with what they do to a `Text`; what is outside the range
of a write keeps its `Text` by `Text.within_right` and `Text.within_left`.
-/

namespace CString

/-- The ways in which a computation on memory goes wrong. -/
inductive Fault
  | outOfBounds | nullPointer | outOfFuel
  deriving DecidableEq, Repr

/-- Computations on a block of memory. -/
abbrev Access := Exec (List Char) Fault

/-! ### Access -/

/-- Read a character, `*p`. -/
def load (p : ℕ) : Access Char := fun m ↦ match m[p]? with
  | some c => .ok (c, m)
  | none => .error .outOfBounds

/-- Write a character, `*p = c`. -/
def store (p : ℕ) (c : Char) : Access Unit := fun m ↦
  if p < m.length then .ok ((), m.set p c) else .error .outOfBounds

/-- Use a pointer that must not be null. -/
def deref : Option ℕ → Access ℕ
  | some p => pure p
  | none => Exec.stop .nullPointer

/-- `while (*p != '\0' && f(*p)) p++`. -/
def skipWhile (f : Char → Bool) : ℕ → ℕ → Access ℕ
  | 0, _ => Exec.stop .outOfFuel
  | fuel + 1, p => do
    let c ← load p
    if c ≠ '\x00' ∧ f c then skipWhile f fuel (p + 1) else pure p

/-- `while (*p) { *p = f(*p); p++; }`. -/
def mapInPlace (f : Char → Char) : ℕ → ℕ → Access Unit
  | 0, _ => Exec.stop .outOfFuel
  | fuel + 1, p => do
    let c ← load p
    if c = '\x00' then pure ()
    else
      store p (f c)
      mapInPlace f fuel (p + 1)

/-- The string at a pointer, as `strdup` copies it and `strcmp` compares it. -/
def copy : ℕ → ℕ → Access (List Char)
  | 0, _ => Exec.stop .outOfFuel
  | fuel + 1, p => do
    let c ← load p
    if c = '\x00' then pure []
    else
      let s ← copy fuel (p + 1)
      pure (c :: s)

/-- `strncmp(p, word, n) == 0` for a word of length `n`: the comparison stops at the first
difference. -/
def startsWith : List Char → ℕ → Access Bool
  | [], _ => pure true
  | w :: word, p => do
    let c ← load p
    if c = w then startsWith word (p + 1) else pure false

/-! ### What is in memory -/

/-- From `p` up to the NUL at `e` the memory holds `s`. -/
def Text (m : List Char) (e : ℕ) : ℕ → List Char → Prop
  | p, [] => p = e ∧ m[p]? = some '\x00'
  | p, c :: s => c ≠ '\x00' ∧ m[p]? = some c ∧ Text m e (p + 1) s

/-- From `p` on the memory holds the characters of `s`. -/
def Chars (m : List Char) : ℕ → List Char → Prop
  | _, [] => True
  | p, c :: s => c ≠ '\x00' ∧ m[p]? = some c ∧ Chars m (p + 1) s

/-- The string at `p` is `s`, and it lies from `a` up to and not including `b`. -/
def Points (m : List Char) (a b p : ℕ) (s : List Char) : Prop := a ≤ p ∧ ∃ e, Text m e p s ∧ e < b

/-- The memories differ at most from `p` up to and not including `q`. -/
def Within (p q : ℕ) (m m' : List Char) : Prop := ∀ i, i < p ∨ q ≤ i → m'[i]? = m[i]?

variable {m m' m'' : List Char} {e p q r fuel : ℕ} {c : Char} {s t : List Char}

theorem Within.refl (p q : ℕ) (m : List Char) : Within p q m m := fun _ _ ↦ rfl

theorem Within.trans (h₁ : Within p q m m') (h₂ : Within p q m' m'') : Within p q m m'' :=
  fun i hi ↦ (h₂ i hi).trans (h₁ i hi)

theorem Within.mono {p' q' : ℕ} (h : Within p q m m') (hp : p' ≤ p) (hq : q ≤ q') :
    Within p' q' m m' :=
  fun i hi ↦ h i (hi.imp (lt_of_lt_of_le · hp) hq.trans)

/-- One write after another: the second one starts later, the first one ends earlier. -/
theorem Within.seq (h₁ : Within p r m m') (h₂ : Within q e m' m'') (hpq : p ≤ q) (hre : r ≤ e) :
    Within p e m m'' :=
  (h₁.mono le_rfl hre).trans (h₂.mono hpq le_rfl)

theorem Text.add_length (h : Text m e p s) : p + s.length = e := by
  induction s generalizing p with
  | nil => exact h.1
  | cons c s ih =>
    have := ih h.2.2
    rw [List.length_cons]
    omega

theorem Text.le (h : Text m e p s) : p ≤ e := h.add_length ▸ Nat.le_add_right _ _

theorem Text.nul (h : Text m e p s) : m[e]? = some '\x00' := by
  induction s generalizing p with
  | nil => exact h.1 ▸ h.2
  | cons c s ih => exact ih h.2.2

theorem Text.of_append (h : Text m e p (s ++ t)) : Text m e (p + s.length) t := by
  induction s generalizing p with
  | nil => exact h
  | cons c s ih =>
    have := ih h.2.2
    rwa [List.length_cons, ← Nat.add_assoc, Nat.add_right_comm]

/-- What agrees on the range of a string holds the same string. -/
theorem Text.congr (h : Text m e p s) (hsame : ∀ i, p ≤ i → i ≤ e → m'[i]? = m[i]?) :
    Text m' e p s := by
  induction s generalizing p with
  | nil => exact ⟨h.1, (hsame p le_rfl h.1.le).trans h.2⟩
  | cons c s ih =>
    have hle := h.2.2.le
    exact ⟨h.1, (hsame p le_rfl (by omega)).trans h.2.1, ih h.2.2 fun i hi ↦ hsame i (by omega)⟩

variable {a : ℕ}

/-- Writes before the string. -/
theorem Text.within_left (h : Text m e p s) (hw : Within a q m m') (hq : q ≤ p) : Text m' e p s :=
  h.congr fun i hi _ ↦ hw i (.inr (hq.trans hi))

/-- Writes after the string. -/
theorem Text.within_right (h : Text m e p s) (hw : Within a q m m') (ha : e < a) : Text m' e p s :=
  h.congr fun i _ hi ↦ hw i (.inl (hi.trans_lt ha))

theorem Chars.text (h : Chars m p s) (hend : m[p + s.length]? = some '\x00') :
    Text m (p + s.length) p s := by
  induction s generalizing p with
  | nil => exact ⟨rfl, hend⟩
  | cons c s ih =>
    have heq : p + 1 + s.length = p + (c :: s).length := by
      rw [List.length_cons]
      omega
    exact ⟨h.1, h.2.1, heq ▸ ih h.2.2 (heq ▸ hend)⟩

/-- Writes after the characters. -/
theorem Chars.within (h : Chars m p s) (hw : Within a q m m') (ha : p + s.length ≤ a) :
    Chars m' p s := by
  induction s generalizing p with
  | nil => trivial
  | cons c s ih =>
    rw [List.length_cons] at ha
    exact ⟨h.1, (hw p (.inl (by omega))).trans h.2.1, ih h.2.2 (by omega)⟩

theorem Text.chars (h : Text m e p (s ++ t)) : Chars m p s := by
  induction s generalizing p with
  | nil => trivial
  | cons c s ih => exact ⟨h.1, h.2.1, ih h.2.2⟩

/-- The block reaches to the terminator. -/
theorem Text.inside (h : Text m e p s) (hq : q ≤ e) : m[q]? ≠ none := by
  have he : ¬m.length ≤ e := fun hle ↦ by simpa [List.getElem?_eq_none hle] using h.nul
  rw [ne_eq, getElem?_eq_none_iff]
  omega

theorem Points.mono {b a' b' : ℕ} (h : Points m a b p s) (ha : a' ≤ a) (hb : b ≤ b') :
    Points m a' b' p s := by
  obtain ⟨hp, e, htext, he⟩ := h
  exact ⟨ha.trans hp, e, htext, he.trans_le hb⟩

theorem Points.within {b : ℕ} (h : Points m a b p s) (hw : Within b q m m') :
    Points m' a b p s := by
  obtain ⟨hp, e, htext, he⟩ := h
  exact ⟨hp, e, htext.within_right hw he, he⟩

/-- A string that fills a block up to its terminator. -/
theorem text_append_nul (hs : '\x00' ∉ s) (a b : List Char) :
    Text (a ++ s ++ '\x00' :: b) (a.length + s.length) a.length s := by
  induction s generalizing a with
  | nil => exact ⟨rfl, by simp⟩
  | cons c s ih =>
    rw [List.mem_cons, not_or] at hs
    have := ih hs.2 (a ++ [c])
    refine ⟨fun h ↦ hs.1 h.symm, by simp, ?_⟩
    simp only [List.length_append, List.length_cons, List.length_nil, List.append_assoc,
      List.cons_append, List.nil_append] at this ⊢
    rwa [add_right_comm, add_assoc] at this

/-! ### Rules -/

open Exec Nat List

/-- The character at the start of a string. -/
theorem load_eq (h : m[p]? = some c) : load p m = .ok (c, m) := by
  rw [load, h]

theorem not_succeeds_load (h : m[p]? = none) : ¬Succeeds (load p) m := by
  rintro ⟨c, m', h'⟩
  rw [load, h] at h'
  exact nomatch h'

theorem yields_store (c : Char) (h : m[p]? ≠ none) :
    Yields (store p c) m fun _ m' ↦ Within p (p + 1) m m' ∧ m'[p]? = some c := by
  have hp : p < m.length := by
    rw [ne_eq, getElem?_eq_none_iff] at h
    omega
  refine ⟨(), m.set p c, by rw [store, if_pos hp], fun i hi ↦ ?_, ?_⟩
  · exact getElem?_set_ne (by omega)
  · rw [getElem?_set_self hp]

theorem skipWhile_eq (f : Char → Bool) (h : Text m e p s) (hfuel : s.length < fuel) :
    ∃ q, skipWhile f fuel p m = .ok (q, m) ∧ p ≤ q ∧ Text m e q (s.dropWhile f) := by
  induction s generalizing p fuel with
  | nil =>
    obtain ⟨k, rfl⟩ := Nat.exists_eq_add_of_lt hfuel
    refine ⟨p, ?_, le_rfl, h⟩
    rw [skipWhile, bind_of_ok (load_eq h.2), if_neg (fun hc ↦ hc.1 rfl)]
    rfl
  | cons c s ih =>
    obtain ⟨k, rfl⟩ := Nat.exists_eq_add_of_lt hfuel
    rw [skipWhile, bind_of_ok (load_eq h.2.1)]
    rcases hf : f c with - | -
    · refine ⟨p, ?_, le_rfl, ?_⟩
      · rw [if_neg (fun hc ↦ Bool.false_ne_true hc.2)]
        rfl
      · rwa [dropWhile_cons_of_neg (by simp [hf])]
    · obtain ⟨q, hq, hle, htext⟩ := ih h.2.2 (lt_of_succ_lt_succ hfuel)
      refine ⟨q, ?_, by omega, ?_⟩
      · rwa [if_pos ⟨h.1, rfl⟩]
      · rwa [dropWhile_cons_of_pos hf]

theorem copy_eq (h : Text m e p s) (hfuel : s.length < fuel) : copy fuel p m = .ok (s, m) := by
  induction s generalizing p fuel with
  | nil =>
    obtain ⟨k, rfl⟩ := Nat.exists_eq_add_of_lt hfuel
    rw [copy, bind_of_ok (load_eq h.2), if_pos rfl]
    rfl
  | cons c s ih =>
    obtain ⟨k, rfl⟩ := Nat.exists_eq_add_of_lt hfuel
    rw [copy, bind_of_ok (load_eq h.2.1), if_neg h.1,
      bind_of_ok (ih h.2.2 (lt_of_succ_lt_succ hfuel))]
    rfl

theorem startsWith_eq {word : List Char} (hword : '\x00' ∉ word) (h : Text m e p s) :
    startsWith word p m = .ok (word.isPrefixOf s, m) := by
  induction word generalizing p s with
  | nil => rw [startsWith, isPrefixOf_nil_left]; rfl
  | cons w word ih =>
    rw [mem_cons, not_or] at hword
    rw [startsWith]
    cases s with
    | nil =>
      rw [bind_of_ok (load_eq h.2), if_neg hword.1]
      rfl
    | cons c s =>
      rw [bind_of_ok (load_eq h.2.1), isPrefixOf_cons_cons]
      by_cases hc : c = w
      · rw [if_pos hc, ih hword.2 h.2.2, hc, beq_self_eq_true, Bool.true_and]
      · rw [if_neg hc, beq_eq_false_iff_ne.mpr (Ne.symm hc), Bool.false_and]
        rfl

theorem yields_mapInPlace {f : Char → Char} (hf : ∀ c, c ≠ '\x00' → f c ≠ '\x00') (h : Text m e p s)
    (hfuel : s.length < fuel) :
    Yields (mapInPlace f fuel p) m fun _ m' ↦ Within p e m m' ∧ Text m' e p (s.map f) := by
  induction s generalizing p fuel m with
  | nil =>
    obtain ⟨k, rfl⟩ := Nat.exists_eq_add_of_lt hfuel
    refine ⟨(), m, ?_, .refl _ _ _, h⟩
    rw [mapInPlace, bind_of_ok (load_eq h.2), if_pos rfl]
    rfl
  | cons c s ih =>
    obtain ⟨k, rfl⟩ := Nat.exists_eq_add_of_lt hfuel
    have hle := h.2.2.le
    rw [mapInPlace, Yields, bind_of_ok (load_eq h.2.1), if_neg h.1]
    refine (yields_store (f c) (by rw [h.2.1]; exact Option.some_ne_none c)).bind fun _ m₁ h₁ ↦ ?_
    refine (ih (h.2.2.within_left h₁.1 le_rfl) (lt_of_succ_lt_succ hfuel)).mono fun _ m₂ h₂ ↦ ?_
    refine ⟨h₁.1.seq h₂.1 (le_succ p) hle, hf c h.1, ?_, h₂.2⟩
    exact (h₂.1 p (.inl (lt_succ_self p))).trans h₁.2

/-! ### Larger blocks

A computation that succeeds in a block does the same when more memory lies behind the block, and
leaves that memory alone. The second computation is the first one with more fuel. -/

/-- Where `c` succeeds, `c'` does the same in every larger block, with what is behind unchanged. -/
def Extends {α : Type} (c c' : Access α) : Prop :=
  ∀ ⦃m a m'⦄, c m = .ok (a, m') → m'.length = m.length ∧ ∀ rest,
  c' (m ++ rest) = .ok (a, m' ++ rest)

namespace Extends

variable {α β : Type} {fuel' : ℕ}

/-- In the same block. -/
theorem same_block {c c' : Access α} (h : Extends c c') {a : α} (hc : c m = .ok (a, m')) :
    m'.length = m.length ∧ c' m = .ok (a, m') := by
  obtain ⟨hlen, hext⟩ := h hc
  have := hext []
  rw [append_nil, append_nil] at this
  exact ⟨hlen, this⟩

theorem pure (a : α) : Extends (pure a : Access α) (Pure.pure a) := by
  intro m b m' h
  obtain ⟨rfl, rfl⟩ := pure_ok_iff.mp h
  exact ⟨rfl, fun _ ↦ rfl⟩

theorem stop (f : Fault) (c : Access α) : Extends (Exec.stop f) c :=
  fun _ _ _ h ↦ (stop_ok_iff.mp h).elim

theorem bind {c c' : Access α} {k k' : α → Access β} (hc : Extends c c')
    (hk : ∀ a, Extends (k a) (k' a)) : Extends (c >>= k) (c' >>= k') := by
  intro m b m'' h
  obtain ⟨a, m', hcm, hkm⟩ := bind_ok_iff.mp h
  obtain ⟨hlen, hext⟩ := hc hcm
  obtain ⟨hlen', hext'⟩ := hk a hkm
  refine ⟨hlen'.trans hlen, fun rest ↦ ?_⟩
  rw [bind_of_ok (hext rest)]
  exact hext' rest

theorem load (p : ℕ) : Extends (load p) (CString.load p) := by
  intro m c m' h
  rcases hp : m[p]? with _ | d
  · exact absurd ⟨c, m', h⟩ (not_succeeds_load hp)
  · rw [load_eq hp] at h
    obtain ⟨rfl, rfl⟩ := Prod.mk.inj (Except.ok.inj h)
    refine ⟨rfl, fun rest ↦ load_eq ?_⟩
    rw [List.getElem?_append_left (List.getElem?_eq_some_iff.mp hp).1, hp]

theorem store (p : ℕ) (c : Char) : Extends (store p c) (CString.store p c) := by
  intro m u m' h
  unfold CString.store at h
  split_ifs at h with hp
  obtain ⟨rfl, rfl⟩ := Prod.mk.inj (Except.ok.inj h)
  refine ⟨length_set, fun rest ↦ ?_⟩
  have hp' : p < (m ++ rest).length := by
    rw [length_append]
    omega
  rw [CString.store, if_pos hp', set_append_left _ _ hp]

theorem deref (p : Option ℕ) : Extends (deref p) (CString.deref p) := by
  rcases p with _ | p
  · exact stop _ _
  · exact pure p

theorem whenever {b : Prop} [Decidable b] {c c' : Access Unit} (hc : Extends c c') :
    Extends (Exec.whenever b c) (Exec.whenever b c') := by
  unfold Exec.whenever
  split_ifs
  · exact hc
  · exact pure ()

/-- Induction over the fuel of a loop and a larger one. -/
theorem fuel_le_induction {motive : ∀ m n : ℕ, m ≤ n → Prop} (zero : ∀ n h, motive 0 n h)
    (succ : ∀ m n (h : m + 1 ≤ n + 1), motive m n (le_of_succ_le_succ h) → motive (m + 1) (n + 1) h)
    (m n : ℕ) (h : m ≤ n) : motive m n h := by
  induction m generalizing n with
  | zero => exact zero n h
  | succ m ih =>
    obtain ⟨k, rfl⟩ := exists_eq_succ_of_ne_zero (ne_zero_of_lt h)
    exact succ m k h (ih k _)

theorem skipWhile (f : Char → Bool) (hfuel : fuel ≤ fuel') (p : ℕ) :
    Extends (skipWhile f fuel p) (CString.skipWhile f fuel' p) := by
  induction fuel, fuel', hfuel using fuel_le_induction generalizing p with
  | zero => exact stop _ _
  | succ fuel fuel' hfuel ih =>
    refine (load p).bind fun c ↦ ?_
    split_ifs
    · exact ih (p + 1)
    · exact pure p

theorem mapInPlace (f : Char → Char) (hfuel : fuel ≤ fuel') (p : ℕ) :
    Extends (mapInPlace f fuel p) (CString.mapInPlace f fuel' p) := by
  induction fuel, fuel', hfuel using fuel_le_induction generalizing p with
  | zero => exact stop _ _
  | succ fuel fuel' hfuel ih =>
    refine (load p).bind fun c ↦ ?_
    split_ifs
    · exact pure ()
    · exact (store p (f c)).bind fun _ ↦ ih (p + 1)

theorem copy (hfuel : fuel ≤ fuel') (p : ℕ) : Extends (copy fuel p) (CString.copy fuel' p) := by
  induction fuel, fuel', hfuel using fuel_le_induction generalizing p with
  | zero => exact stop _ _
  | succ fuel fuel' hfuel ih =>
    refine (load p).bind fun c ↦ ?_
    split_ifs
    · exact pure []
    · exact (ih (p + 1)).bind fun s ↦ pure (c :: s)

theorem startsWith (word : List Char) (p : ℕ) :
    Extends (startsWith word p) (CString.startsWith word p) := by
  induction word generalizing p with
  | nil => exact pure true
  | cons w word ih =>
    refine (load p).bind fun c ↦ ?_
    split_ifs
    · exact ih (p + 1)
    · exact pure false

end Extends

end CString
