import Jers.Json.Builder
import Jers.Json.Reader

/-!
# How the object scan sees strings

`JSONGetObject` looks for the closing brace without unescaping. A quote flips its notion of being
inside a string unless the character before the quote is a backslash. The writer escapes quotes and
backslashes, so inside an escaped string every quote is indeed preceded by a backslash; but the
*closing* quote of a string that ends in a backslash is preceded by one too, and is missed. From
there on the scan has inside and outside exchanged, until the next string that ends in a backslash.

`scanStrings` is that effect, read off the string values alone: whether inside and outside are
exchanged, and how many braces are open. The results here say that scanning the text of escaped
strings does exactly that.
-/

namespace Jers

open List Option

/-! ### The scan over a piece of text -/

/-- The state of the scan: inside a string or not, braces open, last character a backslash or
not. -/
abbrev ScanState := Bool × ℕ × Bool

/-- One character of the scan; `none` at the brace where it stops. -/
def scanStep (st : ScanState) (c : Char) : Option ScanState :=
  if c = '"' then some (if st.2.2 then st.1 else !st.1, st.2.1, false)
  else if c = '{' ∧ st.1 = false then some (st.1, st.2.1 + 1, false)
  else if c = '}' ∧ st.1 = false then
    if st.2.1 = 0 then none else some (st.1, st.2.1 - 1, false)
  else some (st.1, st.2.1, c == '\\')

theorem scanStep_quote (q : Bool) (d : ℕ) (b : Bool) :
    scanStep (q, d, b) '"' = some (if b then q else !q, d, false) := rfl

theorem scanStep_open (d : ℕ) (b : Bool) :
    scanStep (false, d, b) '{' = some (false, d + 1, false) := rfl

theorem scanStep_close (d : ℕ) (b : Bool) :
    scanStep (false, d + 1, b) '}' = some (false, d, false) := rfl

theorem scanStep_stop (b : Bool) : scanStep (false, 0, b) '}' = none := rfl

/-- The state in which the scan leaves a piece of text, or `none` when it stops within it. -/
def scanText (st : ScanState) (t : Str) : Option ScanState := t.foldlM scanStep st

/-- The scan of `JSONGetObject` started in a given state. -/
def scanFrom (st : ScanState) (s : Str) : Option (Str × Str) :=
  scanObject st.1 st.2.1 (if st.2.2 then '\\' else ' ') s

/-- Only whether the previous character is a backslash matters to the scan. -/
theorem scanObject_eq_scanFrom (q : Bool) (d : ℕ) (p : Char) (s : Str) :
    scanObject q d p s = scanFrom (q, d, p == '\\') s := by
  cases s with
  | nil => rfl
  | cons c s =>
    by_cases hp : p = '\\'
    · simp [scanFrom, hp]
    · have hb : (p == '\\') = false := by simpa using hp
      simp [scanFrom, scanObject, hb, hp]

theorem scanFrom_nil (st : ScanState) : scanFrom st [] = none := rfl

/-- The scan, one character at a time. -/
theorem scanFrom_cons (st : ScanState) (c : Char) (s : Str) : scanFrom st (c :: s) =
      match scanStep st c with
      | none => some ([], s)
      | some st' => (scanFrom st' s).map (Prod.map (c :: ·) id) := by
  obtain ⟨q, d, b⟩ := st
  have hp : (if (if b = true then '\\' else ' ') = '\\' then q else !q) =
      if b = true then q else !q := by
    cases b <;> rfl
  rw [scanFrom, scanObject, hp, scanStep]
  split
  · next hc => subst hc; rw [scanObject_eq_scanFrom]; rfl
  split
  · next hc => rw [hc.1, scanObject_eq_scanFrom]; rfl
  split
  · next hc =>
    split
    · rfl
    · rw [hc.1, scanObject_eq_scanFrom]; rfl
  · rw [scanObject_eq_scanFrom]

variable {st : ScanState} {c : Char} {s t : Str} {d : ℕ} {q : Bool}

theorem scanFrom_of_none (h : scanStep st c = none) (s : Str) :
    scanFrom st (c :: s) = some ([], s) := by
  rw [scanFrom_cons, h]

theorem scanFrom_of_some {st' : ScanState} (h : scanStep st c = some st') (s : Str) :
    scanFrom st (c :: s) = (scanFrom st' s).map (Prod.map (c :: ·) id) := by
  rw [scanFrom_cons, h]

theorem scanText_cons (st : ScanState) (c : Char) (t : Str) :
    scanText st (c :: t) = (scanStep st c).bind fun st' ↦ scanText st' t := by
  rw [scanText, foldlM_cons]
  rfl

theorem scanText_append (st : ScanState) (s t : Str) :
    scanText st (s ++ t) = (scanText st s).bind fun st' ↦ scanText st' t := by
  rw [scanText, foldlM_append]
  rfl

/-- The scan passes over a piece in which it does not stop. -/
theorem scanFrom_append {st' : ScanState} (h : scanText st t = some st') (rest : Str) :
    scanFrom st (t ++ rest) = (scanFrom st' rest).map (Prod.map (t ++ ·) id) := by
  induction t generalizing st with
  | nil =>
    obtain rfl : st = st' := some.inj h
    rw [nil_append]
    cases scanFrom st rest <;> rfl
  | cons c t ih =>
    rw [scanText_cons] at h
    obtain ⟨st₁, h₁, h₂⟩ := bind_eq_some_iff.mp h
    rw [cons_append, scanFrom_of_some h₁, ih h₂]
    cases scanFrom st' rest <;> rfl

/-- The scan stops only at a closing brace outside strings, with no brace open. -/
theorem scanStep_eq_none (h : scanStep st c = none) : c = '}' ∧ st.1 = false ∧ st.2.1 = 0 := by
  unfold scanStep at h
  split at h
  · simp at h
  split at h
  · simp at h
  split at h
  · next hc =>
    split at h
    · next hd => exact ⟨hc.1, hc.2, hd⟩
    · simp at h
  · simp at h

/-- What the scan found, the brace and the rest make up the text. -/
theorem eq_of_scanFrom {o r : Str} (h : scanFrom st s = some (o, r)) : s = o ++ '}' :: r := by
  induction s generalizing st o with
  | nil => exact absurd h (by simp [scanFrom_nil])
  | cons c s ih =>
    cases hs : scanStep st c with
    | none =>
      rw [scanFrom_of_none hs] at h
      obtain ⟨rfl, rfl⟩ := Prod.mk.inj (some.inj h)
      rw [(scanStep_eq_none hs).1, nil_append]
    | some st' =>
      rw [scanFrom_of_some hs] at h
      obtain ⟨o', h', rfl⟩ := map_piece_eq_some h
      rw [ih h', cons_append]

/-- Characters the scan takes no notice of. -/
def isPlain (c : Char) : Bool := c != '"' && c != '{' && c != '}' && c != '\\'

theorem scanStep_plain (h : isPlain c = true) (q : Bool) (d : ℕ) :
    scanStep (q, d, false) c = some (q, d, false) := by
  simp only [isPlain, Bool.and_eq_true, bne_iff_ne, ne_eq] at h
  obtain ⟨⟨⟨h₁, h₂⟩, h₃⟩, h₄⟩ := h
  rw [scanStep, if_neg h₁, if_neg (fun h ↦ h₂ h.1), if_neg (fun h ↦ h₃ h.1), beq_false_of_ne h₄]

theorem scanText_plain (h : ∀ c ∈ t, isPlain c = true) (q : Bool) (d : ℕ) :
    scanText (q, d, false) t = some (q, d, false) := by
  induction t with
  | nil => rfl
  | cons c t ih =>
    rw [scanText_cons, scanStep_plain (h c mem_cons_self), bind_some]
    exact ih fun c hc ↦ h c (mem_cons_of_mem _ hc)

/-! ### Escaped strings -/

/-- The braces of a string, counted from `depth`; `none` when one closes more than is open. -/
def braceDepth : ℕ → Str → Option ℕ
  | d, [] => some d
  | d, c :: s =>
    if c = '{' then braceDepth (d + 1) s
    else if c = '}' then
      if d = 0 then none else braceDepth (d - 1) s
    else braceDepth d s

/-- Whether a string ends in a backslash. -/
def endsInBackslash (s : Str) : Bool := s.getLast? == some '\\'

/-- What one string value does to the scan: a string that is taken for structure has its braces
counted, and a string that ends in a backslash exchanges inside and outside. -/
def stringStep (st : Bool × ℕ) (s : Str) : Option (Bool × ℕ) :=
  if st.1 then (braceDepth st.2 s).map fun d ↦ (!endsInBackslash s, d)
  else some (endsInBackslash s, st.2)

/-- The effect of the string values of an object, in their order. -/
def scanStrings (st : Bool × ℕ) (ss : List Str) : Option (Bool × ℕ) := ss.foldlM stringStep st

/-- The string values of an object leave its closing brace visible to the scan: strings that end in
a backslash come in pairs, and between the two of a pair every brace is matched. -/
def Framed (ss : List Str) : Prop := scanStrings (false, 0) ss = some (false, 0)

instance (ss : List Str) : Decidable (Framed ss) := inferInstanceAs (Decidable (_ = _))

theorem jsonEscapeString_length (s : Str) :
    jsonEscapeString s s.length = s.flatMap jsonEscapeChar := by
  rw [jsonEscapeString, take_length]

/-- Escaping writes a backslash last exactly for a backslash. -/
theorem scanText_escapeChar (q : Bool) (d : ℕ) (b : Bool) (c : Char) :
    scanText (q, d, b) (jsonEscapeChar c) = if c = '{' ∧ q = false then some (q, d + 1, false)
      else if c = '}' ∧ q = false then if d = 0 then none else some (q, d - 1, false)
      else some (q, d, c == '\\') := by
  unfold jsonEscapeChar
  split
  · rfl
  · rfl
  · rfl
  · rfl
  · next h₄ =>
    rw [scanText_cons, scanStep, if_neg h₄]
    split
    · rfl
    split
    · split <;> rfl
    · rfl

/-- Whether the last character of a text is a backslash, given what stands before the text. -/
def trailing (b : Bool) (s : Str) : Bool := if s = [] then b else endsInBackslash s

theorem trailing_cons (b : Bool) (c : Char) (s : Str) :
    trailing b (c :: s) = trailing (c == '\\') s := by
  cases s with
  | nil => simp [trailing, endsInBackslash]
  | cons e s => simp [trailing, endsInBackslash, getLast?_cons_cons]

theorem scanText_escape_quoted (d : ℕ) (b : Bool) (s : Str) :
    scanText (true, d, b) (s.flatMap jsonEscapeChar) = some (true, d, trailing b s) := by
  induction s generalizing b with
  | nil => rfl
  | cons c s ih =>
    rw [flatMap_cons, scanText_append, scanText_escapeChar, if_neg (by simp),
      if_neg (by simp), bind_some, ih, trailing_cons]

theorem scanText_escape_unquoted (d : ℕ) (b : Bool) (s : Str) :
    scanText (false, d, b) (s.flatMap jsonEscapeChar) =
      (braceDepth d s).map fun d' ↦ (false, d', trailing b s) := by
  induction s generalizing d b with
  | nil => rfl
  | cons c s ih =>
    rw [flatMap_cons, scanText_append, scanText_escapeChar, trailing_cons, braceDepth]
    by_cases h₁ : c = '{'
    · rw [if_pos ⟨h₁, rfl⟩, if_pos h₁, bind_some, ih, h₁]
      rfl
    rw [if_neg (fun h ↦ h₁ h.1), if_neg h₁]
    by_cases h₂ : c = '}'
    · rw [if_pos ⟨h₂, rfl⟩, if_pos h₂]
      split
      · rfl
      · rw [bind_some, ih, h₂]
        rfl
    · rw [if_neg (fun h ↦ h₂ h.1), if_neg h₂, bind_some, ih]

/-- A string value with its quotes. -/
def quoted (s : Str) : Str := '"' :: (jsonEscapeString s s.length ++ ['"'])

/-- **Scanning a string value.** The scan does to its state what `stringStep` says. -/
theorem scanText_quoted (q : Bool) (d : ℕ) (s : Str) :
    scanText (q, d, false) (quoted s) = (stringStep (q, d) s).map fun st ↦ (st.1, st.2, false) := by
  have hopen : scanText (q, d, false) (quoted s) =
      (scanText (!q, d, false) (s.flatMap jsonEscapeChar)).bind fun st ↦
        some (if st.2.2 then st.1 else !st.1, st.2.1, false) := by
    rw [quoted, jsonEscapeString_length, scanText_cons, scanStep_quote, bind_some, scanText_append]
    rfl
  have htrail : trailing false s = endsInBackslash s := by
    cases s <;> simp [trailing, endsInBackslash]
  rw [hopen]
  cases q with
  | false =>
    simp only [Bool.not_false, scanText_escape_quoted, htrail, stringStep, bind_some]
    cases endsInBackslash s <;> rfl
  | true =>
    simp only [Bool.not_true, scanText_escape_unquoted, htrail, stringStep]
    cases braceDepth d s with
    | none => rfl
    | some d' => cases endsInBackslash s <;> rfl

/-! ### Moving the depth -/

/-- One level further out the scan does not stop, and it does the same unless it stops here. -/
theorem scanStep_succ (q : Bool) (d : ℕ) (b : Bool) (c : Char) :
    (scanStep (q, d, b) c = none ∧ scanStep (q, d + 1, b) c = some (false, 0, false)) ∨
      ∃ q' d' b', scanStep (q, d, b) c = some (q', d', b') ∧
        scanStep (q, d + 1, b) c = some (q', d' + 1, b') := by
  by_cases hq : c = '"'
  · exact Or.inr ⟨_, _, _, by rw [scanStep, if_pos hq], by rw [scanStep, if_pos hq]⟩
  by_cases ho : c = '{' ∧ q = false
  · exact Or.inr ⟨_, _, _, by rw [scanStep, if_neg hq, if_pos ho],
      by rw [scanStep, if_neg hq, if_pos ho]⟩
  by_cases hc : c = '}' ∧ q = false
  · by_cases hd : d = 0
    · refine Or.inl ⟨by rw [scanStep, if_neg hq, if_neg ho, if_pos hc, if_pos hd], ?_⟩
      rw [scanStep, if_neg hq, if_neg ho, if_pos hc, if_neg (Nat.succ_ne_zero d)]
      simp [hc.2, hd]
    · refine Or.inr ⟨q, d - 1, false, by rw [scanStep, if_neg hq, if_neg ho, if_pos hc,
        if_neg hd], ?_⟩
      rw [scanStep, if_neg hq, if_neg ho, if_pos hc, if_neg (Nat.succ_ne_zero d),
        show d + 1 - 1 = d - 1 + 1 by omega]
  · exact Or.inr ⟨_, _, _, by rw [scanStep, if_neg hq, if_neg ho, if_neg hc],
      by rw [scanStep, if_neg hq, if_neg ho, if_neg hc]⟩

/-- Scanning from one level further out ends one level deeper. -/
theorem scanText_succ {q' b b' : Bool} {d' : ℕ} (h : scanText (q, d, b) t = some (q', d', b')) :
    scanText (q, d + 1, b) t = some (q', d' + 1, b') := by
  induction t generalizing q d b with
  | nil =>
    obtain ⟨rfl, rfl, rfl⟩ : q = q' ∧ d = d' ∧ b = b' := by simpa [scanText] using h
    rfl
  | cons c t ih =>
    rw [scanText_cons] at h ⊢
    rcases scanStep_succ q d b c with ⟨hn, -⟩ | ⟨q₁, d₁, b₁, h₁, h₂⟩
    · rw [hn] at h
      simp at h
    · rw [h₁, bind_some] at h
      rw [h₂, bind_some]
      exact ih h

/-- **Inner scans stop first.** When the scan stops from one level further out, the scan from this
level stops as well, and it does so within the piece found from outside. -/
theorem scanFrom_nested {b : Bool} {o r : Str} (h : scanFrom (q, d + 1, b) s = some (o, r)) :
    ∃ o₁ o₂, o = o₁ ++ '}' :: o₂ ∧ scanFrom (q, d, b) o = some (o₁, o₂) ∧
      scanFrom (q, d, b) s = some (o₁, o₂ ++ '}' :: r) := by
  induction s generalizing q d b o with
  | nil => exact absurd h (by simp [scanFrom_nil])
  | cons c s ih =>
    rcases scanStep_succ q d b c with ⟨hn, hs⟩ | ⟨q', d', b', h₁, h₂⟩
    · -- the inner scan stops right here
      rw [scanFrom_of_some hs] at h
      obtain ⟨o', h', rfl⟩ := map_piece_eq_some h
      refine ⟨[], o', by rw [(scanStep_eq_none hn).1, nil_append], scanFrom_of_none hn o', ?_⟩
      rw [scanFrom_of_none hn, eq_of_scanFrom h']
    · rw [scanFrom_of_some h₂] at h
      obtain ⟨o', h', rfl⟩ := map_piece_eq_some h
      obtain ⟨o₁, o₂, rfl, ho, hsc⟩ := ih h'
      refine ⟨c :: o₁, o₂, rfl, ?_, ?_⟩
      · rw [scanFrom_of_some h₁, ho]
        rfl
      · rw [scanFrom_of_some h₁, hsc]
        rfl

/-! ### Where the scan stops too early -/

theorem braceDepth_eq_none (h : braceDepth d s = none) :
    ∃ s₁ s₂, s = s₁ ++ '}' :: s₂ ∧ braceDepth d s₁ = some 0 := by
  induction s generalizing d with
  | nil => exact absurd h (by simp [braceDepth])
  | cons c s ih =>
    rw [braceDepth] at h
    split at h
    · next hc =>
      obtain ⟨s₁, s₂, rfl, h₁⟩ := ih h
      exact ⟨c :: s₁, s₂, rfl, by rw [braceDepth, if_pos hc, h₁]⟩
    next hc =>
    split at h
    · next hc' =>
      split at h
      · next hd =>
        subst hc' hd
        exact ⟨[], s, rfl, rfl⟩
      · next hd =>
        obtain ⟨s₁, s₂, rfl, h₁⟩ := ih h
        exact ⟨c :: s₁, s₂, rfl, by rw [braceDepth, if_neg hc, if_pos hc', if_neg hd, h₁]⟩
    · next hc' =>
      obtain ⟨s₁, s₂, rfl, h₁⟩ := ih h
      exact ⟨c :: s₁, s₂, rfl, by rw [braceDepth, if_neg hc, if_neg hc', h₁]⟩

/-- When the scan stops within a string value it cuts the value after a whole number of escaped
characters, and before the closing quote. -/
theorem scanFrom_quoted_of_none (h : stringStep (q, d) s = none) :
    ∃ s₁ s₂, s = s₁ ++ '}' :: s₂ ∧ ∀ rest, scanFrom (q, d, false) (quoted s ++ rest) =
      some ('"' :: s₁.flatMap jsonEscapeChar, s₂.flatMap jsonEscapeChar ++ '"' :: rest) := by
  cases q with
  | false => exact absurd h (by simp [stringStep])
  | true =>
    have hnone : braceDepth d s = none := by simpa [stringStep] using h
    obtain ⟨s₁, s₂, rfl, hd⟩ := braceDepth_eq_none hnone
    refine ⟨s₁, s₂, rfl, fun rest ↦ ?_⟩
    have hpre : scanText (true, d, false) ('"' :: s₁.flatMap jsonEscapeChar) =
        some (false, 0, trailing false s₁) := by
      rw [scanText_cons, scanStep_quote, bind_some]
      simp only [Bool.false_eq_true, if_false, Bool.not_true, scanText_escape_unquoted, hd,
        map_some]
    have htext : quoted (s₁ ++ '}' :: s₂) ++ rest = ('"' :: s₁.flatMap jsonEscapeChar) ++
          '}' :: (s₂.flatMap jsonEscapeChar ++ '"' :: rest) := by
      rw [quoted, jsonEscapeString_length]
      simp [jsonEscapeChar]
    rw [htext, scanFrom_append hpre, scanFrom_of_none (scanStep_stop _)]
    simp

end Jers
