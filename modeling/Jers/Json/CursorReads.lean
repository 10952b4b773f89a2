import Jers.Json.Cursor
import Jers.Json.Decode
import Mathlib.Data.List.Forall2

/-!
# The parser on its buffer reads what its text says

For each reader: on a string in memory it returns, without leaving the string, and what it returns
is what the reader of `Jers.Json.Reader` or `Jers.Json.Message` finds in the text. A reader writes
only between the cursor it was given and the one it returns (`Reads`), so the text in front of the
cursor is always the original one, and the strings found earlier stay as they are.
-/

namespace Jers

/-! ### The readers of the text, by the first character -/

variable {s t : Str}

theorem jsonGetObject_of_other (h : ∀ t, skipWhitespace s ≠ '{' :: t) : jsonGetObject s = none := by
  rw [jsonGetObject]
  split
  · next heq => exact absurd heq (h _)
  · rfl

theorem jsonGetString_of_other (h : ∀ t, skipWhitespace s ≠ '"' :: t) :
    jsonGetString s = if "null".toList.isPrefixOf (skipWhitespace s) then some (none, s)
    else none := by
  rw [jsonGetString]
  split
  · next heq => exact absurd heq (h _)
  · rfl

theorem loadItemArray_of_bracket (h : skipWhitespace s = '[' :: t) :
    loadItemArray s = match itemArrayLoop t with
      | none => .error .invalid
      | some (_, []) => .error .overrun
      | some (items, _ :: rest) => .ok (items, rest) := by
  rw [loadItemArray, h]
  rfl

theorem loadItemArray_of_other (h : ∀ t, skipWhitespace s ≠ '[' :: t) :
    loadItemArray s = .error .invalid := by
  rw [loadItemArray]
  split
  · next heq => exact absurd heq (h _)
  · rfl

theorem jsonGetStringArray_of_other (h : ∀ t, skipWhitespace s ≠ '[' :: t) :
    jsonGetStringArray s = none := by
  rw [jsonGetStringArray]
  split
  · next heq => exact absurd heq (h _)
  · rfl

end Jers

namespace Jers.Cursor

open CString Exec List Option Nat

variable {m m' : List Char} {e p q fuel : ℕ} {c : Char} {s : Str}

/-- The outcome of a reader at `p`, compared with what is found in the text: `rel` relates the value
in memory, between the two cursors, to the value that was found. -/
def Reads {α β : Type} (rel : List Char → ℕ → ℕ → α → β → Prop) (e p : ℕ) (m : List Char) :
    Option (β × Str) → Option (α × ℕ) → List Char → Prop
  | none, none, m' => Within p e m m'
  | some (v, rest), some (a, q), m' =>
    p ≤ q ∧ Within p q m m' ∧ Text m' e q rest ∧ rel m' p q a v
  | _, _, _ => False

variable {β α : Type} {m₁ : List Char} {rel : List Char → ℕ → ℕ → α → β → Prop}

/-- Either both readers fail, or both read something. -/
theorem Reads.inv {found : Option (β × Str)} {r : Option (α × ℕ)} (h : Reads rel e p m found r m') :
    (found = none ∧ r = none ∧ Within p e m m') ∨ ∃ v rest a q, found = some (v, rest) ∧
      r = some (a, q) ∧ p ≤ q ∧ Within p q m m' ∧ Text m' e q rest ∧ rel m' p q a v := by
  rcases found with - | ⟨v, rest⟩
  · rcases r with - | ⟨a, q⟩
    · exact .inl ⟨rfl, rfl, h⟩
    · exact h.elim
  · rcases r with - | ⟨a, q⟩
    · exact h.elim
    · exact .inr ⟨v, rest, a, q, rfl, rfl, h⟩

/-- A cursor that is moved on. -/
theorem yields_skip {k : ℕ → Access β} {Q : β → List Char → Prop} (f : Char → Bool)
    (h : Text m e p s) (hfuel : s.length < fuel)
    (hk : ∀ q, p ≤ q → Text m e q (s.dropWhile f) → Yields (k q) m Q) :
    Yields (skipWhile f fuel p >>= k) m Q := by
  obtain ⟨q, hskip, hle, hq⟩ := skipWhile_eq f h hfuel
  exact .step hskip (hk q hle hq)

/-- The cursor has moved on, so there is less text in front of it. -/
theorem length_le_of_text {t : Str} (h : Text m e p s) (hq : Text m' e q t) (hle : p ≤ q) :
    t.length ≤ s.length := by
  have h₁ := h.add_length
  have h₂ := hq.add_length
  omega

/-- A text that lies inside of another one. -/
theorem length_lt_of_text {e' : ℕ} {t : Str} (h : Text m e p s) (hfuel : s.length < fuel)
    (ht : Text m' e' q t) (hle : p ≤ q) (he : e' ≤ e) : t.length < fuel := by
  have h₁ := h.add_length
  have h₂ := ht.add_length
  omega

/-- Going on behind the blanks if there is a certain character. -/
theorem yields_open {x y : ℕ → Access β} {Q : β → List Char → Prop} {c : Char} (hc : c ≠ '\x00')
    (h : Text m e p s) (hfuel : s.length < fuel)
    (hyes : ∀ pos t, p ≤ pos → Jers.skipWhitespace s = c :: t → m[pos]? = some c →
      Text m e (pos + 1) t → t.length < fuel → Yields (y pos) m Q)
    (hno : ∀ pos, Text m e pos (Jers.skipWhitespace s) → (∀ t, Jers.skipWhitespace s ≠ c :: t) →
      Yields (x pos) m Q) :
    Yields (skipWhile isBlank fuel p >>= fun pos ↦ load pos >>= fun d ↦
    if d ≠ c then x pos else y pos) m Q := by
  refine yields_skip isBlank h hfuel fun pos hle hpos ↦ ?_
  change Text m e pos (Jers.skipWhitespace s) at hpos
  rcases hs : Jers.skipWhitespace s with - | ⟨d, t⟩
  · rw [hs] at hpos hno
    refine .step (load_eq hpos.2) ?_
    rw [if_pos hc.symm]
    exact hno pos hpos nofun
  rw [hs] at hpos hno
  refine .step (load_eq hpos.2.1) ?_
  by_cases hd : d = c
  · subst hd
    rw [if_neg (not_not_intro rfl)]
    exact hyes pos t hle hs hpos.2.1 hpos.2.2 (length_lt_of_text h hfuel hpos.2.2 (by omega) le_rfl)
  · rw [if_pos hd]
    exact hno pos hpos fun t heq ↦ hd (List.cons.inj heq).1

/-! ### Objects -/

/-- The outcome of the search for the closing brace, compared with what the scanner finds. -/
def Closes (e p : ℕ) (m : List Char) (s : Str) :
    Option (Str × Str) → Except Fault (ℕ × List Char) → Prop
  | none, x => x = .ok (e, m)
  | some (obj, rest), x => s = obj ++ '}' :: rest ∧ x = .ok (p + obj.length, m)

theorem Closes.cons {r : Option (Str × Str)} {x : Except Fault (ℕ × List Char)} (c : Char)
    (h : Closes e (p + 1) m s r x) : Closes e p m (c :: s) (r.map (Prod.map (c :: ·) id)) x := by
  rcases r with - | ⟨obj, rest⟩
  · exact h
  · obtain ⟨hs, hx⟩ := h
    refine ⟨congrArg (c :: ·) hs, hx.trans ?_⟩
    rw [length_cons, add_right_comm, add_assoc]

/-- The loop over an object stops where the scan of its text does. -/
theorem closes_objectLoop (quoted : Bool) (depth : ℕ) {prev : Char} (h : Text m e p s)
    (hprev : m[p - 1]? = some prev) (hfuel : s.length < fuel) :
    Closes e p m s (scanObject quoted depth prev s) (objectLoop fuel depth quoted p m) := by
  induction s generalizing p fuel quoted depth prev with
  | nil =>
    obtain ⟨k, rfl⟩ := Nat.exists_eq_add_of_lt hfuel
    show objectLoop _ depth quoted p m = .ok (e, m)
    rw [objectLoop, bind_of_ok (load_eq h.2), if_pos rfl, h.1]
    rfl
  | cons c s ih =>
    obtain ⟨k, rfl⟩ := Nat.exists_eq_add_of_lt hfuel
    rw [objectLoop, bind_of_ok (load_eq h.2.1), if_neg h.1, scanObject]
    have hnext (quoted' : Bool) (depth' : ℕ) :=
      (ih quoted' depth' h.2.2 h.2.1 (lt_of_succ_lt_succ hfuel)).cons c
    by_cases hquote : c = '"'
    · rw [if_pos hquote, if_pos hquote, bind_of_ok (load_eq hprev)]
      exact hnext _ _
    rw [if_neg hquote, if_neg hquote]
    by_cases hopen : c = '{' ∧ quoted = false
    · rw [if_pos hopen, if_pos hopen, if_neg (by omega)]
      exact hnext _ (depth + 1)
    rw [if_neg hopen, if_neg hopen]
    by_cases hclose : c = '}' ∧ quoted = false
    · rw [if_pos hclose, if_pos hclose]
      rcases Nat.eq_zero_or_pos depth with hzero | hpos
      · rw [if_pos hzero, if_pos (by omega)]
        exact ⟨congrArg (· :: s) hclose.1, rfl⟩
      · rw [if_neg (by omega), if_neg (by omega), show (depth : ℤ) - 1 = (depth - 1 : ℕ) by omega]
        exact hnext _ (depth - 1)
    · rw [if_neg hclose, if_neg hclose, if_neg (by omega)]
      exact hnext _ depth

/-- The text of an object, which ends right before `b`. -/
def ObjectAt (m : List Char) (a b p : ℕ) (s : Str) : Prop := a ≤ p ∧ ∃ e, Text m e p s ∧ e + 1 = b

theorem ObjectAt.points {a b : ℕ} (h : ObjectAt m a b p s) : Points m a b p s := by
  obtain ⟨hp, e, htext, he⟩ := h
  exact ⟨hp, e, htext, lt_of_succ_le he.le⟩

/-- Where there is no object, nothing is written. -/
theorem yields_jsonGetObject (h : Text m e p s) (hfuel : s.length < fuel) :
    Yields (jsonGetObject fuel p) m fun r m' ↦
      Reads ObjectAt e p m (Jers.jsonGetObject s) r m' ∧ (r = none → m' = m) := by
  rw [jsonGetObject]
  refine yields_open (by decide) h hfuel (fun pos t hle ht hopen hstart hlen ↦ ?_)
    fun pos hpos hother ↦ ?_
  · simp only [Jers.jsonGetObject, ht]
    have hclose := closes_objectLoop false 0 hstart hopen hlen
    generalize scanObject false 0 '{' t = r at hclose
    rcases r with - | ⟨obj, rest⟩
    · -- no closing brace: the loop stops at the terminator
      exact .step hclose (.step (load_eq hstart.nul) (.pure ⟨.refl _ _ _, fun _ ↦ rfl⟩))
    · obtain ⟨rfl, hloop⟩ := hclose
      have hbrace := hstart.of_append
      refine .step hloop (.step (load_eq hbrace.2.1) ?_)
      rw [if_neg (not_not_intro rfl)]
      refine (yields_store '\x00' (hbrace.inside hbrace.le)).bind fun _ m' hstore ↦
        .pure ⟨?_, nofun⟩
      refine ⟨by omega, hstore.1.mono (by omega) le_rfl, hbrace.2.2.within_left hstore.1 le_rfl,
        by omega, _, (hstart.chars.within hstore.1 le_rfl).text hstore.2, rfl⟩
  · rw [jsonGetObject_of_other hother]
    exact .pure ⟨.refl _ _ _, fun _ ↦ rfl⟩

theorem reads_jsonGetObject (h : Text m e p s) (hfuel : s.length < fuel) :
    Yields (jsonGetObject fuel p) m (Reads ObjectAt e p m (Jers.jsonGetObject s)) :=
  (yields_jsonGetObject h hfuel).mono fun _ _ h ↦ h.1

/-! ### Strings and names -/

/-- The outcome of the loop of `JSONGetString`, compared with what the scanner finds. -/
def Unescapes (e dst : ℕ) (m : List Char) : Option (Str × Str) → ℕ × ℕ → List Char → Prop
  | none, (pos, _), m' => Within dst e m m' ∧ ∃ c, m'[pos]? = some c ∧ c ≠ '"'
  | some (v, rest), (pos, dst'), m' =>
    dst' = dst + v.length ∧ dst' ≤ pos ∧ Within dst pos m m' ∧ Chars m' dst v ∧
    Text m' e pos ('"' :: rest)

/-- One more character in front of the unescaped string. -/
theorem Unescapes.cons {dst : ℕ} {u : Char} {r : Option (Str × Str)} {x : ℕ × ℕ}
    (h : Unescapes e (dst + 1) m₁ r x m') (hu : u ≠ '\x00') (hdst : m₁[dst]? = some u)
    (hw : Within dst (dst + 1) m m₁) (he : dst < e) :
    Unescapes e dst m (r.map (Prod.map (u :: ·) id)) x m' := by
  obtain ⟨pos, dst'⟩ := x
  rcases r with - | ⟨v, rest⟩
  · obtain ⟨hw', hc⟩ := h
    exact ⟨hw.seq hw' (le_succ _) he, hc⟩
  · obtain ⟨hdst', hle, hw', hv, htext⟩ := h
    refine ⟨?_, hle, hw.seq hw' (le_succ _) (by omega), ⟨hu, ?_, hv⟩, htext⟩
    · show dst' = dst + (u :: v).length
      rw [hdst', length_cons, add_right_comm, add_assoc]
    · exact (hw' dst (.inl (lt_succ_self _))).trans hdst

theorem jsonUnescape_cases (c : Char) :
    jsonUnescape c = [] ∨ ∃ u, u ≠ '\x00' ∧ jsonUnescape c = [u] := by
  unfold jsonUnescape
  split
  · exact .inr ⟨'"', by decide, rfl⟩
  · exact .inr ⟨'\\', by decide, rfl⟩
  · exact .inr ⟨'\t', by decide, rfl⟩
  · exact .inr ⟨'\n', by decide, rfl⟩
  · exact .inl rfl

/-- The loop over a string writes its text from `dst` on. -/
theorem yields_stringLoop {pos : ℕ} (dst : ℕ) (modifying : Bool) (h : Text m e pos s)
    (hdst : dst ≤ pos) (hmod : modifying = false → dst = pos) (hfuel : s.length < fuel) :
    Yields (stringLoop fuel pos dst modifying) m (Unescapes e dst m (scanString s)) := by
  obtain ⟨fuel, rfl⟩ := exists_eq_succ_of_ne_zero (ne_zero_of_lt hfuel)
  induction s using scanString.induct generalizing pos dst modifying fuel m with
  | case1 =>
    rw [stringLoop]
    refine .step (load_eq h.2) ?_
    rw [if_pos rfl]
    exact .pure ⟨.refl _ _ _, _, h.2, by decide⟩
  | case2 =>
    rw [stringLoop]
    refine .step (load_eq h.2.1) ?_
    rw [if_neg h.1, if_pos rfl]
    refine .step (load_eq h.2.2.2) ?_
    rw [if_pos rfl]
    exact .pure ⟨.refl _ _ _, _, h.2.2.2, by decide⟩
  | case3 c r ih =>
    have hle := h.2.2.2.2.le
    rw [length_cons, length_cons] at hfuel
    obtain ⟨fuel, rfl⟩ := exists_eq_succ_of_ne_zero (ne_of_gt (show 0 < fuel by omega))
    rw [stringLoop, scanString]
    refine .step (load_eq h.2.1) ?_
    rw [if_neg h.1, if_pos rfl]
    refine .step (load_eq h.2.2.2.1) ?_
    rw [if_neg h.2.2.1]
    rcases jsonUnescape_cases c with hnone | ⟨u, hu, hone⟩
    · -- an unknown escape is dropped: `dst` stays where it is
      rw [hnone]
      have hsame : (scanString r).map (Prod.map (([] : Str) ++ ·) id) = scanString r := by
        rcases scanString r with - | ⟨v, rest⟩
        · rfl
        · rfl
      rw [hsame]
      exact ih dst true h.2.2.2.2 (by omega) (by simp) fuel (by omega)
    · rw [hone]
      refine (yields_store u (h.inside (by omega))).bind fun _ m₁ h₁ ↦ ?_
      refine (ih (dst + 1) true (h.2.2.2.2.within_left h₁.1 (by omega)) (by omega) (by simp)
        fuel (by omega)).mono ?_
      exact fun x m₂ h₂ ↦ h₂.cons hu h₁.2 h₁.1 (by omega)
  | case4 r =>
    rw [stringLoop, scanString]
    refine .step (load_eq h.2.1) ?_
    rw [if_neg h.1, if_neg (by decide), if_pos rfl]
    exact .pure ⟨rfl, hdst, .refl _ _ _, trivial, h⟩
  | case5 c r h₁ h₂ h₃ ih =>
    have hle := h.2.2.le
    rw [length_cons] at hfuel
    obtain ⟨fuel, rfl⟩ := exists_eq_succ_of_ne_zero (ne_of_gt (show 0 < fuel by omega))
    have hbackslash : c ≠ '\\' := by
      rintro rfl
      rcases r with - | ⟨d, r⟩
      · exact h₁ rfl rfl
      · exact h₂ d r rfl rfl
    rw [stringLoop, scanString.eq_5 _ _ h₁ h₂ h₃]
    refine .step (load_eq h.2.1) ?_
    rw [if_neg h.1, if_neg hbackslash, if_neg h₃]
    have hwrite : Yields (whenever (modifying = true) (store dst c) : Access Unit) m fun _ m₁ ↦
        Within dst (dst + 1) m m₁ ∧ m₁[dst]? = some c := by
      rcases hm : modifying with - | -
      · exact ⟨(), m, rfl, .refl _ _ _, hmod hm ▸ h.2.1⟩
      · exact yields_store c (h.inside (by omega))
    refine hwrite.bind fun _ m₁ h₁ ↦ ?_
    refine (ih (dst + 1) modifying (h.2.2.within_left h₁.1 (by omega)) (by omega)
      (fun hm ↦ by rw [hmod hm]) fuel (by omega)).mono ?_
    exact fun x m₂ h₂ ↦ h₂.cons h.1 h₁.2 h₁.1 (by omega)

/-- A string pointer and the string it stands for; the null pointer stands for a null string. -/
def PointsOption (m : List Char) (a b : ℕ) : Option ℕ → Option Str → Prop :=
  Option.Rel (Points m a b)

/-- A failed reader of strings leaves the character at its cursor, and without a quote it writes
nothing. -/
theorem yields_jsonGetString (h : Text m e p s) (hfuel : s.length < fuel) :
    Yields (jsonGetString fuel p) m fun r m' ↦
      Reads PointsOption e p m (Jers.jsonGetString s) r m' ∧ (r = none → m'[p]? = m[p]?) ∧
        (r = none → (∀ t, Jers.skipWhitespace s ≠ '"' :: t) → m' = m) := by
  rw [jsonGetString]
  refine yields_open (by decide) h hfuel (fun pos t hle ht _ hstart hlen ↦ ?_)
    fun pos hpos hother ↦ ?_
  · simp only [Jers.jsonGetString, ht]
    refine (yields_stringLoop (pos + 1) false hstart le_rfl (fun _ ↦ rfl) hlen).bind
      fun x m₁ h₁ ↦ ?_
    obtain ⟨pos', dst⟩ := x
    generalize scanString t = r at h₁
    rcases r with - | ⟨v, rest⟩
    · obtain ⟨hw, c, hc, hne⟩ := h₁
      refine .step (load_eq hc) ?_
      rw [if_pos hne]
      exact .pure ⟨hw.mono (by omega) le_rfl, fun _ ↦ hw p (.inl (by omega)), fun _ hno ↦
        absurd rfl (hno t)⟩
    · obtain ⟨rfl, hdst, hw, hv, htext⟩ := h₁
      refine .step (load_eq htext.2.1) ?_
      rw [if_neg (not_not_intro rfl)]
      refine (yields_store '\x00' (htext.inside (hdst.trans htext.le))).bind fun _ m₂ h₂ ↦
        .pure ⟨?_, by simp, by simp⟩
      refine ⟨by omega, (hw.mono (by omega) (by omega)).trans (h₂.1.mono (by omega) (by omega)),
        htext.2.2.within_left h₂.1 (by omega),
        .some ⟨by omega, _, (hv.within h₂.1 le_rfl).text h₂.2, by omega⟩⟩
  · -- without a quote at the cursor, the text is `null` or refused
    rw [jsonGetString_of_other hother]
    refine .step (startsWith_eq (by decide) hpos) (.pure ⟨?_, fun _ ↦ rfl, fun _ _ ↦ rfl⟩)
    show Reads PointsOption e p m (if "null".toList.isPrefixOf (Jers.skipWhitespace s) then some
      (none, s) else none) (if "null".toList.isPrefixOf (Jers.skipWhitespace s) then some (none, p)
      else none) m
    rcases "null".toList.isPrefixOf (Jers.skipWhitespace s) with - | -
    · exact .refl _ _ _
    · exact ⟨le_rfl, .refl _ _ _, h, .none⟩

/-- A string is read as its text is. -/
theorem reads_jsonGetString (h : Text m e p s) (hfuel : s.length < fuel) :
    Yields (jsonGetString fuel p) m (Reads PointsOption e p m (Jers.jsonGetString s)) :=
  (yields_jsonGetString h hfuel).mono fun _ _ h ↦ h.1

/-- **The escapes of the messages are undone in place**: the string comes back, the cursor stands
after its closing quote, and nothing from there on is written. -/
theorem jsonGetString_escaped {s rest : Str}
    (h : Text m e p ('"' :: (jsonEscapeString s s.length ++ '"' :: rest)))
    (hfuel : (jsonEscapeString s s.length).length + rest.length + 2 < fuel) :
    (jsonEscapeString s s.length).length ≤ 2 * s.length ∧
      ∃ a end' m',
        jsonGetString fuel p m = .ok (some (some a, p + (jsonEscapeString s s.length).length + 2),
        m') ∧ Text m' end' a s ∧ ∀ i, p + (jsonEscapeString s s.length).length + 2 ≤ i →
        m'[i]? = m[i]? := by
  refine ⟨length_jsonEscapeString_le s _, ?_⟩
  have hread :
      Jers.jsonGetString ('"' :: (jsonEscapeString s s.length ++ '"' :: rest)) = some (some s,
      rest) := by
    simpa [quoted] using jsonGetString_quoted s rest
  obtain ⟨r, m', hrun, hr⟩ :=
    reads_jsonGetString h (by simp only [length_cons, length_append]; omega)
  rw [hread] at hr
  obtain ⟨hfail, -⟩ | ⟨_, _, x, q, hfound, rfl, -, hw, htext, hpoints⟩ := hr.inv
  · cases hfail
  obtain ⟨rfl, rfl⟩ := Prod.mk.inj (some.inj hfound)
  obtain ⟨a, rfl, -, end', ha, -⟩ : ∃ a, x = some a ∧ Points m' p q a s := by
    cases hpoints with
    | some ha => exact ⟨_, rfl, ha⟩
  have hq : q = p + (jsonEscapeString s s.length).length + 2 := by
    have h₁ := h.add_length
    have h₂ := htext.add_length
    simp only [length_cons, length_append] at h₁
    omega
  subst hq
  exact ⟨a, end', m', hrun, ha, fun i hi ↦ hw i (.inr hi)⟩

/-- A string with an escaped newline. -/
theorem jsonGetString_escaped_newline : ∃ a end' m',
    jsonGetString 7 0 ['"', 'a', '\\', 'n', '"', '}', '\x00'] = .ok (some (some a, 5), m') ∧
      Text m' end' a ['a', '\n'] ∧ m'[5]? = some '}' := by
  have htext : Text ['"', 'a', '\\', 'n', '"', '}', '\x00'] 6 0
      ('"' :: (jsonEscapeString ['a', '\n'] 2 ++ '"' :: ['}'])) := by
    simp [Text, jsonEscapeString, jsonEscapeChar]
  obtain ⟨-, a, end', m', hrun, ha, hrest⟩ :=
    jsonGetString_escaped (s := ['a', '\n']) htext (by decide : _ < 7)
  exact ⟨a, end', m', hrun, ha, hrest 5 (by decide)⟩

theorem reads_jsonGetName (h : Text m e p s) (hfuel : s.length < fuel) :
    Yields (jsonGetName fuel p) m (Reads Points e p m (Jers.jsonGetName s)) := by
  rw [jsonGetName, Jers.jsonGetName]
  refine yields_skip _ h hfuel fun pos hle hpos ↦ ?_
  have hlen := length_le_of_text h hpos hle
  rw [Jers.skipChars]
  generalize s.dropWhile _ = t at hpos hlen
  refine (reads_jsonGetString hpos (by omega)).bind fun r m₁ h₁ ↦ ?_
  obtain ⟨hfound, rfl, hw⟩ | ⟨v, rest, a, q, hfound, rfl, hq, hw, htext, hv⟩ := h₁.inv
  · rw [hfound]
    exact .pure (hw.mono hle le_rfl)
  · rw [hfound]
    have hlen' := length_le_of_text hpos htext hq
    refine yields_skip _ htext (by omega) fun q' hq' htext' ↦ .pure ?_
    rcases hv with ⟨hname⟩ | -
    · exact ⟨by omega, hw.mono hle hq', htext', hname.mono hle hq'⟩
    · exact hw.mono hle htext.le

/-! ### Numbers and booleans -/

/-- Values that are not in memory. -/
def Same {α : Type} (_ : List Char) (_ _ : ℕ) (x y : α) : Prop := x = y

theorem digitLoop_eq (result : ℤ) (h : Text m e p s) (hfuel : s.length < fuel) :
    ∃ q, digitLoop fuel result p m = .ok (((readDigits result s).1, q), m) ∧ p ≤ q ∧
      Text m e q (readDigits result s).2 := by
  induction s generalizing p fuel result with
  | nil =>
    obtain ⟨k, rfl⟩ := Nat.exists_eq_add_of_lt hfuel
    refine ⟨p, ?_, le_rfl, h⟩
    rw [digitLoop, bind_of_ok (load_eq h.2), if_pos (.inl rfl)]
    rfl
  | cons c s ih =>
    obtain ⟨k, rfl⟩ := Nat.exists_eq_add_of_lt hfuel
    rw [digitLoop, bind_of_ok (load_eq h.2.1), readDigits]
    by_cases hc : c < '0' ∨ '9' < c
    · rw [if_pos (.inr hc), if_pos hc]
      exact ⟨p, rfl, le_rfl, h⟩
    · rw [if_neg (not_or.mpr ⟨h.1, hc⟩), if_neg hc]
      obtain ⟨q, hloop, hle, hq⟩ := ih _ h.2.2 (lt_of_succ_lt_succ hfuel)
      exact ⟨q, hloop, by omega, hq⟩

theorem strtoint64_eq (h : Text m e p s) (hfuel : s.length < fuel) :
    ∃ q, strtoint64 fuel p m = .ok (((Jers.strtoint64 s).1, q), m) ∧ p ≤ q ∧
    Text m e q (Jers.strtoint64 s).2 := by
  rw [strtoint64]
  by_cases hminus : ∃ t, s = '-' :: t
  · obtain ⟨t, rfl⟩ := hminus
    obtain ⟨q, hloop, hle, hq⟩ := digitLoop_eq 0 h.2.2 (lt_of_succ_lt hfuel)
    refine ⟨q, ?_, by omega, hq⟩
    rw [bind_of_ok (load_eq h.2.1), if_pos rfl, bind_of_ok hloop]
    rfl
  · have hdigits : Jers.strtoint64 s = readDigits 0 s :=
      Jers.strtoint64.eq_2 s fun t ht ↦ hminus ⟨t, ht⟩
    have hload : load p m = .ok (s.headD '\x00', m) := by
      rcases s with - | ⟨c, t⟩
      · exact load_eq h.2
      · exact load_eq h.2.1
    have hhead : s.headD '\x00' ≠ '-' := by
      rcases s with - | ⟨c, t⟩
      · exact (by decide : '\x00' ≠ '-')
      · rintro rfl
        exact hminus ⟨t, rfl⟩
    rw [bind_of_ok hload, if_neg hhead, hdigits]
    exact digitLoop_eq 0 h hfuel

theorem reads_jsonGetNum (h : Text m e p s) (hfuel : s.length < fuel) :
    Yields (jsonGetNum fuel p) m (Reads Same e p m (Jers.jsonGetNum s)) := by
  rw [jsonGetNum, Jers.jsonGetNum, Jers.skipWhitespace]
  refine yields_skip isBlank h hfuel fun pos hle hpos ↦ ?_
  have hlen := length_le_of_text h hpos hle
  obtain ⟨q, hnum, hle', hq⟩ := strtoint64_eq hpos (lt_of_le_of_lt hlen hfuel)
  refine .step hnum ?_
  dsimp only
  generalize Jers.strtoint64 (s.dropWhile isBlank) = r at hq
  obtain ⟨n, rest⟩ := r
  rcases rest with - | ⟨c, rest⟩
  · refine .step (load_eq hq.2) ?_
    rw [if_pos (.inl rfl)]
    exact .pure ⟨by omega, .refl _ _ _, hq, rfl⟩
  refine .step (load_eq hq.2.1) ?_
  by_cases hc : c = ',' ∨ c = ']' ∨ c = '}'
  · rw [if_pos (.inr hc)]
    show Yields _ m (Reads Same e p m (if c = ',' ∨ c = ']' ∨ c = '}' then some (n, c :: rest)
      else none))
    rw [if_pos hc]
    exact .pure ⟨by omega, .refl _ _ _, hq, rfl⟩
  · rw [if_neg (not_or.mpr ⟨hq.1, hc⟩)]
    show Yields _ m (Reads Same e p m (if c = ',' ∨ c = ']' ∨ c = '}' then some (n, c :: rest)
      else none))
    rw [if_neg hc]
    exact .pure (.refl _ _ _)

/-- A word at the cursor. -/
theorem text_drop_of_isPrefixOf {word : Str} (h : Text m e p s) (hword : word.isPrefixOf s = true) :
    Text m e (p + word.length) (s.drop word.length) := by
  obtain ⟨t, rfl⟩ := isPrefixOf_iff_prefix.mp hword
  rw [drop_left]
  exact h.of_append

theorem reads_jsonGetBool (h : Text m e p s) (hfuel : s.length < fuel) :
    Yields (jsonGetBool fuel p) m (Reads Same e p m (Jers.jsonGetBool s)) := by
  rw [jsonGetBool, Jers.jsonGetBool]
  refine yields_skip isBlank h hfuel fun pos hle hpos ↦ ?_
  refine .step (startsWith_eq (by decide) hpos) ?_
  show Yields _ m (Reads Same e p m (if "true".toList.isPrefixOf (s.dropWhile isBlank) then
    some (true, (s.dropWhile isBlank).drop 4) else _))
  by_cases htrue : "true".toList.isPrefixOf (s.dropWhile isBlank)
  · rw [if_pos htrue, if_pos htrue]
    exact .pure ⟨by omega, .refl _ _ _, text_drop_of_isPrefixOf hpos htrue, rfl⟩
  rw [if_neg htrue, if_neg htrue]
  refine .step (startsWith_eq (by decide) hpos) (.pure ?_)
  show Reads Same e p m (if "false".toList.isPrefixOf (s.dropWhile isBlank) then
    some (false, (s.dropWhile isBlank).drop 5) else none) _ m
  by_cases hfalse : "false".toList.isPrefixOf (s.dropWhile isBlank)
  · rw [if_pos hfalse, if_pos hfalse]
    exact ⟨by omega, .refl _ _ _, text_drop_of_isPrefixOf hpos hfalse, rfl⟩
  · rw [if_neg hfalse, if_neg hfalse]
    exact .refl _ _ _

/-! ### Values that stay in memory -/

/-- A relation between values in memory and values of the text that writes behind its range, or a
larger range, do not affect. -/
def Stable {α β : Type} (rel : List Char → ℕ → ℕ → α → β → Prop) : Prop :=
  ∀ ⦃m m' a b a' b' x v⦄, rel m a b x v → Within b b' m m' → a' ≤ a → b ≤ b' → rel m' a' b' x v

theorem stable_points : Stable Points :=
  fun _ _ _ _ _ _ _ _ h hw ha hb ↦ (h.within hw).mono ha hb

theorem stable_pointsOption : Stable PointsOption := by
  intro m m' a b a' b' x v h hw ha hb
  rcases h with ⟨h⟩ | -
  · exact .some (stable_points h hw ha hb)
  · exact .none

/-- Lists of values. -/
def Each {α β : Type} (rel : List Char → ℕ → ℕ → α → β → Prop) (m : List Char) (a b : ℕ) :
    List α → List β → Prop :=
  List.Forall₂ (rel m a b)

theorem Stable.each (h : Stable rel) : Stable (Each rel) :=
  fun _ _ _ _ _ _ _ _ hl hw ha hb ↦ hl.imp fun _ _ hx ↦ h hx hw ha hb

/-! ### Arrays -/

theorem skipToSeparator_cases (s : Str) :
    Jers.skipToSeparator s = [] ∨ (∃ t, Jers.skipToSeparator s = ',' :: t) ∨ ∃ t,
    Jers.skipToSeparator s = ']' :: t := by
  rcases hs : Jers.skipToSeparator s with - | ⟨c, t⟩
  · exact .inl rfl
  have hc := head?_dropWhile_not (fun c ↦ c != ',' && c != ']') s
  rw [Jers.skipToSeparator] at hs
  rw [hs] at hc
  simp only [head?_cons, Bool.and_eq_false_iff, bne_eq_false_iff_eq] at hc
  rcases hc with rfl | rfl
  · exact .inr (.inl ⟨t, rfl⟩)
  · exact .inr (.inr ⟨t, rfl⟩)

/-- The outcome of the loop of `JSONGetStringArray`, compared with what is found in the text. -/
def ArrayEnds (e p : ℕ) (m : List Char) :
    Option (List (Option Str) × Str) → List (Option ℕ) × ℕ → List Char → Prop
  | none, (_, q), m' => Within p e m m' ∧ ∃ c, m'[q]? = some c ∧ c ≠ ']'
  | some (vs, rest), (as, q), m' =>
    p ≤ q ∧ Within p q m m' ∧ Text m' e q (']' :: rest) ∧ Each PointsOption m' p q as vs

/-- One more string in front of the array. -/
theorem ArrayEnds.cons {a : Option ℕ} {v : Option Str} {as : List (Option ℕ)} {q' : ℕ}
    {r : Option (List (Option Str) × Str)} (h : ArrayEnds e q m₁ r (as, q') m') (hpq : p ≤ q)
    (hqe : q ≤ e) (hw : Within p q m m₁) (hv : PointsOption m₁ p q a v) :
    ArrayEnds e p m (r.map (Prod.map (v :: ·) id)) (a :: as, q') m' := by
  rcases r with - | ⟨vs, rest⟩
  · exact ⟨hw.seq h.1 hpq hqe, h.2⟩
  · obtain ⟨hle, hw', htext, hvs⟩ := h
    exact ⟨hpq.trans hle, hw.seq hw' hpq hle, htext,
      .cons (stable_pointsOption hv hw' le_rfl hle)
      (stable_pointsOption.each hvs (.refl _ _ _) hpq le_rfl)⟩

theorem yields_stringArrayLoop (h : Text m e p s) (hfuel : s.length < fuel) :
    Yields (stringArrayLoop fuel p) m (ArrayEnds e p m (Jers.stringArrayLoop s)) := by
  induction fuel generalizing p s m with
  | zero => exact absurd hfuel (not_lt_zero _)
  | succ fuel ih =>
    rw [stringArrayLoop]
    refine (yields_jsonGetString h hfuel).bind fun r m₁ h₁ ↦ ?_
    obtain ⟨hreads, hkeep, hquote⟩ := h₁
    obtain ⟨hstr, rfl, hw⟩ | ⟨v, rest, a, q, hstr, rfl, hpq, hw, htext, hv⟩ := hreads.inv
    · -- no string: the loop stops at its cursor, which must be at the bracket
      rw [Jers.stringArrayLoop_of_none hstr]
      refine .pure ?_
      rcases s with - | ⟨c, t⟩
      · exact ⟨hw, _, (hkeep rfl).trans h.2, by decide⟩
      by_cases hc : c = ']'
      · subst hc
        rw [hquote rfl fun t heq ↦ absurd (List.cons.inj heq).1 (by decide)]
        exact ⟨le_rfl, .refl _ _ _, h, .nil⟩
      · have harray : arrayEnd (c :: t) = none := by
          rw [arrayEnd]
          exact fun r heq ↦ hc (List.cons.inj heq).1
        rw [harray]
        exact ⟨hw, c, (hkeep rfl).trans h.2.1, hc⟩
    · have hlen := length_le_of_text h htext hpq
      have hpos : 0 < s.length := by
        rcases s with - | ⟨c, t⟩
        · exact nomatch hstr
        · exact succ_pos _
      refine yields_skip _ htext (by omega) fun q' hq' hsep ↦ ?_
      have hv' := stable_pointsOption hv (.refl _ _ _) le_rfl hq'
      have hw' := hw.mono le_rfl hq'
      change Text m₁ e q' (Jers.skipToSeparator rest) at hsep
      rcases skipToSeparator_cases rest with hend | ⟨t, ht⟩ | ⟨t, ht⟩
      · -- the text ends: the next round finds nothing to read
        rw [Jers.stringArrayLoop_of_some hstr, hend]
        rw [hend] at hsep
        refine .step (load_eq hsep.2) ?_
        rw [if_neg (by decide), if_neg (by decide)]
        refine (ih hsep (by rw [length_nil]; omega)).bind fun x m₂ h₂ ↦ .pure ?_
        rw [Jers.stringArrayLoop_of_none rfl] at h₂
        exact ArrayEnds.cons h₂ (hpq.trans hq') hsep.le hw' hv'
      · rw [Jers.stringArrayLoop_of_comma hstr ht]
        rw [ht] at hsep
        have hlen' := length_le_of_text htext hsep hq'
        rw [length_cons] at hlen'
        refine .step (load_eq hsep.2.1) ?_
        rw [if_neg (by decide), if_pos rfl]
        refine (ih hsep.2.2 (by omega)).bind fun x m₂ h₂ ↦ .pure ?_
        exact ArrayEnds.cons h₂ (by omega) hsep.2.2.le (hw'.mono le_rfl (le_succ _))
          (stable_pointsOption hv' (.refl _ _ _) le_rfl (le_succ _))
      · rw [Jers.stringArrayLoop_of_close hstr ht]
        rw [ht] at hsep
        refine .step (load_eq hsep.2.1) ?_
        rw [if_pos rfl]
        exact .pure ⟨hpq.trans hq', hw', hsep, .cons hv' .nil⟩

theorem reads_jsonGetStringArray (h : Text m e p s) (hfuel : s.length < fuel) :
    Yields (jsonGetStringArray fuel p)
    m (Reads (Each PointsOption) e p m (Jers.jsonGetStringArray s)) := by
  rw [jsonGetStringArray]
  refine yields_open (by decide) h hfuel (fun pos t hle ht _ hstart hlen ↦ ?_)
    fun pos hpos hother ↦ ?_
  · simp only [Jers.jsonGetStringArray, ht]
    refine (yields_stringArrayLoop hstart hlen).bind fun x m₁ h₁ ↦ ?_
    obtain ⟨as, q⟩ := x
    generalize Jers.stringArrayLoop t = r at h₁
    rcases r with - | ⟨vs, rest⟩
    · obtain ⟨hw, c, hc, hne⟩ := h₁
      refine .step (load_eq hc) ?_
      rw [if_pos hne]
      exact .pure (hw.mono (by omega) le_rfl)
    · obtain ⟨hq, hw, htext, hvs⟩ := h₁
      refine .step (load_eq htext.2.1) ?_
      rw [if_neg (not_not_intro rfl)]
      exact .pure ⟨by omega, hw.mono (by omega) (le_succ _), htext.2.2,
        stable_pointsOption.each hvs (.refl _ _ _) (by omega) (le_succ _)⟩
  · rw [jsonGetStringArray_of_other hother]
    exact .pure (.refl _ _ _)

/-! ### Names in uppercase -/

theorem toUpper_ne_nul (c : Char) (h : c ≠ '\x00') : c.toUpper ≠ '\x00' := by
  unfold Char.toUpper
  split
  · next hc =>
    intro heq
    have hval := congrArg (fun d : Char ↦ d.val.toNat) heq
    have hdiff : ('A'.val - 'a'.val).toNat = 4294967264 := by decide
    have hnul : '\x00'.val.toNat = 0 := by decide
    have hlow : 97 ≤ c.val.toNat := hc.1
    have hhigh : c.val.toNat ≤ 122 := hc.2
    dsimp only at hval
    rw [UInt32.toNat_add, hdiff, hnul] at hval
    omega
  · exact h

/-- The outcome of `nextName`, compared with what is found in the text. -/
def Names (e p : ℕ) (m : List Char) : Option (Str × Str) → Option (Str × ℕ × ℕ) → List Char → Prop
  | none, none, m' => Within p e m m'
  | some (name, rest), some (text, ptr, q), m' =>
    p ≤ q ∧ Within p q m m' ∧ Text m' e q rest ∧ text = Jers.uppercasestring name ∧
    Points m' p q ptr text
  | _, _, _ => False

theorem names_nextName (h : Text m e p s) (hfuel : s.length < fuel) :
    Yields (nextName fuel p) m (Names e p m (Jers.jsonGetName s)) := by
  rw [nextName]
  refine (reads_jsonGetName h hfuel).bind fun r m₁ h₁ ↦ ?_
  obtain ⟨hfound, rfl, hw⟩ |
    ⟨name, rest, ptr, q, hfound, rfl, hpq, hw, htext, hptr, e', hname, he'⟩ := h₁.inv
  · rw [hfound]
    exact .pure hw
  rw [hfound]
  have hlen : name.length < fuel := length_lt_of_text h hfuel hname hptr (he'.le.trans htext.le)
  refine (yields_mapInPlace toUpper_ne_nul hname hlen).bind fun _ m₂ h₂ ↦ ?_
  refine .step (copy_eq h₂.2 (by rwa [length_map])) (.pure ?_)
  exact ⟨hpq, hw.trans (h₂.1.mono hptr he'.le), htext.within_left h₂.1 he'.le, rfl, hptr, e',
    h₂.2, he'⟩

/-! ### Maps and items -/

/-- The outcome of a reader that goes through the whole text of an object. -/
def Loads {α β : Type} (rel : List Char → ℕ → ℕ → α → β → Prop) (e p : ℕ) (m : List Char) :
    Option β → Option α → List Char → Prop
  | none, none, m' => Within p e m m'
  | some v, some a, m' => Within p e m m' ∧ rel m' p (e + 1) a v
  | _, _, _ => False

theorem Loads.inv {found : Option β} {r : Option α} (h : Loads rel e p m found r m') :
    (found = none ∧ r = none ∧ Within p e m m') ∨
      ∃ v a, found = some v ∧ r = some a ∧ Within p e m m' ∧ rel m' p (e + 1) a v := by
  rcases found with - | v
  · rcases r with - | a
    · exact .inl ⟨rfl, rfl, h⟩
    · exact h.elim
  · rcases r with - | a
    · exact h.elim
    · exact .inr ⟨v, a, rfl, rfl, h⟩

/-- An entry of a map. -/
def EntryPoints (m : List Char) (a b : ℕ) (x : ℕ × Option ℕ) (v : Str × Option Str) : Prop :=
  Points m a b x.1 v.1 ∧ PointsOption m a b x.2 v.2

theorem stable_entryPoints : Stable EntryPoints :=
  fun _ _ _ _ _ _ _ _ h hw ha hb ↦ ⟨stable_points h.1 hw ha hb, stable_pointsOption h.2 hw ha hb⟩

/-- One more element in front of a list that is read up to the end of the object. -/
theorem Loads.cons (hrel : Stable rel) {x : α} {v : β} {r : Option (List β)} {xs : Option (List α)}
    (h : Loads (Each rel) e q m₁ r xs m') (hpq : p ≤ q) (hqe : q ≤ e) (hw : Within p q m m₁)
    (hx : rel m₁ p q x v) : Loads (Each rel) e p m (r.map (v :: ·)) (xs.map (x :: ·)) m' := by
  obtain ⟨rfl, rfl, hw'⟩ | ⟨vs, as, rfl, rfl, hw', hvs⟩ := h.inv
  · exact hw.seq hw' hpq hqe
  · exact ⟨hw.seq hw' hpq hqe,
      .cons (hrel hx (hw'.mono le_rfl (le_succ e)) le_rfl (hqe.trans (le_succ e)))
        (hrel.each hvs (.refl _ _ _) hpq le_rfl)⟩

theorem mapLoop_of_none (h : Jers.jsonGetName s = none) : Jers.mapLoop s = some [] := by
  rw [Jers.mapLoop]
  split
  · rfl
  · next h' => rw [h] at h'; contradiction

theorem mapLoop_of_some {name rest : Str} (h : Jers.jsonGetName s = some (name, rest)) :
    Jers.mapLoop s = (Jers.jsonGetString rest).bind fun v ↦
    (Jers.mapLoop v.2).map ((name, v.1) :: ·) := by
  rw [Jers.mapLoop]
  split
  · next h' => rw [h] at h'; contradiction
  · next h' =>
    obtain ⟨rfl, rfl⟩ := Prod.mk.inj (mem_unique h h')
    split
    · next hs => rw [hs]; rfl
    · next hs => rw [hs]; rfl

theorem loads_mapLoop (h : Text m e p s) (hfuel : s.length < fuel) :
    Yields (mapLoop fuel p) m (Loads (Each EntryPoints) e p m (Jers.mapLoop s)) := by
  induction fuel generalizing p s m with
  | zero => exact absurd hfuel (not_lt_zero _)
  | succ fuel ih =>
    rw [mapLoop]
    refine (reads_jsonGetName h hfuel).bind fun r m₁ h₁ ↦ ?_
    obtain ⟨hname, rfl, hw⟩ | ⟨name, rest, ptr, q, hname, rfl, hpq, hw, htext, hptr⟩ := h₁.inv
    · rw [mapLoop_of_none hname]
      exact .pure ⟨hw, .nil⟩
    rw [mapLoop_of_some hname]
    have hlen := Jers.length_jsonGetName hname
    refine (reads_jsonGetString htext (by omega)).bind fun r m₂ h₂ ↦ ?_
    obtain ⟨hvalue, rfl, hw'⟩ | ⟨v, rest', a, q', hvalue, rfl, hqq, hw', htext', hv⟩ := h₂.inv
    · rw [hvalue]
      exact .pure (hw.seq hw' hpq htext.le)
    rw [hvalue]
    have hlen' := length_le_of_text htext htext' hqq
    refine (ih htext' (by omega)).bind fun xs m₃ h₃ ↦ .pure ?_
    exact Loads.cons stable_entryPoints h₃ (hpq.trans hqq) htext'.le
      (hw.seq hw' hpq hqq)
      ⟨stable_points hptr hw' le_rfl hqq, stable_pointsOption hv (.refl _ _ _) hpq le_rfl⟩

/-- A map is read as its text is, pair by pair. -/
theorem reads_jsonGetMap (h : Text m e p s) (hfuel : s.length < fuel) :
    Yields (jsonGetMap fuel p) m (Reads (Each EntryPoints) e p m (Jers.jsonGetMap s)) := by
  rw [jsonGetMap, Jers.jsonGetMap]
  refine (reads_jsonGetObject h hfuel).bind fun r m₁ h₁ ↦ ?_
  obtain ⟨hfound, rfl, hw⟩ | ⟨obj, rest, start, q, hfound, rfl, hpq, hw, htext, hobject⟩ := h₁.inv
  · rw [hfound]
    exact .pure hw
  rw [hfound]
  obtain ⟨hstart, e', hobj, he'⟩ := hobject.points
  have hlen : obj.length < fuel := length_lt_of_text h hfuel hobj hstart (he'.le.trans htext.le)
  refine (loads_mapLoop hobj hlen).bind fun xs m₂ h₂ ↦ .pure ?_
  show Reads _ e p m ((Jers.mapLoop obj).map fun v ↦ (v, rest)) _ m₂
  obtain ⟨hentries, rfl, hw'⟩ | ⟨vs, as, hentries, rfl, hw', hvs⟩ := h₂.inv
  · rw [hentries]
    exact (hw.mono le_rfl htext.le).trans (hw'.mono hstart (he'.le.trans htext.le))
  · rw [hentries]
    exact ⟨hpq, hw.trans (hw'.mono hstart he'.le), htext.within_left hw' he'.le,
      stable_entryPoints.each hvs (.refl _ _ _) hstart he'⟩

/-- The value of a field in memory and in the text. -/
inductive ValuePoints (m : List Char) (a b : ℕ) : FieldValue → Jers.FieldValue → Prop
  | bool (v : Bool) : ValuePoints m a b (.bool v) (.bool v)
  | num (v : ℤ) : ValuePoints m a b (.num v) (.num v)
  | string {x : Option ℕ} {v : Option Str} (h : PointsOption m a b x v) :
      ValuePoints m a b (.string x) (.string v)
  | stringarray {x : List (Option ℕ)} {v : List (Option Str)} (h : Each PointsOption m a b x v) :
      ValuePoints m a b (.stringarray x) (.stringarray v)
  | map {x : List (ℕ × Option ℕ)} {v : List (Str × Option Str)} (h : Each EntryPoints m a b x v) :
      ValuePoints m a b (.map x) (.map v)

theorem stable_valuePoints : Stable ValuePoints := by
  intro m m' a b a' b' x v h hw ha hb
  rcases h with v | v | h | h | h
  · exact .bool v
  · exact .num v
  · exact .string (stable_pointsOption h hw ha hb)
  · exact .stringarray (stable_pointsOption.each h hw ha hb)
  · exact .map (stable_entryPoints.each h hw ha hb)

/-- The value that was read, in the constructor for its type. -/
theorem reads_map {γ δ : Type} {rel' : List Char → ℕ → ℕ → γ → δ → Prop}
    {x : Access (Option (α × ℕ))} {found : Option (β × Str)}
    (h : Yields x m (Reads rel e p m found)) {f : α → γ} {g : β → δ}
    (hfg : ∀ {m' q a v}, rel m' p q a v → rel' m' p q (f a) (g v)) :
    Yields (do return (← x).map (Prod.map f id))
    m (Reads rel' e p m (found.map (Prod.map g id))) := by
  refine h.bind fun r m' hr ↦ .pure ?_
  obtain ⟨rfl, rfl, hw⟩ | ⟨v, rest, a, q, rfl, rfl, hpq, hw, htext, hv⟩ := hr.inv
  · exact hw
  · exact ⟨hpq, hw, htext, hfg hv⟩

theorem reads_readValue (f : Field) (h : Text m e p s) (hfuel : s.length < fuel) :
    Yields (readValue f fuel p) m (Reads ValuePoints e p m (Jers.readValue f s)) := by
  rw [readValue, Jers.readValue]
  rcases f.type with - | - | - | - | -
  · exact reads_map (reads_jsonGetBool h hfuel) fun hv ↦ hv ▸ .bool _
  · exact reads_map (reads_jsonGetString h hfuel) .string
  · exact reads_map (reads_jsonGetNum h hfuel) fun hv ↦ hv ▸ .num _
  · exact reads_map (reads_jsonGetStringArray h hfuel) .stringarray
  · exact reads_map (reads_jsonGetMap h hfuel) .map

/-- A field of an item. -/
def FieldPoints (m : List Char) (a b : ℕ) (x : MsgField) (v : Jers.MsgField) : Prop :=
  x.number = v.number ∧ ValuePoints m a b x.value v.value

theorem stable_fieldPoints : Stable FieldPoints :=
  fun _ _ _ _ _ _ _ _ h hw ha hb ↦ ⟨h.1, stable_valuePoints h.2 hw ha hb⟩

theorem Names.inv {found : Option (Str × Str)} {r : Option (Str × ℕ × ℕ)}
    (h : Names e p m found r m') : (found = none ∧ r = none ∧ Within p e m m') ∨ ∃ name rest ptr q,
      found = some (name, rest) ∧ r = some (Jers.uppercasestring name, ptr, q) ∧ p ≤ q ∧
      Within p q m m' ∧ Text m' e q rest ∧ Points m' p q ptr (Jers.uppercasestring name) := by
  rcases found with - | ⟨name, rest⟩
  · rcases r with - | ⟨text, ptr, q⟩
    · exact .inl ⟨rfl, rfl, h⟩
    · exact h.elim
  · rcases r with - | ⟨text, ptr, q⟩
    · exact h.elim
    · obtain ⟨hpq, hw, htext, rfl, hptr⟩ := h
      exact .inr ⟨name, rest, ptr, q, rfl, rfl, hpq, hw, htext, hptr⟩

/-- The fields of an item are those of its text. -/
theorem loads_loadFields (h : Text m e p s) (hfuel : s.length < fuel) :
    Yields (loadFields fuel p) m (Loads (Each FieldPoints) e p m (Jers.loadFields s)) := by
  induction fuel generalizing p s m with
  | zero => exact absurd hfuel (not_lt_zero _)
  | succ fuel ih =>
    rw [loadFields]
    refine (names_nextName h hfuel).bind fun r m₁ h₁ ↦ ?_
    obtain ⟨hname, rfl, hw⟩ | ⟨name, rest, ptr, q, hname, rfl, hpq, hw, htext, -⟩ := h₁.inv
    · rw [Jers.loadFields_of_none hname]
      exact .pure ⟨hw, .nil⟩
    rw [Jers.loadFields_of_some hname]
    have hlen := Jers.length_jsonGetName hname
    dsimp only
    rcases fieldtonum (Jers.uppercasestring name) with - | f
    · exact .pure (hw.mono le_rfl htext.le)
    refine (reads_readValue f htext (by omega)).bind fun r m₂ h₂ ↦ ?_
    rw [bind_some]
    obtain ⟨hvalue, rfl, hw'⟩ | ⟨v, rest', a, q', hvalue, rfl, hqq, hw', htext', hv⟩ := h₂.inv
    · rw [hvalue]
      exact .pure (hw.seq hw' hpq htext.le)
    rw [hvalue]
    have hlen' := length_le_of_text htext htext' hqq
    refine (ih htext' (by omega)).bind fun xs m₃ h₃ ↦ .pure ?_
    exact Loads.cons stable_fieldPoints h₃ (hpq.trans hqq) htext'.le
      (hw.seq hw' hpq hqq) ⟨rfl, stable_valuePoints hv (.refl _ _ _) hpq le_rfl⟩

/-- The items of an array. -/
abbrev ItemsPoint : List Char → ℕ → ℕ → List MsgItem → List Jers.MsgItem → Prop :=
  Each (Each FieldPoints)

theorem stable_itemsPoint : Stable ItemsPoint := stable_fieldPoints.each.each

variable {r : Option (List MsgItem × ℕ)}

/-- One more item in front of the array. -/
theorem Reads.consItem {item : MsgItem} {v : Jers.MsgItem}
    {found : Option (List Jers.MsgItem × Str)}
    (h : Reads ItemsPoint e q m₁ found r m') (hpq : p ≤ q) (hqe : q ≤ e) (hw : Within p q m m₁)
    (hv : Each FieldPoints m₁ p q item v) :
    Reads ItemsPoint e p m (found.map (Prod.map (v :: ·) id)) (r.map (Prod.map (item :: ·) id))
    m' := by
  obtain ⟨rfl, rfl, hw'⟩ | ⟨vs, rest, xs, q', rfl, rfl, hqq, hw', htext, hvs⟩ := h.inv
  · exact hw.seq hw' hpq hqe
  · exact ⟨hpq.trans hqq, hw.seq hw' hpq hqq, htext,
      .cons (stable_fieldPoints.each hv hw' le_rfl hqq)
      (stable_itemsPoint hvs (.refl _ _ _) hpq le_rfl)⟩

theorem reads_itemArrayLoop (h : Text m e p s) (hfuel : s.length < fuel) :
    Yields (itemArrayLoop fuel p) m (Reads ItemsPoint e p m (Jers.itemArrayLoop s)) := by
  induction fuel generalizing p s m with
  | zero => exact absurd hfuel (not_lt_zero _)
  | succ fuel ih =>
    rw [itemArrayLoop]
    refine (yields_jsonGetObject h hfuel).bind fun r m₁ h₁ ↦ ?_
    obtain ⟨hreads, hsame⟩ := h₁
    obtain ⟨hobj, rfl, -⟩ | ⟨obj, rest, start, q, hobj, rfl, hpq, hw, htext, hobject⟩ := hreads.inv
    · rw [Jers.itemArrayLoop_of_none hobj, hsame rfl]
      exact .pure ⟨le_rfl, .refl _ _ _, h, .nil⟩
    rw [Jers.itemArrayLoop_of_some hobj]
    obtain ⟨hstart, e', hat, he'⟩ := hobject.points
    have hrest := Jers.length_jsonGetObject hobj
    have hlen : obj.length < fuel + 1 :=
      length_lt_of_text h hfuel hat hstart (he'.le.trans htext.le)
    refine (loads_loadFields hat hlen).bind fun r m₂ h₂ ↦ ?_
    obtain ⟨hitem, rfl, hw'⟩ | ⟨v, item, hitem, rfl, hw', hv⟩ := h₂.inv
    · rw [hitem]
      exact .pure ((hw.mono le_rfl htext.le).trans (hw'.mono hstart (he'.le.trans htext.le)))
    rw [hitem, bind_some]
    -- the fields were read in front of the cursor, which has the text of the array as it was
    have hwrite : Within p q m m₂ := hw.trans (hw'.mono hstart he'.le)
    refine yields_skip _ (htext.within_left hw' he'.le) (by omega) fun q' hq' hsep ↦ ?_
    change Text m₂ e q' (Jers.skipToSeparator rest) at hsep
    have hitem' : Each FieldPoints m₂ p q' item v :=
      stable_fieldPoints.each hv (.refl _ _ _) hstart (le_trans he' hq')
    rcases skipToSeparator_cases rest with hend | ⟨t, ht⟩ | ⟨t, ht⟩
    · rw [hend] at hsep ⊢
      refine .step (load_eq hsep.2) ?_
      rw [if_neg (by decide), if_neg (by decide)]
      refine (ih hsep (by rw [length_nil]; omega)).bind fun x m₃ h₃ ↦ .pure ?_
      rw [Jers.itemArrayLoop_of_none rfl] at h₃
      exact Reads.consItem h₃ (hpq.trans hq') hsep.le (hwrite.mono le_rfl hq') hitem'
    · rw [ht] at hsep ⊢
      have hlen' := Jers.length_skipToSeparator_le rest
      rw [ht, length_cons] at hlen'
      refine .step (load_eq hsep.2.1) ?_
      rw [if_neg (by decide), if_pos rfl]
      refine (ih hsep.2.2 (by omega)).bind fun x m₃ h₃ ↦ .pure ?_
      exact Reads.consItem h₃ (by omega) hsep.2.2.le (hwrite.mono le_rfl (by omega))
        (stable_fieldPoints.each hitem' (.refl _ _ _) le_rfl (le_succ _))
    · rw [ht] at hsep ⊢
      refine .step (load_eq hsep.2.1) ?_
      rw [if_pos rfl]
      exact .pure ⟨hpq.trans hq', hwrite.mono le_rfl hq', hsep, .cons hitem' .nil⟩

/-- The outcome of `loadItemArray`, compared with what is found in the text: an array that is not
closed takes the cursor behind the terminator. -/
def ItemsLoad (e p : ℕ) (m : List Char) :
    Except ReadError (List Jers.MsgItem × Str) → Option (List MsgItem × ℕ) → List Char → Prop
  | .ok (items, rest), some (xs, q), m' =>
    p ≤ q ∧ Within p q m m' ∧ Text m' e q rest ∧ ItemsPoint m' p q xs items
  | .error .overrun, some (_, q), m' => q = e + 1 ∧ Within p e m m'
  | .error .invalid, none, _ => True
  | _, _, _ => False

theorem ItemsLoad.inv {found : Except ReadError (List Jers.MsgItem × Str)}
    (h : ItemsLoad e p m found r m') : (found = .error .invalid ∧ r = none) ∨
      (∃ xs, found = .error .overrun ∧ r = some (xs, e + 1) ∧ Within p e m m') ∨
      ∃ items rest xs q, found = .ok (items, rest) ∧ r = some (xs, q) ∧ p ≤ q ∧ Within p q m m' ∧
        Text m' e q rest ∧ ItemsPoint m' p q xs items := by
  rcases found with (- | - | -) | ⟨items, rest⟩
  · rcases r with - | ⟨xs, q⟩
    · exact .inl ⟨rfl, rfl⟩
    · exact h.elim
  · exact h.elim
  · rcases r with - | ⟨xs, q⟩
    · exact h.elim
    · obtain ⟨rfl, hw⟩ := h
      exact .inr (.inl ⟨xs, rfl, rfl, hw⟩)
  · rcases r with - | ⟨xs, q⟩
    · exact h.elim
    · exact .inr (.inr ⟨items, rest, xs, q, rfl, rfl, h⟩)

/-- An array that is not closed ends behind its terminator. -/
theorem itemsLoad_loadItemArray (h : Text m e p s) (hfuel : s.length < fuel) :
    Yields (loadItemArray fuel p) m (ItemsLoad e p m (Jers.loadItemArray s)) := by
  rw [loadItemArray]
  refine yields_open (by decide) h hfuel (fun pos t hle ht _ hstart hlen ↦ ?_)
    fun pos hpos hother ↦ ?_
  · rw [loadItemArray_of_bracket ht]
    refine (reads_itemArrayLoop hstart hlen).bind fun r m₁ h₁ ↦ .pure ?_
    obtain ⟨hfound, rfl, -⟩ | ⟨items, rest, xs, q, hfound, rfl, hpq, hw, htext, hitems⟩ := h₁.inv
    · rw [hfound]
      trivial
    rw [hfound]
    rcases rest with - | ⟨c, rest⟩
    · exact ⟨by rw [htext.1], hw.mono (by omega) htext.le⟩
    · exact ⟨show p ≤ q + 1 by omega, hw.mono (by omega) (le_succ q), htext.2.2,
        stable_itemsPoint hitems (.refl _ _ _) (by omega) (le_succ q)⟩
  · rw [loadItemArray_of_other hother]
    exact .pure trivial

end Jers.Cursor
