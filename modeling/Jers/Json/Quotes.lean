import Jers.Json.Misframed

/-!
# Counting quotes

The object scan changes sides at every quote that has no backslash before it. The readers need such
quotes too: a name uses up two of them, and a string value two or, when it ends in a backslash, one.
So the quotes in front of a cursor bound what can still be read there, whatever the text is. That
bound decides which responses are loaded back: when an item is not framed the scan swallows quotes
of later items, and those items can no longer be read in full.
-/

namespace Jers

open List Option Nat FieldValue WireValue

/-! ### Loose quotes -/

/-- The quotes of a text that have no backslash before them; `b` says whether a backslash stands
before the text. -/
def looseQuotes (b : Bool) : Str → ℕ
  | [] => 0
  | c :: s => (if c = '"' ∧ b = false then 1 else 0) + looseQuotes (c == '\\') s

/-- The loose quotes of a text with no backslash before it. -/
abbrev loose (s : Str) : ℕ := looseQuotes false s

theorem looseQuotes_append (b : Bool) (s t : Str) :
    looseQuotes b (s ++ t) = looseQuotes b s + looseQuotes (trailing b s) t := by
  induction s generalizing b with
  | nil => rw [nil_append, looseQuotes, zero_add]; rfl
  | cons c s ih => rw [cons_append, looseQuotes, looseQuotes, ih, trailing_cons, add_assoc]

variable {s rest name obj o r : Str} {c : Char} {st : ScanState} {items : List MsgItem}

/-- A character that is not a quote can be put in front. -/
theorem looseQuotes_cons_of_ne (h : c ≠ '"') (b : Bool) (s : Str) :
    looseQuotes b (c :: s) = looseQuotes (c == '\\') s := by
  rw [looseQuotes, if_neg (fun hc ↦ h hc.1), zero_add]

theorem loose_cons_of_ne (hq : c ≠ '"') (hb : c ≠ '\\') (s : Str) : loose (c :: s) = loose s := by
  rw [loose, looseQuotes_cons_of_ne hq, beq_false_of_ne hb]

/-- Dropping a character that is not a backslash loses nothing that is loose after it. -/
theorem loose_le_cons (h : c ≠ '\\') (b : Bool) (s : Str) : loose s ≤ looseQuotes b (c :: s) := by
  rw [looseQuotes, beq_false_of_ne h]
  exact le_add_left _ _

/-- Dropping any character leaves at most one quote more than there was. -/
theorem loose_le_cons_succ (b : Bool) (c : Char) (s : Str) :
    loose s ≤ looseQuotes b (c :: s) + 1 := by
  by_cases h : c = '\\'
  · subst h
    cases s with
    | nil => exact zero_le _
    | cons e s =>
      rw [looseQuotes_cons_of_ne (by decide), loose, looseQuotes, looseQuotes]
      split <;> omega
  · exact (loose_le_cons h b s).trans (le_succ _)

theorem loose_dropWhile_le {p : Char → Bool} (hp : p '\\' = false) (s : Str) :
    loose (s.dropWhile p) ≤ loose s := by
  induction s with
  | nil => exact le_rfl
  | cons c s ih =>
    rw [dropWhile_cons]
    split
    · next hc =>
      have hne : c ≠ '\\' := by
        rintro rfl
        rw [hp] at hc
        simp at hc
      exact ih.trans (loose_le_cons hne false s)
    · exact le_rfl

theorem loose_skipWhitespace_le (s : Str) : loose (skipWhitespace s) ≤ loose s :=
  loose_dropWhile_le (by decide) s

theorem loose_skipChars_le {k : Str} (h : k.contains '\\' = false) (s : Str) :
    loose (skipChars s k) ≤ loose s :=
  loose_dropWhile_le h s

/-- Moving to a comma or a bracket: the cursor is not at a quote, so none is counted anew. -/
theorem loose_skipToSeparator_le (b : Bool) (s : Str) :
    loose (skipToSeparator s) ≤ looseQuotes b s := by
  induction s generalizing b with
  | nil => exact le_rfl
  | cons c s ih =>
    rw [skipToSeparator, dropWhile_cons]
    split
    · rw [looseQuotes]
      exact (ih (c == '\\')).trans (le_add_left _ _)
    · next hc =>
      have hne : c ≠ '"' := by
        rintro rfl
        exact absurd hc (by decide)
      rw [loose, looseQuotes_cons_of_ne hne, looseQuotes_cons_of_ne hne]

/-! ### What a string uses up -/

/-- The loose quotes around a string value: the closing one is hidden by a trailing backslash. -/
def stringWeight (s : Str) : ℕ := if endsInBackslash s then 1 else 2

/-- The loose quotes of a value. -/
def FieldValue.weight : FieldValue → ℕ
  | .string (some s) => stringWeight s
  | .stringarray ss => (ss.map fun s ↦ s.elim 0 stringWeight).sum
  | _ => 0

/-- The loose quotes of a field: two around the name, and those of the value. -/
def MsgField.weight (f : MsgField) : ℕ := 2 + f.value.weight

/-- The loose quotes of an item. -/
def itemWeight (item : MsgItem) : ℕ := (item.map MsgField.weight).sum

/-- The loose quotes of a list of items. -/
def itemsWeight (items : List MsgItem) : ℕ := (items.map itemWeight).sum

theorem itemsWeight_append (xs ys : List MsgItem) :
    itemsWeight (xs ++ ys) = itemsWeight xs + itemsWeight ys := by
  simp [itemsWeight]

theorem trailing_false (s : Str) : trailing false s = endsInBackslash s := by
  cases s <;> simp [trailing, endsInBackslash]

/-- The closing quote is loose unless a backslash was read right before it. -/
theorem scanString_loose {v : Str} (h : scanString s = some (v, rest)) (b : Bool) :
    (if trailing b v then 0 else 1) + loose rest ≤ looseQuotes b s := by
  fun_induction scanString s generalizing v b with
  | case1 | case2 => contradiction
  | case3 e r ih =>
    obtain ⟨v', h', rfl⟩ := map_piece_eq_some h
    have hloose : looseQuotes b ('\\' :: e :: r) = looseQuotes (e == '\\') r := by
      rw [looseQuotes_cons_of_ne (by decide), looseQuotes, if_neg (by simp), zero_add]
    rw [hloose]
    refine le_trans ?_ (ih h' (e == '\\'))
    refine Nat.add_le_add_right ?_ _
    unfold jsonUnescape
    split
    · rw [singleton_append, trailing_cons]
    · rw [singleton_append, trailing_cons]
    · rw [singleton_append, trailing_cons]
      exact le_rfl
    · rw [singleton_append, trailing_cons]
      exact le_rfl
    · -- an unknown escape is dropped, and it does not end in a backslash
      next h₁ _ _ =>
      have he : (e == '\\') = false := beq_false_of_ne h₁
      rw [nil_append, he]
      cases v' with
      | nil => cases b <;> decide
      | cons c v' => rw [trailing_cons, trailing_cons]
  | case4 r =>
    obtain ⟨rfl, rfl⟩ := Prod.mk.inj (some.inj h)
    cases b <;> exact le_rfl
  | case5 c r h₁ h₂ h₃ ih =>
    obtain ⟨v', h', rfl⟩ := map_piece_eq_some h
    rw [trailing_cons, looseQuotes_cons_of_ne h₃]
    exact ih h' (c == '\\')

theorem loose_quote (s : Str) : loose ('"' :: s) = 1 + loose s := rfl

theorem jsonGetString_loose {v : Option Str} (h : jsonGetString s = some (v, rest)) :
    v.elim 0 stringWeight + loose rest ≤ loose s := by
  unfold jsonGetString at h
  split at h
  · next r hr =>
    obtain ⟨v', h', rfl⟩ := map_piece_eq_some h
    have hclose : (if trailing false v' then 0 else 1) + loose rest ≤ loose r :=
      scanString_loose h' false
    have hws := loose_skipWhitespace_le s
    rw [trailing_false] at hclose
    rw [hr, loose_quote] at hws
    rw [elim_some, stringWeight]
    split at hclose
    · next he => rw [if_pos he]; omega
    · next he => rw [if_neg he]; omega
  · split at h
    · obtain ⟨rfl, rfl⟩ := Prod.mk.inj (some.inj h)
      rw [elim_none, zero_add]
    · simp at h

theorem jsonGetName_loose (h : jsonGetName s = some (name, rest)) :
    stringWeight name + loose rest ≤ loose s := by
  unfold jsonGetName at h
  split at h
  · next n r hr =>
    obtain ⟨rfl, rfl⟩ := Prod.mk.inj (some.inj h)
    have h₁ := jsonGetString_loose hr
    have h₂ := loose_skipChars_le (k := " \t:".toList) (by decide) r
    have h₃ := loose_skipChars_le (k := " \t,]\x7d".toList) (by decide) s
    rw [elim_some] at h₁
    omega
  · simp at h

/-! ### What the other readers use up -/

theorem loose_readDigits_le (r : ℤ) (s : Str) : loose (readDigits r s).2 ≤ loose s := by
  induction s generalizing r with
  | nil => exact le_rfl
  | cons c s ih =>
    rw [readDigits]
    split
    · exact le_rfl
    · next hc =>
      have hne : c ≠ '\\' := by
        rintro rfl
        exact hc (by decide)
      exact (ih _).trans (loose_le_cons hne false s)

theorem loose_strtoint64_le (s : Str) : loose (strtoint64 s).2 ≤ loose s := by
  unfold strtoint64
  split
  · exact (loose_readDigits_le _ _).trans (loose_le_cons (by decide) false _)
  · exact loose_readDigits_le _ _

theorem jsonGetNum_loose {n : ℤ} (h : jsonGetNum s = some (n, rest)) : loose rest ≤ loose s := by
  have hle := (loose_strtoint64_le _).trans (loose_skipWhitespace_le s)
  rwa [strtoint64_of_jsonGetNum h] at hle

theorem loose_drop_prefix_le {p pos : Str} (hp : ∀ c ∈ p, c ≠ '\\') (h : p.isPrefixOf pos = true) :
    loose (pos.drop p.length) ≤ loose pos := by
  obtain ⟨t, rfl⟩ := isPrefixOf_iff_prefix.mp h
  rw [drop_left]
  clear h
  induction p with
  | nil => exact le_rfl
  | cons c p ih =>
    exact (ih fun c hc ↦ hp c (mem_cons_of_mem _ hc)).trans
      (loose_le_cons (hp c mem_cons_self) false _)

theorem jsonGetBool_loose {b : Bool} (h : jsonGetBool s = some (b, rest)) :
    loose rest ≤ loose s := by
  refine le_trans ?_ (loose_skipWhitespace_le s)
  unfold jsonGetBool at h
  simp only at h
  split at h
  · next hp =>
    obtain ⟨-, rfl⟩ := Prod.mk.inj (some.inj h)
    exact loose_drop_prefix_le (p := "true".toList) (by decide) hp
  split at h
  · next hp =>
    obtain ⟨-, rfl⟩ := Prod.mk.inj (some.inj h)
    exact loose_drop_prefix_le (p := "false".toList) (by decide) hp
  · simp at h

theorem stringArrayLoop_loose {vs : List (Option Str)} (h : stringArrayLoop s = some (vs, rest)) :
    (vs.map fun v ↦ v.elim 0 stringWeight).sum + loose rest ≤ loose s := by
  fun_induction stringArrayLoop s generalizing vs with
  | case1 s hs =>
    unfold arrayEnd at h
    split at h
    · obtain ⟨rfl, rfl⟩ := Prod.mk.inj (some.inj h)
      rw [map_nil, sum_nil, zero_add]
      exact loose_le_cons (by decide) false _
    · simp at h
  | case2 s str r hs r' hr =>
    obtain ⟨rfl, rfl⟩ := Prod.mk.inj (some.inj h)
    have h₁ := jsonGetString_loose hs
    have h₂ : loose (skipToSeparator r) ≤ loose r := loose_skipToSeparator_le false r
    have h₃ : loose r' ≤ loose (']' :: r') := loose_le_cons (by decide) false r'
    rw [hr] at h₂
    rw [map_singleton, sum_singleton]
    omega
  | case3 s str r hs r' hr ih =>
    obtain ⟨vs', h', rfl⟩ := map_piece_eq_some h
    have h₀ := ih h'
    have h₁ := jsonGetString_loose hs
    have h₂ : loose (skipToSeparator r) ≤ loose r := loose_skipToSeparator_le false r
    have h₃ : loose r' ≤ loose (',' :: r') := loose_le_cons (by decide) false r'
    rw [hr] at h₂
    rw [map_cons, sum_cons]
    omega
  | case4 => contradiction

/-! ### Objects -/

/-- A step of the scan changes sides exactly at a loose quote. -/
theorem scanStep_loose {st' : ScanState} (h : scanStep st c = some st') :
    st'.2.2 = (c == '\\') ∧ st'.1.toNat % 2 =
      (st.1.toNat + if c = '"' ∧ st.2.2 = false then 1 else 0) % 2 := by
  obtain ⟨q, d, b⟩ := st
  unfold scanStep at h
  split at h
  · next hc =>
    obtain rfl := some.inj h
    subst hc
    refine ⟨rfl, ?_⟩
    cases q <;> cases b <;> simp
  next hq =>
  rw [if_neg (fun hc ↦ hq hc.1), add_zero]
  split at h
  · next hc =>
    obtain rfl := some.inj h
    exact ⟨by rw [hc.1]; rfl, rfl⟩
  split at h
  · next hc =>
    split at h
    · simp at h
    · obtain rfl := some.inj h
      exact ⟨by rw [hc.1]; rfl, rfl⟩
  · obtain rfl := some.inj h
    exact ⟨rfl, rfl⟩

/-- From the start of an object to its brace the scan changes sides an even number of times. -/
theorem scanFrom_even (h : scanFrom st s = some (o, r)) :
    (st.1.toNat + looseQuotes st.2.2 o) % 2 = 0 := by
  induction s generalizing st o with
  | nil => exact absurd h (by simp [scanFrom_nil])
  | cons c s ih =>
    cases hs : scanStep st c with
    | none =>
      rw [scanFrom_of_none hs] at h
      obtain ⟨rfl, -⟩ := Prod.mk.inj (some.inj h)
      rw [(scanStep_eq_none hs).2.1]
      rfl
    | some st' =>
      rw [scanFrom_of_some hs] at h
      obtain ⟨o', h', rfl⟩ := map_piece_eq_some h
      obtain ⟨hb, hq⟩ := scanStep_loose hs
      have := ih h'
      rw [hb] at this
      rw [looseQuotes]
      omega

theorem scanFrom_loose (h : scanFrom st s = some (o, r)) :
    looseQuotes st.2.2 s = looseQuotes st.2.2 o + loose r := by
  rw [eq_of_scanFrom h, looseQuotes_append, looseQuotes_cons_of_ne (by decide)]
  rfl

theorem jsonGetObject_loose (h : jsonGetObject s = some (o, r)) :
    loose o % 2 = 0 ∧ loose o + loose r ≤ loose s := by
  have hws := loose_skipWhitespace_le s
  unfold jsonGetObject at h
  split at h
  · next t ht =>
    rw [scanObject_eq_scanFrom] at h
    have h₁ := scanFrom_even h
    have h₂ := scanFrom_loose h
    have h₃ := loose_le_cons (c := '{') (by decide) false t
    rw [ht] at hws
    exact ⟨by simpa using h₁, h₂ ▸ h₃.trans hws⟩
  · simp at h

/-! ### Fields and items -/

theorem readValue_loose {f : Field} {v : FieldValue} (h : readValue f s = some (v, rest)) :
    v.weight + loose rest ≤ loose s := by
  unfold readValue at h
  split at h <;> obtain ⟨a, h', rfl⟩ := map_piece_eq_some h
  · rw [weight, zero_add]
    · exact jsonGetNum_loose h'
    all_goals simp
  · rw [weight, zero_add]
    · exact jsonGetBool_loose h'
    all_goals simp
  · have hs := jsonGetString_loose h'
    cases a <;> exact hs
  · unfold jsonGetStringArray at h'
    split at h'
    · next pos hpos =>
      have hws := loose_skipWhitespace_le s
      have hcons : loose pos ≤ loose ('[' :: pos) := loose_le_cons (by decide) false pos
      have hloop := stringArrayLoop_loose h'
      rw [hpos] at hws
      rw [weight]
      omega
    · simp at h'
  · unfold jsonGetMap at h'
    split at h'
    · simp at h'
    · next hobj =>
      obtain ⟨_, -, heq⟩ := map_eq_some_iff.mp h'
      obtain ⟨-, rfl⟩ := Prod.mk.inj heq
      have hle := (jsonGetObject_loose hobj).2
      rw [weight, zero_add]
      · omega
      all_goals simp

/-- A name that does not end in a backslash uses up both its quotes, and so does a name that is the
same as such a name up to case. -/
theorem stringWeight_of_uppercasestring {t : Str} (h : uppercasestring name = t) (ht : '\\' ∉ t) :
    stringWeight name = 2 := by
  rw [stringWeight, if_neg]
  intro hend
  have hlast : name.getLast? = some '\\' := by simpa [endsInBackslash] using hend
  have hmem : '\\' ∈ uppercasestring name :=
    List.mem_map.mpr ⟨'\\', mem_of_getLast? hlast, by decide⟩
  exact ht (h ▸ hmem)

theorem stringWeight_of_fieldtonum {f : Field} (h : fieldtonum (uppercasestring name) = some f) :
    stringWeight name = 2 := by
  have hf : f.name = uppercasestring name := by simpa using List.find?_some h
  exact stringWeight_of_uppercasestring hf.symm fun hc ↦ (name_plain f _ hc).2 rfl

theorem loadFields_loose {item : MsgItem} (h : loadFields obj = some item) :
    itemWeight item ≤ loose obj := by
  fun_induction loadFields obj generalizing item with
  | case1 => exact some.inj h ▸ zero_le _
  | case2 | case3 => contradiction
  | case4 obj name rest hname f hf v rest' hv ih =>
    obtain ⟨item', hitem, rfl⟩ := map_eq_some_iff.mp h
    have h₁ := jsonGetName_loose hname
    have h₂ := readValue_loose hv
    have h₃ := ih hitem
    rw [stringWeight_of_fieldtonum hf] at h₁
    rw [itemWeight, map_cons, sum_cons, ← itemWeight, MsgField.weight]
    change 2 + v.weight + itemWeight item' ≤ loose obj
    omega

/-- The items of an array use up an even number of quotes, since every object does. -/
theorem itemArrayLoop_loose (h : itemArrayLoop s = some (items, rest)) :
    ∃ e, e % 2 = 0 ∧ itemsWeight items ≤ e ∧ e + loose rest ≤ loose s := by
  fun_induction itemArrayLoop s generalizing items with
  | case1 =>
    obtain ⟨rfl, rfl⟩ := Prod.mk.inj (some.inj h)
    exact ⟨0, rfl, le_rfl, by omega⟩
  | case2 => contradiction
  | case3 s obj r ho item hitem t ht ih =>
    obtain ⟨heven, hobj⟩ := jsonGetObject_loose ho
    have hw := loadFields_loose hitem
    have hsep : loose (skipToSeparator r) ≤ loose r := loose_skipToSeparator_le false r
    have htail : loose t ≤ loose (',' :: t) := loose_le_cons (by decide) false t
    rw [ht] at hsep
    obtain ⟨items', h', rfl⟩ := map_piece_eq_some h
    obtain ⟨e, he, hle, hrest⟩ := ih h'
    refine ⟨loose obj + e, by omega, ?_, by omega⟩
    rw [itemsWeight, map_cons, sum_cons, ← itemsWeight]
    omega
  | case4 s obj r ho item hitem =>
    obtain ⟨heven, hobj⟩ := jsonGetObject_loose ho
    have hsep : loose (skipToSeparator r) ≤ loose r := loose_skipToSeparator_le false r
    obtain ⟨rfl, rfl⟩ := Prod.mk.inj (some.inj h)
    refine ⟨loose obj, heven, ?_, by omega⟩
    rw [itemsWeight, map_singleton, sum_singleton]
    exact loadFields_loose hitem

theorem loadItemArray_loose (h : loadItemArray s = .ok (items, rest)) :
    itemsWeight items ≤ loose s ∧ itemsWeight items + loose rest ≤ loose s + 1 := by
  have hws := loose_skipWhitespace_le s
  unfold loadItemArray at h
  split at h
  · next pos hpos =>
    have hcons : loose pos ≤ loose ('[' :: pos) := loose_le_cons (by decide) false pos
    rw [hpos] at hws
    split at h
    · simp at h
    · simp at h
    · next c r hloop =>
      obtain ⟨rfl, rfl⟩ := Prod.mk.inj (Except.ok.inj h)
      obtain ⟨e, he, hle, hrest⟩ := itemArrayLoop_loose hloop
      have hlast : loose r ≤ loose (c :: r) + 1 := loose_le_cons_succ false c r
      exact ⟨by omega, by omega⟩
  · simp at h

/-! ### Messages -/

/-- Items that are still loaded from a text need two more quotes than they have themselves, for the
name that introduces them. -/
def Affords (obj : Str) (added : List MsgItem) : Prop :=
  added = [] ∨ itemsWeight added + 2 ≤ loose obj

variable {added : List MsgItem} {m m' : Msg}

theorem Affords.mono {t : Str} (h : Affords s added) (hst : loose s ≤ loose t) : Affords t added :=
  h.imp id fun h ↦ h.trans hst

/-- The items that are added after a name and its value. -/
theorem Affords.after {rest' : Str} (hname : jsonGetName obj = some (name, rest))
    (hle : loose rest' ≤ loose rest)
    (h : ∃ added, m'.items = m.items ++ added ∧ Affords rest' added) :
    ∃ added, m'.items = m.items ++ added ∧ Affords obj added := by
  obtain ⟨added, heq, hadd⟩ := h
  have hloose := jsonGetName_loose hname
  exact ⟨added, heq, hadd.mono (by omega)⟩

/-- Items loaded after a name, and items loaded later. -/
theorem Affords.data {rest' key : Str} (hname : jsonGetName obj = some (name, rest))
    (hkey : uppercasestring name = key) (hplain : '\\' ∉ key)
    (hitems : itemsWeight items ≤ loose rest ∧ itemsWeight items + loose rest' ≤ loose rest + 1)
    (h : ∃ added, m'.items = m.items ++ items ++ added ∧ Affords rest' added) :
    ∃ added, m'.items = m.items ++ added ∧ Affords obj added := by
  obtain ⟨added, heq, hadd⟩ := h
  have hloose := jsonGetName_loose hname
  rw [stringWeight_of_uppercasestring hkey hplain] at hloose
  refine ⟨items ++ added, by rw [heq, append_assoc], Or.inr ?_⟩
  rw [itemsWeight_append]
  rcases hadd with rfl | hadd
  · rw [show itemsWeight [] = 0 from rfl]
    omega
  · omega

/-- The loop over the body of a response adds items that its quotes can pay for. -/
theorem respLoop_affords (h : respLoop m obj = .ok m') :
    ∃ added, m'.items = m.items ++ added ∧ Affords obj added := by
  fun_induction respLoop m obj with
  | case1 | case3 =>
    obtain rfl := Except.ok.inj h
    exact ⟨[], (append_nil _).symm, Or.inl rfl⟩
  | case2 | case4 | case6 | case8 | case9 => contradiction
  | case5 m obj name rest hname _ _ v rest' hv ih =>
    exact Affords.after hname (jsonGetNum_loose hv) (ih h)
  | case7 m obj name rest hname _ _ hdata items rest' hi ih =>
    exact Affords.data hname hdata (by decide) (loadItemArray_loose hi) (ih h)
  | case10 m obj name rest hname _ _ _ _ alert rest' hs ih =>
    exact Affords.after hname (by have hle := jsonGetString_loose hs; omega) (ih h)
  | case11 m obj name rest hname _ _ _ _ ih => exact Affords.after hname le_rfl (ih h)

/-- The loop over the body of a command does so as well. -/
theorem commandLoop_affords (h : commandLoop m obj = .ok m') :
    ∃ added, m'.items = m.items ++ added ∧ Affords obj added := by
  fun_induction commandLoop m obj with
  | case1 =>
    obtain rfl := Except.ok.inj h
    exact ⟨[], (append_nil _).symm, Or.inl rfl⟩
  | case2 | case4 | case6 | case7 => contradiction
  | case3 m obj name rest hname _ v rest' hv ih =>
    exact Affords.after hname (jsonGetNum_loose hv) (ih h)
  | case5 m obj name rest hname _ hdata items rest' hi ih =>
    exact Affords.data hname hdata (by decide) (loadItemArray_loose hi) (ih h)
  | case8 m obj name rest hname _ _ hfields obj' rest' ho item hitem ih =>
    have h₁ := (jsonGetObject_loose ho).2
    have h₂ := loadFields_loose hitem
    have hw : itemsWeight [item] = itemWeight item := by simp [itemsWeight]
    exact Affords.data hname hfields (by decide) ⟨by omega, by omega⟩ (ih h)
  | case9 m obj name rest hname _ _ _ ih => exact Affords.after hname le_rfl (ih h)

/-! ### The quotes of written text -/

theorem looseQuotes_escape (b : Bool) (s t : Str) :
    looseQuotes b (s.flatMap jsonEscapeChar ++ t) = looseQuotes (trailing b s) t := by
  induction s generalizing b with
  | nil => rfl
  | cons c s ih =>
    have hchar : ∀ u, looseQuotes b (jsonEscapeChar c ++ u) = looseQuotes (c == '\\') u := by
      intro u
      unfold jsonEscapeChar
      split
      · simp [looseQuotes]
      · simp [looseQuotes]
      · simp [looseQuotes]
      · simp [looseQuotes]
      · next h₄ => exact looseQuotes_cons_of_ne h₄ b u
    rw [flatMap_cons, append_assoc, hchar, ih, trailing_cons]

theorem loose_quoted (s t : Str) : loose (quoted s ++ t) = stringWeight s + loose t := by
  rw [quoted, cons_append, loose_quote, jsonEscapeString_length, append_assoc, loose,
    looseQuotes_escape, trailing_false, stringWeight]
  cases endsInBackslash s
  · exact (add_assoc 1 1 (loose t)).symm
  · simp [looseQuotes]

theorem loose_plain {p : Str} (h : ∀ c ∈ p, c ≠ '"' ∧ c ≠ '\\') (t : Str) :
    loose (p ++ t) = loose t := by
  induction p with
  | nil => rfl
  | cons c p ih =>
    obtain ⟨hq, hb⟩ := h c mem_cons_self
    rw [cons_append, loose_cons_of_ne hq hb]
    exact ih fun c hc ↦ h c (mem_cons_of_mem _ hc)

theorem loose_quotedName (h : ∀ c ∈ name, c ≠ '"' ∧ c ≠ '\\') (t : Str) :
    loose (quotedName name ++ t) = 2 + loose t := by
  rw [quotedName, cons_append, loose_quote, append_assoc, loose_plain h,
    cons_append, loose_quote, cons_append, loose_cons_of_ne (by decide) (by decide)]
  exact (add_assoc 1 1 (loose t)).symm

/-- Pieces whose quotes are counted by a weight, with commas between them. -/
theorem loose_commaJoin {ι : Type} (text : ι → Str) (weight : ι → ℕ)
    (h : ∀ i t, loose (text i ++ t) = weight i + loose t) (l : List ι) (t : Str) :
    loose (commaJoin (l.map text) ++ t) = (l.map weight).sum + loose t := by
  cases l with
  | nil => exact (zero_add _).symm
  | cons i l =>
    rw [map_cons, commaJoin, append_assoc, h, map_cons, sum_cons, add_assoc]
    congr 1
    induction l with
    | nil => exact (zero_add _).symm
    | cons j l ih =>
      rw [map_cons, flatMap_cons, append_assoc, cons_append,
        loose_cons_of_ne (by decide) (by decide), h j, ih, map_cons, sum_cons,
        add_assoc]

theorem loose_value (w : WireField) (t : Str) :
    loose (w.value.text ++ t) = w.value.received.weight + loose t := by
  cases w.value with
  | bool b => cases b <;> simp [text, received, weight, looseQuotes]
  | string s => exact loose_quoted s t
  | num n =>
    have hplain : ∀ c ∈ int64tostr n, c ≠ '"' ∧ c ≠ '\\' := by
      intro c hc
      have h := (numeral_char hc).1
      constructor <;> rintro rfl <;> exact absurd h (by decide)
    rw [text, loose_plain hplain, received, weight, zero_add]
    all_goals simp
  | stringarray ss =>
    have hopen : (WireValue.stringarray ss).text ++ t =
        '[' :: (commaJoin (ss.map quoted) ++ ']' :: t) := by
      simp [text]
    rw [hopen, loose_cons_of_ne (by decide) (by decide),
      loose_commaJoin quoted stringWeight loose_quoted, loose_cons_of_ne (by decide) (by decide),
      received, weight, List.map_map]
    rfl

theorem loose_field (w : WireField) (t : Str) :
    loose (w.text ++ t) = w.received.weight + loose t := by
  rw [WireField.text, append_assoc, loose_quotedName (name_plain w.field), loose_value,
    MsgField.weight, add_assoc]
  rfl

theorem loose_itemText (ws : List WireField) (t : Str) :
    loose (itemText ws ++ t) = itemWeight (ws.map WireField.received) + loose t := by
  have htext : itemText ws ++ t = '{' :: (fieldsText ws ++ '}' :: t) := by simp [itemText]
  rw [htext, loose_cons_of_ne (by decide) (by decide), fieldsText,
    loose_commaJoin WireField.text (fun w ↦ w.received.weight) loose_field,
    loose_cons_of_ne (by decide) (by decide), itemWeight, List.map_map]
  rfl

/-- The items of a response, as the loader stores them. -/
def receivedItems (items : List (List WireField)) : List MsgItem :=
  items.map (·.map WireField.received)

/-- The quotes of the written items are those the items use up. -/
theorem loose_itemsText (items : List (List WireField)) (t : Str) :
    loose (itemsText items ++ t) = itemsWeight (receivedItems items) + loose t := by
  refine (loose_commaJoin itemText _ loose_itemText items t).trans ?_
  rw [itemsWeight, receivedItems, List.map_map]
  rfl

end Jers
