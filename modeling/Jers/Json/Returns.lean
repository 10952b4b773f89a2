import Jers.Json.CursorFrame
import Jers.Json.CursorReads

/-!
# When the message parser returns

`load_message` returns on a string if, with enough rounds allowed to its loops, it ends without
reading or writing outside the string and its terminator and without using a null string
(`Returns`). It does not on every string, for two reasons.

A null string is refused by none of the readers. As the text of an error it is handed to `strdup`,
and as an alert to `setenv`.

`loadItemArray` steps over the character at which its loop stopped, and that can be the terminator:
of the body, of the outer object, or of the whole string. An array without its bracket at the end of
the body takes the cursor to the text behind the body, and from there the loop goes on. A second one
takes it behind the outer object, and a third one out of the string.

`Sound` says of a string that neither happens, in terms of the entries that its texts start with
(`bodyEntry`), and `loadMessage_returns_iff` shows that it is exactly the condition under which the
parser returns.
-/

namespace Jers.Cursor

open CString Exec List Option

/-! ### The condition -/

/-- What a text starts with, for the loops over a body: an entry after which nothing is read, an
entry with text behind it, an alert that is null, or an item array that is not closed. -/
inductive BodyEntry
  | last
  | next (rest : Str)
  | nullAlert
  | openArray
  deriving DecidableEq, Repr

/-- The entry `VERSION`, with the text of its value. -/
def versionText (s : Str) : BodyEntry :=
  match Jers.jsonGetNum s with
  | none => .last
  | some (_, rest) => .next rest

/-- The entry `DATA`: the character at which the items end is not looked at. -/
def dataText (s : Str) : BodyEntry :=
  match Jers.skipWhitespace s with
  | '[' :: pos =>
    match Jers.itemArrayLoop pos with
    | none => .last
    | some (_, []) => .openArray
    | some (_, _ :: rest) => .next rest
  | _ => .last

/-- The entry `ALERT` of a response. -/
def alertText (s : Str) : BodyEntry :=
  match Jers.jsonGetString s with
  | none => .last
  | some (none, _) => .nullAlert
  | some (some _, rest) => .next rest

/-- The entry `FIELDS` of a command. -/
def fieldsText (s : Str) : BodyEntry :=
  match Jers.jsonGetObject s with
  | none => .last
  | some (obj, rest) =>
    match Jers.loadFields obj with
    | none => .last
    | some _ => .next rest

/-- What the body of a response starts with. -/
def respEntry (s : Str) : BodyEntry :=
  match Jers.jsonGetName s with
  | none => .last
  | some (name, rest) =>
    if Jers.uppercasestring name = "RETURN_CODE".toList then .last
    else if Jers.uppercasestring name = "VERSION".toList then versionText rest
    else if Jers.uppercasestring name = "DATA".toList then dataText rest
    else if Jers.uppercasestring name = "ALERT".toList then alertText rest
    else .next rest

/-- What the body of a command starts with. -/
def commandEntry (s : Str) : BodyEntry :=
  match Jers.jsonGetName s with
  | none => .last
  | some (name, rest) =>
    if Jers.uppercasestring name = "VERSION".toList then versionText rest
    else if Jers.uppercasestring name = "DATA".toList then dataText rest
    else if Jers.uppercasestring name = "FIELDS".toList then fieldsText rest
    else .next rest

/-- The entries of `s` lead to the text `t`. -/
def Leads (entry : Str → BodyEntry) : Str → Str → Prop :=
  Relation.ReflTransGen fun s t ↦ entry s = .next t

/-- Texts that lie one behind the other: no alert that is reached is null, and the last of the
texts is not left through an open array. -/
def Bounded (entry : Str → BodyEntry) : List Str → Prop
  | [] => False
  | s :: texts =>
    (∀ t, Leads entry s t → entry t ≠ .nullAlert) ∧
      ((∃ t, Leads entry s t ∧ entry t = .openArray) → Bounded entry texts)

/-- The strings on which the parser returns: the text of an error is not null, and the body with the
two texts behind it is bounded. -/
def Sound (s : Str) : Prop :=
  ∀ object trailing name rest, Jers.jsonGetObject s = some (object, trailing) →
    Jers.jsonGetName object = some (name, rest) →
    if Jers.uppercasestring name = "ERROR".toList then ∀ r, Jers.jsonGetString rest ≠ some (none, r)
    else ∀ body tail, Jers.jsonGetObject rest = some (body, tail) →
      Bounded (if Jers.uppercasestring name = "RESP".toList then respEntry else commandEntry)
      [body, tail, trailing]

/-- With enough rounds for its loops, `load_message` returns on the block that holds `s` and its
terminator. -/
def Returns (s : Str) : Prop :=
  ∃ n, ∀ fuel, n ≤ fuel → Succeeds (loadMessage fuel 0) (s ++ ['\x00'])

/-! ### One step along the entries -/

section

variable {entry : Str → BodyEntry} {s t : Str} {texts : List Str}

theorem leads_of_next (h : entry s = .next t) {u : Str} :
    Leads entry s u ↔ u = s ∨ Leads entry t u := by
  constructor
  · intro hlead
    rcases Relation.ReflTransGen.cases_head hlead with rfl | ⟨v, hv, hrest⟩
    · exact .inl rfl
    · rw [h] at hv
      obtain rfl := BodyEntry.next.inj hv
      exact .inr hrest
  · rintro (rfl | hlead)
    · exact .refl
    · exact .head h hlead

theorem leads_of_not_next (h : ∀ t, entry s ≠ .next t) {u : Str} : Leads entry s u ↔ u = s := by
  constructor
  · intro hlead
    rcases Relation.ReflTransGen.cases_head hlead with rfl | ⟨v, hv, -⟩
    · rfl
    · exact absurd hv (h v)
  · rintro rfl
    exact .refl

theorem bounded_of_last (h : entry s = .last) : Bounded entry (s :: texts) := by
  have hlead {u : Str} := leads_of_not_next (u := u) (fun t ht ↦ nomatch h.symm.trans ht)
  refine ⟨fun u hu ↦ ?_, fun ⟨u, hu, hopen⟩ ↦ ?_⟩
  · rw [hlead.mp hu, h]
    nofun
  · rw [hlead.mp hu, h] at hopen
    exact nomatch hopen

theorem bounded_iff_of_next (h : entry s = .next t) :
    Bounded entry (s :: texts) ↔ Bounded entry (t :: texts) := by
  have hs {k : BodyEntry} (hk : ∀ u, k ≠ .next u) : entry s ≠ k := fun hs ↦ hk t (hs.symm.trans h)
  constructor
  · rintro ⟨hnull, hopen⟩
    exact ⟨fun u hu ↦ hnull u ((leads_of_next h).mpr (.inr hu)),
      fun ⟨u, hu, hu'⟩ ↦ hopen ⟨u, (leads_of_next h).mpr (.inr hu), hu'⟩⟩
  · rintro ⟨hnull, hopen⟩
    refine ⟨fun u hu ↦ ?_, fun ⟨u, hu, hu'⟩ ↦ ?_⟩
    · rcases (leads_of_next h).mp hu with rfl | hu
      · exact hs nofun
      · exact hnull u hu
    · rcases (leads_of_next h).mp hu with rfl | hu
      · exact absurd hu' (hs nofun)
      · exact hopen ⟨u, hu, hu'⟩

theorem bounded_iff_of_openArray (h : entry s = .openArray) :
    Bounded entry (s :: texts) ↔ Bounded entry texts := by
  have hlead {u : Str} := leads_of_not_next (u := u) (fun t ht ↦ nomatch h.symm.trans ht)
  constructor
  · exact fun hb ↦ hb.2 ⟨s, .refl, h⟩
  · refine fun hb ↦ ⟨fun u hu ↦ ?_, fun _ ↦ hb⟩
    rw [hlead.mp hu, h]
    nofun

theorem not_bounded_of_nullAlert (h : entry s = .nullAlert) : ¬Bounded entry (s :: texts) :=
  fun hb ↦ hb.1 s .refl h

end

/-! ### One round -/

variable {m m' : List Char} {e p q fuel : ℕ} {s : Str}

/-- The outcome of a round, compared with what the text starts with. -/
def RoundEnds (e p : ℕ) (m : List Char) : BodyEntry → Round → List Char → Prop
  | .last, .fail, _ => True
  | .last, .done _, _ => True
  | .next rest, .next _ q, m' => p ≤ q ∧ Within p q m m' ∧ Text m' e q rest
  | .openArray, .next _ q, m' => q = e + 1 ∧ Within p e m m'
  | _, _, _ => False

/-- A round that continues behind a name continues behind the entry. -/
theorem RoundEnds.of_name {m₁ : List Char} {k : BodyEntry} {r : Round} (h : RoundEnds e q m₁ k r m')
    (hpq : p ≤ q) (hqe : q ≤ e) (hw : Within p q m m₁) : RoundEnds e p m k r m' := by
  rcases k with - | rest | - | -
  · rcases r with - | msg | ⟨msg, q'⟩
    · trivial
    · trivial
    · exact h.elim
  · rcases r with - | msg | ⟨msg, q'⟩
    · exact h.elim
    · exact h.elim
    · obtain ⟨hle, hw', htext⟩ := h
      exact ⟨hpq.trans hle, hw.seq hw' hpq hle, htext⟩
  · exact h.elim
  · rcases r with - | msg | ⟨msg, q'⟩
    · exact h.elim
    · exact h.elim
    · exact ⟨h.1, hw.seq h.2 hpq hqe⟩

theorem ends_versionEntry (msg : Msg) (h : Text m e p s) (hfuel : s.length < fuel) :
    Yields (versionEntry fuel msg p) m (RoundEnds e p m (versionText s)) := by
  rw [versionEntry, versionText]
  refine (reads_jsonGetNum h hfuel).bind fun r m₁ h₁ ↦ ?_
  obtain ⟨hfound, rfl, -⟩ | ⟨v, rest, a, q, hfound, rfl, hpq, hw, htext, -⟩ := h₁.inv
  · rw [hfound]
    exact .pure trivial
  · rw [hfound]
    exact .pure ⟨hpq, hw, htext⟩

theorem dataText_eq (s : Str) : dataText s = match Jers.loadItemArray s with
    | .ok (_, rest) => .next rest
    | .error .overrun => .openArray
    | .error _ => .last := by
  by_cases h : ∃ t, Jers.skipWhitespace s = '[' :: t
  · obtain ⟨t, ht⟩ := h
    rw [loadItemArray_of_bracket ht, dataText, ht]
    show (match Jers.itemArrayLoop t with
      | none => BodyEntry.last
      | some (_, []) => .openArray
      | some (_, _ :: rest) => .next rest) = _
    rcases Jers.itemArrayLoop t with - | ⟨items, - | ⟨c, rest⟩⟩
    · rfl
    · rfl
    · rfl
  · rw [loadItemArray_of_other (not_exists.mp h), dataText]
    split
    · next heq => exact absurd ⟨_, heq⟩ h
    · rfl

theorem ends_dataEntry (msg : Msg) (h : Text m e p s) (hfuel : s.length < fuel) :
    Yields (dataEntry fuel msg p) m (RoundEnds e p m (dataText s)) := by
  rw [dataEntry, dataText_eq]
  refine (itemsLoad_loadItemArray h hfuel).bind fun r m₁ h₁ ↦ ?_
  obtain ⟨hfound, rfl⟩ | ⟨xs, hfound, rfl, hw⟩ |
    ⟨items, rest, xs, q, hfound, rfl, hpq, hw, htext, -⟩ := h₁.inv
  · rw [hfound]
    exact .pure trivial
  · rw [hfound]
    exact .pure ⟨rfl, hw⟩
  · rw [hfound]
    exact .pure ⟨hpq, hw, htext⟩

theorem ends_fieldsEntry (msg : Msg) (h : Text m e p s) (hfuel : s.length < fuel) :
    Yields (fieldsEntry fuel msg p) m (RoundEnds e p m (fieldsText s)) := by
  rw [fieldsEntry, fieldsText]
  refine (reads_jsonGetObject h hfuel).bind fun r m₁ h₁ ↦ ?_
  obtain ⟨hobj, rfl, -⟩ | ⟨obj, rest, start, q, hobj, rfl, hpq, hw, htext, hobject⟩ := h₁.inv
  · rw [hobj]
    exact .pure trivial
  rw [hobj]
  obtain ⟨hstart, e', hat, he'⟩ := hobject.points
  have hfields : obj.length < fuel := length_lt_of_text h hfuel hat hstart (he'.le.trans htext.le)
  refine (loads_loadFields hat hfields).bind fun r m₂ h₂ ↦ ?_
  dsimp only
  obtain ⟨hitem, rfl, -⟩ | ⟨v, item, hitem, rfl, hw', -⟩ := h₂.inv
  · rw [hitem]
    exact .pure trivial
  · rw [hitem]
    exact .pure ⟨hpq, hw.trans (hw'.mono hstart he'.le), htext.within_left hw' he'.le⟩

/-- A string that is copied. -/
theorem strdup_eq {x : Option ℕ} {v : Str} (h : Text m e p s) (hfuel : s.length < fuel)
    (hq : q ≤ e + 1) (hv : PointsOption m' p q x (some v)) : strdup fuel x m' = .ok (v, m') := by
  rcases hv with ⟨⟨hp, e', htext, he'⟩⟩
  exact copy_eq htext (length_lt_of_text h hfuel htext hp (by omega))

theorem ends_alertEntry (msg : Msg) (h : Text m e p s) (hfuel : s.length < fuel)
    (hnull : alertText s ≠ .nullAlert) :
    Yields (alertEntry fuel msg p) m (RoundEnds e p m (alertText s)) := by
  rw [alertText] at hnull ⊢
  rw [alertEntry]
  refine (reads_jsonGetString h hfuel).bind fun r m₁ h₁ ↦ ?_
  obtain ⟨hfound, rfl, -⟩ | ⟨v, rest, a, q, hfound, rfl, hpq, hw, htext, hv⟩ := h₁.inv
  · rw [hfound]
    exact .pure trivial
  rw [hfound] at hnull ⊢
  rcases v with - | v
  · exact absurd rfl hnull
  exact .step (strdup_eq h hfuel (htext.le.trans (Nat.le_succ e)) hv) (.pure ⟨hpq, hw, htext⟩)

theorem stops_alertEntry (msg : Msg) (h : Text m e p s) (hfuel : s.length < fuel)
    (hnull : alertText s = .nullAlert) : ¬Succeeds (alertEntry fuel msg p) m := by
  rw [alertText] at hnull
  rw [alertEntry]
  refine (reads_jsonGetString h hfuel).bind_not_succeeds fun r m₁ h₁ ↦ ?_
  obtain ⟨hfound, rfl, -⟩ | ⟨v, rest, a, q, hfound, rfl, -, -, -, hv⟩ := h₁.inv
  · rw [hfound] at hnull
    exact nomatch hnull
  rw [hfound] at hnull
  rcases v with - | v
  · rcases hv
    exact not_succeeds_bind (not_succeeds_bind (not_succeeds_stop _ _))
  · exact nomatch hnull

/-- The rounds of a loop go by the entries of the text. -/
structure Follows (round : ℕ → Msg → ℕ → Access Round) (entry : Str → BodyEntry) : Prop where
  ends : ∀ {m e p s fuel} msg, Text m e p s → s.length < fuel → entry s ≠ .nullAlert →
    Yields (round fuel msg p) m (RoundEnds e p m (entry s))
  stops : ∀ {m e p s fuel} msg, Text m e p s → s.length < fuel → entry s = .nullAlert →
    ¬Succeeds (round fuel msg p) m
  outside : ∀ {m p fuel} msg, m[p]? = none → ¬Succeeds (round (fuel + 1) msg p) m
  shorter : ∀ {s t}, entry s = .next t → t.length < s.length

theorem not_succeeds_nextName (h : m[p]? = none) : ¬Succeeds (nextName (fuel + 1) p) m :=
  not_succeeds_bind (not_succeeds_bind (not_succeeds_bind (not_succeeds_load h)))

variable {round : ℕ → Msg → ℕ → Access Round} {texts : List Str} {t : Str}

theorem versionText_spec (s : Str) :
    versionText s ≠ .nullAlert ∧ ∀ t, versionText s = .next t → t.length ≤ s.length := by
  rw [versionText]
  split
  · exact ⟨nofun, nofun⟩
  · next hnum => exact ⟨nofun, fun t h ↦ BodyEntry.next.inj h ▸ Jers.length_jsonGetNum_le hnum⟩

theorem dataText_spec (s : Str) :
    dataText s ≠ .nullAlert ∧ ∀ t, dataText s = .next t → t.length ≤ s.length := by
  rw [dataText_eq]
  split
  · next hitems =>
      exact ⟨nofun, fun t h ↦ BodyEntry.next.inj h ▸ (Jers.length_loadItemArray hitems).le⟩
  · exact ⟨nofun, nofun⟩
  · exact ⟨nofun, nofun⟩

theorem fieldsText_spec (s : Str) :
    fieldsText s ≠ .nullAlert ∧ ∀ t, fieldsText s = .next t → t.length ≤ s.length := by
  rw [fieldsText]
  split
  · exact ⟨by simp, by simp⟩
  · next hobj =>
    split
    · exact ⟨by simp, by simp⟩
    · exact ⟨by simp, fun t h ↦ BodyEntry.next.inj h ▸ (Jers.length_jsonGetObject hobj).le⟩

theorem length_alertText (h : alertText s = .next t) : t.length ≤ s.length := by
  rw [alertText] at h
  split at h
  · exact nomatch h
  · exact nomatch h
  · next hstr =>
    obtain rfl := BodyEntry.next.inj h
    exact Jers.length_jsonGetString_le hstr

theorem commandEntry_ne_nullAlert (s : Str) : commandEntry s ≠ .nullAlert := by
  rw [commandEntry]
  split
  · nofun
  · split_ifs
    · exact (versionText_spec _).1
    · exact (dataText_spec _).1
    · exact (fieldsText_spec _).1
    · nofun

theorem follows_commandRound : Follows commandRound commandEntry where
  ends := by
    intro m e p s fuel msg h hfuel _
    rw [commandRound, commandEntry]
    refine (names_nextName h hfuel).bind fun r m₁ h₁ ↦ ?_
    obtain ⟨hname, rfl, -⟩ | ⟨name, rest, ptr, q, hname, rfl, hpq, hw, htext, -⟩ := h₁.inv
    · rw [hname]
      exact .pure trivial
    rw [hname]
    have hlen := Jers.length_jsonGetName hname
    refine Yields.mono (Q := RoundEnds e q m₁ _) ?_ fun r m' hr ↦ hr.of_name hpq htext.le hw
    dsimp only
    split_ifs
    · exact ends_versionEntry msg htext (by omega)
    · exact ends_dataEntry msg htext (by omega)
    · exact ends_fieldsEntry msg htext (by omega)
    · exact .pure ⟨le_rfl, .refl _ _ _, htext⟩
  stops := fun _ _ _ hnull ↦ absurd hnull (commandEntry_ne_nullAlert _)
  outside := fun msg h ↦ not_succeeds_bind (not_succeeds_nextName h)
  shorter := by
    intro s t h
    rw [commandEntry] at h
    split at h
    · exact nomatch h
    · next hname =>
      have hlen := Jers.length_jsonGetName hname
      split_ifs at h
      · exact ((versionText_spec _).2 t h).trans_lt hlen
      · exact ((dataText_spec _).2 t h).trans_lt hlen
      · exact ((fieldsText_spec _).2 t h).trans_lt hlen
      · obtain rfl := BodyEntry.next.inj h
        exact hlen

theorem follows_respRound : Follows respRound respEntry where
  ends := by
    intro m e p s fuel msg h hfuel hnull
    rw [respEntry] at hnull ⊢
    rw [respRound]
    refine (names_nextName h hfuel).bind fun r m₁ h₁ ↦ ?_
    obtain ⟨hname, rfl, -⟩ | ⟨name, rest, ptr, q, hname, rfl, hpq, hw, htext, -⟩ := h₁.inv
    · rw [hname]
      exact .pure trivial
    rw [hname] at hnull ⊢
    have hlen := Jers.length_jsonGetName hname
    refine Yields.mono (Q := RoundEnds e q m₁ _) ?_ fun r m' hr ↦ hr.of_name hpq htext.le hw
    dsimp only at hnull ⊢
    split_ifs at hnull ⊢
    · refine (reads_jsonGetString htext (by omega)).bind fun r m₂ h₂ ↦ ?_
      obtain ⟨-, rfl, -⟩ | ⟨v, rest', a, q', -, rfl, -⟩ := h₂.inv
      · exact .pure trivial
      · exact .pure trivial
    · exact ends_versionEntry msg htext (by omega)
    · exact ends_dataEntry msg htext (by omega)
    · exact ends_alertEntry msg htext (by omega) hnull
    · exact .pure ⟨le_rfl, .refl _ _ _, htext⟩
  stops := by
    intro m e p s fuel msg h hfuel hnull
    rw [respEntry] at hnull
    rw [respRound]
    refine (names_nextName h hfuel).bind_not_succeeds fun r m₁ h₁ ↦ ?_
    obtain ⟨hname, rfl, -⟩ | ⟨name, rest, ptr, q, hname, rfl, hpq, hw, htext, -⟩ := h₁.inv
    · rw [hname] at hnull
      exact nomatch hnull
    rw [hname] at hnull
    have hlen := Jers.length_jsonGetName hname
    dsimp only at hnull ⊢
    split_ifs at hnull ⊢
    · exact absurd hnull (versionText_spec _).1
    · exact absurd hnull (dataText_spec _).1
    · exact stops_alertEntry msg htext (by omega) hnull
  outside := fun msg h ↦ not_succeeds_bind (not_succeeds_nextName h)
  shorter := by
    intro s t h
    rw [respEntry] at h
    split at h
    · exact nomatch h
    · next hname =>
      have hlen := Jers.length_jsonGetName hname
      split_ifs at h
      · exact ((versionText_spec _).2 t h).trans_lt hlen
      · exact ((dataText_spec _).2 t h).trans_lt hlen
      · exact (length_alertText h).trans_lt hlen
      · obtain rfl := BodyEntry.next.inj h
        exact hlen

/-! ### The loop -/

/-- From `p` to the end of the block lie these texts, each with its terminator. -/
def Segments (m : List Char) : ℕ → List Str → Prop
  | p, [] => m[p]? = none
  | p, s :: texts => ∃ e, Text m e p s ∧ Segments m (e + 1) texts

theorem Segments.within_left {a : ℕ} (h : Segments m p texts) (hw : Within a q m m')
    (hq : q ≤ p) : Segments m' p texts := by
  induction texts generalizing p with
  | nil => exact (hw p (.inr hq)).trans h
  | cons s texts ih =>
    obtain ⟨e, htext, hrest⟩ := h
    have hle := htext.le
    exact ⟨e, htext.within_left hw hq, ih hrest (by omega)⟩

/-- The characters of the texts and their terminators. -/
def room (texts : List Str) : ℕ := (texts.map fun s ↦ s.length + 1).sum

theorem room_cons (s : Str) (texts : List Str) : room (s :: texts) = s.length + 1 + room texts := by
  rw [room, map_cons, sum_cons, room]

variable {entry : Str → BodyEntry}

/-- The loop ends exactly when the texts in front of its cursor are bounded. The induction is on the
fuel; a round moves the cursor on in its text or to the start of the next one. -/
theorem bodyLoop_succeeds_iff
    (hround : Follows round entry) (msg : Msg) (h : Segments m p texts)
    (hfuel : room texts < fuel) : Succeeds (bodyLoop round fuel msg p) m ↔ Bounded entry texts := by
  induction fuel generalizing p texts m msg with
  | zero => exact absurd hfuel (Nat.not_lt_zero _)
  | succ fuel ih =>
    rw [bodyLoop]
    rcases texts with - | ⟨s, texts⟩
    · exact iff_of_false (not_succeeds_bind (hround.outside msg h)) id
    obtain ⟨e, htext, hrest⟩ := h
    rw [room_cons] at hfuel
    have hlen : s.length < fuel + 1 := by omega
    by_cases hnull : entry s = .nullAlert
    · exact iff_of_false (not_succeeds_bind (hround.stops msg htext hlen hnull))
        (not_bounded_of_nullAlert hnull)
    obtain ⟨r, m₁, hr, hends⟩ := hround.ends msg htext hlen hnull
    rw [Succeeds, bind_of_ok hr]
    rcases hentry : entry s with - | rest | - | -
    · rw [hentry] at hends
      refine iff_of_true ?_ (bounded_of_last hentry)
      rcases r with - | msg' | ⟨msg', q⟩
      · exact ⟨none, m₁, rfl⟩
      · exact ⟨some msg', m₁, rfl⟩
      · exact hends.elim
    · rw [hentry] at hends
      rw [bounded_iff_of_next hentry]
      rcases r with - | msg' | ⟨msg', q⟩
      · exact hends.elim
      · exact hends.elim
      obtain ⟨hpq, hw, htext'⟩ := hends
      refine ih msg' ⟨e, htext', hrest.within_left hw (htext'.le.trans (Nat.le_succ e))⟩ ?_
      have := hround.shorter hentry
      rw [room_cons]
      omega
    · exact absurd hentry hnull
    · rw [hentry] at hends
      rw [bounded_iff_of_openArray hentry]
      rcases r with - | msg' | ⟨msg', q⟩
      · exact hends.elim
      · exact hends.elim
      obtain ⟨rfl, hw⟩ := hends
      exact ih msg' (hrest.within_left hw (Nat.le_succ e)) (by omega)

/-! ### Messages -/

/-- The value of an error message is copied, unless it is null. -/
theorem error_succeeds_iff {k : Str → Msg} (h : Text m e p s) (hfuel : s.length < fuel) :
    Succeeds (do
      match ← jsonGetString fuel p with
      | none => pure none
      | some (err, _) =>
        let error ← strdup fuel err
        pure (some (k error)) : Access (Option Msg)) m ↔ ∀ r,
        Jers.jsonGetString s ≠ some (none, r) := by
  obtain ⟨r, m₁, hr, h₁⟩ := reads_jsonGetString h hfuel
  rw [Succeeds, bind_of_ok hr]
  obtain ⟨hfound, rfl, -⟩ | ⟨v, rest, a, q, hfound, rfl, hpq, -, htext, hv⟩ := h₁.inv
  · refine iff_of_true ⟨none, m₁, rfl⟩ ?_
    rw [hfound]
    nofun
  rw [hfound]
  rcases v with - | v
  · rcases hv
    exact iff_of_false (not_succeeds_bind (not_succeeds_bind (not_succeeds_stop _ _)))
      fun hne ↦ hne rest rfl
  · refine iff_of_true ⟨_, m₁, bind_of_ok (strdup_eq h hfuel (htext.le.trans (Nat.le_succ e)) hv)⟩
      fun r heq ↦ ?_
    exact nomatch (Prod.mk.inj (some.inj heq)).1

/-- The loop over the body, with the texts behind the body. -/
theorem body_succeeds_iff (hround : Follows round entry) (msg : Msg) (h : Text m e p s)
    (hbehind : Segments m (e + 1) texts) (hfuel : room (s :: texts) < fuel) :
    Succeeds (do
      match ← jsonGetObject fuel p with
      | none => pure none
      | some (cmdObject, _) => bodyLoop round fuel msg cmdObject : Access (Option Msg)) m ↔
      ∀ body tail, Jers.jsonGetObject s = some (body, tail) →
      Bounded entry (body :: tail :: texts) := by
  rw [room_cons] at hfuel
  obtain ⟨r, m₁, hr, h₁⟩ := reads_jsonGetObject h (show s.length < fuel by omega)
  rw [Succeeds, bind_of_ok hr]
  obtain ⟨hobj, rfl, -⟩ | ⟨body, tail, start, q, hobj, rfl, -, hw, htail, hstart, e', hbody, rfl⟩ :=
    h₁.inv
  · exact iff_of_true ⟨none, m₁, rfl⟩ fun _ _ hobj' ↦ nomatch hobj.symm.trans hobj'
  have hlen := h.add_length
  have hbody_len := hbody.add_length
  have htail_len := htail.add_length
  have hsegments : Segments m₁ start (body :: tail :: texts) :=
    ⟨e', hbody, e, htail, hbehind.within_left hw (htail.le.trans (Nat.le_succ e))⟩
  have hroom : room (body :: tail :: texts) < fuel := by
    rw [room_cons, room_cons]
    omega
  refine (bodyLoop_succeeds_iff hround msg hsegments hroom).trans ⟨fun hb _ _ hobj' ↦ ?_,
    fun hb ↦ hb _ _ hobj⟩
  obtain ⟨rfl, rfl⟩ := Prod.mk.inj (mem_unique hobj hobj')
  exact hb

theorem loadMessage_succeeds_iff (hs : '\x00' ∉ s) (hfuel : s.length + 1 < fuel) :
    Succeeds (loadMessage fuel 0) (s ++ ['\x00']) ↔ Sound s := by
  have h : Text (s ++ ['\x00']) s.length 0 s := by
    have := text_append_nul hs [] []
    rwa [nil_append, length_nil, Nat.zero_add] at this
  have hend : (s ++ ['\x00'])[s.length + 1]? = none := by
    rw [List.getElem?_eq_none_iff, length_append, length_singleton]
  rw [loadMessage, Succeeds,
    bind_of_ok (strdup_eq h (Nat.lt_of_succ_lt hfuel)
    le_rfl (.some ⟨le_rfl, _, h, Nat.lt_succ_self _⟩))]
  obtain ⟨r, m₁, hr, h₁⟩ := reads_jsonGetObject h (Nat.lt_of_succ_lt hfuel)
  rw [bind_of_ok hr]
  obtain ⟨hobj, rfl, -⟩ |
    ⟨object, trailing, start, q, hobj, rfl, -, hw₁, htrail, -, e₁, hobject, rfl⟩ := h₁.inv
  · exact iff_of_true ⟨none, m₁, rfl⟩ fun _ _ _ _ hobj' ↦ nomatch hobj.symm.trans hobj'
  have htrail_le := htrail.add_length
  have hobject_le := hobject.add_length
  obtain ⟨r, m₂, hr₂, h₂⟩ := names_nextName hobject (show object.length < fuel by omega)
  show (∃ a m', (nextName fuel start >>= _) m₁ = .ok (a, m')) ↔ _
  rw [bind_of_ok hr₂]
  obtain ⟨hname, rfl, -⟩ | ⟨name, rest, ptr, q₂, hname, rfl, hle₂, hw₂, hrest, -⟩ := h₂.inv
  · refine iff_of_true ⟨none, m₂, rfl⟩ fun _ _ _ _ hobj' hname' ↦ ?_
    obtain ⟨rfl, rfl⟩ := Prod.mk.inj (mem_unique hobj hobj')
    exact nomatch hname.symm.trans hname'
  have hsound : Sound s ↔ _ :=
    ⟨fun h ↦ h object trailing name rest hobj hname, fun h _ _ _ _ hobj' hname' ↦ by
      obtain ⟨rfl, rfl⟩ := Prod.mk.inj (mem_unique hobj hobj')
      obtain ⟨rfl, rfl⟩ := Prod.mk.inj (mem_unique hname hname')
      exact h⟩
  rw [hsound]
  have hrest_le := hrest.add_length
  have hrest_fuel : rest.length < fuel := by omega
  have hbehind : Segments m₂ (e₁ + 1) [trailing] := by
    have hafter : Segments m₁ (e₁ + 1) [trailing] :=
      ⟨_, htrail, (hw₁ _ (.inr (by omega))).trans hend⟩
    exact hafter.within_left hw₂ (hrest.le.trans (Nat.le_succ e₁))
  have hroom : room (rest :: [trailing]) < fuel := by
    rw [room_cons, room_cons, room, map_nil, sum_nil]
    omega
  dsimp only
  split_ifs
  · exact error_succeeds_iff hrest hrest_fuel
  · exact body_succeeds_iff follows_respRound _ hrest hbehind hroom
  · exact body_succeeds_iff follows_commandRound _ hrest hbehind hroom

theorem Returns.sound (hs : '\x00' ∉ s) (h : Returns s) : Sound s := by
  obtain ⟨n, hn⟩ := h
  exact (loadMessage_succeeds_iff hs (by omega)).mp (hn (n + s.length + 2) (by omega))

/-- A line of a buffer holds a string that ends at its first NUL, or at its end. -/
theorem exists_line_eq (line : Str) : ∃ more, line ++ ['\x00'] = line.takeWhile (· ≠ '\x00') ++
    '\x00' :: more := by
  induction line with
  | nil => exact ⟨[], rfl⟩
  | cons c line ih =>
    rcases Decidable.em (c = '\x00') with rfl | hc
    · exact ⟨line ++ ['\x00'], rfl⟩
    · obtain ⟨more, hmore⟩ := ih
      have hwhile : (c :: line).takeWhile (· ≠ '\x00') = c :: line.takeWhile (· ≠ '\x00') :=
        takeWhile_cons_of_pos (by simpa using hc)
      exact ⟨more, by rw [hwhile, cons_append, cons_append, hmore]⟩

/-- Where the parser returns on the string of a line, it touches nothing behind the line. -/
theorem Returns.contained {line : Str} (h : Returns (line.takeWhile (· ≠ '\x00'))) :
    ∃ n r own, own.length = line.length + 1 ∧
      ∀ fuel, n ≤ fuel → ∀ rest, loadMessage fuel 0 (line ++ '\x00' :: rest) = .ok (r, own ++
      rest) := by
  obtain ⟨n, hn⟩ := h
  obtain ⟨r, own, hload⟩ := hn n le_rfl
  obtain ⟨more, hmore⟩ := exists_line_eq line
  refine ⟨n, r, own ++ more, ?_, fun fuel hfuel rest ↦ ?_⟩
  · have hlen := congrArg List.length hmore
    have hown := (extends_loadMessage le_rfl 0 hload).1
    simp only [length_append, length_cons, length_nil] at hlen hown ⊢
    omega
  · have hsame : line ++ '\x00' :: rest = (line.takeWhile (· ≠ '\x00') ++ ['\x00']) ++
        (more ++ rest) := by
      rw [← singleton_append, ← append_assoc, hmore]
      simp only [append_assoc, cons_append, nil_append]
    rw [hsame, append_assoc own]
    exact (extends_loadMessage hfuel 0 hload).2 _

/-- **The parser returns exactly on the sound strings.** -/
theorem loadMessage_returns_iff (s : Str) (hs : '\x00' ∉ s) : Returns s ↔ Sound s := by
  refine ⟨Returns.sound hs, fun hsound ↦ ⟨s.length + 2, fun fuel hfuel ↦ ?_⟩⟩
  exact (loadMessage_succeeds_iff hs (by omega)).mpr hsound

/-- A command with one item: its body is read to the end, and the text behind it is not looked
at. -/
theorem loadMessage_returns_item :
    '\x00' ∉ "\x7b\"GET\":\x7b\"DATA\":[\x7b\"JOBID\":7\x7d],\"VERSION\":1\x7d\x7d".toList ∧
      Returns "\x7b\"GET\":\x7b\"DATA\":[\x7b\"JOBID\":7\x7d],\"VERSION\":1\x7d\x7d".toList := by
  have hs :
    '\x00' ∉ "\x7b\"GET\":\x7b\"DATA\":[\x7b\"JOBID\":7\x7d],\"VERSION\":1\x7d\x7d".toList := by
    decide
  refine ⟨hs, (loadMessage_returns_iff _ hs).mpr fun object trailing name rest hobj hname ↦ ?_⟩
  have hobj' :
      Jers.jsonGetObject
      "\x7b\"GET\":\x7b\"DATA\":[\x7b\"JOBID\":7\x7d],\"VERSION\":1\x7d\x7d".toList =
      some ("\"GET\":\x7b\"DATA\":[\x7b\"JOBID\":7\x7d],\"VERSION\":1\x7d".toList, []) := by decide
  obtain ⟨rfl, rfl⟩ := Prod.mk.inj (mem_unique hobj' hobj)
  have hname' :
      Jers.jsonGetName "\"GET\":\x7b\"DATA\":[\x7b\"JOBID\":7\x7d],\"VERSION\":1\x7d".toList =
      some ("GET".toList, "\x7b\"DATA\":[\x7b\"JOBID\":7\x7d],\"VERSION\":1\x7d".toList) := by
      decide
  obtain ⟨rfl, rfl⟩ := Prod.mk.inj (mem_unique hname' hname)
  rw [if_neg (by decide)]
  intro body tail hbody
  have hbody' : Jers.jsonGetObject "\x7b\"DATA\":[\x7b\"JOBID\":7\x7d],\"VERSION\":1\x7d".toList =
      some ("\"DATA\":[\x7b\"JOBID\":7\x7d],\"VERSION\":1".toList, []) := by decide
  obtain ⟨rfl, rfl⟩ := Prod.mk.inj (mem_unique hbody' hbody)
  rw [if_neg (by decide)]
  have hdata :
      commandEntry "\"DATA\":[\x7b\"JOBID\":7\x7d],\"VERSION\":1".toList =
      .next ",\"VERSION\":1".toList := by
    decide +kernel
  have hversion : commandEntry ",\"VERSION\":1".toList = .next [] := by decide +kernel
  rw [bounded_iff_of_next hdata, bounded_iff_of_next hversion]
  exact bounded_of_last (by decide +kernel)

/-- An error message with a null text, and three item arrays without their brackets: the first ends
with the body, the second with the outer object, and the third with the string. -/
theorem not_returns_null_overrun :
    ¬Returns "\x7b\"ERROR\":null\x7d".toList ∧
      ¬Returns "\x7b\"GET\":\x7b\"DATA\":[\x7d,\"DATA\":[\x7d,\"DATA\":[".toList := by
  constructor
  · intro h
    have hsound :=
      h.sound (by decide) "\"ERROR\":null".toList [] "ERROR".toList "null".toList (by decide)
      (by decide)
    rw [if_pos (by decide)] at hsound
    exact hsound "null".toList (by decide)
  · intro h
    have hsound :=
      h.sound (by decide) "\"GET\":\x7b\"DATA\":[\x7d,\"DATA\":[".toList ",\"DATA\":[".toList
      "GET".toList "\x7b\"DATA\":[\x7d,\"DATA\":[".toList (by decide) (by decide)
    rw [if_neg (by decide)] at hsound
    have hbounded := hsound "\"DATA\":[".toList ",\"DATA\":[".toList (by decide)
    rw [if_neg (by decide)] at hbounded
    have hopen : commandEntry "\"DATA\":[".toList = .openArray := by decide +kernel
    have hopen' : commandEntry ",\"DATA\":[".toList = .openArray := by decide +kernel
    rwa [bounded_iff_of_openArray hopen, bounded_iff_of_openArray hopen',
      bounded_iff_of_openArray hopen'] at hbounded

end Jers.Cursor
