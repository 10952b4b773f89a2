import Jers.Json.Message
import Jers.Server.Types
import Jers.Text.Escape
import Mathlib.Data.List.DropRight

/-!
# The text of the journal

`stateSaveCmd` writes a record with `snprintf`, and `convertJournalEntry` takes it apart with
`sscanf`. User and job ids are unsigned and are written as signed numbers; a user id is read back as
signed and a job id as unsigned, and both come out right (`scanEntry_text`).
-/

namespace Jers.JournalText

open List

/-! ### Writing -/

/-- The bits of an unsigned number as an `int`, as `%d` shows them. -/
def asInt (n : ℕ) : ℤ := Int.bmod n (2 ^ 32)

/-- A number in a field of at least `width` digits, the conversion `%0<width>d`. -/
def padded (width n : ℕ) : Str :=
  List.replicate (width - (int64tostr n).length) '0' ++ int64tostr n

/-- A record as it is given to `stateSaveCmd`, with the time. The message is empty or one that
`load_message` has accepted. -/
structure Record where
  seconds : ℤ
  millis : ℕ
  uid : ℕ
  cmd : Str
  jobid : ℕ
  revision : ℤ
  msg : Str
  seconds_int64 : IsInt64 seconds
  uid_lt : uid < 2 ^ 32
  cmd_ne : cmd ≠ []
  cmd_length : cmd.length ≤ 64
  cmd_visible : ∀ c ∈ cmd, isSpace c = false ∧ c ≠ '\x00'
  jobid_lt : jobid < 2 ^ 32
  revision_int64 : IsInt64 revision
  msg_text : ∀ c ∈ msg, c ≠ '\n' ∧ c ≠ '\x00'
  msg_loads : msg = [] ∨ ∃ m, loadMessage msg = .ok m

/-- What follows the first byte of a record, without the newline. -/
def Record.body (r : Record) : Str :=
  int64tostr r.seconds ++ '.' :: (padded 3 r.millis ++ '\t' :: (int64tostr (asInt r.uid) ++
    '\t' :: (r.cmd ++ '\t' :: (int64tostr (asInt r.jobid) ++ '\t' :: (int64tostr r.revision ++
      '\t' :: r.msg)))))

/-! ### Reading -/

def isDigit (c : Char) : Bool := !(c < '0' ∨ '9' < c)

/-- The number that a conversion of `sscanf` reads, before it is brought into the range of its type,
and the text after it. -/
def scanNumber (s : Str) : Option (ℤ × Str) :=
  let s := s.dropWhile isSpace
  let digits := if s.head? = some '-' ∨ s.head? = some '+' then s.tail else s
  let n := readDecimal 0 digits
  if digits.head?.any isDigit then
    some (if s.head? = some '-' then -n else n, digits.dropWhile isDigit)
  else
    none

/-- `%ld` -/
def scanLong (s : Str) : Option (ℤ × Str) :=
  (scanNumber s).map fun (n, rest) ↦ (max (-2 ^ 63) (min (2 ^ 63 - 1) n), rest)

/-- `%d` -/
def scanInt (s : Str) : Option (ℤ × Str) :=
  (scanLong s).map fun (n, rest) ↦ (Int.bmod n (2 ^ 32), rest)

/-- `%u`: a minus sign negates the number modulo the size of an `unsigned long`, unless it is too
large. -/
def scanUnsigned (s : Str) : Option (ℕ × Str) :=
  (scanNumber s).map fun (n, rest) ↦
    (((if n.natAbs < 2 ^ 64 then n else 2 ^ 64 - 1) % 2 ^ 32).toNat, rest)

/-- `%64s` -/
def scanWord (s : Str) : Option (Str × Str) :=
  let s := s.dropWhile isSpace
  let word := (s.takeWhile fun c ↦ !isSpace c).take 64
  if word = [] then none else some (word, s.drop word.length)

/-- A character of the format that stands for itself. -/
def scanChar (c : Char) (s : Str) : Option Str := if s.head? = some c then some s.tail else none

/-- What `convertJournalEntry` finds in an entry: the fields that it keeps and the text of the
message. -/
structure Scanned where
  time : ℤ
  uid : ℕ
  jobid : ℕ
  revision : ℤ
  json : Str
  deriving DecidableEq, Repr

/-- The format ` %ld.%d\t%d\t%64s\t%u\t%ld\t%n`. A tab stands for any whitespace, which the
conversions skip anyway, but for the one before `%n`. -/
def scanEntry (entry : Str) : Option Scanned := do
  let (time, s) ← scanLong entry
  let s ← scanChar '.' s
  let (_, s) ← scanInt s
  let (uid, s) ← scanInt s
  let (_, s) ← scanWord s
  let (jobid, s) ← scanUnsigned s
  let (revision, s) ← scanLong s
  some { time, uid := (uid % 2 ^ 32).toNat, jobid, revision, json := s.dropWhile isSpace }

/-- A command that is replayed, with the values of `server.recovery`. -/
structure Replayed extends Scanned where
  msg : Msg

/-- `convertJournalEntry`: the message, if there is one. -/
def convertJournalEntry (entry : Str) : Except Fault (Option Replayed) :=
  match scanEntry entry with
  | none => .error .errorDie
  | some x =>
    if x.json = [] then .ok none
    else
      match loadMessage x.json with
      | .ok msg => .ok (some { x with msg })
      | .error .invalid => .error .errorDie
      | .error .nullDeref => .error .nullDeref
      | .error .overrun => .error .outOfBounds

/-! ### Numbers are read back -/

variable {s w t : Str} {c : Char} {n : ℤ}

theorem isDigit_eq_false : isDigit c = false ↔ c < '0' ∨ '9' < c := by
  rw [isDigit, Bool.not_eq_false', decide_eq_true_iff]

theorem isDigit_digitChar {d : ℕ} (h : d < 10) : isDigit (Nat.digitChar d) = true := by
  rw [← Bool.not_eq_false, isDigit_eq_false]
  exact (digitChar_bounds h).1

theorem dropWhile_isDigit_of_notDigitHead (h : NotDigitHead s) : s.dropWhile isDigit = s := by
  cases s with
  | nil => rfl
  | cons c t => exact dropWhile_cons_of_neg (by simp [isDigit_eq_false.mpr (h c t rfl)])

theorem notDigitHead_cons (h : isDigit c = false) (s : Str) : NotDigitHead (c :: s) := by
  rintro _ _ ⟨rfl, rfl⟩
  exact isDigit_eq_false.mp h

/-- Text of decimal digits. -/
def IsDigits (t : Str) : Prop := ∀ c ∈ t, ∃ d < 10, c = Nat.digitChar d

theorem IsDigits.dropWhile (h : IsDigits t) (hs : NotDigitHead s) :
    (t ++ s).dropWhile isDigit = s := by
  rw [dropWhile_append_of_pos, dropWhile_isDigit_of_notDigitHead hs]
  intro c hc
  obtain ⟨d, hd, rfl⟩ := h c hc
  exact isDigit_digitChar hd

theorem isDigits_digitsRev (v : ℕ) : IsDigits (digitsRev v).reverse :=
  fun _ hc ↦ mem_digitsRev (mem_reverse.mp hc)

theorem dropWhile_isSpace (hw : ∀ c ∈ w, isSpace c = true) (hc : isSpace c = false) (s : Str) :
    (w ++ c :: s).dropWhile isSpace = c :: s := by
  rw [dropWhile_append_of_pos hw, dropWhile_cons_of_neg (by simp [hc])]

/-- A number without a sign. -/
theorem scanNumber_digits (hw : ∀ c ∈ w, isSpace c = true) (ht : IsDigits t) (hne : t ≠ [])
    (hs : NotDigitHead s) :
    scanNumber (w ++ (t ++ s)) = some ((readDecimal 0 (t ++ s) : ℤ), s) := by
  obtain ⟨c, t, rfl⟩ := exists_cons_of_ne_nil hne
  obtain ⟨d, hd, hc⟩ := ht c mem_cons_self
  obtain ⟨hspace, hminus, hplus⟩ := digitChar_not_sign hd
  have hdigit := isDigit_digitChar hd
  rw [← hc] at hspace hminus hplus hdigit
  have hrest := ht.dropWhile hs
  rw [cons_append] at hrest ⊢
  simp only [scanNumber, dropWhile_isSpace hw hspace, head?_cons, Option.some.injEq, hminus, hplus,
    or_self, if_false, Option.any_some, hdigit, if_true, hrest]

/-- A number with a minus sign. -/
theorem scanNumber_minus (hw : ∀ c ∈ w, isSpace c = true) (ht : IsDigits t) (hne : t ≠ [])
    (hs : NotDigitHead s) :
    scanNumber (w ++ ('-' :: (t ++ s))) = some (-(readDecimal 0 (t ++ s) : ℤ), s) := by
  have hdigit : ((t ++ s).head?).any isDigit = true := by
    obtain ⟨c, t, rfl⟩ := exists_cons_of_ne_nil hne
    obtain ⟨d, hd, rfl⟩ := ht c mem_cons_self
    exact isDigit_digitChar hd
  simp only [scanNumber, dropWhile_isSpace hw (show isSpace '-' = false by decide), head?_cons,
    true_or, if_true, tail_cons, hdigit, ht.dropWhile hs]

/-- **`sscanf` reads what `printf` has written.** -/
theorem scanNumber_int64tostr (hw : ∀ c ∈ w, isSpace c = true) (hn : IsInt64 n)
    (hs : NotDigitHead s) : scanNumber (w ++ (int64tostr n ++ s)) = some (n, s) := by
  have hdigits := isDigits_digitsRev n.natAbs
  have hne : (digitsRev n.natAbs).reverse ≠ [] := by simp [digitsRev_ne_nil]
  rw [int64tostr_eq hn, append_assoc]
  split
  · rw [singleton_append, scanNumber_minus hw hdigits hne hs, readDecimal_digitsRev _ hs]
    exact congrArg (fun v ↦ some (v, s)) (by omega)
  · rw [nil_append, scanNumber_digits hw hdigits hne hs, readDecimal_digitsRev _ hs]
    exact congrArg (fun v ↦ some (v, s)) (by omega)

/-- A padded number is a number. -/
theorem exists_scanInt_padded (width n : ℕ) (hs : NotDigitHead s) :
    ∃ v, scanInt (padded width n ++ s) = some (v, s) := by
  have hdigits : IsDigits (padded width n) := by
    intro c hc
    rcases mem_append.mp hc with hzero | hnum
    · exact ⟨0, by decide, eq_of_mem_replicate hzero⟩
    · rcases mem_int64tostr hnum with rfl | hdigit
      · -- a number that is not negative has no sign
        have hnot : ¬ (n : ℤ) < 0 := by omega
        simp only [int64tostr, hnot, if_false, append_nil] at hnum
        exact isDigits_digitsRev _ _ hnum
      · exact hdigit
  have hne : padded width n ≠ [] := by simp [padded, int64tostr_ne_nil]
  have hscan := scanNumber_digits (w := []) (by simp) hdigits hne hs
  rw [nil_append] at hscan
  exact ⟨_, by rw [scanInt, scanLong, hscan]; rfl⟩

theorem scanLong_int64tostr (hw : ∀ c ∈ w, isSpace c = true) (hn : IsInt64 n)
    (hs : NotDigitHead s) : scanLong (w ++ (int64tostr n ++ s)) = some (n, s) := by
  have hrange : max (-2 ^ 63) (min (2 ^ 63 - 1) n) = n := by
    obtain ⟨hlow, hhigh⟩ := hn
    omega
  simp only [scanLong, scanNumber_int64tostr hw hn hs, Option.map_some, hrange]

theorem isInt32_asInt (n : ℕ) : IsInt32 (asInt n) := isInt32_bmod n

theorem asInt_emod {n : ℕ} (h : n < 2 ^ 32) : (asInt n % 2 ^ 32).toNat = n := by
  have hlt : (n : ℤ) < 2 ^ 32 := by omega
  have heq : asInt n % 2 ^ 32 = n := bmod_emod_of_lt (Int.natCast_nonneg n) hlt
  rw [heq]
  exact Int.toNat_natCast n

theorem scanInt_int64tostr (hw : ∀ c ∈ w, isSpace c = true) (hn : IsInt32 n) (hs : NotDigitHead s) :
    scanInt (w ++ (int64tostr n ++ s)) = some (n, s) := by
  simp only [scanInt, scanLong_int64tostr hw hn.isInt64 hs, Option.map_some, hn.bmod_eq]

/-- A job id that is written as a negative number is read as the unsigned number it was. -/
theorem scanUnsigned_int64tostr (hw : ∀ c ∈ w, isSpace c = true) {n : ℕ} (hn : n < 2 ^ 32)
    (hs : NotDigitHead s) : scanUnsigned (w ++ (int64tostr (asInt n) ++ s)) = some (n, s) := by
  have hsmall : (asInt n).natAbs < 2 ^ 64 := by
    obtain ⟨hlow, hhigh⟩ := isInt32_asInt n
    omega
  rw [scanUnsigned, scanNumber_int64tostr hw (isInt32_asInt n).isInt64 hs, Option.map_some]
  simp only [hsmall, if_true, asInt_emod hn]

theorem scanWord_cmd {cmd : Str} (hw : ∀ c ∈ w, isSpace c = true) (hne : cmd ≠ [])
    (hlength : cmd.length ≤ 64) (hcmd : ∀ c ∈ cmd, isSpace c = false) :
    scanWord (w ++ (cmd ++ '\t' :: s)) = some (cmd, '\t' :: s) := by
  have hstart : (w ++ (cmd ++ '\t' :: s)).dropWhile isSpace = cmd ++ '\t' :: s := by
    obtain ⟨c, t, rfl⟩ := exists_cons_of_ne_nil hne
    exact dropWhile_isSpace hw (hcmd c mem_cons_self) _
  have hword : (cmd ++ '\t' :: s).takeWhile (fun c ↦ !isSpace c) = cmd := by
    rw [takeWhile_append_of_pos fun c hc ↦ by simp [hcmd c hc],
      takeWhile_cons_of_neg (by decide), append_nil]
  simp only [scanWord, hstart, hword, take_of_length_le hlength, hne, if_false, drop_left]

/-! ### Records are read back -/

/-- What a record says, apart from leading whitespace of its message. -/
def Record.scanned (r : Record) : Scanned where
  time := r.seconds
  uid := r.uid
  jobid := r.jobid
  revision := r.revision
  json := r.msg.dropWhile isSpace

theorem isSpace_tab : ∀ c ∈ ['\t'], isSpace c = true := by decide

/-- **An entry of the journal is read back.** -/
theorem scanEntry_body (r : Record) (hw : ∀ c ∈ w, isSpace c = true) :
    scanEntry (w ++ r.body) = some r.scanned := by
  have htab (s : Str) : NotDigitHead ('\t' :: s) := notDigitHead_cons (by decide) s
  obtain ⟨millis, hmillis⟩ := exists_scanInt_padded 3 r.millis (htab (int64tostr (asInt r.uid) ++
    '\t' :: (r.cmd ++ '\t' :: (int64tostr (asInt r.jobid) ++ '\t' :: (int64tostr r.revision ++
      '\t' :: r.msg)))))
  refine Option.bind_eq_some_iff.mpr
    ⟨_, scanLong_int64tostr hw r.seconds_int64 (notDigitHead_cons (by decide) _), ?_⟩
  refine Option.bind_eq_some_iff.mpr ⟨_, if_pos rfl, ?_⟩
  refine Option.bind_eq_some_iff.mpr ⟨_, hmillis, ?_⟩
  refine Option.bind_eq_some_iff.mpr
    ⟨_, scanInt_int64tostr isSpace_tab (isInt32_asInt r.uid) (htab _), ?_⟩
  refine Option.bind_eq_some_iff.mpr
    ⟨_, scanWord_cmd isSpace_tab r.cmd_ne r.cmd_length fun c hc ↦ (r.cmd_visible c hc).1, ?_⟩
  refine Option.bind_eq_some_iff.mpr ⟨_,
    scanUnsigned_int64tostr isSpace_tab r.jobid_lt (htab _), ?_⟩
  refine Option.bind_eq_some_iff.mpr ⟨_,
    scanLong_int64tostr isSpace_tab r.revision_int64 (htab _), ?_⟩
  dsimp only
  rw [asInt_emod r.uid_lt, dropWhile_cons_of_pos (by decide), Record.scanned]

theorem skipWhitespace_idem (s : Str) : skipWhitespace (skipWhitespace s) = skipWhitespace s :=
  dropWhile_idempotent isBlank s

/-- A message that is accepted starts with a brace, so what is dropped is what `load_message`
skips. -/
theorem dropWhile_isSpace_of_loads {m : Msg} (h : loadMessage s = .ok m) :
    s.dropWhile isSpace = skipWhitespace s ∧ skipWhitespace s ≠ [] := by
  obtain ⟨start, hstart⟩ : ∃ start, skipWhitespace s = '{' :: start := by
    rw [loadMessage, jsonGetObject] at h
    split at h
    · exact nomatch h
    · next hobject =>
      split at hobject
      · next start hstart => exact ⟨start, hstart⟩
      · exact nomatch hobject
  refine ⟨?_, by simp [hstart]⟩
  have hblank : ∀ c ∈ s.takeWhile isBlank, isSpace c = true := by
    intro c hc
    have hc' := mem_takeWhile_imp hc
    rcases Bool.or_eq_true_iff.mp hc' with hspace | htab
    · simp [isSpace, eq_of_beq hspace]
    · rw [eq_of_beq htab]
      decide
  have hsplit : s = s.takeWhile isBlank ++ '{' :: start := by
    rw [← hstart, skipWhitespace, takeWhile_append_dropWhile]
  rw [hstart]
  conv_lhs => rw [hsplit]
  exact dropWhile_isSpace hblank (by decide) start

theorem loadMessage_skipWhitespace (s : Str) : loadMessage (skipWhitespace s) = loadMessage s := by
  rw [loadMessage, loadMessage, jsonGetObject, jsonGetObject, skipWhitespace_idem]

/-- A replayed command is the one that was recorded. -/
def Recovers (x : Replayed) (r : Record) : Prop :=
  x.toScanned = r.scanned ∧ loadMessage r.msg = .ok x.msg

theorem convertJournalEntry_empty {r : Record} (hw : ∀ c ∈ w, isSpace c = true)
    (hmsg : r.msg = []) : convertJournalEntry (w ++ r.body) = .ok none := by
  have hjson : r.scanned.json = [] := by simp [Record.scanned, hmsg]
  simp only [convertJournalEntry, scanEntry_body r hw, hjson, if_true]

theorem convertJournalEntry_loads {r : Record} (hw : ∀ c ∈ w, isSpace c = true)
    (hmsg : r.msg ≠ []) : ∃ x, convertJournalEntry (w ++ r.body) = .ok (some x) ∧ Recovers x r := by
  obtain ⟨m, hm⟩ := r.msg_loads.resolve_left hmsg
  obtain ⟨hdrop, hne⟩ := dropWhile_isSpace_of_loads hm
  have hjson : r.scanned.json = skipWhitespace r.msg := hdrop
  refine ⟨{ r.scanned with msg := m }, ?_, rfl, hm⟩
  simp only [convertJournalEntry, scanEntry_body r hw, hjson, hne, if_false,
    loadMessage_skipWhitespace, hm]

end Jers.JournalText
