import Jers.Text.Chars
import Mathlib.Algebra.Ring.Int.Defs
import Mathlib.Data.List.Infix

/-!
# The space of a journal

The space of a journal is allocated in blocks of zeros behind its records. When a journal is opened
again, `findJournalEnd` looks for the first zero and counts the records before it. It reads into a
buffer that is not cleared between two reads, so that newlines of an earlier chunk are counted again
behind a shorter one.

`stateSaveCmd` extends the journal by one block when a record would reach the last one. That keeps
the last block free as long as no record is longer than the space that is left (`kept_iff_fits`).

`extendJournal` adds the result of `pwrite` to its offset even if the call has been interrupted. It
fills the new space and nothing else if there are never more interruptions than bytes written
(`fills_iff`).
-/

namespace Jers

open List

/-- What a system call that transfers bytes returns. -/
inductive Syscall
  | count (n : ℕ)
  /-- `EINTR` -/
  | interrupted
  | failed
  deriving DecidableEq, Repr

namespace JournalSpace

/-! ### The end of a journal -/

/-- A read overwrites the start of the buffer. -/
def fill (chunk data : Str) : Str := chunk ++ data.drop chunk.length

/-- The newlines that `strchr` finds. The byte behind the buffer is zero. -/
def countRecords (data : Str) : ℕ := (data.takeWhile (· != '\x00')).count '\n'

/-- The end of the records and their number. The file is read in chunks, into a buffer with some
data. -/
def findJournalEnd : List Str → Str → Option (ℕ × ℕ)
  | [], _ => some (0, 0)
  | chunk :: chunks, data =>
    let data := fill chunk data
    if chunk.getLast? = some '\x00' then
      let i := (chunk.takeWhile (· != '\x00')).length
      -- `error_die`
      if chunk.length ≤ i then none else some (i, countRecords data)
    else
      (findJournalEnd chunks data).map fun r ↦ (chunk.length + r.1, countRecords data + r.2)

/-- No newline of an earlier chunk is left behind a chunk without a zero. -/
def NoneStale : List Str → Str → Prop
  | [], _ => True
  | chunk :: chunks, data =>
    ('\x00' ∈ chunk ∨ countRecords (data.drop chunk.length) = 0) ∧
    NoneStale chunks (fill chunk data)

variable {chunks : List Str} {chunk data text : Str} {z : ℕ}

theorem takeWhile_append_of_notMem (h : '\x00' ∉ chunk) :
    (chunk ++ data).takeWhile (· != '\x00') = chunk ++ data.takeWhile (· != '\x00') := by
  refine takeWhile_append_of_pos fun c hc ↦ ?_
  rw [bne_iff_ne]
  rintro rfl
  exact h hc

theorem countRecords_append_of_notMem (h : '\x00' ∉ chunk) :
    countRecords (chunk ++ data) = chunk.count '\n' + countRecords data := by
  rw [countRecords, takeWhile_append_of_notMem h, count_append, countRecords]

theorem noneStale_of_zeros (h : ∀ chunk ∈ chunks, '\x00' ∈ chunk) : NoneStale chunks data := by
  induction chunks generalizing data with
  | nil => trivial
  | cons chunk chunks ih =>
    exact ⟨.inl (h chunk mem_cons_self), ih fun c hc ↦ h c (mem_cons_of_mem _ hc)⟩

/-- The offset is always right, and stale newlines come on top of the records. -/
theorem findJournalEnd_spec (data : Str) (htext : '\x00' ∉ text) (hne : ∀ chunk ∈ chunks,
    chunk ≠ []) (hfile : chunks.flatten = text ++ List.replicate z '\x00') :
    ∃ stale, findJournalEnd chunks data = some (text.length, text.count '\n' + stale) ∧
      (stale = 0 ↔ NoneStale chunks data) := by
  induction chunks generalizing text data with
  | nil =>
    obtain ⟨rfl, -⟩ := append_eq_nil_iff.mp hfile.symm
    exact ⟨0, rfl, iff_of_true rfl trivial⟩
  | cons chunk chunks ih =>
    rw [flatten_cons] at hfile
    by_cases hzero : '\x00' ∈ chunk
    · -- the chunk holds the end of the records, and the rest of the file is zeros
      obtain ⟨tail, rfl, htail⟩ : ∃ tail, chunk = text ++ tail ∧
          replicate z '\x00' = tail ++ chunks.flatten := by
        rcases append_eq_append_iff.mp hfile with ⟨t, rfl, -⟩ | htail
        · exact absurd (mem_append_left _ hzero) htext
        · exact htail
      have hzeros {c : Char} (hc : c ∈ tail ++ chunks.flatten) : c = '\x00' :=
        eq_of_mem_replicate (htail ▸ hc)
      have hstale : NoneStale ((text ++ tail) :: chunks) data := by
        refine ⟨.inl hzero, noneStale_of_zeros fun c hc ↦ ?_⟩
        obtain ⟨x, c, rfl⟩ := exists_cons_of_ne_nil (hne c (mem_cons_of_mem _ hc))
        rw [hzeros (mem_append_right _ (mem_flatten_of_mem hc mem_cons_self))]
        exact mem_cons_self
      obtain ⟨tail, rfl⟩ : ∃ tail', tail = '\x00' :: tail' := by
        cases tail with
        | nil => exact absurd (by simpa using hzero) htext
        | cons c tail => exact ⟨tail, by rw [hzeros mem_cons_self]⟩
      have hlast : (text ++ '\x00' :: tail).getLast? = some '\x00' := by
        have hc := getLast?_eq_some_getLast (cons_ne_nil '\x00' tail)
        rw [getLast?_append, hc, hzeros (mem_append_left _ (mem_of_getLast? hc))]
        rfl
      have htake (u : Str) : (text ++ '\x00' :: u).takeWhile (· != '\x00') = text := by
        simp [takeWhile_append_of_notMem htext]
      refine ⟨0, ?_, iff_of_true rfl hstale⟩
      simp [findJournalEnd, hlast, htake, countRecords, fill]
    · obtain ⟨t, rfl, ht⟩ : ∃ t, text = chunk ++ t ∧ chunks.flatten = t ++ replicate z '\x00' := by
        rcases append_eq_append_iff.mp hfile with ⟨t, rfl, ht⟩ | ⟨tail, rfl, htail⟩
        · exact ⟨t, rfl, ht⟩
        · cases tail with
          | nil => exact ⟨[], by simp, by simpa using htail.symm⟩
          | cons c tail =>
            have hc : c = '\x00' := eq_of_mem_replicate (n := z) (by simp [htail])
            exact absurd (by simp [hc]) hzero
      obtain ⟨stale, hend, hiff⟩ := ih (fill chunk data) (fun h ↦ htext (mem_append_right _ h))
        (fun c hc ↦ hne c (mem_cons_of_mem _ hc)) ht
      refine ⟨countRecords (data.drop chunk.length) + stale, ?_, ?_⟩
      · rw [findJournalEnd, if_neg fun h ↦ hzero (mem_of_getLast? h), hend, Option.map_some,
          fill, countRecords_append_of_notMem hzero, length_append, count_append]
        congr 2
        omega
      · rw [NoneStale, Nat.add_eq_zero_iff, hiff, or_iff_right hzero]

/-- **The end of a journal is found**, and the records are counted right exactly if no stale newline
is left behind a chunk. -/
theorem findJournalEnd_eq_iff {records : List Str}
    (hrecords : ∀ r ∈ records, ∃ line, r = line ++ ['\n'] ∧ '\n' ∉ line ∧ '\x00' ∉ line)
    (hne : ∀ chunk ∈ chunks, chunk ≠ [])
    (hfile : chunks.flatten = records.flatten ++ List.replicate z '\x00') :
    findJournalEnd chunks data = some (records.flatten.length, records.length) ↔
    NoneStale chunks data := by
  have htext : '\x00' ∉ records.flatten := by
    intro h
    obtain ⟨r, hr, hmem⟩ := mem_flatten.mp h
    obtain ⟨line, rfl, -, hline⟩ := hrecords r hr
    exact hline (by simpa using hmem)
  have hcount : records.flatten.count '\n' = records.length := by
    clear hfile htext
    induction records with
    | nil => rfl
    | cons r records ih =>
      obtain ⟨line, rfl, hline, -⟩ := hrecords r mem_cons_self
      rw [flatten_cons, count_append, ih fun r hr ↦ hrecords r (mem_cons_of_mem _ hr),
        count_append, count_eq_zero_of_not_mem hline, length_cons]
      simp [Nat.add_comm]
  obtain ⟨stale, hend, hiff⟩ := findJournalEnd_spec data htext hne hfile
  rw [hend, hcount, ← hiff]
  simp

/-- A file with one record, read in two chunks. -/
theorem findJournalEnd_one_record :
    findJournalEnd [" a\n".toList, ['\x00']] (List.replicate 8192 '\x00') = some (3, 1) := by
  have hrecords : ∀ r ∈ [" a\n".toList], ∃ line, r = line ++ ['\n'] ∧ '\n' ∉ line ∧
      '\x00' ∉ line := by
    intro r hr
    exact ⟨" a".toList, by simpa using hr, by decide, by decide⟩
  refine (findJournalEnd_eq_iff (z := 1) hrecords (by decide) rfl).mpr ?_
  exact ⟨.inr (by decide), .inl (by decide), trivial⟩

/-- The newline of the first record is behind the next chunk, and behind the one after it. -/
theorem findJournalEnd_counts_twice :
    [" a\n".toList, " b".toList, ['\n']].flatten = " a\n b\n".toList ∧
    findJournalEnd [" a\n".toList, " b".toList, ['\n']] (List.replicate 8192 '\x00') = some (6,
    4) := by
  decide

/-! ### The reserve -/

/-- The part of `server.journal` that the allocation of space uses. -/
structure Journal where
  len : ℕ
  size : ℕ
  limit : ℕ

/-- A journal that exists: the length of its records, and its size. -/
structure Found where
  len : ℕ
  size : ℕ
  le : len ≤ size

/-- A call of `stateSaveCmd`. At a rollover the journal of the new day is created, or one is
found. -/
structure Call where
  rollover : Option (Option Found)
  length : ℕ
  written : ℕ
  le : written ≤ length

variable (block : ℕ)

/-- `extendJournal`, if it succeeds. -/
def extendJournal (j : Journal) : Journal :=
  let size := j.size + block + if j.limit = 0 then block else 0
  { j with size, limit := size - block }

def openStateFile : Option Found → Journal
  | none => ⟨0, 0, 0⟩
  | some f => ⟨f.len, f.size, if f.size ≤ block then f.len else f.size - block⟩

/-- The journal that a record goes to. -/
def rollOver (j : Journal) : Option (Option Found) → Journal
  | none => j
  | some found =>
    let j := openStateFile block found
    if j.size = 0 ∨ j.limit ≤ j.len then extendJournal block j else j

def stateSaveCmd (j : Journal) (c : Call) : Journal :=
  let j := rollOver block j c.rollover
  let j := if j.limit ≤ j.len + c.length then extendJournal block j else j
  { j with len := j.len + c.written }

/-- After each call a block is free behind the records. -/
def Kept (j : Journal) : List Call → Prop
  | [] => True
  | c :: calls =>
    (stateSaveCmd block j c).len + block ≤ (stateSaveCmd block j c).size ∧
      Kept (stateSaveCmd block j c) calls

/-- Each record fits into the space that is there before it is extended for the record. -/
def Fits (j : Journal) : List Call → Prop
  | [] => True
  | c :: calls =>
    (rollOver block j c.rollover).len + c.written ≤ (rollOver block j c.rollover).size ∧
      Fits (stateSaveCmd block j c) calls

/-- The limit is one block before the end, and only an empty block can make it zero. -/
def Limited (j : Journal) : Prop := j.limit + block = j.size ∧ (j.limit = 0 → block = 0)

variable {block} {j : Journal}

theorem limited_extendJournal (h : j.limit = 0 ∨ j.size ≠ 0) :
    Limited block (extendJournal block j) := by
  unfold extendJournal Limited
  dsimp only
  split <;> omega

theorem limited_openStateFile (found : Option Found) :
    Limited block (rollOver block j (some found)) := by
  have hle : ∀ f : Found, f.len ≤ f.size := Found.le
  unfold rollOver
  dsimp only
  split
  · refine limited_extendJournal ?_
    cases found with
    | none => exact .inl rfl
    | some f =>
      have := hle f
      unfold openStateFile
      dsimp only
      split <;> omega
  · next hroom =>
    cases found with
    | none => exact absurd (.inl rfl) hroom
    | some f =>
      unfold openStateFile at hroom ⊢
      unfold Limited
      dsimp only at hroom ⊢
      by_cases hsize : f.size ≤ block
      · rw [if_pos hsize] at hroom ⊢
        omega
      · rw [if_neg hsize] at hroom ⊢
        omega

/-- One call keeps the limit, and it keeps a block free exactly if its record fits. -/
theorem stateSaveCmd_spec {c : Call} (h : Limited block (rollOver block j c.rollover)) :
    Limited block (stateSaveCmd block j c) ∧
      ((stateSaveCmd block j c).len + block ≤ (stateSaveCmd block j c).size ↔
        (rollOver block j c.rollover).len + c.written ≤ (rollOver block j c.rollover).size) := by
  have hle := c.le
  unfold stateSaveCmd
  generalize rollOver block j c.rollover = u at h ⊢
  unfold Limited at h ⊢
  dsimp only
  split
  · unfold extendJournal
    dsimp only
    split <;> omega
  · omega

theorem kept_iff_fits_of_limited {calls : List Call} (h : Limited block j) :
    Kept block j calls ↔ Fits block j calls := by
  induction calls generalizing j with
  | nil => exact Iff.rfl
  | cons c calls ih =>
    have hroll : Limited block (rollOver block j c.rollover) := by
      cases hc : c.rollover with
      | none => exact h
      | some found => exact limited_openStateFile found
    obtain ⟨hnext, hiff⟩ := stateSaveCmd_spec hroll
    exact and_congr hiff (ih hnext)

/-- **The reserve is kept** by every sequence of calls whose records each fit, and by no other. The
first call of all opens a journal. -/
theorem kept_iff_fits {c : Call} {calls : List Call} (h : c.rollover.isSome = true) :
    Kept block ⟨0, 0, 0⟩ (c :: calls) ↔ Fits block ⟨0, 0, 0⟩ (c :: calls) := by
  obtain ⟨found, hfound⟩ := Option.isSome_iff_exists.mp h
  have hroll : Limited block (rollOver block ⟨0, 0, 0⟩ c.rollover) :=
    hfound ▸ limited_openStateFile found
  obtain ⟨hnext, hiff⟩ := stateSaveCmd_spec hroll
  exact and_congr hiff (kept_iff_fits_of_limited hnext)

/-- Two records of the length of a block. -/
theorem kept_two_records :
    Kept 10 ⟨0, 0, 0⟩ [⟨some none, 10, 10, le_rfl⟩, ⟨none, 10, 10, le_rfl⟩] :=
  (kept_iff_fits rfl).mpr ⟨by decide, by decide, trivial⟩

/-- A record of more than two blocks. -/
theorem not_kept_long_record : ¬ Kept 10 ⟨0, 0, 0⟩ [⟨some none, 25, 25, le_rfl⟩] :=
  fun h ↦ absurd h.1 (by decide)

/-! ### Filling the new space -/

/-- The loop of `extendJournal`: the offsets and lengths of its writes, if it ends with just these
results of `pwrite`. -/
def fillLoop (fillSize offset : ℤ) : List Syscall → Option (List (ℤ × ℕ))
  | [] => if fillSize = 0 then some [] else none
  | .count n :: results =>
    if fillSize = 0 ∨ fillSize < n then none
    else (fillLoop (fillSize - n) (offset + n) results).map ((offset, n) :: ·)
  -- the result is -1, and it is used as a count
  | .interrupted :: results =>
    if fillSize = 0 then none else fillLoop (fillSize + 1) (offset - 1) results
  | .failed :: _ => none

/-- The byte is written. -/
def Written (writes : List (ℤ × ℕ)) (i : ℤ) : Prop := ∃ w ∈ writes, w.1 ≤ i ∧ i < w.1 + w.2

/-- Exactly the new space is written, and nothing less would have filled it. -/
def Fills (size newSize : ℤ) (writes : List (ℤ × ℕ)) : Prop :=
  (∀ i, Written writes i ↔ size ≤ i ∧ i < newSize) ∧
    ∀ front, front <+: writes → front ≠ writes → ∃ i, size ≤ i ∧ i < newSize ∧ ¬ Written front i

/-- The bytes written, less the interruptions. -/
def progress (results : List Syscall) : ℤ :=
  (results.map fun r ↦ match r with
    | .count n => (n : ℤ)
    | .interrupted => -1
    | .failed => 0).sum

variable {fillSize offset size : ℤ} {results : List Syscall} {writes : List (ℤ × ℕ)}

theorem written_cons {w : ℤ × ℕ} {i : ℤ} :
    Written (w :: writes) i ↔ (w.1 ≤ i ∧ i < w.1 + w.2) ∨ Written writes i :=
  exists_mem_cons_iff ..

theorem fillLoop_zero (h : fillLoop 0 offset results = some writes) : writes = [] := by
  cases results with
  | nil => exact (Option.some.inj h).symm
  | cons r results => cases r <;> simp [fillLoop] at h

/-- What the loop writes ends where it should, and has no gap. Its last byte is written last. -/
theorem fillLoop_end (h : fillLoop fillSize offset results = some writes) (hfill : 0 ≤ fillSize) :
    (∀ i, Written writes i → i < offset + fillSize) ∧
      (∀ i, offset ≤ i → i < offset + fillSize → Written writes i) ∧
      ∀ front, front <+: writes → front ≠ writes → ∀ i, Written front i →
      i + 1 < offset + fillSize := by
  fun_induction fillLoop fillSize offset results generalizing writes with
  | case1 offset =>
    obtain rfl := Option.some.inj h
    refine ⟨fun i hi ↦ absurd hi (by simp [Written]), fun i _ _ ↦ by omega, fun front hpre hne ↦ ?_⟩
    exact absurd (prefix_nil.mp hpre) hne
  | case2 | case3 | case5 | case7 => contradiction
  | case4 fillSize offset n results hn ih =>
    obtain ⟨rest, hrest, rfl⟩ := Option.map_eq_some_iff.mp h
    obtain ⟨hbelow, hall, hlast⟩ := ih hrest (by omega)
    have heq : offset + n + (fillSize - n) = offset + fillSize := by omega
    rw [heq] at hbelow hall hlast
    refine ⟨fun i hi ↦ ?_, fun i hlow hi ↦ ?_, fun front hpre hne i hi ↦ ?_⟩
    · rcases written_cons.mp hi with hi | hi
      · omega
      · exact hbelow i hi
    · by_cases hin : i < offset + n
      · exact written_cons.mpr (.inl ⟨hlow, hin⟩)
      · exact written_cons.mpr (.inr (hall i (by omega) hi))
    · rcases prefix_cons_iff.mp hpre with rfl | ⟨front, rfl, hfront⟩
      · exact absurd hi (by simp [Written])
      have hne : front ≠ rest := fun he ↦ hne (he ▸ rfl)
      rcases written_cons.mp hi with hi | hi
      · -- had the write ended the loop, it would be the last
        have hmore : fillSize ≠ n := by
          rintro rfl
          rw [Int.sub_self] at hrest
          have hdone := fillLoop_zero hrest
          exact hne (hdone ▸ prefix_nil.mp (hdone ▸ hfront))
        omega
      · exact hlast front hfront hne i hi
  | case6 fillSize offset results hzero ih =>
    obtain ⟨hbelow, hall, hlast⟩ := ih h (by omega)
    have heq : offset - 1 + (fillSize + 1) = offset + fillSize := by omega
    rw [heq] at hbelow hall hlast
    exact ⟨hbelow, fun i hi ↦ hall i (by omega), hlast⟩

/-- A bound holds at every point if it holds at the start and at every point of what follows. -/
theorem forall_prefix_cons {r : Syscall} {offset' : ℤ}
    (hr : ∀ front, offset + progress (r :: front) = offset' + progress front) :
    (∀ front, front <+: r :: results → size ≤ offset + progress front) ↔
      size ≤ offset ∧ ∀ front, front <+: results → size ≤ offset' + progress front := by
  constructor
  · intro hall
    refine ⟨by simpa [progress] using hall [] nil_prefix, fun front hpre ↦ ?_⟩
    rw [← hr]
    exact hall _ ((prefix_cons_inj r).mpr hpre)
  · rintro ⟨hlow, hall⟩ front hpre
    rcases prefix_cons_iff.mp hpre with rfl | ⟨front, rfl, hfront⟩
    · simpa [progress] using hlow
    · rw [hr]
      exact hall front hfront

/-- Nothing is written below a size exactly if the offset never falls below it. -/
theorem fillLoop_low (size : ℤ) (h : fillLoop fillSize offset results = some writes)
    (hsize : size ≤ offset + fillSize) : (∀ i, Written writes i → size ≤ i) ↔ ∀ front,
    front <+: results → size ≤ offset + progress front := by
  have hnil {offset : ℤ} {results : List Syscall}
      (hall : ∀ front, front <+: results → size ≤ offset + progress front) : size ≤ offset := by
    simpa [progress] using hall [] nil_prefix
  fun_induction fillLoop fillSize offset results generalizing writes with
  | case1 offset =>
    obtain rfl := Option.some.inj h
    refine iff_of_true (fun i hi ↦ absurd hi (by simp [Written])) fun front hpre ↦ ?_
    rw [prefix_nil.mp hpre, progress, map_nil, sum_nil]
    exact hsize
  | case2 | case3 | case5 | case7 => contradiction
  | case4 fillSize offset n results hn ih =>
    obtain ⟨rest, hrest, rfl⟩ := Option.map_eq_some_iff.mp h
    have hstep (front : List Syscall) :
        offset + progress (.count n :: front) = offset + n + progress front := by
      simp [progress, Int.add_assoc]
    have hrest := ih hrest (by omega)
    refine Iff.trans ?_ ((forall_prefix_cons hstep).trans (and_congr_right fun _ ↦ hrest.symm)).symm
    simp only [written_cons, or_imp, forall_and]
    refine and_congr_left fun hall ↦ ⟨fun hw ↦ ?_, fun hlow i hi ↦ by omega⟩
    have hnext := hnil (hrest.mp hall)
    by_cases hzero : n = 0
    · omega
    · exact hw offset ⟨le_rfl, by omega⟩
  | case6 fillSize offset results hzero ih =>
    have hstep (front : List Syscall) :
        offset + progress (.interrupted :: front) = offset - 1 + progress front := by
      simp [progress, Int.add_assoc, Int.sub_eq_add_neg]
    refine (ih h (by omega)).trans (Iff.trans ?_ (forall_prefix_cons hstep).symm)
    refine ⟨fun hall ↦ ⟨?_, hall⟩, And.right⟩
    have hnext := hnil hall
    omega

/-- **The new space is filled and nothing else** exactly if at no point there have been more
interruptions than bytes written. -/
theorem fills_iff {newSize : ℤ} (hsize : size ≤ newSize)
    (h : fillLoop (newSize - size) size results = some writes) :
    Fills size newSize writes ↔ ∀ front, front <+: results → 0 ≤ progress front := by
  obtain ⟨hbelow, hall, hlast⟩ := fillLoop_end h (by omega)
  have hlow := fillLoop_low size h (by omega)
  have heq : size + (newSize - size) = newSize := by omega
  rw [heq] at hbelow hall hlast
  have hshift : (∀ front, front <+: results → size ≤ size + progress front) ↔
      ∀ front, front <+: results → 0 ≤ progress front :=
    forall₂_congr fun front _ ↦ le_add_iff_nonneg_right size
  rw [← hshift, ← hlow]
  constructor
  · exact fun hfills i hi ↦ ((hfills.1 i).mp hi).1
  · intro hlow
    refine ⟨fun i ↦ ⟨fun hi ↦ ⟨hlow i hi, hbelow i hi⟩, fun hi ↦ hall i hi.1 hi.2⟩,
      fun front hpre hne ↦ ?_⟩
    -- the last byte is missing
    by_cases hempty : size = newSize
    · rw [hempty, Int.sub_self] at h
      have hdone := fillLoop_zero h
      exact absurd (hdone ▸ prefix_nil.mp (hdone ▸ hpre)) hne
    · refine ⟨newSize - 1, by omega, by omega, fun hi ↦ ?_⟩
      have := hlast front hpre hne _ hi
      omega

/-- An interruption between two writes. -/
theorem fills_interrupted_later : Fills 4 8 [(4, 2), (5, 3)] := by
  have hloop : fillLoop (8 - 4) 4 [.count 2, .interrupted, .count 3] = some [(4, 2), (5, 3)] := rfl
  refine (fills_iff (by decide) hloop).mpr fun front hpre ↦ ?_
  have hall : ∀ front ∈ [Syscall.count 2, .interrupted, .count 3].inits,
    0 ≤ progress front := by decide
  exact hall front ((mem_inits ..).mpr hpre)

/-- An interruption before the first write: the last byte of the old space is written. -/
theorem not_fills_interrupted_first :
    fillLoop (8 - 4) 4 [.interrupted, .count 5] = some [(3, 5)] ∧ ¬ Fills 4 8 [(3, 5)] :=
  ⟨rfl, fun h ↦ absurd ((h.1 3).mp ⟨_, mem_singleton_self _, by decide⟩).1 (by decide)⟩

end JournalSpace

end Jers
