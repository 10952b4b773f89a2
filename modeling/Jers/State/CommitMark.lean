import Jers.Lib.Run
import Jers.State.Replay
import Mathlib.Data.List.Pairwise

/-!
# Where the asterisks go

`stateSaveCmd` appends records to the journal of the day and remembers the offset of the last one
(`last_commit`). A background save takes that offset and the descriptor of the journal along when it
forks, and overwrites the byte there with an asterisk when all objects have been written. Space for
the journal is allocated in advance, which can fail.

The offset belongs to a file, and it is kept apart from the descriptor of the file: when a new file
has been opened and nothing could be written to it, the offset is one of the file before. If every
file that is opened gets a record, no record is written in part, and no space is allocated over
records, then every asterisk goes to the first byte of a record that was applied before the save
began (`marksLand_of_run`).
-/

namespace Jers.CommitMark

open JournalText List Option

/-! ### Files -/

/-- `pwrite`: the data replace what is at the offset, and a gap is filled with zeros. -/
def pwrite (content : Str) (offset : ℕ) (data : Str) : Str :=
  content.take offset ++ (List.replicate (offset - content.length) '\x00' ++
    (data ++ content.drop (offset + data.length)))

/-- The loop of `findJournalEnd`, over blocks of 8192 bytes: the first zero of the first block that
ends in one. -/
def findJournalEnd (content : Str) : ℕ :=
  if content = [] then 0
  else
    let data := content.take 8192
    if data.getLast? = some '\x00' then (data.takeWhile (· != '\x00')).length
    else data.length + findJournalEnd (content.drop 8192)
termination_by content.length
decreasing_by
  have : content.length ≠ 0 := by simpa
  rw [List.length_drop]
  omega

/-- The record at an offset of a file, with its status byte. -/
def RecordAt (content : Str) (offset : ℕ) (r : JournalText.Record) : Prop :=
  ∃ status, (status = ' ' ∨ status = '*') ∧ status :: (r.body ++ ['\n']) <+: content.drop offset

/-! ### The daemon -/

inductive Readonly
  | off
  | enospace
  | bgsave
  deriving DecidableEq, Repr

/-- A record that has been written completely: its file, where it starts, and which command it is
of. -/
structure Written where
  day : ℤ
  offset : ℕ
  record : JournalText.Record
  seq : ℕ

/-- The child of a save: the descriptor and the offset when it forked, and how many commands had
been applied. -/
structure Child where
  fd : Option ℤ
  lastCommit : ℕ
  collected : ℕ
  deriving DecidableEq, Repr

/-- The journals by their day, `server.journal` with the position of its descriptor, and the child.
A descriptor is the day of its file. `applied` counts the commands; no function reads it, nor
`written`. -/
structure World where
  files : ℤ → Option Str
  fd : Option ℤ := none
  pos : ℕ := 0
  len : ℕ := 0
  size : ℕ := 0
  limit : ℤ := 0
  lastCommit : ℕ := 0
  nextRollover : ℤ := 0
  readonly : Readonly := .off
  child : Option Child := none
  applied : ℕ := 0
  written : List Written := []

/-- How an attempt to allocate space ends, with the zeros that were written before the disk was
full. -/
inductive Extend
  | ok
  | enospc (zeros : ℕ)
  deriving DecidableEq, Repr

/-- How `write` ends. -/
inductive Outcome
  | ok
  | short (n : ℕ)
  | failed
  deriving DecidableEq, Repr

/-- What happens to a call of `stateSaveCmd`: how many bytes of the end marker are written, and how
the two allocations and the write end. -/
structure Env where
  marker : ℕ := 2
  rollover : Extend := .ok
  extend : Extend := .ok
  write : Outcome := .ok

/-- Days, the start of the next day, and the size of the blocks that are allocated. -/
structure Config where
  day : ℤ → ℤ
  rollOver : ℤ → ℤ
  block : ℕ

def World.pwrite (w : World) (fd : ℤ) (offset : ℕ) (data : Str) : World :=
  { w with files := fun d ↦ if d = fd then (w.files d).map (CommitMark.pwrite · offset
    data) else w.files d }

variable (config : Config)

/-- `extendJournal`, which allocates two blocks in a new file. The second component says that it
failed. -/
def World.extendJournal (w : World) (fd : ℤ) : Extend → World × Bool
  | .ok =>
    let newSize := w.size + config.block + if w.limit = 0 then config.block else 0
    ({ w.pwrite fd w.size (List.replicate (newSize - w.size) '\x00') with
        size := newSize
        limit := newSize - config.block
        readonly := if w.readonly = .enospace then .off else w.readonly }, false)
  | .enospc zeros =>
    ({ w.pwrite fd w.size (List.replicate zeros '\x00') with
        readonly := if w.readonly = .off then .enospace else w.readonly }, true)

/-- `openStateFile` -/
def World.openStateFile (w : World) (day : ℤ) : World :=
  match w.files day with
  | none =>
    { w with
      files := fun d ↦ if d = day then some [] else w.files d
      fd := some day, pos := 0, len := 0, size := 0, limit := 0 }
  | some content =>
    let len := findJournalEnd content
    let limit : ℤ := content.length - config.block
    { w with
      fd := some day, pos := len, len, size := content.length
      limit := if limit ≤ 0 then len else limit }

/-- The text of a record as it is written. -/
def text (r : JournalText.Record) : Str := ' ' :: (r.body ++ ['\n'])

/-- Space for a record is allocated when the file is nearly full. -/
def World.allocated (w : World) (fd : ℤ) (env : Env) (r : JournalText.Record) : World :=
  if w.limit ≤ w.len + (text r).length then (w.extendJournal config fd env.extend).1 else w

/-- The part of `stateSaveCmd` that writes the record, whether or not there was space to
allocate. -/
def World.writeRecord (w : World) (fd : ℤ) (env : Env) (r : JournalText.Record) : World :=
  let start := w.pos
  let w := w.allocated config fd env r
  match env.write with
  | .failed => w
  | .short n =>
    let data := (text r).take n
    { w.pwrite fd w.pos data with
      pos := w.pos + data.length, len := w.len + data.length, lastCommit := start }
  | .ok =>
    { w.pwrite fd w.pos (text r) with
      pos := w.pos + (text r).length, len := w.len + (text r).length, lastCommit := start
      written := w.written ++ [⟨fd, start, r, w.applied - 1⟩] }

/-- The change to the file of another day. -/
def World.rollOver (w : World) (now : ℤ) (env : Env) : World :=
  let w := match w.fd with
    | none => w
    | some fd => w.pwrite fd w.pos ("$\n".toList.take env.marker)
  { w with nextRollover := config.rollOver now }.openStateFile config (config.day now)

/-- `stateSaveCmd`, for a command that has been applied. -/
def World.stateSaveCmd (w : World) (env : Env) (r : JournalText.Record) : Option World :=
  if w.nextRollover ≤ r.seconds then
    let w := w.rollOver config r.seconds env
    let fd := config.day r.seconds
    if w.size = 0 ∨ w.limit ≤ w.len then
      let (w, failed) := w.extendJournal config fd env.rollover
      some (if failed then w else w.writeRecord config fd env r)
    else
      some (w.writeRecord config fd env r)
  else
    w.fd.map fun fd ↦ w.writeRecord config fd env r

/-- A command that is applied and then written to the journal, the start of a save, and its end:
whether the objects could be saved and whether the asterisk could be written. -/
inductive Event
  | command (env : Env) (r : JournalText.Record)
  | saveStart (extend : Extend)
  | saveDone (saved marked : Bool)

/-- `stateSaveToDisk`, when no save is running. -/
def World.saveStart (w : World) (extend : Extend) : World :=
  let fork (w : World) : World := { w with child := some ⟨w.fd, w.lastCommit, w.applied⟩ }
  match w.readonly, w.fd with
  | .enospace, some fd =>
    let (w, failed) := w.extendJournal config fd extend
    if failed then w else fork w
  | _, _ => fork w

/-- The asterisk of the child. -/
def World.mark (w : World) (child : Child) : World :=
  match child.fd with
  | none => w
  | some fd => w.pwrite fd child.lastCommit ['*']

/-- The end of a save. -/
def World.saveDone (w : World) (child : Child) (saved marked : Bool) : World :=
  let w := if saved && marked then w.mark child else w
  { w with
    child := none
    readonly := match w.readonly, saved with
      | .off, false => .bgsave
      | .bgsave, true => .off
      | readonly, _ => readonly }

def next (w : World) : Event → Option World
  | .command env r => { w with applied := w.applied + 1 }.stateSaveCmd config env r
  | .saveStart extend => if w.child = none then some (w.saveStart config extend) else none
  | .saveDone saved marked => w.child.map (w.saveDone · saved marked)

def Step (w : World) (e : Event) (w' : World) : Prop := next config w e = some w'

/-! ### What is asked of it -/

/-- **The asterisk goes to a record start**: where the child is about to write, there is a complete
record, and that record and all those before it were applied before the child forked. -/
def World.MarksLand (w : World) : Prop :=
  ∀ child, w.child = some child → ∀ fd, child.fd = some fd →
    ∃ x ∈ w.written, x.day = fd ∧ x.offset = child.lastCommit ∧
      (∃ content, w.files fd = some content ∧ RecordAt content x.offset x.record) ∧
      ∀ y ∈ w.written, y.seq ≤ x.seq → y.seq < child.collected

/-- **There is space**: a command that opens a file gets its space and is written; no record is
written in part; and the space that is allocated starts after the records. -/
def spaceKept (w : World) : Event → Bool
  | .command env r =>
    if w.nextRollover ≤ r.seconds then env.rollover = .ok ∧ env.write = .ok
    else (env.write = .ok ∨ env.write = .failed) ∧
      (w.limit ≤ w.len + (text r).length → w.len ≤ w.size)
  | .saveStart _ => w.readonly = .enospace → w.len ≤ w.size
  | .saveDone .. => true

/-! ### Bytes -/

/-- Text without a zero. -/
def NoZero (s : Str) : Prop := ∀ c ∈ s, c ≠ '\x00'

/-- A file as the journal leaves it: text and then zeros. -/
def Clean (content : Str) : Prop := ∃ b n, NoZero b ∧ content = b ++ List.replicate n '\x00'

theorem noZero_text (r : JournalText.Record) : NoZero (text r) := by
  refine forall_mem_cons.mpr ⟨by decide, fun c hc ↦ ?_⟩
  rcases mem_append.mp hc with hbody | hnewline
  · exact (r.isLine_body c hbody).2
  · rw [mem_singleton.mp hnewline]
    decide

theorem noZero_status {status : Char} (hstatus : status = ' ' ∨ status = '*')
    (r : JournalText.Record) : NoZero (status :: (r.body ++ ['\n'])) := by
  refine forall_mem_cons.mpr ⟨?_, fun c hc ↦ noZero_text r c (mem_cons_of_mem _ hc)⟩
  rcases hstatus with rfl | rfl <;> decide

theorem pwrite_end (b data : Str) (n : ℕ) : pwrite (b ++ List.replicate n '\x00') b.length data =
      b ++ data ++ List.replicate (n - data.length) '\x00' := by
  rw [pwrite, take_left, length_append, Nat.sub_eq_zero_of_le (Nat.le_add_right _ _),
    replicate_zero, nil_append, ← drop_drop, drop_left, drop_replicate,
    append_assoc]

variable {offset : ℕ} {r : JournalText.Record} {b : Str}

/-- Zeros after the text leave the text. -/
theorem pwrite_zeros (h : b.length ≤ offset) (n k : ℕ) :
    ∃ n', pwrite (b ++ List.replicate n '\x00') offset (List.replicate k '\x00') =
      b ++ List.replicate n' '\x00' := by
  rw [pwrite, take_append, take_of_length_le h, take_replicate, drop_append,
    drop_of_length_le (by omega), drop_replicate, nil_append, append_assoc]
  simp only [replicate_append_replicate]
  exact ⟨_, rfl⟩

/-- A byte of the text is replaced. -/
theorem pwrite_mark (h : offset < b.length) (n : ℕ) (c : Char) :
    pwrite (b ++ List.replicate n '\x00') offset [c] = b.set offset c ++
    List.replicate n '\x00' := by
  have hlength : offset < (b ++ List.replicate n '\x00').length := by
    rw [length_append]
    omega
  rw [pwrite, Nat.sub_eq_zero_of_le hlength.le, replicate_zero, nil_append, singleton_append,
    length_singleton, ← set_append_left offset c h, set_eq_take_append_cons_drop,
    if_pos hlength]

theorem takeWhile_text (hb : NoZero b) (n : ℕ) :
    (b ++ List.replicate n '\x00').takeWhile (· != '\x00') = b := by
  rw [takeWhile_append_of_pos fun c hc ↦ by simpa using hb c hc, takeWhile_replicate,
    if_neg (by decide), append_nil]

theorem NoZero.getLast? (hb : NoZero b) : b.getLast? ≠ some '\x00' := fun h ↦
  hb _ (mem_of_getLast? h) rfl

/-- The end of the text is found. -/
theorem findJournalEnd_clean (hb : NoZero b) (n : ℕ) :
    findJournalEnd (b ++ List.replicate n '\x00') = b.length := by
  induction hlength : b.length using Nat.strong_induction_on generalizing b with
  | _ length ih =>
    rw [findJournalEnd]
    split
    · next hnil =>
      rw [← hlength, (append_eq_nil_iff.mp hnil).1]
      rfl
    · next hne =>
      dsimp only
      have hdata : (b ++ List.replicate n '\x00').take 8192 =
          b.take 8192 ++ List.replicate (min (8192 - b.length) n) '\x00' := by
        rw [take_append, take_replicate]
      have hb' : NoZero (b.take 8192) := fun c hc ↦ hb c (mem_of_mem_take hc)
      rw [hdata]
      rcases Nat.eq_zero_or_pos (min (8192 - b.length) n) with hzero | hpos
      · -- the block is full of text, or the text is all there is
        rw [hzero, replicate_zero, append_nil, if_neg hb'.getLast?, drop_append]
        rcases Nat.lt_or_ge b.length 8192 with hlt | hge
        · have hn : n = 0 := by omega
          rw [hn, take_of_length_le hlt.le, drop_of_length_le hlt.le]
          simp [findJournalEnd, hlength]
        · rw [Nat.sub_eq_zero_of_le hge, drop_zero, ih (b.length - 8192) (by omega)
            (fun c hc ↦ hb c (mem_of_mem_drop hc)) length_drop, length_take]
          omega
      · have hlt : b.length < 8192 := by omega
        rw [take_of_length_le hlt.le, if_pos, takeWhile_text hb, hlength]
        rw [getLast?_append, getLast?_replicate, if_neg hpos.ne']
        rfl

/-- Text without zeros that is in a file is in the text of the file. -/
theorem prefix_text {t b : Str} (ht : NoZero t) {n : ℕ}
    (h : t <+: (b ++ List.replicate n '\x00').drop offset) : t <+: b.drop offset := by
  rw [drop_append, drop_replicate] at h
  rcases Nat.le_total t.length (b.drop offset).length with hle | hge
  · exact prefix_of_prefix_length_le h (prefix_append _ _) hle
  · obtain ⟨rest, rfl⟩ := prefix_of_prefix_length_le (prefix_append _ _) h hge
    have hrest := (prefix_append_right_inj _).mp h
    cases rest with
    | nil => exact (append_nil (b.drop offset)).symm ▸ prefix_rfl
    | cons c rest =>
      have hzero := eq_of_mem_replicate (hrest.subset mem_cons_self)
      exact absurd hzero (ht c (by simp))

/-! ### Records stay where they are -/

/-- A record lies in the text of its file. -/
theorem RecordAt.of_text {n : ℕ} (h : RecordAt (b ++ List.replicate n '\x00') offset r) :
    RecordAt b offset r := by
  obtain ⟨status, hstatus, hprefix⟩ := h
  exact ⟨status, hstatus, prefix_text (noZero_status hstatus r) hprefix⟩

theorem RecordAt.append (h : RecordAt b offset r) (rest : Str) : RecordAt (b ++ rest) offset r := by
  obtain ⟨status, hstatus, hprefix⟩ := h
  refine ⟨status, hstatus, hprefix.trans ?_⟩
  rw [drop_append]
  exact prefix_append _ _

theorem RecordAt.le (h : RecordAt b offset r) : offset + (text r).length ≤ b.length := by
  obtain ⟨status, hstatus, hprefix⟩ := h
  have hlength := hprefix.length_le
  rw [length_drop] at hlength
  simp only [text, length_cons] at hlength ⊢
  omega

/-- The asterisk turns a record into a record. -/
theorem RecordAt.mark (h : RecordAt b offset r) : RecordAt (b.set offset '*') offset r := by
  obtain ⟨status, hstatus, rest, hrest⟩ := h
  refine ⟨'*', .inr rfl, rest, ?_⟩
  rw [drop_set, if_neg (lt_irrefl _), Nat.sub_self, ← hrest]
  rfl

/-- The asterisk does not touch the other records. -/
theorem RecordAt.mark_apart {i : ℕ} (h : RecordAt b offset r)
    (hapart : i < offset ∨ offset + (text r).length ≤ i) : RecordAt (b.set i '*') offset r := by
  obtain ⟨status, hstatus, hprefix⟩ := h
  refine ⟨status, hstatus, ?_⟩
  rw [drop_set]
  rcases hapart with hlt | hge
  · rw [if_pos hlt]
    exact hprefix
  · obtain ⟨rest, hrest⟩ := hprefix
    have hlength : (status :: (r.body ++ ['\n'])).length = (text r).length := rfl
    rw [if_neg (by omega), ← hrest, set_append_right _ _ (by omega)]
    exact prefix_append _ _

/-! ### The files and the records in them -/

/-- Two records do not overlap. -/
def Written.Apart (x y : Written) : Prop :=
  x.day = y.day → x.offset + (text x.record).length ≤ y.offset ∨
  y.offset + (text y.record).length ≤ x.offset

/-- **Every record is where it was written**, and no two of them overlap. -/
structure Filed (files : ℤ → Option Str) (written : List Written) : Prop where
  clean : ∀ d content, files d = some content → Clean content
  records : ∀ x ∈ written, ∃ content, files x.day = some content ∧
    RecordAt content x.offset x.record
  apart : written.Pairwise Written.Apart

def setFile (files : ℤ → Option Str) (fd : ℤ) (content : Str) : ℤ → Option Str :=
  fun d ↦ if d = fd then some content else files d

theorem World.files_pwrite {w : World} {fd : ℤ} {content : Str} (h : w.files fd = some content)
    (offset : ℕ) (data : Str) :
    (w.pwrite fd offset data).files = setFile w.files fd
    (CommitMark.pwrite content offset data) := by
  funext d
  show (if d = fd then _ else _) = (if d = fd then _ else _)
  split
  · next hd => rw [hd, h, map_some]
  · rfl

namespace Filed

variable {files : ℤ → Option Str} {written : List Written} {fd : ℤ} {b : Str} {n : ℕ}

/-- Text is added after the text of a file. -/
theorem append (h : Filed files written) (hfd : files fd = some (b ++ List.replicate n '\x00'))
    (hb : NoZero b) (data : Str) (hdata : NoZero data) (n' : ℕ) :
    Filed (setFile files fd (b ++ data ++ List.replicate n' '\x00')) written where
  clean d content hd := by
    rw [setFile] at hd
    split at hd
    · obtain rfl := some.inj hd
      refine ⟨b ++ data, n', fun c hc ↦ ?_, rfl⟩
      exact (mem_append.mp hc).elim (hb c) (hdata c)
    · exact h.clean d content hd
  records x hx := by
    obtain ⟨content, hcontent, hrecord⟩ := h.records x hx
    rw [setFile]
    split
    · next hday =>
      rw [hday, hfd] at hcontent
      obtain rfl := some.inj hcontent
      refine ⟨_, rfl, ?_⟩
      rw [append_assoc]
      exact hrecord.of_text.append _
    · exact ⟨content, hcontent, hrecord⟩
  apart := h.apart

/-- A record is added after the text of its file. -/
theorem addRecord (h : Filed files written) (hfd : files fd = some (b ++ List.replicate n '\x00'))
    (hb : NoZero b) (r : JournalText.Record) (seq n' : ℕ) :
    Filed (setFile files fd (b ++ text r ++ List.replicate n' '\x00'))
      (written ++ [⟨fd, b.length, r, seq⟩]) where
  clean := (h.append hfd hb _ (noZero_text r) n').clean
  records x hx := by
    rcases mem_append.mp hx with hold | hnew
    · exact (h.append hfd hb _ (noZero_text r) n').records x hold
    · rw [mem_singleton.mp hnew]
      refine ⟨_, if_pos rfl, ' ', .inl rfl, ?_⟩
      rw [append_assoc, drop_left]
      exact prefix_append _ _
  apart := by
    refine pairwise_append.mpr ⟨h.apart, pairwise_singleton _ _, fun x hx y hy ↦ ?_⟩
    rw [mem_singleton.mp hy]
    intro hday
    obtain ⟨content, hcontent, hrecord⟩ := h.records x hx
    have hday' : x.day = fd := hday
    rw [hday', hfd] at hcontent
    obtain rfl := some.inj hcontent
    exact .inl hrecord.of_text.le

/-- A file is created. -/
theorem create (h : Filed files written) (hfd : files fd = none) :
    Filed (setFile files fd []) written where
  clean d content hd := by
    rw [setFile] at hd
    split at hd
    · obtain rfl := some.inj hd
      exact ⟨[], 0, fun _ hc ↦ absurd hc not_mem_nil, rfl⟩
    · exact h.clean d content hd
  records x hx := by
    obtain ⟨content, hcontent, hrecord⟩ := h.records x hx
    have hne : x.day ≠ fd := fun heq ↦ absurd (heq ▸ hcontent) (by simp [hfd])
    exact ⟨content, (if_neg hne).trans hcontent, hrecord⟩
  apart := h.apart

/-- The first byte of a record is overwritten. -/
theorem mark (h : Filed files written) {x : Written} (hx : x ∈ written) {content : Str}
    (hcontent : files x.day = some content) :
    Filed (setFile files x.day (pwrite content x.offset ['*'])) written := by
  obtain ⟨b, n, hb, rfl⟩ := h.clean _ _ hcontent
  have hrecord {y : Written} (hy : y ∈ written) (hday : y.day = x.day) :
      RecordAt b y.offset y.record := by
    obtain ⟨content, hcontent', hat⟩ := h.records y hy
    rw [hday, hcontent] at hcontent'
    obtain rfl := some.inj hcontent'
    exact hat.of_text
  have hlt : x.offset < b.length := by
    have hle := (hrecord hx rfl).le
    simp only [text, length_cons] at hle
    omega
  rw [pwrite_mark hlt]
  refine ⟨fun d content hd ↦ ?_, fun y hy ↦ ?_, h.apart⟩
  · rw [setFile] at hd
    split at hd
    · obtain rfl := some.inj hd
      refine ⟨b.set x.offset '*', n, fun c hc ↦ ?_, rfl⟩
      rcases mem_or_eq_of_mem_set hc with hmem | rfl
      · exact hb c hmem
      · decide
    · exact h.clean d content hd
  · rw [setFile]
    split
    · next hday =>
      refine ⟨_, rfl, RecordAt.append ?_ _⟩
      have hsymm : Std.Symm Written.Apart := ⟨fun x y hxy hday ↦ (hxy hday.symm).symm⟩
      by_cases hsame : y = x
      · subst hsame
        exact (hrecord hy rfl).mark
      · have hpos : 0 < (text x.record).length := Nat.succ_pos _
        refine (hrecord hy hday).mark_apart ?_
        rcases h.apart.forall hy hx hsame hday with hbefore | hafter
        · exact .inr hbefore
        · exact .inl (by omega)
    · exact h.records y hy

end Filed

/-! ### The invariant -/

/-- The descriptor stands at the end of the text of its file. -/
def World.Opened (w : World) (fd : ℤ) : Prop :=
  ∃ b n, w.files fd = some (b ++ List.replicate n '\x00') ∧ NoZero b ∧ w.pos = b.length ∧
  w.len = b.length

/-- What holds at all times, also between the opening of a file and its first record. -/
structure World.Kept (w : World) : Prop where
  filed : Filed w.files w.written
  seqs : ∀ x ∈ w.written, x.seq < w.applied
  child : ∀ child, w.child = some child → ∀ fd, child.fd = some fd →
    ∃ x ∈ w.written, x.day = fd ∧ x.offset = child.lastCommit ∧ x.seq < child.collected

/-- What holds between two calls: the offset is that of a record of the open file. -/
structure World.Settled (w : World) : Prop extends w.Kept where
  opened : ∀ fd, w.fd = some fd → w.Opened fd
  last : ∀ fd, w.fd = some fd → ∃ x ∈ w.written, x.day = fd ∧ x.offset = w.lastCommit

variable {env : Env}

namespace World

variable {config : Config} {w : World} {fd : ℤ}

theorem Kept.marksLand (h : w.Kept) : w.MarksLand := by
  intro child hchild fd hfd
  obtain ⟨x, hx, rfl, hoffset, hseq⟩ := h.child child hchild fd hfd
  exact ⟨x, hx, rfl, hoffset, h.filed.records x hx, fun y _ hle ↦ hle.trans_lt hseq⟩

/-- Whatever comes of it, `extendJournal` writes zeros where it takes the end of the file to be. -/
theorem extendJournal_eq (config : Config) (w : World) (fd : ℤ) (extend : Extend) :
    ∃ zeros size limit readonly, (w.extendJournal config fd extend).1 =
      { w.pwrite fd w.size (List.replicate zeros '\x00') with size, limit, readonly } ∧
      w.size ≤ size := by
  cases extend with
  | ok => exact ⟨_, _, _, _, rfl, by omega⟩
  | enospc zeros => exact ⟨zeros, w.size, w.limit, _, rfl, le_rfl⟩

/-- Space that is allocated after the text. -/
theorem Kept.extendJournal (h : w.Kept) (config : Config) (hopened : w.Opened fd)
    (hle : w.len ≤ w.size) (extend : Extend) :
      (w.extendJournal config fd extend).1.Kept ∧ (w.extendJournal config fd extend).1.Opened fd ∧
      (w.extendJournal config fd extend).1.len ≤ (w.extendJournal config fd extend).1.size := by
  obtain ⟨b, n, hfile, hb, hpos, hlen⟩ := hopened
  obtain ⟨zeros, size, limit, readonly, heq, hsize⟩ := extendJournal_eq config w fd extend
  obtain ⟨n', hzeros⟩ := pwrite_zeros (hlen ▸ hle) n zeros
  have hfiles : (w.pwrite fd w.size (List.replicate zeros '\x00')).files =
      setFile w.files fd (b ++ [] ++ List.replicate n' '\x00') := by
    rw [files_pwrite hfile, hzeros, append_nil]
  have hfiled := h.filed.append hfile hb [] (fun _ hc ↦ nomatch hc) n'
  rw [heq]
  refine ⟨⟨?_, h.seqs, h.child⟩, ⟨b, n', ?_, hb, hpos, hlen⟩, hle.trans hsize⟩
  · rw [← hfiles] at hfiled
    exact hfiled
  · show (w.pwrite fd w.size _).files fd = _
    rw [hfiles, setFile, if_pos rfl, append_nil]

theorem Kept.allocated (h : w.Kept) (config : Config) (hopened : w.Opened fd) (env : Env)
    (r : JournalText.Record) (hspace : w.limit ≤ w.len + (text r).length → w.len ≤ w.size) :
    (w.allocated config fd env r).Kept ∧ (w.allocated config fd env r).Opened fd := by
  rw [World.allocated]
  split
  · next hfull =>
    obtain ⟨hkept, hopened', -⟩ := h.extendJournal config hopened (hspace hfull) env.extend
    exact ⟨hkept, hopened'⟩
  · exact ⟨h, hopened⟩

theorem allocated_same (config : Config) (w : World) (fd : ℤ) (env : Env) (r : JournalText.Record) :
    (w.allocated config fd env r).fd = w.fd ∧ (w.allocated config fd env r).pos = w.pos ∧
      (w.allocated config fd env r).lastCommit = w.lastCommit ∧
      (w.allocated config fd env r).applied = w.applied ∧
      (w.allocated config fd env r).written = w.written := by
  rw [allocated]
  split
  · obtain ⟨_, _, _, _, heq, -⟩ := extendJournal_eq config w fd env.extend
    rw [heq]
    exact ⟨rfl, rfl, rfl, rfl, rfl⟩
  · exact ⟨rfl, rfl, rfl, rfl, rfl⟩

/-- A record that is written completely. -/
theorem Kept.writeRecord (h : w.Kept) (hopened : w.Opened fd) (hfd : w.fd = some fd)
    (happlied : 0 < w.applied) (r : JournalText.Record)
    (hspace : w.limit ≤ w.len + (text r).length → w.len ≤ w.size) (hwrite : env.write = .ok) :
    (w.writeRecord config fd env r).Settled := by
  obtain ⟨hkept, b, n, hfile, hb, hpos, hlen⟩ := h.allocated config hopened env r hspace
  obtain ⟨hfd', hpos', -, happlied', -⟩ := allocated_same config w fd env r
  have hrecord : w.writeRecord config fd env r =
      { (w.allocated config fd env r).pwrite fd (w.allocated config fd env r).pos (text r) with
        pos := (w.allocated config fd env r).pos + (text r).length
        len := (w.allocated config fd env r).len + (text r).length
        lastCommit := w.pos
        written := (w.allocated config fd env r).written ++
          [⟨fd, w.pos, r, (w.allocated config fd env r).applied - 1⟩] } := by
    rw [World.writeRecord]
    simp only [hwrite]
  rw [hrecord]
  rw [← hpos', hpos]
  rw [← happlied'] at happlied
  rw [← hfd'] at hfd
  generalize w.allocated config fd env r = w₁ at *
  have hfiles : (w₁.pwrite fd b.length (text r)).files =
      setFile w₁.files fd (b ++ text r ++ List.replicate (n - (text r).length) '\x00') := by
    rw [files_pwrite hfile, pwrite_end]
  have hnew : (⟨fd, b.length, r, w₁.applied - 1⟩ : Written) ∈
      w₁.written ++ [⟨fd, b.length, r, w₁.applied - 1⟩] := by simp
  refine ⟨⟨?_, fun x hx ↦ ?_, fun child hchild d hd ↦ ?_⟩, fun d hd ↦ ?_, fun d hd ↦ ?_⟩
  · show Filed (w₁.pwrite fd b.length (text r)).files _
    rw [hfiles]
    exact hkept.filed.addRecord hfile hb r _ _
  · show x.seq < w₁.applied
    rcases mem_append.mp hx with hold | hx
    · exact hkept.seqs x hold
    · rw [mem_singleton.mp hx]
      exact Nat.sub_lt happlied Nat.one_pos
  · obtain ⟨x, hx, hrest⟩ := hkept.child child hchild d hd
    exact ⟨x, mem_append_left _ hx, hrest⟩
  · obtain rfl : fd = d := mem_unique hfd hd
    refine ⟨b ++ text r, n - (text r).length, ?_, ?_, ?_, ?_⟩
    · show (w₁.pwrite fd b.length (text r)).files fd = _
      rw [hfiles, setFile, if_pos rfl]
    · exact fun c hc ↦ (mem_append.mp hc).elim (hb c) (noZero_text r c)
    · show b.length + _ = _
      rw [length_append]
    · show w₁.len + _ = _
      rw [hlen, length_append]
  · obtain rfl : fd = d := mem_unique hfd hd
    exact ⟨_, hnew, rfl, rfl⟩

/-- A record that could not be written at all. -/
theorem Settled.writeRecord_failed (h : w.Settled) (hfd : w.fd = some fd) (r : JournalText.Record)
    (hspace : w.limit ≤ w.len + (text r).length → w.len ≤ w.size) (hwrite : env.write = .failed) :
    (w.writeRecord config fd env r).Settled := by
  have hsame : w.writeRecord config fd env r = w.allocated config fd env r := by
    rw [World.writeRecord]
    simp only [hwrite]
  obtain ⟨hkept, hopened⟩ := h.toKept.allocated config (h.opened fd hfd) env r hspace
  obtain ⟨hfd', -, hlast, -, hwritten⟩ := allocated_same config w fd env r
  rw [hsame]
  refine ⟨hkept, fun d hd ↦ ?_, fun d hd ↦ ?_⟩
  · obtain rfl : fd = d := some.inj ((hfd'.trans hfd).symm.trans hd)
    exact hopened
  · rw [hwritten, hlast]
    exact h.last d (hfd' ▸ hd)

theorem Kept.openStateFile (h : w.Kept) (config : Config) (day : ℤ) :
    (w.openStateFile config day).Kept ∧ (w.openStateFile config day).Opened day ∧
      (w.openStateFile config day).fd = some day ∧
      (w.openStateFile config day).len ≤ (w.openStateFile config day).size ∧
      (w.openStateFile config day).applied = w.applied := by
  rw [World.openStateFile]
  cases hfile : w.files day with
  | none =>
    refine ⟨⟨h.filed.create hfile, h.seqs, h.child⟩, ⟨[], 0, if_pos rfl, ?_, rfl, rfl⟩, rfl,
      le_rfl, rfl⟩
    exact fun _ hc ↦ nomatch hc
  | some content =>
    obtain ⟨b, n, hb, rfl⟩ := h.filed.clean _ _ hfile
    have hend := findJournalEnd_clean hb n
    refine ⟨⟨h.filed, h.seqs, h.child⟩, ⟨b, n, hfile, hb, hend, hend⟩, rfl, ?_, rfl⟩
    show findJournalEnd _ ≤ List.length _
    rw [hend, length_append]
    exact Nat.le_add_right _ _

/-- The end marker goes after the text. -/
theorem Settled.rollOver (h : w.Settled) (config : Config) (now : ℤ) (env : Env) :
    (w.rollOver config now env).Kept ∧ (w.rollOver config now env).Opened (config.day now) ∧
      (w.rollOver config now env).fd = some (config.day now) ∧
      (w.rollOver config now env).len ≤ (w.rollOver config now env).size ∧
      (w.rollOver config now env).applied = w.applied := by
  have hmarker : NoZero ("$\n".toList.take env.marker) := by
    intro c hc
    have hmem : c ∈ ['$', '\n'] := mem_of_mem_take hc
    rcases mem_cons.mp hmem with rfl | hmem
    · decide
    · rw [mem_singleton.mp hmem]
      decide
  rw [World.rollOver]
  cases hfd : w.fd with
  | none =>
    have hkept : Kept { w with nextRollover := config.rollOver now } :=
      ⟨h.filed, h.seqs, h.child⟩
    exact hkept.openStateFile config (config.day now)
  | some fd =>
    obtain ⟨b, n, hfile, hb, hpos, -⟩ := h.opened fd hfd
    have hkept : Kept { w.pwrite fd w.pos ("$\n".toList.take env.marker) with
        nextRollover := config.rollOver now } := by
      refine ⟨?_, h.seqs, h.child⟩
      show Filed (w.pwrite fd w.pos _).files _
      rw [files_pwrite hfile, hpos, pwrite_end]
      exact h.filed.append hfile hb _ hmarker _
    exact hkept.openStateFile config (config.day now)

theorem Settled.stateSaveCmd {w' : World} (h : w.Settled) (happlied : 0 < w.applied)
    (hgood : spaceKept w (.command env r) = true) (hstep : w.stateSaveCmd config env r = some w') :
    w'.Settled := by
  rw [World.stateSaveCmd] at hstep
  rw [spaceKept] at hgood
  split at hstep
  · next hnow =>
    rw [if_pos hnow] at hgood
    obtain ⟨hrollover, hwrite⟩ := of_decide_eq_true hgood
    obtain ⟨hkept, hopened, hfd, hle, happlied'⟩ := h.rollOver config r.seconds env
    rw [← happlied'] at happlied
    dsimp only at hstep
    generalize w.rollOver config r.seconds env = w₁ at *
    split at hstep
    · -- the space for the new file has been allocated
      rw [hrollover] at hstep
      obtain ⟨hkept', hopened', hle'⟩ := hkept.extendJournal config hopened hle .ok
      obtain rfl := some.inj hstep
      exact hkept'.writeRecord hopened' hfd happlied r (fun _ ↦ hle') hwrite
    · obtain rfl := some.inj hstep
      exact hkept.writeRecord hopened hfd happlied r (fun _ ↦ hle) hwrite
  · next hnow =>
    rw [if_neg hnow] at hgood
    obtain ⟨hwrite, hspace⟩ := of_decide_eq_true hgood
    obtain ⟨fd, hfd, rfl⟩ := map_eq_some_iff.mp hstep
    rcases hwrite with hwrite | hwrite
    · exact h.toKept.writeRecord (h.opened fd hfd) hfd happlied r hspace hwrite
    · exact h.writeRecord_failed hfd r hspace hwrite

theorem Settled.fork (h : w.Settled) :
    Settled { w with child := some ⟨w.fd, w.lastCommit, w.applied⟩ } := by
  refine ⟨⟨h.filed, h.seqs, fun child hchild fd hfd ↦ ?_⟩, h.opened, h.last⟩
  obtain rfl := some.inj hchild
  obtain ⟨x, hx, hday, hoffset⟩ := h.last fd hfd
  exact ⟨x, hx, hday, hoffset, h.seqs x hx⟩

theorem Settled.saveStart (h : w.Settled) {extend : Extend}
    (hspace : w.readonly = .enospace → w.len ≤ w.size) : (w.saveStart config extend).Settled := by
  rw [World.saveStart]
  split
  · next fd hreadonly hfd =>
    obtain ⟨hkept, hopened, -⟩ := h.toKept.extendJournal config (h.opened fd hfd)
      (hspace hreadonly) extend
    obtain ⟨_, _, _, _, heq, -⟩ := extendJournal_eq config w fd extend
    have hsettled : (w.extendJournal config fd extend).1.Settled := by
      refine ⟨hkept, fun d hd ↦ ?_, fun d hd ↦ ?_⟩
      · rw [heq] at hd
        obtain rfl : fd = d := mem_unique hfd hd
        exact hopened
      · rw [heq] at hd ⊢
        exact h.last d hd
    dsimp only
    split
    · exact hsettled
    · exact hsettled.fork
  · exact h.fork

/-- An asterisk at the start of a record. -/
theorem Settled.pwrite (h : w.Settled) {x : Written} (hx : x ∈ w.written) :
    (w.pwrite x.day x.offset ['*']).Settled := by
  obtain ⟨content, hfile, hrecord⟩ := h.filed.records x hx
  have hfiles := files_pwrite hfile x.offset ['*']
  refine ⟨⟨?_, h.seqs, h.child⟩, fun fd hfd ↦ ?_, h.last⟩
  · rw [hfiles]
    exact h.filed.mark hx hfile
  · obtain ⟨b, n, hfile', hb, hpos, hlen⟩ := h.opened fd hfd
    by_cases hsame : fd = x.day
    · -- the text of the open file keeps its length
      subst hsame
      obtain rfl := mem_unique hfile hfile'
      have hlt : x.offset < b.length := by
        have hle := hrecord.of_text.le
        simp only [text, length_cons] at hle
        omega
      refine ⟨b.set x.offset '*', n, ?_, fun c hc ↦ ?_, ?_, ?_⟩
      · rw [hfiles, setFile, if_pos rfl, pwrite_mark hlt]
      · rcases mem_or_eq_of_mem_set hc with hmem | rfl
        · exact hb c hmem
        · decide
      · rw [length_set]
        exact hpos
      · rw [length_set]
        exact hlen
    · refine ⟨b, n, ?_, hb, hpos, hlen⟩
      rw [hfiles, setFile, if_neg hsame]
      exact hfile'

theorem Settled.mark (h : w.Settled) {child : Child} (hchild : w.child = some child) :
    (w.mark child).Settled := by
  rw [World.mark]
  split
  · exact h
  · next fd hfd =>
    obtain ⟨x, hx, rfl, hoffset, -⟩ := h.child child hchild fd hfd
    rw [← hoffset]
    exact h.pwrite hx

theorem Settled.saveDone (h : w.Settled) {child : Child} (hchild : w.child = some child)
    (saved marked : Bool) : (w.saveDone child saved marked).Settled := by
  have hmarked : (if saved && marked then w.mark child else w).Settled := by
    split
    · exact h.mark hchild
    · exact h
  exact ⟨⟨hmarked.filed, hmarked.seqs, nofun⟩, hmarked.opened, hmarked.last⟩

theorem Settled.step {w' : World} {e : Event} (h : w.Settled) (hgood : spaceKept w e = true)
    (hstep : Step config w e w') : w'.Settled := by
  cases e with
  | command env r =>
    have happlied : Settled { w with applied := w.applied + 1 } :=
      ⟨⟨h.filed, fun x hx ↦ Nat.lt_succ_of_lt (h.seqs x hx), h.child⟩, h.opened, h.last⟩
    exact happlied.stateSaveCmd (Nat.succ_pos _) hgood hstep
  | saveStart extend =>
    obtain ⟨-, hnext⟩ := ite_none_right_eq_some.mp hstep
    obtain rfl := some.inj hnext
    exact h.saveStart (of_decide_eq_true hgood)
  | saveDone saved marked =>
    obtain ⟨child, hchild, rfl⟩ := map_eq_some_iff.mp hstep
    exact h.saveDone hchild saved marked

end World

/-- A daemon that has replayed the journals of a directory. -/
def start (files : ℤ → Option Str) : World where
  files := files

theorem settled_start {files : ℤ → Option Str} (hfiles : ∀ d content, files d = some content →
    Clean content) : (start files).Settled where
  filed := ⟨hfiles, fun _ hx ↦ absurd hx not_mem_nil, .nil⟩
  seqs _ hx := absurd hx not_mem_nil
  child := nofun
  opened := nofun
  last := nofun

/-- **Where there is space, every asterisk goes to the start of a record that the save covers.** -/
theorem marksLand_of_run {files : ℤ → Option Str}
    (hfiles : ∀ d content, files d = some content → Clean content) {w : World}
    (h : Run (Step config) (fun w e ↦ spaceKept w e = true) (start files) w) : w.MarksLand := by
  have hsettled : w.Settled :=
    h.invariant (I := World.Settled) (fun h ↦ h.step) (settled_start hfiles)
  exact hsettled.marksLand

/-- Days of ten seconds, and blocks of a hundred bytes. -/
def sampleConfig : Config where
  day t := t / 10
  rollOver t := (t / 10 + 1) * 10
  block := 100

/-- Such a run: two records, a save that begins, and a record of the next day. -/
theorem marksLand_two_days : ∃ w : World,
    w.written.length = 3 ∧ w.child.isSome = true ∧ w.MarksLand := by
  obtain ⟨w, hrun, hwritten, hchild⟩ := Run.exists_of_next spaceKept (next sampleConfig)
    [.command {} (stamp ⟨1, 0, 0⟩), .command {} (stamp ⟨2, 0, 0⟩), .saveStart .ok,
      .command {} (stamp ⟨11, 0, 0⟩)] (start fun _ ↦ none)
    (fun w ↦ w.written.length = 3 ∧ w.child.isSome = true) (by decide +kernel)
  exact ⟨w, hwritten, hchild, marksLand_of_run sampleConfig (fun _ _ hfile ↦ by simp at hfile) hrun⟩

/-- **On a full disk the asterisk goes to a file without a record**: the file of the next day has
been opened and no space could be allocated, and the offset is one of the file of the day before. -/
theorem not_marksLand_rollover : ∃ w : World,
    Run (Step sampleConfig) (fun _ _ ↦ True) (start fun _ ↦ none) w ∧ ¬ w.MarksLand := by
  obtain ⟨w, hrun, ⟨child, hchild, hfd⟩, hwritten⟩ := Run.exists_of_next (fun _ _ ↦ true)
    (next sampleConfig)
    [.command {} (stamp ⟨1, 0, 0⟩), .command {} (stamp ⟨2, 0, 0⟩),
      .command { rollover := .enospc 0 } (stamp ⟨11, 0, 0⟩), .saveStart .ok] (start fun _ ↦ none)
    (fun w ↦ (∃ child ∈ w.child, child.fd = some 1) ∧ ∀ x ∈ w.written, x.day ≠ 1)
    (by decide +kernel)
  refine ⟨w, hrun.mono fun _ _ _ ↦ trivial, fun hland ↦ ?_⟩
  obtain ⟨x, hx, hday, -⟩ := hland child hchild 1 hfd
  exact hwritten x hx hday

end Jers.CommitMark
