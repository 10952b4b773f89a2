import Jers.Lib.Exec
import Jers.State.JournalText
import Mathlib.Data.Char
import Mathlib.Data.List.Lex
import Mathlib.Data.List.Sort

/-!
# Replaying the journal

A journal file holds the records of one day, the first byte of some of them overwritten with an
asterisk by a save, possibly a marker at the end, and zeros that have been allocated in advance.
`stateReplayJournal` looks for the last asterisk, newest file first, and replays what comes after
it.

The files are taken in the order of their names, which have the date without a separator and the
year without leading zeros. Where that is the order of the dates, what is replayed is exactly what
has not been committed, and only there (`replays_iff_names`).
-/

namespace Jers.JournalText

open List

/-! ### Reading the files -/

/-- The lines that `getline` returns, with their newlines. -/
def rawLines : Str → List Str
  | [] => []
  | c :: s =>
    if c = '\n' then ['\n'] :: rawLines s
    else match rawLines s with
      | [] => [[c]]
      | line :: lines => (c :: line) :: lines

/-- The loop of `checkForLastCommit`: the offset after the last line that starts with an
asterisk. -/
def lastCommit (offset : ℕ) (found : Option ℕ) : List Str → Option ℕ
  | [] => found
  | line :: lines =>
    lastCommit (offset + line.length)
      (if line.head? = some '*' then some (offset + line.length) else found) lines

def checkForLastCommit (journal : Str) : Option ℕ := lastCommit 0 none (rawLines journal)

/-- `replayTransaction`: the command that is passed to `replayCommand`, if any. -/
def replayTransaction (line : Str) : Except Fault (Option Replayed) :=
  let line := line.takeWhile fun c ↦ c != '\n' && c != '\x00'
  if line.head? = some '$' then .ok none
  else if line = [] then .ok none
  else convertJournalEntry line

def replayLines : List Str → Except Fault (List Replayed)
  | [] => .ok []
  | line :: lines => do
    let x ← replayTransaction line
    let xs ← replayLines lines
    return x.toList ++ xs

/-- `replayJournal` -/
def replayJournal (journal : Str) (offset : ℕ) : Except Fault (List Replayed) :=
  replayLines (rawLines (journal.drop offset))

def replayJournals : List Str → Except Fault (List Replayed)
  | [] => .ok []
  | journal :: journals => do
    let xs ← replayJournal journal 0
    let ys ← replayJournals journals
    return xs ++ ys

/-- The newest file with an asterisk, the offset after the last one in it, and the files after it.
The newer files are looked at first. -/
def newestCommit : List Str → Option (ℕ × Str × List Str)
  | [] => none
  | journal :: journals =>
    (newestCommit journals).or ((checkForLastCommit journal).map (·, journal, journals))

/-- `stateReplayJournal`, on the files that `glob` has found, by name. -/
def stateReplayJournal (dir : List (Str × Str)) : Except Fault (List Replayed) := do
  let journals := (dir.insertionSort (·.1 ≤ ·.1)).map (·.2)
  match newestCommit journals with
  | none => replayJournals journals
  | some (offset, journal, later) =>
    let xs ← replayJournal journal offset
    let ys ← replayJournals later
    return xs ++ ys

/-! ### What the files hold -/

inductive Entry
  | record (marked : Bool) (r : Record)
  | endOfJournal

def Entry.marked : Entry → Bool
  | .record marked _ => marked
  | .endOfJournal => false

/-- The text of an entry, up to its newline. -/
def Entry.line : Entry → Str
  | .record marked r => (if marked then '*' else ' ') :: r.body
  | .endOfJournal => ['$']

/-- The record of an entry, if it has a message. -/
def Entry.command : Entry → Option Record
  | .record _ r => if r.msg = [] then none else some r
  | .endOfJournal => none

structure Journal where
  entries : List Entry
  zeros : ℕ

def Journal.text (f : Journal) : Str :=
  f.entries.flatMap (·.line ++ ['\n']) ++ List.replicate f.zeros '\x00'

/-- The entries after the last one that is marked. -/
def afterLastMark : List Entry → List Entry
  | [] => []
  | e :: es =>
    if es.any Entry.marked then afterLastMark es
    else if e.marked then es
    else e :: es

/-- The records with a message that have not been committed. -/
def uncommitted (es : List Entry) : List Record := (afterLastMark es).filterMap Entry.command

structure Date where
  year : ℤ
  month : ℕ
  day : ℕ
  deriving DecidableEq, Repr

def Date.lt (d e : Date) : Prop :=
  d.year < e.year ∨ d.year = e.year ∧ (d.month < e.month ∨ d.month = e.month ∧ d.day < e.day)

/-- The dates that `localtime` returns. -/
def Date.Valid (d : Date) : Prop := IsInt32 d.year ∧ d.month ≤ 12 ∧ d.day ≤ 31

instance (d e : Date) : Decidable (d.lt e) := inferInstanceAs (Decidable (_ ∨ _))

instance (d : Date) : Decidable d.Valid := inferInstanceAs (Decidable (_ ∧ _))

/-- The name of the journal of a day. -/
def Date.journal (d : Date) : Str :=
  "journal.".toList ++ (int64tostr d.year ++ (padded 2 d.month ++ padded 2 d.day))

/-- **Replay covers exactly the uncommitted records**: however the directory is listed, what is
passed to `replayCommand` are the records after the last mark, in the order of the dates. -/
def Replays (dates : List Date) (content : Date → Journal) : Prop :=
  ∀ dir : List (Str × Str), dir.Perm (dates.map fun d ↦ (d.journal, (content d).text)) →
    ∃ xs, stateReplayJournal dir = .ok xs ∧
      List.Forall₂ Recovers xs (uncommitted (dates.flatMap fun d ↦ (content d).entries))

/-! ### The lines of a file -/

theorem rawLines_line {a : Str} (ha : ∀ c ∈ a, c ≠ '\n') (s : Str) :
    rawLines (a ++ '\n' :: s) = (a ++ ['\n']) :: rawLines s := by
  induction a with
  | nil => rw [nil_append, rawLines, if_pos rfl, nil_append]
  | cons c a ih =>
    rw [cons_append, rawLines, if_neg (ha c mem_cons_self),
      ih fun c hc ↦ ha c (mem_cons_of_mem _ hc)]
    rfl

theorem rawLines_zeros (n : ℕ) :
    rawLines (List.replicate n '\x00') = if n = 0 then [] else [List.replicate n '\x00'] := by
  induction n with
  | zero => rfl
  | succ n ih =>
    rw [replicate_succ, rawLines, if_neg (by decide), ih, if_neg (Nat.succ_ne_zero n)]
    split
    · next hlines =>
      split at hlines
      · next hn => rw [hn, replicate_zero]
      · exact nomatch hlines
    · next line lines hlines =>
      split at hlines
      · exact nomatch hlines
      · obtain ⟨rfl, rfl⟩ := cons.inj hlines
        rfl

/-- The characters of a line: none of them ends it. -/
def IsLine (s : Str) : Prop := ∀ c ∈ s, c ≠ '\n' ∧ c ≠ '\x00'

theorem IsLine.append {s t : Str} (hs : IsLine s) (ht : IsLine t) : IsLine (s ++ t) := fun c hc ↦
  (mem_append.mp hc).elim (hs c) (ht c)

theorem IsLine.cons {c : Char} {s : Str} (hc : c ≠ '\n' ∧ c ≠ '\x00') (hs : IsLine s) :
    IsLine (c :: s) :=
  forall_mem_cons.mpr ⟨hc, hs⟩

theorem isLine_int64tostr (n : ℤ) : IsLine (int64tostr n) := by
  intro c hc
  rcases mem_int64tostr hc with rfl | ⟨d, hd, rfl⟩
  · decide
  · interval_cases d <;> decide

theorem isLine_padded (width n : ℕ) : IsLine (padded width n) := by
  refine .append (fun c hc ↦ ?_) (isLine_int64tostr n)
  rw [eq_of_mem_replicate hc]
  decide

theorem Record.isLine_body (r : Record) : IsLine r.body := by
  have htab : '\t' ≠ '\n' ∧ '\t' ≠ '\x00' := by decide
  have hcmd : IsLine r.cmd := by
    intro c hc
    obtain ⟨hspace, hzero⟩ := r.cmd_visible c hc
    refine ⟨?_, hzero⟩
    rintro rfl
    exact absurd hspace (by decide)
  have hmsg : IsLine r.msg := r.msg_text
  exact .append (isLine_int64tostr _) <| .cons (by decide) <| .append (isLine_padded _ _) <|
    .cons htab <| .append (isLine_int64tostr _) <| .cons htab <| .append hcmd <|
    .cons htab <| .append (isLine_int64tostr _) <| .cons htab <| .append (isLine_int64tostr _) <|
    .cons htab hmsg

theorem Entry.isLine_line (e : Entry) : IsLine e.line := by
  cases e with
  | record marked r =>
    refine .cons ?_ r.isLine_body
    cases marked <;> decide
  | endOfJournal => exact .cons (by decide) nofun

theorem rawLines_text (es : List Entry) (n : ℕ) :
    rawLines (es.flatMap (·.line ++ ['\n']) ++ List.replicate n '\x00') =
      es.map (·.line ++ ['\n']) ++ rawLines (List.replicate n '\x00') := by
  induction es with
  | nil => rfl
  | cons e es ih =>
    rw [flatMap_cons, append_assoc, append_assoc, singleton_append,
      rawLines_line fun c hc ↦ (e.isLine_line c hc).1, ih]
    rfl

/-! ### Replaying what is not marked -/

theorem takeWhile_line {a : Str} (ha : IsLine a) :
    (a ++ ['\n']).takeWhile (fun c ↦ c != '\n' && c != '\x00') = a := by
  rw [takeWhile_append_of_pos fun c hc ↦ by simp [ha c hc], takeWhile_cons_of_neg (by decide),
    append_nil]

/-- The end of a file is nothing to replay. -/
theorem replayLines_zeros (n : ℕ) : replayLines (rawLines (List.replicate n '\x00')) = .ok [] := by
  rw [rawLines_zeros]
  cases n with
  | zero => rfl
  | succ n =>
    have hnone : replayTransaction (replicate (n + 1) '\x00') = .ok none := by
      rw [replayTransaction, replicate_succ, takeWhile_cons_of_neg (by decide)]
      rfl
    rw [if_neg (Nat.succ_ne_zero n), replayLines, hnone]
    rfl

variable {e : Entry}

/-- An entry that is not marked is replayed if it has a message. -/
theorem replayTransaction_entry (he : e.marked = false) :
    ∃ x : Option Replayed, replayTransaction (e.line ++ ['\n']) = .ok x ∧
      List.Forall₂ Recovers x.toList e.command.toList := by
  have hspace : ∀ c ∈ [' '], isSpace c = true := by decide
  cases e with
  | endOfJournal => exact ⟨none, rfl, .nil⟩
  | record marked r =>
    have hmarked : marked = false := he
    subst hmarked
    have hline : replayTransaction (Entry.line (.record false r) ++ ['\n']) =
        convertJournalEntry ([' '] ++ r.body) := by
      rw [replayTransaction, takeWhile_line (Entry.isLine_line _)]
      rfl
    rw [hline]
    by_cases hmsg : r.msg = []
    · refine ⟨none, convertJournalEntry_empty hspace hmsg, ?_⟩
      rw [Entry.command, if_pos hmsg]
      exact .nil
    · obtain ⟨x, hx, hrecovers⟩ := convertJournalEntry_loads hspace hmsg
      refine ⟨some x, hx, ?_⟩
      rw [Entry.command, if_neg hmsg]
      exact .cons hrecovers .nil

variable {xs : List Replayed}

theorem replayLines_append {ls ls' : List Str} {ys : List Replayed} (hxs : replayLines ls = .ok xs)
    (hys : replayLines ls' = .ok ys) : replayLines (ls ++ ls') = .ok (xs ++ ys) := by
  induction ls generalizing xs with
  | nil =>
    obtain rfl : [] = xs := Except.ok.inj hxs
    exact hys
  | cons l ls ih =>
    rw [replayLines] at hxs
    obtain ⟨x, hx, hrest⟩ := Except.bind_eq_ok_iff.mp hxs
    obtain ⟨zs, hzs, hsum⟩ := Except.bind_eq_ok_iff.mp hrest
    obtain rfl : x.toList ++ zs = xs := Except.ok.inj hsum
    rw [cons_append, replayLines, hx, append_assoc]
    show (replayLines (ls ++ ls')).bind _ = _
    rw [ih hzs]
    rfl

variable {es : List Entry}

/-- Entries that are not marked are replayed one after another. -/
theorem replayLines_entries (hes : ∀ e ∈ es, e.marked = false) :
    ∃ xs, replayLines (es.map (·.line ++ ['\n'])) = .ok xs ∧
      List.Forall₂ Recovers xs (es.filterMap Entry.command) := by
  induction es with
  | nil => exact ⟨[], rfl, .nil⟩
  | cons e es ih =>
    obtain ⟨x, hx, hrecovers⟩ := replayTransaction_entry (hes e mem_cons_self)
    obtain ⟨xs, hxs, hrest⟩ := ih fun e he ↦ hes e (mem_cons_of_mem _ he)
    refine ⟨x.toList ++ xs, ?_, ?_⟩
    · rw [map_cons, replayLines, hx]
      show (replayLines _).bind _ = _
      rw [hxs]
      rfl
    · have hsplit : (e :: es).filterMap Entry.command = e.command.toList ++
          es.filterMap Entry.command := by
        cases hc : e.command with
        | none => rw [filterMap_cons_none hc]; rfl
        | some r => rw [filterMap_cons_some hc]; rfl
      rw [hsplit]
      exact rel_append hrecovers hrest

/-- A file from an entry on after which nothing is marked. -/
theorem replayLines_text (hes : ∀ e ∈ es, e.marked = false) (n : ℕ) :
    ∃ xs, replayLines (rawLines (es.flatMap (·.line ++ ['\n']) ++ List.replicate n '\x00')) =
      .ok xs ∧ List.Forall₂ Recovers xs (es.filterMap Entry.command) := by
  obtain ⟨xs, hxs, hrecovers⟩ := replayLines_entries hes
  refine ⟨xs, ?_, hrecovers⟩
  rw [rawLines_text]
  have hall := replayLines_append hxs (replayLines_zeros n)
  rwa [append_nil] at hall

/-! ### The last mark -/

theorem Entry.head_line (e : Entry) : (e.line ++ ['\n']).head? = some '*' ↔ e.marked = true := by
  cases e with
  | record marked r => cases marked <;> simp [Entry.line, Entry.marked]
  | endOfJournal => simp [Entry.line, Entry.marked]

theorem lastCommit_append (offset : ℕ) (found : Option ℕ) (ls ls' : List Str) :
    lastCommit offset found (ls ++ ls') =
      lastCommit (offset + ls.flatten.length) (lastCommit offset found ls) ls' := by
  induction ls generalizing offset found with
  | nil => rfl
  | cons l ls ih =>
    rw [cons_append, lastCommit, ih, lastCommit, flatten_cons, length_append, Nat.add_assoc]

/-- Lines that do not start with an asterisk. -/
theorem lastCommit_of_unmarked (offset : ℕ) (found : Option ℕ) {ls : List Str}
    (hls : ∀ l ∈ ls, l.head? ≠ some '*') : lastCommit offset found ls = found := by
  induction ls generalizing offset with
  | nil => rfl
  | cons l ls ih =>
    rw [lastCommit, if_neg (hls l mem_cons_self)]
    exact ih _ fun l hl ↦ hls l (mem_cons_of_mem _ hl)

theorem unmarked_zeros (n : ℕ) : ∀ l ∈ rawLines (List.replicate n '\x00'), l.head? ≠ some '*' := by
  intro l hl
  rw [rawLines_zeros] at hl
  cases n with
  | zero => exact nomatch hl
  | succ n =>
    rw [if_neg (Nat.succ_ne_zero n), mem_singleton] at hl
    rw [hl, replicate_succ]
    exact fun h ↦ absurd (Option.some.inj h) (by decide)

theorem unmarked_entries (hes : ∀ e ∈ es, e.marked = false) :
    ∀ l ∈ es.map (·.line ++ ['\n']), l.head? ≠ some '*' := by
  intro l hl
  obtain ⟨e, he, rfl⟩ := mem_map.mp hl
  rw [Ne, Entry.head_line, hes e he]
  exact Bool.false_ne_true

/-- A file without a mark. -/
theorem checkForLastCommit_none {f : Journal} (hf : ∀ e ∈ f.entries, e.marked = false) :
    checkForLastCommit f.text = none := by
  rw [checkForLastCommit, Journal.text, rawLines_text, lastCommit_append,
    lastCommit_of_unmarked _ _ (unmarked_entries hf), lastCommit_of_unmarked _ _ (unmarked_zeros _)]

/-- A file with a mark: the offset is that of the entry after it. -/
theorem checkForLastCommit_some {before after : List Entry} {n : ℕ} (he : e.marked = true)
    (hafter : ∀ e ∈ after, e.marked = false) :
    checkForLastCommit (Journal.text ⟨before ++ e :: after, n⟩) =
      some ((before ++ [e]).flatMap (·.line ++ ['\n'])).length := by
  have hlines : rawLines (Journal.text ⟨before ++ e :: after, n⟩) =
      before.map (·.line ++ ['\n']) ++ (e.line ++ ['\n']) ::
        (after.map (·.line ++ ['\n']) ++ rawLines (replicate n '\x00')) := by
    rw [Journal.text, rawLines_text]
    simp
  rw [checkForLastCommit, hlines, lastCommit_append, lastCommit,
    if_pos ((Entry.head_line e).mpr he), lastCommit_append,
    lastCommit_of_unmarked _ _ (unmarked_entries hafter),
    lastCommit_of_unmarked _ _ (unmarked_zeros n)]
  simp [flatMap_def]

/-- What is left of the file after the offset. -/
theorem drop_text (before after : List Entry) (e : Entry) (n : ℕ) :
    (Journal.text ⟨before ++ e :: after, n⟩).drop ((before ++ [e]).flatMap (·.line ++
      ['\n'])).length = after.flatMap (·.line ++ ['\n']) ++ List.replicate n '\x00' := by
  have hsplit :
      Journal.text ⟨before ++ e :: after, n⟩ = (before ++ [e]).flatMap (·.line ++ ['\n']) ++
      (after.flatMap (·.line ++ ['\n']) ++ replicate n '\x00') := by
    simp [Journal.text]
  rw [hsplit, drop_left]

theorem afterLastMark_of_unmarked (hes : ∀ e ∈ es, e.marked = false) : afterLastMark es = es := by
  cases es with
  | nil => rfl
  | cons e es =>
    have hnone : es.any Entry.marked = false :=
      any_eq_false.mpr fun e he ↦ by simp [hes e (mem_cons_of_mem _ he)]
    rw [afterLastMark, hnone, hes e mem_cons_self]
    rfl

theorem afterLastMark_marked (before : List Entry) {after : List Entry} (he : e.marked = true)
    (hafter : ∀ e ∈ after, e.marked = false) : afterLastMark (before ++ e :: after) = after := by
  have hnone : after.any Entry.marked = false :=
    any_eq_false.mpr fun e he ↦ by simp [hafter e he]
  induction before with
  | nil => rw [nil_append, afterLastMark, hnone, he]; rfl
  | cons b before ih =>
    have hsome : (before ++ e :: after).any Entry.marked = true :=
      any_eq_true.mpr ⟨e, by simp, he⟩
    rw [cons_append, afterLastMark, if_pos hsome, ih]

/-- A list of entries has a last mark or none. -/
theorem exists_last_mark (es : List Entry) : (∀ e ∈ es, e.marked = false) ∨
    ∃ before e after, es = before ++ e :: after ∧ e.marked = true ∧ ∀ e ∈ after,
    e.marked = false := by
  induction es with
  | nil => exact .inl fun e he ↦ nomatch he
  | cons e es ih =>
    rcases ih with hnone | ⟨before, m, after, rfl, hm, hafter⟩
    · cases he : e.marked with
      | false => exact .inl (forall_mem_cons.mpr ⟨he, hnone⟩)
      | true => exact .inr ⟨[], e, es, rfl, he, hnone⟩
    · exact .inr ⟨e :: before, m, after, rfl, hm, hafter⟩

/-! ### All files -/

variable {fs : List Journal}

theorem replayJournals_of_unmarked (hfs : ∀ f ∈ fs, ∀ e ∈ f.entries, e.marked = false) :
    ∃ xs, replayJournals (fs.map Journal.text) = .ok xs ∧
      List.Forall₂ Recovers xs ((fs.flatMap Journal.entries).filterMap Entry.command) := by
  induction fs with
  | nil => exact ⟨[], rfl, .nil⟩
  | cons f fs ih =>
    obtain ⟨xs, hxs, hrecovers⟩ := replayLines_text (hfs f mem_cons_self) f.zeros
    obtain ⟨ys, hys, hrest⟩ := ih fun f hf ↦ hfs f (mem_cons_of_mem _ hf)
    refine ⟨xs ++ ys, ?_, ?_⟩
    · have hfirst : replayJournal f.text 0 = .ok xs := by
        rw [replayJournal, drop_zero]
        exact hxs
      rw [map_cons, replayJournals, hfirst]
      show (replayJournals _).bind _ = _
      rw [hys]
      rfl
    · rw [flatMap_cons, filterMap_append]
      exact rel_append hrecovers hrest

theorem newestCommit_none (hfs : ∀ f ∈ fs, ∀ e ∈ f.entries, e.marked = false) :
    newestCommit (fs.map Journal.text) = none := by
  induction fs with
  | nil => rfl
  | cons f fs ih =>
    rw [map_cons, newestCommit, ih fun f hf ↦ hfs f (mem_cons_of_mem _ hf),
      checkForLastCommit_none (hfs f mem_cons_self)]
    rfl

theorem newestCommit_some (older : List Journal) {f : Journal} {later : List Journal} {offset : ℕ}
    (hoffset : checkForLastCommit f.text = some offset)
    (hlater : ∀ f ∈ later, ∀ e ∈ f.entries, e.marked = false) :
    newestCommit ((older ++ f :: later).map Journal.text) = some (offset, f.text,
    later.map Journal.text) := by
  induction older with
  | nil =>
    rw [nil_append, map_cons, newestCommit, newestCommit_none hlater, hoffset]
    rfl
  | cons g older ih =>
    rw [cons_append, map_cons, newestCommit, ih]
    rfl

/-- The files have a last one with a mark, or none. -/
theorem exists_last_marked (fs : List Journal) : (∀ f ∈ fs, ∀ e ∈ f.entries, e.marked = false) ∨
    ∃ older before e after n later, fs = older ++ ⟨before ++ e :: after, n⟩ :: later ∧
      e.marked = true ∧ (∀ e ∈ after, e.marked = false) ∧ ∀ f ∈ later, ∀ e ∈ f.entries,
      e.marked = false := by
  induction fs with
  | nil => exact .inl fun f hf ↦ nomatch hf
  | cons f fs ih =>
    rcases ih with hnone | ⟨older, before, m, after, n, later, rfl, hm, hafter, hlater⟩
    · rcases exists_last_mark f.entries with hf | ⟨before, m, after, hentries, hm, hafter⟩
      · exact .inl (forall_mem_cons.mpr ⟨hf, hnone⟩)
      · refine .inr ⟨[], before, m, after, f.zeros, fs, ?_, hm, hafter, hnone⟩
        rw [nil_append, ← hentries]
    · exact .inr ⟨f :: older, before, m, after, n, later, rfl, hm, hafter, hlater⟩

/-- **In the order in which the files are taken, exactly the uncommitted records are replayed.** -/
theorem stateReplayJournal_sorted {dir : List (Str × Str)}
    (hdir : (dir.insertionSort (·.1 ≤ ·.1)).map (·.2) = fs.map Journal.text) :
    ∃ xs, stateReplayJournal dir = .ok xs ∧
      List.Forall₂ Recovers xs (uncommitted (fs.flatMap Journal.entries)) := by
  rw [stateReplayJournal, hdir]
  rcases exists_last_marked fs with hnone |
    ⟨older, before, m, after, n, later, rfl, hm, hafter, hlater⟩
  · obtain ⟨xs, hxs, hrecovers⟩ := replayJournals_of_unmarked hnone
    refine ⟨xs, ?_, ?_⟩
    · simp only [newestCommit_none hnone, hxs]
    · rw [uncommitted, afterLastMark_of_unmarked]
      · exact hrecovers
      · intro e he
        obtain ⟨f, hf, hmem⟩ := mem_flatMap.mp he
        exact hnone f hf e hmem
  · obtain ⟨xs, hxs, hrecovers⟩ := replayLines_text hafter n
    obtain ⟨ys, hys, hrest⟩ := replayJournals_of_unmarked hlater
    refine ⟨xs ++ ys, ?_, ?_⟩
    · have hfirst : replayJournal (Journal.text ⟨before ++ m :: after, n⟩)
          ((before ++ [m]).flatMap (·.line ++ ['\n'])).length = .ok xs := by
        rw [replayJournal, drop_text]
        exact hxs
      simp only [newestCommit_some older (checkForLastCommit_some hm hafter) hlater, hfirst, hys]
      rfl
    · have hall : (older ++ ⟨before ++ m :: after, n⟩ :: later).flatMap Journal.entries =
          (older.flatMap Journal.entries ++ before) ++
          m :: (after ++ later.flatMap Journal.entries) := by
        simp
      have hunmarked : ∀ e ∈ after ++ later.flatMap Journal.entries, e.marked = false := by
        intro e he
        rcases mem_append.mp he with he | he
        · exact hafter e he
        · obtain ⟨f, hf, hmem⟩ := mem_flatMap.mp he
          exact hlater f hf e hmem
      rw [uncommitted, hall, afterLastMark_marked _ hm hunmarked, filterMap_append]
      exact rel_append hrecovers hrest

/-! ### The names of the files -/

theorem padded_two {n : ℕ} (h : n < 100) :
    padded 2 n = [Nat.digitChar (n / 10), Nat.digitChar (n % 10)] := by
  have hnot : ¬ (n : ℤ) < 0 := by omega
  by_cases hn : n / 10 = 0
  · have hdigits : int64tostr n = [Nat.digitChar (n % 10)] := by
      rw [int64tostr, if_neg hnot, if_neg hnot, Int.toNat_natCast, digitsRev, if_pos hn]
      rfl
    rw [padded, hdigits, hn]
    rfl
  · have hlast : n / 10 / 10 = 0 := by omega
    have hmod : n / 10 % 10 = n / 10 := by omega
    have hdigits : int64tostr n = [Nat.digitChar (n / 10), Nat.digitChar (n % 10)] := by
      rw [int64tostr, if_neg hnot, if_neg hnot, Int.toNat_natCast, digitsRev, if_neg hn, digitsRev,
        if_pos hlast, hmod]
      rfl
    rw [padded, hdigits]
    rfl

theorem digitChar_inj {a b : ℕ} (ha : a < 10) (hb : b < 10)
    (h : Nat.digitChar a = Nat.digitChar b) : a = b := by
  interval_cases a <;> interval_cases b <;> first | rfl | exact absurd h (by decide)

theorem padded_two_inj {a b : ℕ} (ha : a < 100) (hb : b < 100) (h : padded 2 a = padded 2 b) :
    a = b := by
  rw [padded_two ha, padded_two hb] at h
  obtain ⟨htens, hrest⟩ := cons.inj h
  have htens' := digitChar_inj (by omega) (by omega) htens
  have hones' :=
    digitChar_inj (Nat.mod_lt _ (by omega)) (Nat.mod_lt _ (by omega)) (cons.inj hrest).1
  omega

theorem int64tostr_inj {a b : ℤ} (ha : IsInt64 a) (hb : IsInt64 b)
    (h : int64tostr a = int64tostr b) : a = b := by
  have hnil : NotDigitHead [] := nofun
  have hread := strtoint64_int64tostr ha hnil
  rw [h, strtoint64_int64tostr hb hnil] at hread
  exact (congrArg Prod.fst hread).symm

/-- Two days do not share a journal. -/
theorem Date.journal_inj {d e : Date} (hd : d.Valid) (he : e.Valid) (h : d.journal = e.journal) :
    d = e := by
  obtain ⟨hyear, hmonth, hday⟩ := hd
  obtain ⟨hyear', hmonth', hday'⟩ := he
  have hrest := append_cancel_left h
  have hlength {a b : ℕ} (ha : a ≤ 31) (hb : b ≤ 31) :
      (padded 2 a).length = (padded 2 b).length := by
    rw [padded_two (by omega), padded_two (by omega)]
    rfl
  have hdays :
      (padded 2 d.month ++ padded 2 d.day).length = (padded 2 e.month ++
        padded 2 e.day).length := by
    rw [length_append, length_append, hlength (by omega) (show e.month ≤ 31 by omega),
      hlength hday hday']
  obtain ⟨hy, hmd⟩ := append_inj' hrest hdays
  obtain ⟨hm, hd⟩ := append_inj' hmd (hlength hday hday')
  have hyears := int64tostr_inj hyear.isInt64 hyear'.isInt64 hy
  have hmonths := padded_two_inj (by omega) (by omega) hm
  have hdays := padded_two_inj (by omega) (by omega) hd
  cases d
  cases e
  simp_all

/-! ### Which sets of days are replayed in order -/

theorem le_total_fst : Std.Total fun f g : Str × Str ↦ f.1 ≤ g.1 := ⟨fun f g ↦ le_total f.1 g.1⟩

theorem le_trans_fst : IsTrans (Str × Str) fun f g ↦ f.1 ≤ g.1 := ⟨fun _ _ _ ↦ le_trans⟩

variable {dates : List Date}

theorem nodup_of_names (h : dates.Pairwise fun d e ↦ d.journal < e.journal) :
    (dates.map Date.journal).Nodup := by
  refine pairwise_map.mpr (h.imp ?_)
  intro d e hlt heq
  rw [heq] at hlt
  exact lt_irrefl _ hlt

/-- Files whose names are in the order of the list. -/
theorem replays_of_names (h : dates.Pairwise fun d e ↦ d.journal < e.journal)
    (content : Date → Journal) : Replays dates content := by
  intro dir hperm
  have htotal := le_total_fst
  have htrans := le_trans_fst
  have hsorted := pairwise_insertionSort (fun f g : Str × Str ↦ f.1 ≤ g.1) dir
  have hnames : (dates.map fun d ↦ (d.journal, (content d).text)).Pairwise fun f g ↦ f.1 ≤ g.1 :=
    pairwise_map.mpr (h.imp le_of_lt)
  have hperm' := (perm_insertionSort (fun f g : Str × Str ↦ f.1 ≤ g.1) dir).trans hperm
  have heq : dir.insertionSort (·.1 ≤ ·.1) = dates.map fun d ↦ (d.journal, (content d).text) := by
    refine List.Perm.eq_of_pairwise (fun f g hf hg hle hge ↦ ?_) hsorted hnames hperm'
    obtain ⟨d, hd, rfl⟩ := mem_map.mp (hperm'.mem_iff.mp hf)
    obtain ⟨e, he, rfl⟩ := mem_map.mp hg
    have hsame : d.journal = e.journal := le_antisymm hle hge
    rw [inj_on_of_nodup_map (nodup_of_names h) hd he hsame]
  have hdir : (dir.insertionSort (·.1 ≤ ·.1)).map (·.2) = (dates.map content).map Journal.text := by
    rw [heq, map_map, map_map]
    rfl
  obtain ⟨xs, hxs, hrecovers⟩ := stateReplayJournal_sorted hdir
  rw [flatMap_map] at hrecovers
  exact ⟨xs, hxs, hrecovers⟩

/-- The message of the records below. -/
def sampleMsg : Str := "\x7b\"JOB_ADD\":\x7b\x7d\x7d".toList

theorem loadMessage_sampleMsg :
    loadMessage sampleMsg = .ok { command := some "JOB_ADD".toList } := by
  show commandLoop { command := some "JOB_ADD".toList } [] = _
  exact commandLoop_of_none rfl

/-- A record that carries a date. -/
def stamp (d : Date) : Record where
  seconds := Int.bmod d.year (2 ^ 32)
  millis := 0
  uid := d.month % 2 ^ 32
  cmd := "JOB_ADD".toList
  jobid := d.day % 2 ^ 32
  revision := 0
  msg := sampleMsg
  seconds_int64 := (isInt32_bmod d.year).isInt64
  uid_lt := Nat.mod_lt _ (by decide)
  cmd_ne := by decide
  cmd_length := by decide
  cmd_visible := by decide
  jobid_lt := Nat.mod_lt _ (by decide)
  revision_int64 := by decide
  msg_text := by decide
  msg_loads := .inr ⟨_, loadMessage_sampleMsg⟩

/-- A journal of one record for each day. -/
def stamped (d : Date) : Journal := ⟨[.record false (stamp d)], 0⟩

theorem uncommitted_stamped (dates : List Date) :
    uncommitted (dates.flatMap fun d ↦ (stamped d).entries) = dates.map stamp := by
  have hentries : (dates.flatMap fun d ↦ (stamped d).entries) =
      dates.map fun d ↦ Entry.record false (stamp d) := by
    induction dates with
    | nil => rfl
    | cons d dates ih =>
      rw [flatMap_cons, ih]
      rfl
  have hunmarked : ∀ e ∈ dates.map fun d ↦ Entry.record false (stamp d), e.marked = false := by
    intro e he
    obtain ⟨d, -, rfl⟩ := mem_map.mp he
    rfl
  have hcommand (d : Date) : Entry.command (.record false (stamp d)) = some (stamp d) := by
    rw [Entry.command, if_neg (show (stamp d).msg ≠ [] from (by decide : sampleMsg ≠ []))]
  rw [uncommitted, hentries, afterLastMark_of_unmarked hunmarked, filterMap_map]
  exact filterMap_eq_map_iff_forall_eq_some.mpr fun d _ ↦ hcommand d

/-- The date can be told from the record. -/
theorem date_of_stamp {d : Date} (hd : d.Valid) :
    (⟨(stamp d).scanned.time, (stamp d).scanned.uid, (stamp d).scanned.jobid⟩ : Date) = d := by
  obtain ⟨hyear, hmonth, hday⟩ := hd
  have hm : d.month % 2 ^ 32 = d.month := Nat.mod_eq_of_lt (by omega)
  have hd : d.day % 2 ^ 32 = d.day := Nat.mod_eq_of_lt (by omega)
  simp only [stamp, Record.scanned, hyear.bmod_eq, hm, hd]

theorem map_scanned_of_recovers {rs : List Record} (h : List.Forall₂ Recovers xs rs) :
    xs.map Replayed.toScanned = rs.map Record.scanned := by
  induction h with
  | nil => rfl
  | cons hrecovers _ ih => rw [map_cons, map_cons, hrecovers.1, ih]

theorem eq_of_recovers {dates' : List Date} (hvalid : ∀ d ∈ dates, d.Valid)
    (hvalid' : ∀ d ∈ dates', d.Valid) (h : List.Forall₂ Recovers xs (dates.map stamp))
    (h' : List.Forall₂ Recovers xs (dates'.map stamp)) : dates = dates' := by
  have hback {ds : List Date} (hds : ∀ d ∈ ds, d.Valid) :
      ((ds.map stamp).map Record.scanned).map (fun x ↦ (⟨x.time, x.uid, x.jobid⟩ : Date)) = ds := by
    rw [map_map, map_map]
    exact (map_congr_left fun d hd ↦ date_of_stamp (hds d hd)).trans (map_id' ds)
  rw [← hback hvalid, ← hback hvalid', ← map_scanned_of_recovers h, ← map_scanned_of_recovers h']

/-- Replay goes by the order of the names, and records that carry the date show that it is the order
of the days. -/
theorem names_of_replays (hdates : dates.Pairwise Date.lt) (hvalid : ∀ d ∈ dates, d.Valid)
    (hreplays : Replays dates stamped) : dates.Pairwise fun d e ↦ d.journal < e.journal := by
  have htotal : Std.Total fun d e : Date ↦ d.journal ≤ e.journal := ⟨fun d e ↦ le_total _ _⟩
  have htrans : IsTrans Date fun d e ↦ d.journal ≤ e.journal := ⟨fun _ _ _ ↦ le_trans⟩
  have hsorted := pairwise_insertionSort (fun d e : Date ↦ d.journal ≤ e.journal) dates
  have hperm := perm_insertionSort (fun d e : Date ↦ d.journal ≤ e.journal) dates
  generalize dates.insertionSort (fun d e ↦ d.journal ≤ e.journal) = sorted at hsorted hperm
  have hvalid' : ∀ d ∈ sorted, d.Valid := fun d hd ↦ hvalid d (hperm.mem_iff.mp hd)
  have hnodup : sorted.Nodup := hperm.nodup_iff.mpr (hdates.imp fun hlt heq ↦ by
    subst heq
    simp [Date.lt] at hlt)
  have hnames : sorted.Pairwise fun d e ↦ d.journal < e.journal := by
    refine ((List.Pairwise.and_mem.mp hsorted).and hnodup).imp ?_
    rintro d e ⟨⟨hd, he, hle⟩, hne⟩
    by_contra hnot
    exact hne (Date.journal_inj (hvalid' d hd) (hvalid' e he) (le_antisymm hle (not_lt.mp hnot)))
  obtain ⟨xs, hxs, hrecovers⟩ := replays_of_names hnames stamped _ (hperm.symm.map _)
  obtain ⟨ys, hys, hrecovers'⟩ := hreplays _ (.refl _)
  obtain rfl : xs = ys := Except.ok.inj (hxs.symm.trans hys)
  rw [uncommitted_stamped] at hrecovers hrecovers'
  rw [← eq_of_recovers hvalid' hvalid hrecovers hrecovers']
  exact hnames

/-- **Replay is exact for whatever the journals of some days hold if and only if the names of the
journals are in the order of the days.** -/
theorem replays_iff_names {dates : List Date} (hdates : dates.Pairwise Date.lt)
    (hvalid : ∀ d ∈ dates, d.Valid) :
    (∀ content, Replays dates content) ↔ dates.Pairwise fun d e ↦ d.journal < e.journal :=
  ⟨fun hreplays ↦ names_of_replays hdates hvalid (hreplays stamped), replays_of_names⟩

/-- Two days of one year. -/
theorem replays_two_days : Replays [⟨2024, 9, 30⟩, ⟨2024, 10, 1⟩] stamped :=
  (replays_iff_names (by decide) (by decide)).mpr (by decide +kernel) stamped

/-- **The first day of the year 10000 is taken for an earlier one than the last day of the year
9999**, so the records of the two days are replayed in the wrong order. -/
theorem not_replays_year_10000 : ¬ Replays [⟨9999, 12, 31⟩, ⟨10000, 1, 1⟩] stamped := by
  intro hreplays
  have hnames := names_of_replays (by decide) (by decide) hreplays
  exact absurd hnames (by decide +kernel)

end Jers.JournalText
