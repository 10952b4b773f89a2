import Jers.Json.CursorFrame
import Jers.State.JournalSpace

/-!
# Requests and responses on the socket of a client

`sendRequest` adds the result of `send` to its counter even if the call has been interrupted: the
counter wraps around and nothing is sent, or a byte is sent twice (`sentOnce_iff`).

`readResponse` always waits for more data, and looks for the newline only in as many bytes of its
buffer as it has just received. With the end of one response and the start of the next in one
packet, a call can wait for a response that is already there, or miss the newline. The message is
parsed in the buffer, and what is left over behind its line is moved over it before the caller reads
it (`readsLines_iff`).
-/

namespace Jers.Transfer

open List Option

/-! ### Sending a request -/

/-- The loop of `sendRequest`, from its counter on: the return code, the bytes of the request that
the socket accepts, and the offsets and lengths handed to `send`, if the loop makes just these
calls. -/
def sendRequest (length : ℕ) : ℕ → List Syscall → Option (ℕ × List ℕ × List (ℕ × ℕ))
  | total, [] => if total < length then none else some (0, [], [])
  | total, .count n :: results =>
    if total < length ∧ n ≤ length - total then
      (sendRequest length ((total + n) % 2 ^ 64) results).map fun x ↦
        (x.1, range' total n ++ x.2.1, (total, length - total) :: x.2.2)
    else none
  -- the result -1 wraps around as an unsigned number
  | total, .interrupted :: results =>
    if total < length then
      (sendRequest length ((total + (2 ^ 64 - 1)) % 2 ^ 64) results).map fun x ↦
        (x.1, x.2.1, (total, length - total) :: x.2.2)
    else none
  | total, .failed :: results =>
    if total < length ∧ results = [] then some (1, [], [(total, length - total)]) else none

variable {length total k rc : ℕ} {results : List Syscall} {accepted : List ℕ} {calls : List (ℕ × ℕ)}

/-- The calls stay within the buffer, and the error return is for an error of `send`. -/
theorem sendRequest_calls (h : sendRequest length total results = some (rc, accepted, calls)) :
    (∀ c ∈ calls, c.1 + c.2 ≤ length) ∧ (rc = 0 ↔ .failed ∉ results) := by
  fun_induction sendRequest length total results generalizing accepted calls with
  | case1 | case4 | case6 | case8 => contradiction
  | case2 | case7 =>
    obtain ⟨rfl, rfl, rfl⟩ := h
    simp
    try omega
  | case3 total n results hlt ih | case5 total results hlt ih =>
    obtain ⟨x, hx, ⟨⟩⟩ := map_eq_some_iff.mp h
    obtain ⟨hcalls, hrc⟩ := ih hx
    refine ⟨forall_mem_cons.mpr ⟨by omega, hcalls⟩, by simpa using hrc⟩

/-- Once the counter has reached the length, nothing more is sent. -/
theorem sendRequest_done (htotal : length ≤ total)
    (h : sendRequest length total results = some (rc, accepted, calls)) : accepted = [] := by
  fun_induction sendRequest length total results with
  | case2 => exact (congrArg (·.2.1) (some.inj h)).symm
  | case1 | case4 | case6 | case8 => contradiction
  | case3 | case5 | case7 => omega

/-- The first byte accepted from a counter below `k` on is below `k`. -/
theorem sendRequest_head (hlength : length < 2 ^ 64) (htotal : total < k)
    (h : sendRequest length total results = some (rc, accepted, calls)) :
    ∀ a ∈ accepted.head?, a < k := by
  fun_induction sendRequest length total results generalizing accepted calls with
  | case1 | case4 | case6 | case8 => contradiction
  | case2 | case7 =>
    obtain ⟨rfl, rfl, rfl⟩ := h
    simp
  | case3 total n results hlt ih =>
    obtain ⟨x, hx, ⟨⟩⟩ := map_eq_some_iff.mp h
    cases n with
    | zero => exact ih (by omega) hx
    | succ n => simpa [range'_succ] using htotal
  | case5 total results hlt ih =>
    obtain ⟨x, hx, ⟨⟩⟩ := map_eq_some_iff.mp h
    cases total with
    | succ total => exact ih (by omega) hx
    -- the counter is at its largest value: the loop ends
    | zero => simp [sendRequest_done (by omega) hx]

/-- From its counter on, the loop sends the rest of the request just once if no call has been
interrupted: after an interruption, the next byte that is accepted is one that has been accepted
before. -/
theorem sendRequest_accepted (hlength : length < 2 ^ 64) (htotal : total ≤ length)
    (h : sendRequest length total results = some (0, accepted, calls)) :
    accepted = range' total (length - total) ↔ .interrupted ∉ results := by
  fun_induction sendRequest length total results generalizing accepted calls with
  | case1 | case4 | case6 | case8 => contradiction
  | case7 => simp at h
  | case2 total hend =>
    obtain ⟨-, rfl, rfl⟩ := h
    simp
    omega
  | case3 total n results hlt ih =>
    obtain ⟨x, hx, heq⟩ := map_eq_some_iff.mp h
    obtain ⟨x0, sent, made⟩ := x
    obtain ⟨rfl, rfl, rfl⟩ := heq
    have hsum : (total + n) % 2 ^ 64 = total + n := Nat.mod_eq_of_lt (by omega)
    rw [hsum] at hx ih
    have hrest : range' total (length - total) = range' total n ++
        range' (total + n) (length - (total + n)) := by
      rw [range'_append_1, show n + (length - (total + n)) = length - total by omega]
    rw [hrest, append_cancel_left_eq]
    simpa using ih (by omega) hx
  | case5 total results hlt ih =>
    obtain ⟨x, hx, heq⟩ := map_eq_some_iff.mp h
    obtain ⟨x0, sent, made⟩ := x
    obtain ⟨rfl, rfl, rfl⟩ := heq
    refine iff_of_false (fun hall : sent = range' total (length - total) ↦ ?_) (by simp)
    have hfirst : total ∈ sent.head? := by
      rw [hall, head?_range', if_neg (by omega)]
      rfl
    cases total with
    | zero => simp [sendRequest_done (by omega) hx] at hfirst
    | succ total =>
      exact absurd (sendRequest_head hlength (k := total + 1) (by omega) hx _ hfirst) (lt_irrefl _)

/-- `sendRequest` returns 0 only if the socket has accepted the request, in order and each byte
once, and no call of `send` reaches beyond the buffer. -/
def SentOnce (length : ℕ) (results : List Syscall) : Prop :=
  ∀ rc accepted calls, sendRequest length 0 results = some (rc, accepted, calls) →
    (rc = 0 → accepted = range length) ∧ ∀ c ∈ calls, c.1 + c.2 ≤ length

/-- For the results that a call of `sendRequest` meets, the request is sent once exactly if no call
of `send` has been interrupted or the last one has failed. -/
theorem sentOnce_iff (hlength : length < 2 ^ 64) (hends : (sendRequest length 0 results).isSome) :
    SentOnce length results ↔ .interrupted ∉ results ∨ .failed ∈ results := by
  obtain ⟨⟨rc, accepted, calls⟩, h⟩ := isSome_iff_exists.mp hends
  obtain ⟨hcalls, hrc⟩ := sendRequest_calls h
  have hsent : SentOnce length results ↔ (rc = 0 → accepted = range length) := by
    refine ⟨fun hs ↦ (hs _ _ _ h).1, fun ha rc' accepted' calls' h' ↦ ?_⟩
    obtain ⟨rfl, rfl, rfl⟩ := some.inj (h.symm.trans h')
    exact ⟨ha, hcalls⟩
  rw [hsent]
  by_cases hzero : rc = 0
  · subst hzero
    have hall := sendRequest_accepted hlength (Nat.zero_le _) h
    rw [Nat.sub_zero, ← range_eq_range'] at hall
    simp [hall, hrc.mp rfl]
  · exact iff_of_true (fun h0 ↦ absurd h0 hzero) (.inr (by_contra fun hf ↦ hzero (hrc.mpr hf)))

/-- A request that goes out in two parts. -/
theorem sentOnce_two_parts : SentOnce 5 [.count 2, .count 3] :=
  (sentOnce_iff (by decide) (by decide)).mpr (by decide)

/-- An interruption of the first call: nothing is sent, and the request counts as sent. -/
theorem not_sentOnce_interrupted : ¬ SentOnce 5 [.interrupted] := fun h ↦
  absurd ((h 0 [] [(0, 5)] (by decide)).1 rfl) (by decide)

/-! ### Reading a response -/

/-- The loop of `readResponse`: the line, what is behind it in the buffer, and the chunks that are
still to be received; `none` if it waits for more. The newline is looked for in as many bytes from
`checked` on as have just been received. -/
def readLoop (checked : ℕ) (data : Str) : List Str → Option (Str × Str × List Str)
  | [] => none
  | chunk :: chunks =>
    let nl := (((data ++ chunk).drop checked).take chunk.length).idxOf '\n'
    if nl < chunk.length then
      some ((data ++ chunk).take (checked + nl), (data ++ chunk).drop (checked + nl + 1), chunks)
    else readLoop (data ++ chunk).length (data ++ chunk) chunks

/-- What a call leaves: the message, if it has been loaded, the block into which its strings point,
the bytes in the buffer, and the chunks that are still to be received. -/
structure Answer where
  msg : Option Cursor.Msg
  block : List Char
  data : Str
  chunks : List Str

/-- One call of `readResponse`, with what the last one has left in the buffer; `spare` is what the
block holds behind the bytes that are received. The line is parsed where it is. If that fails,
nothing is removed from the buffer. -/
def readResponse (fuel : ℕ) (spare data : Str) (chunks : List Str) :
    Except CString.Fault (Option Answer) :=
  match readLoop 0 data chunks with
  | none => .ok none
  | some (line, rest, chunks) => do
    match ← Cursor.loadMessage fuel 0 (line ++ '\x00' :: (rest ++ spare)) with
    | (none, mem) => .ok (some ⟨none, mem, mem.take (line.length + 1 + rest.length), chunks⟩)
    | (some msg, mem) =>
      -- `buffRemove` moves the rest to the start of the block
      let left := (mem.drop (line.length + 1)).take rest.length
      .ok (some ⟨some msg, left ++ mem.drop rest.length, left, chunks⟩)

/-- The first line of the buffer, if there is a whole one. -/
def firstLine (data : Str) (chunks : List Str) : Option (Str × Str × List Str) :=
  if '\n' ∈ data then some (data.take (data.idxOf '\n'), data.drop (data.idxOf '\n' + 1), chunks)
    else none

/-- What a call is for: it receives more as long as there is no whole line, and takes the first
line. -/
def nextLine (data : Str) : List Str → Option (Str × Str × List Str)
  | [] => firstLine data []
  | chunk :: chunks =>
    if '\n' ∈ data then firstLine data (chunk :: chunks) else nextLine (data ++ chunk) chunks

variable {data chunk line : Str} {chunks : List Str} {checked : ℕ} {r : Str × Str × List Str}

/-- The buffer holds no whole line, and the first chunk ends no line or reaches beyond the end of
its line by more than the bytes in the buffer. -/
def Reaches (data : Str) (chunks : List Str) : Prop :=
  '\n' ∉ data ∧ ∀ chunk ∈ chunks.head?, '\n' ∈ chunk → data.length + chunk.idxOf '\n' < chunk.length

/-- A line that `load_message` accepts: the message, and the bytes of the line and its NUL as they
are when it has been loaded. -/
structure Response where
  line : Str
  fuel : ℕ
  msg : Cursor.Msg
  own : List Char
  plain : '\n' ∉ line
  loads : Cursor.loadMessage fuel 0 (line ++ ['\x00']) = .ok (some msg, own)

variable {r : Response} {data' : Str} {chunks' : List Str}

/-- A call parses the line, and receives only as long as its line is not there; whatever lies
behind, the caller finds the bytes of the message as they were when it was loaded. -/
def Reads (r : Response) (data : Str) (chunks : List Str) (data' : Str) (chunks' : List Str) :
    Prop :=
  nextLine data chunks = some (r.line, data', chunks') ∧ ∀ spare, ∃ block,
    readResponse r.fuel spare data chunks = .ok (some ⟨some r.msg, block, data', chunks'⟩) ∧
      block.take r.own.length = r.own

/-- The lines of the stream, each with its newline. -/
abbrev stream (lines : List Str) : Str := lines.flatMap (· ++ ['\n'])

namespace Sample

/-- A response without items. -/
def done : Response where
  line := "\x7b\"RESP\":\x7b\x7d\x7d".toList
  fuel := 20
  msg := { msgCpy := "\x7b\"RESP\":\x7b\x7d\x7d".toList, command := some 2 }
  own := "\x7b\"RESP\x00:\x7b\x00\x00\x00".toList
  plain := by decide
  loads := by decide +kernel

end Sample

end Jers.Transfer
