import Jers.Comms.Buffer
import Jers.Json.Returns
import Jers.Lib.Run

/-!
# The two buffers of a client

A local client of the daemon has a buffer for its requests, which `recv` fills and from which
`checkClientEvent` takes one line at a time, and one for the responses, which is sent in pieces.
`ClientLink` is the client with its whole history: the bytes it has sent, the lines with which
`load_message` has been called, the responses that have been queued and the bytes that have been
handed to the socket.

`load_message` works in the request buffer. Where it goes beyond the end of its line it reads, and
writes, the line that follows; on every other line the framing is exact (`exact_of_run`).
-/

namespace Jers.Comms

open CString List Cursor Except

/-! ### The client -/

structure ClientLink where
  connected : Bool
  request : Buff
  response : Buff
  responseSent : ℕ
  /-- the bytes that the client has sent -/
  stream : Str
  /-- the lines with which `load_message` was called, and whether it accepted them -/
  calls : List (Str × Bool)
  /-- the responses -/
  queued : List Str
  /-- the bytes that have been handed to the socket -/
  sent : Str

/-- `handleClientConnection`. -/
def handleClientConnection (fresh : ℕ → Char) : ClientLink :=
  ⟨true, buffNew fresh 0, ⟨none, 0, 0⟩, 0, [], [], [], []⟩

def handleClientDisconnect (l : ClientLink) : ClientLink :=
  { l with connected := false, request := buffFree l.request, response := buffFree l.response }

/-- `handleClientRead`, where `recv` returns `bytes`. -/
def handleClientRead (fresh : ℕ → Char) (bytes : Str) (l : ClientLink) :
    Except Fault ClientLink := do
  let request ← (buffResize fresh l.request 0).append bytes
  return { l with request, stream := l.stream ++ bytes }

/-- `handleClientWrite`, where `send` takes `len` bytes. -/
def handleClientWrite (len : ℕ) (l : ClientLink) : ClientLink :=
  let sent := l.sent ++ (l.response.text.drop l.responseSent).take len
  let responseSent := l.responseSent + len
  if responseSent = l.response.used then { l with response.used := 0, responseSent := 0, sent }
  else { l with responseSent, sent }

/-- `sendMessage` to a local client. -/
def sendMessage (fresh : ℕ → Char) (l : ClientLink) (message : Str) : Except Fault ClientLink := do
  let response ← buffAdd fresh l.response message
  return { l with response, queued := l.queued ++ [message] }

/-- What `checkClientEvent` does for one client; `runCommand` gives the responses that the command
sends at once. -/
def checkClientEvent (fresh : ℕ → Char) (runCommand : Cursor.Msg → List Char → List Str) (fuel : ℕ)
    (l : ClientLink) : Except Fault ClientLink :=
  if l.request.used = 0 then .ok l
  else
    match memchr l.request.block 0 '\n' l.request.used with
    | none => .ok l
    | some nl => do
      let block := l.request.block.set nl '\x00'
      let line := block.take nl
      match ← Cursor.loadMessage fuel 0 block with
      | (none, _) => .ok (handleClientDisconnect { l with calls := l.calls ++ [(line, false)] })
      | (some m, mem) => do
        let l := { l with request.data := some mem, calls := l.calls ++ [(line, true)] }
        let l ← (runCommand m mem).foldlM (sendMessage fresh) l
        let request ← buffRemove l.request (nl + 1)
        return { l with request }

/-- What happens to a client. -/
inductive ClientEvent
  /-- `recv` returns some bytes. -/
  | read (fresh : ℕ → Char) (bytes : Str)
  /-- The connection is closed, because of an error or by the client. -/
  | hangup
  | check (fresh : ℕ → Char) (runCommand : Cursor.Msg → List Char → List Str)
  /-- A response is queued outside `checkClientEvent`. -/
  | respond (fresh : ℕ → Char) (message : Str)
  /-- `send` takes this many bytes. -/
  | write (len : ℕ)

/-- An event of a client that is connected. -/
def ClientStep (l : ClientLink) (e : ClientEvent) (l' : ClientLink) : Prop :=
  l.connected = true ∧ match e with
    | .read fresh bytes =>
      bytes ≠ [] ∧ l.request.used + bytes.length ≤ (buffResize fresh l.request 0).size ∧
        handleClientRead fresh bytes l = .ok l'
    | .hangup => l' = handleClientDisconnect l
    | .check fresh runCommand => ∃ fuel, checkClientEvent fresh runCommand fuel l = .ok l'
    | .respond fresh message => sendMessage fresh l message = .ok l'
    | .write len => l.responseSent + len ≤ l.response.used ∧ l' = handleClientWrite len l

/-! ### What is expected -/

/-- **Framing is exact**: the calls of `load_message` were made with the first lines of the stream,
only the last one can have been rejected, and then the client is disconnected; the bytes handed to
the socket are the responses in order, and those of a connected client that are missing are still in
the buffer. -/
structure ClientLink.Exact (l : ClientLink) : Prop where
  calls : l.calls.map Prod.fst <+: (splitLines l.stream).1
  accepted : ∀ call ∈ l.calls.dropLast, call.2 = true
  rejected : l.connected = true → ∀ call ∈ l.calls, call.2 = true
  sent : l.sent <+: l.queued.flatten
  pending : l.connected = true → l.sent ++ l.response.text.drop l.responseSent = l.queued.flatten

/-- The parser returns on the first line of the request buffer, if there is one. -/
def staysInLine (l : ClientLink) : ClientEvent → Prop
  | .check _ _ => ∀ line rest, l.request.text = line ++ '\n' :: rest → '\n' ∉ line →
    Cursor.Returns (line.takeWhile (· ≠ '\x00'))
  | _ => True

/-! ### The response buffer -/

/-- The bytes of the responses that have not been sent are in the buffer. -/
structure ClientLink.Responding (l : ClientLink) : Prop where
  valid : l.response.Valid
  sent_le : l.responseSent ≤ l.response.used
  pending : l.sent ++ l.response.text.drop l.responseSent = l.queued.flatten

/-- The same but for the responses. -/
structure ClientLink.SameRequests (l l' : ClientLink) : Prop where
  connected : l'.connected = l.connected
  request : l'.request = l.request
  stream : l'.stream = l.stream
  calls : l'.calls = l.calls

variable {fuel : ℕ} {runCommand : Cursor.Msg → List Char → List Str}

section

variable {l l' : ClientLink} {fresh : ℕ → Char} {message : Str}

theorem sendMessage_ok (h : l.Responding) (hsend : sendMessage fresh l message = .ok l') :
    l'.Responding ∧ l.SameRequests l' := by
  obtain ⟨b, hadd, hvalid, htext⟩ := buffAdd_spec fresh h.valid message
  rw [sendMessage, hadd] at hsend
  obtain rfl := ok.inj hsend
  have hlen := h.valid.length_text
  have hused : b.used = l.response.used + message.length := by
    rw [← hvalid.length_text, htext, length_append, hlen]
  have hle := h.sent_le
  refine ⟨⟨hvalid, ?_, ?_⟩, rfl, rfl, rfl, rfl⟩
  · show l.responseSent ≤ b.used
    omega
  · show l.sent ++ b.text.drop l.responseSent = (l.queued ++ [message]).flatten
    rw [htext, drop_append_of_le_length (by omega), ← append_assoc, h.pending, flatten_append,
      flatten_singleton]

theorem sendMessages_ok {messages : List Str} (h : l.Responding)
    (hsend : messages.foldlM (sendMessage fresh) l = .ok l') :
    l'.Responding ∧ l.SameRequests l' := by
  induction messages generalizing l with
  | nil =>
    obtain rfl := ok.inj hsend
    exact ⟨h, rfl, rfl, rfl, rfl⟩
  | cons message messages ih =>
    rw [foldlM_cons] at hsend
    obtain ⟨l₁, hfirst, hrest⟩ := bind_eq_ok_iff.mp hsend
    obtain ⟨h₁, hsame₁⟩ := sendMessage_ok h hfirst
    obtain ⟨h₂, hsame₂⟩ := ih h₁ hrest
    exact ⟨h₂, hsame₂.connected.trans hsame₁.connected, hsame₂.request.trans hsame₁.request,
      hsame₂.stream.trans hsame₁.stream, hsame₂.calls.trans hsame₁.calls⟩

theorem handleClientWrite_responding (h : l.Responding) {len : ℕ}
    (hlen : l.responseSent + len ≤ l.response.used) :
    (handleClientWrite len l).Responding ∧ l.SameRequests (handleClientWrite len l) := by
  have htext := h.valid.length_text
  have hsplit : (l.response.text.drop l.responseSent).take len ++
      l.response.text.drop (l.responseSent + len) = l.response.text.drop l.responseSent := by
    rw [← drop_drop, take_append_drop]
  have hpending : (l.sent ++ (l.response.text.drop l.responseSent).take len) ++
      l.response.text.drop (l.responseSent + len) = l.queued.flatten := by
    rw [append_assoc, hsplit, h.pending]
  unfold handleClientWrite
  dsimp only
  split_ifs with hall
  · refine ⟨⟨⟨h.valid.length_block, Nat.zero_le _⟩, le_rfl, ?_⟩, rfl, rfl, rfl, rfl⟩
    -- everything has been sent
    rw [hall, ← htext, drop_length] at hpending
    exact hpending
  · exact ⟨⟨h.valid, hlen, hpending⟩, rfl, rfl, rfl, rfl⟩

/-! ### The request buffer -/

/-- The lines of the calls and the request buffer make up the stream. -/
structure ClientLink.Receiving (l : ClientLink) : Prop where
  valid : l.request.Valid
  stream : joinLines (l.calls.map Prod.fst) l.request.text = l.stream
  lines : ∀ line ∈ l.calls.map Prod.fst, '\n' ∉ line
  accepted : ∀ call ∈ l.calls, call.2 = true

theorem ClientLink.Receiving.of_sameRequests (h : l.Receiving) (hsame : l.SameRequests l') :
    l'.Receiving := by
  refine ⟨hsame.request ▸ h.valid, ?_, ?_, ?_⟩
  · rw [hsame.calls, hsame.request, hsame.stream, h.stream]
  · rw [hsame.calls]
    exact h.lines
  · rw [hsame.calls]
    exact h.accepted

theorem ClientLink.Receiving.calls_prefix (h : l.Receiving) :
    l.calls.map Prod.fst <+: (splitLines l.stream).1 := by
  rw [← h.stream, splitLines_joinLines h.lines]
  exact prefix_append _ _

variable {line rest own rest' spare' : List Char} {bytes : Str}

theorem handleClientRead_receiving (h : l.Receiving)
    (hroom : l.request.used + bytes.length ≤ (buffResize fresh l.request 0).size)
    (hread : handleClientRead fresh bytes l = .ok l') : l'.Receiving ∧ l'.connected = l.connected ∧
      l'.response = l.response ∧ l'.responseSent = l.responseSent ∧ l'.sent = l.sent ∧
      l'.queued = l.queued := by
  obtain ⟨hvalid, htext, hused, -⟩ := buffResize_spec fresh h.valid 0
  have hroom' :
    (buffResize fresh l.request 0).used + bytes.length ≤ (buffResize fresh l.request 0).size :=
    by omega
  obtain ⟨b, happend, hb, hbtext⟩ := append_spec hvalid hroom'
  rw [handleClientRead, happend] at hread
  obtain rfl := ok.inj hread
  refine ⟨⟨hb, ?_, h.lines, h.accepted⟩, rfl, rfl, rfl, rfl, rfl⟩
  show joinLines _ b.text = l.stream ++ bytes
  rw [hbtext, htext, joinLines_append, h.stream]

/-! ### One pass over the client -/

theorem checkClientEvent_of_notMem (hvalid : l.request.Valid) (h : '\n' ∉ l.request.text) :
    checkClientEvent fresh runCommand fuel l = .ok l := by
  have hfind : memchr l.request.block 0 '\n' l.request.used = none := by
    have hnone : memchr ([] ++ (l.request.text ++ l.request.spare)) ([] : List Char).length '\n'
        l.request.text.length = none := memchr_none h
    rwa [nil_append, l.request.text_append_spare, hvalid.length_text] at hnone
  unfold checkClientEvent
  split_ifs
  · rfl
  · rw [hfind]

/-- The client after a line that has been accepted, before the command is run. -/
def ClientLink.loaded (l : ClientLink) (line : Str) (mem : List Char) : ClientLink :=
  { l with request.data := some mem, calls := l.calls ++ [(line, true)] }

theorem checkClientEvent_of_line {line rest : Str} (hvalid : l.request.Valid)
    (htext : l.request.text = line ++ '\n' :: rest) (hline : '\n' ∉ line) :
    checkClientEvent fresh runCommand fuel l =
      (Cursor.loadMessage fuel 0 (line ++ '\x00' :: (rest ++ l.request.spare)) >>= fun r ↦
        match r with
        | (none, _) => .ok (handleClientDisconnect { l with calls := l.calls ++ [(line, false)] })
        | (some m, mem) => do
          let l ← (runCommand m mem).foldlM (sendMessage fresh) (l.loaded line mem)
          let request ← buffRemove l.request (line.length + 1)
          return { l with request }) := by
  have hblock : l.request.block = line ++ '\n' :: (rest ++ l.request.spare) := by
    rw [← l.request.text_append_spare, htext, append_assoc, cons_append]
  have hlength := hvalid.length_text
  rw [htext, length_append, length_cons] at hlength
  have hfind : memchr l.request.block 0 '\n' l.request.used = some line.length := by
    have hlt : line.length < l.request.used := by omega
    have hsome :
        memchr ([] ++ (line ++ '\n' :: (rest ++ l.request.spare))) ([] : List Char).length '\n'
        l.request.used = some (([] : List Char).length + line.length) := memchr_line hline hlt
    rwa [nil_append, ← hblock, length_nil, Nat.zero_add] at hsome
  have hset : l.request.block.set line.length '\x00' = line ++
      '\x00' :: (rest ++ l.request.spare) := by
    rw [hblock, set_append_right _ _ le_rfl, Nat.sub_self, set_cons_zero]
  rw [checkClientEvent, if_neg (by omega), hfind]
  dsimp only
  rw [hset, take_left]
  rfl

/-- Taking the line off the buffer, when `rest'` is behind it. -/
theorem buffRemove_loaded (hvalid : l.request.Valid)
    (htext : l.request.text = line ++ '\n' :: rest) (hown : own.length = line.length + 1)
    (hrest : rest'.length = rest.length) (hspare : spare'.length = l.request.spare.length) :
    ∃ b, buffRemove (l.loaded line (own ++ (rest' ++ spare'))).request (line.length + 1) = .ok b ∧
      b.Valid ∧ b.text = rest' := by
  have hlength := hvalid.length_text
  have hsize := hvalid.length_block
  rw [← l.request.text_append_spare, length_append] at hsize
  rw [htext, length_append, length_cons] at hlength hsize
  have hblock : (l.loaded line (own ++ (rest' ++ spare'))).request.block = (own ++ rest') ++
    spare' :=
    (append_assoc _ _ _).symm
  have hused : l.request.used = (own ++ rest').length := by
    rw [length_append]
    omega
  obtain ⟨hvalid', htext', -⟩ := Buff.valid_of_block hblock hused (by
    show l.request.size = _
    rw [length_append, length_append]
    omega)
  have hle : line.length + 1 ≤ (l.loaded line (own ++ (rest' ++ spare'))).request.used := by
    show line.length + 1 ≤ l.request.used
    omega
  obtain ⟨b, hb, hbvalid, hbtext⟩ := buffRemove_of_le hvalid' hle
  rw [htext', drop_left' hown] at hbtext
  exact ⟨b, hb, hbvalid, hbtext⟩

/-- A pass over a client whose first line the parser reads within its bounds. -/
theorem checkClientEvent_ok (hrecv : l.Receiving) (hresp : l.Responding)
    (hgood : staysInLine l (.check fresh runCommand))
    (hcheck : checkClientEvent fresh runCommand fuel l = .ok l') :
    (l'.Receiving ∧ l'.Responding ∧ l'.connected = l.connected) ∨
      ∃ line rest, l.request.text = line ++ '\n' :: rest ∧ '\n' ∉ line ∧
        l' = handleClientDisconnect { l with calls := l.calls ++ [(line, false)] } := by
  rcases Decidable.em ('\n' ∈ l.request.text) with hmem | hmem
  · obtain ⟨line, rest, htext, hline⟩ := exists_line hmem
    obtain ⟨n, r, own, hown, hload⟩ := (hgood line rest htext hline).contained
    rw [checkClientEvent_of_line hrecv.valid htext hline] at hcheck
    obtain ⟨⟨r', mem⟩, hload', hrest⟩ := bind_eq_ok_iff.mp hcheck
    -- with more fuel the parser gives the same
    have hsame := (extends_loadMessage (le_max_left fuel n) 0).same_block hload'
    obtain ⟨rfl, rfl⟩ := Prod.mk.inj (ok.inj
      (hsame.2.symm.trans (hload _ (le_max_right fuel n) (rest ++ l.request.spare))))
    rcases r' with _ | m
    · exact .inr ⟨line, rest, htext, hline, (ok.inj hrest).symm⟩
    · left
      dsimp only at hrest
      obtain ⟨l₁, hsend, hremove⟩ := bind_eq_ok_iff.mp hrest
      have hloaded : (l.loaded line (own ++ (rest ++ l.request.spare))).Responding :=
        ⟨hresp.valid, hresp.sent_le, hresp.pending⟩
      obtain ⟨hresp₁, hsame₁⟩ := sendMessages_ok hloaded hsend
      obtain ⟨b, hb, hbvalid, hbtext⟩ := buffRemove_loaded hrecv.valid htext hown rfl rfl
      rw [← hsame₁.request] at hb
      rw [hb] at hremove
      obtain rfl := ok.inj hremove
      have hcalls : l₁.calls.map Prod.fst = l.calls.map Prod.fst ++ [line] := by
        rw [hsame₁.calls]
        exact map_append
      refine ⟨⟨hbvalid, ?_, ?_, ?_⟩, ⟨hresp₁.valid, hresp₁.sent_le, hresp₁.pending⟩,
        hsame₁.connected⟩
      · show joinLines (l₁.calls.map Prod.fst) b.text = l₁.stream
        rw [hcalls, hbtext, joinLines_concat, ← htext, hrecv.stream, hsame₁.stream]
        rfl
      · show ∀ line ∈ l₁.calls.map Prod.fst, '\n' ∉ line
        rw [hcalls, forall_mem_append]
        exact ⟨hrecv.lines, forall_mem_singleton.mpr hline⟩
      · show ∀ call ∈ l₁.calls, call.2 = true
        rw [hsame₁.calls]
        exact forall_mem_append.mpr ⟨hrecv.accepted, forall_mem_singleton.mpr rfl⟩
  · rw [checkClientEvent_of_notMem hrecv.valid hmem] at hcheck
    obtain rfl := ok.inj hcheck
    exact .inl ⟨hrecv, hresp, rfl⟩

/-! ### Runs -/

theorem ClientLink.exact_of_open (hrecv : l.Receiving) (hresp : l.Responding) : l.Exact := by
  refine ⟨hrecv.calls_prefix, fun call hcall ↦
    hrecv.accepted call ((dropLast_sublist _).subset hcall),
    fun _ ↦ hrecv.accepted, ?_, fun _ ↦ hresp.pending⟩
  rw [← hresp.pending]
  exact prefix_append _ _

theorem ClientLink.Exact.disconnect (h : l.Exact) : (handleClientDisconnect l).Exact :=
  ⟨h.calls, h.accepted, fun hconn ↦ absurd hconn Bool.false_ne_true, h.sent, fun hconn ↦
    absurd hconn Bool.false_ne_true⟩

/-- Disconnecting a client because of a line that was rejected. -/
theorem ClientLink.exact_rejected (hrecv : l.Receiving) (hresp : l.Responding) {line rest : Str}
    (htext : l.request.text = line ++ '\n' :: rest) (hline : '\n' ∉ line) :
    (handleClientDisconnect { l with calls := l.calls ++ [(line, false)] }).Exact := by
  refine ⟨?_, ?_, fun hconn ↦ absurd hconn Bool.false_ne_true, (exact_of_open hrecv hresp).sent,
    fun hconn ↦ absurd hconn Bool.false_ne_true⟩
  · show (l.calls ++ [(line, false)]).map Prod.fst <+: (splitLines l.stream).1
    rw [← hrecv.stream, htext, splitLines_joinLines hrecv.lines, splitLines_append hline,
      map_append]
    exact prefix_append_right_inj _ |>.mpr (prefix_append [line] _)
  · show ∀ call ∈ (l.calls ++ [(line, false)]).dropLast, call.2 = true
    rw [dropLast_concat]
    exact hrecv.accepted

/-- What holds in every state: framing is exact, and both buffers of a connected client are in
order. -/
structure ClientLink.Good (l : ClientLink) : Prop where
  exact : l.Exact
  receiving : l.connected = true → l.Receiving
  responding : l.connected = true → l.Responding

theorem ClientLink.good_of_open (hrecv : l.Receiving) (hresp : l.Responding) : l.Good :=
  ⟨exact_of_open hrecv hresp, fun _ ↦ hrecv, fun _ ↦ hresp⟩

theorem ClientLink.good_of_closed (hconn : l.connected = false) (h : l.Exact) : l.Good :=
  ⟨h, fun h' ↦ absurd (hconn ▸ h') Bool.false_ne_true,
    fun h' ↦ absurd (hconn ▸ h') Bool.false_ne_true⟩

theorem ClientLink.Good.step {e : ClientEvent} (h : l.Good) (hgood : staysInLine l e)
    (hstep : ClientStep l e l') : l'.Good := by
  obtain ⟨hconn, hstep⟩ := hstep
  have hrecv := h.receiving hconn
  have hresp := h.responding hconn
  rcases e with ⟨fresh, bytes⟩ | _ | ⟨fresh, runCommand⟩ | ⟨fresh, message⟩ | len
  · obtain ⟨-, hroom, hread⟩ := hstep
    obtain ⟨hrecv', -, hresponse, hsentLen, hsent, hqueued⟩ :=
      handleClientRead_receiving hrecv hroom hread
    refine good_of_open hrecv' ⟨hresponse ▸ hresp.valid, ?_, ?_⟩
    · rw [hsentLen, hresponse]
      exact hresp.sent_le
    · rw [hsent, hresponse, hsentLen, hqueued, hresp.pending]
  · obtain rfl : l' = handleClientDisconnect l := hstep
    exact good_of_closed rfl h.exact.disconnect
  · obtain ⟨fuel, hcheck⟩ := hstep
    rcases checkClientEvent_ok hrecv hresp hgood hcheck with ⟨hrecv', hresp', -⟩ |
      ⟨line, rest, htext, hline, rfl⟩
    · exact good_of_open hrecv' hresp'
    · exact good_of_closed rfl (exact_rejected hrecv hresp htext hline)
  · obtain ⟨hresp', hsame⟩ := sendMessage_ok hresp hstep
    exact good_of_open (hrecv.of_sameRequests hsame) hresp'
  · obtain ⟨hlen, rfl⟩ := hstep
    obtain ⟨hresp', hsame⟩ := handleClientWrite_responding hresp hlen
    exact good_of_open (hrecv.of_sameRequests hsame) hresp'

theorem good_handleClientConnection (fresh : ℕ → Char) : (handleClientConnection fresh).Good := by
  obtain ⟨hvalid, htext⟩ := buffNew_spec fresh 0
  refine ClientLink.good_of_open ⟨hvalid, ?_, ?_, ?_⟩ ⟨⟨rfl, le_rfl⟩, le_rfl, rfl⟩
  · exact congrArg (joinLines []) htext
  · exact fun line hline ↦ nomatch hline
  · exact fun call hcall ↦ nomatch hcall

/-- **Framing is exact in both directions**, in every state of every run of a client in which the
parser stays within the lines it is given. -/
theorem exact_of_run (h : Run ClientStep staysInLine (handleClientConnection fresh) l) : l.Exact :=
  (h.invariant (fun hl hgood hstep ↦ hl.step hgood hstep) (good_handleClientConnection fresh)).exact

/-! ### Concrete runs -/

/-- A pass in which a line is accepted and its command sends nothing. -/
theorem exists_check_accepted (fresh : ℕ → Char)
    {m : Cursor.Msg} (hvalid : l.request.Valid) (htext : l.request.text = line ++ '\n' :: rest)
    (hline : '\n' ∉ line)
    (hload : Cursor.loadMessage fuel 0 (line ++ '\x00' :: (rest ++ l.request.spare)) = .ok (some m,
      own ++ (rest' ++ spare')))
    (hown : own.length = line.length + 1) (hrest : rest'.length = rest.length)
    (hspare : spare'.length = l.request.spare.length) :
    ∃ l', checkClientEvent fresh (fun _ _ ↦ []) fuel l = .ok l' ∧ l'.request.Valid ∧
      l'.request.text = rest' ∧ l'.calls = l.calls ++ [(line, true)] ∧ l'.stream = l.stream ∧
      l'.connected = l.connected := by
  obtain ⟨b, hb, hbvalid, hbtext⟩ := buffRemove_loaded hvalid htext hown hrest hspare
  refine ⟨{ l.loaded line (own ++ (rest' ++ spare')) with request := b }, ?_, hbvalid, hbtext, rfl,
    rfl, rfl⟩
  rw [checkClientEvent_of_line hvalid htext hline, hload]
  show (buffRemove (l.loaded line (own ++ (rest' ++ spare'))).request (line.length + 1) >>= _) = _
  rw [hb]
  rfl

/-- The first bytes that a client sends. -/
theorem exists_first_read (fresh : ℕ → Char) (hbytes : bytes ≠ [])
    (hlen : bytes.length ≤ buffDefaultSize) :
      ∃ l, ClientStep (handleClientConnection fresh) (.read fresh bytes) l ∧ l.request.Valid ∧
      l.request.text = bytes ∧ l.calls = [] ∧ l.stream = bytes ∧ l.connected = true := by
  obtain ⟨hvalid, htext⟩ := buffNew_spec fresh 0
  obtain ⟨hvalid', htext', hused', hsize⟩ := buffResize_spec fresh hvalid 0
  have hroom :
    (buffNew fresh 0).used + bytes.length ≤ (buffResize fresh (buffNew fresh 0) 0).size :=
    (Nat.add_le_add_left hlen _).trans hsize
  obtain ⟨b, happend, hb, hbtext⟩ := append_spec hvalid' (hused'.symm ▸ hroom)
  rw [htext', htext, nil_append] at hbtext
  refine ⟨{ handleClientConnection fresh with request := b, stream := bytes },
    ⟨rfl, hbytes, hroom, ?_⟩, hb, hbtext, rfl, rfl, rfl⟩
  show ((buffResize fresh (buffNew fresh 0) 0).append bytes >>= _) = _
  rw [happend]
  rfl

namespace Sample

/-- Three item arrays that are not closed: the third one ends with the line. -/
def openArrays : Str := "\x7b\"GET\":\x7b\"DATA\":[\x7d,\"DATA\":[\x7d,\"DATA\":[".toList

/-- What the parser makes of this line. -/
def openArraysLoaded : Str :=
  "\x7b\"GET\x00:\x7b\"DATA\x00:[\x00,\"DATA\x00:[\x00,\"DATA\x00:[\x00".toList

/-- A message without items. -/
def getQueues : Str := "\x7b\"QUEUE_GET\":\x7b\"VERSION\":1\x7d\x7d".toList

def getQueuesLoaded : Str := "\x7b\"QUEUE_GET\x00:\x7b\"VERSION\x00:1\x00\x00\x00".toList

end Sample

/-- A message that loads, by computation. -/
theorem exists_load {mem mem' : List Char}
    (h : ((Cursor.loadMessage fuel 0 mem).toOption.any fun r ↦ r.1.isSome && r.2 == mem') = true) :
    ∃ m, Cursor.loadMessage fuel 0 mem = .ok (some m, mem') := by
  rcases hload : Cursor.loadMessage fuel 0 mem with _ | ⟨r, mem₁⟩
  all_goals rw [hload] at h
  · exact absurd h Bool.false_ne_true
  · obtain ⟨hsome, hmem⟩ := Bool.and_eq_true_iff.mp (show (r.isSome && mem₁ == mem') = true from h)
    obtain ⟨m, rfl⟩ := Option.isSome_iff_exists.mp hsome
    exact ⟨m, by rw [eq_of_beq hmem]⟩

/-- The second call of `load_message` finds a line that the first one has changed: the parser went
over the end of its line and took the name that follows for one of the message. -/
theorem not_exact_overrun :
    ∃ fresh l, Run ClientStep (fun _ _ ↦ True) (handleClientConnection fresh) l ∧ ¬l.Exact := by
  have hbytes : Sample.openArrays ++ '\n' :: "\"x\":1\n".toList ≠ [] := by decide
  obtain ⟨l₁, hread, hvalid₁, htext₁, hcalls₁, hstream₁, hconn₁⟩ :=
    exists_first_read (fun _ ↦ ' ') hbytes (by decide)
  obtain ⟨m, hload⟩ :
      ∃ m, Cursor.loadMessage 60 0 (Sample.openArrays ++ '\x00' :: "\"x\":1\n".toList) =
      .ok (some m, Sample.openArraysLoaded ++ "\"X\x00:1\n".toList) :=
      exists_load (by decide +kernel)
  have hload₁ :
      Cursor.loadMessage 60 0 (Sample.openArrays ++
      '\x00' :: ("\"x\":1\n".toList ++ l₁.request.spare)) =
      .ok (some m, Sample.openArraysLoaded ++ ("\"X\x00:1\n".toList ++ l₁.request.spare)) := by
    have := (extends_loadMessage le_rfl 0 hload).2 l₁.request.spare
    rwa [append_assoc, append_assoc, cons_append] at this
  obtain ⟨l₂, hcheck₁, hvalid₂, htext₂, hcalls₂, hstream₂, hconn₂⟩ :=
    exists_check_accepted (fun _ ↦ ' ') hvalid₁ htext₁ (by decide) hload₁ (by decide)
    (by decide) rfl
  have htext₂' : l₂.request.text = "\"X\x00:1".toList ++ '\n' :: [] := htext₂
  have hload₂ : Cursor.loadMessage 60 0 ("\"X\x00:1".toList ++ '\x00' :: ([] ++ l₂.request.spare)) =
      .ok (none, "\"X\x00:1\x00".toList ++ l₂.request.spare) :=
    (extends_loadMessage (show 10 ≤ 60 by decide) 0 (m := "\"X\x00:1\x00".toList) rfl).2
    l₂.request.spare
  have hcheck₂ : checkClientEvent (fun _ ↦ ' ') (fun _ _ ↦ []) 60 l₂ =
      .ok (handleClientDisconnect { l₂ with calls := l₂.calls ++ [("\"X\x00:1".toList, false)] }) :=
      by
    rw [checkClientEvent_of_line hvalid₂ htext₂' (by decide), hload₂]
    rfl
  refine ⟨fun _ ↦ ' ', _,
    .tail (.tail (.tail .refl trivial hread) trivial (e := .check (fun _ ↦ ' ') fun _ _ ↦ [])
    ⟨hconn₁, 60, hcheck₁⟩) trivial (e := .check (fun _ ↦ ' ') fun _ _ ↦ []) ⟨hconn₂.trans hconn₁,
    60, hcheck₂⟩, ?_⟩
  intro hexact
  have hprefix :
    (l₂.calls ++ [("\"X\x00:1".toList, false)]).map Prod.fst <+: (splitLines l₂.stream).1 :=
    hexact.calls
  rw [hcalls₂, hcalls₁, hstream₂, hstream₁] at hprefix
  exact absurd hprefix (by decide +kernel)

/-- A request that is read and taken from the buffer. -/
theorem exact_of_run_request :
    ∃ fresh l, Run ClientStep staysInLine (handleClientConnection fresh) l ∧
      l.calls = [(Sample.getQueues, true)] ∧ l.Exact := by
  have hbytes : Sample.getQueues ++ '\n' :: [] ≠ [] := by decide
  obtain ⟨l₁, hread, hvalid₁, htext₁, hcalls₁, hstream₁, hconn₁⟩ :=
    exists_first_read (fun _ ↦ ' ') hbytes (by decide)
  obtain ⟨m, hload⟩ : ∃ m, Cursor.loadMessage 60 0 (Sample.getQueues ++ ['\x00']) =
      .ok (some m, Sample.getQueuesLoaded) := exists_load (by decide +kernel)
  have hload₁ : Cursor.loadMessage 60 0 (Sample.getQueues ++ '\x00' :: ([] ++ l₁.request.spare)) =
      .ok (some m, Sample.getQueuesLoaded ++ ([] ++ l₁.request.spare)) := by
    have := (extends_loadMessage le_rfl 0 hload).2 l₁.request.spare
    rwa [append_assoc] at this
  obtain ⟨l₂, hcheck₁, -, -, hcalls₂, -, -⟩ :=
    exists_check_accepted (fun _ ↦ ' ') hvalid₁ htext₁ (by decide) hload₁ (by decide) rfl rfl
  have hgood : staysInLine l₁ (.check (fun _ ↦ ' ') fun _ _ ↦ []) := by
    intro line rest htext hline
    rw [htext₁] at htext
    have hsplit := (splitLines_append hline rest).symm.trans (congrArg splitLines htext.symm)
    obtain rfl : line = Sample.getQueues := by
      have hfirst :
        (splitLines (Sample.getQueues ++ '\n' :: [])).1 = [Sample.getQueues] := by decide
      have := (congrArg Prod.fst hsplit).trans hfirst
      exact (List.cons.inj this).1
    have hstring : Sample.getQueues.takeWhile (· ≠ '\x00') = Sample.getQueues := by decide
    rw [hstring]
    exact ⟨60, fun fuel hfuel ↦ ⟨_, _, ((extends_loadMessage hfuel 0).same_block hload).2⟩⟩
  have hrun : Run ClientStep staysInLine (handleClientConnection fun _ ↦ ' ') l₂ :=
    .tail (.tail .refl (show staysInLine _ (.read _ _) from trivial) hread) hgood ⟨hconn₁, 60,
    hcheck₁⟩
  exact ⟨_, l₂, hrun, by rw [hcalls₂, hcalls₁]; rfl, exact_of_run hrun⟩

end

end Jers.Comms
