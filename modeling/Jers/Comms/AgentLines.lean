import Jers.Comms.Buffer
import Jers.Json.CursorFrame

/-!
# The messages of an agent connection

The daemon (`checkAgentEvent` of `event.c`) and the agent (`process_messages` of `jers_agentd.c`)
take the complete lines out of the request buffer of their connection with the same loop. The loop
counts the bytes that it has consumed, and they are removed from the buffer at the end; a line that
is rejected breaks the connection off, which frees or empties the buffer, and ends the loop.

Both are given for arbitrary command tables. `AgentLink.calls` records, beside the state of the
source, what each call of `load_message` found: the line, and the bytes behind it that have not been
read.
-/

namespace Jers.Comms

open CString Exec List Nat

variable {σ : Type}

/-! ### The commands -/

/-- What is done with a message that has been loaded; the flag tells that it was accepted. -/
abbrev Handler (σ : Type) := ℕ → σ → Cursor.Msg → Access (σ × Bool)

/-- Look the name of the command up, and run what is found under it. -/
def byCommand (null : σ → Access (σ × Bool)) (run : Str → σ → Cursor.Msg → List Char → σ × Bool) :
    Handler σ :=
  fun fuel s m ↦ match m.command with
    | none => null s
    | some p => copy fuel p >>= fun name ↦ Exec.read (run name s m)

/-- `runAgentCommand` of `commands.c`. A message without a command ends in `strcmp` with the null
pointer; the status is good for every other one, also where the table has no such command. The
commands read their arguments from the buffer. -/
def runAgentCommand (commands : Str → Option (σ → Cursor.Msg → List Char → σ)) : Handler σ :=
  byCommand (fun _ ↦ stop .nullPointer) fun name s m mem ↦ match commands name with
    | none => (s, true)
    | some run => (run s m mem, true)

/-- `process_message` of `jers_agentd.c`, which refuses a message without a command or with one that
it does not know, and else gives the status of the command. -/
def processMessage (commands : Str → Option (σ → Cursor.Msg → List Char → σ × Bool)) : Handler σ :=
  byCommand (fun s ↦ pure (s, false)) fun name s m mem ↦ match commands name with
    | none => (s, false)
    | some run => run s m mem

/-- Load the message at the start of the memory and handle it. -/
def takeMessage (handler : Handler σ) (fuel : ℕ) (s : σ) : Access (σ × Bool) := do
  match ← Cursor.loadMessage fuel 0 with
  | none => pure (s, false)
  | some m => handler fuel s m

/-! ### The loop over the lines -/

/-- A call of `load_message`: the line, the unread bytes behind it, and whether the message was
accepted. -/
structure LineCall where
  line : Str
  rest : Str
  accepted : Bool
  deriving DecidableEq, Repr

/-- One end of the connection between the daemon and an agent. -/
structure AgentLink (σ : Type) where
  state : σ
  connected : Bool
  requests : Buff
  calls : List LineCall

/-- The part of `handleAgentDisconnect` that concerns the connection. -/
def handleAgentDisconnect (l : AgentLink σ) : AgentLink σ :=
  { l with connected := false, requests := buffFree l.requests }

/-- `disconnectFromDaemon`: the buffer is kept and emptied. -/
def disconnectFromDaemon (l : AgentLink σ) : AgentLink σ :=
  { l with connected := false, requests.used := 0 }

/-- The loop, from the place `consumed` on: the number of bytes that are consumed in the end. -/
def linesLoop (handler : Handler σ) (disconnect : AgentLink σ → AgentLink σ) :
    ℕ → ℕ → AgentLink σ → Except Fault (ℕ × AgentLink σ)
  | 0, _, _ => .error .outOfFuel
  | fuel + 1, consumed, l =>
    match memchr l.requests.block consumed '\n' (sizeSub l.requests.used consumed) with
    | none => .ok (consumed, l)
    | some nl => do
      let block := l.requests.block.set nl '\x00'
      let ((s, accepted), mem) ← takeMessage handler (fuel + 1) l.state (block.drop consumed)
      let call : LineCall :=
        ⟨(block.drop consumed).take (nl - consumed), (block.take l.requests.used).drop (nl + 1),
          accepted⟩
      let requests := { l.requests with data := some (block.take consumed ++ mem) }
      let l := { l with state := s, requests, calls := l.calls ++ [call] }
      if accepted then linesLoop handler disconnect fuel (nl + 1) l else .ok (consumed,
        disconnect l)

/-- The loop, and the removal of what it has consumed. -/
def takeLines (handler : Handler σ) (disconnect : AgentLink σ → AgentLink σ) (fuel : ℕ)
    (l : AgentLink σ) : Except Fault (AgentLink σ) := do
  let (consumed, l) ← linesLoop handler disconnect fuel 0 l
  let requests ← if consumed ≠ 0 then buffRemove l.requests consumed else .ok l.requests
  return { l with requests }

/-- What `checkAgentEvent` does for one agent. -/
def checkAgentEvent (commands : Str → Option (σ → Cursor.Msg → List Char → σ)) (fuel : ℕ)
    (l : AgentLink σ) : Except Fault (AgentLink σ) :=
  takeLines (runAgentCommand commands) handleAgentDisconnect fuel l

/-- `process_messages`. -/
def processMessages (commands : Str → Option (σ → Cursor.Msg → List Char → σ × Bool)) (fuel : ℕ)
    (l : AgentLink σ) : Except Fault (AgentLink σ) :=
  if l.requests.used = 0 then .ok l
  else takeLines (processMessage commands) disconnectFromDaemon fuel l

/-! ### What is expected of it -/

/-- The calls that are made when all lines are accepted, with the unread bytes as they were
received. -/
def lineCalls : List Str → Str → List LineCall
  | [], _ => []
  | line :: lines, tail => ⟨line, joinLines lines tail, true⟩ :: lineCalls lines tail

/-- The calls for a text. -/
def callsFor (text : Str) : List LineCall := lineCalls (splitLines text).1 (splitLines text).2

/-- All lines were accepted, in order, and what is left is the incomplete line; or they were
accepted up to one that was rejected, and the connection is closed. In both cases the buffer is
consistent. -/
def Handled (l l' : AgentLink σ) : Prop :=
  l'.requests.Valid ∧ (l'.calls = l.calls ++ callsFor l.requests.text ∧ l'.connected = l.connected ∧
        l'.requests.text = (splitLines l.requests.text).2 ∨
      ∃ k call, (callsFor l.requests.text)[k]? = some call ∧ l'.connected = false ∧
        l'.calls = l.calls ++ (callsFor l.requests.text).take k ++
        [{ call with accepted := false }])

/-- Given enough fuel, the function ends, and the lines of the buffer have been handled. -/
def HandlesLines (f : ℕ → AgentLink σ → Except Fault (AgentLink σ)) (l : AgentLink σ) : Prop :=
  ∃ n, ∀ fuel, n ≤ fuel → ∃ l', f fuel l = .ok l' ∧ Handled l l'

/-- Taking the message at the start of `mem` ends, with this result. -/
def Takes (handler : Handler σ) (s : σ) (mem : List Char) (s' : σ) (accepted : Bool)
    (mem' : List Char) : Prop :=
  ∃ fuel, takeMessage handler fuel s mem = .ok ((s', accepted), mem')

/-- Every line of the text is accepted, and the bytes of the text behind it are left alone. Behind
the text is the memory `spare`. -/
inductive AllAccepted (handler : Handler σ) : σ → Str → List Char → Prop
  | last {s : σ} {text : Str} {spare : List Char} : '\n' ∉ text → AllAccepted handler s text spare
  | line {s s' : σ} {line rest own : Str} {spare spare' : List Char} : '\n' ∉ line →
    Takes handler s (line ++ '\x00' :: (rest ++ spare)) s' true (own ++ (rest ++ spare')) →
    own.length = line.length + 1 → AllAccepted handler s' rest spare' →
    AllAccepted handler s (line ++ '\n' :: rest) spare

/-- The text has a line, and the first one is rejected. -/
def FirstRejected (handler : Handler σ) (s : σ) (text : Str) (spare : List Char) : Prop :=
  ∃ line rest s' mem', text = line ++ '\n' :: rest ∧ '\n' ∉ line ∧
    Takes handler s (line ++ '\x00' :: (rest ++ spare)) s' false mem'

/-! ### The commands leave the buffer alone -/

/-- With more fuel the same happens, and the buffer keeps its size. -/
def Handler.Stable (handler : Handler σ) : Prop :=
  ∀ ⦃fuel fuel' s m mem r mem'⦄, fuel ≤ fuel' → handler fuel s m mem = .ok (r, mem') →
    mem'.length = mem.length ∧ handler fuel' s m mem = .ok (r, mem')

theorem byCommand_stable {null : σ → Access (σ × Bool)} (hnull : ∀ s, Extends (null s) (null s))
    (run : Str → σ → Cursor.Msg → List Char → σ × Bool) : (byCommand null run).Stable := by
  intro fuel fuel' s m mem r mem' hfuel h
  unfold byCommand at h ⊢
  rcases hcommand : m.command with _ | p
  all_goals rw [hcommand] at h
  · exact (hnull s).same_block h
  · obtain ⟨name, mem₁, hname, hrun⟩ := bind_ok_iff.mp h
    obtain ⟨hlen, hname'⟩ := (Extends.copy hfuel p).same_block hname
    dsimp only
    rw [bind_of_ok hname']
    exact ⟨(read_ok_iff.mp hrun).2 ▸ hlen, hrun⟩

theorem runAgentCommand_stable (commands : Str → Option (σ → Cursor.Msg → List Char → σ)) :
    (runAgentCommand commands).Stable := byCommand_stable (fun _ ↦ .stop _ _) _

theorem processMessage_stable (commands : Str → Option (σ → Cursor.Msg → List Char → σ × Bool)) :
    (processMessage commands).Stable := byCommand_stable (fun _ ↦ .pure _) _

variable {s : σ} {mem : List Char}

theorem takeMessage_stable {handler : Handler σ} (hh : handler.Stable) {fuel fuel' : ℕ}
    {r : σ × Bool} {mem' : List Char} (hfuel : fuel ≤ fuel')
    (h : takeMessage handler fuel s mem = .ok (r, mem')) :
    mem'.length = mem.length ∧ takeMessage handler fuel' s mem = .ok (r, mem') := by
  obtain ⟨loaded, mem₁, hload, hrest⟩ := bind_ok_iff.mp h
  obtain ⟨hlen, hload'⟩ := (Cursor.extends_loadMessage hfuel 0).same_block hload
  rw [takeMessage, bind_of_ok hload']
  rcases loaded with _ | m
  · exact ⟨(pure_ok_iff.mp hrest).2 ▸ hlen, hrest⟩
  · obtain ⟨hlen', hrest'⟩ := hh hfuel hrest
    exact ⟨hlen'.trans hlen, hrest'⟩

/-! ### One round of the loop -/

/-- The block: the bytes that have been consumed, the text that has not been read, and the memory
behind it. -/
structure AgentLink.At (l : AgentLink σ) (before text spare : List Char) : Prop where
  block : l.requests.block = before ++ (text ++ spare)
  used : l.requests.used = before.length + text.length
  size : l.requests.size = (before ++ (text ++ spare)).length

/-- The connection after a message has been taken. -/
def AgentLink.after (l : AgentLink σ) (s : σ) (call : LineCall) (block : List Char) : AgentLink σ :=
  { l with state := s, requests.data := some block, calls := l.calls ++ [call] }

section

variable {handler : Handler σ} {disconnect : AgentLink σ → AgentLink σ} {l : AgentLink σ} {fuel : ℕ}
  {before text spare line rest : List Char}

theorem AgentLink.Valid.at (h : l.requests.Valid) : l.At [] l.requests.text l.requests.spare := by
  have hblock := l.requests.text_append_spare
  refine ⟨hblock.symm, ?_, ?_⟩
  · rw [h.length_text, length_nil, zero_add]
  · rw [nil_append, hblock, h.length_block]

theorem AgentLink.At.sizeSub_used (h : l.At before text spare) :
    sizeSub l.requests.used before.length = text.length := by
  rw [sizeSub, h.used, if_pos (Nat.le_add_right _ _), Nat.add_sub_cancel_left]

theorem linesLoop_last (h : l.At before text spare) (htext : '\n' ∉ text) :
    linesLoop handler disconnect (fuel + 1) before.length l = .ok (before.length, l) := by
  rw [linesLoop, h.sizeSub_used, h.block, memchr_none htext]

theorem linesLoop_line (h : l.At before (line ++ '\n' :: rest) spare) (hline : '\n' ∉ line) :
    linesLoop handler disconnect (fuel + 1) before.length l =
      (takeMessage handler (fuel + 1) l.state (line ++ '\x00' :: (rest ++ spare)) >>= fun r ↦
        let l' := l.after r.1.1 ⟨line, rest, r.1.2⟩ (before ++ r.2)
        if r.1.2 then linesLoop handler disconnect fuel (before.length + line.length + 1) l'
        else .ok (before.length, disconnect l')) := by
  have hfind : memchr l.requests.block before.length '\n' (sizeSub l.requests.used before.length) =
      some (before.length + line.length) := by
    rw [h.sizeSub_used, h.block, append_assoc, cons_append]
    refine memchr_line hline ?_
    rw [length_append, length_cons]
    omega
  have hset : l.requests.block.set (before.length + line.length) '\x00' =
      before ++ (line ++ '\x00' :: (rest ++ spare)) := by
    rw [h.block, append_assoc, cons_append, set_append_right _ _ (le_add_right _ _),
      Nat.add_sub_cancel_left, set_append_right _ _ le_rfl, Nat.sub_self, set_cons_zero]
  have hunread : ((before ++ (line ++ '\x00' :: (rest ++ spare))).take l.requests.used).drop
      (before.length + line.length + 1) = rest := by
    have hassoc :
        before ++ (line ++ '\x00' :: (rest ++ spare)) = (before ++ (line ++ '\x00' :: rest)) ++
        spare := by
      simp only [append_assoc, cons_append]
    have hlen : l.requests.used = (before ++ (line ++ '\x00' :: rest)).length := by
      rw [h.used]
      simp only [length_append, length_cons]
    rw [hassoc, hlen, take_left]
    have hassoc' : before ++ (line ++ '\x00' :: rest) = (before ++ (line ++ ['\x00'])) ++ rest := by
      simp only [append_assoc, cons_append, nil_append]
    rw [hassoc']
    exact drop_left' (by simp only [length_append, length_singleton]; omega)
  rw [linesLoop, hfind]
  dsimp only
  rw [hset, hunread, drop_left, Nat.add_sub_cancel_left, take_left, take_left]
  rfl

/-- What the place in the buffer is after a message that was accepted. -/
theorem AgentLink.At.after (h : l.At before (line ++ '\n' :: rest) spare)
    {own rest' spare' : List Char} (hown : own.length = line.length + 1)
    (hrest : rest'.length = rest.length) (hspare : spare'.length = spare.length)
    (s : σ) (call : LineCall) :
    (l.after s call (before ++ (own ++ (rest' ++ spare')))).At (before ++ own) rest' spare' := by
  refine ⟨(append_assoc _ _ _).symm, ?_, ?_⟩
  · show l.requests.used = _
    rw [h.used]
    simp only [length_append, length_cons, hown, hrest]
    omega
  · show l.requests.size = _
    rw [h.size]
    simp only [length_append, length_cons, hown, hrest, hspare]
    omega

/-- The memory after a message has been taken, cut where the line, the text and the block end. -/
theorem exists_parts (hlen : mem.length = (line ++ '\x00' :: (rest ++ spare)).length) :
    ∃ own rest' spare', mem = own ++ (rest' ++ spare') ∧ own.length = line.length + 1 ∧
      rest'.length = rest.length ∧ spare'.length = spare.length := by
  rw [length_append, length_cons, length_append] at hlen
  refine ⟨mem.take (line.length + 1), (mem.drop (line.length + 1)).take rest.length,
    (mem.drop (line.length + 1)).drop rest.length, ?_, ?_, ?_, ?_⟩
  · rw [take_append_drop, take_append_drop]
  · rw [length_take]
    omega
  · rw [length_take, length_drop]
    omega
  · rw [length_drop, length_drop]
    omega

theorem takeLines_eq {c : ℕ} {l' : AgentLink σ}
    (h : linesLoop handler disconnect fuel 0 l = .ok (c, l')) :
    takeLines handler disconnect fuel l = (buffRemove l'.requests c).map fun b ↦
    { l' with requests := b } := by
  rw [takeLines, h]
  rcases Nat.eq_zero_or_pos c with rfl | hpos
  · rfl
  · rw [Except.ok_bind]
    dsimp only
    rw [if_pos (ne_of_gt hpos)]
    rcases buffRemove l'.requests c with _ | _
    all_goals rfl

/-! ### All lines are accepted -/

theorem callsFor_of_notMem (h : '\n' ∉ text) : callsFor text = [] := by
  rw [callsFor, splitLines_of_notMem h]
  rfl

theorem callsFor_append (h : '\n' ∉ line) (rest : Str) :
    callsFor (line ++ '\n' :: rest) = ⟨line, rest, true⟩ :: callsFor rest := by
  rw [callsFor, splitLines_append h, lineCalls, joinLines_splitLines]
  rfl

/-- The loop goes through a text whose lines are all accepted. -/
theorem AllAccepted.linesLoop (hh : handler.Stable) (h : AllAccepted handler s text spare)
    (hat : l.At before text spare) (hs : l.state = s) :
    ∃ n before' spare' l', l'.At before' (splitLines text).2 spare' ∧ l'.connected = l.connected ∧
      l'.calls = l.calls ++ callsFor text ∧
      ∀ fuel, n ≤ fuel → linesLoop handler disconnect fuel before.length l = .ok (before'.length,
      l') := by
  induction h generalizing before l with
  | @last _ _ spare htext =>
    refine ⟨1, before, spare, l, ?_, rfl, ?_, fun fuel hfuel ↦ ?_⟩
    · rw [splitLines_of_notMem htext]
      exact hat
    · rw [callsFor_of_notMem htext, append_nil]
    · obtain ⟨k, rfl⟩ := exists_eq_succ_of_ne_zero (ne_zero_of_lt hfuel)
      exact linesLoop_last hat htext
  | @line _ s' line rest own spare spare' hline htakes hown _ ih =>
    obtain ⟨fuel₀, htake⟩ := htakes
    have hspare : spare'.length = spare.length := by
      have hlen := (takeMessage_stable hh le_rfl htake).1
      simp only [length_append, length_cons, hown] at hlen
      omega
    obtain ⟨n, before', spare'', l', hat', hconn, hcalls, hloop⟩ :=
      ih (hat.after hown rfl hspare s' ⟨line, rest, true⟩) rfl
    rw [splitLines_append hline, callsFor_append hline]
    refine ⟨max fuel₀ (n + 1), before', spare'', l', hat', hconn, ?_, fun fuel hfuel ↦ ?_⟩
    · rw [hcalls]
      exact append_assoc _ _ _
    · obtain ⟨k, rfl⟩ := exists_eq_succ_of_ne_zero (ne_zero_of_lt ((le_max_right _ _).trans hfuel))
      have hstep := (takeMessage_stable hh ((le_max_left _ _).trans hfuel) htake).2
      have hnext := hloop k (le_of_succ_le_succ ((le_max_right _ _).trans hfuel))
      rw [length_append, hown] at hnext
      rw [linesLoop_line hat hline, hs, hstep]
      exact hnext

/-- Removing what has been consumed leaves the text that is unread. -/
theorem AgentLink.At.buffRemove (h : l.At before text spare) :
    ∃ b, buffRemove l.requests before.length = .ok b ∧ b.Valid ∧ b.text = text := by
  have hvalid : l.requests.Valid := by
    refine ⟨?_, ?_⟩
    · rw [h.block, h.size]
    · rw [h.used, h.size]
      simp only [length_append]
      omega
  have htext : l.requests.text = before ++ text := by
    rw [Buff.text, h.block, h.used, ← append_assoc, ← length_append, take_left]
  have hle : before.length ≤ l.requests.used := h.used ▸ le_add_right _ _
  obtain ⟨b, hremove, hb, hbtext⟩ := buffRemove_of_le hvalid hle
  rw [htext, drop_left] at hbtext
  exact ⟨b, hremove, hb, hbtext⟩

theorem handlesLines_of_allAccepted (hh : handler.Stable) (hvalid : l.requests.Valid)
    (h : AllAccepted handler l.state l.requests.text l.requests.spare) :
    HandlesLines (takeLines handler disconnect) l := by
  obtain ⟨n, before, spare, l', hat, hconn, hcalls, hloop⟩ :=
    h.linesLoop hh (AgentLink.Valid.at hvalid) rfl
  obtain ⟨b, hremove, hb, hbtext⟩ := hat.buffRemove
  refine ⟨n, fun fuel hfuel ↦ ⟨{ l' with requests := b }, ?_, hb, .inl ⟨hcalls, hconn, hbtext⟩⟩⟩
  have hstep : linesLoop handler disconnect fuel 0 l = .ok (before.length, l') := hloop fuel hfuel
  rw [takeLines_eq hstep, hremove]
  rfl

/-! ### A line is rejected -/

/-- What breaking the connection off does: the buffer is empty, and not larger. -/
structure Disconnects (disconnect : AgentLink σ → AgentLink σ) : Prop where
  connected : ∀ l, (disconnect l).connected = false
  calls : ∀ l, (disconnect l).calls = l.calls
  used : ∀ l, (disconnect l).requests.used = 0
  length : ∀ l, l.requests.block.length = l.requests.size →
    (disconnect l).requests.block.length = (disconnect l).requests.size ∧
      (disconnect l).requests.size ≤ l.requests.size

theorem disconnects_handleAgentDisconnect : Disconnects (handleAgentDisconnect (σ := σ)) :=
  ⟨fun _ ↦ rfl, fun _ ↦ rfl, fun _ ↦ rfl, fun _ _ ↦ ⟨rfl, zero_le _⟩⟩

theorem disconnects_disconnectFromDaemon : Disconnects (disconnectFromDaemon (σ := σ)) :=
  ⟨fun _ ↦ rfl, fun _ ↦ rfl, fun _ ↦ rfl, fun _ h ↦ ⟨h, le_rfl⟩⟩

theorem handlesLines_of_firstRejected (hh : handler.Stable) (hd : Disconnects disconnect)
    (hvalid : l.requests.Valid)
    (h : FirstRejected handler l.state l.requests.text l.requests.spare) :
    HandlesLines (takeLines handler disconnect) l := by
  obtain ⟨line, rest, s, mem, htext, hline, fuel₀, htake⟩ := h
  have hat := AgentLink.Valid.at hvalid
  rw [htext] at hat
  refine ⟨fuel₀ + 1, fun fuel hfuel ↦ ?_⟩
  obtain ⟨k, rfl⟩ := exists_eq_succ_of_ne_zero (ne_zero_of_lt hfuel)
  obtain ⟨hlen, hstep⟩ := takeMessage_stable hh (le_of_succ_le hfuel) htake
  have hloop : linesLoop handler disconnect (k + 1) 0 l =
      .ok (0, disconnect (l.after s ⟨line, rest, false⟩ mem)) := by
    exact (linesLoop_line hat hline).trans (by rw [hstep]; rfl)
  refine ⟨_, (takeLines_eq hloop).trans rfl, ⟨?_, ?_⟩,
    .inr ⟨0, ⟨line, rest, true⟩, ?_, hd.connected _, ?_⟩⟩
  · refine (hd.length _ ?_).1
    show mem.length = l.requests.size
    rw [hlen, hat.size]
    simp only [nil_append, length_append, length_cons]
    omega
  · exact (hd.used _).trans_le (zero_le _)
  · rw [htext, callsFor_append hline]
    rfl
  · rw [take_zero, append_nil]
    exact hd.calls _

/-! ### The converse -/

/-- The text that is unread when these calls are made and this is left. -/
def unread : List LineCall → Str → Str
  | [], tail => tail
  | call :: _, _ => call.line ++ '\n' :: call.rest

theorem unread_callsFor (text : Str) : unread (callsFor text) (splitLines text).2 = text := by
  rcases Decidable.em ('\n' ∈ text) with h | h
  · obtain ⟨line, rest, rfl, hline⟩ := exists_line h
    rw [callsFor_append hline]
    rfl
  · rw [callsFor_of_notMem h, splitLines_of_notMem h]
    rfl

/-- The loop has gone through the whole text: it made the calls `d`, and `tail` is left. -/
structure Exhausted (handler : Handler σ) (l l' : AgentLink σ) (text spare : List Char) (c : ℕ)
    (d : List LineCall) (tail : Str) : Prop where
  calls : l'.calls = l.calls ++ d
  accepted : ∀ call ∈ d, call.accepted = true
  text_eq : text = unread d tail
  left : ∃ before spare', c = before.length ∧ l'.At before tail spare'
  allAccepted : d = callsFor text → tail = (splitLines text).2 →
    AllAccepted handler l.state text spare

/-- The loop has ended with a line that was rejected, when `c` bytes had been consumed. -/
structure BrokenOff (handler : Handler σ) (disconnect : AgentLink σ → AgentLink σ)
    (l l' : AgentLink σ) (before text spare : List Char) (c : ℕ) : Prop where
  disconnected : ∃ l₁, l' = disconnect l₁ ∧ l₁.requests.block.length = l₁.requests.size ∧
    l₁.requests.size = l.requests.size
  le : before.length ≤ c
  lt : c < l.requests.used
  first : c = before.length → FirstRejected handler l.state text spare

theorem linesLoop_ok (hh : handler.Stable) {c : ℕ} {l' : AgentLink σ} (hat : l.At before text spare)
    (h : linesLoop handler disconnect fuel before.length l = .ok (c, l')) :
    (∃ d tail, Exhausted handler l l' text spare c d tail) ∨
    BrokenOff handler disconnect l l' before text spare c := by
  induction fuel generalizing before text spare l with
  | zero => exact nomatch h
  | succ fuel ih =>
    rcases Decidable.em ('\n' ∈ text) with htext | htext
    · obtain ⟨line, rest, rfl, hline⟩ := exists_line htext
      rw [linesLoop_line hat hline] at h
      obtain ⟨⟨⟨s, accepted⟩, mem⟩, htake, hnext⟩ := Except.bind_eq_ok_iff.mp h
      obtain ⟨own, rest', spare', rfl, hown, hrest, hspare⟩ :=
        exists_parts (takeMessage_stable hh le_rfl htake).1
      have hat' := hat.after hown hrest hspare s ⟨line, rest, accepted⟩
      have hused : before.length + line.length + 1 ≤ l.requests.used := by
        rw [hat.used, length_append, length_cons]
        omega
      rcases accepted with _ | _
      · obtain ⟨rfl, rfl⟩ := Prod.mk.inj (Except.ok.inj hnext)
        refine .inr ⟨⟨_, rfl, ?_, rfl⟩, le_rfl, by omega,
          fun _ ↦ ⟨line, rest, s, _, rfl, hline, fuel + 1, htake⟩⟩
        rw [hat'.block, hat'.size]
      · have hlength : before.length + line.length + 1 = (before ++ own).length := by
          rw [length_append, hown]
          omega
        dsimp only at hnext
        rw [if_pos rfl, hlength] at hnext
        rcases ih hat' hnext with ⟨d, tail, hex⟩ | hbroken
        · refine .inl ⟨⟨line, rest, true⟩ :: d, tail, ?_⟩
          refine ⟨?_, forall_mem_cons.mpr ⟨rfl, hex.accepted⟩, rfl, hex.left, fun hd htail ↦ ?_⟩
          · rw [hex.calls]
            exact append_assoc _ _ _
          · -- the calls that follow show that the unread bytes are as before
            rw [callsFor_append hline] at hd
            rw [splitLines_append hline] at htail
            have hd' : d = callsFor rest := (List.cons.inj hd).2
            have hsame : rest' = rest := by
              rw [hex.text_eq, hd', htail, unread_callsFor]
            subst hsame
            exact .line hline ⟨fuel + 1, htake⟩ hown (hex.allAccepted hd' htail)
        · refine .inr ⟨hbroken.disconnected, ?_, hbroken.lt, fun hc ↦ ?_⟩
          · have := hbroken.le
            omega
          · have := hbroken.le
            omega
    · rw [linesLoop_last hat htext] at h
      obtain ⟨rfl, rfl⟩ := Prod.mk.inj (Except.ok.inj h)
      refine .inl ⟨[], text, (append_nil _).symm, fun _ h ↦ absurd h not_mem_nil, rfl,
        ⟨before, spare, rfl, hat⟩, ?_⟩
      exact fun _ _ ↦ .last htext

/-- The lines of the buffer are handled exactly if all are accepted, or the first one is
rejected. -/
theorem handlesLines_takeLines_iff (hh : handler.Stable) (hd : Disconnects disconnect)
    (hvalid : l.requests.Valid) (hfits : l.requests.size < 2 ^ 64) :
      HandlesLines (takeLines handler disconnect) l ↔
      AllAccepted handler l.state l.requests.text l.requests.spare ∨
        FirstRejected handler l.state l.requests.text l.requests.spare := by
  refine ⟨fun ⟨n, hn⟩ ↦ ?_, fun h ↦ h.elim (handlesLines_of_allAccepted hh hvalid)
    (handlesLines_of_firstRejected hh hd hvalid)⟩
  obtain ⟨l'', htake, -, hhandled⟩ := hn n le_rfl
  obtain ⟨⟨c, l'⟩, hloop, -⟩ := Except.bind_eq_ok_iff.mp htake
  rw [takeLines_eq hloop] at htake
  obtain ⟨b, hremove, rfl⟩ := Except.map_eq_ok_iff.mp htake
  rcases linesLoop_ok hh (AgentLink.Valid.at hvalid) hloop with ⟨d, tail, hex⟩ | hbroken
  · left
    rcases hhandled with ⟨hcalls, -, htext⟩ | ⟨k, call, -, -, hcalls⟩
    · obtain ⟨before, spare', rfl, hat⟩ := hex.left
      obtain ⟨b', hremove', -, htext'⟩ := hat.buffRemove
      obtain rfl := Except.ok.inj (hremove.symm.trans hremove')
      exact hex.allAccepted (append_cancel_left (hex.calls.symm.trans hcalls))
        (htext'.symm.trans htext)
    · -- no call of the loop was rejected
      have hd' : d = (callsFor l.requests.text).take k ++ [{ call with accepted := false }] := by
        refine append_cancel_left (hex.calls.symm.trans (hcalls.trans ?_))
        exact append_assoc _ _ _
      have hmem : { call with accepted := false } ∈ d := by
        rw [hd']
        exact mem_append_right _ mem_cons_self
      exact absurd (hex.accepted _ hmem) Bool.false_ne_true
  · right
    rcases Nat.eq_zero_or_pos c with rfl | hpos
    · exact hbroken.first rfl
    · -- the bytes are removed from a buffer that has been emptied
      obtain ⟨l₁, rfl, hlen, hsize⟩ := hbroken.disconnected
      obtain ⟨hblock, hle⟩ := hd.length l₁ hlen
      have hlt := hbroken.lt
      have hused := hvalid.used_le
      exact absurd hremove (buffRemove_emptied (hd.used l₁) (by omega) hpos (by omega) b)

theorem Takes.unique (hh : handler.Stable) {s₁ s₂ : σ} {mem₁ mem₂ : List Char} {a₁ a₂ : Bool}
    (h₁ : Takes handler s mem s₁ a₁ mem₁) (h₂ : Takes handler s mem s₂ a₂ mem₂) :
    s₁ = s₂ ∧ a₁ = a₂ ∧ mem₁ = mem₂ := by
  obtain ⟨fuel₁, h₁⟩ := h₁
  obtain ⟨fuel₂, h₂⟩ := h₂
  have h₁' := (takeMessage_stable hh (le_max_left fuel₁ fuel₂) h₁).2
  have h₂' := (takeMessage_stable hh (le_max_right fuel₁ fuel₂) h₂).2
  have hsame := Prod.mk.inj (Except.ok.inj (h₁'.symm.trans h₂'))
  exact ⟨(Prod.mk.inj hsame.1).1, (Prod.mk.inj hsame.1).2, hsame.2⟩

/-- A line is taken off a text in one way only. -/
theorem line_unique {line₁ line₂ rest₁ rest₂ : Str} (h₁ : '\n' ∉ line₁) (h₂ : '\n' ∉ line₂)
    (h : line₁ ++ '\n' :: rest₁ = line₂ ++ '\n' :: rest₂) : line₁ = line₂ ∧ rest₁ = rest₂ := by
  have hsplit :=
    (splitLines_append h₁ rest₁).symm.trans
    ((congrArg splitLines h).trans (splitLines_append h₂ rest₂))
  obtain rfl := (List.cons.inj (Prod.mk.inj hsplit).1).1
  exact ⟨rfl, (List.cons.inj (append_cancel_left h)).2⟩

/-- A line that is rejected behind one that was accepted. -/
theorem not_orderly_of_second_rejected (hh : handler.Stable) {s' : σ} {own spare' : List Char}
    (hline : '\n' ∉ line)
    (htakes : Takes handler s (line ++ '\x00' :: (rest ++ spare)) s' true (own ++ (rest ++ spare')))
    (hown : own.length = line.length + 1) (hrejected : FirstRejected handler s' rest spare') :
    ¬(AllAccepted handler s (line ++ '\n' :: rest) spare ∨
    FirstRejected handler s (line ++ '\n' :: rest) spare) := by
  obtain ⟨line₂, rest₂, s₂, mem₂, rfl, hline₂, htakes₂⟩ := hrejected
  rintro (hall | ⟨line₁, rest₁, s₁, mem₁, htext, hline₁, htakes₁⟩)
  · generalize htext : line ++ '\n' :: (line₂ ++ '\n' :: rest₂) = text at hall
    rcases hall with hnone | ⟨hline₁, htakes₁, hown₁, hall'⟩
    · exact hnone (htext ▸ mem_append_right _ mem_cons_self)
    obtain ⟨rfl, rfl⟩ := line_unique hline hline₁ htext
    obtain ⟨rfl, -, hmem⟩ := htakes.unique hh htakes₁
    obtain ⟨-, hmem'⟩ := append_inj hmem (hown.trans hown₁.symm)
    obtain rfl := append_cancel_left hmem'
    generalize htext₂ : line₂ ++ '\n' :: rest₂ = text₂ at hall'
    rcases hall' with hnone | ⟨hline₃, htakes₃, -, -⟩
    · exact hnone (htext₂ ▸ mem_append_right _ mem_cons_self)
    obtain ⟨rfl, rfl⟩ := line_unique hline₂ hline₃ htext₂
    exact Bool.false_ne_true (htakes₂.unique hh htakes₃).2.1
  · obtain ⟨rfl, rfl⟩ := line_unique hline hline₁ htext
    exact Bool.false_ne_true ((htakes.unique hh htakes₁).2.1).symm

end

/-! ### The daemon and the agent -/

/-- The condition on the connection before its lines are taken: every complete line is accepted, and
loading it leaves the bytes behind it alone; or the first complete line is rejected. -/
def Orderly (handler : Handler σ) (l : AgentLink σ) : Prop :=
  AllAccepted handler l.state l.requests.text l.requests.spare ∨
    FirstRejected handler l.state l.requests.text l.requests.spare

/-- An empty buffer is left as it is. -/
theorem handlesLines_processMessages_iff_takeLines (commands : Str →
    Option (σ → Cursor.Msg → List Char → σ × Bool))
    {l : AgentLink σ} (hvalid : l.requests.Valid) : HandlesLines (processMessages commands) l ↔
      HandlesLines (takeLines (processMessage commands) disconnectFromDaemon) l := by
  rcases Decidable.em (l.requests.used = 0) with hused | hused
  · have htext : l.requests.text = [] := by rw [Buff.text, hused, take_zero]
    have hall : AllAccepted (processMessage commands) l.state l.requests.text l.requests.spare := by
      rw [htext]
      exact .last not_mem_nil
    refine iff_of_true ⟨0, fun fuel _ ↦ ⟨l, if_pos hused, hvalid, .inl ⟨?_, rfl, ?_⟩⟩⟩
      (handlesLines_of_allAccepted (processMessage_stable commands) hvalid hall)
    · rw [htext]
      exact (append_nil _).symm
    · rw [htext]
      rfl
  · have hsame : ∀ fuel, processMessages commands fuel l =
        takeLines (processMessage commands) disconnectFromDaemon fuel l := fun _ ↦ if_neg hused
    simp only [HandlesLines, hsame]

/-- **When a batch of lines leaves the request buffer intact**, in the daemon and in the agent. -/
theorem handlesLines_iff_orderly (σ : Type) :
    (∀ (commands : Str → Option (σ → Cursor.Msg → List Char → σ)) (l : AgentLink σ),
      l.requests.Valid → l.requests.size < 2 ^ 64 →
      (HandlesLines (checkAgentEvent commands) l ↔ Orderly (runAgentCommand commands) l)) ∧
    ∀ (commands : Str → Option (σ → Cursor.Msg → List Char → σ × Bool)) (l : AgentLink σ),
      l.requests.Valid → l.requests.size < 2 ^ 64 →
      (HandlesLines (processMessages commands) l ↔ Orderly (processMessage commands) l) := by
  refine ⟨fun commands l hvalid hfits ↦ ?_, fun commands l hvalid hfits ↦ ?_⟩
  · exact handlesLines_takeLines_iff (runAgentCommand_stable commands)
      disconnects_handleAgentDisconnect hvalid hfits
  · rw [handlesLines_processMessages_iff_takeLines commands hvalid]
    exact handlesLines_takeLines_iff (processMessage_stable commands)
      disconnects_disconnectFromDaemon hvalid hfits

/-- A connection that has received `text`. -/
def received (text : Str) : AgentLink Unit := ⟨(), true, ⟨some text, text.length, text.length⟩, []⟩

/-- A message with a command and nothing else. -/
def reconComplete : Str := "\x7b\"RECON_COMPLETE\":\x7b\x7d\x7d".toList

/-- The buffer after the message has been loaded. -/
def reconCompleteLoaded : Str := "\x7b\"RECON_COMPLETE\x00:\x7b\x00\x00\x00".toList

/-- The daemon, to which the command means nothing. -/
def noCommands : Str → Option (Unit → Cursor.Msg → List Char → Unit) := fun _ ↦ none

/-- The agent, as far as `recon_complete` goes, which always succeeds. -/
def reconCommands (name : Str) : Option (Unit → Cursor.Msg → List Char → Unit × Bool) :=
  if name = "RECON_COMPLETE".toList then some fun s _ _ ↦ (s, true) else none

/-- The message is accepted with `rest` behind it. -/
abbrev TakesRecon (handler : Handler Unit) (rest : Str) : Prop :=
  Takes handler () (reconComplete ++ '\x00' :: (rest ++ [])) () true
    (reconCompleteLoaded ++ (rest ++ []))

/-- The message and a line that is not one. -/
def thenRejected : Str := reconComplete ++ '\n' :: "x\n".toList

/-- Two messages and the start of a third one. -/
def twoMessages : Str := reconComplete ++ '\n' :: (reconComplete ++ '\n' :: "\x7b".toList)

theorem not_orderly_thenRejected {handler : Handler Unit} (hh : handler.Stable)
    (htakes : TakesRecon handler "x\n".toList)
    (hrejected : Takes handler () "x\x00".toList () false "x\x00".toList) :
    ¬Orderly handler (received thenRejected) :=
  not_orderly_of_second_rejected hh (by decide) htakes (by decide +kernel)
    ⟨"x".toList, [], (), _, rfl, by decide, hrejected⟩

theorem orderly_twoMessages {handler : Handler Unit}
    (h₁ : TakesRecon handler (reconComplete ++ '\n' :: "\x7b".toList))
    (h₂ : TakesRecon handler "\x7b".toList) : Orderly handler (received twoMessages) :=
  .inl (.line (by decide) h₁ (by decide +kernel)
    (.line (by decide) h₂ (by decide +kernel) (.last (by decide))))

/-- The daemon and the agent both run into a removal from an emptied buffer when the second of two
lines is not a message. -/
theorem not_handlesLines_second_rejected :
    ¬HandlesLines (checkAgentEvent noCommands) (received thenRejected) ∧
      ¬HandlesLines (processMessages reconCommands) (received thenRejected) := by
  have hvalid : (received thenRejected).requests.Valid := ⟨rfl, le_rfl⟩
  constructor
  · intro h
    have hh := runAgentCommand_stable noCommands
    exact not_orderly_thenRejected hh ⟨30, by decide +kernel⟩ ⟨30, by decide +kernel⟩
      ((handlesLines_takeLines_iff hh disconnects_handleAgentDisconnect hvalid (by decide)).mp h)
  · intro h
    have hh := processMessage_stable reconCommands
    rw [handlesLines_processMessages_iff_takeLines reconCommands hvalid] at h
    exact not_orderly_thenRejected hh ⟨30, by decide +kernel⟩ ⟨30, by decide +kernel⟩
      ((handlesLines_takeLines_iff hh disconnects_disconnectFromDaemon hvalid (by decide)).mp h)

/-- Two messages, and the start of a third that stays in the buffer. -/
theorem handlesLines_two_messages : (received twoMessages).requests.Valid ∧
    HandlesLines (checkAgentEvent noCommands) (received twoMessages) ∧
    HandlesLines (processMessages reconCommands) (received twoMessages) := by
  have hvalid : (received twoMessages).requests.Valid := ⟨rfl, le_rfl⟩
  refine ⟨hvalid, ?_, ?_⟩
  · exact ((handlesLines_iff_orderly Unit).1 noCommands _ hvalid (by decide)).mpr
      (orderly_twoMessages ⟨30, by decide +kernel⟩ ⟨30, by decide +kernel⟩)
  · exact ((handlesLines_iff_orderly Unit).2 reconCommands _ hvalid (by decide)).mpr
      (orderly_twoMessages ⟨30, by decide +kernel⟩ ⟨30, by decide +kernel⟩)

end Jers.Comms
