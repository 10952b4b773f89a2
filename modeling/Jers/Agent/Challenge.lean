import Jers.Lib.Run
import Jers.Server.Types

/-!
# The shared secret, seen from the agent

An agent that has a secret answers `AUTH_CHALLENGE` with an HMAC over the nonce of the challenge, a
nonce of its own and the time, and accepts `RECON_REQ` with an HMAC over its own nonce and a time.
The inputs of an HMAC are fed to it one after another with nothing in between, so a response to an
empty challenge is over just what the request has to be over: whoever sends the challenge can send
the response back.

An HMAC is idealised as the text it is over (`Token.hmac`), and whoever does not know the secret can
send only those that have been seen. If no nonce that the agent draws is the beginning of a text the
agent has made or makes an HMAC of (`freshNonces`), every request that is accepted has an HMAC that
was made by a daemon that knows the secret (`onlyIssued_of_run`).
-/

namespace Jers.Challenge

open List Option Bool

/-! ### Messages -/

/-- The text of an `HMAC` field: a MAC under the shared secret, or anything else. -/
inductive Token
  | hmac (text : Str)
  | junk (text : Str)
  deriving DecidableEq, Repr

/-- `generateHMAC`, over the texts before the first null pointer. -/
def generateHMAC : List (Option Str) → Str
  | some text :: rest => text ++ generateHMAC rest
  | _ => []

/-- The fields the two functions look at. -/
inductive Field
  | nonce (text : Str)
  | hmac (token : Token)
  | datetime (time : ℤ)
  | other
  deriving DecidableEq, Repr

/-- The first nonce of a message. -/
def nonceOf (fields : List Field) : Option Str :=
  fields.findSome? fun
    | .nonce text => some text
    | _ => none

/-- The last HMAC of a message. -/
def hmacOf (fields : List Field) : Option Token :=
  fields.reverse.findSome? fun
    | .hmac token => some token
    | _ => none

/-- The last time of a message, or 0. -/
def datetimeOf (fields : List Field) : ℤ :=
  (fields.reverse.findSome? fun
    | .datetime time => some time
    | _ => none).getD 0

/-! ### The agent -/

/-- The part of `struct agent` that has to do with the secret. -/
structure Agent where
  connected : Bool := true
  secret : Bool := true
  nonce : Option Str := none
  deriving DecidableEq, Repr

/-- What the agent asks its surroundings for: the time, what `generateNonce` returns, and whether
the file with the secret can be read. -/
structure Env where
  now : ℤ
  drawn : Option Str
  secretFile : Bool := true

/-- `auth_challenge`: the agent afterwards and the text under the HMAC of its answer, or no answer
and the end of the connection. -/
def authChallenge (env : Env) (agent : Agent) (fields : List Field) : Agent × Option Str :=
  match nonceOf fields with
  | none => ({ agent with connected := false }, none)
  | some nonce =>
    if agent.secret = false ∧ env.secretFile = false then
      ({ agent with connected := false }, none)
    else
      ({ agent with secret := true, nonce := env.drawn },
        some (generateHMAC [some nonce, env.drawn, some (int64tostr env.now)]))

/-- The HMAC check of `recon_command`. -/
def reconCommand (agent : Agent) (fields : List Field) : Bool :=
  if agent.secret then
    match hmacOf fields with
    | none => false
    | some hmac =>
      if datetimeOf fields = 0 then
        false
      else
        decide (Token.hmac (generateHMAC [agent.nonce, some (int64tostr (datetimeOf fields))]) =
          hmac)
  else
    true

/-! ### The agent among others -/

/-- The agent, the texts under the HMACs it has sent, and those under the HMACs that daemons which
know the secret have sent. -/
structure World where
  agent : Agent := {}
  answered : List Str := []
  issued : List Str := []
  deriving DecidableEq, Repr

/-- What can happen: the agent connects to someone or loses the connection, it is sent a message, or
a daemon that knows the secret answers an authentication response with a request. -/
inductive Event
  | connect
  | disconnect
  | challenge (env : Env) (fields : List Field)
  | recon (fields : List Field)
  | issue (clientNonce : Str) (now : ℤ)

/-- Whoever does not know the secret sends the HMACs that have been seen, or something that is
none. -/
def World.canSend (w : World) (fields : List Field) : Bool :=
  fields.all fun
    | .hmac (.hmac text) => w.answered.contains text || w.issued.contains text
    | _ => true

/-- A message is taken from a connection only, and one that is not accepted ends it. -/
def next (w : World) : Event → Option World
  | .connect => some { w with agent.connected := true }
  | .disconnect => some { w with agent.connected := false }
  | .challenge env fields =>
    if w.agent.connected && w.canSend fields then
      let (agent, answer) := authChallenge env w.agent fields
      some { w with agent, answered := w.answered ++ answer.toList }
    else
      none
  | .recon fields =>
    if w.agent.connected && w.canSend fields then
      some { w with agent.connected := reconCommand w.agent fields }
    else
      none
  | .issue clientNonce now =>
    some { w with
      issued := w.issued ++ [generateHMAC [some clientNonce, some (int64tostr now)]] }

def Step (w : World) (e : Event) (w' : World) : Prop := next w e = some w'

/-- **Only the holder of the secret gets a request accepted**: the HMAC of a request that passes the
check is one that a daemon with the secret has made. -/
def World.OnlyIssued (w : World) : Prop :=
  ∀ fields, w.canSend fields = true → reconCommand w.agent fields = true →
    ∃ text ∈ w.issued, hmacOf fields = some (.hmac text)

/-- **The nonces of the agent are fresh**: what it draws is not the beginning of a text that it has
made or is about to make an HMAC of. A challenge that finds it without a nonce is not empty. -/
def freshNonces (w : World) : Event → Bool
  | .challenge env fields =>
    match nonceOf fields, env.drawn with
    | none, _ => true
    | some nonce, none => !nonce.isEmpty
    | some nonce, some drawn =>
      !drawn.isPrefixOf (nonce ++ drawn ++ int64tostr env.now) &&
        w.answered.all fun text ↦ !drawn.isPrefixOf text
  | _ => true

/-! ### What is accepted -/

variable {fields : List Field}

/-- What the check compares. -/
theorem reconCommand_hmac {agent : Agent} (hsecret : agent.secret = true)
    (h : reconCommand agent fields = true) :
    hmacOf fields =
      some (.hmac (generateHMAC [agent.nonce, some (int64tostr (datetimeOf fields))])) := by
  rw [reconCommand, if_pos hsecret] at h
  cases hhmac : hmacOf fields with
  | none => simp [hhmac] at h
  | some token =>
    simp only [hhmac] at h
    split at h
    · exact nomatch h
    · exact congrArg some (of_decide_eq_true h).symm

variable {w : World}

/-- A MAC in a message has been seen before. -/
theorem World.canSend_hmac {text : Str} (h : w.canSend fields = true)
    (hhmac : hmacOf fields = some (.hmac text)) : text ∈ w.answered ∨ text ∈ w.issued := by
  obtain ⟨field, hmem, hfield⟩ := exists_of_findSome?_eq_some hhmac
  have hseen := List.all_eq_true.mp h field (mem_reverse.mp hmem)
  cases field with
  | hmac token =>
    obtain rfl := some.inj hfield
    simpa using hseen
  | nonce | datetime | other => exact nomatch hfield

/-- **No answer of the agent can be sent back to it**: it has the secret, and the text of a request
that it would accept is not among the texts of its answers. -/
structure World.Apart (w : World) : Prop where
  secret : w.agent.secret = true
  ne_nil : ∀ text ∈ w.answered, text ≠ []
  fresh : ∀ nonce, w.agent.nonce = some nonce → ∀ text ∈ w.answered, ¬ nonce <+: text

theorem World.Apart.init : World.Apart {} :=
  ⟨rfl, nofun, nofun⟩

/-- The text of an acceptable request is either empty, without a nonce, or begins with the nonce. -/
theorem World.Apart.notMem (h : w.Apart) (time : Str) :
    generateHMAC [w.agent.nonce, some time] ∉ w.answered := by
  intro hmem
  cases hnonce : w.agent.nonce with
  | none =>
    rw [hnonce] at hmem
    exact h.ne_nil _ hmem rfl
  | some nonce =>
    rw [hnonce] at hmem
    exact h.fresh nonce hnonce _ hmem (prefix_append _ _)

theorem World.Apart.onlyIssued (h : w.Apart) : w.OnlyIssued := by
  intro fields hsend haccept
  have hhmac := reconCommand_hmac h.secret haccept
  refine ⟨_, ?_, hhmac⟩
  exact (World.canSend_hmac hsend hhmac).resolve_left (h.notMem _)

/-! ### Runs -/

/-- The agent with the secret either gives up or answers, with the nonce it has drawn. -/
theorem authChallenge_cases (env : Env) {agent : Agent} (fields : List Field)
    (hsecret : agent.secret = true) :
    (nonceOf fields = none ∧ authChallenge env agent fields = ({ agent with connected := false },
      none)) ∨ ∃ nonce, nonceOf fields = some nonce ∧ authChallenge env agent fields =
        ({ agent with nonce := env.drawn },
          some (generateHMAC [some nonce, env.drawn, some (int64tostr env.now)])) := by
  rw [authChallenge]
  cases nonceOf fields with
  | none => exact .inl ⟨rfl, rfl⟩
  | some nonce =>
    refine .inr ⟨nonce, rfl, ?_⟩
    have hloaded : ¬ (agent.secret = false ∧ env.secretFile = false) := by simp [hsecret]
    show ite _ _ _ = _
    rw [if_neg hloaded, hsecret]

/-- A challenge that is answered with a fresh nonce. -/
theorem World.Apart.answer (h : w.Apart) {env : Env} {nonce : Str}
    (hnonce : nonceOf fields = some nonce) (hfresh : freshNonces w (.challenge env fields) = true) :
    World.Apart { w with
      agent.nonce := env.drawn
      answered := w.answered ++
        [generateHMAC [some nonce, env.drawn, some (int64tostr env.now)]] } := by
  simp only [freshNonces, hnonce] at hfresh
  cases hdrawn : env.drawn with
  | none =>
    simp only [hdrawn, not_eq_true', isEmpty_eq_false_iff] at hfresh
    refine ⟨h.secret, fun text hmem ↦ ?_, nofun⟩
    rcases mem_append.mp hmem with hold | hnew
    · exact h.ne_nil text hold
    · rw [mem_singleton.mp hnew]
      simpa [generateHMAC] using hfresh
  | some drawn =>
    simp only [hdrawn, and_eq_true, List.all_eq_true, not_eq_true',
      ← not_eq_true, isPrefixOf_iff_prefix] at hfresh
    obtain ⟨hself, hothers⟩ := hfresh
    refine ⟨h.secret, fun text hmem ↦ ?_, fun n hn text hmem ↦ ?_⟩
    · rcases mem_append.mp hmem with hold | hnew
      · exact h.ne_nil text hold
      · rw [mem_singleton.mp hnew]
        simp [generateHMAC, int64tostr_ne_nil]
    · obtain rfl := some.inj hn
      rcases mem_append.mp hmem with hold | hnew
      · exact hothers text hold
      · rw [mem_singleton.mp hnew]
        simpa [generateHMAC] using hself

theorem World.Apart.step {w' : World} {e : Event} (h : w.Apart) (hfresh : freshNonces w e = true)
    (hstep : Step w e w') : w'.Apart := by
  cases e with
  | connect | disconnect | issue =>
    obtain rfl := some.inj hstep
    exact ⟨h.secret, h.ne_nil, h.fresh⟩
  | recon fields =>
    obtain ⟨-, hnext⟩ := ite_none_right_eq_some.mp hstep
    obtain rfl := some.inj hnext
    exact ⟨h.secret, h.ne_nil, h.fresh⟩
  | challenge env fields =>
    rw [Step, next] at hstep
    rcases authChallenge_cases env fields h.secret with ⟨-, hgiven⟩ | ⟨nonce, hnonce, hanswer⟩
    · rw [hgiven] at hstep
      obtain ⟨-, hnext⟩ := ite_none_right_eq_some.mp hstep
      obtain rfl := some.inj hnext
      exact ⟨h.secret, by simpa using h.ne_nil, by simpa using h.fresh⟩
    · rw [hanswer] at hstep
      obtain ⟨-, hnext⟩ := ite_none_right_eq_some.mp hstep
      obtain rfl := some.inj hnext
      exact h.answer hnonce hfresh

/-- **Where the nonces of the agent are fresh, only the holder of the secret gets a request
accepted**, at any time of any run. -/
theorem onlyIssued_of_run {w : World} (h : Run Step (fun w e ↦ freshNonces w e = true) {} w) :
    w.OnlyIssued := by
  have hapart : w.Apart := h.invariant (I := World.Apart) (fun h ↦ h.step) World.Apart.init
  exact hapart.onlyIssued

/-- What the agent draws in the two runs below. -/
def sampleEnv : Env where
  now := 7
  drawn := some ['a', 'b']

/-- Such a run: after a challenge that is not empty the answer of the agent is not accepted as a
request. -/
theorem onlyIssued_after_challenge : ∃ w : World,
    w.answered = [['x', 'a', 'b', '7']] ∧ w.agent.connected = true ∧ w.OnlyIssued := by
  obtain ⟨w, hrun, hanswered, hconnected⟩ := Run.exists_of_next freshNonces next
    [.connect, .challenge sampleEnv [.nonce ['x']]] {}
    (fun w ↦ w.answered = [['x', 'a', 'b', '7']] ∧ w.agent.connected = true) (by decide +kernel)
  exact ⟨w, hanswered, hconnected, onlyIssued_of_run hrun⟩

/-- **An empty challenge turns the agent's answer into a request that it accepts**: no daemon has
made an HMAC, and the agent accepts its own. -/
theorem not_onlyIssued_empty_challenge : ∃ w : World,
    Run Step (fun _ _ ↦ True) {} w ∧ w.issued = [] ∧ ¬ w.OnlyIssued := by
  obtain ⟨w, hrun, hissued, hsend, haccept⟩ := Run.exists_of_next (fun _ _ ↦ true) next
    [.connect, .challenge sampleEnv [.nonce []]] {}
    (fun w ↦ w.issued = [] ∧
      w.canSend [.hmac (.hmac ['a', 'b', '7']), .datetime 7] = true ∧
      reconCommand w.agent [.hmac (.hmac ['a', 'b', '7']), .datetime 7] = true)
    (by decide +kernel)
  refine ⟨w, hrun.mono fun _ _ _ ↦ trivial, hissued, fun honly ↦ ?_⟩
  obtain ⟨text, hmem, -⟩ := honly _ hsend haccept
  rw [hissued] at hmem
  exact nomatch hmem

end Jers.Challenge
