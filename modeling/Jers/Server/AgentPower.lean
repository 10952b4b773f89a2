import Jers.Server.LateReports

/-!
# What an agent can do before it has logged in

With a shared secret an agent is logged in when it has answered a challenge. `LoginOnly g s t` says
that the agent at `g` has changed nothing else than its own connection and the links from the queues
to it.

The dispatcher of agent messages does not look at the login, and neither do the handlers. The
messages that leave the daemon as it is are those with nothing to act on (`powerless`).
-/

namespace Jers

open Exec Bool Table Sample

/-- The agent keeps its host, and whether it is connected and logged in. -/
def Agent.Bookkept (x y : Agent) : Prop :=
  y = { x with nonce := y.nonce, recon := y.recon, responses := y.responses }

/-- Only the connection of the agent at `g` and the links from queues to it differ. -/
structure LoginOnly (g : Addr) (s t : Server) : Prop where
  rest : t = { s with queueTable := t.queueTable, agents := t.agents }
  queues : ∀ b, Option.Rel (fun q q' ↦ q' = q ∨ q' = { q with agent := some g })
    (s.queueTable.get? b) (t.queueTable.get? b)
  queueAddrs : t.queueTable.addrs = s.queueTable.addrs
  agents : ∀ h, Option.Rel (fun x y ↦ x.Bookkept y ∧ (h ≠ g → y = x))
    (s.agents.get? h) (t.agents.get? h)

namespace LoginOnly

variable {g : Addr} {s t u : Server}

theorem refl (s : Server) : LoginOnly g s s where
  rest := rfl
  queues _ := optionRel_refl (fun _ ↦ .inl rfl) _
  queueAddrs := rfl
  agents _ := optionRel_refl (fun _ ↦ ⟨rfl, fun _ ↦ rfl⟩) _

theorem trans (h : LoginOnly g s t) (h' : LoginOnly g t u) : LoginOnly g s u where
  rest := by rw [h'.rest, h.rest]
  queues b := by
    refine optionRel_trans (fun {x y z} hxy hyz ↦ ?_) (h.queues b) (h'.queues b)
    rcases hxy with rfl | rfl
    · exact hyz
    · rcases hyz with rfl | rfl
      · exact .inr rfl
      · exact .inr rfl
  queueAddrs := h'.queueAddrs.trans h.queueAddrs
  agents k := by
    refine optionRel_trans (fun {x y z} hxy hyz ↦ ⟨?_, fun hk ↦ ?_⟩) (h.agents k) (h'.agents k)
    · rw [Agent.Bookkept, hyz.1, hxy.1]
    · rw [hyz.2 hk, hxy.2 hk]

end LoginOnly

variable {env : Env} {rc : ℤ}

section

variable {g : Addr} {s s' : Server}

/-- The agent writes to its own connection. -/
theorem modifyAgent_loginOnly {f : Agent → Agent}
    (h : modifyAgent g f s = .ok ((), s')) (hf : ∀ x : Agent, x.Bookkept (f x)) :
    LoginOnly g s s' := by
  obtain rfl := modifyAgent_ok h
  refine ⟨rfl, fun b ↦ optionRel_refl (fun _ ↦ .inl rfl) _, rfl, fun k ↦ ?_⟩
  have hget :
    (s.agents.modify g f).get? k = if k = g then (s.agents.get? k).map f else s.agents.get? k :=
    get?_modify ..
  change Option.Rel _ _ ((s.agents.modify g f).get? k)
  rw [hget]
  split
  · next hk =>
    cases s.agents.get? k with
    | none => exact .none
    | some x => exact .some ⟨hf x, fun hne ↦ absurd hk hne⟩
  · exact optionRel_refl (fun _ ↦ ⟨rfl, fun _ ↦ rfl⟩) _

theorem sendAgentMessage_loginOnly {m : AgentRequest} (h : sendAgentMessage g m s = .ok ((), s')) :
    LoginOnly g s s' :=
  modifyAgent_loginOnly h fun _ ↦ rfl

/-- A queue is linked to the agent. -/
theorem link_loginOnly {b : Addr}
    (h : modifyQueue b (fun q ↦ { q with agent := some g }) s = .ok ((), s')) :
    LoginOnly g s s' := by
  obtain ⟨q, hq, rfl⟩ := modifyQueue_ok h
  refine ⟨rfl, fun b' ↦ ?_, addrs_modify .., fun k ↦ optionRel_refl (fun _ ↦ ⟨rfl, fun _ ↦ rfl⟩) _⟩
  change Option.Rel _ _ ((s.queueTable.modify b _).get? b')
  rw [get?_modify]
  split
  · cases s.queueTable.get? b' with
    | none => exact .none
    | some x => exact .some (.inr rfl)
  · exact optionRel_refl (fun _ ↦ .inl rfl) _

/-- **A login with a secret configured** links the queues and sends a challenge. -/
theorem commandAgentLogin_loginOnly (hsecret : s.config.secret = true)
    (h : commandAgentLogin env g s = .ok (rc, s')) : LoginOnly g s s' := by
  obtain ⟨agent, -, h₁⟩ := getAgent_bind_ok h
  obtain ⟨addrs, -, h₂⟩ := read_bind_ok_iff.mp h₁
  obtain ⟨_, t, hlink, h₃⟩ := bind_ok_iff.mp h₂
  have hlinked : LoginOnly g s t := by
    refine each_rel LoginOnly.refl LoginOnly.trans (fun b _ u u' hround ↦ ?_) hlink
    obtain ⟨q, -, hround₁⟩ := getQueue_bind_ok hround
    rcases whenever_ok_iff.mp hround₁ with ⟨-, hmod⟩ | ⟨-, rfl⟩
    · exact link_loginOnly hmod
    · exact .refl _
  refine hlinked.trans ?_
  obtain ⟨_, rfl, h₄⟩ := read_bind_ok_iff.mp h₃
  have hkeep : t.config.secret = true := by
    rw [hlinked.rest]
    exact hsecret
  rw [if_pos hkeep] at h₄
  generalize env.nonce = nonce at h₄
  cases nonce with
  | none =>
    obtain ⟨-, rfl⟩ := pure_ok_iff.mp h₄
    exact .refl _
  | some nonce =>
    obtain ⟨_, u, hsend, h₅⟩ := bind_ok_iff.mp h₄
    obtain ⟨_, -, hmod⟩ := bind_pure_ok h₅
    exact (sendAgentMessage_loginOnly hsend).trans (modifyAgent_loginOnly hmod fun _ ↦ rfl)

/-- An authentication response that is not accepted has no effect. -/
theorem commandAgentAuthresp_loginOnly {nonce hmac : Option Str} {datetime : ℤ}
    (hbad : ∀ agent nonce' hmac', s.agents.get? g = some agent → nonce = some nonce' →
      hmac = some hmac' → authAccepted env agent nonce' hmac' datetime = false)
    (h : commandAgentAuthresp env g nonce hmac datetime s = .ok (rc, s')) : s = s' := by
  obtain ⟨agent, hagent, h₁⟩ := getAgent_bind_ok h
  match nonce, hmac with
  | none, _ => exact (pure_ok_iff.mp h₁).2
  | some _, none => exact (pure_ok_iff.mp h₁).2
  | some nonce, some hmac =>
    dsimp only at h₁
    rw [if_pos (by simp [hbad agent nonce hmac hagent rfl rfl])] at h₁
    exact (pure_ok_iff.mp h₁).2

end

/-! ### The condition -/

/-- The authentication response of the agent at `g` is not accepted. -/
def rejected (env : Env) (s : Server) (g : Addr) (nonce hmac : Option Str) (datetime : ℤ) : Bool :=
  (s.agents.get? g).all fun agent ↦ nonce.all fun nonce ↦ hmac.all fun hmac ↦
    !authAccepted env agent nonce hmac datetime

/-- A message of the agent at `g` that is not an accepted authentication response and has nothing to
act on: no job or client of the daemon is named, and no client is forwarded. -/
def powerless (g : Addr) : Condition
  | s, (env, .agent g' m) => g' = g &&
    match m with
    | .login | .unknown => true
    | .authResp nonce hmac datetime => rejected env s g nonce hmac datetime
    | .recon items => items.isEmpty
    | .jobStarted jobid _ _ | .jobCompleted jobid _ _ _ => (s.findJob jobid).isNone
    | .proxyConn _ _ => false
    | .proxyData pid data => data.isNone || (findProxy s g pid).isNone
    | .proxyClose pid => (findProxy s g pid).isNone
  | _, _ => false

/-- One message. -/
theorem loginOnly_of_powerless {g : Addr} {s s' : Server} {m : AgentMsg}
    (hsecret : s.config.secret = true) (hgood : powerless g s (env, .agent g m) = true)
    (h : runAgentCommand env g m s = .ok (rc, s')) : LoginOnly g s s' := by
  simp only [powerless, decide_true, Bool.true_and] at hgood
  have of_eq (heq : s = s') : LoginOnly g s s' := heq ▸ .refl s
  cases m with
  | login => exact commandAgentLogin_loginOnly hsecret h
  | unknown => exact of_eq (pure_ok_iff.mp h).2
  | authResp nonce hmac datetime =>
    refine of_eq (commandAgentAuthresp_loginOnly (fun agent n m hagent hn hm ↦ ?_) h)
    subst hn hm
    simpa [rejected, hagent] using hgood
  | recon items =>
    have hnil : items = [] := by simpa using hgood
    subst hnil
    obtain ⟨_, t, hitems, h₁⟩ := bind_ok_iff.mp h
    obtain ⟨-, rfl⟩ := pure_ok_iff.mp hitems
    obtain ⟨_, u, hsend, h₂⟩ := bind_ok_iff.mp h₁
    obtain ⟨_, -, hmod⟩ := bind_pure_ok h₂
    exact (sendAgentMessage_loginOnly hsend).trans (modifyAgent_loginOnly hmod fun _ ↦ rfl)
  | jobStarted jobid | jobCompleted jobid | proxyClose pid =>
    obtain ⟨_, rfl, h₁⟩ := read_bind_ok_iff.mp h
    rw [Option.isNone_iff_eq_none.mp hgood] at h₁
    exact of_eq (pure_ok_iff.mp h₁).2
  | proxyConn => exact nomatch hgood
  | proxyData pid data =>
    cases data with
    | none => exact of_eq (pure_ok_iff.mp h).2
    | some data =>
      obtain ⟨_, rfl, h₁⟩ := read_bind_ok_iff.mp h
      have hnone : findProxy s g pid = none := by simpa using hgood
      rw [hnone] at h₁
      exact of_eq (pure_ok_iff.mp h₁).2

/-- **An agent that has not logged in changes nothing but its login**, by any sequence of messages
that have nothing to act on, from any state of a daemon with a shared secret. -/
theorem loginOnly_of_run {g : Addr} {s t : Server} (hsecret : s.config.secret = true)
    (h : Run Step (fun u e ↦ powerless g u e = true) s t) : LoginOnly g s t := by
  induction h with
  | refl => exact .refl s
  | @tail u v e _ hgood hstep ih =>
    refine ih.trans ?_
    obtain ⟨env, e⟩ := e
    cases e with
    | agent g' m =>
      obtain rfl : g' = g := by
        simp only [powerless, and_eq_true, decide_eq_true_eq] at hgood
        exact hgood.1
      obtain ⟨rc, -, hrun⟩ := bind_pure_ok hstep
      have hkeep : u.config.secret = true := by
        rw [ih.rest]
        exact hsecret
      exact loginOnly_of_powerless hkeep hgood hrun
    | _ => exact nomatch hgood

namespace Sample

/-- A daemon with a shared secret. -/
def secretConfig : Config := { config with secret := true }

/-- An agent connects and asks to log in; it has not answered the challenge. -/
def challenge : List Event :=
  [.client root addQueue, .client root addJob, .connect 0, .agent 0 .login]

end Sample

/-- An agent that is not logged in reports the end of a job that has never been started. -/
theorem not_loginOnly_completed :
    ∃ s s', Runs anyEvent secretConfig hosts s ∧
      (∃ x, s.agents.get? 0 = some x ∧ x.loggedIn = false) ∧
      Step s (Sample.env, .agent 0 (.jobCompleted 1 0 1000 fun _ ↦ 0)) s' ∧ ¬ LoginOnly 0 s s' := by
  obtain ⟨s, hrun, hout, s', hafter, hne⟩ := exists_runs anyEvent secretConfig hosts
    (events challenge) (fun s ↦ (∃ x ∈ s.agents.get? 0, x.loggedIn = false) ∧
      ∃ s' ∈ after (Sample.env, .agent 0 (.jobCompleted 1 0 1000 fun _ ↦ 0)) s,
        (s'.jobTable.get? 0).map Job.state ≠ (s.jobTable.get? 0).map Job.state) (by decide +kernel)
  refine ⟨s, s', hrun, hout, step_of_after hafter, fun h ↦ hne ?_⟩
  rw [h.rest]

/-- The agent asks to log in, sends a wrong answer, reports a job that does not exist, and closes a
client that does not exist. -/
theorem loginOnly_of_run_wrong_answer :
    ∃ s t, s.config.secret = true ∧ Run Step (fun u e ↦ powerless 0 u e = true) s t ∧
      (∃ x, t.agents.get? 0 = some x ∧ x.responses ≠ []) ∧ LoginOnly 0 s t := by
  obtain ⟨s, -, hsecret, t, ht, hresp⟩ := exists_runs anyEvent secretConfig hosts
    (events (challenge.take 3))
    (fun s ↦ s.config.secret = true ∧ ∃ t ∈ runEvents (powerless 0)
      ([.agent 0 .login, .agent 0 (.authResp (some []) (some "x".toList) 1000),
        .agent 0 (.jobStarted 9 1 1), .agent 0 (.proxyClose 5)].map fun e ↦
          ({ Sample.env with nonce := some "n".toList }, e)) s,
      ∃ x ∈ t.agents.get? 0, x.responses ≠ []) (by decide +kernel)
  have hrun := run_of_runEvents ht
  exact ⟨s, t, hsecret, hrun, hresp, loginOnly_of_run hsecret hrun⟩

end Jers
