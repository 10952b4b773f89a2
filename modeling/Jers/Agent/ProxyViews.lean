import Jers.Agent.Proxy

/-!
# What a connection behind an agent sees

Every message and every list entry is found by a process id, so all that matters to a connection is
what of the link and of the daemon has its process id: its `View`. A connection that shares its
process id with no other sees only what it has caused itself (`Tracked`), and the steps of the agent
and the daemon keep it so.
-/

namespace Jers.Proxy

open List Option

/-! ### What a connection sees -/

/-- The messages in both directions and the clients of the daemon with the process id of a
connection, and what has been sent on the connection and executed for it. -/
structure View where
  traffic : List ToDaemon
  served : List Client
  answers : List ToAgent
  sent : List Byte
  executed : List Byte

def World.view (w : World) (c : ProxyClient) : View where
  traffic := w.up.filter (·.pid = c.pid)
  served := w.daemon.filter (·.pid = c.pid)
  answers := w.down.filter (·.pid = c.pid)
  sent := w.sentOn c.conn
  executed := w.executedFor c.conn

/-- **A connection sees only what it has caused**: nothing before the daemon is told of it, then a
message that tells the daemon and what has been sent since, and from then on one client at the
daemon. -/
inductive Tracked (v : View) (c : ProxyClient) : Prop
  | fresh (hconnect : c.connectSent = false) (htraffic : v.traffic = []) (hserved : v.served = [])
      (hanswers : v.answers = []) (hsent : v.sent = v.executed ++ c.request)
  | connecting (chunks : List (List Byte)) (hconnect : c.connectSent = true)
      (htraffic : v.traffic = .conn c.pid c.uid c.conn :: chunks.map (.data c.pid c.conn))
      (hserved : v.served = []) (hanswers : v.answers = [])
      (hsent : v.sent = v.executed ++ (chunks.flatten ++ c.request))
  | connected (chunks : List (List Byte)) (d : Client) (hconnect : c.connectSent = true)
      (htraffic : v.traffic = chunks.map (.data c.pid c.conn)) (hserved : v.served = [d])
      (hpid : d.pid = c.pid) (hconn : d.conn = c.conn) (hblocking : ∀ cause ∈ d.blocking,
        cause = c.conn)
      (hanswers : ∀ m ∈ v.answers, ∀ b ∈ m.bytes, b.conn = c.conn)
      (hsent : v.sent = v.executed ++ (d.request ++ (chunks.flatten ++ c.request)))

variable {f : Client → List Client} {newline : Byte}

theorem eq_of_firstLine {bytes line rest : List Byte}
    (h : firstLine bytes = some (line, newline, rest)) : bytes = line ++ newline :: rest := by
  rw [firstLine] at h
  split at h
  · exact nomatch h
  · next hdrop =>
    obtain ⟨rfl, rfl, rfl⟩ := some.inj h
    rw [← hdrop, takeWhile_append_dropWhile]

theorem conn_of_mem_tagged {conn : ℕ} {text : Str} {b : Byte} (h : b ∈ tagged conn text) :
    b.conn = conn := by
  obtain ⟨_, -, rfl⟩ := List.mem_map.mp h
  rfl

/-- A client whose request is a message. -/
theorem checkClient_of_line (run : ℕ → Str → Outcome) {d : Client} {line rest : List Byte}
    {msg : Msg} (hline : firstLine d.request = some (line, newline, rest))
    (hmsg : loadMessage (line.map (·.char)) = .ok msg) :
    checkClient run d = {
      client := some { d with
        request := rest
        blocking :=
          if (run d.conn (line.map (·.char))).blocks then some newline.conn else d.blocking }
      line := some (line ++ [newline])
      answers := (run d.conn (line.map (·.char))).answers.map fun text ↦
        ⟨d.pid, tagged newline.conn text⟩ } := by
  simp only [checkClient, hline, hmsg]

namespace Tracked

variable {v : View} {c : ProxyClient}

/-- Every answer on the way to the connection is one to the connection. -/
theorem own (h : Tracked v c) : ∀ m ∈ v.answers, ∀ b ∈ m.bytes, b.conn = c.conn := by
  intro m hm
  cases h with
  | fresh _ _ _ hanswers | connecting _ _ _ _ hanswers =>
    rw [hanswers] at hm
    exact nomatch hm
  | connected _ _ _ _ _ _ _ _ hanswers => exact hanswers m hm

theorem served_conn (h : Tracked v c) : ∀ d ∈ v.served, d.conn = c.conn := by
  intro d hd
  cases h with
  | fresh _ _ hserved | connecting _ _ _ hserved =>
    rw [hserved] at hd
    exact nomatch hd
  | connected _ _ _ _ hserved _ hconn =>
    rw [hserved] at hd
    rw [mem_singleton.mp hd, hconn]

theorem traffic_origin (h : Tracked v c) : ∀ m ∈ v.traffic, m.origin = c.conn := by
  intro m hm
  cases h with
  | fresh _ htraffic =>
    rw [htraffic] at hm
    exact nomatch hm
  | connecting _ _ htraffic =>
    rw [htraffic] at hm
    rcases mem_cons.mp hm with rfl | hdata
    · rfl
    · obtain ⟨_, -, rfl⟩ := List.mem_map.mp hdata
      rfl
  | connected _ _ _ htraffic =>
    rw [htraffic] at hm
    obtain ⟨_, -, rfl⟩ := List.mem_map.mp hm
    rfl

/-- A change that the messages to the daemon and its clients have no part in: answers are taken
away, and what has been sent grows with the request buffer. -/
theorem congr (h : Tracked v c) {answers : List ToAgent} (hsub : answers ⊆ v.answers)
    (bytes response : List Byte) (error : Bool) :
    Tracked { v with answers, sent := v.sent ++ bytes }
      { c with request := c.request ++ bytes, response, error } := by
  cases h with
  | fresh hconnect htraffic hserved hanswers hsent =>
    exact .fresh hconnect htraffic hserved (subset_nil.mp (hanswers ▸ hsub)) (by simp [hsent])
  | connecting chunks hconnect htraffic hserved hanswers hsent =>
    exact .connecting chunks hconnect htraffic hserved (subset_nil.mp (hanswers ▸ hsub))
      (by simp [hsent])
  | connected chunks d hconnect htraffic hserved hpid hconn hblocking hanswers hsent =>
    exact .connected chunks d hconnect htraffic hserved hpid hconn hblocking
      (fun m hm ↦ hanswers m (hsub hm)) (by simp [hsent])

theorem thin (h : Tracked v c) {answers : List ToAgent} (hsub : answers ⊆ v.answers) :
    Tracked { v with answers } c := by
  simpa using h.congr hsub [] c.response c.error

/-- Bytes that the client sends. -/
theorem read (h : Tracked v c) (bytes : List Byte) :
    Tracked { v with sent := v.sent ++ bytes } { c with request := c.request ++ bytes } :=
  h.congr (List.Subset.refl _) bytes c.response c.error

/-- The response buffer and the error flag play no part. -/
theorem respond (h : Tracked v c) (response : List Byte) (error : Bool) :
    Tracked v { c with response, error } := by
  simpa using h.congr (List.Subset.refl _) [] response error

/-- What `check_proxy_clients` sends for a client. -/
theorem forward (h : Tracked v c) (hall : proxyData c.request = c.request) :
    Tracked { v with traffic := v.traffic ++ c.forwarded }
      { c with connectSent := true, request := [] } := by
  rw [ProxyClient.forwarded, hall]
  -- An empty buffer is forwarded as no chunk at all, which adds up to the same bytes.
  obtain ⟨last, hlast, hbytes⟩ : ∃ last : List (List Byte),
      (if c.request.isEmpty then [] else [.data c.pid c.conn c.request]) =
        last.map (ToDaemon.data c.pid c.conn) ∧ last.flatten = c.request := by
    rcases hrequest : c.request with _ | ⟨b, bs⟩
    · exact ⟨[], rfl, rfl⟩
    · exact ⟨[b :: bs], rfl, by simp⟩
  rw [hlast]
  cases h with
  | fresh hconnect htraffic hserved hanswers hsent =>
    exact .connecting last rfl (by simp [htraffic, hconnect])
      hserved hanswers (by simp [hsent, hbytes])
  | connecting chunks hconnect htraffic hserved hanswers hsent =>
    exact .connecting (chunks ++ last) rfl (by simp [htraffic, hconnect]) hserved hanswers
      (by simp [hsent, hbytes])
  | connected chunks d hconnect htraffic hserved hpid hconn hblocking hanswers hsent =>
    exact .connected (chunks ++ last) d rfl (by simp [htraffic, hconnect])
      hserved hpid hconn hblocking hanswers (by simp [hsent, hbytes])

/-- The daemon takes the next message of the connection. -/
theorem command (h : Tracked v c) (hne : c.pid ≠ 0) {m : ToDaemon} {traffic : List ToDaemon}
    (hm : v.traffic = m :: traffic) :
    Tracked { v with traffic, served := Proxy.command v.served m } c := by
  cases h with
  | fresh _ htraffic =>
    rw [htraffic] at hm
    exact nomatch hm
  | connecting chunks hconnect htraffic hserved hanswers hsent =>
    rw [htraffic] at hm
    obtain ⟨rfl, rfl⟩ := List.cons.inj hm
    refine .connected chunks { pid := c.pid, uid := c.uid, conn := c.conn }
      hconnect rfl ?_ rfl rfl nofun ?_ ?_
    · simp [Proxy.command, hserved, replaceFirst]
    · simp [hanswers]
    · simpa using hsent
  | connected chunks d hconnect htraffic hserved hpid hconn hblocking hanswers hsent =>
    rw [htraffic] at hm
    obtain ⟨bytes, rest, rfl, rfl, rfl⟩ := map_eq_cons_iff.mp hm
    have hfound : isClient c.pid d = true := by simp [isClient, hpid, hne]
    refine .connected rest { d with request := d.request ++ bytes } hconnect rfl ?_ hpid hconn
      hblocking hanswers ?_
    · simp [Proxy.command, hserved, replaceFirst, hfound]
    · simpa using hsent

/-- The daemon runs a request of the connection. -/
theorem serve (h : Tracked v c) (run : ℕ → Str → Outcome) (hown : ∀ b ∈ v.sent, b.conn = c.conn)
    (hload : ∀ d ∈ v.served, ∀ line newline rest, firstLine d.request = some (line, newline, rest) →
      ∃ msg, loadMessage (line.map (·.char)) = .ok msg) :
    Tracked { v with
      served := v.served.filterMap fun d ↦ (checkClient run d).client
      executed := v.executed ++ v.served.flatMap fun d ↦ (checkClient run d).line.getD []
      answers := v.answers ++ v.served.flatMap fun d ↦ (checkClient run d).answers } c := by
  cases h with
  | fresh hconnect htraffic hserved hanswers hsent =>
    exact .fresh hconnect htraffic (by simp [hserved]) (by simp [hserved, hanswers])
      (by simp [hserved, hsent])
  | connecting chunks hconnect htraffic hserved hanswers hsent =>
    exact .connecting chunks hconnect htraffic (by simp [hserved]) (by simp [hserved, hanswers])
      (by simp [hserved, hsent])
  | connected chunks d hconnect htraffic hserved hpid hconn hblocking hanswers hsent =>
    rw [hserved] at hload
    cases hline : firstLine d.request with
    | none =>
      refine .connected chunks d hconnect htraffic ?_ hpid hconn hblocking ?_ ?_
      · simp [hserved, checkClient, hline]
      · simpa [hserved, checkClient, hline] using hanswers
      · simpa [hserved, checkClient, hline] using hsent
    | some parts =>
      obtain ⟨line, newline, rest⟩ := parts
      obtain ⟨msg, hmsg⟩ := hload d mem_cons_self line newline rest hline
      have hrequest := eq_of_firstLine hline
      have hnewline : newline.conn = c.conn := hown newline (by simp [hsent, hrequest])
      have hclient := checkClient_of_line run hline hmsg
      have hserved' : v.served.filterMap (fun d ↦ (checkClient run d).client) = [{ d with
          request := rest
          blocking := if (run d.conn (line.map (·.char))).blocks then some newline.conn
            else d.blocking }] := by
        rw [hserved]
        exact filterMap_cons_some (congrArg Served.client hclient)
      refine .connected chunks _ hconnect htraffic hserved' hpid hconn ?_ ?_ ?_
      · intro cause hcause
        dsimp only at hcause
        split at hcause
        · rw [← some.inj hcause, hnewline]
        · exact hblocking cause hcause
      · intro m hm
        rcases mem_append.mp hm with hold | hnew
        · exact hanswers m hold
        · rw [hserved, flatMap_singleton, hclient] at hnew
          obtain ⟨text, -, rfl⟩ := List.mem_map.mp hnew
          exact fun b hb ↦ (conn_of_mem_tagged hb).trans hnewline
      · simp [hserved, hclient, hsent, hrequest]

/-- The daemon answers a request of the connection that has been waiting. -/
theorem wake (h : Tracked v c) (wake : ℕ → Option Str) :
    Tracked { v with answers := v.answers ++ v.served.flatMap (checkBlockingClient wake) } c := by
  cases h with
  | fresh hconnect htraffic hserved hanswers hsent =>
    exact .fresh hconnect htraffic hserved (by simp [hserved, hanswers]) hsent
  | connecting chunks hconnect htraffic hserved hanswers hsent =>
    exact .connecting chunks hconnect htraffic hserved (by simp [hserved, hanswers]) hsent
  | connected chunks d hconnect htraffic hserved hpid hconn hblocking hanswers hsent =>
    refine .connected chunks d hconnect htraffic hserved hpid hconn hblocking (fun m hm ↦ ?_) hsent
    rcases mem_append.mp hm with hold | hnew
    · exact hanswers m hold
    · rw [hserved, flatMap_singleton, checkBlockingClient] at hnew
      split at hnew
      · next cause text hcause _ =>
        obtain rfl := mem_singleton.mp hnew
        exact fun b hb ↦ (conn_of_mem_tagged hb).trans (hblocking cause hcause)
      · exact nomatch hnew

end Tracked

/-! ### Looking for one process id -/

theorem filter_replaceFirst_of_ne {pid p : ℕ} (hne : pid ≠ p)
    (hf : ∀ c, ∀ d ∈ f c, d.pid = c.pid) (cs : List Client) :
    (replaceFirst pid f cs).filter (·.pid = p) = cs.filter (·.pid = p) := by
  induction cs with
  | nil => rfl
  | cons c cs ih =>
    rw [replaceFirst]
    split
    · next hc =>
      have hpid : c.pid = pid := by simpa using (Bool.and_eq_true_iff.mp hc).2
      have hnone : (f c).filter (·.pid = p) = [] := by
        refine filter_eq_nil_iff.mpr fun d hd ↦ ?_
        simpa [hf c d hd, hpid] using hne
      rw [filter_append, hnone, nil_append, filter_cons_of_neg (by simpa [hpid] using hne)]
    · rw [filter_cons, filter_cons, ih]

theorem filter_replaceFirst_self (pid : ℕ) (hf : ∀ c, ∀ d ∈ f c, d.pid = c.pid) (cs : List Client) :
    (replaceFirst pid f cs).filter (·.pid = pid) = replaceFirst pid f
    (cs.filter (·.pid = pid)) := by
  induction cs with
  | nil => rfl
  | cons c cs ih =>
    rw [replaceFirst]
    by_cases hpid : c.pid = pid
    · rw [filter_cons_of_pos (by simpa using hpid), replaceFirst]
      split
      · have hall : (f c).filter (·.pid = pid) = f c := by
          refine filter_eq_self.mpr fun d hd ↦ ?_
          simpa [hf c d hd] using hpid
        rw [filter_append, hall]
      · rw [filter_cons_of_pos (by simpa using hpid), ih]
    · have hnot : ¬ isClient pid c = true := by simp [isClient, hpid]
      rw [if_neg hnot, filter_cons_of_neg (by simpa using hpid),
        filter_cons_of_neg (by simpa using hpid), ih]

/-- A message for one process does not touch the clients of another. -/
theorem filter_command_of_ne {m : ToDaemon} {p : ℕ} (hne : m.pid ≠ p) (cs : List Client) :
    (command cs m).filter (·.pid = p) = cs.filter (·.pid = p) := by
  cases m with
  | conn pid uid conn =>
    have hpid : pid ≠ p := hne
    rw [command, filter_cons_of_neg (by simpa using hpid), filter_replaceFirst_of_ne hpid (by simp)]
  | data pid conn bytes | close pid conn => exact filter_replaceFirst_of_ne hne (by simp) cs

theorem filter_command_self (m : ToDaemon) (cs : List Client) :
    (command cs m).filter (·.pid = m.pid) = command (cs.filter (·.pid = m.pid)) m := by
  cases m with
  | conn pid uid conn =>
    rw [command, ToDaemon.pid, filter_cons_of_pos (by simp), filter_replaceFirst_self pid (by simp),
      command]
  | data pid conn bytes | close pid conn => exact filter_replaceFirst_self pid (by simp) cs

end Jers.Proxy
