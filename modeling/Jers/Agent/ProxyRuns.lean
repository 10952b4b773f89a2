import Mathlib.Data.List.TakeWhile
import Jers.Agent.ProxyViews
import Jers.Lib.Keyed

/-!
# Clients behind an agent are kept apart

As long as no two connections share a process id, each step changes the views of the connections one
at a time, and every connection stays tracked. What is tracked adds up to what has been sent. The
main result is `keptApart_of_run`; `not_keptApart_reconnect` is a process that closes one connection
and opens another.
-/

namespace Jers.Proxy

open List Option

/-! ### The invariant -/

/-- The connections of the agent and their process ids. -/
def World.names (w : World) : List (ℕ × ℕ) := w.clients.map fun c ↦ (c.conn, c.pid)

variable {c : ProxyClient} {d : Client} {s : Socket} {m : ToAgent} {f : ProxyClient → ProxyClient}

theorem World.mem_names {w : World} (hc : c ∈ w.clients) : (c.conn, c.pid) ∈ w.names :=
  mem_map_of_mem hc

/-- The process id `pid` can go with the connection `conn`: no connection of the agent with that
number has another. -/
def World.Names (w : World) (conn pid : ℕ) : Prop :=
  conn < w.next ∧ ∀ n ∈ w.names, n.1 = conn → n.2 = pid

/-- **The connections can be told apart by their process ids.** -/
structure World.Distinct (w : World) : Prop where
  conns : (w.names.map Prod.fst).Nodup
  pids : (w.names.map Prod.snd).Nodup
  pid_ne : ∀ n ∈ w.names, n.2 ≠ 0
  conn_lt : ∀ n ∈ w.names, n.1 < w.next
  up : ∀ m ∈ w.up, w.Names m.origin m.pid
  daemon : ∀ d ∈ w.daemon, w.Names d.conn d.pid
  sent : ∀ b ∈ w.sent, b.conn < w.next
  executed : ∀ x ∈ w.executed, x.1 < w.next

/-- **The open descriptors are those of the clients that have not gone**, and `epoll` has been given
the right address for each. -/
structure World.Registered (w : World) : Prop where
  fds : (w.sockets.map (·.fd)).Nodup
  mem : ∀ c ∈ w.clients, c.cleanUp = false → ⟨c.socket, c.conn, c.conn⟩ ∈ w.sockets
  ptr : ∀ s ∈ w.sockets, s.ptr = s.conn ∧
    ∃ c ∈ w.clients, c.conn = s.conn ∧ c.socket = s.fd ∧ c.cleanUp = false

/-- What every run keeps. -/
structure World.Kept (w : World) : Prop where
  distinct : w.Distinct
  registered : w.Registered
  tracked : ∀ c ∈ w.clients, c.cleanUp = false → Tracked (w.view c) c
  response : ∀ c ∈ w.clients, c.cleanUp = false → ∀ b ∈ c.response, b.conn = c.conn
  own : ∀ x ∈ w.delivered, x.2.conn = x.1

theorem World.Kept.init : World.Kept {} where
  distinct := ⟨.nil, .nil, nofun, nofun, nofun, nofun, nofun, nofun⟩
  registered := ⟨.nil, nofun, nofun⟩
  tracked := nofun
  response := nofun
  own := nofun

namespace World.Distinct

variable {w w' : World}

theorem eq_of_conn (h : w.Distinct) {c' : ProxyClient} (hc : c ∈ w.clients) (hc' : c' ∈ w.clients)
    (hconn : c.conn = c'.conn) : c = c' := by
  have hnodup := h.conns
  rw [names, List.map_map] at hnodup
  exact inj_on_of_nodup_map hnodup hc hc' hconn

/-- The process id of a client goes with its connection. -/
theorem names_of_mem (h : w.Distinct) (hc : c ∈ w.clients) : w.Names c.conn c.pid := by
  refine ⟨h.conn_lt _ (mem_names hc), fun n hn heq ↦ ?_⟩
  obtain ⟨c', hc', rfl⟩ := mem_map.mp hn
  rw [h.eq_of_conn hc' hc heq]

/-- Steps that open no connection. -/
theorem mono (h : w.Distinct) (hnames : w'.names.Sublist w.names) (hnext : w'.next = w.next)
    (hup : ∀ m ∈ w'.up, w.Names m.origin m.pid) (hdaemon : ∀ d ∈ w'.daemon, w.Names d.conn d.pid)
    (hsent : ∀ b ∈ w'.sent, b.conn < w.next) (hexecuted : ∀ x ∈ w'.executed, x.1 < w.next) :
    w'.Distinct := by
  have hkeep : ∀ {conn pid}, w.Names conn pid → w'.Names conn pid := fun hold ↦
    ⟨hnext ▸ hold.1, fun n hn ↦ hold.2 n (hnames.subset hn)⟩
  exact
    { conns := h.conns.sublist (hnames.map _)
      pids := h.pids.sublist (hnames.map _)
      pid_ne := fun n hn ↦ h.pid_ne n (hnames.subset hn)
      conn_lt := fun n hn ↦ hnext ▸ h.conn_lt n (hnames.subset hn)
      up := fun m hm ↦ hkeep (hup m hm)
      daemon := fun d hd ↦ hkeep (hdaemon d hd)
      sent := hnext ▸ hsent
      executed := hnext ▸ hexecuted }

/-- Steps that touch nothing that the connections are told apart by. -/
theorem frame (h : w.Distinct) (hnames : w'.names = w.names) (hnext : w'.next = w.next)
    (hup : w'.up = w.up) (hdaemon : w'.daemon = w.daemon) (hsent : w'.sent = w.sent)
    (hexecuted : w'.executed = w.executed) : w'.Distinct :=
  h.mono (hnames ▸ .refl _) hnext (hup ▸ h.up) (hdaemon ▸ h.daemon) (hsent ▸ h.sent)
  (hexecuted ▸ h.executed)

end World.Distinct

/-! ### The steps of the agent -/

namespace World

variable {w : World}

theorem mem_modify {ptr : ℕ} (h : c ∈ (w.modify ptr f).clients) :
    (c ∈ w.clients ∧ c.conn ≠ ptr) ∨ ∃ c₀ ∈ w.clients, c₀.conn = ptr ∧ c = f c₀ := by
  obtain ⟨c₀, hmem, hc⟩ := mem_map.mp h
  split at hc
  · next hptr => exact .inr ⟨c₀, hmem, hptr, hc.symm⟩
  · next hptr =>
    subst hc
    exact .inl ⟨hmem, hptr⟩

theorem names_modify (ptr : ℕ) (hf : ∀ c, (f c).conn = c.conn ∧ (f c).pid = c.pid) :
    (w.modify ptr f).names = w.names := by
  rw [names, names, modify, List.map_map]
  refine map_congr_left fun c _ ↦ ?_
  simp only [Function.comp]
  split
  · rw [(hf c).1, (hf c).2]
  · rfl

/-- A connection starts with nothing on its way. -/
theorem Kept.connect (h : w.Kept) {fd pid uid : ℕ} (hfd : (w.socket fd).isNone = true)
    (hpid : pid ≠ 0) (hidle : w.idle pid = true) : (w.connect fd pid uid).Kept := by
  simp only [idle, Bool.and_eq_true, List.all_eq_true, bne_iff_ne] at hidle
  obtain ⟨⟨⟨hclients, hup⟩, hdown⟩, hdaemon⟩ := hidle
  have hfd' : ∀ s ∈ w.sockets, s.fd ≠ fd := by simpa [socket] using hfd
  have hnames : (w.connect fd pid uid).names = (w.next, pid) :: w.names := rfl
  have hkeep : ∀ {conn p}, w.Names conn p → (w.connect fd pid uid).Names conn p := by
    intro conn p hold
    refine ⟨Nat.lt_succ_of_lt hold.1, fun n hn heq ↦ ?_⟩
    rcases mem_cons.mp (hnames ▸ hn) with rfl | hmem
    · exact absurd heq hold.1.ne'
    · exact hold.2 n hmem heq
  refine ⟨⟨?_, ?_, ?_, ?_, ?_, ?_, ?_, ?_⟩, ⟨?_, ?_, ?_⟩, ?_, ?_, h.own⟩
  · refine nodup_cons.mpr ⟨fun hmem ↦ ?_, h.distinct.conns⟩
    obtain ⟨n, hn, heq⟩ := mem_map.mp hmem
    exact absurd heq (h.distinct.conn_lt n hn).ne
  · refine nodup_cons.mpr ⟨fun hmem ↦ ?_, h.distinct.pids⟩
    obtain ⟨n, hn, heq⟩ := mem_map.mp hmem
    obtain ⟨c, hc, rfl⟩ := mem_map.mp hn
    exact hclients c hc heq
  · intro n hn
    rcases mem_cons.mp (hnames ▸ hn) with rfl | hmem
    · exact hpid
    · exact h.distinct.pid_ne n hmem
  · intro n hn
    rcases mem_cons.mp (hnames ▸ hn) with rfl | hmem
    · exact Nat.lt_succ_self _
    · exact Nat.lt_succ_of_lt (h.distinct.conn_lt n hmem)
  · exact fun m hm ↦ hkeep (h.distinct.up m hm)
  · exact fun d hd ↦ hkeep (h.distinct.daemon d hd)
  · exact fun b hb ↦ Nat.lt_succ_of_lt (h.distinct.sent b hb)
  · exact fun x hx ↦ Nat.lt_succ_of_lt (h.distinct.executed x hx)
  · refine nodup_cons.mpr ⟨fun hmem ↦ ?_, h.registered.fds⟩
    obtain ⟨s, hs, heq⟩ := mem_map.mp hmem
    exact hfd' s hs heq
  · intro c hc hopen
    rcases mem_cons.mp hc with rfl | hmem
    · exact mem_cons_self
    · exact mem_cons_of_mem _ (h.registered.mem c hmem hopen)
  · intro s hs
    rcases mem_cons.mp hs with rfl | hmem
    · exact ⟨rfl, _, mem_cons_self, rfl, rfl, rfl⟩
    · obtain ⟨hptr, c, hc, hrest⟩ := h.registered.ptr s hmem
      exact ⟨hptr, c, mem_cons_of_mem _ hc, hrest⟩
  · intro c hc hopen
    rcases mem_cons.mp hc with rfl | hmem
    · refine .fresh rfl ?_ ?_ ?_ ?_
      · exact filter_eq_nil_iff.mpr fun m hm ↦ by simpa using hup m hm
      · exact filter_eq_nil_iff.mpr fun d hd ↦ by simpa using hdaemon d hd
      · exact filter_eq_nil_iff.mpr fun m hm ↦ by simpa using hdown m hm
      · have hsent : w.sentOn w.next = [] :=
          filter_eq_nil_iff.mpr fun b hb ↦ by simpa using (h.distinct.sent b hb).ne
        have hexecuted : w.executed.filter (·.1 = w.next) = [] :=
          filter_eq_nil_iff.mpr fun x hx ↦ by simpa using (h.distinct.executed x hx).ne
        show w.sentOn w.next = w.executedFor w.next ++ []
        rw [hsent, executedFor, hexecuted]
        rfl
    · exact h.tracked c hmem hopen
  · intro c hc hopen
    rcases mem_cons.mp hc with rfl | hmem
    · exact fun b hb ↦ nomatch hb
    · exact h.response c hmem hopen

theorem Registered.modify (h : w.Registered) (ptr : ℕ)
    (hf : ∀ c, (f c).conn = c.conn ∧ (f c).socket = c.socket ∧ (f c).cleanUp = c.cleanUp) :
    (w.modify ptr f).Registered := by
  refine ⟨h.fds, fun c hc hopen ↦ ?_, fun s hs ↦ ?_⟩
  · rcases mem_modify hc with ⟨hmem, -⟩ | ⟨c₀, hmem, -, rfl⟩
    · exact h.mem c hmem hopen
    · obtain ⟨hconn, hsocket, hcleanUp⟩ := hf c₀
      rw [hconn, hsocket]
      exact h.mem c₀ hmem (hcleanUp ▸ hopen)
  · obtain ⟨hptr, c, hc, hconn, hsocket, hopen⟩ := h.ptr s hs
    refine ⟨hptr, _, mem_map_of_mem hc, ?_⟩
    split
    · obtain ⟨hconn', hsocket', hcleanUp'⟩ := hf c
      exact ⟨hconn'.trans hconn, hsocket'.trans hsocket, hcleanUp'.trans hopen⟩
    · exact ⟨hconn, hsocket, hopen⟩

variable {run : ℕ → Str → Outcome} {w' : World} {cs : List Client}

/-- The steps of the daemon, and of the link. -/
theorem Kept.of_tracked (h : w.Kept) (hdistinct : w'.Distinct)
    (hagent : w'.clients = w.clients ∧ w'.sockets = w.sockets ∧ w'.delivered = w.delivered)
    (htracked : ∀ c ∈ w.clients, c.cleanUp = false → Tracked (w'.view c) c) : w'.Kept := by
  obtain ⟨hclients, hsockets, hdelivered⟩ := hagent
  obtain ⟨hfds, hmem, hptr⟩ := h.registered
  refine ⟨hdistinct, ⟨?_, ?_, ?_⟩, ?_, ?_, ?_⟩
  · rwa [hsockets]
  · rwa [hclients, hsockets]
  · rwa [hclients, hsockets]
  · rwa [hclients]
  · rw [hclients]
    exact h.response
  · rw [hdelivered]
    exact h.own

theorem mem_of_socket {fd : ℕ} (h : w.socket fd = some s) : s ∈ w.sockets :=
  mem_of_find?_eq_some h

theorem Kept.read (h : w.Kept) (hs : s ∈ w.sockets) (text : Str) : (w.read s text).Kept := by
  obtain ⟨hptr, c₁, hc₁, hconn₁, -⟩ := h.registered.ptr s hs
  have hnames : (w.read s text).names = w.names := names_modify s.ptr fun _ ↦ ⟨rfl, rfl⟩
  have hregistered : (w.modify s.ptr _).Registered :=
    h.registered.modify s.ptr (f := fun c ↦ { c with request := c.request ++ tagged s.conn text })
      fun _ ↦ ⟨rfl, rfl, rfl⟩
  refine ⟨?_, ⟨hregistered.fds, hregistered.mem, hregistered.ptr⟩, fun c hc hopen ↦ ?_,
    fun c hc hopen ↦ ?_, h.own⟩
  · refine h.distinct.mono (hnames ▸ .refl _) rfl h.distinct.up h.distinct.daemon (fun b hb ↦ ?_)
      h.distinct.executed
    rcases mem_append.mp hb with hold | hnew
    · exact h.distinct.sent b hold
    · rw [conn_of_mem_tagged hnew, ← hconn₁]
      exact h.distinct.conn_lt _ (mem_names hc₁)
  · rcases mem_modify hc with ⟨hmem, hne⟩ | ⟨c₀, hmem, heq, rfl⟩
    · -- Nothing has been sent on the other connections.
      have hsent : (w.read s text).sentOn c.conn = w.sentOn c.conn := by
        have hnone : (tagged s.conn text).filter (·.conn = c.conn) = [] :=
          filter_eq_nil_iff.mpr fun b hb ↦ by
            simpa [conn_of_mem_tagged hb, ← hptr] using hne.symm
        show (w.sent ++ _).filter _ = _
        rw [filter_append, hnone, append_nil]
        rfl
      have hview : (w.read s text).view c = w.view c := by
        rw [view, view, hsent]
        rfl
      rw [hview]
      exact h.tracked c hmem hopen
    · have hsent : (w.read s text).sentOn c₀.conn = w.sentOn c₀.conn ++ tagged s.conn text := by
        have hall : (tagged s.conn text).filter (·.conn = c₀.conn) = tagged s.conn text :=
          filter_eq_self.mpr fun b hb ↦ by simpa [conn_of_mem_tagged hb, ← hptr] using heq.symm
        show (w.sent ++ _).filter _ = _
        rw [filter_append, hall]
        rfl
      have hview : (w.read s text).view { c₀ with request := c₀.request ++ tagged s.conn text } =
          { w.view c₀ with sent := (w.view c₀).sent ++ tagged s.conn text } := by
        rw [view, hsent]
        rfl
      rw [hview]
      exact (h.tracked c₀ hmem hopen).read _
  · rcases mem_modify hc with ⟨hmem, -⟩ | ⟨c₀, hmem, -, rfl⟩
    · exact h.response c hmem hopen
    · exact h.response c₀ hmem hopen

theorem Kept.hangup (h : w.Kept) (hs : s ∈ w.sockets) : (w.hangup s).Kept := by
  obtain ⟨hptr, c₁, hc₁, hconn₁, hsocket₁, -⟩ := h.registered.ptr s hs
  have hnames : (w.hangup s).names = w.names := names_modify s.ptr fun _ ↦ ⟨rfl, rfl⟩
  -- A client that has not gone is one of the others.
  have hother : ∀ c ∈ (w.hangup s).clients, c.cleanUp = false → c ∈ w.clients ∧ c.conn ≠ s.ptr := by
    intro c hc hopen
    rcases mem_modify hc with hmem | ⟨c₀, -, -, rfl⟩
    · exact hmem
    · exact nomatch hopen
  refine ⟨h.distinct.frame hnames rfl rfl rfl rfl rfl, ⟨?_, fun c hc hopen ↦ ?_, fun s' hs' ↦ ?_⟩,
    fun c hc hopen ↦ ?_, fun c hc hopen ↦ ?_, h.own⟩
  · exact h.registered.fds.sublist (filter_sublist.map _)
  · obtain ⟨hmem, hne⟩ := hother c hc hopen
    have hsocket := h.registered.mem c hmem hopen
    refine mem_filter.mpr ⟨hsocket, bne_iff_ne.mpr fun heq ↦ hne ?_⟩
    have hsame := inj_on_of_nodup_map h.registered.fds hsocket hs heq
    rw [hptr, ← hsame]
  · obtain ⟨hmem, hfd⟩ := mem_filter.mp hs'
    obtain ⟨hptr', c, hc, hconn, hsocket, hopen⟩ := h.registered.ptr s' hmem
    have hne : c.conn ≠ s.ptr := by
      intro heq
      have hsame := h.distinct.eq_of_conn hc hc₁ (heq.trans (hptr.trans hconn₁.symm))
      exact bne_iff_ne.mp hfd (by rw [← hsocket, hsame, hsocket₁])
    refine ⟨hptr', c, ?_, hconn, hsocket, hopen⟩
    exact mem_map.mpr ⟨c, hc, if_neg hne⟩
  · exact h.tracked c (hother c hc hopen).1 hopen
  · exact h.response c (hother c hc hopen).1 hopen

theorem Kept.write (h : w.Kept) (hs : s ∈ w.sockets) (n : ℕ) : (w.write s n).Kept := by
  obtain ⟨hptr, c₁, hc₁, hconn₁, -, hopen₁⟩ := h.registered.ptr s hs
  have hnames : (w.write s n).names = w.names := names_modify s.ptr fun _ ↦ ⟨rfl, rfl⟩
  have hregistered : (w.modify s.ptr _).Registered :=
    h.registered.modify s.ptr (f := fun c ↦ { c with response := c.response.drop n })
      fun _ ↦ ⟨rfl, rfl, rfl⟩
  refine ⟨h.distinct.frame hnames rfl rfl rfl rfl rfl,
    ⟨hregistered.fds, hregistered.mem, hregistered.ptr⟩, fun c hc hopen ↦ ?_, fun c hc hopen ↦ ?_,
    fun x hx ↦ ?_⟩
  · rcases mem_modify hc with ⟨hmem, -⟩ | ⟨c₀, hmem, -, rfl⟩
    · exact h.tracked c hmem hopen
    · exact (h.tracked c₀ hmem hopen).respond _ _
  · rcases mem_modify hc with ⟨hmem, -⟩ | ⟨c₀, hmem, -, rfl⟩
    · exact h.response c hmem hopen
    · exact fun b hb ↦ h.response c₀ hmem hopen b (mem_of_mem_drop hb)
  · rcases mem_append.mp hx with hold | hnew
    · exact h.own x hold
    · -- The structure that is written from is that of the connection.
      cases hfound : w.clients.find? (·.conn == s.ptr) with
      | none => simp [hfound] at hnew
      | some c =>
        have hc := mem_of_find?_eq_some hfound
        have hconn : c.conn = s.ptr := by simpa using find?_some hfound
        obtain rfl := h.distinct.eq_of_conn hc hc₁ (hconn.trans (hptr.trans hconn₁.symm))
        simp only [hfound, Option.elim] at hnew
        obtain ⟨b, hb, rfl⟩ := mem_map.mp hnew
        rw [h.response c hc hopen₁ b (mem_of_mem_take hb), hconn₁]

/-- An answer leaves the link. -/
theorem Kept.thin (h : w.Kept) {down : List ToAgent} (hsub : down.Sublist w.down) :
    Kept { w with down } :=
  h.of_tracked (h.distinct.frame rfl rfl rfl rfl rfl rfl) ⟨rfl, rfl, rfl⟩ fun c hc hopen ↦
    (h.tracked c hc hopen).thin (hsub.filter _).subset

theorem mem_of_receiver (h : w.receiver m = some c) : c ∈ w.clients ∧ c.pid = m.pid := by
  rw [receiver] at h
  split at h
  · exact nomatch h
  · exact ⟨mem_of_find?_eq_some h, by simpa using find?_some h⟩

theorem Kept.proxyResponse (h : w.Kept)
    (hown : ∀ c ∈ w.clients, c.cleanUp = false → c.pid = m.pid → ∀ b ∈ m.bytes, b.conn = c.conn)
    (hgone : ∀ c, w.receiver m = some c → c.cleanUp = true → ∀ s ∈ w.sockets, s.fd ≠ c.socket) :
    (w.proxyResponse m).Kept := by
  rw [World.proxyResponse]
  cases hfound : w.receiver m with
  | none => exact h
  | some found =>
    obtain ⟨hmem, hpid⟩ := mem_of_receiver hfound
    -- Whatever is open as the descriptor of the client is its connection.
    have hsame : ∀ s ∈ w.sockets,
        (if s.fd = found.socket then { s with ptr := found.conn } else s) = s := by
      intro s hs
      split
      · next hfd =>
        obtain ⟨hptr, -⟩ := h.registered.ptr s hs
        cases hopen : found.cleanUp with
        | true => exact absurd hfd (hgone found hfound hopen s hs)
        | false =>
          have hmine := h.registered.mem found hmem hopen
          have heq := inj_on_of_nodup_map h.registered.fds hs hmine hfd
          rw [heq]
      · rfl
    have hsockets : (w.sockets.map fun s ↦
        if s.fd = found.socket then { s with ptr := found.conn } else s) = w.sockets :=
      (map_congr_left hsame).trans (map_id' _)
    have hregistered : (w.modify found.conn _).Registered :=
      h.registered.modify found.conn (f := fun c ↦ { c with response := c.response ++ m.bytes })
        fun _ ↦ ⟨rfl, rfl, rfl⟩
    dsimp only
    rw [hsockets]
    have hnames : (w.modify found.conn _).names = w.names :=
      names_modify (f := fun c ↦ { c with response := c.response ++ m.bytes })
      found.conn fun _ ↦ ⟨rfl, rfl⟩
    refine ⟨h.distinct.frame hnames rfl rfl rfl rfl rfl,
      ⟨hregistered.fds, hregistered.mem, hregistered.ptr⟩, fun c hc hopen ↦ ?_, fun c hc hopen ↦ ?_,
      h.own⟩
    · rcases mem_modify hc with ⟨hold, -⟩ | ⟨c₀, hold, -, rfl⟩
      · exact h.tracked c hold hopen
      · exact (h.tracked c₀ hold hopen).respond _ _
    · rcases mem_modify hc with ⟨hold, -⟩ | ⟨c₀, hold, heq, rfl⟩
      · exact h.response c hold hopen
      · obtain rfl := h.distinct.eq_of_conn hold hmem heq
        intro b hb
        rcases mem_append.mp hb with hb | hb
        · exact h.response c₀ hold hopen b hb
        · exact hown c₀ hold hopen hpid b hb

/-- What `check_proxy_clients` makes of a client that has not gone: it is sent an error at most, or
what it has asked is forwarded. -/
theorem checkProxyClient_open (inRecon : Bool) (hopen : c.cleanUp = false) :
    (∃ response error, checkProxyClient true inRecon c = (some { c with response, error }, []) ∧
      ∀ b ∈ response, b ∈ c.response ∨ b.conn = c.conn) ∨
    c.error = false ∧
      checkProxyClient true inRecon c =
        (some { c with connectSent := true, request := [] }, c.forwarded) := by
  rw [checkProxyClient, if_neg (by simp [hopen])]
  split
  · exact .inl ⟨c.response, c.error, rfl, fun _ hb ↦ .inl hb⟩
  · next herror =>
    split
    · refine .inl ⟨_, _, rfl, fun b hb ↦ ?_⟩
      rcases mem_append.mp hb with hb | hb
      · exact .inl hb
      · exact .inr (conn_of_mem_tagged hb)
    · exact .inr ⟨Bool.eq_false_of_not_eq_true herror, rfl⟩

variable {inRecon : Bool}

theorem checkProxyClient_names {c' : ProxyClient}
    (h : (checkProxyClient true inRecon c).1 = some c') :
    c.cleanUp = false ∧ c'.conn = c.conn ∧ c'.pid = c.pid ∧ c'.socket = c.socket ∧
      c'.cleanUp = c.cleanUp ∧ ∀ b ∈ c'.response, b ∈ c.response ∨ b.conn = c.conn := by
  cases hopen : c.cleanUp with
  | true =>
    rw [checkProxyClient, if_pos hopen] at h
    exact nomatch h
  | false =>
    rcases checkProxyClient_open inRecon hopen with ⟨response, error, heq, hown⟩ | ⟨-, heq⟩
    · rw [heq] at h
      obtain rfl := some.inj h
      exact ⟨rfl, rfl, rfl, rfl, hopen, hown⟩
    · rw [heq] at h
      obtain rfl := some.inj h
      exact ⟨rfl, rfl, rfl, rfl, hopen, fun _ hb ↦ .inl hb⟩

theorem checkProxyClient_messages {m : ToDaemon} (h : m ∈ (checkProxyClient true inRecon c).2) :
    m.origin = c.conn ∧ m.pid = c.pid := by
  cases hopen : c.cleanUp with
  | true =>
    rw [checkProxyClient, if_pos hopen] at h
    obtain rfl := mem_singleton.mp h
    exact ⟨rfl, rfl⟩
  | false =>
    rcases checkProxyClient_open inRecon hopen with ⟨_, _, heq, -⟩ | ⟨-, heq⟩
    · rw [heq] at h
      exact nomatch h
    · rw [heq] at h
      rcases mem_append.mp h with hm | hm
      · split at hm
        · exact nomatch hm
        · obtain rfl := mem_singleton.mp hm
          exact ⟨rfl, rfl⟩
      · split at hm
        · exact nomatch hm
        · obtain rfl := mem_singleton.mp hm
          exact ⟨rfl, rfl⟩

theorem Kept.checkProxyClients (h : w.Kept)
    (hforward : ∀ c ∈ w.clients, c.error = false → proxyData c.request = c.request) :
    (w.checkProxyClients inRecon).Kept := by
  have hnodup : (w.clients.map (·.pid)).Nodup := by
    have hpids := h.distinct.pids
    rwa [names, List.map_map] at hpids
  refine ⟨?_, ⟨h.registered.fds, fun c' hc' _ ↦ ?_, fun s hs ↦ ?_⟩, fun c' hc' _ ↦ ?_,
    fun c' hc' _ ↦ ?_, h.own⟩
  · refine h.distinct.mono ?_ rfl (fun m hm ↦ ?_) h.distinct.daemon h.distinct.sent
      h.distinct.executed
    · refine map_filterMap_sublist _ _ fun c c' hc ↦ ?_
      obtain ⟨-, hconn, hpid, -⟩ := checkProxyClient_names hc
      rw [hconn, hpid]
    · rcases mem_append.mp hm with hold | hnew
      · exact h.distinct.up m hold
      · obtain ⟨c, hc, hmsg⟩ := mem_flatMap.mp hnew
        obtain ⟨horigin, hpid⟩ := checkProxyClient_messages hmsg
        rw [horigin, hpid]
        exact h.distinct.names_of_mem hc
  · obtain ⟨c, hc, hafter⟩ := mem_filterMap.mp hc'
    obtain ⟨hopen, hconn, -, hsocket, -⟩ := checkProxyClient_names hafter
    rw [hconn, hsocket]
    exact h.registered.mem c hc hopen
  · obtain ⟨hptr, c, hc, hconn, hsocket, hopen⟩ := h.registered.ptr s hs
    have hafter : ∃ c', (checkProxyClient true inRecon c).1 = some c' := by
      rcases checkProxyClient_open inRecon hopen with ⟨_, _, heq, -⟩ | ⟨-, heq⟩
      · exact ⟨_, congrArg Prod.fst heq⟩
      · exact ⟨_, congrArg Prod.fst heq⟩
    obtain ⟨c', hc'⟩ := hafter
    obtain ⟨-, hconn', -, hsocket', hopen', -⟩ := checkProxyClient_names hc'
    exact ⟨hptr, c', mem_filterMap.mpr ⟨c, hc, hc'⟩, hconn'.trans hconn, hsocket'.trans hsocket,
      hopen'.trans hopen⟩
  · obtain ⟨c, hc, hafter⟩ := mem_filterMap.mp hc'
    obtain ⟨hopen, hconn, hpid, -⟩ := checkProxyClient_names hafter
    have htraffic : (w.checkProxyClients inRecon).up.filter (·.pid = c.pid) =
        (w.view c).traffic ++ (checkProxyClient true inRecon c).2 := by
      show (w.up ++ _).filter _ = _
      rw [filter_append, filter_flatMap_of_key w.clients _ ProxyClient.pid
        (fun _ _ hm ↦ (checkProxyClient_messages hm).2), filter_key_of_nodup hnodup hc,
        flatMap_singleton]
      rfl
    have hview : (w.checkProxyClients inRecon).view c' =
        { w.view c with traffic := (w.view c).traffic ++ (checkProxyClient true inRecon c).2 } := by
      rw [view, hpid, hconn, htraffic]
      rfl
    rw [hview]
    rcases checkProxyClient_open inRecon hopen with ⟨_, _, heq, -⟩ | ⟨herror, heq⟩
    · rw [heq] at hafter ⊢
      obtain rfl := some.inj hafter
      rw [append_nil]
      exact (h.tracked c hc hopen).respond _ _
    · rw [heq] at hafter ⊢
      obtain rfl := some.inj hafter
      exact (h.tracked c hc hopen).forward (hforward c hc herror)
  · obtain ⟨c, hc, hafter⟩ := mem_filterMap.mp hc'
    obtain ⟨hopen, hconn, -, -, -, hresponse⟩ := checkProxyClient_names hafter
    rw [hconn]
    exact fun b hb ↦ (hresponse b hb).elim (h.response c hc hopen b) id

/-! ### The steps of the daemon -/

theorem mem_replaceFirst {pid : ℕ} {f : Client → List Client}
    (h : d ∈ replaceFirst pid f cs) : d ∈ cs ∨ ∃ c ∈ cs, d ∈ f c := by
  induction cs with
  | nil => exact .inl h
  | cons c cs ih =>
    rw [replaceFirst] at h
    split at h
    · rcases mem_append.mp h with hnew | hold
      · exact .inr ⟨c, mem_cons_self, hnew⟩
      · exact .inl (mem_cons_of_mem _ hold)
    · rcases mem_cons.mp h with rfl | hrest
      · exact .inl mem_cons_self
      · rcases ih hrest with hold | ⟨c', hc', hnew⟩
        · exact .inl (mem_cons_of_mem _ hold)
        · exact .inr ⟨c', mem_cons_of_mem _ hc', hnew⟩

/-- The clients of the daemon are those it had, and the one that a message tells it of. -/
theorem mem_command {m : ToDaemon} (h : d ∈ command cs m) :
    (∃ c ∈ cs, d.conn = c.conn ∧ d.pid = c.pid) ∨ (d.conn = m.origin ∧ d.pid = m.pid) := by
  cases m with
  | conn pid uid conn =>
    rcases mem_cons.mp h with rfl | hrest
    · exact .inr ⟨rfl, rfl⟩
    · rcases mem_replaceFirst hrest with hold | ⟨_, _, hnew⟩
      · exact .inl ⟨d, hold, rfl, rfl⟩
      · exact nomatch hnew
  | data pid conn bytes =>
    rcases mem_replaceFirst h with hold | ⟨c, hc, hnew⟩
    · exact .inl ⟨d, hold, rfl, rfl⟩
    · obtain rfl := mem_singleton.mp hnew
      exact .inl ⟨c, hc, rfl, rfl⟩
  | close pid conn =>
    rcases mem_replaceFirst h with hold | ⟨_, _, hnew⟩
    · exact .inl ⟨d, hold, rfl, rfl⟩
    · exact nomatch hnew

theorem Kept.command (h : w.Kept) {m : ToDaemon} {up : List ToDaemon} (hup : w.up = m :: up) :
    Kept { w with up, daemon := Proxy.command w.daemon m } := by
  have hm : m ∈ w.up := hup ▸ mem_cons_self
  refine h.of_tracked ?_ ⟨rfl, rfl, rfl⟩ fun c hc hopen ↦ ?_
  · refine h.distinct.mono (.refl _) rfl (fun m' hm' ↦ ?_) (fun d hd ↦ ?_) h.distinct.sent
      h.distinct.executed
    · exact h.distinct.up m' (hup ▸ mem_cons_of_mem _ hm')
    · rcases mem_command hd with ⟨d₀, hd₀, hconn, hpid⟩ | ⟨hconn, hpid⟩
      · rw [hconn, hpid]
        exact h.distinct.daemon d₀ hd₀
      · rw [hconn, hpid]
        exact h.distinct.up m hm
  · have htracked := h.tracked c hc hopen
    by_cases hpid : m.pid = c.pid
    · have htraffic : (w.view c).traffic = m :: up.filter (·.pid = c.pid) := by
        show w.up.filter _ = _
        rw [hup, filter_cons_of_pos (by simpa using hpid)]
      have hserved : (Proxy.command w.daemon m).filter (·.pid = c.pid) =
          Proxy.command (w.view c).served m := by
        rw [← hpid, filter_command_self, hpid]
        rfl
      have hafter := htracked.command (h.distinct.pid_ne _ (mem_names hc)) htraffic
      rw [← hserved] at hafter
      exact hafter
    · have htraffic : up.filter (·.pid = c.pid) = (w.view c).traffic := by
        show _ = w.up.filter _
        rw [hup, filter_cons_of_neg (by simpa using hpid)]
      have hview : view { w with up, daemon := Proxy.command w.daemon m } c = w.view c := by
        rw [view, htraffic, filter_command_of_ne hpid]
        rfl
      rw [hview]
      exact htracked

/-- What is executed for a connection is executed for the clients of the daemon with its number. -/
theorem executedFor_append (executed : List (ℕ × List Byte)) (cs : List Client)
    (line : Client → Option (List Byte)) (k : ℕ) :
    ((executed ++ cs.filterMap fun c ↦ (line c).map (c.conn, ·)).filter (·.1 = k)).flatMap (·.2) =
      (executed.filter (·.1 = k)).flatMap (·.2) ++
        (cs.filter (·.conn = k)).flatMap fun c ↦ (line c).getD [] := by
  rw [filter_append, flatMap_append]
  congr 1
  induction cs with
  | nil => rfl
  | cons c cs ih =>
    by_cases hk : c.conn = k
    · cases hline : line c with
      | none | some bytes => simp [hline, hk, ih]
    · cases hline : line c with
      | none | some bytes => simp [hline, hk, ih]

/-- The clients of the daemon for a connection are those with its process id. -/
theorem Kept.served_eq (h : w.Kept) (hc : c ∈ w.clients) (hopen : c.cleanUp = false) :
    w.daemon.filter (·.conn = c.conn) = (w.view c).served := by
  refine filter_congr fun d hd ↦ decide_eq_decide.mpr ⟨fun hconn ↦ ?_, fun hpid ↦ ?_⟩
  · exact ((h.distinct.daemon d hd).2 _ (mem_names hc) hconn.symm).symm
  · exact (h.tracked c hc hopen).served_conn d (mem_filter.mpr ⟨hd, decide_eq_true hpid⟩)

theorem Kept.traffic_eq (h : w.Kept) (hc : c ∈ w.clients) (hopen : c.cleanUp = false) :
    w.up.filter (·.origin = c.conn) = (w.view c).traffic := by
  refine filter_congr fun m hm ↦ decide_eq_decide.mpr ⟨fun hconn ↦ ?_, fun hpid ↦ ?_⟩
  · exact ((h.distinct.up m hm).2 _ (mem_names hc) hconn.symm).symm
  · exact (h.tracked c hc hopen).traffic_origin m (mem_filter.mpr ⟨hm, decide_eq_true hpid⟩)

theorem checkClient_names {d' : Client}
    (h : (checkClient run d).client = some d') : d'.conn = d.conn ∧ d'.pid = d.pid := by
  rw [checkClient] at h
  split at h
  · obtain rfl := some.inj h
    exact ⟨rfl, rfl⟩
  · split at h
    · contradiction
    · obtain rfl := some.inj h
      exact ⟨rfl, rfl⟩

theorem checkClient_answers (h : m ∈ (checkClient run d).answers) : m.pid = d.pid := by
  rw [checkClient] at h
  split at h
  · contradiction
  · split at h
    · contradiction
    · obtain ⟨_, -, rfl⟩ := mem_map.mp h
      rfl

theorem checkBlockingClient_answers {wake : ℕ → Option Str} (h : m ∈ checkBlockingClient wake d) :
    m.pid = d.pid := by
  rw [checkBlockingClient] at h
  split at h
  · obtain rfl := mem_singleton.mp h
    rfl
  · contradiction

/-- The answers that the daemon adds for a process are those for its clients. -/
theorem answers_append {answers : Client → List ToAgent}
    (hdown : w'.down = w.down ++ w.daemon.flatMap answers) (hpid : ∀ d, ∀ m ∈ answers d,
      m.pid = d.pid) :
    w'.down.filter (·.pid = c.pid) = (w.view c).answers ++ (w.view c).served.flatMap answers := by
  rw [hdown, filter_append, filter_flatMap_of_key w.daemon _ Client.pid hpid]
  rfl

theorem Kept.checkClientEvent (h : w.Kept) (run : ℕ → Str → Outcome)
    (hload : ∀ d ∈ w.daemon, ∀ line newline rest, firstLine d.request = some (line, newline, rest) →
      ∃ msg, loadMessage (line.map (·.char)) = .ok msg) : (w.checkClientEvent run).Kept := by
  refine h.of_tracked ?_ ⟨rfl, rfl, rfl⟩ fun c hc hopen ↦ ?_
  · refine h.distinct.mono (.refl _) rfl h.distinct.up (fun d' hd' ↦ ?_)
      h.distinct.sent (fun x hx ↦ ?_)
    · obtain ⟨d, hd, hafter⟩ := mem_filterMap.mp hd'
      obtain ⟨hconn, hpid⟩ := checkClient_names hafter
      rw [hconn, hpid]
      exact h.distinct.daemon d hd
    · rcases mem_append.mp hx with hold | hnew
      · exact h.distinct.executed x hold
      · obtain ⟨d, hd, hline⟩ := mem_filterMap.mp hnew
        obtain ⟨_, -, rfl⟩ := map_eq_some_iff.mp hline
        exact (h.distinct.daemon d hd).1
  · have hserved : (w.checkClientEvent run).daemon.filter (·.pid = c.pid) =
        (w.view c).served.filterMap fun d ↦ (checkClient run d).client :=
      filter_filterMap_of_key _ _ (fun _ _ hd ↦ (checkClient_names hd).2) _
    have hexecuted : (w.checkClientEvent run).executedFor c.conn =
        (w.view c).executed ++ (w.view c).served.flatMap fun d ↦
        (checkClient run d).line.getD [] := by
      rw [← h.served_eq hc hopen]
      exact executedFor_append _ _ _ _
    have hview : (w.checkClientEvent run).view c = { w.view c with
        served := (w.view c).served.filterMap fun d ↦ (checkClient run d).client
        executed := (w.view c).executed ++
          (w.view c).served.flatMap fun d ↦ (checkClient run d).line.getD []
        answers := (w.view c).answers ++
          (w.view c).served.flatMap fun d ↦ (checkClient run d).answers } := by
      rw [view, hserved, answers_append rfl fun _ _ hm ↦ checkClient_answers hm, hexecuted]
      rfl
    rw [hview]
    refine (h.tracked c hc hopen).serve run (fun b hb ↦ ?_) fun d hd ↦ ?_
    · exact of_decide_eq_true (mem_filter.mp hb).2
    · exact hload d (mem_filter.mp hd).1

theorem Kept.checkBlockingClientEvent (h : w.Kept) (wake : ℕ → Option Str) :
    (w.checkBlockingClientEvent wake).Kept := by
  refine h.of_tracked (h.distinct.frame rfl rfl rfl rfl rfl rfl) ⟨rfl, rfl, rfl⟩ fun c hc hopen ↦ ?_
  have hview : (w.checkBlockingClientEvent wake).view c = { w.view c with
      answers := (w.view c).answers ++ (w.view c).served.flatMap (checkBlockingClient wake) } := by
    rw [view, answers_append rfl fun _ _ hm ↦ checkBlockingClient_answers hm]
    rfl
  rw [hview]
  exact (h.tracked c hc hopen).wake wake

theorem Kept.step {e : Event} (h : w.Kept) (hgood : oneAtATime w e = true)
    (hstep : Step w e w') : w'.Kept := by
  cases e with
  | connect fd pid uid =>
    obtain ⟨hpid, hidle⟩ := Bool.and_eq_true_iff.mp hgood
    obtain ⟨hfd, hnext⟩ := ite_none_right_eq_some.mp hstep
    obtain rfl := some.inj hnext
    exact h.connect hfd (bne_iff_ne.mp hpid) hidle
  | read fd text =>
    obtain ⟨s, hs, rfl⟩ := map_eq_some_iff.mp hstep
    exact h.read (mem_of_socket hs) text
  | hangup fd =>
    obtain ⟨s, hs, rfl⟩ := map_eq_some_iff.mp hstep
    exact h.hangup (mem_of_socket hs)
  | write fd n =>
    obtain ⟨s, hs, rfl⟩ := map_eq_some_iff.mp hstep
    exact h.write (mem_of_socket hs) n
  | response =>
    rw [Step, Proxy.next] at hstep
    split at hstep
    · exact nomatch hstep
    · next m down hdown =>
      obtain rfl := some.inj hstep
      refine (h.thin (hdown ▸ sublist_cons_self m down)).proxyResponse (fun c hc hopen hpid ↦ ?_)
        fun c hc hgone s hs ↦ ?_
      · refine (h.tracked c hc hopen).own m ?_
        exact mem_filter.mpr ⟨hdown ▸ mem_cons_self, decide_eq_true hpid.symm⟩
      · have hreceiver : w.receiver m = some c := hc
        simp only [oneAtATime, hdown, head?_cons, all_some, hreceiver, hgone, Bool.not_true,
          Bool.false_or, List.all_eq_true, bne_iff_ne] at hgood
        exact hgood s hs
  | checkProxyClients inRecon =>
    obtain rfl := some.inj hstep
    refine h.checkProxyClients fun c hc herror ↦ takeWhile_eq_self_iff.mpr fun b hb ↦ ?_
    have hcarried := all_eq_true.mp hgood c hc
    rw [herror, Bool.false_or, forwardable, Bool.and_eq_true] at hcarried
    exact all_eq_true.mp hcarried.1 b hb
  | command =>
    rw [Step, Proxy.next] at hstep
    split at hstep
    · exact nomatch hstep
    · next m up hup =>
      obtain rfl := some.inj hstep
      exact h.command hup
  | checkClientEvent run =>
    obtain rfl := some.inj hstep
    refine h.checkClientEvent run fun d hd line newline rest hline ↦ ?_
    have hd' := all_eq_true.mp hgood d hd
    simp only [hline, all_some] at hd'
    split at hd'
    · next msg hmsg => exact ⟨msg, hmsg⟩
    · exact nomatch hd'
  | checkBlockingClientEvent wake =>
    obtain rfl := some.inj hstep
    exact h.checkBlockingClientEvent wake

theorem flatMap_bytes_data (pid conn : ℕ) (chunks : List (List Byte)) :
    (chunks.map (ToDaemon.data pid conn)).flatMap (·.bytes) = chunks.flatten := by
  rw [flatMap_map]
  exact flatMap_id

/-- What is tracked adds up to what has been sent. -/
theorem Kept.keptApart (h : w.Kept) : w.KeptApart := by
  refine ⟨fun c hc hopen ↦ ?_, fun c hc hopen hconnect ↦ ?_, h.own⟩
  · rw [atDaemon, inFlight, h.served_eq hc hopen, h.traffic_eq hc hopen]
    show (w.view c).sent = (w.view c).executed ++ _ ++ _ ++ _
    cases h.tracked c hc hopen with
    | fresh _ htraffic hserved _ hsent => simp [htraffic, hserved, hsent]
    | connecting chunks _ htraffic hserved _ hsent =>
      rw [htraffic, hserved, flatMap_cons, flatMap_bytes_data]
      simp [hsent, ToDaemon.bytes]
    | connected chunks d _ htraffic hserved _ _ _ _ hsent =>
      simp [htraffic, hserved, hsent, flatMap_bytes_data]
  · cases h.tracked c hc hopen with
    | fresh hfresh => exact absurd hconnect (by simp [hfresh])
    | connecting chunks _ htraffic =>
      have hmem : .conn c.pid c.uid c.conn ∈ (w.view c).traffic := htraffic ▸ mem_cons_self
      exact .inr (mem_filter.mp hmem).1
    | connected chunks d _ _ hserved _ hconn =>
      have hmem : d ∈ (w.view c).served := hserved ▸ mem_cons_self
      exact .inl ⟨d, (mem_filter.mp hmem).1, hconn⟩

end World

/-- **Clients are kept apart** in every run in which a process has one connection at a time. -/
theorem keptApart_of_run {w : World} (h : Run Step (fun w e ↦ oneAtATime w e = true) {} w) :
    w.KeptApart := by
  have hkept : w.Kept := h.invariant (I := World.Kept) (fun h ↦ h.step) World.Kept.init
  exact hkept.keptApart

/-- Such a run: two processes, and a request of the first one at the daemon. -/
theorem keptApart_two_processes : ∃ w : World,
    w.clients.length = 2 ∧ w.atDaemon 0 = tagged 0 ['x'] ∧ w.KeptApart := by
  obtain ⟨w, hrun, hlength, hqueued⟩ := Run.exists_of_next oneAtATime Proxy.next
    [.connect 5 7 1, .connect 6 8 1, .read 5 ['x'], .checkProxyClients false, .command, .command,
    .command] {} (fun w ↦ w.clients.length = 2 ∧ w.atDaemon 0 = tagged 0 ['x']) (by decide +kernel)
  exact ⟨w, hlength, hqueued, keptApart_of_run hrun⟩

/-- **A process that closes one connection and opens another loses the request it sends on the new
one**: the agent looks at the new connection first, so the daemon is told to close the old one last
and removes the client of the new one. -/
theorem not_keptApart_reconnect : ∃ w : World,
    Run Step (fun _ _ ↦ True) {} w ∧ ¬ w.KeptApart := by
  obtain ⟨w, hrun, hup, c, hc, hopen, hconnect, hnone⟩ :=
    Run.exists_of_next (fun _ _ ↦ true) Proxy.next
    [.connect 5 7 1, .checkProxyClients false, .command,
      .hangup 5, .connect 5 7 1, .read 5 ['x', '\n'], .checkProxyClients false, .command, .command,
      .command] {}
    (fun w ↦ w.up = [] ∧ ∃ c ∈ w.clients, c.cleanUp = false ∧ c.connectSent = true ∧
      ∀ d ∈ w.daemon, d.conn ≠ c.conn) (by decide +kernel)
  refine ⟨w, hrun.mono fun _ _ _ ↦ trivial, fun hkept ↦ ?_⟩
  rcases hkept.served c hc hopen hconnect with ⟨d, hd, hconn⟩ | hmem
  · exact hnone d hd hconn
  · rw [hup] at hmem
    exact nomatch hmem

end Jers.Proxy
