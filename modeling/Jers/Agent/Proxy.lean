import Jers.Json.Framing
import Jers.Json.Message
import Jers.Lib.Run

/-!
# Clients behind an agent

A client on the host of an agent connects to the agent, which passes what the client sends on to the
daemon and what the daemon answers back to the client. Agent and daemon each keep a list of these
clients (`proxyClientList`, `clientList`) and tell them apart by the process id of the client.

The link between the two stays up and delivers messages in order. Bytes carry the connection they
belong to, as do the messages and the daemon's clients; no function looks at that. The daemon's list
is restricted to the clients of the one agent.
-/

namespace Jers.Proxy

/-- A byte of a request or an answer, and the connection that the request came in on. -/
structure Byte where
  char : Char
  conn : ℕ
  deriving DecidableEq, Repr

def tagged (conn : ℕ) (text : Str) : List Byte := text.map (⟨·, conn⟩)

/-- Messages of the agent, from the client of a connection. -/
inductive ToDaemon
  | conn (pid uid conn : ℕ)
  | data (pid conn : ℕ) (bytes : List Byte)
  | close (pid conn : ℕ)
  deriving DecidableEq, Repr

def ToDaemon.pid : ToDaemon → ℕ
  | .conn pid _ _ | .data pid _ _ | .close pid _ => pid

def ToDaemon.origin : ToDaemon → ℕ
  | .conn _ _ k | .data _ k _ | .close _ k => k

def ToDaemon.bytes : ToDaemon → List Byte
  | .data _ _ bytes => bytes
  | _ => []

/-- An answer of the daemon on its way to a client. -/
structure ToAgent where
  pid : ℕ
  bytes : List Byte
  deriving DecidableEq, Repr

/-! ### The agent -/

/-- `proxyClient`. The number `conn` stands for its address as well. -/
structure ProxyClient where
  socket : ℕ
  pid : ℕ
  uid : ℕ
  conn : ℕ
  request : List Byte := []
  response : List Byte := []
  connectSent : Bool := false
  cleanUp : Bool := false
  error : Bool := false
  deriving DecidableEq, Repr

/-- An open descriptor: the connection behind it, and the address that `epoll` has been given for
it. -/
structure Socket where
  fd : ℕ
  conn : ℕ
  ptr : ℕ
  deriving DecidableEq, Repr

/-- What `sendProxyError` sends when there is no daemon. -/
def notConnected : Str :=
  jsonEnd (jsonAddString (jsonStart []) .error (some "JERS_ERR_NOTCONN Agent not connected".toList))

/-- What `send_proxy_data` sends of a buffer: `JSONAddStringN` stops at a NUL. -/
def proxyData (request : List Byte) : List Byte := request.takeWhile (·.char ≠ '\x00')

/-- What is sent for a client: that it has connected, once, and what it has asked. -/
def ProxyClient.forwarded (c : ProxyClient) : List ToDaemon :=
  (if c.connectSent then [] else [.conn c.pid c.uid c.conn]) ++
    if c.request.isEmpty then [] else [.data c.pid c.conn (proxyData c.request)]

/-- The body of the loop of `check_proxy_clients`: the client afterwards, if it is not freed, and
the messages for the daemon. The buffer is cleared whatever was sent of it, so `request_forwarded`
is always 0. -/
def checkProxyClient (online inRecon : Bool) (c : ProxyClient) :
    Option ProxyClient × List ToDaemon :=
  if c.cleanUp then
    (none, if online then [.close c.pid c.conn] else [])
  else if c.error then
    (some c, [])
  else if c.connectSent = false ∧ (online = false ∨ inRecon = true) then
    (some { c with response := c.response ++ tagged c.conn notConnected, error := true }, [])
  else
    (some { c with connectSent := true, request := [] }, c.forwarded)

/-! ### The daemon -/

/-- A proxied `client`. `blocking` is set by a request that is answered later. -/
structure Client where
  pid : ℕ
  uid : ℕ
  conn : ℕ
  request : List Byte := []
  blocking : Option ℕ := none
  deriving DecidableEq, Repr

/-- The search for a client. -/
def isClient (pid : ℕ) (c : Client) : Bool := c.pid != 0 && c.pid == pid

/-- Replace the first client that is found, by nothing if it is removed. -/
def replaceFirst (pid : ℕ) (f : Client → List Client) : List Client → List Client
  | [] => []
  | c :: cs => if isClient pid c then f c ++ cs else c :: replaceFirst pid f cs

/-- `command_agent_proxyconn`, which drops an earlier client of the process,
`command_agent_proxydata` and `command_agent_proxyclose`. -/
def command (clients : List Client) : ToDaemon → List Client
  | .conn pid uid conn => { pid, uid, conn } :: replaceFirst pid (fun _ ↦ []) clients
  | .data pid _ bytes =>
    replaceFirst pid (fun c ↦ [{ c with request := c.request ++ bytes }]) clients
  | .close pid _ => replaceFirst pid (fun _ ↦ []) clients

/-- The first line of a buffer, its newline, and the rest. -/
def firstLine (bytes : List Byte) : Option (List Byte × Byte × List Byte) :=
  match bytes.dropWhile (·.char != '\n') with
  | [] => none
  | newline :: rest => some (bytes.takeWhile (·.char != '\n'), newline, rest)

/-- What `runCommand` does: the answers it sends, and whether the client waits for a further one. -/
structure Outcome where
  answers : List Str := []
  blocks : Bool := false

/-- A pass of `checkClientEvent` over one client: the client afterwards, if it is not disconnected,
the line that is executed for it, and the answers. -/
structure Served where
  client : Option Client
  line : Option (List Byte) := none
  answers : List ToAgent := []

/-- The body of the loop of `checkClientEvent`. -/
def checkClient (run : ℕ → Str → Outcome) (c : Client) : Served :=
  match firstLine c.request with
  | none => { client := some c }
  | some (line, newline, rest) =>
    match loadMessage (line.map (·.char)) with
    -- The connection to the agent stays open and nobody tells the agent.
    | .error _ => { client := none }
    | .ok _ =>
      let outcome := run c.conn (line.map (·.char))
      { client := some { c with
          request := rest
          blocking := if outcome.blocks then some newline.conn else c.blocking }
        line := some (line ++ [newline])
        answers := outcome.answers.map fun text ↦ ⟨c.pid, tagged newline.conn text⟩ }

/-- The body of the loop of `checkBlockingClientEvent`: the callback, which stays set, may
answer. -/
def checkBlockingClient (wake : ℕ → Option Str) (c : Client) : List ToAgent :=
  match c.blocking, wake c.conn with
  | some cause, some text => [⟨c.pid, tagged cause text⟩]
  | _, _ => []

/-! ### Both of them -/

/-- The two parties, the descriptors of the agent and the link, and what has happened so far: the
bytes that clients have sent, the lines that were executed for a connection, and the bytes that were
delivered to one. -/
structure World where
  clients : List ProxyClient := []
  sockets : List Socket := []
  up : List ToDaemon := []
  down : List ToAgent := []
  daemon : List Client := []
  next : ℕ := 0
  sent : List Byte := []
  executed : List (ℕ × List Byte) := []
  delivered : List (ℕ × Byte) := []
  deriving DecidableEq, Repr

/-- Change the structure at an address. One that has been freed is not there to be changed. -/
def World.modify (w : World) (ptr : ℕ) (f : ProxyClient → ProxyClient) : World :=
  { w with clients := w.clients.map fun c ↦ if c.conn = ptr then f c else c }

def World.socket (w : World) (fd : ℕ) : Option Socket := w.sockets.find? (·.fd == fd)

/-- `handleClientProxyConnection`, on the descriptor `fd`. -/
def World.connect (w : World) (fd pid uid : ℕ) : World :=
  { w with
    clients := { socket := fd, pid, uid, conn := w.next } :: w.clients
    sockets := { fd, conn := w.next, ptr := w.next } :: w.sockets
    next := w.next + 1 }

/-- `handleClientProxyRead`. The bytes come from the connection behind the descriptor. -/
def World.read (w : World) (s : Socket) (text : Str) : World :=
  let bytes := tagged s.conn text
  { w.modify s.ptr (fun c ↦ { c with request := c.request ++ bytes }) with sent := w.sent ++ bytes }

/-- `handleClientProxyDisconnect`. -/
def World.hangup (w : World) (s : Socket) : World :=
  { w.modify s.ptr (fun c ↦ { c with request := [], response := [], cleanUp := true }) with
    sockets := w.sockets.filter (·.fd != s.fd) }

/-- `handleClientProxyWrite`, when the socket takes `n` bytes. -/
def World.write (w : World) (s : Socket) (n : ℕ) : World :=
  { w.modify s.ptr (fun c ↦ { c with response := c.response.drop n }) with
    delivered := w.delivered ++
      ((w.clients.find? (·.conn == s.ptr)).elim [] fun c ↦ (c.response.take n).map (s.conn, ·)) }

/-- The client that `proxy_response` finds. -/
def World.receiver (w : World) (m : ToAgent) : Option ProxyClient :=
  if m.pid = 0 then none else w.clients.find? (·.pid == m.pid)

/-- `proxy_response`. The call of `pollSetWritable` gives `epoll` the address of the client for
whatever is open as its descriptor. -/
def World.proxyResponse (w : World) (m : ToAgent) : World :=
  match w.receiver m with
  | none => w
  | some found =>
    { w.modify found.conn (fun c ↦ { c with response := c.response ++ m.bytes }) with
      sockets :=
        w.sockets.map fun s ↦ if s.fd = found.socket then { s with ptr := found.conn } else s }

/-- `check_proxy_clients`, during a reconciliation or not. -/
def World.checkProxyClients (w : World) (inRecon : Bool) : World :=
  { w with
    clients := w.clients.filterMap fun c ↦ (checkProxyClient true inRecon c).1
    up := w.up ++ w.clients.flatMap fun c ↦ (checkProxyClient true inRecon c).2 }

/-- `checkClientEvent`. -/
def World.checkClientEvent (w : World) (run : ℕ → Str → Outcome) : World :=
  { w with
    daemon := w.daemon.filterMap fun c ↦ (checkClient run c).client
    executed := w.executed ++ w.daemon.filterMap fun c ↦ (checkClient run c).line.map (c.conn, ·)
    down := w.down ++ w.daemon.flatMap fun c ↦ (checkClient run c).answers }

/-- `checkBlockingClientEvent`. -/
def World.checkBlockingClientEvent (w : World) (wake : ℕ → Option Str) : World :=
  { w with down := w.down ++ w.daemon.flatMap (checkBlockingClient wake) }

/-- What can happen: a client connects, sends, goes away or takes what it is sent; the agent takes a
message of the daemon or looks through its clients; the daemon takes a message of the agent, runs
the requests that are there, or looks at the clients that wait. -/
inductive Event
  | connect (fd pid uid : ℕ)
  | read (fd : ℕ) (text : Str)
  | hangup (fd : ℕ)
  | write (fd n : ℕ)
  | response
  | checkProxyClients (inRecon : Bool)
  | command
  | checkClientEvent (run : ℕ → Str → Outcome)
  | checkBlockingClientEvent (wake : ℕ → Option Str)

/-- An event on a descriptor needs one that is open, and a new connection one that is not. -/
def next (w : World) : Event → Option World
  | .connect fd pid uid => if (w.socket fd).isNone then some (w.connect fd pid uid) else none
  | .read fd text => (w.socket fd).map (w.read · text)
  | .hangup fd => (w.socket fd).map w.hangup
  | .write fd n => (w.socket fd).map (w.write · n)
  | .response =>
    match w.down with
    | [] => none
    | m :: down => some ({ w with down }.proxyResponse m)
  | .checkProxyClients inRecon => some (w.checkProxyClients inRecon)
  | .command =>
    match w.up with
    | [] => none
    | m :: up => some { w with up, daemon := command w.daemon m }
  | .checkClientEvent run => some (w.checkClientEvent run)
  | .checkBlockingClientEvent wake => some (w.checkBlockingClientEvent wake)

def Step (w : World) (e : Event) (w' : World) : Prop := next w e = some w'

/-! ### What is asked of it -/

/-- What has been sent on a connection. -/
def World.sentOn (w : World) (conn : ℕ) : List Byte := w.sent.filter (·.conn = conn)

/-- What has been executed for a connection. -/
def World.executedFor (w : World) (conn : ℕ) : List Byte :=
  (w.executed.filter (·.1 = conn)).flatMap (·.2)

/-- What the daemon has of a connection and has not executed yet. -/
def World.atDaemon (w : World) (conn : ℕ) : List Byte :=
  (w.daemon.filter (·.conn = conn)).flatMap (·.request)

/-- What is in flight of a connection. -/
def World.inFlight (w : World) (conn : ℕ) : List Byte :=
  (w.up.filter (·.origin = conn)).flatMap (·.bytes)

/-- **The clients are kept apart**: what has been sent on an open connection has been executed for
it or is queued for it; the daemon has a client for every connection that it has been told of and
that is open; and a connection is only delivered answers to its own requests. -/
structure World.KeptApart (w : World) : Prop where
  queued : ∀ c ∈ w.clients, c.cleanUp = false →
    w.sentOn c.conn = w.executedFor c.conn ++ w.atDaemon c.conn ++ w.inFlight c.conn ++ c.request
  served : ∀ c ∈ w.clients, c.cleanUp = false → c.connectSent = true →
    (∃ d ∈ w.daemon, d.conn = c.conn) ∨ .conn c.pid c.uid c.conn ∈ w.up
  own : ∀ x ∈ w.delivered, x.2.conn = x.1

/-- Nothing is left of the connections of a process. -/
def World.idle (w : World) (pid : ℕ) : Bool :=
  w.clients.all (·.pid != pid) && w.up.all (·.pid != pid) && w.down.all (·.pid != pid) &&
    w.daemon.all (·.pid != pid)

/-- A chunk of a request that reaches the daemon as it is: there is no NUL in it, and the message
that carries it can be loaded. -/
def forwardable (request : List Byte) : Bool :=
  request.all (·.char ≠ '\x00') && decide (Framed [request.map (·.char)])

/-- **One connection at a time**: a process that connects has a process id in the eyes of the agent
and nothing is left of its earlier connections; what is forwarded arrives as it is; an answer for a
client that has gone does not find its descriptor open again; and the lines that are executed are
messages. -/
def oneAtATime (w : World) : Event → Bool
  | .connect _ pid _ => pid != 0 && w.idle pid
  | .checkProxyClients _ => w.clients.all fun c ↦ c.error || forwardable c.request
  | .response => w.down.head?.all fun m ↦ (w.receiver m).all fun c ↦
    !c.cleanUp || w.sockets.all (·.fd != c.socket)
  | .checkClientEvent _ => w.daemon.all fun c ↦ (firstLine c.request).all fun (line, _, _) ↦
    match loadMessage (line.map (·.char)) with
    | .ok _ => true
    | .error _ => false
  | _ => true

end Jers.Proxy
