import Conduit.Sync.Trace
import Conduit.Transceiver.Registry

/-!
# Connections of a multi-peer transport

The I/O thread of a TCP server (`tcp_server.cpp:381-509`) or of a UDP transport without a fixed
remote address (`udp.cpp:502-602`), with the handlers of the transceiver that it calls, and the
threads that send to its peers (`transceiver.cpp:540-602`, `tcp_server.cpp:229-245`,
`udp.cpp:312-344`).

An event of the network changes the map of the transport, or it makes the I/O thread call handlers.
Such a call is a list of actions, one for each section under a lock and one for each state callback,
so that the other threads run between them; a send that a callback makes is one that is finished
before the next action. `stop` joins the I/O thread before it calls handlers, so that it is an event
like the others. A send looks its peer up twice, under `peers_mutex_` and then under the lock of the
transport. The callbacks are those that are registered when the transceiver starts.
-/

namespace Conduit.Transceiver

open Sync

/-! ## Transports -/

/-- What an event makes the transport do: nothing that the transceiver hears of, ask it for the id
of a new peer, or take peers out of its map and report them. -/
inductive Effect (τ α : Type) where
  | quiet (t : τ)
  | announce (remoteEndpoint : String) (hasSession : Bool) (address : α)
  | remove (t : τ) (peers : List Nat)

/-- A transport with its map of peers. A peer is entered into the map once it has an id, unless
there is no room any more; some transports then report it as connected themselves. -/
structure Driver (τ ε α : Type) where
  event : ε → τ → Effect τ α
  enter : Nat → α → τ → Option τ
  confirms : Bool
  knows : τ → Nat → Bool

/-- Events of a TCP server. The factory of the transceiver decides whether there is a session. -/
inductive TcpEvent where
  | accept (remoteEndpoint : String) (socket : Nat) (noDelay hasSession : Bool)
  | data (peer : Nat)
  | closed (peer : Nat)
  | stop

/-- `tcp_server.cpp:381-509`, and `tcp_server.cpp:154-208` for the end. The map has the sockets. -/
def tcpServer (maxClients : Nat) : Driver (AList fun _ : Nat => Nat) TcpEvent Nat where
  event e clients :=
    match e with
    | .accept remoteEndpoint socket noDelay hasSession =>
      if !noDelay || clients.entries.length ≥ maxClients then .quiet clients
      else .announce remoteEndpoint hasSession socket
    | .data _ => .quiet clients
    | .closed peer =>
      if (clients.lookup peer).isSome then .remove (clients.erase peer) [peer] else .quiet clients
    | .stop => .remove ∅ clients.keys
  enter peer socket clients := some (clients.insert peer socket)
  confirms := false
  knows clients peer := (clients.lookup peer).isSome

/-- The part of `sockaddr_in` that tells senders apart. -/
structure SockAddr where
  address : UInt32
  port : UInt16
deriving DecidableEq

/-- `inet_ntop` and the port. -/
def SockAddr.endpoint (a : SockAddr) : String :=
  let n := a.address.toNat
  s!"{n / 2 ^ 24}.{n / 2 ^ 16 % 256}.{n / 2 ^ 8 % 256}.{n % 256}:{a.port}"

/-- `udp.cpp:70-72`. -/
structure UdpPeers where
  addrToPeer : AList (fun _ : SockAddr => Nat) := ∅
  peerToAddr : AList (fun _ : Nat => SockAddr) := ∅
  lastActivity : AList (fun _ : Nat => Nat) := ∅

/-- `udp.hpp:24-29`; the time-out is in seconds. -/
structure UdpConfig where
  maxPeers : Nat
  peerTimeout : Int64

/-- The time-out as it is compared with a difference of times, in nanoseconds. The conversion of
`std::chrono` multiplies in 64 bits. -/
def UdpConfig.timeoutNanos (config : UdpConfig) : Int := (config.peerTimeout * 1000000000).toInt

inductive UdpEvent where
  | datagram (sender : SockAddr) (now : Nat) (hasSession : Bool)
  | timer (now : Nat)
  | stop

namespace UdpPeers

def full (config : UdpConfig) (t : UdpPeers) : Bool :=
  config.maxPeers > 0 && t.addrToPeer.entries.length ≥ config.maxPeers

def insert (t : UdpPeers) (peer : Nat) (a : SockAddr) (now : Nat) : UdpPeers :=
  { addrToPeer := t.addrToPeer.insert a peer
    peerToAddr := t.peerToAddr.insert peer a
    lastActivity := t.lastActivity.insert peer now }

def erase (t : UdpPeers) (peer : Nat × SockAddr) : UdpPeers :=
  { addrToPeer := t.addrToPeer.erase peer.2
    peerToAddr := t.peerToAddr.erase peer.1
    lastActivity := t.lastActivity.erase peer.1 }

/-- The peers that have been silent for too long. -/
def stale (config : UdpConfig) (t : UdpPeers) (now : Nat) : List (Nat × SockAddr) :=
  t.lastActivity.entries.filterMap fun ⟨peer, last⟩ =>
    if (now - last : Int) > config.timeoutNanos then (t.peerToAddr.lookup peer).map (peer, ·) else none

end UdpPeers

/-- `udp.cpp:502-602`, and `udp.cpp:252-296` for the end. -/
def udp (config : UdpConfig) : Driver UdpPeers UdpEvent (SockAddr × Nat) where
  event e t :=
    match e with
    | .datagram sender now hasSession =>
      match t.addrToPeer.lookup sender with
      | some peer => .quiet { t with lastActivity := t.lastActivity.insert peer now }
      | none =>
        if t.full config then .quiet t else .announce sender.endpoint hasSession (sender, now)
    | .timer now =>
      if config.peerTimeout = 0 then .quiet t
      else .remove ((t.stale config now).foldl .erase t) ((t.stale config now).map (·.1))
    | .stop => .remove {} (t.addrToPeer.entries.map (·.2))
  enter peer place t := if t.full config then none else some (t.insert peer place.1 place.2)
  confirms := true
  knows t peer := (t.peerToAddr.lookup peer).isSome

/-! ## The I/O thread and the senders -/

/-- One section of a handler, or the call of one state callback. -/
inductive HandlerAction where
  | setState (peer : Nat) (state : ConnectionState)
  | tell (notice : Notice)
  | drop (peer : Nat)

namespace HandlerAction

def perform : HandlerAction → Registry → Registry
  | .setState peer state, r => r.setState peer state
  | .tell notice, r => { r with told := r.told ++ [notice] }
  | .drop peer, r => r.dropPeer peer

/-- The peer that a callback is told to be connected. -/
def announced : HandlerAction → List Nat
  | .tell notice => if notice.state = .connected then [notice.peer] else []
  | _ => []

def tells (callbacks : List Nat) (peer : Nat) (state : ConnectionState) : List HandlerAction :=
  callbacks.map fun callback => .tell { callback, peer, state }

/-- `handle_state_changed`. -/
def stateChanged (callbacks : List Nat) (peer : Nat) (state : ConnectionState) : List HandlerAction :=
  .setState peer state :: tells callbacks peer state

/-- `handle_peer_disconnected`. -/
def peerDisconnected (callbacks : List Nat) (peer : Nat) : List HandlerAction :=
  .drop peer :: tells callbacks peer .disconnected

/-- What both transports do with a peer that they have removed. -/
def removed (callbacks : List Nat) (peer : Nat) : List HandlerAction :=
  stateChanged callbacks peer .disconnected ++ peerDisconnected callbacks peer

end HandlerAction

/-- The life of a connection, as the transport sees it. -/
inductive Happening where
  | announced (peer : Nat)
  | entered (peer : Nat)
  | rejected (peer : Nat)
  | removed (peer : Nat)
deriving DecidableEq

def Happening.peer : Happening → Nat
  | .announced peer | .entered peer | .rejected peer | .removed peer => peer

/-- A thread in `send_impl`. The flag says that a callback had been told that the peer is connected
when the send began, and that the transport had not taken the peer out of its map by then. -/
inductive Sending where
  | idle
  | started (peer : Nat) (told : Bool)
  | encoded (peer : Nat) (told : Bool)

/-- `announced` are the peers that a callback has been told to be connected and that the transport
has not begun to remove. -/
structure Connections (τ α : Type) where
  registry : Registry
  transport : τ
  pending : List HandlerAction := []
  entering : Option (Nat × α) := none
  senders : List Sending := []
  announced : List Nat := []
  log : List Happening := []

namespace Connections

variable {τ ε α : Type} (s : Connections τ α)

/-- The I/O thread waits for an event. -/
def Idle : Prop := s.pending = [] ∧ s.entering = none

/-- The transceiver has made a context, and its callbacks are to be told. Zero is no valid id, so
that the transport closes that connection again. -/
def announce (r : Registry) (peer : Nat) (address : α) : Connections τ α :=
  { s with
    registry := r
    pending := HandlerAction.stateChanged s.registry.callbacks peer .connected
    entering := if peer = 0 then none else some (peer, address)
    log := s.log ++ [.announced peer] }

def act (a : HandlerAction) (rest : List HandlerAction) : Connections τ α :=
  { s with
    registry := a.perform s.registry
    pending := rest
    announced := a.announced ++ s.announced }

/-- The transport has entered the peer into its map. -/
def enter (confirms : Bool) (t : τ) (peer : Nat) : Connections τ α :=
  { s with
    transport := t
    pending := if confirms then HandlerAction.stateChanged s.registry.callbacks peer .connected else []
    entering := none
    log := s.log ++ [.entered peer] }

/-- The transport has no room for the peer any more. -/
def reject (peer : Nat) : Connections τ α :=
  { s with
    pending := HandlerAction.peerDisconnected s.registry.callbacks peer
    entering := none
    announced := s.announced.filter (· ≠ peer)
    log := s.log ++ [.rejected peer] }

def remove (knows : Nat → Bool) (t : τ) (peers : List Nat) : Connections τ α :=
  { s with
    transport := t
    pending := peers.flatMap (HandlerAction.removed s.registry.callbacks)
    announced := s.announced.filter knows
    log := s.log ++ peers.map .removed }

/-- A sender goes on. -/
def setSender (i : Nat) (sender : Sending) : Connections τ α :=
  { s with senders := s.senders.set i sender }

end Connections

/-- A step of a sender, or of the I/O thread. -/
inductive ConnectionLabel where
  | io
  | start (sender peer : Nat) (told : Bool)
  | encoded (sender : Nat)
  | failed (sender : Nat)
  | sent (sender : Nat)
  | notFound (sender peer : Nat) (told : Bool)

namespace Driver

variable {τ ε α : Type}

inductive Step (D : Driver τ ε α) (transport : Transport) :
    Connections τ α → ConnectionLabel → Connections τ α → Prop where
  | quiet (s : Connections τ α) (e : ε) (t : τ) : s.Idle → D.event e s.transport = .quiet t →
      Step D transport s .io { s with transport := t }
  | refuse (s : Connections τ α) (e : ε) (remoteEndpoint : String) (hasSession : Bool)
      (address : α) (r : Registry) : s.Idle →
      D.event e s.transport = .announce remoteEndpoint hasSession address →
      s.registry.connectPeer transport remoteEndpoint hasSession = (none, r) →
      Step D transport s .io { s with registry := r }
  | announce (s : Connections τ α) (e : ε) (remoteEndpoint : String) (hasSession : Bool)
      (address : α) (peer : Nat) (r : Registry) : s.Idle →
      D.event e s.transport = .announce remoteEndpoint hasSession address →
      s.registry.connectPeer transport remoteEndpoint hasSession = (some peer, r) →
      Step D transport s .io (s.announce r peer address)
  | act (s : Connections τ α) (a : HandlerAction) (rest : List HandlerAction) : s.pending = a :: rest →
      Step D transport s .io (s.act a rest)
  | enter (s : Connections τ α) (peer : Nat) (address : α) (t : τ) : s.pending = [] →
      s.entering = some (peer, address) → D.enter peer address s.transport = some t →
      Step D transport s .io (s.enter D.confirms t peer)
  | reject (s : Connections τ α) (peer : Nat) (address : α) : s.pending = [] →
      s.entering = some (peer, address) → D.enter peer address s.transport = none →
      Step D transport s .io (s.reject peer)
  | remove (s : Connections τ α) (e : ε) (t : τ) (peers : List Nat) : s.Idle →
      D.event e s.transport = .remove t peers →
      Step D transport s .io (s.remove (D.knows t) t peers)
  | start (s : Connections τ α) (i peer : Nat) : s.senders[i]? = some .idle →
      Step D transport s (.start i peer (decide (peer ∈ s.announced)))
        (s.setSender i (.started peer (decide (peer ∈ s.announced))))
  | unregistered (s : Connections τ α) (i peer : Nat) (told : Bool) :
      s.senders[i]? = some (.started peer told) → s.registry.findPeer peer = none →
      Step D transport s (.notFound i peer told) (s.setSender i .idle)
  | encode (s : Connections τ α) (i peer : Nat) (told : Bool) :
      s.senders[i]? = some (.started peer told) → s.registry.findPeer peer ≠ none →
      Step D transport s (.encoded i) (s.setSender i (.encoded peer told))
  -- the transceiver or the socket is closed, or the message is not to be sent
  | fail (s : Connections τ α) (i peer : Nat) (told : Bool) :
      s.senders[i]? = some (.started peer told) ∨ s.senders[i]? = some (.encoded peer told) →
      Step D transport s (.failed i) (s.setSender i .idle)
  | unknown (s : Connections τ α) (i peer : Nat) (told : Bool) :
      s.senders[i]? = some (.encoded peer told) → D.knows s.transport peer = false →
      Step D transport s (.notFound i peer told) (s.setSender i .idle)
  | send (s : Connections τ α) (i peer : Nat) (told : Bool) :
      s.senders[i]? = some (.encoded peer told) → D.knows s.transport peer = true →
      Step D transport s (.sent i) (s.setSender i .idle)

end Driver

/-- The transceiver has been started, and no peer has connected yet. -/
def Connections.start {τ α : Type} (t : τ) (callbacks : List Nat) (calls : List Registry.AddCall)
    (senders : Nat) : Connections τ α :=
  { registry := Registry.started callbacks calls, transport := t,
    senders := List.replicate senders .idle }

end Conduit.Transceiver
