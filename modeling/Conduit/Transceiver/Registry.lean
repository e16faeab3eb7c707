import Conduit.Core.Error
import Mathlib.Algebra.Ring.Nat
import Mathlib.Data.List.AList

/-!
# The peer registry

`Transceiver::add_peer` and the handlers for connections (`transceiver.cpp:191-305`, `833-980`,
`1054-1092`) on the containers they keep: the contexts of the peers, the map from ids to contexts,
the multi-peer entries and the map from names to ids. Each function changes them under
`peers_mutex_`, so that it is one step. The sessions are left out apart from whether there is one,
the handlers of a removed peer and the log altogether.

A context is an object on the heap. `peer_map_` has its address; `peers_` owns it. What the state
callbacks have been told is recorded in order.
-/

namespace Conduit.Transceiver

/-- `connection_state.hpp:10-16`. -/
inductive ConnectionState where
  | disconnected | connecting | connected | reconnecting | failed
deriving DecidableEq

/-- What the registry uses of a transport. Equality is that of the pointers. -/
structure Transport where
  object : Nat
  multiPeer : Bool
  streamOriented : Bool
deriving DecidableEq

/-- `transceiver.hpp:229-238`. -/
structure Registry.PeerContext where
  object : Nat
  id : Nat
  name : String
  remoteEndpoint : String := ""
  framed : Bool
  transport : Transport
  state : ConnectionState := .disconnected

/-- `transceiver.hpp:241-247`. The counter is the number before it is cut to 32 bits. -/
structure MultiPeerEntry where
  baseId : Nat
  name : String
  transport : Transport
  nextChild : Nat := 1
deriving DecidableEq

/-- `std::format("{}/{}", entry->name, entry->next_child)`. -/
def MultiPeerEntry.childName (entry : MultiPeerEntry) : String :=
  entry.name ++ "/" ++ toString (entry.nextChild % 2 ^ 32)

/-- A call of a state callback. -/
structure Notice where
  callback : Nat
  peer : Nat
  state : ConnectionState

/-- `idCounter` is `next_peer_id_` before it is cut to 32 bits, `nextObject` the address of the next
context. -/
structure Registry where
  running : Bool := false
  idCounter : Nat := 1
  nextObject : Nat := 0
  peers : List Registry.PeerContext := []
  peerMap : AList (fun _ : Nat => Nat) := ∅
  entries : List MultiPeerEntry := []
  names : AList (fun _ : String => Nat) := ∅
  transports : List Transport := []
  callbacks : List Nat := []
  told : List Notice := []

namespace Registry

/-! ## Ids and lookups -/

variable (s : Registry) (transport : Transport) (remoteEndpoint name : String) (id : Nat)

/-- `transceiver.cpp:1076-1079`. -/
def findPeer : Option Nat := s.peerMap.lookup id

/-- The loop of `next_peer_id` (`transceiver.cpp:1054-1074`), with the attempts that are left. -/
def takeId : Nat → Registry → Nat × Registry
  | 0, s => (s.idCounter % 2 ^ 32, { s with idCounter := s.idCounter + 1 })
  | attempts + 1, s =>
    let id := s.idCounter % 2 ^ 32
    let s := { s with idCounter := s.idCounter + 1 }
    if id = 0 then takeId attempts s
    else if (s.findPeer id).isNone then (id, s)
    else takeId attempts s

def nextPeerId : Nat × Registry := takeId 256 s

/-- `transceiver.cpp:1086-1092`. -/
def findMultiPeerEntry : Option MultiPeerEntry := s.entries.find? (·.transport = transport)

/-- `transceiver.cpp:296-305`. -/
def peer (s : Registry) (name : String) : Except Error Nat :=
  match s.names.lookup name with
  | some id => .ok id
  | none => .error ⟨.peerNotFound, s!"No peer named '{name}'"⟩

/-! ## Changes -/

/-- A write to a context. -/
def updateObject (object : Nat) (f : PeerContext → PeerContext) : Registry :=
  { s with peers := s.peers.map fun c => if c.object = object then f c else c }

/-- A write through the pointer that `find_peer` gives. -/
def updatePeer (peer : Nat) (f : PeerContext → PeerContext) : Registry :=
  match s.findPeer peer with
  | none => s
  | some object => s.updateObject object f

/-- A new context in all three containers. -/
def insertPeer (name remoteEndpoint : String) (transport : Transport) (state : ConnectionState) :
    Registry :=
  { s with
    nextObject := s.nextObject + 1
    peers := s.peers ++ [{ object := s.nextObject, id, name, remoteEndpoint,
                           framed := transport.streamOriented, transport, state }]
    peerMap := s.peerMap.insert id s.nextObject
    names := s.names.insert name id }

/-- A new entry with its name. -/
def insertEntry (name : String) (transport : Transport) : Registry :=
  { s with
    entries := s.entries ++ [{ baseId := id, name, transport }]
    names := s.names.insert name id }

/-- The first name in the map that has an id. -/
def nameOf (peer : Nat) : Option String := (s.names.entries.find? (·.2 = peer)).map (·.1)

/-- `transceiver.cpp:908-916`. -/
def removePeer (peer : Nat) : Registry :=
  { s with
    peers := s.peers.eraseP (·.id = peer)
    peerMap := s.peerMap.erase peer
    names :=
      match s.nameOf peer with
      | some name => s.names.erase name
      | none => s.names }

/-- The transports whose life cycle is that of the transceiver. -/
def track : Registry :=
  if transport ∈ s.transports then s else { s with transports := s.transports ++ [transport] }

/-- `next_child++` of the first entry for a transport. -/
def countChild (transport : Transport) : List MultiPeerEntry → List MultiPeerEntry
  | [] => []
  | e :: es =>
    if e.transport = transport then { e with nextChild := e.nextChild + 1 } :: es
    else e :: countChild transport es

/-- The state callbacks are called one after the other. -/
def notify (peer : Nat) (state : ConnectionState) : Registry :=
  { s with told := s.told ++ s.callbacks.map fun callback => { callback, peer, state } }

/-! ## Static peers -/

/-- The name is taken. -/
def duplicateName : Error := ⟨.invalidArgument, s!"Duplicate peer name '{name}'"⟩

/-- `transceiver.cpp:191-236`. An id is lost if the name is taken. -/
def addPeer (hasSession : Bool) (transport : Option Transport) (s : Registry) :
    Except Error Nat × Registry :=
  if s.running then
    (.error ⟨.alreadyRunning, "Cannot add peers while transceiver is running"⟩, s)
  else if !hasSession then (.error ⟨.invalidArgument, "Session must not be null"⟩, s)
  else
    match transport with
    | none => (.error ⟨.invalidArgument, "Transport must not be null"⟩, s)
    | some transport =>
      if transport.multiPeer then
        (.error ⟨.invalidArgument, s!"Single-session add_peer rejects multi-peer transport for peer '{name}'; use the SessionFactory overload"⟩, s)
      else
        let (id, s) := s.nextPeerId
        if (s.names.lookup name).isSome then (.error (duplicateName name), s)
        else (.ok id, (s.insertPeer id name "" transport .disconnected).track transport)

/-- `transceiver.cpp:238-276`. -/
def addFactory (hasFactory : Bool) (transport : Option Transport) (s : Registry) :
    Except Error Nat × Registry :=
  if s.running then
    (.error ⟨.alreadyRunning, "Cannot add peers while transceiver is running"⟩, s)
  else if !hasFactory then (.error ⟨.invalidArgument, "Session factory must not be null"⟩, s)
  else
    match transport with
    | none => (.error ⟨.invalidArgument, "Transport must not be null"⟩, s)
    | some transport =>
      if !transport.multiPeer then
        (.error ⟨.invalidArgument, "Session factory overload requires a multi-peer transport"⟩, s)
      else
        let (id, s) := s.nextPeerId
        if (s.names.lookup name).isSome then (.error (duplicateName name), s)
        else
          (.ok id, (s.insertEntry id name transport).track transport)

/-! ## Connections -/

/-- `transceiver.cpp:944-963`: the part under the lock. -/
def setState (peer : Nat) (state : ConnectionState) (s : Registry) : Registry :=
  s.updatePeer peer fun c => { c with state }

/-- `transceiver.cpp:944-980`. -/
def handleStateChanged (peer : Nat) (state : ConnectionState) (s : Registry) : Registry :=
  (s.setState peer state).notify peer state

/-- A transport with one peer: the address of the other side is noted. -/
def reconnect (s : Registry) : Nat × Registry :=
  match s.peers.find? (·.transport = transport) with
  | none => (0, s)
  | some c => (c.id, s.updateObject c.object fun c => { c with remoteEndpoint })

/-- `transceiver.cpp:847-885`: a new peer of a multi-peer transport. Whether the factory gives a
session is a parameter. -/
def connectPeer (hasSession : Bool) (s : Registry) : Option Nat × Registry :=
  match s.findMultiPeerEntry transport with
  | none => (none, s)
  | some entry =>
    let (id, s) := s.nextPeerId
    if !hasSession then (none, s)
    else
      let s := { s with entries := countChild transport s.entries }
      (some id, s.insertPeer id entry.childName remoteEndpoint transport .connected)

/-- `transceiver.cpp:833-889`. The result is the new id, or zero. -/
def handlePeerConnected (hasSession : Bool) (s : Registry) : Nat × Registry :=
  if !transport.multiPeer then s.reconnect transport remoteEndpoint
  else
    match s.connectPeer transport remoteEndpoint hasSession with
    | (none, s) => (0, s)
    | (some id, s) => (id, s.handleStateChanged id .connected)

/-- `transceiver.cpp:892-919`: the part under the lock. -/
def dropPeer (peer : Nat) (s : Registry) : Registry :=
  let s := s.setState peer .disconnected
  match s.peers.find? (·.id = peer) with
  | none => s
  | some c => if (s.findMultiPeerEntry c.transport).isSome then s.removePeer peer else s

/-- `transceiver.cpp:891-942`. -/
def handlePeerDisconnected (peer : Nat) (s : Registry) : Registry :=
  (s.dropPeer peer).notify peer .disconnected

/-! ## Runs -/

/-- A call of one of the two `add_peer` functions. -/
inductive AddCall where
  | session (name : String) (hasSession : Bool) (transport : Option Transport)
  | factory (name : String) (hasFactory : Bool) (transport : Option Transport)

def add : AddCall → Registry
  | .session name hasSession transport => (s.addPeer name hasSession transport).2
  | .factory name hasFactory transport => (s.addFactory name hasFactory transport).2

/-- A call of a transport. -/
inductive PeerEvent where
  | connected (transport : Transport) (remoteEndpoint : String) (hasSession : Bool)
  | disconnected (peer : Nat)

def handle : PeerEvent → Registry
  | .connected transport remoteEndpoint hasSession =>
    (s.handlePeerConnected transport remoteEndpoint hasSession).2
  | .disconnected peer => s.handlePeerDisconnected peer

/-- The peers are added, then the transceiver runs. -/
def started (callbacks : List Nat) (calls : List AddCall) : Registry :=
  { calls.foldl add { callbacks } with running := true }

end Registry

end Conduit.Transceiver
