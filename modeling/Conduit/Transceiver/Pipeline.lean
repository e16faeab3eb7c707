import Conduit.Queue.Fifo
import Conduit.Sync.Trace
import Conduit.Transceiver.StreamFramer

/-!
# The receive pipeline

`Transceiver::handle_data_received` and `Transceiver::worker_loop` (`transceiver.cpp:671-831`,
`986-1048`). A callback of an I/O thread frames and decodes the data of a peer and then pushes the
messages into the dispatch queue one by one; the workers pop messages and dispatch them. A push
that has to wait does not change the queue, so it is a step that is not possible yet. The handler
decides how a dispatch ends. Logging, error events, the handler time-out and the back-pressure,
which only pauses and resumes transports, are left out. The counters are numbers without a bound.
-/

namespace Conduit.Transceiver

open Queue Sync

/-- `session_traits.hpp:25-30`, without the name for the log. -/
structure DecodedMessage (P : Type) where
  typeId : UInt64
  payload : P
  raw : List UInt8
deriving DecidableEq, Inhabited

/-- `peer.hpp:69-72`. -/
structure InboundMessage (ι P : Type) where
  peer : ι
  decoded : DecodedMessage P
deriving DecidableEq, Inhabited

/-- What the pipeline uses of a peer. A peer of a datagram transport has no framer. -/
structure PeerContext (S : Type) where
  session : Session
  state : S
  framer : Option StreamFramer

/-- `transceiver_stats.hpp:20-27`, as far as the pipeline counts. -/
structure TransceiverStats where
  messagesReceived : UInt64 := 0
  messagesDispatched : UInt64 := 0
  messagesDropped : UInt64 := 0
  decodeErrors : UInt64 := 0
  handlerErrors : UInt64 := 0
  bytesReceived : UInt64 := 0

/-- `handler.hpp:20-24`. -/
inductive DispatchResult where
  | handled | notFound | error
deriving DecidableEq

/-- What the pipeline uses of `ISession` (`session_traits.hpp`): decoding may change the session. -/
structure ISession (S P : Type) where
  decodeFrame : S → List UInt8 → Except Error (List (DecodedMessage P)) × S
  reset : S → S

/-- An I/O thread: what its callback has still to push, nothing outside of a callback; or with a
refused message that is not counted yet. -/
inductive IoThread (ι P : Type) where
  | pushing (pending : List (InboundMessage ι P))
  | refused (rest : List (InboundMessage ι P))

/-- A worker: in `pop`, with a message, or behind its loop. -/
inductive Worker (ι P : Type) where
  | waiting
  | handling (message : InboundMessage ι P)
  | finished

/-! ## Decoding -/

section Decode

variable {S P : Type} (session : ISession S P)

/-- The loop over the frames: the messages, the number of frames that do not decode, and the
session afterwards. -/
def decodeFrames : S → List (List UInt8) → List (DecodedMessage P) × Nat × S
  | s, [] => ([], 0, s)
  | s, frame :: frames =>
    match session.decodeFrame s frame with
    | (.error _, s) =>
      let (messages, errors, s) := decodeFrames s frames
      (messages, errors + 1, s)
    | (.ok decoded, s) =>
      let (messages, errors, s) := decodeFrames s frames
      (decoded ++ messages, errors, s)

/-- `transceiver.cpp:741-792`: a framing error counts as a decode error and resets the framer; a
datagram is one frame. -/
def PeerContext.receive (data : List UInt8) (ctx : PeerContext S) :
    List (DecodedMessage P) × Nat × PeerContext S :=
  match ctx.framer with
  | some framer =>
    match framer.pushData ctx.session data with
    | (.error _, framer) => ([], 1, { ctx with framer := some framer.reset })
    | (.ok frames, framer) =>
      let (messages, errors, state) := decodeFrames session ctx.state frames
      (messages, errors, { ctx with state, framer := some framer })
  | none =>
    let (messages, errors, state) := decodeFrames session ctx.state [data]
    (messages, errors, { ctx with state })

/-- `transceiver.cpp:953-959`. -/
def PeerContext.reset (ctx : PeerContext S) : PeerContext S :=
  { ctx with state := session.reset ctx.state, framer := ctx.framer.map StreamFramer.reset }

end Decode

/-! ## Steps -/

structure Pipeline (ι S P : Type) where
  peers : ι → Option (PeerContext S)
  io : List (IoThread ι P)
  queue : BoundedQueue (InboundMessage ι P)
  workers : List (Worker ι P)
  stats : TransceiverStats

/-- What a step does. A callback carries the errors that it counts, a push the queue that it
finds. -/
inductive Label (ι P : Type) where
  | receive (thread : Nat) (peer : ι) (data : List UInt8) (errors : Nat)
  | push (thread : Nat) (message : InboundMessage ι P)
      (before : BoundedQueue (InboundMessage ι P)) (accepted : Bool)
  | drop (thread : Nat)
  | pop (worker : Nat) (message : InboundMessage ι P)
  | finish (worker : Nat)
  | dispatch (worker : Nat) (message : InboundMessage ι P) (result : DispatchResult)
  | close
  | connect (peer : ι)
  | disconnect (peer : ι)
  | reset (peer : ι)

namespace TransceiverStats

def received (bytes messages errors : Nat) (stats : TransceiverStats) : TransceiverStats :=
  { stats with
    bytesReceived := stats.bytesReceived + UInt64.ofNat bytes
    messagesReceived := stats.messagesReceived + UInt64.ofNat messages
    decodeErrors := stats.decodeErrors + UInt64.ofNat errors }

/-- `transceiver.cpp:812`. -/
def dropped (stats : TransceiverStats) : TransceiverStats :=
  { stats with messagesDropped := stats.messagesDropped + 1 }

/-- `transceiver.cpp:1014-1027`. -/
def dispatched (result : DispatchResult) (stats : TransceiverStats) : TransceiverStats :=
  match result with
  | .handled => { stats with messagesDispatched := stats.messagesDispatched + 1 }
  | .error => { stats with handlerErrors := stats.handlerErrors + 1 }
  | .notFound => stats

end TransceiverStats

namespace Pipeline

variable {ι S P : Type} [DecidableEq ι] [Inhabited ι] [Inhabited P] (session : ISession S P)

/-- The steps of the threads. `close` is the call in `Transceiver::stop`; the last three are
`handle_peer_connected`, `handle_peer_disconnected` for a dynamic peer and
`handle_state_changed`. -/
inductive Step : Pipeline ι S P → Label ι P → Pipeline ι S P → Prop where
  | receive (p : Pipeline ι S P) (i : Nat) (peer : ι) (data : List UInt8) (old ctx : PeerContext S)
      (messages : List (DecodedMessage P)) (errors : Nat) :
      p.io[i]? = some (.pushing []) → p.peers peer = some old →
      old.receive session data = (messages, errors, ctx) →
      Step p (.receive i peer data errors) { p with
        peers := Function.update p.peers peer (some ctx)
        io := p.io.set i (.pushing (messages.map (InboundMessage.mk peer)))
        stats := p.stats.received data.length messages.length errors }
  | receiveUnknown (p : Pipeline ι S P) (i : Nat) (peer : ι) (data : List UInt8) :
      p.io[i]? = some (.pushing []) → p.peers peer = none →
      Step p (.receive i peer data 0) { p with stats := p.stats.received data.length 0 0 }
  | push (p : Pipeline ι S P) (i : Nat) (message : InboundMessage ι P)
      (rest : List (InboundMessage ι P)) (accepted : Bool)
      (queue : BoundedQueue (InboundMessage ι P)) :
      p.io[i]? = some (.pushing (message :: rest)) →
      BoundedQueue.monitor.Completes (.push message) p.queue (.pushed accepted) queue →
      Step p (.push i message p.queue accepted) { p with
        io := p.io.set i (if accepted then .pushing rest else .refused rest), queue }
  | drop (p : Pipeline ι S P) (i : Nat) (rest : List (InboundMessage ι P)) :
      p.io[i]? = some (.refused rest) →
      Step p (.drop i) { p with io := p.io.set i (.pushing rest), stats := p.stats.dropped }
  | pop (p : Pipeline ι S P) (j : Nat) (message : InboundMessage ι P)
      (queue : BoundedQueue (InboundMessage ι P)) :
      p.workers[j]? = some .waiting →
      BoundedQueue.monitor.Completes .pop p.queue (.popped (some message)) queue →
      Step p (.pop j message) { p with queue, workers := p.workers.set j (.handling message) }
  | finish (p : Pipeline ι S P) (j : Nat) (queue : BoundedQueue (InboundMessage ι P)) :
      p.workers[j]? = some .waiting →
      BoundedQueue.monitor.Completes .pop p.queue (.popped none) queue →
      Step p (.finish j) { p with queue, workers := p.workers.set j .finished }
  | dispatch (p : Pipeline ι S P) (j : Nat) (message : InboundMessage ι P)
      (result : DispatchResult) :
      p.workers[j]? = some (.handling message) →
      Step p (.dispatch j message result) { p with
        workers := p.workers.set j .waiting, stats := p.stats.dispatched result }
  | close (p : Pipeline ι S P) (queue : BoundedQueue (InboundMessage ι P)) :
      BoundedQueue.monitor.Completes .close p.queue .none queue →
      Step p .close { p with queue }
  | connect (p : Pipeline ι S P) (peer : ι) (ctx : PeerContext S) : p.peers peer = none →
      Step p (.connect peer) { p with peers := Function.update p.peers peer (some ctx) }
  | disconnect (p : Pipeline ι S P) (peer : ι) :
      Step p (.disconnect peer) { p with peers := Function.update p.peers peer none }
  | reset (p : Pipeline ι S P) (peer : ι) (ctx : PeerContext S) : p.peers peer = some ctx →
      Step p (.reset peer) { p with
        peers := Function.update p.peers peer (some (ctx.reset session)) }

/-- `Transceiver::start` (`transceiver.cpp:388-436`) with `threads` I/O threads: no worker at all
counts as one. -/
def start (peers : ι → Option (PeerContext S)) (threads capacity : Nat) (policy : DropPolicy)
    (workers : Nat) : Pipeline ι S P :=
  { peers
    io := List.replicate threads (.pushing [])
    queue := .new capacity policy
    workers := List.replicate (if workers = 0 then 1 else workers) .waiting
    stats := {} }

end Pipeline

end Conduit.Transceiver
