import Conduit.Core.Error
import Conduit.Sync.Trace

/-!
# Sending

`Transceiver::send_impl` (`transceiver.cpp:540-602`) for the threads that send to one peer, with the
emitted `encode_wrap` (`cpp_session.cpp:144-246`). A send has two critical sections: the session
encodes under `ctx_mutex`, and behind it the transport takes the frame under its own lock. The
configured fields, the time stamps, the record of the automatic fields for the log and the log
itself are left out.
-/

namespace Conduit.Transceiver

open Sync

/-- `session_analyzer.hpp`: the widths of the `auto="increment"` fields of a message type. -/
structure LeafTypeInfo where
  typeId : UInt64
  autoFieldBits : List Nat

/-- `name_utils.hpp:107-113`. -/
def storageBits (bits : Nat) : Nat :=
  if bits ≤ 8 then 8 else if bits ≤ 16 then 16 else if bits ≤ 32 then 32 else 64

/-- The width of `sequence_counter_` (`cpp_session.cpp:587-593`). -/
def counterBits (leafTypes : List LeafTypeInfo) : Nat :=
  storageBits ((leafTypes.flatMap LeafTypeInfo.autoFieldBits).foldl max 8)

/-- `cpp_session.cpp:192`. -/
def fieldMask (bits : Nat) : Nat := if bits ≥ 64 then 2 ^ 64 - 1 else 2 ^ bits - 1

/-- The values of the increment fields and the counter behind them (`cpp_session.cpp:190-199`). -/
def stamp (width : Nat) : List Nat → Nat → List Nat × Nat
  | [], counter => ([], counter)
  | bits :: fields, counter =>
    let value := (counter &&& fieldMask bits) % 2 ^ storageBits bits
    let (values, counter) := stamp width fields ((counter + 1) % 2 ^ width)
    (value :: values, counter)

/-- What sending uses of a session: a payload is cast or decoded first, and a frame with the values
of its increment fields is encoded last. -/
structure SendSession (Q M : Type) where
  leafTypes : List LeafTypeInfo
  receiveOnly : UInt64 → Bool
  cast : UInt64 → Q → Except Error M
  encodeBytes : UInt64 → M → List Nat → Except Error (List UInt8)

/-- A frame, with the values of its increment fields. -/
structure OutboundFrame where
  stamps : List Nat
  bytes : List UInt8
deriving DecidableEq

variable {Q M : Type}

namespace SendSession

/-- A frame that cannot be encoded has moved the counter all the same. -/
def encodeWrap (session : SendSession Q M) (typeId : UInt64) (payload : Q) (counter : Nat) :
    Except Error OutboundFrame × Nat :=
  match session.leafTypes.find? (·.typeId = typeId) with
  | none => (.error ⟨.unknownTypeId, "unknown type_id: " ++ toString typeId⟩, counter)
  | some leaf =>
    match session.cast typeId payload with
    | .error e => (.error e, counter)
    | .ok message =>
      let (stamps, counter) := stamp (counterBits session.leafTypes) leaf.autoFieldBits counter
      match session.encodeBytes typeId message stamps with
      | .error e => (.error e, counter)
      | .ok bytes => (.ok ⟨stamps, bytes⟩, counter)

/-- Every message type has one increment field, and it has `bits` bits. -/
def Stamps (session : SendSession Q M) (bits : Nat) : Prop :=
  ∀ leaf ∈ session.leafTypes, leaf.autoFieldBits = [bits]

end SendSession

/-- A thread outside of `send_impl`, or between its two critical sections. -/
inductive SendThread where
  | idle
  | encoded (frame : OutboundFrame)
deriving DecidableEq

structure Sender where
  counter : Nat
  threads : List SendThread

inductive SendLabel (Q : Type) where
  | encode (thread : Nat) (typeId : UInt64) (payload : Q)
  | refuse (thread : Nat)
  | send (thread : Nat) (frame : OutboundFrame)
  | lose (thread : Nat)
  | reset

namespace Sender

/-- The steps of the senders. `refuse` is a send that ends in its first critical section, `lose` one
whose transport fails; `reset` is the reset on a new connection (`transceiver.cpp:953-955`). -/
inductive Step (session : SendSession Q M) : Sender → SendLabel Q → Sender → Prop where
  | encode (s : Sender) (i : Nat) (typeId : UInt64) (payload : Q) (frame : OutboundFrame)
      (counter : Nat) : s.threads[i]? = some .idle → session.receiveOnly typeId = false →
      session.encodeWrap typeId payload s.counter = (.ok frame, counter) →
      Step session s (.encode i typeId payload) ⟨counter, s.threads.set i (.encoded frame)⟩
  | receiveOnly (s : Sender) (i : Nat) (typeId : UInt64) : s.threads[i]? = some .idle →
      session.receiveOnly typeId = true → Step session s (.refuse i) s
  | encodeFails (s : Sender) (i : Nat) (typeId : UInt64) (payload : Q) (e : Error)
      (counter : Nat) : s.threads[i]? = some .idle → session.receiveOnly typeId = false →
      session.encodeWrap typeId payload s.counter = (.error e, counter) →
      Step session s (.refuse i) { s with counter }
  | send (s : Sender) (i : Nat) (frame : OutboundFrame) : s.threads[i]? = some (.encoded frame) →
      Step session s (.send i frame) { s with threads := s.threads.set i .idle }
  | lose (s : Sender) (i : Nat) (frame : OutboundFrame) : s.threads[i]? = some (.encoded frame) →
      Step session s (.lose i) { s with threads := s.threads.set i .idle }
  | reset (s : Sender) : Step session s .reset { s with counter := 0 }

def start (threads : Nat) : Sender := ⟨0, List.replicate threads .idle⟩

end Sender

end Conduit.Transceiver
