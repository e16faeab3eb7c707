import Conduit.Core.Error
import Conduit.Stream.Scanner
import Conduit.Stream.Search

/-!
# The stream framer

`src/transceiver/stream_framer.cpp`. The framer keeps a buffer and a read position in it, searches
for the sync pattern, asks the session for the length of the frame that starts there and cuts the
frame out once it is complete. The log messages are not modelled.
-/

namespace Conduit.Transceiver

open Conduit.Stream

/-- What the framer uses of a session (`session_traits.hpp:69-72`), for a session whose length
extraction is a function of the header bytes. -/
structure Session where
  syncPattern : List UInt8
  minFrameHeaderSize : Nat
  extractFrameLength : List UInt8 → Nat

/-- `stream_framer.hpp:48-51`. -/
structure StreamFramer where
  buffer : List UInt8 := []
  offset : Nat := 0
  maxBufferSize : Nat := 1048576
deriving DecidableEq

/-- How one turn of the loop ends: with `break`, with `continue` (also after cutting out a
frame), and at which offset. -/
inductive Turn where
  | stop (offset : Nat)
  | again (offset : Nat)
  | frame (frame : List UInt8) (offset : Nat)
deriving DecidableEq

/-- `stream_framer.cpp:39-42`: a header size of zero is taken as one. -/
def Session.minHeader (session : Session) : Nat :=
  if session.minFrameHeaderSize = 0 then 1 else session.minFrameHeaderSize

namespace StreamFramer

variable (session : Session) (f : StreamFramer)

/-- `stream_framer.cpp:44-46,152-154`: the number of bytes from the read position on. -/
def bufferedBytes : Nat := if f.offset ≤ f.buffer.length then f.buffer.length - f.offset else 0

/-- The bytes not consumed yet. -/
def unconsumed : List UInt8 := f.buffer.drop f.offset

/-- `stream_framer.cpp:147-150`. -/
def reset : StreamFramer := { f with buffer := [], offset := 0 }

/-- `stream_framer.cpp:50-67`: the read position after the search for the sync pattern, and
whether the loop goes on. -/
def findSync (sync : List UInt8) (f : StreamFramer) : Bool × Nat :=
  if sync = [] then (true, f.offset)
  else
    match search sync f.unconsumed with
    | none =>
      (false,
        if f.bufferedBytes > sync.length - 1 then f.buffer.length - (sync.length - 1)
        else f.offset)
    | some i => (true, f.offset + i)

/-- The block that `stream_framer.cpp:78-124` repeats for each kind of corrupt length: skip the
sync pattern, or one byte when there is none. -/
def skipCorrupt (sync : List UInt8) (f : StreamFramer) : Turn :=
  if sync ≠ [] then
    if f.bufferedBytes ≥ sync.length then .again (f.offset + sync.length) else .stop f.offset
  else if f.bufferedBytes > 0 then .again (f.offset + 1)
  else .stop f.offset

/-- `stream_framer.cpp:69-134`: the rest of a turn, at the start of a header. -/
def headerTurn : Turn :=
  if f.bufferedBytes < session.minHeader then .stop f.offset
  else
    let header := f.unconsumed.take session.minHeader
    let frameLength := session.extractFrameLength header
    if frameLength > 0 ∧ frameLength < session.minHeader then f.skipCorrupt session.syncPattern
    else if frameLength > f.maxBufferSize then f.skipCorrupt session.syncPattern
    else if frameLength = 0 then f.skipCorrupt session.syncPattern
    else if f.bufferedBytes < frameLength then .stop f.offset
    else .frame (f.unconsumed.take frameLength) (f.offset + frameLength)

/-- `stream_framer.cpp:49-135`: one turn of the loop. -/
def turn : Turn :=
  match f.findSync session.syncPattern with
  | (false, offset) => .stop offset
  | (true, offset) => headerTurn session { f with offset }

/-- The loop; every turn that goes on consumes a byte, so one turn more than there are bytes is
enough. -/
def loop (session : Session) : Nat → StreamFramer → List (List UInt8) × Nat
  | 0, f => ([], f.offset)
  | fuel + 1, f =>
    match f.turn session with
    | .stop offset => ([], offset)
    | .again offset => loop session fuel { f with offset }
    | .frame frame offset =>
      let (frames, final) := loop session fuel { f with offset }
      (frame :: frames, final)

/-- `stream_framer.cpp:20-23,139-141`: the consumed bytes removed from the buffer. -/
def compact : StreamFramer := { f with buffer := f.buffer.drop f.offset, offset := 0 }

/-- `stream_framer.cpp:18-30`: room for the new bytes, or `none` when they do not fit. -/
def makeRoom (size : Nat) (f : StreamFramer) : Option StreamFramer :=
  if f.buffer.length + size > f.maxBufferSize then
    let f := if f.offset > 0 then f.compact else f
    if f.buffer.length + size > f.maxBufferSize then none else some f
  else some f

/-- `stream_framer.cpp:34-144`: the frames in the buffer, and the buffer compacted when that is
worth it. -/
def extractFrames : List (List UInt8) × StreamFramer :=
  let (frames, offset) := f.loop session (f.buffer.length + 1)
  let f := { f with offset }
  if f.offset > 0 ∧ (f.offset > f.buffer.length / 2 ∨ frames ≠ []) then (frames, f.compact)
  else (frames, f)

/-- `stream_framer.cpp:16-145`. -/
def pushData (data : List UInt8) (f : StreamFramer) :
    Except Error (List (List UInt8)) × StreamFramer :=
  match f.makeRoom data.length with
  | none => (.error ⟨.bufferOverrun, "StreamFramer buffer exceeds max size"⟩, f.reset)
  | some f =>
    let (frames, f) := extractFrames session { f with buffer := f.buffer ++ data }
    (.ok frames, f)

end StreamFramer

end Conduit.Transceiver
