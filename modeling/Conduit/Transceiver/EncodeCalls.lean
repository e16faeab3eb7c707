import Mathlib.Data.List.Induction
import Mathlib.Data.Nat.ModEq
import Conduit.Transceiver.SendOrder

/-!
# The numbers of the encoded frames

Calls of `encode_wrap`, `encode_batch` and `reset` of a session with one increment field
(`cpp_session.cpp:144-370` and `575-602`). The counter moves before the frame is encoded: a call
that fails there has used up a number, one that fails before has not.
-/

namespace Conduit.Transceiver

open List

variable {Q M : Type}

/-- A session with `encode_batch`; a frame then has a list of messages. -/
structure BatchSession (Q M : Type) extends SendSession Q M where
  payloadIsArray : Bool
  encodeBatchBytes : UInt64 → List M → List Nat → Except Error (List UInt8)

inductive EncodeCall (Q : Type) where
  | wrap (typeId : UInt64) (payload : Q)
  | batch (typeId : UInt64) (payloads : List Q)
  | reset

/-- The calls since the last reset: the counter, how many of them failed to encode their frame, and
the frames with the number of such failures before each of them. -/
structure CallState where
  counter : Nat := 0
  failed : Nat := 0
  produced : List (Nat × OutboundFrame) := []

namespace BatchSession

/-- `cpp_session.cpp:248-367`; without an array the base class refuses
(`session_traits.hpp:81-87`). -/
def encodeBatch (session : BatchSession Q M) (typeId : UInt64) (payloads : List Q) (counter : Nat) :
    Except Error OutboundFrame × Nat :=
  if session.payloadIsArray then
    match session.leafTypes.find? (·.typeId = typeId) with
    | none => (.error ⟨.unknownTypeId, "unknown type_id: " ++ toString typeId⟩, counter)
    | some leaf =>
      match payloads.mapM (session.cast typeId) with
      | .error e => (.error e, counter)
      | .ok messages =>
        let (stamps, counter) := stamp (counterBits session.leafTypes) leaf.autoFieldBits counter
        match session.encodeBatchBytes typeId messages stamps with
        | .error e => (.error e, counter)
        | .ok bytes => (.ok ⟨stamps, bytes⟩, counter)
  else (.error ⟨.batchNotSupported, "This session does not support batch encoding"⟩, counter)

/-- The message type of a call and how its frame is encoded, if the call gets that far. -/
def prepare (session : BatchSession Q M) :
    EncodeCall Q → Option (LeafTypeInfo × (List Nat → Except Error (List UInt8)))
  | .wrap typeId payload =>
    (session.leafTypes.find? (·.typeId = typeId)).bind fun leaf =>
      (session.cast typeId payload).toOption.map fun message =>
        (leaf, session.encodeBytes typeId message)
  | .batch typeId payloads =>
    if session.payloadIsArray then
      (session.leafTypes.find? (·.typeId = typeId)).bind fun leaf =>
        (payloads.mapM (session.cast typeId)).toOption.map fun messages =>
          (leaf, session.encodeBatchBytes typeId messages)
    else none
  | .reset => none

def record (session : BatchSession Q M) (s : CallState) (c : EncodeCall Q) :
    Except Error OutboundFrame × Nat → CallState
  | (.ok frame, counter) => { s with counter, produced := s.produced ++ [(s.failed, frame)] }
  | (.error _, counter) =>
    { s with counter, failed := s.failed + if (session.prepare c).isSome then 1 else 0 }

def call (session : BatchSession Q M) (s : CallState) : EncodeCall Q → CallState
  | .wrap typeId payload =>
    session.record s (.wrap typeId payload) (session.encodeWrap typeId payload s.counter)
  | .batch typeId payloads =>
    session.record s (.batch typeId payloads) (session.encodeBatch typeId payloads s.counter)
  | .reset => {}

variable {session : BatchSession Q M} {bits : Nat} {s : CallState}

/-- The part of `encode_wrap` and `encode_batch` behind the preparation. -/
def finish (session : BatchSession Q M) (s : CallState) (leaf : LeafTypeInfo)
    (encode : List Nat → Except Error (List UInt8)) : CallState :=
  let (stamps, counter) := stamp (counterBits session.leafTypes) leaf.autoFieldBits s.counter
  match encode stamps with
  | .error _ => { s with counter, failed := s.failed + 1 }
  | .ok bytes => { s with counter, produced := s.produced ++ [(s.failed, ⟨stamps, bytes⟩)] }

/-- What a call can do. -/
theorem call_cases (session : BatchSession Q M) (s : CallState) (c : EncodeCall Q) :
    session.call s c = {} ∨ session.call s c = s
      ∨ ∃ leaf ∈ session.leafTypes, ∃ encode, session.prepare c = some (leaf, encode)
        ∧ session.call s c = session.finish s leaf encode := by
  cases c with
  | reset => exact .inl rfl
  | wrap typeId payload =>
    unfold call SendSession.encodeWrap
    rcases hfind : session.leafTypes.find? (·.typeId = typeId) with _ | leaf
    · simp [record, prepare, hfind]
    rcases hcast : session.cast typeId payload with e | message
    · simp [record, prepare, hfind, hcast, Except.toOption]
    have hprepare : session.prepare (.wrap typeId payload)
        = some (leaf, session.encodeBytes typeId message) := by
      simp [prepare, hfind, hcast, Except.toOption]
    refine .inr (.inr ⟨leaf, mem_of_find?_eq_some hfind, _, hprepare, ?_⟩)
    simp only [finish, hfind, hcast]
    rcases session.encodeBytes typeId message _ with e | bytes <;> simp [record, hprepare]
  | batch typeId payloads =>
    unfold call encodeBatch
    by_cases harray : session.payloadIsArray = true
    · rcases hfind : session.leafTypes.find? (·.typeId = typeId) with _ | leaf
      · simp [record, prepare, hfind, harray]
      rcases hcast : payloads.mapM (session.cast typeId) with e | messages
      · simp [record, prepare, hfind, hcast, harray, Except.toOption]
      have hprepare : session.prepare (.batch typeId payloads)
          = some (leaf, session.encodeBatchBytes typeId messages) := by
        simp [prepare, hfind, hcast, harray, Except.toOption]
      refine .inr (.inr ⟨leaf, mem_of_find?_eq_some hfind, _, hprepare, ?_⟩)
      simp only [finish, hfind, hcast, harray, if_true]
      rcases session.encodeBatchBytes typeId messages _ with e | bytes <;> simp [record, hprepare]
    · simp [record, prepare, harray]

/-- Every frame has the number of the frames and the failures before it. -/
structure Counted (session : BatchSession Q M) (bits : Nat) (s : CallState) : Prop where
  counter : s.counter = (s.produced.length + s.failed) % 2 ^ counterBits session.leafTypes
  stamps : ∀ n failed frame, s.produced[n]? = some (failed, frame) →
    frame.stamps = [(n + failed) % 2 ^ bits]

theorem counted_start (session : BatchSession Q M) (bits : Nat) : Counted session bits {} :=
  ⟨(Nat.zero_mod _).symm, nofun⟩

theorem Counted.finish (h : Counted session bits s) (hstamps : session.Stamps bits)
    (hbits : bits ≤ 64) {leaf : LeafTypeInfo} (hleaf : leaf ∈ session.leafTypes)
    (encode : List Nat → Except Error (List UInt8)) :
    Counted session bits (session.finish s leaf encode) := by
  have hwidth := hstamps.le_counterBits hbits hleaf
  unfold BatchSession.finish
  rw [hstamps leaf hleaf, h.counter, stamp_one hbits hwidth]
  dsimp only
  rcases encode _ with e | bytes
  · exact ⟨rfl, h.stamps⟩
  refine ⟨?_, fun n failed frame hn => ?_⟩
  · rw [length_append, length_singleton, Nat.add_right_comm]
  -- the new frame is the last one, and has the number that the counter stood for
  rcases Nat.lt_or_ge n s.produced.length with hlt | hge
  · rw [getElem?_append_left hlt] at hn
    exact h.stamps n failed frame hn
  rw [getElem?_append_right hge, getElem?_singleton] at hn
  split at hn
  · cases hn
    rw [show n = s.produced.length by omega]
  · cases hn

theorem counted_run (hstamps : session.Stamps bits) (hbits : bits ≤ 64)
    (calls : List (EncodeCall Q)) : Counted session bits (calls.foldl session.call {}) := by
  induction calls using reverseRecOn with
  | nil => exact counted_start session bits
  | append_singleton calls c ih =>
    rw [foldl_append, foldl_cons, foldl_nil]
    rcases session.call_cases (calls.foldl session.call {}) c
      with hcall | hcall | ⟨leaf, hleaf, encode, -, hcall⟩
    · rw [hcall]
      exact counted_start session bits
    · rwa [hcall]
    · rw [hcall]
      exact ih.finish hstamps hbits hleaf encode

/-- The frames since the last reset are numbered without a gap if and only if before each of them a
multiple of `2 ^ bits` of the calls since that reset has failed to encode its frame. -/
theorem produced_numbered (hstamps : session.Stamps bits) (hbits : bits ≤ 64)
    (calls : List (EncodeCall Q)) :
    Numbered bits ((calls.foldl session.call {}).produced.map (·.2))
      ↔ ∀ p ∈ (calls.foldl session.call {}).produced, 2 ^ bits ∣ p.1 := by
  have h := (counted_run hstamps hbits calls).stamps
  generalize (calls.foldl session.call {}).produced = produced at h
  constructor
  · intro hnumbered p hp
    obtain ⟨n, hn⟩ := mem_iff_getElem?.mp hp
    have hown := hnumbered n p.2 (by rw [getElem?_map, hn]; rfl)
    rw [h n p.1 p.2 hn] at hown
    exact Nat.add_modEq_left_iff.mp (head_eq_of_cons_eq hown)
  · intro hdvd n frame hn
    rw [getElem?_map, Option.map_eq_some_iff] at hn
    obtain ⟨p, hp, rfl⟩ := hn
    rw [h n p.1 p.2 hp, Nat.add_modEq_left_iff.mpr (hdvd p (mem_of_getElem? hp))]

/-- One message type with an increment field of one byte; a frame with `false` is not encoded. -/
def oneByteBatch : BatchSession Bool Bool where
  leafTypes := [⟨1, [8]⟩]
  receiveOnly _ := false
  cast _ payload := .ok payload
  encodeBytes _ message stamps :=
    if message then .ok (stamps.map UInt8.ofNat) else .error ⟨.constraintViolation, ""⟩
  payloadIsArray := true
  encodeBatchBytes _ _ stamps := .ok (stamps.map UInt8.ofNat)

theorem oneByteBatch_stamps : oneByteBatch.Stamps 8 := by
  intro leaf hleaf
  obtain rfl := mem_singleton.mp hleaf
  rfl

/-- A call that fails before the encoding uses up no number. -/
theorem produced_numbered_two :
    Numbered 8 ((([.wrap 1 true, .wrap 2 true, .batch 1 [true, false]]).foldl
      oneByteBatch.call {}).produced.map (·.2)) := by
  refine (produced_numbered oneByteBatch_stamps (by decide) _).mpr ?_
  decide

/-- A call that fails in the encoding uses up a number: the frames have the numbers 0 and 2. -/
theorem produced_numbered_fails : ¬Numbered 8 ((([.wrap 1 true, .wrap 1 false, .wrap 1 true]).foldl
      oneByteBatch.call {}).produced.map (·.2)) := by
  intro h
  have hsecond := h 1 ⟨[2], [2]⟩ (by decide)
  exact absurd hsecond (by decide)

end BatchSession

end Conduit.Transceiver
