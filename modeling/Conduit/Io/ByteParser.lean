import Conduit.Io.ReaderSafety
import Conduit.Io.WriterExtends

/-!
# Whole bytes

The calls of a reader that take whole bytes first go on to the next byte boundary. Over the bytes
that lie ahead of it from there on such a call is a parser: it gives a value and the bytes that are
left, or nothing. `Refines` says which parser a call is. The byte writes of a writer are appended
lists.
-/

namespace Conduit.Io

open Bits BitReader

/-- A parser of bytes. -/
abbrev ByteParser (α : Type) : Type := StateT (List UInt8) Option α

namespace ByteParser

/-- The next byte. -/
def byte : ByteParser UInt8
  | [] => none
  | b :: bs => some (b, bs)

theorem byte_cons (b : UInt8) (bs : List UInt8) : byte (b :: bs) = some (b, bs) := rfl

/-- The next `n` bytes. -/
def bytes (n : Nat) : ByteParser (List UInt8) := fun bs =>
  if n ≤ bs.length then some (bs.take n, bs.drop n) else none

theorem bytes_append (as bs : List UInt8) : bytes as.length (as ++ bs) = some (as, bs) := by
  simp [bytes]

theorem bytes_eq_some {n : Nat} {bs as rest : List UInt8} (h : bytes n bs = some (as, rest)) :
    as.length = n ∧ bs = as ++ rest := by
  unfold bytes at h
  split at h
  next hn =>
    simp only [Option.some.injEq, Prod.mk.injEq] at h
    obtain ⟨rfl, rfl⟩ := h
    exact ⟨by simp [hn], (List.take_append_drop n bs).symm⟩
  next => simp at h

variable {α β : Type} {p : ByteParser α} {q : α → ByteParser β} {bs rest : List UInt8} {a : α}

@[simp] theorem pure_run (a : α) (bs : List UInt8) : (pure a : ByteParser α) bs = some (a, bs) :=
  rfl

@[simp] theorem failure_run (bs : List UInt8) : (failure : ByteParser α) bs = none := rfl

theorem bind_some (h : p bs = some (a, rest)) : (p >>= q) bs = q a rest := by
  show (p bs).bind _ = _
  rw [h]
  rfl

theorem bind_none (h : p bs = none) : (p >>= q) bs = none := by
  show (p bs).bind _ = _
  rw [h]
  rfl

theorem bind_eq_some {b : β} {left : List UInt8} (h : (p >>= q) bs = some (b, left)) :
    ∃ a rest, p bs = some (a, rest) ∧ q a rest = some (b, left) := by
  rcases hp : p bs with _ | ⟨a, rest⟩
  · rw [bind_none hp] at h
    simp at h
  · exact ⟨a, rest, rfl, by rwa [bind_some hp] at h⟩

theorem map_some (f : α → β) (h : p bs = some (a, rest)) : (f <$> p) bs = some (f a, rest) := by
  show (p bs).bind _ = _
  rw [h]
  rfl

theorem map_eq_some {f : α → β} {b : β} {left : List UInt8} (h : (f <$> p) bs = some (b, left)) :
    ∃ a, p bs = some (a, left) ∧ f a = b := by
  rcases hp : p bs with _ | ⟨a, rest⟩
  · rw [show (f <$> p) bs = (p bs).bind _ from rfl, hp] at h
    simp at h
  rw [map_some f hp] at h
  simp only [Option.some.injEq, Prod.mk.injEq] at h
  exact ⟨a, by rw [h.2], h.1⟩

theorem map_none (f : α → β) (h : p bs = none) : (f <$> p) bs = none := by
  show (p bs).bind _ = _
  rw [h]
  rfl

end ByteParser

namespace BitReader

/-! ## The bytes ahead -/

variable {r : BitReader} {rest : List UInt8} {α : Type}

/-- The whole bytes that have not been read. -/
def ahead (r : BitReader) : List UInt8 := r.data.drop r.nextByte

/-- `r'` is `r` with `rest` ahead of it: moved to a byte boundary, or not moved at all. -/
structure MovedTo (r r' : BitReader) (rest : List UInt8) : Prop where
  wf : r'.WF
  data : r'.data = r.data
  ahead : r'.ahead = rest
  aligned : r'.bitPos = 0 ∨ r' = r

theorem MovedTo.refl (hr : r.WF) : MovedTo r r r.ahead := ⟨hr, rfl, rfl, .inr rfl⟩

theorem MovedTo.trans {r₁ r₂ r₃ : BitReader} {bs : List UInt8} (h₁ : MovedTo r₁ r₂ bs)
    (h₂ : MovedTo r₂ r₃ rest) : MovedTo r₁ r₃ rest := by
  refine ⟨h₂.wf, h₂.data.trans h₁.data, h₂.ahead, ?_⟩
  rcases h₂.aligned with h | rfl
  · exact .inl h
  · exact h₁.aligned

theorem length_ahead (r : BitReader) : r.ahead.length = r.data.length - r.nextByte := by
  simp [ahead]

theorem movedTo_drop (hr : r.WF) {n : Nat} (hn : n ≤ r.ahead.length) :
    MovedTo r ⟨r.data, r.nextByte + n, 0⟩ (r.ahead.drop n) := by
  have hle := hr.nextByte_le
  rw [length_ahead] at hn
  refine ⟨⟨hr.small, by simp; omega, by simp, fun _ => rfl⟩, rfl, ?_, .inl rfl⟩
  have hnext : nextByte ⟨r.data, r.nextByte + n, 0⟩ = r.nextByte + n := by
    simp only [nextByte, position]
    omega
  simp only [ahead, hnext, List.drop_drop]

theorem MovedTo.position_eq {r' : BitReader} (h : MovedTo r r' rest) (hne : rest ≠ r.ahead) :
    r'.position = 8 * (r.data.length - rest.length) := by
  have hbit : r'.bitPos = 0 := h.aligned.resolve_right (by rintro rfl; exact hne h.ahead.symm)
  have hlen := r'.length_ahead
  have hle := h.wf.nextByte_le
  have hnext : r'.nextByte = r'.bytePos := by
    simp only [nextByte, position, hbit]
    omega
  rw [h.ahead, h.data, hnext] at hlen
  rw [h.data, hnext] at hle
  simp only [position, hbit]
  omega

theorem MovedTo.position_le {r' : BitReader} (h : MovedTo r r' rest) :
    r'.position ≤ 8 * (r.data.length - rest.length) := by
  have hlen := r'.length_ahead
  have hle := h.wf.nextByte_le
  rw [h.ahead, h.data] at hlen
  rw [h.data] at hle
  unfold nextByte at hlen hle
  omega

theorem MovedTo.rest_of_position {r' : BitReader} {q : Nat} (h : MovedTo r r' rest)
    (hpos : r'.position = 8 * q) : rest = r.data.drop q := by
  have hnext : r'.nextByte = q := by
    rw [nextByte, hpos]
    omega
  rw [← h.ahead, BitReader.ahead, hnext, h.data]

/-! ## Calls as parsers -/

/-- A call behaves as a parser of the bytes ahead. -/
structure Refines {α : Type} (m : ReadM α) (p : ByteParser α) : Prop where
  ok : ∀ {r : BitReader} {a : α} {rest : List UInt8}, r.WF → p r.ahead = some (a, rest) →
    ∃ r', m r = (.ok a, r') ∧ MovedTo r r' rest
  error : ∀ {r : BitReader}, r.WF → p r.ahead = none → ∃ e r', m r = (.error e, r')

theorem refines_readU8 : Refines readU8 (UInt8.toNat <$> ByteParser.byte) where
  ok {r a rest} hr h := by
    rcases hahead : r.ahead with _ | ⟨b, bs⟩
    · rw [hahead, ByteParser.map_none _ rfl] at h
      simp at h
    rw [hahead, ByteParser.map_some _ (ByteParser.byte_cons b bs)] at h
    simp only [Option.some.injEq, Prod.mk.injEq] at h
    obtain ⟨rfl, rfl⟩ := h
    have hmoved := movedTo_drop hr (n := 1) (by rw [hahead]; simp)
    have hbyte : r.data[r.nextByte]? = some b := by
      rw [← List.head?_drop]
      exact congrArg List.head? hahead
    have hlt : r.nextByte < r.data.length := (List.getElem?_eq_some_iff.mp hbyte).1
    have hsmall := hr.small
    have hsize : sizeT (r.nextByte + 1) = r.nextByte + 1 := Nat.mod_eq_of_lt (by omega)
    rw [hahead] at hmoved
    refine ⟨_, ?_, hmoved⟩
    simp only [readU8, hr.alignToByte_byte, hbyte, hsize]
    rw [if_neg (by omega)]
  error {r} hr h := by
    rcases hahead : r.ahead with _ | ⟨b, bs⟩
    · have hlen := r.length_ahead
      rw [hahead, List.length_nil] at hlen
      simp only [readU8, hr.alignToByte_byte]
      rw [if_pos (by omega)]
      exact ⟨_, _, rfl⟩
    · rw [hahead, ByteParser.map_some _ (ByteParser.byte_cons b bs)] at h
      simp at h

theorem refines_takeBytes (name : String) {n : Nat} (hcount : n ≠ dynamicExtent) :
    Refines (takeBytes name n) (ByteParser.bytes n) where
  ok {r a rest} hr h := by
    have hn : n ≤ r.ahead.length := by
      by_contra hn
      simp [ByteParser.bytes, hn] at h
    have hmoved := movedTo_drop hr hn
    have hlen := r.length_ahead
    have hle := hr.nextByte_le
    have hsmall := hr.small
    have hsize : sizeT (r.nextByte + n) = r.nextByte + n := Nat.mod_eq_of_lt (by omega)
    simp only [ByteParser.bytes, if_pos hn, Option.some.injEq, Prod.mk.injEq] at h
    obtain ⟨rfl, rfl⟩ := h
    refine ⟨_, ?_, hmoved⟩
    simp only [takeBytes, hr.alignToByte_byte, hsize]
    rw [if_neg (by omega), if_neg hcount, if_neg (by omega), ahead]
  error {r} hr h := by
    have hn : ¬n ≤ r.ahead.length := fun hn => by simp [ByteParser.bytes, hn] at h
    have hlen := r.length_ahead
    simp only [takeBytes, hr.alignToByte_byte, if_neg hcount]
    split
    · exact ⟨_, _, rfl⟩
    rw [if_pos (by omega)]
    exact ⟨_, _, rfl⟩

theorem refines_readString {n : Nat} (hcount : n ≠ dynamicExtent) :
    Refines (readString n) (ByteParser.bytes n) :=
  refines_takeBytes "read_bytes" hcount

theorem refines_readFixed (name : String) {n : Nat} (hn : n ≤ 8) (e : Endian) :
    Refines (readFixed name n e) ((fun bs => beVal (e.order bs)) <$> ByteParser.bytes n) where
  ok {r a rest} hr h := by
    have hlen := r.length_ahead
    have hle := hr.nextByte_le
    have hsmall := hr.small
    have hroom : n ≤ r.ahead.length := by
      by_contra hroom
      rw [ByteParser.map_none _ (by rw [ByteParser.bytes, if_neg hroom])] at h
      simp at h
    rw [ByteParser.map_some _ (by rw [ByteParser.bytes, if_pos hroom])] at h
    simp only [Option.some.injEq, Prod.mk.injEq] at h
    obtain ⟨rfl, rfl⟩ := h
    have hsize : sizeT (r.nextByte + n) = r.nextByte + n := Nat.mod_eq_of_lt (by omega)
    refine ⟨_, ?_, movedTo_drop hr hroom⟩
    simp only [readFixed, hr.alignToByte_byte, hsize, readWord]
    rw [if_neg (by omega), if_neg (by omega), ahead]
  error {r} hr h := by
    have hroom : ¬n ≤ r.ahead.length := fun hroom => by
      rw [ByteParser.map_some _ (by rw [ByteParser.bytes, if_pos hroom])] at h
      simp at h
    have hlen := r.length_ahead
    have hsmall := hr.small
    have hle := hr.nextByte_le
    have hsize : sizeT (r.nextByte + n) = r.nextByte + n := Nat.mod_eq_of_lt (by omega)
    simp only [readFixed, hr.alignToByte_byte, hsize]
    rw [if_pos (by omega)]
    exact ⟨_, _, rfl⟩

end BitReader

/-! ## Appended bytes -/

namespace BitWriter

variable {w : BitWriter}

section

variable (herr : w.error = none) (bs : List UInt8)

include herr

theorem data_appendBytes : (w.appendBytes bs).data = w.data ++ bs := by
  simp [appendBytes, herr, data_alignToByte]

theorem bitPos_appendBytes : (w.appendBytes bs).bitPos = 8 * (w.sizeBytes + bs.length) := by
  simp only [appendBytes, herr, Option.isSome_none, Bool.false_eq_true, if_false,
    bitPos_alignToByte]
  omega

theorem finish_appendBytes : (w.appendBytes bs).finish.1 = .ok (w.data ++ bs) := by
  simp [finish, error_appendBytes, herr, data_alignToByte, data_appendBytes]

end

theorem appendBytes_append (as bs : List UInt8) (w : BitWriter) :
    (w.appendBytes as).appendBytes bs = w.appendBytes (as ++ bs) := by
  rcases herr : w.error with _ | e
  · have hpos : (w.appendBytes as).bitPos % 8 = 0 := by
      rw [bitPos_appendBytes herr]
      omega
    have halign : (w.appendBytes as).alignToByte = w.appendBytes as := by
      rw [alignToByte, if_pos hpos]
    have herr' : (w.appendBytes as).error = none := by rw [error_appendBytes, herr]
    rw [appendBytes, herr', halign]
    simp only [appendBytes, herr, Option.isSome_none, Bool.false_eq_true, if_false,
      List.append_assoc, List.length_append]
    congr 1
    omega
  · simp [appendBytes, herr]

theorem ahead_appendBytes (hw : w.Sized) (bs rest : List UInt8)
    (hsmall : (w.data ++ bs ++ rest).length < 2 ^ 61) :
    (seek w.bitPos { data := w.data ++ bs ++ rest }).WF
      ∧ (seek w.bitPos { data := w.data ++ bs ++ rest }).ahead = bs ++ rest := by
  have hsize : (w.bitPos + 7) / 8 = w.data.length := hw.symm
  refine ⟨(wf_start hsmall).seek ?_, ?_⟩
  · simp only [List.length_append]
    omega
  · simp only [ahead, nextByte, position_seek, data_seek, hsize, List.append_assoc, List.drop_left]

end BitWriter

end Conduit.Io
