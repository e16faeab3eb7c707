import Conduit.Io.ReaderBits

/-!
# Readers stay inside their buffer

Every call on a well-formed reader keeps the reader well-formed, touches only bytes of the buffer
and does not move backwards (`Safe`), as long as no byte count wraps around when it is added to
the position. From this, by induction over the calls, the same holds in every reachable state.
-/

namespace Conduit.Io

open Bits ReadM

/-- The calls of a reader (`bit_reader.hpp:29-96`); every count is a `size_t`. -/
inductive ReaderCall where
  | readBits (count : UInt64)
  | readSignedBits (count : UInt64)
  | readBcd (bits : UInt64)
  | readBcdSigned (bits : UInt64)
  | readSignMagnitude (bits : UInt64)
  | readU8
  | readU16 (e : Endian)
  | readU32 (e : Endian)
  | readU64 (e : Endian)
  | readF16 (e : Endian)
  | readF32 (e : Endian)
  | readF48 (e : Endian)
  | readF64 (e : Endian)
  | readBytes (count : UInt64)
  | readString (byteLength : UInt64)
  | subReader (byteCount : UInt64)
  | skipBits (count : UInt64)
  | alignToByte
  | alignTo (byteBoundary : UInt64)
  | reset
deriving DecidableEq

namespace BitReader

variable {r : BitReader} {α : Type} {n : Nat} (count bits : Nat) {m : ReadM α}

/-- The invariant of a reader together with what a call did to it. -/
structure StaysInside (r r' : BitReader) : Prop where
  data_eq : r'.data = r.data
  byte_le : r'.bytePos ≤ r'.data.length
  bit_lt : r'.bitPos < 8
  bit_end : r'.bytePos = r'.data.length → r'.bitPos = 0
  forward : r.position ≤ r'.position

/-- A call that never leaves the buffer. -/
def Safe {α : Type} (m : ReadM α) : Prop :=
  ∀ r : BitReader, r.WF → (m r).1 ≠ .error .outOfBounds ∧ StaysInside r (m r).2

theorem StaysInside.wf {r' : BitReader} (h : StaysInside r r') (hr : r.WF) : r'.WF :=
  ⟨h.data_eq ▸ hr.small, h.byte_le, h.bit_lt, h.bit_end⟩

theorem StaysInside.refl (hr : r.WF) : StaysInside r r :=
  ⟨rfl, hr.byte_le, hr.bit_lt, hr.bit_end, le_rfl⟩

theorem StaysInside.trans {r' r'' : BitReader} (h : StaysInside r r') (h' : StaysInside r' r'') :
    StaysInside r r'' :=
  ⟨h'.data_eq.trans h.data_eq, h'.byte_le, h'.bit_lt, h'.bit_end, Nat.le_trans h.forward h'.forward⟩

theorem staysInside_seek {p : Nat} (hr : r.WF) (hle : r.position ≤ p) (hp : p ≤ 8 * r.data.length) :
    StaysInside r (r.seek p) := by
  have h := hr.seek hp
  exact ⟨rfl, h.byte_le, h.bit_lt, h.bit_end, by rwa [position_seek]⟩

theorem staysInside_alignToByte (hr : r.WF) : StaysInside r r.alignToByte := by
  have := hr.position_le
  rw [hr.alignToByte_eq]
  exact staysInside_seek hr (by omega) (by omega)

/-! ## Calls in sequence -/

theorem safe_ret (a : α) : Safe (ret a) := fun _ hr => ⟨by simp [ret], StaysInside.refl hr⟩

theorem safe_fail (code : ErrorCode) (message : String) : Safe (fail code message : ReadM α) :=
  fun _ hr => ⟨by simp [fail], StaysInside.refl hr⟩

theorem safe_liftResult (x : Except Error α) : Safe (liftResult x) := by
  cases x with
  | ok a => exact safe_ret a
  | error e => exact fun _ hr => ⟨by simp [liftResult], StaysInside.refl hr⟩

theorem Safe.bind {β : Type} {f : α → ReadM β} (hm : Safe m) (hf : ∀ a, Safe (f a)) :
    Safe (m >>= f) := by
  intro r hr
  obtain ⟨hfault, hstay⟩ := hm r hr
  rcases hrun : m r with ⟨res, r'⟩
  rw [hrun] at hfault hstay
  cases res with
  | ok a =>
    rw [bind_ok hrun]
    obtain ⟨hfault', hstay'⟩ := hf a r' (hstay.wf hr)
    exact ⟨hfault', hstay.trans hstay'⟩
  | error e =>
    rw [bind_error hrun]
    exact ⟨fun h => hfault (by simpa using h), hstay⟩

/-! ## The calls -/

theorem safe_readBits : Safe (readBits count) := by
  intro r hr
  by_cases h0 : count = 0
  · rw [readBits, if_pos h0]
    exact safe_ret 0 r hr
  by_cases h64 : count > 64
  · rw [readBits, if_neg h0, if_pos h64]
    exact safe_fail _ _ r hr
  by_cases hroom : r.remainingBits < count
  · rw [readBits, if_neg h0, if_neg h64, if_pos hroom]
    exact safe_fail _ _ r hr
  rw [hr.remainingBits_eq] at hroom
  rw [readBits_eq hr (by omega) (by omega)]
  exact ⟨by simp, staysInside_seek hr (by omega) (by omega)⟩

theorem safe_readSignedBits : Safe (readSignedBits count) := by
  unfold readSignedBits
  split
  · exact safe_ret 0
  · exact (safe_readBits count).bind fun _ => safe_ret _

theorem safe_readBcd : Safe (readBcd bits) := by
  unfold readBcd
  split
  · exact safe_ret 0
  split
  · exact safe_fail _ _
  split
  · exact safe_fail _ _
  · exact (safe_readBits bits).bind fun _ => safe_liftResult _

theorem safe_readBcdSigned : Safe (readBcdSigned bits) := by
  unfold readBcdSigned
  split
  · exact safe_fail _ _
  split
  · exact safe_fail _ _
  split
  · exact safe_fail _ _
  · exact (safe_readBits bits).bind fun _ => (safe_liftResult _).bind fun _ => safe_ret _

theorem safe_readSignMagnitude : Safe (readSignMagnitude bits) := by
  unfold readSignMagnitude
  split
  · exact safe_fail _ _
  · exact (safe_readBits bits).bind fun _ => safe_ret _

/-- The byte at which a byte read starts. -/
def nextByte (r : BitReader) : Nat := (r.position + 7) / 8

theorem WF.alignToByte_byte (hr : r.WF) : r.alignToByte = ⟨r.data, r.nextByte, 0⟩ := by
  rw [hr.alignToByte_eq, ← seek_byte, nextByte]

theorem WF.nextByte_le (hr : r.WF) : r.nextByte ≤ r.data.length := by
  have := hr.position_le
  unfold nextByte
  omega

theorem staysInside_to {q : Nat} (hr : r.WF) (hle : r.nextByte ≤ q) (hq : q ≤ r.data.length) :
    StaysInside r ⟨r.data, q, 0⟩ := by
  rw [← seek_byte]
  refine staysInside_seek hr ?_ (by omega)
  unfold nextByte at hle
  omega

/-- A call that moves by `n` whole bytes: it succeeds when they are there, and otherwise only
aligns the reader and reports an error. -/
def Consumes {α : Type} (m : ReadM α) (n : Nat) (r : BitReader) : Prop :=
  if r.nextByte + n ≤ r.data.length then ∃ a, m r = (.ok a, ⟨r.data, r.nextByte + n, 0⟩)
  else ∃ e, m r = (.error (.error e), ⟨r.data, r.nextByte, 0⟩)

theorem consumes_readU8 (hr : r.WF) : Consumes readU8 1 r := by
  have hsmall := hr.small
  unfold Consumes
  simp only [readU8, hr.alignToByte_byte]
  split
  next hroom =>
    rw [if_neg (by omega), List.getElem?_eq_getElem (by omega)]
    exact ⟨_, by rw [sizeT, Nat.mod_eq_of_lt (by omega)]⟩
  next hroom =>
    rw [if_pos (by omega)]
    exact ⟨_, rfl⟩

theorem consumes_readFixed (hr : r.WF) (name : String) (hn : n ≤ 8) (e : Endian) :
    Consumes (readFixed name n e) n r := by
  have hsmall := hr.small
  have hle := hr.nextByte_le
  have hsize : sizeT (r.nextByte + n) = r.nextByte + n := Nat.mod_eq_of_lt (by omega)
  unfold Consumes
  simp only [readFixed, hr.alignToByte_byte, hsize]
  split
  next hroom =>
    rw [if_neg (by omega)]
    exact ⟨_, rfl⟩
  next hroom =>
    rw [if_pos (by omega)]
    exact ⟨_, rfl⟩

theorem consumes_takeBytes (hr : r.WF) (name : String) {count : Nat}
    (hwrap : r.nextByte + count < 2 ^ 64) : Consumes (takeBytes name count) count r := by
  have hsize : sizeT (r.nextByte + count) = r.nextByte + count := Nat.mod_eq_of_lt hwrap
  unfold Consumes
  simp only [takeBytes, hr.alignToByte_byte, hsize]
  split
  next hroom =>
    have hsmall := hr.small
    rw [if_neg (by omega), if_neg (by unfold dynamicExtent; omega), if_neg (by omega)]
    exact ⟨_, rfl⟩
  next hroom =>
    rw [if_pos (by omega)]
    exact ⟨_, rfl⟩

theorem Consumes.map {β : Type} (f : α → β) (h : Consumes m n r) :
    Consumes (m >>= fun a => pure (f a)) n r := by
  unfold Consumes at h ⊢
  split at h
  next hroom =>
    obtain ⟨a, ha⟩ := h
    rw [if_pos hroom]
    exact ⟨f a, bind_ok ha⟩
  next hroom =>
    obtain ⟨e, he⟩ := h
    rw [if_neg hroom]
    exact ⟨e, bind_error he⟩

theorem Consumes.safe (h : Consumes m n r) (hr : r.WF) :
    (m r).1 ≠ .error .outOfBounds ∧ StaysInside r (m r).2 := by
  unfold Consumes at h
  split at h
  next hroom =>
    obtain ⟨a, ha⟩ := h
    rw [ha]
    exact ⟨by simp, staysInside_to hr (by omega) hroom⟩
  next hroom =>
    obtain ⟨e, he⟩ := h
    rw [he]
    exact ⟨by simp, staysInside_to hr le_rfl hr.nextByte_le⟩

theorem Consumes.ok_iff (h : Consumes m n r) (hr : r.WF) :
    (∃ a, (m r).1 = .ok a) ↔ n ≤ r.data.length - r.nextByte := by
  have hle := hr.nextByte_le
  unfold Consumes at h
  split at h
  next hroom =>
    obtain ⟨a, ha⟩ := h
    rw [ha]
    exact ⟨fun _ => by omega, fun _ => ⟨a, rfl⟩⟩
  next hroom =>
    obtain ⟨e, he⟩ := h
    rw [he]
    refine ⟨?_, fun hn => absurd hn (by omega)⟩
    rintro ⟨a, ha⟩
    cases ha

theorem safe_skipBits : Safe (skipBits count) := by
  intro r hr
  have hle := hr.position_le
  by_cases hroom : count > r.remainingBits
  · rw [skipBits, if_pos hroom]
    exact safe_fail _ _ r hr
  rw [skipBits, if_neg hroom]
  rw [hr.remainingBits_eq] at hroom
  rw [hr.advance_eq (by omega)]
  exact ⟨by simp, staysInside_seek hr (by omega) (by omega)⟩

theorem staysInside_alignTo {k : Nat} (hk64 : k < 2 ^ 64) (hr : r.WF) :
    StaysInside r (r.alignTo k) := by
  have hsmall := hr.small
  have hle := hr.nextByte_le
  unfold alignTo
  split
  next => exact StaysInside.refl hr
  next hk =>
    simp only [hr.alignToByte_byte]
    have hclamp : ∀ q, r.nextByte ≤ q → StaysInside r
        (if q > r.data.length then ⟨r.data, r.data.length, 0⟩ else ⟨r.data, q, 0⟩) := by
      intro q hq
      split
      next => exact staysInside_to hr hle le_rfl
      next hin => exact staysInside_to hr hq (by omega)
    split
    next hpad =>
      have hsize : sizeT (r.nextByte + (k - r.nextByte % k))
          = r.nextByte + (k - r.nextByte % k) := by
        apply Nat.mod_eq_of_lt
        rcases Nat.lt_or_ge r.nextByte k with hlt | hge
        · rw [Nat.mod_eq_of_lt hlt]
          omega
        · omega
      simp only [hsize]
      exact hclamp _ (Nat.le_add_right _ _)
    next => exact hclamp _ le_rfl

end BitReader

/-! ## Reachable states -/

namespace ReaderCall

variable {c : ReaderCall} {r : BitReader}

/-- A call whose result is not looked at. -/
def void {α : Type} (m : ReadM α) : ReadM Unit := m >>= fun _ => pure ()

def run : ReaderCall → ReadM Unit
  | readBits count => void (BitReader.readBits count.toNat)
  | readSignedBits count => void (BitReader.readSignedBits count.toNat)
  | readBcd bits => void (BitReader.readBcd bits.toNat)
  | readBcdSigned bits => void (BitReader.readBcdSigned bits.toNat)
  | readSignMagnitude bits => void (BitReader.readSignMagnitude bits.toNat)
  | readU8 => void BitReader.readU8
  | readU16 e => void (BitReader.readU16 e)
  | readU32 e => void (BitReader.readU32 e)
  | readU64 e => void (BitReader.readU64 e)
  | readF16 e => void (BitReader.readF16 e)
  | readF32 e => void (BitReader.readF32 e)
  | readF48 e => void (BitReader.readF48 e)
  | readF64 e => void (BitReader.readF64 e)
  | readBytes count => void (BitReader.readBytes count.toNat)
  | readString byteLength => void (BitReader.readString byteLength.toNat)
  | subReader byteCount => void (BitReader.subReader byteCount.toNat)
  | skipBits count => BitReader.skipBits count.toNat
  | alignToByte => fun r => (.ok (), r.alignToByte)
  | alignTo byteBoundary => BitReader.alignToM byteBoundary.toNat
  | reset => fun r => (.ok (), r.reset)

/-- The number of whole bytes a byte read asks for. -/
def byteCount : ReaderCall → Option Nat
  | readU8 => some 1
  | readU16 _ => some 2
  | readU32 _ => some 4
  | readU64 _ => some 8
  | readF16 _ => some 2
  | readF32 _ => some 4
  | readF48 _ => some 6
  | readF64 _ => some 8
  | readBytes count => some count.toNat
  | readString byteLength => some byteLength.toNat
  | subReader byteCount => some byteCount.toNat
  | _ => none

/-- Adding the byte count to the aligned position does not wrap around. -/
def NoWrap (c : ReaderCall) (r : BitReader) : Prop := ∀ n ∈ c.byteCount, r.nextByte + n < 2 ^ 64

/-- The requested amount is at most what remains: in bits for the bit reads, which take at most 64
of them, in bytes from the next boundary on for the byte reads. `align_to` asks for nothing, it
stops at the end of the buffer. -/
def Fits (c : ReaderCall) (r : BitReader) : Prop :=
  match c with
  | readBits count => count.toNat ≤ 64 ∧ count.toNat ≤ 8 * r.data.length - r.position
  | skipBits count => count.toNat ≤ 8 * r.data.length - r.position
  | alignTo _ => True
  | c => ∀ n ∈ c.byteCount, n ≤ r.data.length - r.nextByte

/-- The calls whose success is specified. -/
def Listed : ReaderCall → Prop
  | readBits _ | skipBits _ | alignTo _ => True
  | c => c.byteCount.isSome

/-- The states a reader over `data` can be in. -/
inductive Reachable (data : List UInt8) : BitReader → Prop where
  | start : Reachable data { data }
  | call (r : BitReader) (c : ReaderCall) :
      Reachable data r → c.NoWrap r → Reachable data (c.run r).2

theorem consumes_run {n : Nat} (hr : r.WF) (hn : c.byteCount = some n) (hwrap : c.NoWrap r) :
    BitReader.Consumes c.run n r := by
  have hfit := hwrap n (by simp [hn])
  cases c <;> simp only [byteCount, reduceCtorEq, Option.some.injEq] at hn <;> subst hn
  case readU8 => exact (BitReader.consumes_readU8 hr).map fun _ => ()
  case readBytes => exact (BitReader.consumes_takeBytes hr _ hfit).map fun _ => ()
  case readString => exact (BitReader.consumes_takeBytes hr _ hfit).map fun _ => ()
  case subReader =>
    exact ((BitReader.consumes_takeBytes hr _ hfit).map fun s => BitReader.mk s 0 0).map fun _ => ()
  all_goals exact (BitReader.consumes_readFixed hr _ (by omega) _).map fun _ => ()

/-- One call: it touches only bytes of the buffer and keeps the invariant. -/
theorem run_safe (hr : r.WF) (hwrap : c.NoWrap r) (hreset : c ≠ reset) :
    (c.run r).1 ≠ .error .outOfBounds ∧ BitReader.StaysInside r (c.run r).2 := by
  rcases hcount : c.byteCount with _ | n
  · cases c <;> simp only [byteCount, reduceCtorEq] at hcount
    case readBits => exact (BitReader.safe_readBits _).bind (fun _ => BitReader.safe_ret _) r hr
    case readSignedBits =>
      exact (BitReader.safe_readSignedBits _).bind (fun _ => BitReader.safe_ret _) r hr
    case readBcd => exact (BitReader.safe_readBcd _).bind (fun _ => BitReader.safe_ret _) r hr
    case readBcdSigned =>
      exact (BitReader.safe_readBcdSigned _).bind (fun _ => BitReader.safe_ret _) r hr
    case readSignMagnitude =>
      exact (BitReader.safe_readSignMagnitude _).bind (fun _ => BitReader.safe_ret _) r hr
    case skipBits => exact BitReader.safe_skipBits _ r hr
    case alignToByte => exact ⟨by simp [run], BitReader.staysInside_alignToByte hr⟩
    case alignTo k =>
      exact ⟨by simp [run, BitReader.alignToM], BitReader.staysInside_alignTo k.toNat_lt hr⟩
    case reset => exact absurd rfl hreset
  · exact (consumes_run hr hcount hwrap).safe hr

theorem Reachable.wf {data : List UInt8} (hsize : data.length < 2 ^ 61) (h : Reachable data r) :
    r.WF := by
  induction h with
  | start => exact BitReader.wf_start hsize
  | call r c _ hwrap ih =>
    by_cases hreset : c = reset
    · subst hreset
      exact ⟨ih.small, Nat.zero_le _, Nat.zero_lt_succ _, fun _ => rfl⟩
    · exact (run_safe ih hwrap hreset).2.wf ih

theorem void_ok_iff {α : Type} (m : ReadM α) (r : BitReader) :
    (void m r).1 = .ok () ↔ ∃ a, (m r).1 = .ok a := by
  rcases hrun : m r with ⟨_ | a, r'⟩
  · rw [void, bind_error hrun]
    simp
  · rw [void, bind_ok hrun]
    exact ⟨fun _ => ⟨a, rfl⟩, fun _ => rfl⟩

theorem readBits_ok_iff {count : Nat} (hr : r.WF) : (∃ a, (BitReader.readBits count r).1 = .ok a)
      ↔ count ≤ 64 ∧ count ≤ 8 * r.data.length - r.position := by
  have hle := hr.position_le
  constructor
  · rintro ⟨a, ha⟩
    by_cases h0 : count = 0
    · omega
    by_cases h64 : count > 64
    · simp [BitReader.readBits, h0, h64, fail] at ha
    by_cases hroom : r.remainingBits < count
    · simp [BitReader.readBits, h0, h64, hroom, fail] at ha
    rw [hr.remainingBits_eq] at hroom
    omega
  · rintro ⟨h64, hroom⟩
    exact ⟨_, by rw [BitReader.readBits_eq hr h64 (by omega)]⟩

theorem skipBits_ok_iff {count : Nat} (hr : r.WF) :
    (BitReader.skipBits count r).1 = .ok () ↔ count ≤ 8 * r.data.length - r.position := by
  rw [← hr.remainingBits_eq]
  by_cases hroom : count > r.remainingBits
  · simp [BitReader.skipBits, hroom, fail]
  simp [BitReader.skipBits, hroom]
  omega

theorem run_ok_iff (hr : r.WF) (hwrap : c.NoWrap r) (hlisted : c.Listed) :
    (c.run r).1 = .ok () ↔ c.Fits r := by
  rcases hcount : c.byteCount with _ | n
  · cases c <;> simp only [byteCount, reduceCtorEq] at hcount
    case readBits => exact (void_ok_iff _ r).trans (readBits_ok_iff hr)
    case skipBits => exact skipBits_ok_iff hr
    case alignTo => exact ⟨fun _ => trivial, fun _ => rfl⟩
    all_goals simp [Listed, byteCount] at hlisted
  · have hbytes : c.Fits r ↔ n ≤ r.data.length - r.nextByte := by
      cases c <;> simp only [byteCount, reduceCtorEq, Option.some.injEq] at hcount <;>
        subst hcount <;> simp [Fits, byteCount]
    rw [hbytes, ← (consumes_run hr hcount hwrap).ok_iff hr]
    exact ⟨fun h => ⟨(), h⟩, fun ⟨_, h⟩ => h⟩

/-- In every reachable state a call touches only bytes of the buffer, succeeds exactly when the
requested amount is there, and leaves a well-formed reader that has not moved backwards. -/
theorem reachable_call (data : List UInt8) (hsize : data.length < 2 ^ 61) (r : BitReader)
    (hreach : Reachable data r) (c : ReaderCall) (hlisted : c.Listed) (hwrap : c.NoWrap r) :
    (c.run r).1 ≠ .error .outOfBounds ∧ ((c.run r).1 = .ok () ↔ c.Fits r)
      ∧ BitReader.StaysInside r (c.run r).2 := by
  have hr := hreach.wf hsize
  have hreset : c ≠ reset := by
    rintro rfl
    simp [Listed, byteCount] at hlisted
  obtain ⟨hinside, hstay⟩ := run_safe hr hwrap hreset
  exact ⟨hinside, run_ok_iff hr hwrap hlisted, hstay⟩

/-- A byte read from the middle of a byte. -/
theorem reachable_call_readBytes :
    (run (.readBytes 1) (run (.readBits 3) { data := [1, 2] }).2).1 ≠ .error .outOfBounds
      ∧ ((run (.readBytes 1) (run (.readBits 3) { data := [1, 2] }).2).1 = .ok ()
        ↔ Fits (.readBytes 1) (run (.readBits 3) { data := [1, 2] }).2)
      ∧ BitReader.StaysInside (run (.readBits 3) { data := [1, 2] }).2
          (run (.readBytes 1) (run (.readBits 3) { data := [1, 2] }).2).2 :=
  reachable_call [1, 2] (by decide) _
    (.call _ (.readBits 3) .start (by simp [NoWrap, byteCount])) (.readBytes 1) rfl
    (by simp [NoWrap, byteCount]; decide)

/-- More than 64 bits are refused even when they are there; `align_to` succeeds even when the
boundary is past the end; a byte count that wraps around passes the bound check and reaches outside
the buffer, or moves the reader back if it is `dynamicExtent`; and in a buffer of `2 ^ 61` bytes the number of remaining bits wraps to zero. -/
theorem reachable_call_fails : ((run (.readBits 65) { data := List.replicate 16 0 }).1
        = .error (.error ⟨.invalidArgument, "read_bits: requested 65 bits, max is 64"⟩)
      ∧ BitReader.remainingBits { data := List.replicate 16 0 } = 128)
    ∧ run (.alignTo 8) (run .readU8 { data := [1, 2, 3] }).2 = (.ok (), ⟨[1, 2, 3], 3, 0⟩)
    ∧ run (.readBytes 0xFFFFFFFFFFFFFFFF) (run .readU8 { data := [1, 2] }).2
        = (.ok (), ⟨[1, 2], 0, 0⟩)
    ∧ (run (.readBytes 0xFFFFFFFFFFFFFFFE) (run (.readBytes 2) { data := [1, 2] }).2).1
        = .error .outOfBounds
    ∧ (∃ n, n + 1 = 2 ^ 61 ∧ (run (.readBits 1) { data := 0x80 :: List.replicate n 0 }).1
        = .error (.error ⟨.bufferUnderrun, "read_bits: need 1 bits, only 0 remain"⟩)) := by
  refine ⟨by decide, by decide, by decide, by decide, ?_⟩
  obtain ⟨n, hn⟩ : ∃ n, n + 1 = 2 ^ 61 := ⟨2 ^ 61 - 1, by norm_num⟩
  exact ⟨n, hn, congrArg Prod.fst (bind_error (BitReader.readBits_long hn))⟩

end ReaderCall

end Conduit.Io
