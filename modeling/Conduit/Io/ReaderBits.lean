import Conduit.Io.BitReader

/-!
# What a reader reads

A well-formed reader is a position in the bit list of its buffer. `Reads m p bs a` is the
specification of a call at bit position `p`: on any buffer whose bits from `p` on start with `bs`,
it returns `a` and stops right after `bs`. Specifications compose along `ReadM.andThen`, which is
how sequences of calls are handled.
-/

namespace Conduit.Io

open Bits List

namespace BitReader

variable {r : BitReader} {p n k : Nat} {bs : List Bool} {α : Type} (name : String)

/-- The position in bits. -/
def position (r : BitReader) : Nat := r.bytePos * 8 + r.bitPos

/-- The reader moved to bit `p`. -/
def seek (p : Nat) (r : BitReader) : BitReader := { r with bytePos := p / 8, bitPos := p % 8 }

/-- The invariant of readers over buffers whose size in bits is a `size_t`. -/
structure WF (r : BitReader) : Prop where
  small : r.data.length < 2 ^ 61
  byte_le : r.bytePos ≤ r.data.length
  bit_lt : r.bitPos < 8
  bit_end : r.bytePos = r.data.length → r.bitPos = 0

theorem wf_start {data : List UInt8} (h : data.length < 2 ^ 61) : WF { data } :=
  ⟨h, Nat.zero_le _, by simp, fun _ => rfl⟩

theorem WF.position_le (h : r.WF) : r.position ≤ 8 * r.data.length := by
  have := h.byte_le
  have := h.bit_lt
  have := h.bit_end
  unfold position
  omega

@[simp] theorem data_seek (p : Nat) (r : BitReader) : (r.seek p).data = r.data := rfl

@[simp] theorem position_seek (p : Nat) (r : BitReader) : (r.seek p).position = p := by
  simp only [position, seek]
  omega

@[simp] theorem seek_seek (p q : Nat) (r : BitReader) : (r.seek p).seek q = r.seek q := rfl

theorem seek_position (h : r.bitPos < 8) : r.seek r.position = r := by
  have h1 : (r.bytePos * 8 + r.bitPos) / 8 = r.bytePos := by omega
  have h2 : (r.bytePos * 8 + r.bitPos) % 8 = r.bitPos := by omega
  simp only [seek, position, h1, h2]

theorem WF.seek (h : r.WF) (hp : p ≤ 8 * r.data.length) : (r.seek p).WF := by
  refine ⟨h.small, ?_, ?_, ?_⟩ <;> simp only [BitReader.seek] <;> omega

theorem WF.remainingBits_eq (h : r.WF) : r.remainingBits = 8 * r.data.length - r.position := by
  have := h.small
  have := h.bit_lt
  have := h.byte_le
  have := h.bit_end
  simp only [remainingBits, sizeT, position]
  split <;> omega

theorem WF.remainingBytes_eq (h : r.WF) :
    r.remainingBytes = r.data.length - (r.position + 7) / 8 := by
  have := h.bit_lt
  have := h.byte_le
  have := h.bit_end
  simp only [remainingBytes, position]
  split
  · omega
  · split <;> omega

theorem WF.advance_eq (h : r.WF) (hn : r.position + n ≤ 8 * r.data.length) :
    r.advance n = r.seek (r.position + n) := by
  have := h.small
  have := h.bit_lt
  simp only [position] at hn
  have h1 : (r.bitPos + n) % 2 ^ 64 = r.bitPos + n := Nat.mod_eq_of_lt (by omega)
  have h2 : (r.bytePos + (r.bitPos + n) / 8) % 2 ^ 64 = (r.bytePos * 8 + r.bitPos + n) / 8 := by
    omega
  have h3 : (r.bitPos + n) % 8 = (r.bytePos * 8 + r.bitPos + n) % 8 := by omega
  simp only [advance, sizeT, BitReader.seek, position, h1, h2, h3]

theorem WF.alignToByte_eq (h : r.WF) : r.alignToByte = r.seek (8 * ((r.position + 7) / 8)) := by
  have := h.small
  have := h.bit_lt
  have := h.byte_le
  by_cases hb : r.bitPos > 0
  · have h1 : (r.bytePos + 1) % 2 ^ 64 = 8 * ((r.bytePos * 8 + r.bitPos + 7) / 8) / 8 := by omega
    have h2 : 8 * ((r.bytePos * 8 + r.bitPos + 7) / 8) % 8 = 0 := by omega
    simp only [alignToByte, if_pos hb, BitReader.seek, position, sizeT, h1, h2]
  · have h1 : 8 * ((r.bytePos * 8 + r.bitPos + 7) / 8) / 8 = r.bytePos := by omega
    have h2 : 8 * ((r.bytePos * 8 + r.bitPos + 7) / 8) % 8 = r.bitPos := by omega
    simp only [alignToByte, if_neg hb, BitReader.seek, position, h1, h2]

/-! ## `read_bits` -/

/-- The number of the `n` bits from the reader's position on. -/
def peek (n : Nat) (r : BitReader) : Nat := bitsVal (((bytesBits r.data).drop r.position).take n)

theorem peek_add {a b : Nat} (h : r.position + (a + b) ≤ 8 * r.data.length) :
    r.peek (a + b) = r.peek a * 2 ^ b + (r.seek (r.position + a)).peek b := by
  have hlen : (((bytesBits r.data).drop (r.position + a)).take b).length = b := by
    rw [length_take, length_drop, length_bytesBits]
    omega
  unfold peek
  rw [take_add, bitsVal_append, drop_drop, data_seek, position_seek, hlen]

theorem peek_byte {byte : UInt8} (hbyte : r.data[r.bytePos]? = some byte) (hk : r.bitPos + k ≤ 8) :
    (byte.toNat >>> (8 - r.bitPos - k)) &&& (2 ^ k - 1) = r.peek k := by
  rw [peek, position, Nat.mul_comm, take_drop_bytesBits hbyte hk, bitsVal_msbBits,
    Nat.and_two_pow_sub_one_eq_mod]

theorem shiftLeft_or_peek {a b : Nat} (hb : b < 2 ^ k) : a <<< k ||| b = a * 2 ^ k + b := by
  rw [Nat.shiftLeft_eq, Nat.mul_comm, ← Nat.two_pow_add_eq_or_of_lt hb]

theorem peek_lt (h : r.position + n ≤ 8 * r.data.length) : r.peek n < 2 ^ n := by
  have hlen : (((bytesBits r.data).drop r.position).take n).length = n := by
    rw [length_take, length_drop, length_bytesBits]
    omega
  have := bitsVal_lt (((bytesBits r.data).drop r.position).take n)
  rwa [hlen] at this

theorem sizeT_shiftLeft_or {result remaining b : Nat} (hr : result < 2 ^ (64 - remaining))
    (hk : k ≤ remaining) (hmax : remaining ≤ 64) (hb : b < 2 ^ k) :
    sizeT (result <<< k) ||| b = result * 2 ^ k + b
      ∧ result * 2 ^ k + b < 2 ^ (64 - (remaining - k)) := by
  have hpow : 2 ^ (64 - remaining) * 2 ^ k = 2 ^ (64 - (remaining - k)) := by
    rw [← Nat.pow_add]
    congr 1
    omega
  have hnext : result * 2 ^ k + b < 2 ^ (64 - (remaining - k)) := by
    calc result * 2 ^ k + b < result * 2 ^ k + 2 ^ k := by omega
      _ = (result + 1) * 2 ^ k := by ring
      _ ≤ 2 ^ (64 - remaining) * 2 ^ k := Nat.mul_le_mul_right _ hr
      _ = 2 ^ (64 - (remaining - k)) := hpow
  have hle : 2 ^ (64 - (remaining - k)) ≤ 2 ^ 64 := Nat.pow_le_pow_right (by omega) (by omega)
  refine ⟨?_, hnext⟩
  rw [sizeT, Nat.mod_eq_of_lt, shiftLeft_or_peek hb]
  rw [Nat.shiftLeft_eq]
  omega

theorem readBitsLoop_eq (fuel : Nat) :
    ∀ (remaining result : Nat) (r : BitReader), r.WF → remaining ≤ fuel → remaining ≤ 64 →
      r.position + remaining ≤ 8 * r.data.length → result < 2 ^ (64 - remaining) →
      readBitsLoop fuel remaining result r
        = (.ok (result * 2 ^ remaining + r.peek remaining), r.seek (r.position + remaining)) := by
  induction fuel with
  | zero =>
    intro remaining result r hr hfuel _ _ _
    obtain rfl : remaining = 0 := by omega
    simp [readBitsLoop, ReadM.ret, peek, seek_position hr.bit_lt]
  | succ fuel ih =>
    intro remaining result r hr hfuel hmax hroom hresult
    by_cases h0 : remaining = 0
    · subst h0
      simp [readBitsLoop, peek, seek_position hr.bit_lt]
    have hbit := hr.bit_lt
    have hin : r.bytePos < r.data.length := by
      unfold position at hroom
      omega
    obtain ⟨byte, hbyte⟩ : ∃ byte, r.data[r.bytePos]? = some byte := ⟨_, getElem?_eq_getElem hin⟩
    obtain ⟨k, hk⟩ : ∃ k, k = min remaining (8 - r.bitPos) := ⟨_, rfl⟩
    have hpeek := peek_byte (k := k) hbyte (by omega)
    have hstep := sizeT_shiftLeft_or (b := r.peek k) hresult (by omega : k ≤ remaining) hmax
      (peek_lt (by omega))
    have hrec := ih (remaining - k) (result * 2 ^ k + r.peek k) (r.seek (r.position + k))
      (hr.seek (by omega)) (by omega) (by omega) (by simp; omega) hstep.2
    have hsplit : r.peek remaining
        = r.peek k * 2 ^ (remaining - k) + (r.seek (r.position + k)).peek (remaining - k) := by
      rw [← peek_add (by omega)]
      congr 1
      omega
    have hpow : 2 ^ remaining = 2 ^ k * 2 ^ (remaining - k) := by
      rw [← Nat.pow_add]
      congr 1
      omega
    simp only [readBitsLoop, if_neg h0, hbyte, ← hk, hpeek, hstep.1]
    rw [hr.advance_eq (by omega), hrec, hsplit, hpow, position_seek, seek_seek]
    congr 2
    · ring
    · omega

theorem readBits_eq {count : Nat} (hr : r.WF) (hc : count ≤ 64)
    (hroom : r.position + count ≤ 8 * r.data.length) :
    readBits count r = (.ok (r.peek count), r.seek (r.position + count)) := by
  unfold readBits
  split
  next h0 =>
    subst h0
    simp [peek, seek_position hr.bit_lt]
  next h0 =>
    rw [if_neg (by omega), if_neg (by rw [hr.remainingBits_eq]; omega),
      readBitsLoop_eq count count 0 r hr le_rfl hc hroom (Nat.two_pow_pos _)]
    simp

theorem readBits_long (hn : n + 1 = 2 ^ 61) : readBits 1 { data := 0x80 :: replicate n 0 }
      = (.error (.error ⟨.bufferUnderrun, "read_bits: need 1 bits, only 0 remain"⟩),
        { data := 0x80 :: replicate n 0 }) := by
  have hremaining : remainingBits { data := 0x80 :: replicate n 0 } = 0 := by
    simp only [remainingBits, length_cons, length_replicate, sizeT]
    split <;> omega
  simp only [readBits, hremaining]
  rfl

/-! ## Specifications of calls -/

/-- At bit `p`, on any buffer that continues with `bs` there, the call returns `a` and stops right
after `bs`. -/
def Reads {α : Type} (m : ReadM α) (p : Nat) (bs : List Bool) (a : α) : Prop :=
  ∀ r : BitReader, r.WF → r.position = p → bs <+: (bytesBits r.data).drop p →
    m r = (.ok a, r.seek (p + bs.length))

theorem room_of_starts {data : List UInt8} (h : bs <+: (bytesBits data).drop p)
    (hp : p ≤ 8 * data.length) : p + bs.length ≤ 8 * data.length := by
  have := h.length_le
  rw [length_drop, length_bytesBits] at this
  omega

theorem peek_of_starts (h : bs <+: (bytesBits r.data).drop r.position) :
    r.peek bs.length = bitsVal bs := by
  rw [peek, ← prefix_iff_eq_take.mp h]

theorem reads_ret (p : Nat) (a : α) : Reads (ReadM.ret a) p [] a := by
  intro r hr hp _
  simp [ReadM.ret, ← hp, seek_position hr.bit_lt]

theorem Reads.andThen {β : Type} {m : ReadM α} {f : α → ReadM β} {as : List Bool} {a : α} {b : β}
    (hm : Reads m p as a) (hf : Reads (f a) (p + as.length) bs b) :
    Reads (m >>= f) p (as ++ bs) b := by
  intro r hr hp hpre
  have hposle := hr.position_le
  rw [hp] at hposle
  have has : as <+: (bytesBits r.data).drop p := (prefix_append as bs).trans hpre
  have hroom := room_of_starts has hposle
  have hbs : bs <+: (bytesBits r.data).drop (p + as.length) := by
    rw [← drop_drop]
    obtain ⟨t, ht⟩ := hpre
    refine ⟨t, ?_⟩
    rw [← ht, append_assoc, drop_append_of_le_length le_rfl, drop_length, nil_append]
  have hrun := hf (r.seek (p + as.length)) (hr.seek hroom) (position_seek _ _) hbs
  rw [ReadM.bind_ok (hm r hr hp has), hrun, seek_seek, length_append, Nat.add_assoc]

theorem Reads.map {β : Type} {m : ReadM α} {as : List Bool} {a : α} (f : α → β)
    (hm : Reads m p as a) : Reads (m >>= fun a => pure (f a)) p as (f a) := by
  have h := hm.andThen (f := fun a => pure (f a)) (reads_ret (p + as.length) (f a))
  rwa [append_nil] at h

theorem reads_readBits (p : Nat) (bs : List Bool) (h : bs.length ≤ 64) :
    Reads (readBits bs.length) p bs (bitsVal bs) := by
  intro r hr hp hpre
  subst hp
  rw [readBits_eq hr h (room_of_starts hpre hr.position_le), peek_of_starts hpre]

/-! ## Byte reads -/

theorem seek_byte (q : Nat) (r : BitReader) : r.seek (8 * q) = ⟨r.data, q, 0⟩ := by
  have h1 : 8 * q / 8 = q := by omega
  have h2 : 8 * q % 8 = 0 := by omega
  simp only [seek, h1, h2]

theorem isPrefixOf_of_bytesBits {as bs : List UInt8} (h : bytesBits as <+: bytesBits bs) :
    as <+: bs := by
  rw [prefix_iff_eq_take] at h ⊢
  apply bytesBits_inj
  rw [length_bytesBits, take_bytesBits] at h
  exact h

theorem aligned_of_starts {bytes : List UInt8} (hr : r.WF) (hp : r.position = p)
    (h : bytePad p ++ bytesBits bytes <+: (bytesBits r.data).drop p) :
    ∃ q, r.alignToByte = ⟨r.data, q, 0⟩ ∧ q + bytes.length ≤ r.data.length
      ∧ (r.data.drop q).take bytes.length = bytes
      ∧ r.seek (p + (bytePad p ++ bytesBits bytes).length) = ⟨r.data, q + bytes.length, 0⟩ := by
  have hroom := room_of_starts h (hp ▸ hr.position_le)
  rw [length_append, length_bytesBits] at hroom
  have hq : 8 * ((p + 7) / 8) = p + (bytePad p).length := by
    rw [length_bytePad]
    omega
  refine ⟨(p + 7) / 8, ?_, by omega, ?_, ?_⟩
  · rw [hr.alignToByte_eq, hp, seek_byte]
  · have hbytes : bytesBits bytes <+: bytesBits (r.data.drop ((p + 7) / 8)) := by
      rw [← drop_bytesBits, hq, ← drop_drop]
      obtain ⟨t, ht⟩ := h
      refine ⟨t, ?_⟩
      rw [← ht, append_assoc, drop_append_of_le_length le_rfl, drop_length, nil_append]
    exact (prefix_iff_eq_take.mp (isPrefixOf_of_bytesBits hbytes)).symm
  · rw [← seek_byte, length_append, length_bytesBits, ← Nat.add_assoc, ← hq, ← Nat.mul_add]

section

variable (p : Nat) (bytes : List UInt8)

theorem reads_takeBytes :
    Reads (takeBytes name bytes.length) p (bytePad p ++ bytesBits bytes) bytes := by
  intro r hr hp hpre
  obtain ⟨q, halign, hle, hdata, hend⟩ := aligned_of_starts hr hp hpre
  have hsmall := hr.small
  have hsize : sizeT (q + bytes.length) = q + bytes.length := Nat.mod_eq_of_lt (by omega)
  simp only [takeBytes, halign, hsize, hend]
  rw [if_neg (by omega), if_neg (by unfold dynamicExtent; omega), if_neg (by omega), hdata]

theorem reads_readString : Reads (readString bytes.length) p (bytePad p ++ bytesBits bytes) bytes :=
  reads_takeBytes "read_bytes" p bytes

theorem reads_readFixed (e : Endian) :
    Reads (readFixed name bytes.length e) p (bytePad p ++ bytesBits bytes)
      (beVal (e.order bytes)) := by
  intro r hr hp hpre
  obtain ⟨q, halign, hle, hdata, hend⟩ := aligned_of_starts hr hp hpre
  have hsmall := hr.small
  have hsize : sizeT (q + bytes.length) = q + bytes.length := Nat.mod_eq_of_lt (by omega)
  simp only [readFixed, halign, hsize, hend, readWord]
  rw [if_neg (by omega), if_neg (by omega), hdata]

end

theorem readFixed_eq (e : Endian) (hr : r.WF) (hroom : (r.position + 7) / 8 + n ≤ r.data.length) :
    (readFixed name n e r).1
      = .ok (beVal (e.order ((r.data.drop ((r.position + 7) / 8)).take n))) := by
  have hsmall := hr.small
  have hsize : sizeT ((r.position + 7) / 8 + n) = (r.position + 7) / 8 + n :=
    Nat.mod_eq_of_lt (by omega)
  simp only [readFixed, hr.alignToByte_eq, seek_byte, hsize, readWord]
  rw [if_neg (by omega), if_neg (by omega)]

theorem readU8_eq (hr : r.WF) (hroom : (r.position + 7) / 8 + 1 ≤ r.data.length) :
    (readU8 r).1 = .ok (beVal ((r.data.drop ((r.position + 7) / 8)).take 1)) := by
  obtain ⟨byte, hbyte⟩ : ∃ byte, r.data[(r.position + 7) / 8]? = some byte :=
    ⟨_, getElem?_eq_getElem (by omega)⟩
  have htake : (r.data.drop ((r.position + 7) / 8)).take 1 = [byte] := by
    rw [take_one, head?_drop, hbyte]
    rfl
  have hval : beVal [byte] = byte.toNat := by simp [beVal]
  simp only [readU8, hr.alignToByte_eq, seek_byte, hbyte, htake, hval]
  rw [if_neg (by omega)]

theorem position_of_readFixed {name : String} {v : Nat} {e : Endian} {r' : BitReader} (hr : r.WF)
    (hn : n < 2 ^ 61) (h : readFixed name n e r = (.ok v, r')) :
    r'.position = 8 * ((r.position + 7) / 8) + 8 * n := by
  have hsmall := hr.small
  have hle := hr.position_le
  have hsize : sizeT ((r.position + 7) / 8 + n) = (r.position + 7) / 8 + n :=
    Nat.mod_eq_of_lt (by omega)
  simp only [readFixed, hr.alignToByte_eq, seek_byte, hsize] at h
  split at h
  · simp [ReadM.fail] at h
  have hend : r' = ⟨r.data, (r.position + 7) / 8 + n, 0⟩ := (congrArg Prod.snd h).symm
  simp only [hend, position]
  omega

theorem reads_readU8 (p : Nat) (byte : UInt8) :
    Reads readU8 p (bytePad p ++ bytesBits [byte]) byte.toNat := by
  intro r hr hp hpre
  obtain ⟨q, halign, hle, hdata, hend⟩ := aligned_of_starts hr hp hpre
  have hsmall := hr.small
  simp only [length_cons, length_nil, Nat.zero_add] at hle hdata hend
  have hsize : sizeT (q + 1) = q + 1 := Nat.mod_eq_of_lt (by omega)
  have hget : r.data[q]? = some byte := by
    have := congrArg (fun l => l[0]?) hdata
    simpa using this
  simp only [readU8, halign, hget, hsize, hend]
  rw [if_neg (by omega)]

theorem toInt64_of_lt {v : Nat} (h : v < 2 ^ 63) : toInt64 v = v := by rw [toInt64, if_pos h]

/-- `align_to` as a call. -/
def alignToM (byteBoundary : Nat) : ReadM Unit := fun r => (.ok (), r.alignTo byteBoundary)

theorem reads_alignToM (p : Nat) (hk : k ≠ 0) :
    Reads (alignToM k) p (bytePad p ++ bytesBits (boundaryPad k ((p + 7) / 8))) () := by
  intro r hr hp hpre
  have hroom := room_of_starts hpre (hp ▸ hr.position_le)
  have hsmall := hr.small
  obtain ⟨q, hq⟩ : ∃ q, q = (p + 7) / 8 := ⟨_, rfl⟩
  have hend : p + (bytePad p ++ bytesBits (boundaryPad k q)).length
      = 8 * (q + (boundaryPad k q).length) := by
    rw [length_append, length_bytePad, length_bytesBits]
    omega
  rw [← hq, hend] at hroom
  have halign : r.alignToByte = ⟨r.data, q, 0⟩ := by rw [hr.alignToByte_eq, hp, ← hq, seek_byte]
  rw [← hq, hend, seek_byte]
  rw [length_boundaryPad] at hroom ⊢
  simp only [alignToM, alignTo, if_neg hk, halign]
  by_cases hz : q % k = 0
  · simp only [hz, ne_eq, not_true_eq_false, and_false, if_false, if_true, Nat.add_zero]
    rw [if_neg (by omega)]
  have hk1 : k > 1 := by
    rcases Nat.lt_or_ge 1 k with h | h
    · exact h
    obtain rfl : k = 1 := by omega
    exact absurd (Nat.mod_one q) hz
  rw [if_neg hz] at hroom
  have hsize : sizeT (q + (k - q % k)) = q + (k - q % k) := Nat.mod_eq_of_lt (by omega)
  simp only [hz, hk1, ne_eq, not_false_eq_true, and_self, if_true, if_false, hsize]
  rw [if_neg (by omega)]

theorem reads_alignToM_zero (p : Nat) : Reads (alignToM 0) p [] () := by
  intro r hr hp _
  simp [alignToM, alignTo, ← hp, seek_position hr.bit_lt]

end BitReader

end Conduit.Io
