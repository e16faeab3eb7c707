import Conduit.Io.BitWriter

/-!
# What a writer holds

The bit writer refines a list of bits: `Holds w bs` says that the bits written so far are `bs` and
that the rest of the last byte is zero. Every write appends bits that depend only on the call and
on the current length; the fast path, the three-phase path and the implicit byte alignment of the
source disappear at this level.
-/

namespace Conduit.Io

open Bits BitWriter List

namespace BitWriter

variable {w : BitWriter} {bs : List Bool} {value : Nat} (bit : Bool) (code : ErrorCode)
  (message : String) (n v : Nat)

/-- The writer has written exactly the bits `bs`. -/
def Holds (w : BitWriter) (bs : List Bool) : Prop :=
  w.bitPos = bs.length ∧ bytesBits w.data = bs ++ bytePad bs.length

theorem holds_empty : Holds {} [] := by simp [Holds, bytePad]

theorem Holds.length_data (h : w.Holds bs) :
    8 * w.data.length = bs.length + (8 - bs.length % 8) % 8 := by
  rw [← length_bytesBits, h.2, length_append, length_bytePad]

theorem Holds.sizeBytes_eq (h : w.Holds bs) : w.sizeBytes = w.data.length := by
  have := h.length_data
  rw [sizeBytes, h.1]
  omega

theorem Holds.of_data {w' : BitWriter} (h : w.Holds bs) (hdata : w'.data = w.data)
    (hpos : w'.bitPos = w.bitPos) : w'.Holds bs := by
  rw [Holds, hdata, hpos]
  exact h

/-! ## Errors -/

section

variable (w : BitWriter)

@[simp] theorem data_setError : (w.setError code message).data = w.data := by
  unfold setError
  split <;> rfl

@[simp] theorem bitPos_setError : (w.setError code message).bitPos = w.bitPos := by
  unfold setError
  split <;> rfl

@[simp] theorem setError_ne_none : (w.setError code message).error ≠ none := by
  unfold setError
  split
  next h => exact fun hn => by simp [hn] at h
  next => simp

@[simp] theorem data_ensureCapacity : (w.ensureCapacity n).data = w.data := by
  unfold ensureCapacity
  split <;> simp

@[simp] theorem bitPos_ensureCapacity : (w.ensureCapacity n).bitPos = w.bitPos := by
  unfold ensureCapacity
  split <;> simp

end

/-! ## Bit writes -/

theorem Holds.orCurrentByte {c : Nat} (h : w.Holds bs) (hu : bs.length % 8 ≠ 0)
    (hc : c ≤ 8 - bs.length % 8) :
    ((w.orCurrentByte ((v &&& (2 ^ c - 1)) <<< (8 - bs.length % 8 - c))).advance c).Holds
      (bs ++ msbBits c v) := by
  obtain ⟨hpos, hdata⟩ := h
  refine ⟨by simp [BitWriter.orCurrentByte, advance, hpos], ?_⟩
  rw [bytePad_of_unaligned hu] at hdata
  simp only [BitWriter.orCurrentByte, advance, currentByteIndex, hpos]
  rw [bytesBits_modify_or v hdata (by omega) (by omega) hc, bytePad, length_append, length_msbBits]
  congr 2
  omega

theorem Holds.openByte {c : Nat} (h : w.Holds bs) (ha : bs.length % 8 = 0) (hc : c ≤ 8)
    (hc0 : 0 < c) :
    (((w.pushBack 0).orCurrentByte ((v &&& (2 ^ c - 1)) <<< (8 - c))).advance c).Holds
      (bs ++ msbBits c v) := by
  obtain ⟨hpos, hdata⟩ := h
  refine ⟨by simp [BitWriter.orCurrentByte, advance, pushBack, hpos], ?_⟩
  rw [bytePad_of_aligned ha, append_nil] at hdata
  have hzero : bytesBits (w.data ++ [0]) = bs ++ List.replicate 8 false := by
    rw [bytesBits_append, hdata]
    rfl
  simp only [BitWriter.orCurrentByte, advance, currentByteIndex, pushBack, hpos]
  rw [bytesBits_modify_or v hzero (by omega) (by omega) hc, bytePad, length_append, length_msbBits]
  congr 2
  omega

theorem Holds.pushByte (h : w.Holds bs) (ha : bs.length % 8 = 0) :
    ((w.pushBack (UInt8.ofNat v)).advance 8).Holds (bs ++ msbBits 8 v) := by
  obtain ⟨hpos, hdata⟩ := h
  refine ⟨by simp [pushBack, advance, hpos], ?_⟩
  rw [bytePad_of_aligned ha, append_nil] at hdata
  simp only [pushBack, advance]
  rw [bytePad_of_aligned (by simp; omega), bytesBits_append, hdata, bytesBits_cons,
    toNat_ofNat_byte, msbBits_mod _ (Nat.le_refl 8)]
  simp

theorem Holds.ensureCapacity (h : w.Holds bs) : (w.ensureCapacity n).Holds bs :=
  h.of_data (by simp) (by simp)

@[simp] theorem orCurrentByte_zero (w : BitWriter) : w.orCurrentByte 0 = w := by
  have hid : (fun x : UInt8 => x ||| UInt8.ofNat 0) = id := by
    funext x
    exact UInt8.or_zero
  rw [orCurrentByte, hid, modify_id]

theorem orCurrentByte_bit (shift : Nat) (w : BitWriter) :
    (if bit then w.orCurrentByte (1 <<< shift) else w)
      = w.orCurrentByte ((bit.toNat &&& (2 ^ 1 - 1)) <<< shift) := by
  cases bit <;> simp

theorem writeBit_of_aligned (ha : w.bitPos % 8 = 0) :
    w.writeBit bit = (((w.ensureCapacity 1).pushBack 0).orCurrentByte
      ((bit.toNat &&& (2 ^ 1 - 1)) <<< (8 - 1))).advance 1 := by
  simp only [writeBit, orCurrentByte_bit, bitPos_ensureCapacity, ha, if_true, pushBack]

theorem writeBit_of_unaligned (hu : w.bitPos % 8 ≠ 0) :
    w.writeBit bit = ((w.ensureCapacity 1).orCurrentByte
      ((bit.toNat &&& (2 ^ 1 - 1)) <<< (8 - w.bitPos % 8 - 1))).advance 1 := by
  simp only [writeBit, orCurrentByte_bit, bitPos_ensureCapacity, if_neg hu]
  rw [show 7 - w.bitPos % 8 = 8 - w.bitPos % 8 - 1 by omega]

theorem Holds.writeBit (h : w.Holds bs) : (w.writeBit bit).Holds (bs ++ [bit]) := by
  have hw := h.ensureCapacity 1
  have hbit : msbBits 1 bit.toNat = [bit] := by cases bit <;> rfl
  rw [← hbit]
  by_cases ha : bs.length % 8 = 0
  · rw [writeBit_of_aligned bit (by rw [h.1, ha])]
    exact hw.openByte bit.toNat ha (by omega) (by omega)
  · rw [writeBit_of_unaligned bit (by rwa [h.1]), h.1]
    exact hw.orCurrentByte bit.toNat ha (by omega)

/-- The whole-byte loop appends the bits of `value` above its `remaining` low ones. -/
theorem Holds.writeFullBytes (value remaining k : Nat) (h : w.Holds bs) (ha : bs.length % 8 = 0) :
    (writeFullBytes value remaining k w).Holds (bs ++ msbBits (8 * k) (value >>> remaining)) := by
  induction k generalizing w bs with
  | zero => simpa [writeFullBytes] using h
  | succ k ih =>
    rw [writeFullBytes]
    have hstep := h.pushByte (value >>> (k * 8 + remaining)) ha
    have hrec := ih hstep (by simp; omega)
    rw [show 8 * (k + 1) = 8 + 8 * k by omega, msbBits_add, ← append_assoc,
      ← Nat.shiftRight_add, show remaining + 8 * k = k * 8 + remaining by omega]
    exact hrec

theorem Holds.writeLeftoverBits (value i : Nat) (h : w.Holds bs) :
    (writeLeftoverBits value i w).Holds (bs ++ msbBits i value) := by
  induction i generalizing w bs with
  | zero => simpa [writeLeftoverBits] using h
  | succ i ih =>
    rw [writeLeftoverBits, msbBits]
    simpa using ih (h.writeBit (value.testBit i))

theorem Holds.writeBitsAligned (value count : Nat) (h : w.Holds bs) (ha : bs.length % 8 = 0) :
    (w.writeBitsAligned value count).Holds (bs ++ msbBits count value) := by
  have hfull := h.writeFullBytes value (count % 8) (count / 8) ha
  have hrest := hfull.writeLeftoverBits value (count % 8)
  rw [append_assoc, ← msbBits_add, Nat.div_add_mod] at hrest
  exact hrest

theorem Holds.writeBitsUnaligned (value count : Nat) (h : w.Holds bs) (hu : bs.length % 8 ≠ 0) :
    (w.writeBitsUnaligned value count).Holds (bs ++ msbBits count value) := by
  simp only [BitWriter.writeBitsUnaligned, h.1]
  by_cases hfit : count ≤ 8 - bs.length % 8
  · rw [if_pos hfit]
    exact h.orCurrentByte value hu hfit
  rw [if_neg hfit]
  -- the bits that fill the current byte, the whole bytes and the bits of the last byte
  generalize hj : 8 - bs.length % 8 = j at *
  obtain ⟨rest, rfl⟩ : ∃ rest, count = j + rest := ⟨count - j, by omega⟩
  simp only [Nat.add_sub_cancel_left]
  have htop := h.orCurrentByte (c := j) (value >>> rest) hu (by omega)
  rw [hj, Nat.sub_self, Nat.shiftLeft_zero] at htop
  have ha : (bs ++ msbBits j (value >>> rest)).length % 8 = 0 := by
    simp
    omega
  have hfull := htop.writeFullBytes value (rest % 8) (rest / 8) ha
  rw [append_assoc] at hfull
  have hsplit : msbBits (j + rest) value = msbBits j (value >>> rest)
      ++ (msbBits (8 * (rest / 8)) (value >>> (rest % 8)) ++ msbBits (rest % 8) value) := by
    rw [← msbBits_add, Nat.div_add_mod, ← msbBits_add]
  rw [hsplit, ← append_assoc (msbBits j _), ← append_assoc bs]
  split
  next hpos =>
    refine hfull.openByte value ?_ (by omega) hpos
    simp
    omega
  next hpos =>
    rw [show rest % 8 = 0 by omega] at hfull ⊢
    simpa using hfull

/-- `write_bits` appends the `count` low bits of `value`, whatever path it takes. -/
theorem Holds.writeBits {count : Nat} (h : w.Holds bs)
    (hok : (w.writeBits value count).error = none) :
    (w.writeBits value count).Holds (bs ++ msbBits count value) := by
  unfold BitWriter.writeBits at hok ⊢
  split at hok
  next herr => simp [hok] at herr
  next herr =>
    rw [if_neg herr]
    split at hok
    next => exact absurd hok (setError_ne_none _ _ _)
    next hmax =>
      rw [if_neg hmax]
      by_cases h0 : count = 0
      · subst h0
        simpa using h
      rw [if_neg h0]
      have hw := h.ensureCapacity count
      by_cases ha : bs.length % 8 = 0
      · simp only [hw.1, if_pos ha]
        exact hw.writeBitsAligned value count ha
      · simp only [hw.1, if_neg ha]
        exact hw.writeBitsUnaligned value count ha

/-! ## Capacity -/

theorem error_ensureCapacity {n : Nat} (h : w.bitPos + n + 7 < 2 ^ 64) :
    (w.ensureCapacity n).error = w.error := by
  unfold ensureCapacity
  rw [if_neg (by omega)]

theorem writeFullBytes_state (value remaining k : Nat) (w : BitWriter) :
    (w.writeFullBytes value remaining k).error = w.error
      ∧ (w.writeFullBytes value remaining k).bitPos = w.bitPos + 8 * k := by
  induction k generalizing w with
  | zero => exact ⟨rfl, rfl⟩
  | succ k ih =>
    obtain ⟨herr, hpos⟩ := ih ((w.pushBack (UInt8.ofNat (value >>> (k * 8 + remaining)))).advance 8)
    refine ⟨herr, hpos.trans ?_⟩
    simp only [advance, pushBack]
    omega

theorem writeBit_state (h : w.bitPos + 8 < 2 ^ 64) :
    (w.writeBit bit).error = w.error ∧ (w.writeBit bit).bitPos = w.bitPos + 1 := by
  have herr := error_ensureCapacity (n := 1) (w := w) (by omega)
  have hpos := bitPos_ensureCapacity 1 w
  by_cases ha : w.bitPos % 8 = 0
  · rw [writeBit_of_aligned bit ha]
    exact ⟨herr, congrArg (· + 1) hpos⟩
  · rw [writeBit_of_unaligned bit ha]
    exact ⟨herr, congrArg (· + 1) hpos⟩

theorem error_writeLeftoverBits {i : Nat} (h : w.bitPos + i + 7 < 2 ^ 64) :
    (w.writeLeftoverBits value i).error = w.error := by
  induction i generalizing w with
  | zero => rfl
  | succ i ih =>
    obtain ⟨herr, hpos⟩ := writeBit_state (value.testBit i) (w := w) (by omega)
    rw [writeLeftoverBits, ih (by omega), herr]

/-- Below the size limit `write_bits` does not fail on a width of at most 64 bits. -/
theorem error_writeBits {count : Nat} (herr : w.error = none) (hcount : count ≤ 64)
    (hpos : w.bitPos + count + 7 < 2 ^ 64) : (w.writeBits value count).error = none := by
  have hcap : (w.ensureCapacity count).error = none := by rw [error_ensureCapacity hpos, herr]
  unfold writeBits
  simp only [herr, Option.isSome_none, Bool.false_eq_true, if_false,
    if_neg (by omega : ¬count > 64)]
  split
  · exact herr
  split
  next =>
    obtain ⟨hfull, hfullPos⟩ :=
      writeFullBytes_state value (count % 8) (count / 8) (w.ensureCapacity count)
    rw [bitPos_ensureCapacity] at hfullPos
    rw [writeBitsAligned, error_writeLeftoverBits (by omega), hfull, hcap]
  next =>
    unfold writeBitsUnaligned
    simp only
    split
    next => exact hcap
    next => split <;> exact (writeFullBytes_state _ _ _ _).1.trans hcap

/-! ## Byte writes -/

theorem Holds.alignToByte (h : w.Holds bs) : w.alignToByte.Holds (bs ++ bytePad bs.length) := by
  obtain ⟨hpos, hdata⟩ := h
  unfold BitWriter.alignToByte
  rw [hpos]
  split
  next ha =>
    refine ⟨by simp [hpos]; omega, ?_⟩
    rw [bytePad_append_bytePad, append_nil, hdata]
  next ha =>
    refine ⟨by simp [advance, hpos]; omega, ?_⟩
    rw [bytePad_append_bytePad, append_nil]
    exact hdata

theorem data_alignToByte (w : BitWriter) : w.alignToByte.data = w.data := by
  unfold alignToByte
  split <;> rfl

theorem error_alignToByte (w : BitWriter) : w.alignToByte.error = w.error := by
  unfold alignToByte
  split <;> rfl

theorem Holds.appendBytes (bytes : List UInt8) (h : w.Holds bs) (herr : w.error = none) :
    (w.appendBytes bytes).Holds (bs ++ bytePad bs.length ++ bytesBits bytes) := by
  obtain ⟨hpos, hdata⟩ := h.alignToByte
  rw [bytePad_append_bytePad, append_nil] at hdata
  unfold BitWriter.appendBytes
  rw [herr]
  simp only [Option.isSome_none, Bool.false_eq_true, if_false]
  refine ⟨?_, ?_⟩
  · simp only [hpos, length_append, length_bytesBits]
    omega
  have hend : (bs ++ bytePad bs.length ++ bytesBits bytes).length % 8 = 0 := by
    rw [length_append, length_bytesBits, Nat.add_mul_mod_self_left, length_append_bytePad_mod]
  rw [bytesBits_append, hdata, bytePad_of_aligned hend, append_nil]

theorem error_appendBytes (bytes : List UInt8) (w : BitWriter) :
    (w.appendBytes bytes).error = w.error := by
  unfold appendBytes
  split
  · rfl
  · exact error_alignToByte w

theorem Holds.writeU8_iterate (h : w.Holds bs) (herr : w.error = none) (ha : bs.length % 8 = 0) :
    ((writeU8 0)^[n] w).Holds (bs ++ bytesBits (List.replicate n 0)) := by
  induction n generalizing w bs with
  | zero => simpa using h
  | succ n ih =>
    have hstep := h.appendBytes (wordBytes 1 0 .big) herr
    rw [bytePad_of_aligned ha, append_nil] at hstep
    have hrec := ih hstep (by rw [error_appendBytes, herr]) (by simp; omega)
    rw [Function.iterate_succ_apply, replicate_succ, bytesBits_cons]
    rw [append_assoc] at hrec
    exact hrec

theorem Holds.alignTo {k : Nat} (h : w.Holds bs) (herr : w.error = none) (hk : k ≠ 0) :
    (w.alignTo k).Holds
      (bs ++ bytePad bs.length ++ bytesBits (boundaryPad k ((bs.length + 7) / 8))) := by
  have hw := h.alignToByte
  have hsize : w.alignToByte.sizeBytes = (bs.length + 7) / 8 := by
    rw [sizeBytes, hw.1]
    simp
    omega
  simp only [BitWriter.alignTo, if_neg hk, hsize, boundaryPad]
  by_cases hr : (bs.length + 7) / 8 % k = 0
  · simpa [hr] using hw
  simp only [ne_eq, hr, not_false_eq_true, if_true, if_false]
  exact hw.writeU8_iterate _ (by rw [error_alignToByte, herr]) (length_append_bytePad_mod bs)

theorem error_alignTo (k : Nat) (w : BitWriter) : (w.alignTo k).error = w.error := by
  have hiter : ∀ (n : Nat) (w : BitWriter), ((writeU8 0)^[n] w).error = w.error := by
    intro n
    induction n with
    | zero => exact fun _ => rfl
    | succ n ih =>
      intro w
      rw [Function.iterate_succ_apply, ih, writeU8, error_appendBytes]
  unfold alignTo
  split
  · rfl
  simp only
  split
  next => rw [hiter, error_alignToByte]
  next => exact error_alignToByte w

theorem Holds.finish (h : w.Holds bs) (herr : w.error = none) :
    ∃ bytes, w.finish.1 = .ok bytes ∧ bytesBits bytes = bs ++ bytePad bs.length := by
  refine ⟨w.alignToByte.data, by simp [BitWriter.finish, herr], ?_⟩
  rw [h.alignToByte.2, bytePad_append_bytePad, append_nil]

end BitWriter

end Conduit.Io
