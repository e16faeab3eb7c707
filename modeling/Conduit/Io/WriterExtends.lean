import Conduit.Io.WriterBits

/-!
# What a write leaves alone

Every call of the writer keeps the bytes that are already complete, never moves backwards and never
clears an error. Unlike `Holds`, this does not ask for zero padding after the last bit, so it also
survives the patches that generated encoders make inside their own output.
-/

namespace Conduit.Io.BitWriter

open Bits BitWriter List

variable {w : BitWriter} {data : List UInt8} {offset : Nat}

/-- The buffer has exactly the bytes that the position has reached. -/
def Sized (w : BitWriter) : Prop := w.data.length = w.sizeBytes

theorem sized_empty : Sized {} := rfl

theorem Holds.sized {bs : List Bool} (h : w.Holds bs) : w.Sized := h.sizeBytes_eq.symm

structure Extends (w w' : BitWriter) : Prop where
  error : w'.error = none → w.error = none
  pos : w.bitPos ≤ w'.bitPos
  sized : w.Sized → w'.Sized
  bytes : w.Sized → w'.data.take (w.bitPos / 8) = w.data.take (w.bitPos / 8)

theorem Extends.refl (w : BitWriter) : Extends w w := ⟨id, le_rfl, id, fun _ => rfl⟩

theorem Extends.trans {a b c : BitWriter} (hab : Extends a b) (hbc : Extends b c) :
    Extends a c := by
  refine ⟨fun h => hab.error (hbc.error h), hab.pos.trans hbc.pos,
    fun h => hbc.sized (hab.sized h), ?_⟩
  intro ha
  have hle : a.bitPos / 8 ≤ b.bitPos / 8 := Nat.div_le_div_right hab.pos
  have hb := congrArg (List.take (a.bitPos / 8)) (hbc.bytes (hab.sized ha))
  rw [take_take, take_take, Nat.min_eq_left hle] at hb
  rw [hb, hab.bytes ha]

theorem extends_setError (code : ErrorCode) (message : String) (w : BitWriter) :
    Extends w (w.setError code message) := by
  refine ⟨fun h => absurd h (setError_ne_none code message w), by simp, ?_, by simp⟩
  intro hw
  rwa [Sized, data_setError, sizeBytes, bitPos_setError]

theorem extends_ensureCapacity (n : Nat) (w : BitWriter) : Extends w (w.ensureCapacity n) := by
  unfold ensureCapacity
  split
  · exact extends_setError _ _ w
  · exact .refl w

/-! ## Bits -/

theorem take_modify_of_le {α : Type} (f : α → α) (l : List α) {k i : Nat} (h : k ≤ i) :
    (l.modify i f).take k = l.take k := by
  rw [take_modify, modify_eq_self]
  exact (length_take_le k l).trans h

theorem extends_orCurrentByte {c : Nat} (mask : Nat) (hu : w.bitPos % 8 ≠ 0)
    (hc : c ≤ 8 - w.bitPos % 8) : Extends w ((w.orCurrentByte mask).advance c) := by
  refine ⟨id, Nat.le_add_right _ _, ?_, ?_⟩
  · intro hw
    simp only [Sized, sizeBytes, advance, orCurrentByte, length_modify] at hw ⊢
    omega
  · intro _
    exact take_modify_of_le _ _ le_rfl

theorem extends_openByte {c : Nat} (byte : UInt8) (mask : Nat) (ha : w.bitPos % 8 = 0) (hc : c ≤ 8)
    (hc0 : 0 < c) : Extends w (((w.pushBack byte).orCurrentByte mask).advance c) := by
  refine ⟨id, Nat.le_add_right _ _, ?_, ?_⟩
  · intro hw
    simp only [Sized, sizeBytes, advance, orCurrentByte, pushBack, length_modify,
      length_append, length_singleton] at hw ⊢
    omega
  intro hw
  simp only [Sized, sizeBytes] at hw
  refine (take_modify_of_le _ _ le_rfl).trans ?_
  exact take_append_of_le_length (by omega)

theorem extends_pushByte (byte : UInt8) (ha : w.bitPos % 8 = 0) :
    Extends w ((w.pushBack byte).advance 8) := by
  have h := extends_openByte (c := 8) byte 0 ha le_rfl (by decide)
  rwa [orCurrentByte_zero] at h

theorem extends_writeBit (bit : Bool) (w : BitWriter) : Extends w (w.writeBit bit) := by
  have hcap := extends_ensureCapacity 1 w
  by_cases ha : w.bitPos % 8 = 0
  · rw [writeBit_of_aligned bit ha]
    exact hcap.trans (extends_openByte _ _ (by simpa using ha) (by decide) (by decide))
  rw [writeBit_of_unaligned bit ha]
  refine hcap.trans (extends_orCurrentByte _ (by simpa using ha) ?_)
  rw [bitPos_ensureCapacity]
  omega

theorem extends_writeFullBytes (value remaining k : Nat) (ha : w.bitPos % 8 = 0) :
    Extends w (w.writeFullBytes value remaining k) := by
  induction k generalizing w with
  | zero => exact .refl w
  | succ k ih =>
    refine (extends_pushByte _ ha).trans (ih ?_)
    simp only [advance, pushBack]
    omega

theorem extends_writeLeftoverBits (value i : Nat) (w : BitWriter) :
    Extends w (w.writeLeftoverBits value i) := by
  induction i generalizing w with
  | zero => exact .refl w
  | succ i ih => exact (extends_writeBit _ w).trans (ih _)

theorem extends_writeBitsUnaligned (value count : Nat) (hu : w.bitPos % 8 ≠ 0) :
    Extends w (w.writeBitsUnaligned value count) := by
  unfold writeBitsUnaligned
  by_cases hfit : count ≤ 8 - w.bitPos % 8
  · simp only [if_pos hfit]
    exact extends_orCurrentByte _ hu hfit
  simp only [if_neg hfit]
  have hfill := extends_orCurrentByte (c := 8 - w.bitPos % 8)
    ((value >>> (count - (8 - w.bitPos % 8))) &&& (2 ^ (8 - w.bitPos % 8) - 1)) hu le_rfl
  generalize hv : (w.orCurrentByte _).advance (8 - w.bitPos % 8) = v at hfill ⊢
  have hva : v.bitPos % 8 = 0 := by
    simp only [← hv, advance, orCurrentByte]
    omega
  generalize count - (8 - w.bitPos % 8) = rest
  have hfull := extends_writeFullBytes value (rest % 8) (rest / 8) hva
  split
  next hrem =>
    have hpos := (writeFullBytes_state value (rest % 8) (rest / 8) v).2
    exact hfill.trans (hfull.trans
      (extends_openByte _ _ (by omega) (Nat.mod_lt _ (by decide)).le hrem))
  next => exact hfill.trans hfull

theorem extends_writeBits (value count : Nat) (w : BitWriter) :
    Extends w (w.writeBits value count) := by
  unfold writeBits
  have hcap := extends_ensureCapacity count w
  split
  · exact .refl w
  split
  · exact extends_setError _ _ w
  split
  · exact .refl w
  dsimp only
  split
  next ha =>
    exact hcap.trans ((extends_writeFullBytes _ _ _ ha).trans (extends_writeLeftoverBits _ _ _))
  next hu => exact hcap.trans (extends_writeBitsUnaligned value count hu)

theorem extends_writeSignedBits (value : Int) (count : Nat) (w : BitWriter) :
    Extends w (w.writeSignedBits value count) := by
  unfold writeSignedBits
  split
  · exact .refl w
  · exact extends_writeBits _ count w

/-! ## Numbers, bytes and padding -/

theorem extends_writeBcd (value bits : Nat) (w : BitWriter) : Extends w
    (w.writeBcd value bits) := by
  unfold writeBcd
  split
  · exact .refl w
  split
  · exact extends_setError _ _ w
  split
  · exact .refl w
  split
  · exact extends_setError _ _ w
  dsimp only
  split
  · exact extends_setError _ _ w
  · exact extends_writeBits _ bits w

theorem extends_writeBcdSigned (value : Int) (bits : Nat) (w : BitWriter) :
    Extends w (w.writeBcdSigned value bits) := by
  unfold writeBcdSigned
  split
  · exact .refl w
  iterate 3
    split
    · exact extends_setError _ _ w
  dsimp only
  split
  · exact extends_setError _ _ w
  · exact extends_writeBits _ bits w

theorem extends_writeSignMagnitude (value : Int) (bits : Nat) (w : BitWriter) :
    Extends w (w.writeSignMagnitude value bits) := by
  unfold writeSignMagnitude
  split
  · exact .refl w
  split
  · exact extends_setError _ _ w
  dsimp only
  split
  · exact extends_setError _ _ w
  · exact extends_writeBits _ bits w

theorem extends_alignToByte (w : BitWriter) : Extends w w.alignToByte := by
  unfold alignToByte
  split
  · exact .refl w
  next hu =>
    have h := extends_orCurrentByte 0 hu le_rfl
    rwa [orCurrentByte_zero] at h

theorem bitPos_alignToByte (w : BitWriter) : w.alignToByte.bitPos = 8 * w.sizeBytes := by
  unfold alignToByte sizeBytes
  split
  · omega
  simp only [advance]
  omega

theorem extends_appendBytes (bytes : List UInt8) (w : BitWriter) :
    Extends w (w.appendBytes bytes) := by
  unfold appendBytes
  split
  · exact .refl w
  refine (extends_alignToByte w).trans ⟨id, Nat.le_add_right _ _, ?_, ?_⟩
  · intro hw
    have hpos := bitPos_alignToByte w
    simp only [Sized, sizeBytes, length_append] at hw hpos ⊢
    omega
  · intro hw
    simp only [Sized, sizeBytes] at hw
    exact take_append_of_le_length (by omega)

theorem extends_alignTo (byteBoundary : Nat) (w : BitWriter) :
    Extends w (w.alignTo byteBoundary) := by
  have hzeros : ∀ (n : Nat) (w : BitWriter), Extends w ((writeU8 0)^[n] w) := by
    intro n
    induction n with
    | zero => exact .refl
    | succ n ih => exact fun w => (extends_appendBytes _ w).trans (ih _)
  unfold alignTo
  split
  · exact .refl w
  dsimp only
  split
  · exact (extends_alignToByte w).trans (hzeros _ _)
  · exact extends_alignToByte w

/-! ## Patches -/

theorem length_overwrite {bytes : List UInt8} (h : offset + bytes.length ≤ data.length) :
    (overwrite data offset bytes).length = data.length := by
  simp only [overwrite, length_append, length_take, length_drop]
  omega

theorem take_overwrite {bytes : List UInt8} {k : Nat} (hk : k ≤ offset) (h : offset ≤ data.length) :
    (overwrite data offset bytes).take k = data.take k := by
  have hlen : k ≤ (data.take offset).length := by
    rw [length_take]
    omega
  rw [overwrite, append_assoc, take_append_of_le_length hlen, take_take, Nat.min_eq_left hk]

theorem drop_take_overwrite (bytes : List UInt8) (h : offset ≤ data.length) :
    ((overwrite data offset bytes).drop offset).take bytes.length = bytes := by
  have hlen : (data.take offset).length = offset := by
    rw [length_take]
    omega
  rw [overwrite, append_assoc, drop_append_of_le_length (by omega),
    drop_eq_nil_of_le (by omega), nil_append, take_left]

/-- The writer with some of its bytes replaced. -/
def patched (offset : Nat) (bytes : List UInt8) (w : BitWriter) : BitWriter :=
  { w with data := overwrite w.data offset bytes }

theorem patchWord_eq_true_iff {name : String} {n value : Nat} {e : Endian} {w' : BitWriter} :
    w.patchWord name n offset value e = .ok (true, w') ↔
      w.error = none ∧ offset + n ≤ w.data.length ∧ w' = w.patched offset (wordBytes n value e) := by
  have hsize : sizeT (offset + n) ≤ offset + n := Nat.mod_le _ _
  unfold patchWord
  cases herr : w.error with
  | some error => simp
  | none =>
    by_cases hroom : offset + n ≤ w.data.length
    · simp [Nat.not_lt.mpr hroom, Nat.not_lt.mpr (Nat.le_trans hsize hroom), hroom, patched, herr, eq_comm]
    · simp only [Option.isSome_none, Bool.false_eq_true, if_false, if_pos (Nat.not_le.mp hroom)]
      split <;> simp [hroom]

theorem patchU8_eq_true_iff {value : Nat} {w' : BitWriter} :
    w.patchU8 offset value = .ok (true, w') ↔ w.error = none ∧ offset + 1 ≤ w.data.length
        ∧ w' = w.patched offset (wordBytes 1 value .big) := by
  unfold patchU8
  cases herr : w.error with
  | some error => simp
  | none =>
    by_cases hroom : offset < w.data.length
    · simp [Nat.not_le.mpr hroom, Nat.succ_le_of_lt hroom, patched, herr, eq_comm]
    · simp [Nat.not_lt.mp hroom, hroom, Nat.succ_le_iff]

end Conduit.Io.BitWriter
