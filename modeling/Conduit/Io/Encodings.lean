import Conduit.Io.WriterBits
import Conduit.Io.ReaderBits

/-!
# The signed and decimal encodings

What `write_signed_bits`, `write_bcd`, `write_bcd_signed` and `write_sign_magnitude` append and
accept, and what the corresponding reads make of these bits.
-/

namespace Conduit.Io

open Bits BitWriter

/-- The values of an `int64_t`. -/
def IsInt64 (value : Int) : Prop := -2 ^ 63 ≤ value ∧ value < 2 ^ 63

theorem toUint64_natCast {v : Nat} (h : v < 2 ^ 64) : toUint64 v = v := by
  unfold toUint64
  omega

theorem absUint64_eq {value : Int} (h : IsInt64 value) : absUint64 value = value.natAbs := by
  obtain ⟨hlo, hhi⟩ := h
  unfold absUint64 toUint64
  split <;> omega

theorem natAbs_sign (value : Int) :
    (if decide (value < 0) then -(value.natAbs : Int) else value.natAbs) = value := by
  by_cases h : value < 0
  · rw [if_pos (by simpa using h)]
    omega
  · rw [if_neg (by simpa using h)]
    omega

theorem beVal_order_wordBytes {n value : Nat} (e : Endian) (h : value < 2 ^ (8 * n)) :
    beVal (e.order (wordBytes n value e)) = value := by
  rw [wordBytes, order_order, beVal_beBytes, Nat.mod_eq_of_lt h]

theorem packBcd_eq (k i raw v : Nat) (hraw : raw < 2 ^ (4 * i)) :
    packBcd k i raw v = (raw + 2 ^ (4 * i) * bcdOf k v, v / 10 ^ k) := by
  induction k generalizing i raw v with
  | zero => simp [packBcd, bcdOf]
  | succ k ih =>
    have hdigit : raw ||| (v % 10) <<< (i * 4) = raw + 2 ^ (4 * i) * (v % 10) := by
      rw [Nat.mul_comm i 4, Nat.or_comm, Nat.shiftLeft_eq, Nat.mul_comm,
        ← Nat.two_pow_add_eq_or_of_lt hraw, Nat.add_comm]
    have hnext : raw + 2 ^ (4 * i) * (v % 10) < 2 ^ (4 * (i + 1)) := by
      calc raw + 2 ^ (4 * i) * (v % 10) < 2 ^ (4 * i) * (v % 10 + 1) := by
            rw [Nat.mul_succ]
            omega
        _ ≤ 2 ^ (4 * i) * 16 := Nat.mul_le_mul_left _ (by omega)
        _ = 2 ^ (4 * (i + 1)) := by rw [show 4 * (i + 1) = 4 * i + 4 by omega, Nat.pow_add]
    rw [packBcd, hdigit, ih _ _ _ hnext, bcdOf]
    congr 1
    · ring
    · rw [Nat.div_div_eq_div_mul, Nat.pow_succ, Nat.mul_comm]

theorem lt_of_div_pow_eq_zero {v n : Nat} (h : v / 10 ^ n = 0) : v < 10 ^ n :=
  (Nat.div_eq_zero_iff_lt (Nat.pow_pos (by decide))).mp h

theorem unpackBcd_eq (name : String) (raw k i result multiplier v : Nat)
    (hraw : raw / 2 ^ (4 * i) % 2 ^ (4 * k) = bcdOf k v) (hresult : result < multiplier)
    (hmul : multiplier * 10 ^ k < 2 ^ 64) : BitReader.unpackBcd name raw k i result multiplier
      = .ok (result + multiplier * (v % 10 ^ k)) := by
  induction k generalizing i result multiplier v with
  | zero => simp [BitReader.unpackBcd, Nat.mod_one]
  | succ k ih =>
    have hpow : 2 ^ (4 * (k + 1)) = 16 * 2 ^ (4 * k) := by
      rw [Nat.mul_succ, Nat.pow_add, Nat.mul_comm]
    have hdigit : (raw >>> (i * 4)) &&& 15 = v % 10 := by
      have := congrArg (· % 16) hraw
      simp only [bcdOf_succ_mod] at this
      rw [← this, hpow, Nat.mod_mul_right_mod, Nat.mul_comm i 4, Nat.shiftRight_eq_div_pow]
      exact Nat.and_two_pow_sub_one_eq_mod _ 4
    have hrest : raw / 2 ^ (4 * (i + 1)) % 2 ^ (4 * k) = bcdOf k (v / 10) := by
      have := congrArg (· / 16) hraw
      simp only [bcdOf_succ_div] at this
      rw [← this, hpow, Nat.mod_mul_right_div_self, Nat.div_div_eq_div_mul, Nat.mul_succ,
        Nat.pow_add]
    have hmul' : multiplier * 10 * 10 ^ k < 2 ^ 64 := by
      rw [Nat.mul_assoc, ← Nat.pow_succ']
      exact hmul
    have hone : 1 ≤ 10 ^ k := Nat.one_le_pow _ _ (by omega)
    have hm10 : multiplier * 10 < 2 ^ 64 :=
      Nat.lt_of_le_of_lt (Nat.le_mul_of_pos_right _ hone) hmul'
    have hsum : result + v % 10 * multiplier < multiplier * 10 := by
      calc result + v % 10 * multiplier < multiplier + 9 * multiplier :=
            Nat.add_lt_add_of_lt_of_le hresult (Nat.mul_le_mul_right _ (by omega))
        _ = multiplier * 10 := by ring
    simp only [BitReader.unpackBcd, hdigit, sizeT]
    rw [if_neg (by omega), Nat.mod_eq_of_lt (by omega), Nat.mod_eq_of_lt hm10,
      ih _ _ _ _ hrest hsum hmul', Nat.pow_succ', Nat.mod_mul]
    congr 1
    ring

/-! ## Writes -/

namespace BitWriter

variable {value : Int} {w : BitWriter} {bs : List Bool} {bits : Nat}

theorem writeSignedBits_eq {count : Nat} (herr : w.error = none) :
    w.writeSignedBits value count = w.writeBits (toUint64 value) count := by
  rw [writeSignedBits, herr]
  simp

theorem ok_of_ite_setError {c : Prop} [Decidable c] {code : ErrorCode} {message : String}
    {w w' : BitWriter} (h : (if c then w.setError code message else w').error = none) :
    ¬c ∧ w'.error = none := by
  split at h
  next => exact absurd h (setError_ne_none _ _ _)
  next hc => exact ⟨hc, h⟩

/-- What `write_bcd` has checked when it reports no error, and what it writes. -/
theorem writeBcd_of_ok {value : Nat} (herr : w.error = none)
    (hok : (w.writeBcd value bits).error = none) :
    bits % 4 = 0 ∧ bits ≤ 64 ∧ (bits ≠ 0 → value < 10 ^ (bits / 4))
      ∧ w.writeBcd value bits = w.writeBits (bcdOf (bits / 4) value) bits := by
  unfold BitWriter.writeBcd at hok ⊢
  simp only [herr, Option.isSome_none, Bool.false_eq_true, if_false,
    packBcd_eq _ 0 0 value (by simp)] at hok ⊢
  obtain ⟨h4, hok⟩ := ok_of_ite_setError hok
  rw [if_neg h4]
  by_cases h0 : bits = 0
  · subst h0
    simp [BitWriter.writeBits, herr]
  rw [if_neg h0] at hok ⊢
  obtain ⟨h16, hok⟩ := ok_of_ite_setError hok
  obtain ⟨hfit, hok⟩ := ok_of_ite_setError hok
  rw [if_neg h16, if_neg hfit]
  refine ⟨by omega, by omega, fun _ => lt_of_div_pow_eq_zero (not_not.mp hfit), ?_⟩
  simp

theorem Holds.writeBcd {value : Nat} (h : w.Holds bs) (herr : w.error = none)
    (hok : (w.writeBcd value bits).error = none) :
    bits % 4 = 0 ∧ bits ≤ 64 ∧ (bits ≠ 0 → value < 10 ^ (bits / 4))
      ∧ (w.writeBcd value bits).Holds (bs ++ msbBits bits (bcdOf (bits / 4) value)) := by
  obtain ⟨h4, h64, hfit, heq⟩ := writeBcd_of_ok herr hok
  rw [heq] at hok ⊢
  exact ⟨h4, h64, hfit, h.writeBits hok⟩

theorem writeBcdSigned_of_ok (hvalue : IsInt64 value) (herr : w.error = none)
    (hok : (w.writeBcdSigned value bits).error = none) :
    ∃ n, bits = 4 * n + 1 ∧ 1 ≤ n ∧ n ≤ 15 ∧ value.natAbs < 10 ^ n
      ∧ w.writeBcdSigned value bits = w.writeBits (if value < 0 then
          bcdOf n value.natAbs ||| 2 ^ (4 * n) else bcdOf n value.natAbs) (4 * n + 1) := by
  unfold BitWriter.writeBcdSigned at hok ⊢
  simp only [herr, Option.isSome_none, Bool.false_eq_true, if_false, absUint64_eq hvalue,
    packBcd_eq _ 0 0 value.natAbs (by simp)] at hok ⊢
  obtain ⟨h5, hok⟩ := ok_of_ite_setError hok
  obtain ⟨h4, hok⟩ := ok_of_ite_setError hok
  obtain ⟨h15, hok⟩ := ok_of_ite_setError hok
  obtain ⟨hfit, hok⟩ := ok_of_ite_setError hok
  rw [if_neg h5, if_neg h4, if_neg h15, if_neg hfit]
  obtain ⟨n, rfl⟩ : ∃ n, bits = 4 * n + 1 := ⟨(bits - 1) / 4, by omega⟩
  have hn : (4 * n + 1 - 1) / 4 = n := by omega
  rw [hn] at hfit h15 ⊢
  refine ⟨n, rfl, by omega, by omega, lt_of_div_pow_eq_zero (not_not.mp hfit), ?_⟩
  simp

theorem Holds.writeBcdSigned (h : w.Holds bs) (hvalue : IsInt64 value) (herr : w.error = none)
    (hok : (w.writeBcdSigned value bits).error = none) :
    ∃ n, bits = 4 * n + 1 ∧ 1 ≤ n ∧ n ≤ 15 ∧ value.natAbs < 10 ^ n
      ∧ (w.writeBcdSigned value bits).Holds
          (bs ++ (decide (value < 0) :: msbBits (4 * n) (bcdOf n value.natAbs))) := by
  obtain ⟨n, rfl, h1, h15, hlt, heq⟩ := writeBcdSigned_of_ok hvalue herr hok
  rw [heq] at hok ⊢
  refine ⟨n, rfl, h1, h15, hlt, ?_⟩
  simpa [← msbBits_sign _ (bcdOf_lt n value.natAbs)] using h.writeBits hok

theorem writeSignMagnitude_of_ok (hvalue : IsInt64 value) (herr : w.error = none)
    (hok : (w.writeSignMagnitude value bits).error = none) :
    ∃ m, bits = m + 1 ∧ 1 ≤ m ∧ value.natAbs < 2 ^ m
      ∧ w.writeSignMagnitude value bits = w.writeBits (if value < 0 then
          value.natAbs ||| 2 ^ m else value.natAbs) (m + 1) := by
  unfold BitWriter.writeSignMagnitude at hok ⊢
  simp only [herr, Option.isSome_none, Bool.false_eq_true, if_false, absUint64_eq hvalue] at hok ⊢
  obtain ⟨h2, hok⟩ := ok_of_ite_setError hok
  obtain ⟨hfit, hok⟩ := ok_of_ite_setError hok
  rw [if_neg h2, if_neg hfit]
  obtain ⟨m, rfl⟩ : ∃ m, bits = m + 1 := ⟨bits - 1, by omega⟩
  rw [Nat.add_sub_cancel] at hfit ⊢
  have hpos := Nat.two_pow_pos m
  have hlt : value.natAbs < 2 ^ m := by omega
  refine ⟨m, rfl, by omega, hlt, ?_⟩
  rw [Nat.and_two_pow_sub_one_eq_mod, Nat.mod_eq_of_lt hlt]

theorem Holds.writeSignMagnitude (h : w.Holds bs) (hvalue : IsInt64 value) (herr : w.error = none)
    (hok : (w.writeSignMagnitude value bits).error = none) :
    ∃ m, bits = m + 1 ∧ 1 ≤ m ∧ value.natAbs < 2 ^ m ∧ (w.writeSignMagnitude value bits).Holds
          (bs ++ (decide (value < 0) :: msbBits m value.natAbs)) := by
  obtain ⟨m, rfl, h1, hlt, heq⟩ := writeSignMagnitude_of_ok hvalue herr hok
  rw [heq] at hok ⊢
  refine ⟨m, rfl, h1, hlt, ?_⟩
  simpa [← msbBits_sign _ hlt] using h.writeBits hok

theorem error_writeBcd {value : Nat} (herr : w.error = none) (h4 : bits % 4 = 0) (h64 : bits ≤ 64)
    (hvalue : value < 10 ^ (bits / 4)) (hpos : w.bitPos + bits + 7 < 2 ^ 64) :
    (w.writeBcd value bits).error = none := by
  unfold writeBcd
  simp only [herr, Option.isSome_none, Bool.false_eq_true, if_false,
    packBcd_eq _ 0 0 value (by simp), Nat.div_eq_of_lt hvalue, h4, ne_eq, not_true_eq_false]
  split
  · exact herr
  rw [if_neg (by omega)]
  exact error_writeBits herr h64 hpos

theorem error_writeBcdSigned (herr : w.error = none) (hint : IsInt64 value) (h5 : 5 ≤ bits)
    (h4 : (bits - 1) % 4 = 0) (h64 : bits ≤ 64) (hvalue : value.natAbs < 10 ^ ((bits - 1) / 4))
    (hpos : w.bitPos + bits + 7 < 2 ^ 64) : (w.writeBcdSigned value bits).error = none := by
  unfold writeBcdSigned
  simp only [herr, Option.isSome_none, Bool.false_eq_true, if_false, absUint64_eq hint,
    packBcd_eq _ 0 0 value.natAbs (by simp), Nat.div_eq_of_lt hvalue, h4, ne_eq,
    not_true_eq_false]
  rw [if_neg (by omega), if_neg (by omega)]
  exact error_writeBits herr h64 hpos

theorem error_writeSignMagnitude (herr : w.error = none) (hint : IsInt64 value) (h2 : 2 ≤ bits)
    (h64 : bits ≤ 64) (hvalue : value.natAbs < 2 ^ (bits - 1)) (hpos : w.bitPos + bits + 7 < 2 ^ 64) :
    (w.writeSignMagnitude value bits).error = none := by
  unfold writeSignMagnitude
  simp only [herr, Option.isSome_none, Bool.false_eq_true, if_false, absUint64_eq hint]
  rw [if_neg (by omega), if_neg (by omega)]
  exact error_writeBits herr h64 hpos

end BitWriter

/-! ## Reads -/

namespace BitReader

variable (p : Nat) (neg : Bool)

theorem reads_readBits_msb {n : Nat} (v : Nat) (hn : n ≤ 64) :
    Reads (readBits n) p (msbBits n v) (v % 2 ^ n) := by
  have h := reads_readBits p (msbBits n v) (by simpa using hn)
  rwa [length_msbBits, bitsVal_msbBits] at h

theorem bmod_of_lt {n v : Nat} (h : v < 2 ^ n) :
    (v : Int).bmod (2 ^ n) = if n > 0 ∧ v.testBit (n - 1) then (v : Int) - 2 ^ n else v := by
  by_cases h0 : n = 0
  · subst h0
    obtain rfl : v = 0 := by omega
    rfl
  have hmod : (v : Int) % (2 ^ n : Nat) = v := by rw [← Int.natCast_mod, Nat.mod_eq_of_lt h]
  have hhalf : 2 ^ n = 2 * 2 ^ (n - 1) := by
    rw [← Nat.pow_succ']
    congr 1
    omega
  have hcast : ((2 : Int) ^ n) = (2 ^ n : Nat) := by push_cast; rfl
  rw [testBit_top (by omega) h, Int.bmod_def]
  simp only [decide_eq_true_eq, Nat.pos_of_ne_zero h0, true_and]
  split <;> split <;> omega

theorem signExtend_eq {count val : Nat} (h1 : 1 ≤ count) (h64 : count ≤ 64)
    (hval : val < 2 ^ count) : signExtend count val = (val : Int).bmod (2 ^ count) := by
  rw [signExtend, bmod_of_lt hval]
  by_cases h : count ≥ 64
  · obtain rfl : count = 64 := by omega
    rw [if_pos h, testBit_top h1 hval, toInt64]
    simp only [decide_eq_true_eq]
    split <;> split <;> omega
  have hle : 2 ^ count ≤ 2 ^ 63 := Nat.pow_le_pow_right (by omega) (by omega)
  rw [if_neg h]
  by_cases hs : val.testBit (count - 1)
  · rw [if_pos hs, if_pos ⟨h1, hs⟩, or_extension h64 hval, toInt64, if_neg (by omega),
      Nat.cast_add, Nat.cast_sub (by omega)]
    push_cast
    ring
  · rw [if_neg hs, if_neg (fun h => hs h.2), toInt64, if_pos (by omega)]

theorem reads_readSignedBits {n : Nat} (v : Nat) (hn : n ≤ 64) :
    Reads (readSignedBits n) p (msbBits n v) ((v : Int).bmod (2 ^ n)) := by
  unfold readSignedBits
  by_cases h0 : n = 0
  · subst h0
    have hzero : (v : Int).bmod (2 ^ 0) = 0 := by rw [Nat.pow_zero, Int.bmod_one]
    rw [hzero]
    exact reads_ret p 0
  · rw [if_neg h0]
    have h := (reads_readBits_msb p v hn).map (signExtend n)
    rw [signExtend_eq (by omega) hn (Nat.mod_lt _ (Nat.two_pow_pos n)), Int.natCast_mod,
      Int.emod_bmod] at h
    exact h

theorem toUint64_bmod (value : Int) {n : Nat} (hn : n ≤ 64) :
    (toUint64 value : Int).bmod (2 ^ n) = value.bmod (2 ^ n) := by
  have hnonneg : 0 ≤ value % 2 ^ 64 := Int.emod_nonneg _ (by decide)
  have hdvd : ((2 ^ n : Nat) : Int) ∣ 2 ^ 64 := by
    have := Nat.pow_dvd_pow 2 hn
    exact_mod_cast this
  rw [toUint64, Int.toNat_of_nonneg hnonneg, ← Int.emod_bmod, Int.emod_emod_of_dvd _ hdvd,
    Int.emod_bmod]

theorem reads_liftResult_ok {α : Type} (a : α) : Reads (liftResult (.ok a)) p [] a := reads_ret p a

theorem reads_readBcd {n v : Nat} (h1 : 1 ≤ n) (h16 : n ≤ 16) (hv : v < 10 ^ n) :
    Reads (readBcd (4 * n)) p (msbBits (4 * n) (bcdOf n v)) v := by
  unfold readBcd
  rw [if_neg (by omega), if_neg (by omega), if_neg (by omega)]
  have hlt := bcdOf_lt n v
  have hten : 10 ^ n ≤ 10 ^ 16 := Nat.pow_le_pow_right (by omega) h16
  have hunpack := unpackBcd_eq "read_bcd" (bcdOf n v) n 0 0 1 v
    (by simp [Nat.mod_eq_of_lt hlt]) (by omega) (by omega)
  have hread := reads_readBits_msb p (bcdOf n v) (by omega : 4 * n ≤ 64)
  rw [Nat.mod_eq_of_lt hlt] at hread
  have hdigits : Reads (liftResult (unpackBcd "read_bcd" (bcdOf n v) (4 * n / 4) 0 0 1))
      (p + (msbBits (4 * n) (bcdOf n v)).length) [] v := by
    rw [show 4 * n / 4 = n by omega, hunpack, Nat.mod_eq_of_lt hv, Nat.zero_add, Nat.one_mul]
    exact reads_ret _ v
  have h := hread.andThen
    (f := fun raw => liftResult (unpackBcd "read_bcd" raw (4 * n / 4) 0 0 1)) hdigits
  rwa [List.append_nil] at h

theorem reads_word (name : String) (p : Nat) {n value : Nat} (e : Endian)
    (h : value < 2 ^ (8 * n)) :
    Reads (readFixed name n e) p (bytePad p ++ bytesBits (wordBytes n value e)) value := by
  have hread := reads_readFixed name p (wordBytes n value e) e
  rwa [length_wordBytes, beVal_order_wordBytes e h] at hread

theorem reads_signed_raw {m mag : Nat} (hm : m ≤ 63) (hmag : mag < 2 ^ m) :
    ∃ raw, Reads (readBits (m + 1)) p (neg :: msbBits m mag) raw
      ∧ raw.testBit m = neg ∧ raw &&& (2 ^ m - 1) = mag := by
  refine ⟨if neg then mag ||| 2 ^ m else mag, ?_, ?_, ?_⟩
  · have h := reads_readBits_msb p (if neg then mag ||| 2 ^ m else mag) (by omega : m + 1 ≤ 64)
    rw [msbBits_sign neg hmag, Nat.mod_eq_of_lt] at h
    · exact h
    have hm1 : mag < 2 ^ (m + 1) := by omega
    cases neg with
    | false => exact hm1
    | true => exact Nat.or_lt_two_pow hm1 (Nat.pow_lt_pow_right (by omega) (by omega))
  · cases neg <;> simp [Nat.testBit_lt_two_pow hmag]
  · rw [Nat.and_two_pow_sub_one_eq_mod]
    cases neg with
    | false => exact Nat.mod_eq_of_lt hmag
    | true =>
      simp only [if_true]
      rw [Nat.or_mod_two_pow, Nat.mod_self, Nat.or_zero, Nat.mod_eq_of_lt hmag]

theorem reads_readSignMagnitude {m mag : Nat} (h1 : 1 ≤ m) (hm : m ≤ 63) (hmag : mag < 2 ^ m) :
    Reads (readSignMagnitude (m + 1)) p (neg :: msbBits m mag)
      (if neg then -(mag : Int) else mag) := by
  obtain ⟨raw, hread, hsign, hmask⟩ := reads_signed_raw p neg hm hmag
  have hle : 2 ^ m ≤ 2 ^ 63 := Nat.pow_le_pow_right (by omega) hm
  unfold readSignMagnitude
  rw [if_neg (by omega)]
  have h := hread.map fun raw =>
    if raw.testBit (m + 1 - 1) then -(toInt64 (raw &&& (2 ^ (m + 1 - 1) - 1)))
    else toInt64 (raw &&& (2 ^ (m + 1 - 1) - 1))
  simp only [Nat.add_sub_cancel, hsign, hmask, toInt64_of_lt (Nat.lt_of_lt_of_le hmag hle)] at h
  exact h

theorem reads_readBcdSigned {n v : Nat} (h1 : 1 ≤ n) (h15 : n ≤ 15) (hv : v < 10 ^ n) :
    Reads (readBcdSigned (4 * n + 1)) p (neg :: msbBits (4 * n) (bcdOf n v))
      (if neg then -(v : Int) else v) := by
  have hlt := bcdOf_lt n v
  obtain ⟨raw, hread, hsign, hmask⟩ := reads_signed_raw p neg (by omega : 4 * n ≤ 63) hlt
  have hten : 10 ^ n ≤ 10 ^ 15 := Nat.pow_le_pow_right (by omega) h15
  have hunpack := unpackBcd_eq "read_bcd_signed" (bcdOf n v) n 0 0 1 v
    (by simp [Nat.mod_eq_of_lt hlt]) (by omega) (by omega)
  rw [Nat.mod_eq_of_lt hv, Nat.zero_add, Nat.one_mul] at hunpack
  unfold readBcdSigned
  rw [if_neg (by omega), if_neg (by omega), if_neg (by omega)]
  have hrest := (reads_liftResult_ok (p + (neg :: msbBits (4 * n) (bcdOf n v)).length) v).map
    (fun result : Nat => if raw.testBit (4 * n) then -(result : Int) else (result : Int))
  have h := hread.andThen (f := fun raw => do
      let result ← liftResult (unpackBcd "read_bcd_signed" (raw &&& (2 ^ (4 * n) - 1)) n 0 0 1)
      pure (if raw.testBit (4 * n) then -(result : Int) else (result : Int)))
    (by rw [hmask, hunpack]; exact hrest)
  rw [hsign] at h
  simpa [Nat.add_sub_cancel] using h

theorem Reads.finish {α : Type} {m : ReadM α} {w : BitWriter} {bs out : List Bool} {a : α}
    (hread : Reads m bs.length out a) (hw : w.Holds (bs ++ out)) (herr : w.error = none)
    (hsmall : bs.length + out.length + 8 < 2 ^ 64) :
    ∃ bytes, w.finish.1 = .ok bytes ∧ m (seek bs.length { data := bytes })
        = (.ok a, seek (bs.length + out.length) { data := bytes }) := by
  obtain ⟨bytes, hfin, hbits⟩ := hw.finish herr
  have hlen := congrArg List.length hbits
  rw [length_bytesBits, List.length_append, length_bytePad, List.length_append] at hlen
  have hwf : (seek bs.length { data := bytes }).WF := by
    apply (wf_start (by omega : bytes.length < 2 ^ 61)).seek
    change bs.length ≤ 8 * bytes.length
    omega
  refine ⟨bytes, hfin, ?_⟩
  rw [hread _ hwf (position_seek _ _), seek_seek]
  change out <+: (bytesBits bytes).drop bs.length
  rw [hbits, List.append_assoc, List.drop_append_of_le_length (Nat.le_refl _), List.drop_length]
  exact List.prefix_append _ _

end BitReader

end Conduit.Io
