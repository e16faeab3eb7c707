import Mathlib.Data.Nat.Digits.Lemmas
import Conduit.Ports.CppReads

/-!
# The numbers and patterns of the decimal and signed codes

At every width the write of a number reports an error exactly if the number does not fit, the read
takes exactly the patterns of the code, and the number of a pattern is written as that pattern, the
negative zero apart.
-/

namespace Conduit.Io

open Bits Ports BitReader BitWriter

/-- A write and a read of the same code, the widths that both accept, the numbers of their type,
and what the code is for: the numbers that fit, the patterns and the number of a pattern. -/
structure NumberCode (α : Type) where
  write : α → Nat → BitWriter → BitWriter
  read : Nat → ReadM α
  Width : Nat → Prop
  InRange : α → Prop
  Fits : Nat → α → Prop
  Pattern : Nat → Nat → Prop
  value : Nat → Nat → α
  NegativeZero : Nat → Nat → Prop

/-- `bit_writer.cpp:108-133` and `bit_reader.cpp:67-94`. -/
def bcdCode : NumberCode Nat where
  write := writeBcd
  read := readBcd
  Width bits := bits % 4 = 0 ∧ bits ≤ 64
  InRange value := value < 2 ^ 64
  Fits bits value := bits = 0 ∨ (Nat.digits 10 value).length ≤ bits / 4
  Pattern bits raw := IsDecimal (bits / 4) raw
  value bits raw := decimalVal (bits / 4) raw
  NegativeZero _ _ := False

/-- `bit_writer.cpp:135-167` and `bit_reader.cpp:96-130`. -/
def bcdSignedCode : NumberCode Int where
  write := writeBcdSigned
  read := readBcdSigned
  Width bits := 5 ≤ bits ∧ bits ≤ 61 ∧ (bits - 1) % 4 = 0
  InRange := IsInt64
  Fits bits value := (Nat.digits 10 value.natAbs).length ≤ (bits - 1) / 4
  Pattern bits raw := IsDecimal ((bits - 1) / 4) (raw % 2 ^ (bits - 1))
  value bits raw := signed bits (decimalVal ((bits - 1) / 4)) raw
  NegativeZero bits raw := raw = 2 ^ (bits - 1)

/-- `bit_writer.cpp:169-188` and `bit_reader.cpp:132-144`. -/
def signMagnitudeCode : NumberCode Int where
  write := writeSignMagnitude
  read := readSignMagnitude
  Width bits := 2 ≤ bits ∧ bits ≤ 64
  InRange := IsInt64
  Fits bits value := value.natAbs ≤ 2 ^ (bits - 1) - 1
  Pattern _ _ := True
  value bits raw := signed bits id raw
  NegativeZero bits raw := raw = 2 ^ (bits - 1)

/-- There is room for `bits` more bits in a writer without an error. -/
def Room (w : BitWriter) (bits : Nat) : Prop := w.error = none ∧ w.bitPos + bits + 7 < 2 ^ 64

/-- `reports` is about the write, `accepts` about the read at bit `p` of a buffer that has the bits
and whose size in bits is a `size_t`, and `reproduces` about a write after a read. -/
structure NumberCode.Exact {α : Type} (code : NumberCode α) : Prop where
  reports : ∀ {w bits value}, code.Width bits → code.InRange value → Room w bits →
    ((code.write value bits w).error ≠ none ↔ ¬code.Fits bits value)
  accepts : ∀ {data : List UInt8} {p bits result}, code.Width bits → data.length < 2 ^ 61 →
    p + bits ≤ 8 * data.length → (ofReadM (code.read bits) (cppAt data p) = some result ↔
      code.Pattern bits (valueAt data p bits)
        ∧ (code.value bits (valueAt data p bits), cppAt data (p + bits)) = result)
  reproduces : ∀ {pattern bits w bs}, code.Width bits → pattern.length = bits →
    code.Pattern bits (bitsVal pattern) → w.Holds bs → Room w bits →
      (code.write (code.value bits (bitsVal pattern)) bits w).error = none
      ∧ ((code.write (code.value bits (bitsVal pattern)) bits w).Holds (bs ++ pattern) ↔
        ¬code.NegativeZero bits (bitsVal pattern))

theorem digits_le_iff (value n : Nat) : (Nat.digits 10 value).length ≤ n ↔ value < 10 ^ n :=
  Nat.digits_length_le_iff (by decide) value

theorem bcdCode_exact : bcdCode.Exact where
  reports := by
    rintro w bits value ⟨h4, h64⟩ - ⟨herr, hroom⟩
    simp only [bcdCode, digits_le_iff]
    refine not_congr ⟨fun hok => or_iff_not_imp_left.mpr (writeBcd_of_ok herr hok).2.2.1, ?_⟩
    rintro (rfl | hfit)
    · simp [writeBcd, herr]
    · exact error_writeBcd herr h4 h64 hfit hroom
  accepts := by
    rintro data p bits result ⟨h4, h64⟩ hdata hahead
    by_cases h0 : bits = 0
    · subst h0
      show some _ = some result ↔ True ∧ _ = result
      simp
      rfl
    · have hread := cpp_readBcd hdata (by omega : p ≤ 8 * data.length) (Nat.pos_of_ne_zero h0)
      simp [bcdCode, hread, h4, h64, hahead]
  reproduces := by
    rintro pattern bits w bs ⟨h4, h64⟩ rfl hdecimal hw ⟨herr, hroom⟩
    have hok := error_writeBcd herr h4 h64 (decimalVal_lt hdecimal) hroom
    have hout := (hw.writeBcd herr hok).2.2.2
    rw [bcdOf_decimalVal hdecimal, msbBits_mod _ (by omega), msbBits_bitsVal] at hout
    exact ⟨hok, iff_of_true hout id⟩

/-! ## Signs -/

variable {m raw mag : Nat} {w : BitWriter} {bs pattern : List Bool} {magnitude : Nat → Nat}

theorem natAbs_signed (bits : Nat) (magnitude : Nat → Nat) (raw : Nat) :
    (signed bits magnitude raw).natAbs = magnitude (raw % 2 ^ (bits - 1)) := by
  unfold signed
  split <;> simp

theorem isInt64_of_natAbs {value : Int} (h : value.natAbs < 2 ^ 63) : IsInt64 value := by
  unfold IsInt64
  omega

theorem Holds.iff_eq {as : List Bool} (h : w.Holds as) : w.Holds bs ↔ as = bs := by
  constructor
  · intro h'
    exact List.append_inj_left (h.2.symm.trans h'.2) (h.1.symm.trans h'.1)
  · rintro rfl
    exact h

/-- The sign is lost for a zero only. -/
theorem sign_kept_iff (hraw : raw < 2 ^ (m + 1))
    (hzero : magnitude (raw % 2 ^ m) = 0 ↔ raw % 2 ^ m = 0) :
    decide (signed (m + 1) magnitude raw < 0) = raw.testBit m ↔ raw ≠ 2 ^ m := by
  have htop : raw.testBit m = decide (2 ^ m ≤ raw) := testBit_top (Nat.le_add_left 1 m) hraw
  rw [Nat.pow_succ] at hraw
  by_cases hsign : 2 ^ m ≤ raw
  · have hmod : raw % 2 ^ m = raw - 2 ^ m := by
      rw [Nat.mod_eq_sub_mod hsign, Nat.mod_eq_of_lt (by omega)]
    rw [hmod] at hzero
    simp [signed, htop, hsign, hmod]
    omega
  · simp [signed, htop, hsign]
    omega

theorem holds_signed_iff (hlen : pattern.length = m + 1)
    (hzero : magnitude (bitsVal pattern % 2 ^ m) = 0 ↔ bitsVal pattern % 2 ^ m = 0)
    (h : w.Holds (bs ++ (decide (signed (m + 1) magnitude (bitsVal pattern) < 0)
      :: msbBits m (bitsVal pattern % 2 ^ m)))) :
    w.Holds (bs ++ pattern) ↔ bitsVal pattern ≠ 2 ^ m := by
  have hraw := bitsVal_lt pattern
  have hbits := msbBits_bitsVal pattern
  rw [hlen] at hraw hbits
  generalize bitsVal pattern = raw at *
  rw [← hbits, Holds.iff_eq h, List.append_cancel_left_eq, msbBits_mod _ le_rfl, msbBits,
    List.cons.injEq, ← sign_kept_iff hraw hzero]
  exact and_iff_left rfl

theorem decimalVal_eq_zero_iff (k raw : Nat) : decimalVal k raw = 0 ↔ raw % 2 ^ (4 * k) = 0 := by
  induction k generalizing raw with
  | zero => simp [decimalVal, Nat.mod_one]
  | succ k ih =>
    have hrest := ih (raw / 16)
    rw [decimalVal, Nat.mul_succ, Nat.add_comm (4 * k) 4, Nat.pow_add, Nat.mod_mul,
      show 2 ^ 4 = 16 by rfl]
    omega

theorem bcdSignedCode_exact : bcdSignedCode.Exact where
  reports := by
    rintro w bits value ⟨h5, h61, h4⟩ hint ⟨herr, hroom⟩
    simp only [bcdSignedCode, digits_le_iff]
    refine not_congr ⟨fun hok => ?_, ?_⟩
    · obtain ⟨n, rfl, -, -, hfit, -⟩ := writeBcdSigned_of_ok hint herr hok
      rwa [show (4 * n + 1 - 1) / 4 = n by omega]
    · exact fun hfit => error_writeBcdSigned herr hint h5 h4 (by omega) hfit hroom
  accepts := by
    rintro data p bits result ⟨h5, h61, h4⟩ hdata hahead
    simp [bcdSignedCode, cpp_readBcdSigned hdata (by omega : p ≤ 8 * data.length), hahead, h5, h61,
      h4, ← valueAt_rest (by omega) hahead]
  reproduces := by
    rintro pattern bits w bs ⟨h5, h61, h4⟩ hlen hdecimal hw ⟨herr, hroom⟩
    obtain ⟨n, rfl⟩ : ∃ n, bits = 4 * n + 1 := ⟨(bits - 1) / 4, by omega⟩
    simp only [bcdSignedCode, Nat.add_sub_cancel, show 4 * n / 4 = n by omega] at hdecimal ⊢
    have habs : _ = decimalVal n (bitsVal pattern % 2 ^ (4 * n)) :=
      natAbs_signed (4 * n + 1) (decimalVal n) (bitsVal pattern)
    have hlt := habs.trans_lt (decimalVal_lt hdecimal)
    have hten : 10 ^ n ≤ 10 ^ 15 := Nat.pow_le_pow_right (by decide) (by omega)
    have hint := isInt64_of_natAbs (hlt.trans_le (hten.trans (by decide)))
    have hok := error_writeBcdSigned herr hint h5 h4 (by omega)
      (by rwa [Nat.add_sub_cancel, show 4 * n / 4 = n by omega]) hroom
    refine ⟨hok, ?_⟩
    obtain ⟨n', hbits, -, -, -, hout⟩ := hw.writeBcdSigned hint herr hok
    obtain rfl : n' = n := by omega
    rw [habs, bcdOf_decimalVal hdecimal, Nat.mod_mod] at hout
    exact holds_signed_iff hlen (by rw [decimalVal_eq_zero_iff, Nat.mod_mod]) hout

theorem signMagnitudeCode_exact : signMagnitudeCode.Exact where
  reports := by
    rintro w bits value ⟨h2, h64⟩ hint ⟨herr, hroom⟩
    refine not_congr ⟨fun hok => ?_, fun hfit => ?_⟩
    · obtain ⟨m, rfl, -, hfit, -⟩ := writeSignMagnitude_of_ok hint herr hok
      exact Nat.le_sub_one_of_lt hfit
    · have hlt := Nat.lt_of_le_sub_one (Nat.two_pow_pos (bits - 1)) hfit
      exact error_writeSignMagnitude herr hint h2 h64 hlt hroom
  accepts := by
    rintro data p bits result ⟨h2, h64⟩ hdata hahead
    simp [signMagnitudeCode, cpp_readSignMagnitude hdata (by omega : p ≤ 8 * data.length), hahead,
      h2, h64]
  reproduces := by
    rintro pattern bits w bs ⟨h2, h64⟩ hlen - hw ⟨herr, hroom⟩
    have habs := natAbs_signed bits id (bitsVal pattern)
    have hlt := habs.trans_lt (Nat.mod_lt _ (Nat.two_pow_pos _))
    have htop : 2 ^ (bits - 1) ≤ 2 ^ 63 := Nat.pow_le_pow_right (by decide) (by omega)
    have hint := isInt64_of_natAbs (hlt.trans_le htop)
    have hok := error_writeSignMagnitude herr hint h2 h64 hlt hroom
    refine ⟨hok, ?_⟩
    obtain ⟨m, rfl, -, -, hout⟩ := hw.writeSignMagnitude hint herr hok
    rw [habs] at hout
    exact holds_signed_iff hlen Iff.rfl hout

/-- The three codes are exact. A decimal number of width zero is written without an error, whatever
it is. -/
theorem codes_exact : bcdCode.Exact ∧ bcdSignedCode.Exact ∧ signMagnitudeCode.Exact :=
  ⟨bcdCode_exact, bcdSignedCode_exact, signMagnitudeCode_exact⟩

/-- The width zero is accepted and has no nibbles, but `write_bcd` takes a number of one digit. -/
theorem writeBcd_five_width_zero :
    bcdCode.Width 0 ∧ (writeBcd 5 0 {}).error = none ∧ 0 / 4 < (Nat.digits 10 5).length := by
  simp [bcdCode, writeBcd]

end Conduit.Io
