import Conduit.Bgen.FieldType
import Conduit.Bgen.Validator
import Conduit.Io.Encodings

/-!
# Round trip of one field

What an emitted write statement appends, and when the emitted read expression of the same field
gets the value back. The two emitters choose between whole-byte and bit-level calls by separate
case analyses. They agree except on signed fields of 16, 32 and 64 bits: there the read takes an
aligned word in the byte order of the field, while the write appends the bits most significant
first at the current position.
-/

namespace Conduit.Bgen

open Bits Io WriteStmt BitReader

/-! ## Conversions -/

theorem isInt64_asInt64 (value : Int) : IsInt64 (asInt64 value) := by
  have hlo := Int.le_bmod (x := value) (m := 2 ^ 64) (by decide)
  have hhi := Int.bmod_lt (x := value) (m := 2 ^ 64) (by decide)
  unfold IsInt64 asInt64
  omega

theorem asInt64_of_isInt64 {value : Int} (h : IsInt64 value) : asInt64 value = value := by
  obtain ⟨hlo, hhi⟩ := h
  exact Int.bmod_eq_of_le (by omega) (by omega)

theorem toUint64_asInt64 (value : Int) : toUint64 (asInt64 value) = toUint64 value := by
  have hmod : value.bmod (2 ^ 64) % 2 ^ 64 = value % 2 ^ 64 := Int.bmod_emod
  simp only [toUint64, asInt64, hmod]

theorem toUint64_of_nonneg {value : Int} (h0 : 0 ≤ value) (h : value < 2 ^ 64) :
    (toUint64 value : Int) = value := by
  unfold toUint64
  omega

theorem toUint64_lt {value : Int} {b : Nat} (h0 : 0 ≤ value) (h : value < b) :
    toUint64 value < b := by
  unfold toUint64
  omega

/-! ## What a write statement appends -/

/-- A magnitude of `m` bits with the sign above it. -/
def withSign (value : Int) (m magnitude : Nat) : Nat :=
  if value < 0 then magnitude ||| 2 ^ m else magnitude

theorem msbBits_withSign (value : Int) {m magnitude : Nat} (h : magnitude < 2 ^ m) :
    msbBits (m + 1) (withSign value m magnitude) = decide (value < 0) :: msbBits m magnitude := by
  have hsign := msbBits_sign (decide (value < 0)) h
  simp only [decide_eq_true_eq] at hsign
  exact hsign

namespace WriteStmt

/-- The bits that writing `value` at bit `p` appends. -/
def output (value : Int) (p : Nat) : WriteStmt → List Bool
  | writeBcd bits => msbBits bits (bcdOf (bits / 4) (toUint64 value))
  | writeBcdSigned bits =>
    let v := asInt64 value
    msbBits bits (withSign v (bits - 1) (bcdOf ((bits - 1) / 4) v.natAbs))
  | writeSignMagnitude bits =>
    let v := asInt64 value
    msbBits bits (withSign v (bits - 1) v.natAbs)
  | writeBits bits => msbBits bits (toUint64 value)
  | writeBoolBits bits => msbBits bits (toUint64 value % 2 ^ 8)
  | writeSignedBits bits => msbBits bits (toUint64 value)
  | writeWord bytes e => bytePad p ++ bytesBits (wordBytes bytes (toUint64 value) e)

/-- The number of bits that a write at bit `p` appends. -/
def size (p : Nat) : WriteStmt → Nat
  | writeBcd bits => bits
  | writeBcdSigned bits => bits
  | writeSignMagnitude bits => bits
  | writeBits bits => bits
  | writeBoolBits bits => bits
  | writeSignedBits bits => bits
  | writeWord bytes _ => (8 - p % 8) % 8 + 8 * bytes

@[simp] theorem length_output (s : WriteStmt) (value : Int) (p : Nat) :
    (s.output value p).length = s.size p := by
  cases s <;> simp [output, size]

theorem holds_exec {s : WriteStmt} {value : Int} {w : BitWriter} {bs : List Bool}
    (hw : w.Holds bs) (herr : w.error = none) (hok : (s.exec value w).error = none) :
    (s.exec value w).Holds (bs ++ s.output value bs.length) := by
  cases s with
  | writeBcd bits => exact (hw.writeBcd herr hok).2.2.2
  | writeBcdSigned bits =>
    obtain ⟨n, rfl, -, -, -, hout⟩ := hw.writeBcdSigned (isInt64_asInt64 value) herr hok
    rw [← msbBits_withSign _ (bcdOf_lt _ _)] at hout
    simpa [output, exec] using hout
  | writeSignMagnitude bits =>
    obtain ⟨m, rfl, -, hlt, hout⟩ := hw.writeSignMagnitude (isInt64_asInt64 value) herr hok
    rw [← msbBits_withSign _ hlt] at hout
    simpa [output, exec] using hout
  | writeBits bits => exact hw.writeBits hok
  | writeBoolBits bits => exact hw.writeBits hok
  | writeSignedBits bits =>
    simp only [exec, BitWriter.writeSignedBits_eq herr, toUint64_asInt64] at hok ⊢
    exact hw.writeBits hok
  | writeWord bytes e =>
    rw [output, ← List.append_assoc]
    exact hw.appendBytes _ herr

end WriteStmt

/-! ## What a field can hold -/

/-- The number of bytes of a floating-point field on the wire. -/
def floatBytes (bits : Nat) : Nat :=
  if bits = 16 then 2 else if bits ≤ 32 then 4 else if bits ≤ 48 then 6 else 8

namespace FieldTypeInfo

/-- The numbers an integer or boolean field of 1 to 64 bits can hold. -/
def PlainRepresentable (fti : FieldTypeInfo) (value : Int) : Prop :=
  1 ≤ fti.bits ∧ fti.bits ≤ 64 ∧
    if fti.isSigned then
      fti.isBool = false ∧ -(2 ^ (fti.bits - 1) : Nat) ≤ value ∧ value < (2 ^ (fti.bits - 1) : Nat)
    else 0 ≤ value ∧ value < (2 ^ fti.bits : Nat) ∧ (fti.isBool = true → value < 2)

/-- The numbers a field can hold: none if its width does not suit its encoding. -/
def Representable (fti : FieldTypeInfo) (value : Int) : Prop :=
  match fti.wireEncoding with
  | .bcd =>
    1 ≤ fti.bits ∧ fti.bits ≤ 64 ∧ fti.bits % 4 = 0 ∧ 0 ≤ value
      ∧ value < (10 ^ (fti.bits / 4) : Nat)
  | .bcdS =>
    5 ≤ fti.bits ∧ fti.bits ≤ 64 ∧ (fti.bits - 1) % 4 = 0 ∧ value.natAbs < 10 ^ ((fti.bits - 1) / 4)
  | .bnrS => 2 ≤ fti.bits ∧ fti.bits ≤ 64 ∧ value.natAbs < 2 ^ (fti.bits - 1)
  | _ =>
    if fti.isFloat then
      fti.bits ≤ 64 ∧ 0 ≤ value ∧ value < (2 ^ (8 * floatBytes fti.bits) : Nat)
    else fti.PlainRepresentable value

instance (fti : FieldTypeInfo) (value : Int) : Decidable (fti.PlainRepresentable value) := by
  unfold PlainRepresentable
  infer_instance

instance (fti : FieldTypeInfo) (value : Int) : Decidable (fti.Representable value) := by
  unfold Representable
  split <;> infer_instance

/-- The widths for which the emitters have word accesses in a byte order. -/
def IsWord (bits : Nat) : Prop := bits = 16 ∨ bits = 32 ∨ bits = 64

/-- A signed integer field whose width is that of a machine word. -/
def SignedWord (fti : FieldTypeInfo) : Prop :=
  (fti.wireEncoding = .standard ∨ fti.wireEncoding = .cb2 ∨ fti.wireEncoding = .bnr)
    ∧ fti.isFloat = false ∧ fti.isSigned = true ∧ IsWord fti.bits

/-- The accesses to a field at bit `p` differ: the position is inside a byte, where the read skips
to the next one, or the read reverses bytes that the write has not reversed. -/
def Mismatch (fti : FieldTypeInfo) (e : Endian) (byteAligned : Bool) (value : Int) (p : Nat) :
    Prop :=
  byteAligned = true ∧ fti.SignedWord ∧ (p % 8 ≠ 0 ∨ e = .little
      ∧ (beBytes (fti.bits / 8) (toUint64 value)).reverse ≠ beBytes (fti.bits / 8) (toUint64 value))

instance (fti : FieldTypeInfo) : Decidable fti.SignedWord := by
  unfold SignedWord IsWord
  infer_instance

instance (fti : FieldTypeInfo) (e : Endian) (byteAligned : Bool) (value : Int) (p : Nat) :
    Decidable (fti.Mismatch e byteAligned value p) := by
  unfold Mismatch
  infer_instance

end FieldTypeInfo

/-! ## What a read expression gets back -/

namespace ReadExpr

open BitReader (Reads)

variable {bits : Nat} {value : Int}

theorem reads_readBits (p : Nat) (h64 : bits ≤ 64) (h0 : 0 ≤ value)
    (hlt : value < (2 ^ bits : Nat)) :
    Reads (readBits bits).exec p (msbBits bits (toUint64 value)) value := by
  have hread := (reads_readBits_msb p (toUint64 value) h64).map fun n : Nat => (n : Int)
  have hle : 2 ^ bits ≤ 2 ^ 64 := Nat.pow_le_pow_right (by omega) h64
  rwa [Nat.mod_eq_of_lt (toUint64_lt h0 hlt), toUint64_of_nonneg h0 (by omega)] at hread

theorem bmod_of_range (h1 : 1 ≤ bits) (hlo : -(2 ^ (bits - 1) : Nat) ≤ value)
    (hhi : value < (2 ^ (bits - 1) : Nat)) : value.bmod (2 ^ bits) = value := by
  have hpow : 2 ^ bits = 2 * 2 ^ (bits - 1) := by
    rw [← Nat.pow_succ']
    congr 1
    omega
  apply Int.bmod_eq_of_le <;> omega

theorem reads_readSignedBits (p : Nat) (h1 : 1 ≤ bits) (h64 : bits ≤ 64)
    (hlo : -(2 ^ (bits - 1) : Nat) ≤ value) (hhi : value < (2 ^ (bits - 1) : Nat)) :
    Reads (readSignedBits bits).exec p (msbBits bits (toUint64 value)) value := by
  have hread := BitReader.reads_readSignedBits p (toUint64 value) h64
  rwa [BitReader.toUint64_bmod value h64, bmod_of_range h1 hlo hhi] at hread

theorem reads_readU8 (p : Nat) (h0 : 0 ≤ value) (hlt : value < 2 ^ 8) :
    Reads readU8.exec p (bytePad p ++ bytesBits (wordBytes 1 (toUint64 value) .big)) value := by
  have hnat : (UInt8.ofNat (toUint64 value)).toNat = toUint64 value := by
    rw [toNat_ofNat_byte, Nat.mod_eq_of_lt (toUint64_lt h0 hlt)]
  have hread := (BitReader.reads_readU8 p (UInt8.ofNat (toUint64 value))).map
    fun n : Nat => (n : Int)
  rw [hnat, toUint64_of_nonneg h0 (by omega)] at hread
  exact hread

theorem reads_readWord (call : String) (p : Nat) {n : Nat} (e : Endian) (h8 : n ≤ 8)
    (h0 : 0 ≤ value) (hlt : value < (2 ^ (8 * n) : Nat)) :
    Reads (readWord call n e).exec p (bytePad p ++ bytesBits (wordBytes n (toUint64 value) e))
      value := by
  have hread := (reads_word call p e (toUint64_lt h0 hlt)).map fun n : Nat => (n : Int)
  have hle : 2 ^ (8 * n) ≤ 2 ^ 64 := Nat.pow_le_pow_right (by omega) (by omega)
  rwa [toUint64_of_nonneg h0 (by omega)] at hread

theorem reads_readSignedWord (call : String) {p : Nat} (n u : Nat) (e : Endian) (hp : p % 8 = 0) :
    Reads (readSignedWord call n e).exec p (msbBits (8 * n) u)
      ((beVal (e.order (beBytes n u)) : Int).bmod (2 ^ (8 * n))) := by
  have hread := (reads_readFixed call p (beBytes n u) e).map
    fun v : Nat => (v : Int).bmod (2 ^ (8 * n))
  rw [bytePad_of_aligned hp, bytesBits_beBytes, length_beBytes] at hread
  exact hread

end ReadExpr

namespace FieldTypeInfo

open BitReader (Reads)

variable {fti : FieldTypeInfo} {e : Endian} {byteAligned : Bool} {value : Int} {p : Nat}
  {bits : Nat} {w : BitWriter}

theorem reads_signedWord (call : String) (hword : IsWord bits) (hp : p % 8 = 0)
    (horder : e.order (beBytes (bits / 8) (toUint64 value)) = beBytes (bits / 8) (toUint64 value))
    (hlo : -(2 ^ (bits - 1) : Nat) ≤ value) (hhi : value < (2 ^ (bits - 1) : Nat)) :
    Reads (ReadExpr.readSignedWord call (bits / 8) e).exec p (msbBits bits (toUint64 value))
      value := by
  have h8 : 8 * (bits / 8) = bits := by
    unfold IsWord at hword
    omega
  have h1 : 1 ≤ bits ∧ bits ≤ 64 := by
    unfold IsWord at hword
    omega
  have hread := ReadExpr.reads_readSignedWord call (bits / 8) (toUint64 value) e hp
  have hvalue : ((toUint64 value % 2 ^ bits : Nat) : Int).bmod (2 ^ bits) = value := by
    rw [Int.natCast_mod, Int.emod_bmod, toUint64_bmod value h1.2,
      ReadExpr.bmod_of_range h1.1 hlo hhi]
  rwa [horder, beVal_beBytes, h8, hvalue] at hread

theorem reads_plain_signed (hv : fti.PlainRepresentable value) (hs : fti.isSigned = true)
    (hagree : byteAligned = true → IsWord fti.bits → p % 8 = 0
      ∧ e.order (beBytes (fti.bits / 8) (toUint64 value))
        = beBytes (fti.bits / 8) (toUint64 value)) :
    Reads (plainReadExpr fti.bits fti.isSigned e byteAligned).exec p
      ((plainWriteStmt fti e byteAligned).output value p) value := by
  obtain ⟨h1, h64, hrange⟩ := hv
  rw [if_pos hs] at hrange
  obtain ⟨hbool, hlo, hhi⟩ := hrange
  have hwrite : plainWriteStmt fti e byteAligned = .writeSignedBits fti.bits := by
    simp [plainWriteStmt, hs, hbool]
  rw [hwrite]
  by_cases hword : byteAligned = true ∧ IsWord fti.bits
  · obtain ⟨hp, horder⟩ := hagree hword.1 hword.2
    have hread : plainReadExpr fti.bits fti.isSigned e byteAligned
        = .readSignedWord s!"read_u{fti.bits}" (fti.bits / 8) e := by
      have := hword.2
      unfold IsWord at this
      simp [plainReadExpr, hs, hword.1, this, or_assoc]
    rw [hread]
    exact reads_signedWord _ hword.2 hp horder hlo hhi
  · have hread : plainReadExpr fti.bits fti.isSigned e byteAligned = .readSignedBits fti.bits := by
      unfold IsWord at hword
      simp only [plainReadExpr, hs, Bool.and_eq_true, Bool.or_eq_true, beq_iff_eq, Bool.not_true,
        Bool.false_eq_true, and_false, if_false, if_true, or_assoc, if_neg hword]
    rw [hread]
    exact ReadExpr.reads_readSignedBits p h1 h64 hlo hhi

theorem reads_plain_unsigned (hv : fti.PlainRepresentable value) (hs : fti.isSigned = false) :
    Reads (plainReadExpr fti.bits fti.isSigned e byteAligned).exec p
      ((plainWriteStmt fti e byteAligned).output value p) value := by
  obtain ⟨h1, h64, hrange⟩ := hv
  simp only [hs, Bool.false_eq_true, if_false] at hrange
  obtain ⟨h0, hlt, hbool⟩ := hrange
  by_cases h8 : byteAligned = true ∧ fti.bits = 8
  · simp only [plainReadExpr, plainWriteStmt, hs, h8.1, h8.2]
    exact ReadExpr.reads_readU8 p h0 (by rw [h8.2] at hlt; exact hlt)
  by_cases hword : byteAligned = true ∧ IsWord fti.bits
  · have hbits := hword.2
    unfold IsWord at hbits
    have hbytes : 8 * (fti.bits / 8) = fti.bits := by omega
    have hne : fti.bits ≠ 8 := by omega
    have hread : plainReadExpr fti.bits fti.isSigned e byteAligned
        = .readWord s!"read_u{fti.bits}" (fti.bits / 8) e := by
      simp [plainReadExpr, hs, hword.1, hbits, or_assoc, hne]
    have hwrite : plainWriteStmt fti e byteAligned = .writeWord (fti.bits / 8) e := by
      simp [plainWriteStmt, hs, hword.1, hbits, or_assoc, hne]
    rw [hread, hwrite]
    exact ReadExpr.reads_readWord _ p e (by omega) h0 (by rw [hbytes]; exact hlt)
  unfold IsWord at hword
  have hread : plainReadExpr fti.bits fti.isSigned e byteAligned = .readBits fti.bits := by
    simp only [plainReadExpr, hs, Bool.and_eq_true, Bool.or_eq_true, beq_iff_eq, Bool.not_false,
      and_true, if_neg h8, or_assoc, if_neg hword, Bool.false_eq_true, if_false]
  have hout : (plainWriteStmt fti e byteAligned).output value p
      = msbBits fti.bits (toUint64 value) := by
    have hwrite : plainWriteStmt fti e byteAligned
        = if fti.isBool then .writeBoolBits fti.bits else .writeBits fti.bits := by
      simp only [plainWriteStmt, hs, Bool.and_eq_true, Bool.or_eq_true, beq_iff_eq,
        Bool.not_false, and_true, if_neg h8, or_assoc, if_neg hword, Bool.false_eq_true, if_false]
    cases hb : fti.isBool with
    | false => simp [hwrite, hb, output]
    | true =>
      have hsmall : toUint64 value < 2 := toUint64_lt h0 (hbool hb)
      simp [hwrite, hb, output, Nat.mod_eq_of_lt (by omega : toUint64 value < 256)]
  rw [hread, hout]
  exact ReadExpr.reads_readBits p h64 h0 hlt

theorem reads_plain (hwire : fti.wireEncoding = .standard ∨ fti.wireEncoding = .cb2
      ∨ fti.wireEncoding = .bnr) (hfloat : fti.isFloat = false)
    (hv : fti.PlainRepresentable value) (hm : ¬fti.Mismatch e byteAligned value p) :
    Reads (plainReadExpr fti.bits fti.isSigned e byteAligned).exec p
      ((plainWriteStmt fti e byteAligned).output value p) value := by
  cases hs : fti.isSigned with
  | false =>
    rw [← hs]
    exact reads_plain_unsigned hv hs
  | true =>
    rw [← hs]
    apply reads_plain_signed hv hs
    intro ha hword
    have hplace : ¬(p % 8 ≠ 0 ∨ e = .little ∧ (beBytes (fti.bits / 8) (toUint64 value)).reverse
          ≠ beBytes (fti.bits / 8) (toUint64 value)) :=
      fun h => hm ⟨ha, ⟨hwire, hfloat, hs, hword⟩, h⟩
    refine ⟨not_not.mp fun h => hplace (.inl h), ?_⟩
    cases e with
    | big => rfl
    | little => exact not_not.mp fun h => hplace (.inr ⟨rfl, h⟩)

theorem floatReadExpr_eq (h : bits ≤ 64) :
    ∃ call, floatReadExpr bits e = .readWord call (floatBytes bits) e := by
  unfold floatReadExpr floatBytes
  split
  · exact ⟨_, rfl⟩
  split
  · exact ⟨_, rfl⟩
  · split <;> exact ⟨_, rfl⟩

theorem floatWriteStmt_eq (h : bits ≤ 64) :
    floatWriteStmt bits e = .writeWord (floatBytes bits) e := by
  unfold floatWriteStmt floatBytes
  split
  · rfl
  split
  · rfl
  · split <;> rfl

theorem floatBytes_le (bits : Nat) : floatBytes bits ≤ 8 := by
  unfold floatBytes
  split
  · omega
  split
  · omega
  · split <;> omega

theorem reads_float (hbits : fti.bits ≤ 64) (h0 : 0 ≤ value)
    (hlt : value < (2 ^ (8 * floatBytes fti.bits) : Nat)) :
    Reads (floatReadExpr fti.bits e).exec p ((floatWriteStmt fti.bits e).output value p) value := by
  obtain ⟨call, hread⟩ := floatReadExpr_eq (e := e) hbits
  rw [hread, floatWriteStmt_eq hbits]
  exact ReadExpr.reads_readWord call p e (floatBytes_le _) h0 hlt

theorem reads_bcd (h1 : 1 ≤ bits) (h64 : bits ≤ 64) (h4 : bits % 4 = 0) (h0 : 0 ≤ value)
    (hlt : value < (10 ^ (bits / 4) : Nat)) :
    Reads (ReadExpr.readBcd bits).exec p ((writeBcd bits).output value p) value := by
  obtain ⟨n, rfl⟩ : ∃ n, bits = 4 * n := ⟨bits / 4, by omega⟩
  rw [output, show 4 * n / 4 = n by omega] at *
  have hten : 10 ^ n ≤ 10 ^ 16 := Nat.pow_le_pow_right (by omega) (by omega)
  have hread := (reads_readBcd p (by omega) (by omega) (toUint64_lt h0 hlt)).map
    fun n : Nat => (n : Int)
  rwa [toUint64_of_nonneg h0 (by omega)] at hread

theorem reads_bcdSigned (h5 : 5 ≤ bits) (h64 : bits ≤ 64) (h4 : (bits - 1) % 4 = 0)
    (hlt : value.natAbs < 10 ^ ((bits - 1) / 4)) :
    Reads (ReadExpr.readBcdSigned bits).exec p ((writeBcdSigned bits).output value p) value := by
  obtain ⟨n, rfl⟩ : ∃ n, bits = 4 * n + 1 := ⟨(bits - 1) / 4, by omega⟩
  rw [show (4 * n + 1 - 1) / 4 = n by omega] at hlt
  have hten : 10 ^ n ≤ 10 ^ 15 := Nat.pow_le_pow_right (by omega) (by omega)
  have hint : IsInt64 value := by
    unfold IsInt64
    omega
  have hread := reads_readBcdSigned p (decide (value < 0)) (by omega) (by omega) hlt
  rw [natAbs_sign, ← msbBits_withSign value (bcdOf_lt _ _)] at hread
  simp only [output, asInt64_of_isInt64 hint, Nat.add_sub_cancel,
    show 4 * n / 4 = n by omega]
  exact hread

theorem reads_signMagnitude (h2 : 2 ≤ bits) (h64 : bits ≤ 64)
    (hlt : value.natAbs < 2 ^ (bits - 1)) : Reads (ReadExpr.readSignMagnitude bits).exec p
      ((writeSignMagnitude bits).output value p) value := by
  obtain ⟨m, rfl⟩ : ∃ m, bits = m + 1 := ⟨bits - 1, by omega⟩
  rw [Nat.add_sub_cancel] at hlt
  have hle : 2 ^ m ≤ 2 ^ 63 := Nat.pow_le_pow_right (by omega) (by omega)
  have hint : IsInt64 value := by
    unfold IsInt64
    omega
  have hread := reads_readSignMagnitude p (decide (value < 0)) (by omega) (by omega) hlt
  rw [natAbs_sign, ← msbBits_withSign value hlt] at hread
  simp only [output, asInt64_of_isInt64 hint, Nat.add_sub_cancel]
  exact hread

theorem reads_emitted (hv : fti.Representable value) (hm : ¬fti.Mismatch e byteAligned value p) :
    ∃ expr, emitReadExpr fti e byteAligned = some expr
      ∧ Reads expr.exec p ((emitWriteStmt fti e byteAligned).output value p) value := by
  have hplain (hwire : fti.wireEncoding = .standard ∨ fti.wireEncoding = .cb2
        ∨ fti.wireEncoding = .bnr)
      (hv : if fti.isFloat then
          fti.bits ≤ 64 ∧ 0 ≤ value ∧ value < (2 ^ (8 * floatBytes fti.bits) : Nat)
        else fti.PlainRepresentable value) :
      ∃ expr, (if fti.isFloat then some (floatReadExpr fti.bits e)
          else if 0 < fti.bits ∧ fti.bits ≤ 64 then
            some (plainReadExpr fti.bits fti.isSigned e byteAligned)
          else none) = some expr
        ∧ Reads expr.exec p ((if fti.isFloat then floatWriteStmt fti.bits e
            else plainWriteStmt fti e byteAligned).output value p) value := by
    cases hf : fti.isFloat with
    | true =>
      simp only [hf, if_true] at hv ⊢
      exact ⟨_, rfl, reads_float hv.1 hv.2.1 hv.2.2⟩
    | false =>
      simp only [hf, Bool.false_eq_true, if_false] at hv ⊢
      exact ⟨_, if_pos ⟨hv.1, hv.2.1⟩, reads_plain hwire hf hv hm⟩
  unfold Representable at hv
  unfold emitReadExpr emitWriteStmt
  cases hw : fti.wireEncoding <;> simp only [hw] at hv ⊢
  case bcd => exact ⟨_, rfl, reads_bcd hv.1 hv.2.1 hv.2.2.1 hv.2.2.2.1 hv.2.2.2.2⟩
  case bcdS => exact ⟨_, rfl, reads_bcdSigned hv.1 hv.2.1 hv.2.2.1 hv.2.2.2⟩
  case bnrS => exact ⟨_, rfl, reads_signMagnitude hv.1 hv.2.1 hv.2.2⟩
  case standard => exact hplain (.inl hw) hv
  case cb2 => exact hplain (.inr (.inl hw)) hv
  case bnr => exact hplain (.inr (.inr hw)) hv

/-! ## The round trip -/

/-- Executing the emitted read on the finished bytes, from the bit where the emitted write began,
returns the value and stops at the bit where the write stopped. -/
def RoundTrips (fti : FieldTypeInfo) (e : Endian) (byteAligned : Bool) (value : Int)
    (w : BitWriter) : Prop :=
  let w' := (emitWriteStmt fti e byteAligned).exec value w
  ∃ bytes expr r, w'.finish.1 = .ok bytes ∧ emitReadExpr fti e byteAligned = some expr
    ∧ expr.exec (seek w.bitPos { data := bytes }) = (.ok value, r)
    ∧ r.position = w'.bitPos

theorem Representable.bits_le (hv : fti.Representable value) : fti.bits ≤ 64 := by
  unfold Representable PlainRepresentable at hv
  repeat' split at hv
  all_goals omega

theorem error_exec_emitted (e : Endian) (byteAligned : Bool) (hv : fti.Representable value)
    (herr : w.error = none) (hpos : w.bitPos + 71 < 2 ^ 64) :
    ((emitWriteStmt fti e byteAligned).exec value w).error = none := by
  have h64 := hv.bits_le
  have hplain : ((if fti.isFloat then floatWriteStmt fti.bits e
      else plainWriteStmt fti e byteAligned).exec value w).error = none := by
    rw [floatWriteStmt_eq h64]
    unfold plainWriteStmt
    repeat' split
    · exact (BitWriter.error_appendBytes _ w).trans herr
    · exact (BitWriter.error_appendBytes _ w).trans herr
    · exact (BitWriter.error_appendBytes _ w).trans herr
    · exact BitWriter.error_writeBits herr h64 (by omega)
    · simp only [exec, BitWriter.writeSignedBits_eq herr]
      exact BitWriter.error_writeBits herr h64 (by omega)
    · exact BitWriter.error_writeBits herr h64 (by omega)
  unfold Representable at hv
  unfold emitWriteStmt
  cases hw : fti.wireEncoding <;> simp only [hw] at hv ⊢
  case bcd =>
    obtain ⟨h1, h64, h4, h0, hlt⟩ := hv
    exact BitWriter.error_writeBcd herr h4 h64 (toUint64_lt h0 hlt) (by omega)
  case bcdS =>
    obtain ⟨h5, h64, h4, hlt⟩ := hv
    have hten : 10 ^ ((fti.bits - 1) / 4) ≤ 10 ^ 15 := Nat.pow_le_pow_right (by omega) (by omega)
    have hint : IsInt64 value := by
      unfold IsInt64
      omega
    rw [exec, asInt64_of_isInt64 hint]
    exact BitWriter.error_writeBcdSigned herr hint h5 h4 h64 hlt (by omega)
  case bnrS =>
    obtain ⟨h2, h64, hlt⟩ := hv
    have hle : 2 ^ (fti.bits - 1) ≤ 2 ^ 63 := Nat.pow_le_pow_right (by omega) (by omega)
    have hint : IsInt64 value := by
      unfold IsInt64
      omega
    rw [exec, asInt64_of_isInt64 hint]
    exact BitWriter.error_writeSignMagnitude herr hint h2 h64 hlt (by omega)
  all_goals exact hplain

theorem size_emitted_le (e : Endian) (byteAligned : Bool) (p : Nat) (hv : fti.Representable value) :
    (emitWriteStmt fti e byteAligned).size p ≤ 71 := by
  have h64 := hv.bits_le
  have hbytes := floatBytes_le fti.bits
  simp only [emitWriteStmt, floatWriteStmt_eq h64, plainWriteStmt]
  repeat' split
  all_goals
    rw [size]
    omega

theorem SignedWord.plain (hw : fti.SignedWord) (hv : fti.Representable value) :
    fti.PlainRepresentable value := by
  obtain ⟨hwire, hfloat, -, -⟩ := hw
  unfold Representable at hv
  rcases hwire with h | h | h <;> simpa [h, hfloat] using hv

theorem SignedWord.bytes (hw : fti.SignedWord) : 8 * (fti.bits / 8) = fti.bits := by
  have := hw.2.2.2
  unfold IsWord at this
  omega

theorem SignedWord.emitted (hw : fti.SignedWord) (hv : fti.Representable value) :
    (∃ call, emitReadExpr fti e = some (.readSignedWord call (fti.bits / 8) e))
      ∧ emitWriteStmt fti e = .writeSignedBits fti.bits := by
  obtain ⟨h1, h64, hrange⟩ := hw.plain hv
  obtain ⟨hwire, hfloat, hs, hword⟩ := hw
  rw [if_pos hs] at hrange
  have hwrite : plainWriteStmt fti e true = .writeSignedBits fti.bits := by
    simp [plainWriteStmt, hs, hrange.1]
  have hread : plainReadExpr fti.bits fti.isSigned e true
      = .readSignedWord s!"read_u{fti.bits}" (fti.bits / 8) e := by
    unfold IsWord at hword
    simp [plainReadExpr, hs, hword, or_assoc]
  have hpos : 0 < fti.bits ∧ fti.bits ≤ 64 := ⟨h1, h64⟩
  constructor
  · refine ⟨s!"read_u{fti.bits}", ?_⟩
    rw [← hread]
    rcases hwire with h | h | h <;> simp [emitReadExpr, h, hfloat, hpos]
  · rw [← hwrite]
    rcases hwire with h | h | h <;> simp [emitWriteStmt, h, hfloat]

theorem reverse_beBytes_of_bmod {n u : Nat}
    (h : (beVal (beBytes n u).reverse : Int).bmod (2 ^ (8 * n))
      = (u : Int).bmod (2 ^ (8 * n))) : (beBytes n u).reverse = beBytes n u := by
  have hemod := congrArg (· % ((2 ^ (8 * n) : Nat) : Int)) h
  simp only [Int.bmod_emod] at hemod
  have hlt := beVal_lt (beBytes n u).reverse
  rw [List.length_reverse, length_beBytes] at hlt
  have hval : beVal (beBytes n u).reverse = u % 2 ^ (8 * n) := by
    rw [← Int.natCast_mod, Nat.mod_eq_of_lt hlt] at hemod
    exact_mod_cast hemod
  have hback := beBytes_beVal (beBytes n u).reverse
  rw [List.length_reverse, length_beBytes, hval, ← beVal_beBytes n u] at hback
  have hsame := beBytes_beVal (beBytes n u)
  rw [length_beBytes] at hsame
  rw [← hback, hsame]

section

variable {bs : List Bool} (hw : w.Holds bs) (herr : w.error = none) (hsmall : bs.length < 2 ^ 63)
  (hv : fti.Representable value) (hsw : fti.SignedWord)

include hw herr hsmall hv hsw

theorem not_roundTrips_of_unaligned (hp : bs.length % 8 ≠ 0) : ¬RoundTrips fti e true value w := by
  obtain ⟨⟨call, hread⟩, hwrite⟩ := hsw.emitted (e := e) hv
  obtain ⟨h1, h64, -⟩ := hsw.plain hv
  have hok := error_exec_emitted e true hv herr (by rw [hw.1]; omega)
  have hout := holds_exec hw herr hok
  rintro ⟨bytes, expr, r, hfin, hexpr, hexec, hpos⟩
  rw [hread] at hexpr
  cases hexpr
  obtain ⟨bytes', hfin', hbits⟩ := hout.finish hok
  obtain rfl : bytes' = bytes := by
    rw [hfin'] at hfin
    exact Except.ok.inj hfin
  have hlen := congrArg List.length hbits
  rw [hout.1, List.length_append, length_output, hwrite, size] at hpos
  rw [length_bytesBits, List.length_append, length_bytePad, List.length_append,
    length_output, hwrite, size] at hlen
  obtain ⟨v, r', hword, hret⟩ := ReadM.bind_eq_ok hexec
  obtain rfl : r' = r := congrArg Prod.snd hret
  have hwf : (seek w.bitPos { data := bytes' }).WF := by
    apply (wf_start (by omega : bytes'.length < 2 ^ 61)).seek
    rw [hw.1]
    change bs.length ≤ 8 * bytes'.length
    omega
  have hstop := position_of_readFixed hwf (by omega) hword
  have hbytes := hsw.bytes
  omega

theorem not_roundTrips_of_reversed (hp : bs.length % 8 = 0)
    (hne : (beBytes (fti.bits / 8) (toUint64 value)).reverse
      ≠ beBytes (fti.bits / 8) (toUint64 value)) : ¬RoundTrips fti .little true value w := by
  obtain ⟨⟨call, hread⟩, hwrite⟩ := hsw.emitted (e := .little) hv
  obtain ⟨h1, h64, hrange⟩ := hsw.plain hv
  rw [if_pos hsw.2.2.1] at hrange
  have hbytes := hsw.bytes
  have hok := error_exec_emitted .little true hv herr (by rw [hw.1]; omega)
  have hout := holds_exec hw herr hok
  have hword := ReadExpr.reads_readSignedWord call (fti.bits / 8) (toUint64 value) .little hp
  rw [hbytes] at hword
  rintro ⟨bytes, expr, r, hfin, hexpr, hexec, -⟩
  rw [hread] at hexpr
  cases hexpr
  rw [hwrite] at hout
  rw [hwrite] at hfin hok
  obtain ⟨bytes', hfin', hexec'⟩ := hword.finish hout hok (by rw [length_msbBits]; omega)
  obtain rfl : bytes' = bytes := by
    rw [hfin'] at hfin
    exact Except.ok.inj hfin
  rw [hw.1, hexec'] at hexec
  have hvalue := Except.ok.inj (congrArg Prod.fst hexec)
  apply hne
  apply reverse_beBytes_of_bmod
  rw [hbytes]
  exact hvalue.trans (by
    rw [toUint64_bmod value h64, ReadExpr.bmod_of_range h1 hrange.2.1 hrange.2.2])

end

/-- A number that a field can hold comes back from the emitted accesses exactly when these agree
on where and in which order its bytes are. -/
theorem roundTrips_iff {w : BitWriter} {bs : List Bool} (hw : w.Holds bs) (herr : w.error = none)
    (hsmall : bs.length < 2 ^ 63) (hv : fti.Representable value) :
    RoundTrips fti e byteAligned value w ↔ ¬fti.Mismatch e byteAligned value bs.length := by
  constructor
  · rintro htrip ⟨rfl, hsw, hplace⟩
    by_cases hp : bs.length % 8 = 0
    · obtain ⟨rfl, hne⟩ := hplace.resolve_left (not_not.mpr hp)
      exact not_roundTrips_of_reversed hw herr hsmall hv hsw hp hne htrip
    · exact not_roundTrips_of_unaligned hw herr hsmall hv hsw hp htrip
  intro hm
  have hok := error_exec_emitted e byteAligned hv herr (by rw [hw.1]; omega)
  have hout := holds_exec hw herr hok
  obtain ⟨expr, hexpr, hread⟩ := reads_emitted hv hm
  have hsize := size_emitted_le e byteAligned bs.length hv
  obtain ⟨bytes, hfin, hexec⟩ := hread.finish hout hok (by rw [length_output]; omega)
  rw [← hw.1] at hexec
  refine ⟨bytes, expr, _, hfin, hexpr, hexec, ?_⟩
  rw [position_seek, hout.1, List.length_append, hw.1]

/-- A negative number in a big-endian signed word comes back. -/
theorem roundTrips_iff_bigEndianWord :
    RoundTrips { bits := 16, isSigned := true } .big true (-2) {} :=
  (roundTrips_iff BitWriter.holds_empty rfl (by decide) (by decide)).mpr (by decide)

end FieldTypeInfo

/-- A message with one little-endian signed field of 16 bits. -/
def temperatureField : Field := { name := "value", typeRef := "Temperature", endian := .little }

def temperatureProtocol : Protocol :=
  { name := "weather"
    version := "1"
    types := [{ name := "Temperature", base := .int, bits := 16, endian := .little }]
    messages := [{ name := "Reading", children := [.field temperatureField] }] }

/-- The field of an accepted protocol that holds 1 is read as 256. -/
theorem roundTrips_iff_fails :
    let fti := resolveFieldType temperatureField (TypeIndex.ofProtocol temperatureProtocol)
    Validator.Accepted temperatureProtocol ∧ fti.Representable 1
      ∧ ¬fti.RoundTrips temperatureField.endian true 1 {} := by
  refine ⟨by decide, by decide, ?_⟩
  apply FieldTypeInfo.not_roundTrips_of_reversed BitWriter.holds_empty rfl
  · decide
  · decide
  · decide
  · decide
  · decide

end Conduit.Bgen
