import Conduit.Bgen.Charset
import Conduit.Bgen.TextPlaces
import Conduit.Io.RoundTrip

/-!
# Packed texts

A text with `char-bits` is written character by character, each in fewer than eight bits and
without regard to bytes. The same loops are printed for plain fields, for fields of an FX block and
for string types.
-/

namespace Conduit.Bgen

open Bits Io BitWriter BitReader DecodeM DecodeCalls List
open BitReader (Reads)

variable {charBits count : Nat} {pad : UInt8} {s : List UInt8} {w : BitWriter} {bs : List Bool}

/-- What is left of a character that is packed and unpacked. -/
def packedChar (charBits : Nat) (ch : UInt8) : UInt8 := unpackChar charBits (packChar charBits ch)

/-- The text that is read where `count` characters of `s` were packed. -/
def packedText (charBits count : Nat) (pad : UInt8) (s : List UInt8) : List UInt8 :=
  (paddedString s count pad).map (packedChar charBits)

def packedBits (charBits : Nat) (chars : List UInt8) : List Bool :=
  chars.flatMap fun ch => msbBits charBits (packChar charBits ch)

theorem length_packedBits (chars : List UInt8) :
    (packedBits charBits chars).length = charBits * chars.length := by
  induction chars with
  | nil => rfl
  | cons ch chars ih =>
    rw [packedBits, flatMap_cons, length_append, length_msbBits, ← packedBits, ih, length_cons,
      Nat.mul_succ, Nat.add_comm]

theorem writePacked_eq (charBits count : Nat) (pad : UInt8) (s : List UInt8) (w : BitWriter) :
    writePacked charBits count pad s w = (paddedString s count pad).foldl
      (fun w ch => w.writeBits (packChar charBits ch) charBits) w := by
  have hchars : paddedString s count pad = (range count).map fun i => s.getD i pad := by
    refine ext_getElem (by simp [WriterCall.length_paddedString]) fun i hi _ => ?_
    rw [WriterCall.length_paddedString] at hi
    rw [getElem_map, getElem_range, getD_eq_getElem?_getD]
    simp only [paddedString, getElem_append, getElem_take, getElem_replicate, length_take]
    split
    next hin => rw [getElem?_eq_getElem (by omega), Option.getD_some]
    next hout => rw [getElem?_eq_none (by omega), Option.getD_none]
  rw [hchars, foldl_map]
  rfl

theorem holds_packed (chars : List UInt8) (hw : w.Holds bs) (herr : w.error = none)
    (hc : charBits ≤ 8) (hsmall : bs.length + charBits * chars.length + 7 < 2 ^ 64) :
    let w' := chars.foldl (fun w ch => w.writeBits (packChar charBits ch) charBits) w
    w'.error = none ∧ w'.Holds (bs ++ packedBits charBits chars) := by
  induction chars generalizing w bs with
  | nil => exact ⟨herr, by simpa [packedBits] using hw⟩
  | cons ch chars ih =>
    rw [length_cons, Nat.mul_succ] at hsmall
    have hok : (w.writeBits (packChar charBits ch) charBits).error = none :=
      error_writeBits herr (by omega) (by rw [hw.1]; omega)
    have hnext := ih (hw.writeBits hok) hok (by rw [length_append, length_msbBits]; omega)
    rwa [append_assoc] at hnext

theorem reads_readPacked (hc : charBits ≤ 8) (chars : List UInt8) (p : Nat) :
    Reads (readPacked charBits chars.length) p (packedBits charBits chars)
      (chars.map (packedChar charBits)) := by
  induction chars generalizing p with
  | nil => exact reads_ret p []
  | cons ch chars ih =>
    have hlt : packChar charBits ch < 2 ^ charBits := by
      unfold packChar
      exact Nat.and_lt_two_pow _ (Nat.sub_lt (Nat.two_pow_pos _) Nat.one_pos)
    have hbits := reads_readBits_msb p (packChar charBits ch) (by omega : charBits ≤ 64)
    rw [Nat.mod_eq_of_lt hlt] at hbits
    exact hbits.andThen ((ih _).map (packedChar charBits ch :: ·))

/-- Whatever follows the packed characters, the loop that unpacks them reads them. -/
theorem readPacked_writePacked (pad : UInt8) (s : List UInt8) (hw : w.Holds bs)
    (herr : w.error = none) (hc : charBits ≤ 8)
    (hsmall : w.data.length + count < 2 ^ 61) :
    ∃ bytes, (writePacked charBits count pad s w).error = none
      ∧ (writePacked charBits count pad s w).finish.1 = .ok bytes ∧ bytes.length < 2 ^ 61
      ∧ ∀ rest, (bytes ++ rest).length < 2 ^ 61 →
        (seek w.bitPos { data := bytes ++ rest }).WF
          ∧ (seek (w.bitPos + charBits * count) { data := bytes ++ rest }).WF
          ∧ readPacked charBits count (seek w.bitPos { data := bytes ++ rest })
            = (.ok (packedText charBits count pad s),
                seek (w.bitPos + charBits * count) { data := bytes ++ rest }) := by
  have hlen := WriterCall.length_paddedString s count pad
  have hsize := hw.length_data
  have hbound : charBits * count ≤ 8 * count := Nat.mul_le_mul_right _ hc
  obtain ⟨hok, hholds⟩ := holds_packed (paddedString s count pad) hw herr hc
    (by rw [hlen]; omega)
  rw [← writePacked_eq] at hok hholds
  obtain ⟨bytes, hfin, hbits⟩ := hholds.finish hok
  have hbytes := congrArg List.length hbits
  rw [length_bytesBits, length_append, length_bytePad, length_append, length_packedBits,
    hlen] at hbytes
  refine ⟨bytes, hok, hfin, by omega, fun rest hrest => ?_⟩
  have hroom : bs.length + charBits * count ≤ 8 * (bytes ++ rest).length := by
    rw [length_append]
    omega
  have hwf : WF { data := bytes ++ rest } := wf_start hrest
  have hstart := hwf.seek (Nat.le_of_add_right_le hroom)
  rw [hw.1]
  refine ⟨hstart, hwf.seek hroom, ?_⟩
  have hread := reads_readPacked hc (paddedString s count pad) bs.length
    (seek bs.length { data := bytes ++ rest }) hstart (position_seek _ _) (by
      rw [data_seek, bytesBits_append, hbits, append_assoc, append_assoc, drop_left]
      exact prefix_append _ _)
  rwa [hlen, length_packedBits, hlen, seek_seek] at hread

namespace TextPlace

variable {g : ClassCode} {f : Field} {length : Nat} {packed : Int} {chars : List UInt8}
  {r r' : BitReader}

section

variable (hbits : f.charBits = some packed) (hlength : f.length = some length)
  (hread : readPacked packed.toNat length r = (.ok chars, r'))

include hbits hlength hread

theorem decode_plain_packed (h : TextPlace.plain.Holds g.index f) (hr' : r'.WF) :
    (plain.decode g f r).result = .ok (decoded g f s) ↔
      trimMember g.index f chars = s ∧ ¬f.exceedsMax s.length := by
  have hcalls : callsOnOptional f (memberType g.index f) = false := by
    simp [callsOnOptional, h.plain rfl]
  have hrest := parses_decodeMaxLength h (g.scope.name.qualified f.name)
    (trimMember g.index f chars)
  have hdecode : (plain.decode g f r).result = ((do
      ofExcept (decodeMaxLength (g.scope.name.qualified f.name) f (memberType g.index f)
        (.text (trimMember g.index f chars)))
      return decoded g f (trimMember g.index f chars) : DecodeM Object) r').result := by
    unfold decode decodeField
    simp only [h.isInline, h.noInlineEnum, ClassCode.decoder_index, ClassCode.decoder_lib, hcalls,
      Bool.false_eq_true, if_false]
    rw [exprScope_bind]
    simp only [decodePlain, h.kind_true, decodeText, ClassCode.decoder_index, hbits, hlength]
    rw [bind_ok (a := some (.text (trimMember g.index f chars))) (by
      rw [bind_ok (by rw [read_ok hread])]
      rfl), bind_ok (by rw [read_ok hread])]
    simp only [read_ok hread]
    rfl
  rw [hdecode]
  by_cases hmax : f.exceedsMax (trimMember g.index f chars).length
  · obtain ⟨e, he⟩ := hrest.error hr' (by simp [accept, hmax])
    rw [he]
    simp only [reduceCtorEq, false_iff, not_and, not_not]
    rintro rfl
    exact hmax
  · rw [(hrest.ok hr' (accept_eq_some.mpr ⟨hmax, rfl, rfl⟩)).1, Except.ok.injEq, decoded_inj]
    constructor
    · rintro rfl
      exact ⟨rfl, hmax⟩
    · exact And.left

theorem decode_fx_packed (h : TextPlace.fx.Holds g.index f) :
    (fx.decode g f r).result = .ok (decoded g f s) ↔ trimMember g.index f chars = s := by
  have hdecode : (fx.decode g f r).result
      = .ok (decoded g f (trimMember g.index f chars)) := by
    simp only [decode, decodeFxField, ClassCode.decoder_index,
      h.isInline, h.kind, Bool.false_eq_true, if_false, decodeFxText, hbits, hlength]
    change (((_ : DecodeM Value) >>= fun v => (pure (g.members ++ [(f.name, v)]) : DecodeM Object))
      r).result = _
    rw [bind_ok (a := .text (trimMember g.index f chars)) (by
      rw [bind_ok (by rw [read_ok hread])]
      rfl)]
    rfl
  rw [hdecode, Except.ok.injEq, decoded_inj]

end

end TextPlace

end Conduit.Bgen
