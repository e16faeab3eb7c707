import Conduit.Bgen.Bitmap
import Conduit.Bits.Octets
import Conduit.Io.ReaderBits

/-!
# The FSPEC on the wire

The presence array is a set of bits. The encoder puts in the bits of the members that are present
and the extension bits; the decoder gets back the octets up to the first one without the extension
bit, as far as they fit into its array.
-/

namespace Conduit.Bgen

open Bits Io ReadM BitReader List

/-! ## Reading octets -/

variable {data : List UInt8} {q : Nat}

theorem readU8_at (hsize : data.length < 2 ^ 64) (hq : q < data.length) :
    readU8 ⟨data, q, 0⟩ = (.ok (data.get ⟨q, hq⟩).toNat, ⟨data, q + 1, 0⟩) := by
  have hroom : ¬q ≥ data.length := by omega
  have hnext : sizeT (q + 1) = q + 1 := Nat.mod_eq_of_lt (by omega)
  simp [readU8, alignToByte, hroom, hnext, getElem?_eq_getElem hq]

theorem readU8_end (hq : data.length ≤ q) :
    ∃ e, readU8 ⟨data, q, 0⟩ = (.error (.error e), ⟨data, q, 0⟩) := by
  have hend : q ≥ data.length := hq
  simp [readU8, alignToByte, hend, fail]

theorem readOctets_eq (hsize : data.length < 2 ^ 64) (n : Nat) (hroom : q + n ≤ data.length) :
    readOctets n ⟨data, q, 0⟩ = (.ok ((data.drop q).take n), ⟨data, q + n, 0⟩) := by
  induction n generalizing q with
  | zero => rfl
  | succ n ih =>
    have hq : q < data.length := by omega
    have hrest := ih (q := q + 1) (by omega)
    rw [readOctets, bind_ok (readU8_at hsize hq), bind_ok hrest,
      drop_eq_getElem_cons hq, take_succ_cons]
    simp only [get_eq_getElem, UInt8.ofNat_toNat]
    rw [Nat.add_right_comm, Nat.add_assoc]
    rfl

theorem readOctets_short (hsize : data.length < 2 ^ 64) (n : Nat) (hq : q ≤ data.length)
    (hroom : data.length < q + n) : ∃ e r, readOctets n ⟨data, q, 0⟩ = (.error (.error e), r) := by
  induction n generalizing q with
  | zero => omega
  | succ n ih =>
    rw [readOctets]
    by_cases hend : q < data.length
    · obtain ⟨e, r, hrest⟩ := ih (q := q + 1) (by omega) (by omega)
      rw [bind_ok (readU8_at hsize hend)]
      exact ⟨e, r, bind_error hrest⟩
    · obtain ⟨e, hread⟩ := readU8_end (show data.length ≤ q by omega)
      exact ⟨e, _, bind_error hread⟩

/-- The octet has the extension bit. -/
def extended (ext : Nat) (octet : UInt8) : Bool := octet.toNat.testBit (7 - ext)

/-- The array after octets have been stored from index `len` on. -/
def storeOctets (numOctets : Nat) : List UInt8 → Nat → List UInt8 → List UInt8
  | fspec, _, [] => fspec
  | fspec, len, x :: xs =>
    storeOctets numOctets (if len < numOctets then fspec.set len x else fspec) (len + 1) xs

theorem getElem?_storeOctets (numOctets : Nat) (xs : List UInt8) (fspec : List UInt8) (len : Nat)
    (hlen : fspec.length = numOctets) (i : Nat) : (storeOctets numOctets fspec len xs)[i]?
      = if i < numOctets ∧ len ≤ i ∧ i < len + xs.length then xs[i - len]? else fspec[i]? := by
  induction xs generalizing fspec len with
  | nil => rw [storeOctets, if_neg (by simp only [length_nil]; omega)]
  | cons x xs ih =>
    rw [storeOctets, ih _ _ (by split <;> simp [hlen])]
    by_cases hi : i < numOctets ∧ len ≤ i ∧ i < len + (x :: xs).length
    · rw [if_pos hi]
      obtain ⟨hnum, hle, hlt⟩ := hi
      rw [length_cons] at hlt
      by_cases heq : i = len
      · subst heq
        rw [if_neg (by omega), if_pos hnum, getElem?_set_self (by omega)]
        simp
      · have hsub : i - len = (i - (len + 1)) + 1 := by omega
        rw [if_pos (by omega), hsub, getElem?_cons_succ]
    · rw [if_neg hi, if_neg (by rw [length_cons] at hi; omega)]
      split
      · rw [getElem?_set_ne]
        rintro rfl
        simp only [length_cons] at hi
        omega
      · rfl

theorem storeOctets_empty (numOctets : Nat) (xs : List UInt8) :
    storeOctets numOctets (replicate numOctets 0) 0 xs
      = (xs ++ replicate numOctets 0).take numOctets := by
  apply ext_getElem?
  intro i
  rw [getElem?_storeOctets _ _ _ _ (length_replicate ..), getElem?_take]
  by_cases hnum : i < numOctets
  · rw [if_pos hnum]
    by_cases hi : i < xs.length
    · rw [if_pos (by omega), Nat.sub_zero, getElem?_append_left hi]
    rw [if_neg (by omega), getElem?_append_right (by omega), getElem?_replicate,
      getElem?_replicate, if_pos hnum, if_pos (by omega)]
  · rw [if_neg hnum, if_neg (by omega), getElem?_replicate, if_neg hnum]

theorem and_mask_eq_zero {ext : Nat} (octet : UInt8) :
    (octet.toNat &&& 2 ^ (7 - ext) = 0) ↔ extended ext octet = false := by
  rw [← not_iff_not, ← ne_eq, and_two_pow_ne_zero, Bool.not_eq_false]
  rfl

theorem readExtended_eq (numOctets ext : Nat) (hsize : data.length < 2 ^ 64) (turns : Nat)
    (fspec : List UInt8) (len q : Nat) (hq : q ≤ data.length) (hturns : data.length < q + turns) :
    match splitContinued (extended ext) (data.drop q) with
    | some (xs, _) =>
      readExtended numOctets (some (2 ^ (7 - ext))) turns fspec len ⟨data, q, 0⟩
        = (.ok (storeOctets numOctets fspec len xs, len + xs.length), ⟨data, q + xs.length, 0⟩)
    | none => ∃ e r, readExtended numOctets (some (2 ^ (7 - ext))) turns fspec len ⟨data, q, 0⟩
        = (.error (.error e), r) := by
  induction turns generalizing fspec len q with
  | zero => omega
  | succ turns ih =>
    by_cases hend : q < data.length
    · have hread := readU8_at hsize hend
      rw [drop_eq_getElem_cons hend, splitContinued]
      simp only [readExtended, get_eq_getElem] at hread ⊢
      by_cases hmore : extended ext (data[q]) = true
      · have hmask : ¬(data[q]).toNat &&& 2 ^ (7 - ext) = 0 := by
          rw [and_mask_eq_zero, hmore]
          decide
        have hrest := ih (if len < numOctets then fspec.set len data[q] else fspec) (len + 1)
          (q + 1) (by omega) (by omega)
        rw [if_pos hmore]
        cases hsplit : splitContinued (extended ext) (data.drop (q + 1)) with
        | none =>
          rw [hsplit] at hrest
          obtain ⟨e, r, hrest⟩ := hrest
          refine ⟨e, r, ?_⟩
          rw [bind_ok hread, if_neg hmask, UInt8.ofNat_toNat]
          exact hrest
        | some found =>
          obtain ⟨xs, rest⟩ := found
          rw [hsplit] at hrest
          simp only [Option.map_some, storeOctets, length_cons]
          rw [bind_ok hread, if_neg hmask, UInt8.ofNat_toNat]
          refine hrest.trans ?_
          rw [Nat.add_assoc, Nat.add_comm 1, Nat.add_assoc, Nat.add_comm 1]
      · have hmask : (data[q]).toNat &&& 2 ^ (7 - ext) = 0 := by
          rw [and_mask_eq_zero]
          simpa using hmore
        rw [if_neg hmore]
        simp only [storeOctets, length_cons, length_nil]
        rw [bind_ok hread, if_pos hmask, UInt8.ofNat_toNat]
        rfl
    · have hnil : data.drop q = [] := drop_eq_nil_of_le (by omega)
      rw [hnil]
      obtain ⟨e, hread⟩ := readU8_end (show data.length ≤ q by omega)
      exact ⟨e, _, bind_error hread⟩

/-! ## The array -/

namespace BitmapCode

variable {code : BitmapCode} {data : List UInt8} {ext : Nat}

/-- The array that holds the octets of a FSPEC. -/
def arrayOf (code : BitmapCode) (octets : List UInt8) : List UInt8 :=
  (octets ++ replicate code.numOctets 0).take code.numOctets

@[simp] theorem length_arrayOf (code : BitmapCode) (octets : List UInt8) :
    (code.arrayOf octets).length = code.numOctets := by
  simp [arrayOf]

section

variable (hext : code.ext = some ext)

include hext

theorem readArray_extended (h8 : ext < 8) (hsize : data.length < 2 ^ 64) {xs rest : List UInt8}
    (hsplit : splitContinued (extended ext) data = some (xs, rest)) :
    code.readArray { data } = (.ok (code.arrayOf xs, xs.length), ⟨data, xs.length, 0⟩) := by
  have hloop := readExtended_eq code.numOctets ext hsize (data.length + 1)
    (replicate code.numOctets 0) 0 0 (Nat.zero_le _) (by omega)
  rw [drop_zero, hsplit] at hloop
  simp only [readArray, hext, extMask, if_pos h8]
  rw [hloop, storeOctets_empty, Nat.zero_add]
  rfl

theorem readArray_endless (h8 : ext < 8)
    (hsize : data.length < 2 ^ 64) (hsplit : splitContinued (extended ext) data = none) :
    ∃ e r, code.readArray { data } = (.error (.error e), r) := by
  have hloop := readExtended_eq code.numOctets ext hsize (data.length + 1)
    (replicate code.numOctets 0) 0 0 (Nat.zero_le _) (by omega)
  rw [drop_zero, hsplit] at hloop
  simpa only [readArray, hext, extMask, if_pos h8] using hloop

theorem readArray_undefined (h8 : ¬ext < 8) (hdata : data ≠ []) :
    (code.readArray { data }).1 = .error .outOfBounds := by
  obtain ⟨octet, rest, rfl⟩ := exists_cons_of_ne_nil hdata
  have hread : readU8 { data := octet :: rest } = (.ok octet.toNat, ⟨octet :: rest, 1, 0⟩) := by
    simp [readU8, alignToByte, sizeT]
  simp only [readArray, hext, extMask, if_neg h8, readExtended]
  rw [bind_ok hread]
  rfl

theorem readArray_empty : ∃ e r, code.readArray { data := [] } = (.error (.error e), r) := by
  obtain ⟨e, hread⟩ := readU8_end (show ([] : List UInt8).length ≤ 0 by decide)
  simp only [readArray, hext, readExtended]
  exact ⟨e, _, bind_error hread⟩

end

theorem readArray_fixed (hext : code.ext = none) (hsize : data.length < 2 ^ 64)
    (hroom : code.numOctets ≤ data.length) : code.readArray { data }
      = (.ok (data.take code.numOctets, code.numOctets), ⟨data, code.numOctets, 0⟩) := by
  have hread := readOctets_eq hsize code.numOctets (show 0 + code.numOctets ≤ data.length by omega)
  simp only [readArray, hext]
  rw [bind_ok hread, drop_zero, Nat.zero_add]
  rfl

theorem readArray_short (hext : code.ext = none) (hsize : data.length < 2 ^ 64)
    (hroom : data.length < code.numOctets) :
    ∃ e r, code.readArray { data } = (.error (.error e), r) := by
  obtain ⟨e, r, hread⟩ := readOctets_short hsize code.numOctets (Nat.zero_le _)
    (show data.length < 0 + code.numOctets by omega)
  simp only [readArray, hext]
  exact ⟨e, r, bind_error hread⟩

theorem readFspec_of_error {e : Fault} {r r' : BitReader}
    (h : code.readArray r = (.error e, r')) : code.readFspec r = (.error e, r') :=
  bind_error h

section

variable {fspec : List UInt8} {len : Nat} {r r' : BitReader}
  (h : code.readArray r = (.ok (fspec, len), r'))

include h

theorem readFspec_of_ok (hfits : len ≤ fspec.length) :
    code.readFspec r = (.ok (code.endian.order (fspec.take len) ++ fspec.drop len, len), r') := by
  rw [readFspec, bind_ok h]
  cases code.endian with
  | big =>
    simp only [Endian.order, take_append_drop]
    rfl
  | little =>
    simp only [reverseFront, if_pos hfits]
    rfl

theorem readFspec_of_long (hlong : fspec.length < len) : code.readFspec r = match code.endian with
      | .big => (.ok (fspec, len), r')
      | .little => (.error .outOfBounds, r') := by
  rw [readFspec, bind_ok h]
  cases code.endian with
  | big => rfl
  | little =>
    simp only [reverseFront, if_neg (show ¬len ≤ fspec.length by omega)]
    rfl

end

theorem le_maxBit {f : BitmapField} (hf : f ∈ code.fields) : f.bit ≤ code.maxBit := by
  have hloop : ∀ (fs : List BitmapField) (m : Int), m ≤ fs.foldl (fun m f => max m f.bit) m
        ∧ ∀ f ∈ fs, f.bit ≤ fs.foldl (fun m f => max m f.bit) m := by
    intro fs
    induction fs with
    | nil => exact fun m => ⟨le_rfl, fun f hf => by cases hf⟩
    | cons g fs ih =>
      intro m
      obtain ⟨hstart, hall⟩ := ih (max m g.bit)
      refine ⟨(le_max_left _ _).trans hstart, ?_⟩
      intro f hf
      rcases mem_cons.mp hf with rfl | hf
      · exact (le_max_right _ _).trans hstart
      · exact hall f hf
  exact (hloop code.fields 0).2 f hf

theorem byteIdx_lt {f : BitmapField} (hf : f ∈ code.fields) : f.byteIdx.toNat < code.numOctets := by
  have hle : f.byteIdx ≤ code.maxBit.tdiv 8 := Int.tdiv_le_tdiv (by decide) (le_maxBit hf)
  unfold numOctets
  omega

end BitmapCode

end Conduit.Bgen
