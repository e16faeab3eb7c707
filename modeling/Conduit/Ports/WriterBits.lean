import Conduit.Io.WriterBits
import Conduit.Ports.BitWriter

/-!
# What the writers write

The bits that every call adds, for each of the three backends. The writers of Python and Java stand
behind some bits in a buffer that is zero from there on.
-/

namespace Conduit.Ports

open Bits Io List

/-! ## Buffers that end in zeros -/

theorem modify_append_left {α : Type} (f : α → α) {front : List α} (back : List α) {i : Nat}
    (h : i < front.length) : (front ++ back).modify i f = front.modify i f ++ back := by
  apply ext_getElem?
  grind

theorem bytesBits_fill {data : List UInt8} {bs : List Bool} {z c : Nat} (v : Nat)
    (hdata : bytesBits data = bs ++ replicate z false) (hz : 8 - bs.length % 8 ≤ z)
    (hc : c ≤ 8 - bs.length % 8) : bytesBits (data.modify (bs.length / 8)
        (· ||| UInt8.ofNat ((v &&& (2 ^ c - 1)) <<< (8 - bs.length % 8 - c))))
      = bs ++ msbBits c v ++ replicate (z - c) false := by
  have hlen := congrArg length hdata
  simp only [length_bytesBits, length_append, length_replicate] at hlen
  have hfront : bytesBits (data.take (bs.length / 8 + 1))
      = bs ++ replicate (8 - bs.length % 8) false := by
    rw [← take_bytesBits, hdata, take_append, take_of_length_le (by omega), take_replicate]
    congr 2
    omega
  have hback : bytesBits (data.drop (bs.length / 8 + 1))
      = replicate (z - (8 - bs.length % 8)) false := by
    rw [← drop_bytesBits, hdata, drop_append, drop_of_length_le (by omega),
      nil_append, drop_replicate]
    congr 1
    omega
  have hin : bs.length / 8 < (data.take (bs.length / 8 + 1)).length := by
    rw [length_take]
    omega
  have hsplit := modify_append_left
    (· ||| UInt8.ofNat ((v &&& (2 ^ c - 1)) <<< (8 - bs.length % 8 - c)))
    (data.drop (bs.length / 8 + 1)) hin
  rw [take_append_drop] at hsplit
  rw [hsplit, bytesBits_append, hback,
    bytesBits_modify_or v hfront (by omega) (by omega) hc, append_assoc, append_assoc,
    append_assoc, replicate_append_replicate]
  congr 3
  omega

theorem bytesBits_overwrite (bytes : List UInt8) {data : List UInt8} {bs : List Bool} {z : Nat}
    (hdata : bytesBits data = bs ++ replicate z false) (ha : bs.length % 8 = 0) :
    bytesBits (BitWriter.overwrite data (bs.length / 8) bytes)
      = bs ++ bytesBits bytes ++ replicate (z - 8 * bytes.length) false := by
  have hq : 8 * (bs.length / 8) = bs.length := by omega
  rw [BitWriter.overwrite, bytesBits_append, bytesBits_append, ← take_bytesBits, ← drop_bytesBits,
    hdata, Nat.mul_add, hq, take_left, ← drop_drop, drop_left, drop_replicate]

namespace PortWriter

variable {w : PortWriter} {bs : List Bool}

/-- The writer stands behind `bs`, and its buffer is zero from there on. -/
structure Stands (w : PortWriter) (bs : List Bool) : Prop where
  bitPos : w.bitPos = bs.length
  zeros : ∃ z, bytesBits w.buf = bs ++ replicate z false

theorem Stands.length_buf {z : Nat} (h : bytesBits w.buf = bs ++ replicate z false) :
    8 * w.buf.length = bs.length + z := by
  rw [← length_bytesBits, h, length_append, length_replicate]

theorem Stands.grow (h : w.Stands bs) (k : Nat) :
    Stands { w with buf := w.buf ++ replicate k 0 } bs := by
  obtain ⟨hpos, z, hz⟩ := h
  refine ⟨hpos, z + 8 * k, ?_⟩
  rw [bytesBits_append, hz, bytesBits_replicate_zero, append_assoc, replicate_append_replicate]

theorem Stands.alignToByte (h : w.Stands bs) : w.alignToByte.Stands (bs ++ bytePad bs.length) := by
  obtain ⟨hpos, z, hz⟩ := h
  unfold PortWriter.alignToByte
  rw [hpos]
  by_cases ha : bs.length % 8 = 0
  · rw [if_neg (by simpa using ha), bytePad_of_aligned ha, append_nil]
    exact ⟨hpos, z, hz⟩
  have hlen := Stands.length_buf hz
  rw [if_pos ha, bytePad_of_unaligned ha]
  refine ⟨by simp, z - (8 - bs.length % 8), ?_⟩
  rw [hz, append_assoc, replicate_append_replicate]
  congr 2
  omega

theorem Stands.bits_toBytes (h : w.Stands bs) : bytesBits w.toBytes = bs ++ bytePad bs.length := by
  obtain ⟨hpos, z, hz⟩ := h
  have hlen := Stands.length_buf hz
  rw [toBytes, ← take_bytesBits, hz, sizeBytes, hpos, take_append,
    take_of_length_le (by omega), take_replicate, bytePad]
  congr 2
  omega

theorem Stands.writeLoop {chunk : Nat → Nat → Nat} {value n : Nat}
    (hchunk : ∀ shift take, shift + take ≤ n → chunk shift take = (value >>> shift) &&& (2 ^ take - 1))
    (fuel : Nat) : ∀ (remaining : Nat) (w : PortWriter) (bs : List Bool), w.Stands bs →
      remaining ≤ fuel → remaining ≤ n → bs.length + remaining ≤ 8 * w.buf.length →
      (w.writeLoop chunk fuel remaining).Stands (bs ++ msbBits remaining value) := by
  induction fuel with
  | zero =>
    intro remaining w bs h hfuel _ _
    obtain rfl : remaining = 0 := by omega
    simpa [PortWriter.writeLoop] using h
  | succ fuel ih =>
    intro remaining w bs h hfuel hn hroom
    unfold PortWriter.writeLoop
    by_cases hdone : remaining = 0
    · rw [if_pos hdone, hdone]
      simpa using h
    rw [if_neg hdone]
    obtain ⟨hpos, z, hz⟩ := h
    have hlen := Stands.length_buf hz
    simp only [hpos]
    -- one turn fills the current byte or takes what is left
    generalize htake : min (8 - bs.length % 8) remaining = take
    have hfill := bytesBits_fill (c := take) (value >>> (remaining - take)) hz (by omega) (by omega)
    have hnext := ih (remaining - take)
      { buf := w.buf.modify (bs.length / 8)
          (· ||| UInt8.ofNat (chunk (remaining - take) take <<< (8 - bs.length % 8 - take)))
        bitPos := bs.length + take }
      (bs ++ msbBits take (value >>> (remaining - take)))
      ⟨by simp, z - take, by rw [hchunk _ _ (by omega)]; exact hfill⟩ (by omega) (by omega)
      (by simp only [length_append, length_msbBits, length_modify]; omega)
    rw [append_assoc, ← msbBits_add, show take + (remaining - take) = remaining by omega] at hnext
    exact hnext

theorem foldlM_keeps {R : PortWriter → List Bool → Prop}
    {write : PortWriter → UInt8 → Option PortWriter}
    (hwrite : ∀ (byte : UInt8) (w w' : PortWriter) (bs : List Bool), R w bs →
      write w byte = some w' → R w' (bs ++ msbBits 8 byte.toNat))
    (bytes : List UInt8) : ∀ {w w' : PortWriter} {bs : List Bool}, R w bs →
      bytes.foldlM write w = some w' → R w' (bs ++ bytesBits bytes) := by
  induction bytes with
  | nil =>
    intro w w' bs h hw
    cases hw
    simpa using h
  | cons byte bytes ih =>
    intro w w' bs h hw
    rw [foldlM_cons] at hw
    obtain ⟨w₁, hfirst, hrest⟩ := Option.bind_eq_some_iff.mp hw
    have hnext := ih (hwrite byte w w₁ bs h hfirst) hrest
    rw [bytesBits_cons, ← append_assoc]
    exact hnext

end PortWriter

/-! ## Python -/

namespace Python

open PortWriter

theorem stands_start : start.Stands [] := ⟨rfl, 0, rfl⟩

theorem ensure_room (n : Nat) (w : PortWriter) : w.bitPos + n ≤ 8 * (ensure n w).buf.length := by
  simp only [ensure, length_append, length_replicate]
  omega

theorem writeBits_stands {value n : Nat} {w w' : PortWriter} {bs : List Bool} (h : w.Stands bs)
    (hw : writeBits value n w = some w') : w'.Stands (bs ++ msbBits n value) := by
  have hgrown : (ensure n w).Stands bs := h.grow _
  have hroom := ensure_room n w
  rw [h.bitPos] at hroom
  unfold writeBits at hw
  simp only [hgrown.bitPos] at hw
  by_cases hfast : bs.length % 8 = 0 ∧ n % 8 = 0
  · rw [if_pos hfast] at hw
    by_cases hbytes : n / 8 > 0
    · rw [if_pos hbytes] at hw
      by_cases hfits : value < 2 ^ n
      · rw [if_pos hfits] at hw
        cases hw
        obtain ⟨z, hz⟩ := hgrown.zeros
        have hover := bytesBits_overwrite (beBytes (n / 8) value) hz hfast.1
        rw [bytesBits_beBytes, show 8 * (n / 8) = n by omega] at hover
        exact ⟨by simp, _, hover⟩
      · rw [if_neg hfits] at hw
        cases hw
    · rw [if_neg hbytes] at hw
      cases hw
      obtain rfl : n = 0 := by omega
      rw [msbBits_zero_left, append_nil]
      exact ⟨rfl, hgrown.zeros⟩
  · rw [if_neg hfast] at hw
    cases hw
    exact hgrown.writeLoop (fun _ _ _ => rfl) n n _ _ (Nat.le_refl n) (Nat.le_refl n) hroom

theorem foldlM_stands (bytes : List UInt8) {w w' : PortWriter} {bs : List Bool} (h : w.Stands bs)
    (hw : bytes.foldlM (fun w byte => writeBits byte.toNat 8 w) w = some w') :
    w'.Stands (bs ++ bytesBits bytes) :=
  foldlM_keeps (fun _ _ _ _ hstands hwrite => writeBits_stands hstands hwrite) bytes h hw

theorem writeU8_byte (byte : UInt8) (w : PortWriter) :
    writeU8 byte.toNat w = writeBits byte.toNat 8 w := by
  rw [writeU8, Nat.mod_eq_of_lt byte.toNat_lt]

end Python

/-! ## Java -/

namespace Java

open PortWriter

variable {value : Nat} {w : PortWriter} {bs : List Bool} {w' : PortWriter}

theorem stands_start : start.Stands [] := ⟨rfl, 512, by rw [start, bytesBits_replicate_zero]; rfl⟩

/-- The writer stands behind `bs`, at a position in range. -/
structure Fits (w : PortWriter) (bs : List Bool) : Prop where
  stands : w.Stands bs
  range : bs.length + 7 < 2 ^ 31

theorem fits_start : Fits start [] := ⟨stands_start, by decide⟩

theorem ediv_emod_sub_pow (v : Int) {w s t : Nat} (h : s + t ≤ w) :
    (v - 2 ^ w) / 2 ^ s % 2 ^ t = v / 2 ^ s % 2 ^ t := by
  have hpos : (2 : Int) ^ s ≠ 0 := pow_ne_zero s (by decide)
  have hsplit : (2 : Int) ^ w = 2 ^ (w - s - t) * 2 ^ t * 2 ^ s := by
    rw [← pow_add, ← pow_add]
    congr 1
    omega
  rw [hsplit, Int.sub_mul_ediv_right _ _ hpos, Int.sub_mul_emod_self_right]

theorem toNat_ediv_emod (v s t : Nat) :
    ((v : Int) / 2 ^ s % 2 ^ t).toNat = (v >>> s) &&& (2 ^ t - 1) := by
  rw [Nat.and_two_pow_sub_one_eq_mod, Nat.shiftRight_eq_div_pow,
    show ((v : Int) / 2 ^ s % 2 ^ t) = ((v / 2 ^ s % 2 ^ t : Nat) : Int) by push_cast; rfl]
  exact Int.toNat_natCast _

theorem chunk_eq {shift take : Nat} (h : shift + take ≤ 64) :
    chunk value shift take = (value >>> shift) &&& (2 ^ take - 1) := by
  by_cases htake : take = 0
  · simp [chunk, htake]
  rw [← toNat_ediv_emod, chunk, toInt64, Nat.mod_eq_of_lt (show shift < 64 by omega)]
  split
  · rfl
  · rw [ediv_emod_sub_pow _ h]

theorem ensure_stands (n : Nat) (h : w.Stands bs) :
    (ensure n w).Stands bs ∧ bs.length + n ≤ 8 * (ensure n w).buf.length := by
  simp only [ensure, h.bitPos]
  by_cases hneed : (bs.length + n + 7) / 8 > w.buf.length
  · rw [if_pos hneed]
    have hgrown := h.grow (max ((bs.length + n + 7) / 8) (w.buf.length * 2) - w.buf.length)
    rw [h.bitPos] at hgrown
    refine ⟨hgrown, ?_⟩
    simp only [length_append, length_replicate]
    omega
  · rw [if_neg hneed]
    exact ⟨h, by omega⟩

theorem bytes_eq (m : Nat) (hm : 8 * m ≤ 64) :
    ((range m).reverse.map fun i => UInt8.ofNat (chunk value (i * 8) 8)) = beBytes m value := by
  induction m with
  | zero => rfl
  | succ m ih =>
    rw [range_succ, reverse_append, reverse_singleton, singleton_append,
      map_cons, ih (by omega), beBytes, chunk_eq (by omega), Nat.mul_comm m 8,
      Nat.and_two_pow_sub_one_eq_mod]
    congr 1
    apply UInt8.toNat_inj.mp
    simp

theorem writeBits_fits {n : Nat} (hn : n ≤ 64) (h : w.Stands bs)
    (hw : writeBits value n w = some w') : Fits w' (bs ++ msbBits n value) := by
  unfold writeBits at hw
  by_cases hrange : inRange (w.bitPos + n) = true
  · rw [if_pos hrange] at hw
    have hsmall : bs.length + n + 7 < 2 ^ 31 := by simpa [inRange, h.bitPos] using hrange
    refine ⟨?_, by rwa [length_append, length_msbBits]⟩
    obtain ⟨hgrown, hroom⟩ := ensure_stands n h
    simp only [hgrown.bitPos] at hw
    by_cases hfast : bs.length % 8 = 0 ∧ n % 8 = 0
    · rw [if_pos hfast] at hw
      cases hw
      obtain ⟨z, hz⟩ := hgrown.zeros
      have hover := bytesBits_overwrite (beBytes (n / 8) value) hz hfast.1
      rw [bytesBits_beBytes, show 8 * (n / 8) = n by omega] at hover
      rw [← bytes_eq (n / 8) (by omega)] at hover
      exact ⟨by simp, _, hover⟩
    · rw [if_neg hfast] at hw
      cases hw
      exact hgrown.writeLoop (fun _ _ hle => chunk_eq (by omega)) n n _ _ (Nat.le_refl n)
        (Nat.le_refl n) hroom
  · rw [if_neg hrange] at hw
    cases hw

theorem foldlM_fits (bytes : List UInt8) (h : Fits w bs)
    (hw : bytes.foldlM (fun w byte => writeBits byte.toNat 8 w) w = some w') :
    Fits w' (bs ++ bytesBits bytes) :=
  foldlM_keeps (fun _ _ _ _ hfits hwrite => writeBits_fits (by omega) hfits.stands hwrite) bytes h hw

theorem writeU8_byte (byte : UInt8) (w : PortWriter) :
    writeU8 byte.toNat w = writeBits byte.toNat 8 w := by
  rw [writeU8, Nat.mod_eq_of_lt byte.toNat_lt]

theorem alignTo_fits {k : Nat} (hk : k ≠ 0) (h : w.Stands bs) (hw : alignTo k w = some w') :
    Fits w' (bs ++ bytePad bs.length ++ bytesBits (boundaryPad k ((bs.length + 7) / 8))) := by
  unfold alignTo at hw
  rw [if_neg hk] at hw
  split at hw
  next hrange =>
    have haligned := h.alignToByte
    have hsize : w.alignToByte.sizeBytes = (bs.length + 7) / 8 := by
      rw [sizeBytes, haligned.bitPos, length_append, length_bytePad]
      omega
    have hfits : Fits w.alignToByte (bs ++ bytePad bs.length) := by
      refine ⟨haligned, ?_⟩
      rw [← haligned.bitPos]
      simpa [inRange] using hrange.2
    simp only [writeU8_byte, hsize] at hw
    exact foldlM_fits _ hfits hw
  next => cases hw

end Java

end Conduit.Ports
