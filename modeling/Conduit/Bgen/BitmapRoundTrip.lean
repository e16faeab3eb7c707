import Conduit.Bgen.Accepted
import Conduit.Bgen.BitmapAdvance
import Conduit.Bgen.BitmapBytes

/-!
# Round trip of a bitmap struct

Decoding gives back what was encoded if the FSPEC is read as it was written and tells the members
that are present from the others. An extension bit that a member uses as its presence bit, and the
byte order of a FSPEC that ends by itself, are where this fails.
-/

namespace Conduit.Bgen

open Bits Io Validator BitmapField BitReader List Option
open BitReader (Reads)

/-! ## The FSPEC that is read -/

namespace BitmapCode

variable {O : Type} {code : BitmapCode} {other : OtherCode O} {members : Members O}
  {octets bytes : List UInt8} {out : List Bool}

/-- Decoding what was encoded gives the same members. -/
def Returns (code : BitmapCode) (other : OtherCode O) (members : Members O) : Prop :=
  ∃ bytes decoded r, code.encodeBytes other members = .ok bytes
    ∧ code.decode other { data := bytes } = (.ok decoded, r)
    ∧ ∀ f ∈ code.fields, decoded f.name = members f.name

/-- The FSPEC can be read as it is written: a member is present exactly if its bit is set, and the
extension bit ends the FSPEC after the last octet. In little-endian order the last octet comes
first, so there must not be another one. -/
structure Sound (code : BitmapCode) (members : Members O) : Prop where
  marked : ∀ f ∈ code.fields,
    ((members f.name).isSome ↔ 0 ≤ f.bit ∧ code.Marked members f.bit.toNat)
  ends : ∀ ext ∈ code.ext, ext < 8 ∧ ¬code.Marked members (8 * code.lastOctet members + ext)
    ∧ (code.endian = .little → code.lastOctet members = 0)

theorem Marked.octet_lt {k : Nat} (h : code.Marked members k) :
    k / 8 < code.octetCount members := by
  have hlast : code.lastOctet members < code.numOctets := lastOctet_lt
  have hbefore : k / 8 ≤ code.lastOctet members := by
    rcases h with ⟨f, hf, hpresent, hbit⟩ | ⟨ext, -, hlt, -⟩
    · have hle := byteIdx_le_lastOctet hf hpresent
      have hidx := byteIdx_of_nonneg (show 0 ≤ f.bit by omega)
      omega
    · omega
  unfold octetCount
  split <;> omega

theorem octetCount_le : code.octetCount members ≤ code.numOctets := by
  have hlast : code.lastOctet members < code.numOctets := lastOctet_lt
  unfold octetCount
  split <;> omega

namespace Written

variable (h : code.Written other members octets out bytes)
include h

theorem length_le : octets.length ≤ code.numOctets := by
  rw [h.count]
  exact octetCount_le

theorem take_arrayOf : (code.arrayOf octets).take octets.length = octets := by
  rw [arrayOf, take_take, Nat.min_eq_left h.length_le, take_left']
  rfl

theorem presence_iff {f : BitmapField} (hf : f ∈ code.fields) :
    f.presence (code.arrayOf octets) octets.length = some true
      ↔ 0 ≤ f.bit ∧ code.Marked members f.bit.toNat := by
  have hsize : f.byteIdx.toNat < (code.arrayOf octets).length := by
    rw [length_arrayOf]
    exact byteIdx_lt hf
  by_cases hbit : 0 ≤ f.bit
  · rw [presence_of_nonneg hbit hsize, some.injEq, Bool.and_eq_true,
      decide_eq_true_eq]
    have harray : ∀ k, k / 8 < octets.length →
        (hasBit (code.arrayOf octets) k = true ↔ code.Marked members k) := by
      intro k hk
      rw [← h.marked k hk, ← hasBit_take (by rw [length_arrayOf]; exact h.length_le) hk,
        h.take_arrayOf]
    refine ⟨?_, ?_⟩
    · rintro ⟨hlt, hset⟩
      exact ⟨hbit, (harray _ hlt).mp hset⟩
    rintro ⟨-, hmarked⟩
    have hlt := hmarked.octet_lt
    rw [← h.count] at hlt
    exact ⟨hlt, (harray _ hlt).mpr hmarked⟩
  · rw [presence_of_neg (by omega) hsize]
    simp [hbit]

theorem starts : ∃ rest, bytes = code.endian.order octets ++ rest := by
  have hbits : bytesBits (code.endian.order octets) <+: bytesBits bytes := by
    rw [h.bits, append_assoc]
    exact prefix_append _ _
  obtain ⟨rest, hrest⟩ := isPrefixOf_of_bytesBits hbits
  exact ⟨rest, hrest.symm⟩

theorem length_bytes :
    octets.length ≤ bytes.length ∧ 8 * bytes.length < 8 * octets.length + out.length + 8
      ∧ bytes.length < 2 ^ 61 := by
  have hbits := congrArg length h.bits
  have hsmall := h.small
  simp only [length_append, length_bytesBits, length_order, length_bytePad] at hbits
  refine ⟨by omega, by omega, by omega⟩

theorem readMembers_eq :
    readMembers other (presentIn members) code.sorted .empty ⟨bytes, octets.length, 0⟩
      = (.ok (members.after .empty code.sorted),
        (BitReader.mk bytes 0 0).seek (8 * octets.length + out.length)) := by
  obtain ⟨hle, -, hsmall⟩ := h.length_bytes
  refine h.read ⟨bytes, octets.length, 0⟩ ⟨hsmall, hle, by simp, fun _ => rfl⟩
    (by simp only [BitReader.position]; omega) ?_
  rw [h.bits, append_assoc, drop_left']
  · exact prefix_append _ _
  · rw [length_bytesBits, length_order]

theorem split {ext : Nat} (hext : code.ext = some ext) (h8 : ext < 8) :
    ∃ front final, octets = front ++ [final] ∧ front.length = code.lastOctet members
      ∧ (∀ octet ∈ front, extended ext octet = true)
      ∧ (extended ext final = true ↔ code.Marked members (8 * code.lastOctet members + ext)) := by
  have hcount : octets.length = code.lastOctet members + 1 := by rw [h.count, octetCount, hext]
  have hne : octets ≠ [] := by
    rintro rfl
    cases hcount
  have hoctet : ∀ i (hi : i < octets.length),
      extended ext octets[i] = true ↔ code.Marked members (8 * i + ext) := by
    intro i hi
    have hdiv : (8 * i + ext) / 8 = i := by omega
    have hmod : (8 * i + ext) % 8 = ext := by omega
    rw [← h.marked _ (by omega), hasBit, hdiv, hmod, getD_eq_getElem _ _ hi]
    rfl
  refine ⟨octets.dropLast, octets.getLast hne, (dropLast_append_getLast hne).symm, ?_, ?_, ?_⟩
  · rw [length_dropLast]
    omega
  · intro octet hmem
    obtain ⟨i, hi, rfl⟩ := getElem_of_mem hmem
    rw [length_dropLast] at hi
    rw [getElem_dropLast, hoctet i (by omega)]
    exact .inr ⟨ext, hext, by omega, by omega⟩
  · have hlast : octets.length - 1 = code.lastOctet members := by omega
    rw [getLast_eq_getElem, hoctet _ (by omega), hlast]

theorem readFspec_fixed (hext : code.ext = none) : code.readFspec { data := bytes }
      = (.ok (code.arrayOf octets, octets.length), ⟨bytes, octets.length, 0⟩) := by
  obtain ⟨rest, hrest⟩ := h.starts
  obtain ⟨hle, -, hsmall⟩ := h.length_bytes
  have hcount : octets.length = code.numOctets := by rw [h.count, octetCount, hext]
  have htake : bytes.take code.numOctets = code.endian.order octets := by
    rw [hrest, take_left']
    rw [length_order, hcount]
  have hread := readFspec_of_ok
    (readArray_fixed hext (show bytes.length < 2 ^ 64 by omega) (by omega))
    (by rw [htake, length_order, hcount])
  have harray : code.arrayOf octets = octets := by
    have hwhole := h.take_arrayOf
    rwa [take_of_length_le (by rw [length_arrayOf, hcount])] at hwhole
  rw [hread, htake, harray, ← hcount, take_of_length_le (by rw [length_order]),
    drop_eq_nil_of_le (by rw [length_order]), order_order, append_nil]

theorem readFspec_extended {ext : Nat} (hext : code.ext = some ext) (h8 : ext < 8)
    (hends : ¬code.Marked members (8 * code.lastOctet members + ext))
    (horder : code.endian.order octets = octets) : code.readFspec { data := bytes }
      = (.ok (code.arrayOf octets, octets.length), ⟨bytes, octets.length, 0⟩) := by
  obtain ⟨rest, hrest⟩ := h.starts
  obtain ⟨-, -, hsmall⟩ := h.length_bytes
  obtain ⟨front, final, hoctets, -, hfront, hfinal⟩ := h.split hext h8
  have hsplit : splitContinued (extended ext) bytes = some (octets, rest) := by
    rw [hrest, horder, hoctets, append_assoc]
    exact splitContinued_last hfront (Bool.eq_false_iff.mpr (mt hfinal.mp hends)) rest
  have hwhole := take_append_drop octets.length (code.arrayOf octets)
  rw [h.take_arrayOf] at hwhole
  rw [readFspec_of_ok (readArray_extended hext h8 (by omega) hsplit)
    (by rw [length_arrayOf]; exact h.length_le), h.take_arrayOf, horder, hwhole]

end Written

/-! ## When decoding gives back the members -/

variable {ext len : Nat} {r s : BitReader}

section

variable (hsound : code.Sound members) (h : code.Written other members octets out bytes)

include hsound h

theorem Sound.order_eq (hext : code.ext = some ext) : code.endian.order octets = octets := by
  obtain ⟨h8, -, hlittle⟩ := hsound.ends ext hext
  cases hendian : code.endian with
  | big => rfl
  | little =>
    obtain ⟨front, final, rfl, hlength, -⟩ := h.split hext h8
    rw [hlittle hendian, length_eq_zero_iff] at hlength
    rw [hlength]
    rfl

theorem Sound.readFspec_eq : code.readFspec { data := bytes }
      = (.ok (code.arrayOf octets, octets.length), ⟨bytes, octets.length, 0⟩) := by
  cases hext : code.ext with
  | none => exact h.readFspec_fixed hext
  | some ext =>
    obtain ⟨h8, hends, -⟩ := hsound.ends ext hext
    exact h.readFspec_extended hext h8 hends (hsound.order_eq h hext)

end

theorem decode_of_readFspec (other : OtherCode O) {fspec : List UInt8}
    (h : code.readFspec r = (.ok (fspec, len), s)) :
    code.decode other r = readMembers other (fun f => f.presence fspec len) code.sorted .empty s :=
  ReadM.bind_ok h

theorem Sound.returns (hsound : code.Sound members)
    (hmembers : MembersRoundTrip other members .empty (8 * code.octetCount members)
      code.sorted) : code.Returns other members := by
  obtain ⟨octets, out, bytes, h⟩ := exists_written
    (fun f hf hpresent => f.byteIdx_nonneg_of_nonneg ((hsound.marked f hf).mp hpresent).1)
    (fun ext hext => .inl (hsound.ends ext hext).1) hmembers
  have hpresence : ∀ f ∈ code.sorted,
      f.presence (code.arrayOf octets) octets.length = presentIn members f := by
    intro f hf
    have hiff := h.presence_iff (mem_sorted.mp hf)
    rw [← hsound.marked f (mem_sorted.mp hf)] at hiff
    obtain ⟨found, hfound⟩ := isSome_iff_exists.mp
      (isSome_presence (mem_sorted.mp hf) (length_arrayOf code octets) octets.length)
    rw [hfound, some.injEq] at hiff
    rw [hfound, presentIn, some.injEq, Bool.eq_iff_iff, hiff]
  have hdecode := decode_of_readFspec other (hsound.readFspec_eq h)
  rw [readMembers_congr hpresence] at hdecode
  refine ⟨bytes, _, _, h.encoded, hdecode.trans h.readMembers_eq, ?_⟩
  intro f hf
  cases hvalue : members f.name with
  | none => simp [Members.after, Members.empty, hvalue]
  | some value =>
    have hname : f.name ∈ code.sorted.map (·.name) := mem_map_of_mem (mem_sorted.mpr hf)
    rw [Members.after_eq hname (by rw [hvalue]; rfl), hvalue]

theorem byteIdx_nonneg_of_encodeBytes {bytes : List UInt8}
    (h : code.encodeBytes other members = .ok bytes) :
    ∀ f ∈ code.fields, (members f.name).isSome → 0 ≤ f.byteIdx := by
  have hloop : ∀ (fs : List BitmapField) (fspec fspec' : List UInt8),
      fs.foldlM (markPresent members) fspec = .ok fspec' →
        ∀ f ∈ fs, (members f.name).isSome → 0 ≤ f.byteIdx := by
    intro fs
    induction fs with
    | nil => exact fun _ _ _ f hf => by cases hf
    | cons g fs ih =>
      intro fspec fspec' hfold f hf hpresent
      rw [foldlM_cons] at hfold
      cases hmark : markPresent members fspec g with
      | error e =>
        rw [hmark] at hfold
        cases hfold
      | ok next =>
        rw [hmark] at hfold
        rcases mem_cons.mp hf with rfl | hf
        · by_contra hneg
          rw [markPresent, if_pos hpresent, if_pos (.inl (by omega))] at hmark
          cases hmark
        · exact ih next fspec' hfold f hf hpresent
  cases harray : code.presenceArray members with
  | error e =>
    simp only [encodeBytes, encode, fspecOctets, harray, bind, Except.bind] at h
    cases h
  | ok fspec => exact hloop code.fields _ fspec harray

theorem nodup_sorted (hgen : code.Generated) : (code.sorted.map (·.name)).Nodup :=
  ((perm_insertionSort wireOrder code.fields).map _).nodup_iff.mpr hgen.names

theorem Written.len_le (h : code.Written other members octets out bytes) (hgen : code.Generated)
    (hother : other.Advancing) {decoded : Members O} (hlen : len ≤ bytes.length)
    (hrun : readMembers other (presentIn members) code.sorted .empty ⟨bytes, len, 0⟩
      = (.ok decoded, r)) (hsame : ∀ f ∈ code.fields, decoded f.name = members f.name) :
    len ≤ octets.length := by
  obtain ⟨hle, hend, hsmall⟩ := h.length_bytes
  have hshift := readMembers_shift (nodup_sorted hgen)
    (fun f hf => (hgen.emitted f (mem_sorted.mp hf)).advances hother)
    (r := ⟨bytes, len, 0⟩) (s := ⟨bytes, octets.length, 0⟩)
    ⟨hsmall, hlen, by simp, fun _ => rfl⟩ ⟨hsmall, hle, by simp, fun _ => rfl⟩
    (by simp [position]) hrun h.readMembers_eq ?_
  · obtain ⟨hwf, hdata, hpos⟩ := hshift
    have hbound := hwf.position_le
    rw [hdata] at hbound
    rw [position_seek] at hpos
    simp only [position] at hpos hbound
    omega
  · intro f hf hpresent
    have hname : f.name ∈ code.sorted.map (·.name) := mem_map_of_mem hf
    have hsome : (members f.name).isSome := some.inj hpresent
    rw [hsame f (mem_sorted.mp hf), Members.after_eq hname hsome]

theorem presence_of_run (hgen : code.Generated) {presence : BitmapField → Option Bool}
    {decoded : Members O} {r' : BitReader}
    (hrun : readMembers other presence code.sorted .empty r = (.ok decoded, r'))
    (hsame : ∀ f ∈ code.fields, decoded f.name = members f.name) :
    ∀ f ∈ code.fields, presence f = presentIn members f := by
  intro f hf
  rcases (readMembers_ok (nodup_sorted hgen) hrun).2 f (mem_sorted.mpr hf) with
    ⟨hfound, hsome⟩ | ⟨habsent, hnone⟩
  · rw [hsame f hf] at hsome
    rw [hfound, presentIn, hsome]
  rw [hsame f hf] at hnone
  rw [habsent, presentIn, hnone]
  rfl

theorem Written.marked_of_presence (h : code.Written other members octets out bytes)
    (hpresence : ∀ f ∈ code.fields,
      f.presence (code.arrayOf octets) octets.length = presentIn members f) :
    ∀ f ∈ code.fields, ((members f.name).isSome ↔ 0 ≤ f.bit ∧ code.Marked members f.bit.toNat) := by
  intro f hf
  rw [← h.presence_iff hf, hpresence f hf, presentIn, some.injEq]

theorem readFspec_extended_inv {fspec : List UInt8} (hext : code.ext = some ext) (h8 : ext < 8)
    (hsize : bytes.length < 2 ^ 64) (h : code.readFspec { data := bytes } = (.ok (fspec, len), s)) :
    ∃ xs rest, splitContinued (extended ext) bytes = some (xs, rest) ∧ len = xs.length
      ∧ s = ⟨bytes, len, 0⟩ := by
  cases hsplit : splitContinued (extended ext) bytes with
  | none =>
    obtain ⟨e, r, hread⟩ := readArray_endless hext h8 hsize hsplit
    rw [readFspec_of_error hread] at h
    cases h
  | some found =>
    obtain ⟨xs, rest⟩ := found
    have hread := readArray_extended hext h8 hsize hsplit
    by_cases hfits : xs.length ≤ code.numOctets
    · rw [readFspec_of_ok hread (by rwa [length_arrayOf])] at h
      cases h
      exact ⟨xs, rest, rfl, rfl, rfl⟩
    rw [readFspec_of_long hread (by rw [length_arrayOf]; omega)] at h
    cases hendian : code.endian with
    | big =>
      rw [hendian] at h
      cases h
      exact ⟨xs, rest, rfl, rfl, rfl⟩
    | little =>
      rw [hendian] at h
      cases h

theorem ext_lt_of_readFspec {found : List UInt8 × Nat} (hext : code.ext = some ext)
    (h : code.readFspec { data := bytes } = (.ok found, s)) :
    ext < 8 := by
  by_contra h8
  by_cases hempty : bytes = []
  · subst hempty
    obtain ⟨e, r, hread⟩ := readArray_empty hext
    rw [readFspec_of_error hread] at h
    cases h
  · have hread := readArray_undefined hext h8 hempty
    rw [readFspec_of_error (Prod.ext hread rfl)] at h
    cases h

theorem Returns.sound (hgen : code.Generated) (hother : other.Advancing)
    (hmembers : MembersRoundTrip other members .empty (8 * code.octetCount members)
      code.sorted) (hreturns : code.Returns other members) : code.Sound members := by
  obtain ⟨bytes, decoded, r, hencode, hdecode, hsame⟩ := hreturns
  obtain ⟨⟨fspec, len⟩, s, hfspec, -⟩ := ReadM.bind_eq_ok hdecode
  have hrun := (decode_of_readFspec other hfspec).symm.trans hdecode
  obtain ⟨octets, out, bytes', h⟩ := exists_written (byteIdx_nonneg_of_encodeBytes hencode)
    (fun ext hext => .inl (ext_lt_of_readFspec hext hfspec)) hmembers
  cases hencode.symm.trans h.encoded
  obtain ⟨-, -, hsmall⟩ := h.length_bytes
  have hpresence := presence_of_run hgen hrun hsame
  cases hext : code.ext with
  | none =>
    rw [h.readFspec_fixed hext] at hfspec
    cases hfspec
    refine ⟨h.marked_of_presence hpresence, ?_⟩
    intro ext hsome
    rw [hext] at hsome
    cases hsome
  | some ext =>
    have h8 := ext_lt_of_readFspec hext hfspec
    obtain ⟨xs, rest, hsplit, rfl, rfl⟩ := readFspec_extended_inv hext h8 (by omega) hfspec
    obtain ⟨front, final, hoctets, hfront, hmore, hfinal⟩ := h.split hext h8
    obtain ⟨after, hstart⟩ := h.starts
    have hshort : xs.length ≤ octets.length := by
      rw [readMembers_congr fun f hf => hpresence f (mem_sorted.mp hf)] at hrun
      refine h.len_le hgen hother ?_ hrun hsame
      rw [(splitContinued_eq_some hsplit).1, length_append]
      omega
    have hends : ¬code.Marked members (8 * code.lastOctet members + ext) := by
      -- otherwise every octet asks for another one
      intro hmarked
      have hall : ∀ octet ∈ code.endian.order octets, extended ext octet = true := by
        intro octet hoctet
        have hmem : octet ∈ octets := by
          cases hendian : code.endian with
          | big => rwa [hendian] at hoctet
          | little =>
            rw [hendian] at hoctet
            exact mem_reverse.mp hoctet
        rw [hoctets, mem_append, mem_singleton] at hmem
        rcases hmem with hmem | rfl
        · exact hmore octet hmem
        · exact hfinal.mpr hmarked
      rw [hstart] at hsplit
      have hlong := length_lt_of_splitContinued hall hsplit
      rw [length_order] at hlong
      omega
    have hlittle : code.endian = .little → code.lastOctet members = 0 := by
      -- otherwise the last octet comes first and ends the FSPEC
      intro hendian
      by_contra hlast
      have hfirst : bytes = [] ++ final :: (front.reverse ++ after) := by
        rw [hstart, hendian, hoctets]
        simp [Endian.order]
      rw [hfirst, splitContinued_last (by simp) (Bool.eq_false_iff.mpr (mt hfinal.mp hends))]
        at hsplit
      cases hsplit
      obtain ⟨f, hf, hpresent, hidx⟩ := exists_lastOctet hlast
      have hlost := hpresence f hf
      rw [presence, if_neg, presentIn, hpresent] at hlost
      · cases hlost
      rintro ⟨-, hlt⟩
      simp only [nil_append, length_singleton] at hlt
      omega
    have horder : code.endian.order octets = octets := by
      cases hendian : code.endian with
      | big => rfl
      | little =>
        rw [hlittle hendian, length_eq_zero_iff] at hfront
        rw [hoctets, hfront]
        rfl
    rw [h.readFspec_extended hext h8 hends horder] at hfspec
    simp only [Prod.mk.injEq, Except.ok.injEq] at hfspec
    obtain ⟨⟨rfl, hlen⟩, -⟩ := hfspec
    rw [← hlen] at hpresence
    refine ⟨h.marked_of_presence hpresence, ?_⟩
    intro ext' hext'
    cases hext.symm.trans hext'
    exact ⟨h8, hends, hlittle⟩

/-- If each member that is present comes back on its own, then an object of a generated bitmap
struct comes back as it was if its FSPEC is sound, and only then. -/
theorem returns_iff_sound (other : OtherCode O) (members : Members O) {index : TypeIndex}
    {s : StructAttrs} {children : List StructChild} (hgen : generate index s children = some code)
    (hmembers : MembersRoundTrip other members .empty (8 * code.octetCount members) code.sorted) :
    (code.Sound members → code.Returns other members)
      ∧ (other.Advancing → code.Returns other members → code.Sound members) :=
  ⟨fun hsound => hsound.returns hmembers,
    fun hother hreturns => hreturns.sound (generated hgen) hother hmembers⟩

end BitmapCode

/-! ## Accepted structs -/

theorem bitmapBit_of_bitmapField {index : TypeIndex} {child : StructChild} {f : BitmapField}
    (h : bitmapField index child = some (some f)) :
    ∃ kind, bitmapBit child = some (kind, f.name, f.bit) := by
  cases child with
  | field g =>
    simp only [bitmapField] at h
    split at h
    next bit hbit =>
      simp only [map_eq_some_iff, some.injEq] at h
      obtain ⟨access, -, rfl⟩ := h
      exact ⟨"field", by simp [bitmapBit, hbit]⟩
    next => cases h
  | struct s children =>
    simp only [bitmapField, some.injEq, map_eq_some_iff] at h
    obtain ⟨bit, hbit, rfl⟩ := h
    exact ⟨"struct", by simp [bitmapBit, hbit]⟩
  | choice c cases otherwise =>
    simp only [bitmapField, some.injEq, map_eq_some_iff] at h
    obtain ⟨bit, hbit, rfl⟩ := h
    exact ⟨"choice", by simp [bitmapBit, hbit]⟩
  | _ => cases h

theorem sublist_bits {index : TypeIndex} {children : List StructChild}
    {found : List (Option BitmapField)} (h : children.mapM (bitmapField index) = some found) :
    ((found.filterMap id).map (·.bit)).Sublist ((children.filterMap bitmapBit).map (·.2.2)) := by
  have hall := forall₂_of_mapM h
  clear h
  induction hall with
  | nil => exact Sublist.slnil
  | @cons child f children found hchild _ ih =>
    cases f with
    | none =>
      cases hbit : bitmapBit child with
      | none => rwa [filterMap_cons_none hbit]
      | some b =>
        rw [filterMap_cons_some hbit]
        exact ih.cons _
    | some f =>
      obtain ⟨kind, hbit⟩ := bitmapBit_of_bitmapField hchild
      rw [filterMap_cons_some hbit, map_cons]
      exact ih.cons_cons _

section

variable {proto : Protocol} {s : StructDef} {code : BitmapCode} (h : Accepted proto)
  (hs : s ∈ proto.structs) (hbitmap : s.attrs.isBitmap = true)
  (hgen : BitmapCode.generate (TypeIndex.ofProtocol proto) s.attrs s.children = some code)

include h hs hbitmap hgen

/-- What the validator guarantees about a bitmap struct of a protocol: presence bits that are not
negative and different, and an extension bit inside the octet. -/
theorem BitmapCode.bits_of_accepted :
    (∀ f ∈ code.fields, 0 ≤ f.bit) ∧ (code.fields.map (·.bit)).Nodup
      ∧ ∀ ext ∈ code.ext, ext < 8 := by
  have hvalid := h.structErrors hs
  simp only [validateStructDef, hbitmap, if_true, append_eq_nil_iff] at hvalid
  obtain ⟨-, hext, hbits⟩ := hvalid
  obtain ⟨hall, hnodup⟩ := bits_of_bitmapBitErrors hbits
  simp only [generate, bind, bind_eq_some_iff] at hgen
  obtain ⟨found, hfound, hgen⟩ := hgen
  have hsub := sublist_bits hfound
  split at hgen
  · cases hgen
    refine ⟨?_, hsub.nodup hnodup, ?_⟩
    · intro f hf
      obtain ⟨b, hb, hbit⟩ := mem_map.mp (hsub.subset (mem_map_of_mem hf))
      rw [← hbit]
      exact (hall b hb).1
    intro ext hsome
    have hsome' : s.attrs.bitmapExt = some ext := hsome
    simp only [hsome', errorIf_eq_nil, decide_eq_false_iff_not] at hext
    omega
  · cases hgen

theorem BitmapCode.sound_iff_of_accepted {O : Type} {members : Members O} :
    code.Sound members ↔ ∀ ext ∈ code.ext, (∀ f ∈ code.fields, f.bit.toNat % 8 = ext →
        ((members f.name).isSome ↔ f.bit.toNat / 8 < code.lastOctet members))
      ∧ (code.endian = .little → code.lastOctet members = 0) := by
  obtain ⟨hpos, hnodup, h8⟩ := bits_of_accepted h hs hbitmap hgen
  have hsame : ∀ f ∈ code.fields, ∀ g ∈ code.fields, g.bit = f.bit → g = f :=
    fun f hf g hg heq => inj_on_of_nodup_map hnodup hg hf heq
  refine ⟨?_, ?_⟩
  · intro hsound ext hext
    refine ⟨?_, (hsound.ends ext hext).2.2⟩
    intro f hf hmod
    refine ⟨?_, ?_⟩
    · intro hpresent
      have hle := byteIdx_le_lastOctet hf hpresent
      have hidx := byteIdx_of_nonneg (hpos f hf)
      have hne : f.bit.toNat / 8 ≠ code.lastOctet members := by
        intro heq
        refine (hsound.ends ext hext).2.1 (.inl ⟨f, hf, hpresent, ?_⟩)
        have := hpos f hf
        omega
      omega
    · intro hlt
      exact (hsound.marked f hf).mpr ⟨hpos f hf, .inr ⟨ext, hext, hlt, hmod⟩⟩
  intro hext
  refine ⟨?_, ?_⟩
  · intro f hf
    refine ⟨?_, ?_⟩
    · intro hpresent
      refine ⟨hpos f hf, .inl ⟨f, hf, hpresent, ?_⟩⟩
      have := hpos f hf
      omega
    rintro ⟨-, ⟨g, hg, hpresent, hbit⟩ | ⟨ext, hsome, hlt, hmod⟩⟩
    · have hpos' := hpos f hf
      rwa [hsame f hf g hg (by omega)] at hpresent
    · exact ((hext ext hsome).1 f hf hmod).mpr hlt
  · intro ext hsome
    refine ⟨h8 ext hsome, ?_, (hext ext hsome).2⟩
    have h8' := h8 ext hsome
    rintro (⟨g, hg, hpresent, hbit⟩ | ⟨ext', -, hlt, -⟩)
    · have hlt := ((hext ext hsome).1 g hg (by omega)).mp hpresent
      omega
    · omega

end

/-! ## Two octets -/

/-- Both members of a pair are present. -/
def pairMembers : Members Unit := fun name =>
  if name = "a" then some (.number 5) else if name = "b" then some (.number 6) else none

theorem roundTripsAt_byte (name : String) (bit : Int) (byte : UInt8) (before : Members Unit)
    {p : Nat} (hp : p % 8 = 0) :
    (mk name bit (.number (.writeWord 1 .big) .readU8)).RoundTripsAt noOther
      (.number byte.toNat) before p (bytesBits [byte]) := by
  have hbyte : wordBytes 1 (toUint64 byte.toNat) .big = [byte] := by
    have hlt := byte.toNat_lt
    have hword : toUint64 (byte.toNat : Int) = byte.toNat := by
      unfold toUint64
      omega
    rw [hword]
    simp [wordBytes, Endian.order, beBytes]
  refine ⟨?_, ?_⟩
  · intro w bs hlen hw herr
    refine ⟨_, rfl, ?_, ?_⟩
    · rw [← herr]
      exact BitWriter.error_appendBytes _ w
    have hwrite := hw.appendBytes [byte] herr
    rw [hlen, bytePad_of_aligned hp, append_nil] at hwrite
    rwa [WriteStmt.exec, hbyte]
  · have hread := reads_readU8 p byte
    rw [bytePad_of_aligned hp] at hread
    exact (hread.map fun n : Nat => (n : Int)).map MemberValue.number

theorem membersRoundTrip_pair (endian : Endian) :
    MembersRoundTrip noOther pairMembers .empty (8 * (pairCode endian).octetCount pairMembers)
      (pairCode endian).sorted := by
  have hcount : (pairCode endian).octetCount pairMembers = 2 := by
    cases endian <;> decide
  have hend : 8 * 2 + (bytesBits [5]).length + (bytesBits [6]).length < 2 ^ 63 := by decide
  rw [hcount]
  exact ⟨_, roundTripsAt_byte "a" 0 5 .empty (by decide), _,
    roundTripsAt_byte "b" 8 6 _ (by decide), hend⟩

theorem returns_iff_sound_big : (pairCode .big).Returns noOther pairMembers := by
  refine (BitmapCode.returns_iff_sound noOther pairMembers (generate_pair .big)
    (membersRoundTrip_pair .big)).1 ?_
  refine (BitmapCode.sound_iff_of_accepted (show Accepted (pairProtocol .big) by
    decide +kernel) (mem_singleton.mpr rfl) rfl (generate_pair .big)).mpr ?_
  intro ext hext
  cases hext
  exact ⟨by decide, by decide⟩

/-- In little-endian order the second octet is written first. It ends the FSPEC, the first one is
read as member `a`, and member `b` is lost. -/
theorem returns_iff_sound_fails : Accepted (pairProtocol .little)
      ∧ BitmapCode.generate (TypeIndex.ofProtocol (pairProtocol .little)) (pairStruct .little).attrs
        (pairStruct .little).children = some (pairCode .little)
      ∧ MembersRoundTrip noOther pairMembers .empty (8 * (pairCode .little).octetCount pairMembers)
        (pairCode .little).sorted
      ∧ (pairCode .little).encodeBytes noOther pairMembers = .ok [0x80, 0x81, 5, 6]
      ∧ ((pairCode .little).decode noOther { data := [0x80, 0x81, 5, 6] }).1.map
          (fun decoded => (decoded "a", decoded "b"))
        = .ok (some (.number 0x81), none)
      ∧ ¬(pairCode .little).Returns noOther pairMembers := by
  have hencode : (pairCode .little).encodeBytes noOther pairMembers = .ok [0x80, 0x81, 5, 6] := by
    decide +kernel
  have hdecode : ((pairCode .little).decode noOther { data := [0x80, 0x81, 5, 6] }).1.map
      (fun decoded => (decoded "a", decoded "b")) = .ok (some (.number 0x81), none) := by
    decide +kernel
  refine ⟨by decide +kernel, generate_pair .little, membersRoundTrip_pair .little, hencode,
    hdecode, ?_⟩
  rintro ⟨bytes, decoded, r, hbytes, hrun, hsame⟩
  cases hencode.symm.trans hbytes
  rw [hrun] at hdecode
  have hb := hsame _ (mem_cons_of_mem _ (mem_singleton.mpr rfl))
  have hlost : decoded "b" = none := congrArg Prod.snd (Except.ok.inj hdecode)
  rw [hlost] at hb
  cases hb

end Conduit.Bgen
