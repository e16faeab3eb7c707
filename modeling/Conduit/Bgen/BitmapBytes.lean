import Conduit.Bgen.BitmapSafety

/-!
# The bytes of a bitmap struct

The encoder writes the FSPEC and then the members that are present; the decoder finds out from the
FSPEC which members these are, and reads them in the same order. Both depend on the FSPEC being read
as it was written, which the extension bit decides.
-/

namespace Conduit.Bgen

open Bits Io Members List
open BitReader (Reads)

/-! ## The presence array -/

namespace BitmapField

variable {f : BitmapField}

theorem byteIdx_of_nonneg (h : 0 ≤ f.bit) : f.byteIdx.toNat = f.bit.toNat / 8 := by
  unfold byteIdx
  rw [Int.tdiv_eq_ediv_of_nonneg h]
  omega

theorem bitInByte_of_nonneg (h : 0 ≤ f.bit) : f.bitInByte = 7 - f.bit.toNat % 8 := by
  unfold bitInByte
  rw [Int.tmod_eq_emod_of_nonneg h]
  omega

theorem byteIdx_nonneg_of_nonneg (h : 0 ≤ f.bit) : 0 ≤ f.byteIdx := Int.tdiv_nonneg h (by decide)

theorem bitInByte_of_neg (h : f.bit < 0) (hidx : 0 ≤ f.byteIdx) : 8 ≤ f.bitInByte := by
  have hmod := Int.tmod_add_mul_tdiv f.bit 8
  unfold byteIdx at hidx
  unfold bitInByte
  omega

theorem presence_of_nonneg (h : 0 ≤ f.bit) {fspec : List UInt8} {len : Nat}
    (hsize : f.byteIdx.toNat < fspec.length) :
    f.presence fspec len = some (decide (f.bit.toNat / 8 < len) && hasBit fspec f.bit.toNat) := by
  have hidx := byteIdx_of_nonneg h
  have htested : f.tested len ↔ f.bit.toNat / 8 < len := by
    unfold tested
    rw [hidx]
    exact and_iff_right (byteIdx_nonneg_of_nonneg h)
  have hoctet : fspec.getD (f.bit.toNat / 8) 0 = fspec[f.byteIdx.toNat] := by
    rw [← hidx, getD_eq_getElem _ _ hsize]
  unfold presence
  by_cases hlen : f.bit.toNat / 8 < len
  · rw [if_pos (htested.mpr hlen), getElem?_eq_getElem hsize, bitInByte_of_nonneg h, hasBit, hoctet]
    simp only [hlen, decide_true, Bool.true_and, Option.map_some, Option.some.injEq]
    rw [Bool.eq_iff_iff, bne_iff_ne, and_two_pow_ne_zero]
  · rw [if_neg (mt htested.mp hlen)]
    simp [hlen]

theorem presence_of_neg (h : f.bit < 0) {fspec : List UInt8} {len : Nat}
    (hsize : f.byteIdx.toNat < fspec.length) : f.presence fspec len = some false := by
  unfold presence
  by_cases htest : f.tested len
  · have hlarge := bitInByte_of_neg h htest.1
    rw [if_pos htest, getElem?_eq_getElem hsize, Option.map_some, Option.some.injEq,
      bne_eq_false_iff_eq, Nat.and_two_pow]
    have hbyte : (fspec[f.byteIdx.toNat]).toNat < 2 ^ f.bitInByte :=
      (UInt8.toNat_lt _).trans_le (Nat.pow_le_pow_right (by decide) hlarge)
    rw [Nat.testBit_lt_two_pow hbyte, Bool.toNat_false, Nat.zero_mul]
  · rw [if_neg htest]

end BitmapField

namespace BitmapCode

variable {code : BitmapCode} {O : Type} {members : Members O}

theorem markPresent_eq {fspec : List UInt8} {f : BitmapField} (hpresent : (members f.name).isSome)
    (hidx : 0 ≤ f.byteIdx) (hsize : f.byteIdx.toNat < fspec.length) :
    ∃ fspec', markPresent members fspec f = .ok fspec' ∧ fspec'.length = fspec.length
      ∧ ∀ k : Nat, hasBit fspec' k = (hasBit fspec k || decide (f.bit = k)) := by
  refine ⟨_, by rw [markPresent, if_pos hpresent, if_neg (by omega)], by simp, ?_⟩
  intro k
  by_cases hbit : 0 ≤ f.bit
  · have hset : fspec.modify f.byteIdx.toNat (· ||| UInt8.ofNat (2 ^ f.bitInByte))
        = setBit fspec f.bit.toNat := by
      rw [f.byteIdx_of_nonneg hbit, f.bitInByte_of_nonneg hbit]
      rfl
    have hsame : decide (f.bit.toNat = k) = decide (f.bit = k) := by
      rw [decide_eq_decide]
      omega
    rw [hset, hasBit_setBit (by rw [← f.byteIdx_of_nonneg hbit]; exact hsize), hsame]
  -- the mask of a negative bit is cut off
  have hmask : UInt8.ofNat (2 ^ f.bitInByte) = 0 := by
    obtain ⟨j, hj⟩ := Nat.exists_eq_add_of_le (f.bitInByte_of_neg (by omega) hidx)
    apply UInt8.toNat_inj.mp
    rw [hj, Nat.pow_add]
    simp
  have hne : f.bit ≠ k := by omega
  unfold hasBit
  rw [getD_modify _ _ hsize]
  simp [hmask, hne]

theorem foldlM_markPresent (fs : List BitmapField) (fspec : List UInt8)
    (hsize : ∀ f ∈ fs, f.byteIdx.toNat < fspec.length)
    (hidx : ∀ f ∈ fs, (members f.name).isSome → 0 ≤ f.byteIdx) :
    ∃ fspec', fs.foldlM (markPresent members) fspec = .ok fspec' ∧ fspec'.length = fspec.length
      ∧ ∀ k : Nat, hasBit fspec' k = true
        ↔ hasBit fspec k = true ∨ ∃ f ∈ fs, (members f.name).isSome ∧ f.bit = k := by
  induction fs generalizing fspec with
  | nil => exact ⟨fspec, rfl, rfl, by simp⟩
  | cons f fs ih =>
    by_cases hpresent : (members f.name).isSome
    · obtain ⟨next, hnext, hlen, hbits⟩ := markPresent_eq hpresent
        (hidx f mem_cons_self hpresent) (hsize f mem_cons_self)
      obtain ⟨fspec', hfold, hlen', hbits'⟩ := ih next
        (fun g hg => by rw [hlen]; exact hsize g (mem_cons_of_mem f hg))
        (fun g hg => hidx g (mem_cons_of_mem f hg))
      refine ⟨fspec', ?_, hlen'.trans hlen, ?_⟩
      · rw [foldlM_cons, hnext]
        exact hfold
      intro k
      simp only [hbits', hbits, Bool.or_eq_true, decide_eq_true_eq, mem_cons,
        exists_eq_or_imp, hpresent, true_and, or_assoc]
    obtain ⟨fspec', hfold, hlen', hbits'⟩ := ih fspec
      (fun g hg => hsize g (mem_cons_of_mem f hg))
      (fun g hg => hidx g (mem_cons_of_mem f hg))
    refine ⟨fspec', ?_, hlen', ?_⟩
    · rw [foldlM_cons, markPresent, if_neg hpresent]
      exact hfold
    intro k
    simp only [hbits', mem_cons, exists_eq_or_imp, hpresent, Bool.false_eq_true,
      false_and, false_or]

theorem lastOctet_loop (fs : List BitmapField) (last : Nat) :
    let last' : Nat := fs.foldl (fun (last : Nat) f =>
      if (members f.name).isSome ∧ (last : Int) < f.byteIdx then f.byteIdx.toNat else last) last
    last ≤ last' ∧ (∀ f ∈ fs, (members f.name).isSome → f.byteIdx ≤ last')
      ∧ (last' = last ∨ ∃ f ∈ fs, (members f.name).isSome ∧ f.byteIdx = last') := by
  induction fs generalizing last with
  | nil =>
    refine ⟨le_rfl, ?_, .inl rfl⟩
    intro f hf
    cases hf
  | cons g fs ih =>
    simp only [foldl_cons]
    by_cases hstep : (members g.name).isSome ∧ (last : Int) < g.byteIdx
    · rw [if_pos hstep]
      obtain ⟨hle, hall, horigin⟩ := ih g.byteIdx.toNat
      refine ⟨by omega, ?_, ?_⟩
      · intro f hf hpresent
        rcases mem_cons.mp hf with rfl | hf
        · omega
        · exact hall f hf hpresent
      · rcases horigin with horigin | ⟨f, hf, hpresent, horigin⟩
        · exact .inr ⟨g, mem_cons_self .., hstep.1, by omega⟩
        · exact .inr ⟨f, mem_cons_of_mem g hf, hpresent, horigin⟩
    rw [if_neg hstep]
    obtain ⟨hle, hall, horigin⟩ := ih last
    refine ⟨hle, ?_, ?_⟩
    · intro f hf hpresent
      rcases mem_cons.mp hf with rfl | hf
      · have hsmall : f.byteIdx ≤ last := by
          by_contra hlarge
          exact hstep ⟨hpresent, by omega⟩
        omega
      · exact hall f hf hpresent
    · rcases horigin with horigin | ⟨f, hf, hpresent, horigin⟩
      · exact .inl horigin
      · exact .inr ⟨f, mem_cons_of_mem g hf, hpresent, horigin⟩

theorem byteIdx_le_lastOctet {f : BitmapField} (hf : f ∈ code.fields)
    (hpresent : (members f.name).isSome) : f.byteIdx ≤ code.lastOctet members :=
  (lastOctet_loop code.fields 0).2.1 f hf hpresent

theorem exists_lastOctet (h : code.lastOctet members ≠ 0) :
    ∃ f ∈ code.fields, (members f.name).isSome ∧ f.byteIdx = code.lastOctet members :=
  (lastOctet_loop code.fields 0).2.2.resolve_left h

theorem lastOctet_lt : code.lastOctet members < code.numOctets := by
  by_cases hzero : code.lastOctet members = 0
  · rw [numOctets]
    omega
  obtain ⟨f, hf, -, hidx⟩ := exists_lastOctet hzero
  have hlt := byteIdx_lt hf
  omega

theorem presenceArray_eq (hidx : ∀ f ∈ code.fields, (members f.name).isSome → 0 ≤ f.byteIdx) :
    ∃ fspec, code.presenceArray members = .ok fspec ∧ fspec.length = code.numOctets
      ∧ ∀ k : Nat, hasBit fspec k = true
        ↔ ∃ f ∈ code.fields, (members f.name).isSome ∧ f.bit = k := by
  obtain ⟨fspec, hfold, hlen, hbits⟩ := foldlM_markPresent code.fields (replicate code.numOctets 0)
    (fun f hf => by rw [length_replicate]; exact byteIdx_lt hf) hidx
  refine ⟨fspec, hfold, by rw [hlen, length_replicate], ?_⟩
  intro k
  rw [hbits, hasBit_replicate]
  simp

theorem getD_mapIdx (fspec : List UInt8) (f : Nat → UInt8 → UInt8) {i : Nat}
    (hi : i < fspec.length) : (fspec.mapIdx f).getD i 0 = f i (fspec.getD i 0) := by
  grind

theorem markExtended_eq {fspec : List UInt8} {last ext : Nat} (hlast : last < fspec.length)
    (hok : ext < 8 ∨ last = 0) :
    ∃ fspec', markExtended fspec last ext = .ok fspec' ∧ fspec'.length = fspec.length
      ∧ ∀ k : Nat, k / 8 < fspec.length →
        hasBit fspec' k = (hasBit fspec k || decide (k / 8 < last ∧ k % 8 = ext)) := by
  by_cases hzero : last = 0
  · refine ⟨fspec, by rw [markExtended, if_pos (by omega)], rfl, ?_⟩
    intro k _
    simp [hzero]
  have h8 : ext < 8 := hok.resolve_right hzero
  refine ⟨_, by rw [markExtended, if_neg (by omega), extMask, if_pos h8], by simp, ?_⟩
  intro k hk
  unfold hasBit
  rw [getD_mapIdx fspec _ hk]
  by_cases hbefore : k / 8 < last
  · have hbit : (7 - ext = 7 - k % 8) ↔ k % 8 = ext := by omega
    rw [if_pos hbefore, testBit_or_mask _ (by omega)]
    simp only [hbit, hbefore, true_and]
  · simp [hbefore]

/-- The number of octets that the encoder writes. -/
def octetCount (code : BitmapCode) (members : Members O) : Nat :=
  match code.ext with
  | some _ => code.lastOctet members + 1
  | none => code.numOctets

/-- A bit that the encoder sets. -/
def Marked (code : BitmapCode) (members : Members O) (k : Nat) : Prop :=
  (∃ f ∈ code.fields, (members f.name).isSome ∧ f.bit = k)
    ∨ ∃ ext ∈ code.ext, k / 8 < code.lastOctet members ∧ k % 8 = ext

theorem hasBit_take {octets : List UInt8} {n k : Nat} (hn : n ≤ octets.length) (hk : k / 8 < n) :
    hasBit (octets.take n) k = hasBit octets k := by
  have hlen : (octets.take n).length = n := by
    rw [length_take]
    omega
  have hsplit := hasBit_append (octets.drop n) (show k / 8 < (octets.take n).length by omega)
  rw [take_append_drop] at hsplit
  exact hsplit.symm

theorem fspecOctets_eq (hidx : ∀ f ∈ code.fields, (members f.name).isSome → 0 ≤ f.byteIdx)
    (hext : ∀ ext ∈ code.ext, ext < 8 ∨ code.lastOctet members = 0) :
    ∃ octets, code.fspecOctets members = .ok (code.endian.order octets)
      ∧ octets.length = code.octetCount members
      ∧ ∀ k, k / 8 < octets.length → (hasBit octets k = true ↔ code.Marked members k) := by
  obtain ⟨fspec, hfspec, hlen, hbits⟩ := presenceArray_eq hidx
  cases hcode : code.ext with
  | none =>
    refine ⟨fspec, ?_, ?_, ?_⟩
    · simp only [fspecOctets, hfspec, hcode]
      rfl
    · rw [hlen, octetCount, hcode]
    intro k _
    rw [hbits, Marked, hcode]
    simp
  | some ext =>
    have hlast : code.lastOctet members < fspec.length := by
      rw [hlen]
      exact lastOctet_lt
    obtain ⟨marked, hmarked, hlen', hbits'⟩ := markExtended_eq hlast (hext ext hcode)
    have hcount : min (code.lastOctet members + 1) marked.length = code.lastOctet members + 1 := by
      omega
    refine ⟨marked.take (code.lastOctet members + 1), ?_, ?_, ?_⟩
    · simp only [fspecOctets, hfspec, hcode, bind, Except.bind, hmarked, hcount]
      rfl
    · rw [length_take, hcount, octetCount, hcode]
    intro k hk
    rw [length_take, hcount] at hk
    rw [hasBit_take (by omega) hk, hbits' k (by omega), Marked, hcode, Bool.or_eq_true, hbits]
    simp only [decide_eq_true_eq, Option.mem_some_iff, exists_eq_left']

end BitmapCode

/-! ## The members -/

section Members

variable {O : Type} {other : OtherCode O} {members : Members O}

/-- The value of a member is written as the bits `out` at bit `p`, and read back there by a decoder
that has already got the members `before`. -/
structure BitmapField.RoundTripsAt (f : BitmapField) (other : OtherCode O) (value : MemberValue O)
    (before : Members O) (p : Nat) (out : List Bool) : Prop where
  write : ∀ (w : BitWriter) (bs : List Bool), bs.length = p → w.Holds bs → w.error = none →
    ∃ w', f.write other value w = .ok w' ∧ w'.error = none ∧ w'.Holds (bs ++ out)
  read : Reads (f.read other before) p out value

/-- Every member that is present is read back on its own, at the place where the encoder puts it. -/
def MembersRoundTrip (other : OtherCode O) (members : Members O) :
    Members O → Nat → List BitmapField → Prop
  | _, p, [] => p < 2 ^ 63
  | before, p, f :: fs =>
    match members f.name with
    | none => MembersRoundTrip other members before p fs
    | some value => ∃ out, f.RoundTripsAt other value before p out
        ∧ MembersRoundTrip other members (before.assign f.name value) (p + out.length) fs

/-- The members after those of `fs` that are present have been read. -/
def Members.after (members before : Members O) (fs : List BitmapField) : Members O := fun name =>
  if name ∈ fs.map (·.name) ∧ (members name).isSome then members name else before name

theorem Members.after_eq {before : Members O} {fs : List BitmapField} {name : String}
    (hname : name ∈ fs.map (·.name)) (hsome : (members name).isSome) :
    members.after before fs name = members name :=
  if_pos ⟨hname, hsome⟩

/-- Which members are present. -/
def presentIn (members : Members O) (f : BitmapField) : Option Bool := some (members f.name).isSome

theorem MembersRoundTrip.run {code : BitmapCode} {fs : List BitmapField} {before : Members O}
    {p : Nat} (h : MembersRoundTrip other members before p fs)
    (hfs : ∀ f ∈ fs, f ∈ code.fields ∧ ((members f.name).isSome → 0 ≤ f.byteIdx)) :
    ∃ out, p + out.length < 2 ^ 63
      ∧ (∀ (w : BitWriter) (bs : List Bool), bs.length = p → w.Holds bs → w.error = none →
        ∃ w', fs.foldlM (code.encodeField other members) w = .ok w' ∧ w'.error = none
          ∧ w'.Holds (bs ++ out)) ∧ Reads (readMembers other (presentIn members) fs before) p out
        (members.after before fs) := by
  induction fs generalizing before p with
  | nil =>
    refine ⟨[], h, ?_, ?_⟩
    · intro w bs _ hw herr
      exact ⟨w, rfl, herr, by rwa [append_nil]⟩
    · exact BitReader.reads_ret p before
  | cons f fs ih =>
    have hrest : ∀ g ∈ fs, g ∈ code.fields ∧ ((members g.name).isSome → 0 ≤ g.byteIdx) :=
      fun g hg => hfs g (mem_cons_of_mem f hg)
    rw [MembersRoundTrip] at h
    cases hvalue : members f.name with
    | none =>
      rw [hvalue] at h
      obtain ⟨out, hsmall, hwrite, hread⟩ := ih h hrest
      refine ⟨out, hsmall, ?_, ?_⟩
      · intro w bs hp hw herr
        have hskip : code.encodeField other members w f = .ok w := by
          rw [BitmapCode.encodeField, hvalue]
          split <;> rfl
        rw [foldlM_cons, hskip]
        exact hwrite w bs hp hw herr
      have hsame : members.after before (f :: fs) = members.after before fs := by
        funext name
        by_cases hname : name = f.name
        · simp [Members.after, hname, hvalue]
        · simp [Members.after, hname]
      rw [readMembers, presentIn, hvalue, hsame]
      exact hread
    | some value =>
      rw [hvalue] at h
      obtain ⟨out, hround, h⟩ := h
      obtain ⟨outs, hsmall, hwrite, hread⟩ := ih h hrest
      obtain ⟨hf, hidx⟩ := hfs f mem_cons_self
      refine ⟨out ++ outs, by rw [length_append]; omega, ?_, ?_⟩
      · intro w bs hp hw herr
        obtain ⟨w', hstep, herr', hw'⟩ := hround.write w bs hp hw herr
        have hencode : code.encodeField other members w f = .ok w' := by
          have hle : f.byteIdx ≤ code.maxBit.tdiv 8 :=
            Int.tdiv_le_tdiv (by decide) (BitmapCode.le_maxBit hf)
          have hnonneg := hidx (by rw [hvalue]; rfl)
          rw [BitmapCode.encodeField, if_neg (by omega), hvalue]
          exact hstep
        obtain ⟨w'', hfold, herr'', hw''⟩ := hwrite w' (bs ++ out)
          (by rw [length_append, hp]) hw' herr'
        refine ⟨w'', ?_, herr'', by rwa [← append_assoc]⟩
        rw [foldlM_cons, hencode]
        exact hfold
      have hsame : members.after before (f :: fs)
          = members.after (before.assign f.name value) fs := by
        funext name
        by_cases hname : name = f.name
        · simp [Members.after, assign, hname, hvalue]
        · simp [Members.after, assign, hname]
      rw [readMembers, presentIn, hvalue, hsame]
      exact hround.read.andThen hread

end Members

/-! ## The bytes -/

namespace BitmapCode

variable {O : Type}

/-- The bytes of an object: the octets of the FSPEC, then the bits of its members. -/
structure Written (code : BitmapCode) (other : OtherCode O) (members : Members O)
    (octets : List UInt8) (out : List Bool) (bytes : List UInt8) : Prop where
  encoded : code.encodeBytes other members = .ok bytes
  count : octets.length = code.octetCount members
  marked : ∀ k, k / 8 < octets.length → (hasBit octets k = true ↔ code.Marked members k)
  bits : bytesBits bytes = bytesBits (code.endian.order octets) ++ out
    ++ bytePad (8 * octets.length + out.length)
  small : 8 * octets.length + out.length < 2 ^ 63
  read : Reads (readMembers other (presentIn members) code.sorted .empty)
    (8 * octets.length) out (members.after .empty code.sorted)

variable {code : BitmapCode} {other : OtherCode O} {members : Members O}

theorem exists_written (hidx : ∀ f ∈ code.fields, (members f.name).isSome → 0 ≤ f.byteIdx)
    (hext : ∀ ext ∈ code.ext, ext < 8 ∨ code.lastOctet members = 0)
    (hmembers : MembersRoundTrip other members .empty (8 * code.octetCount members) code.sorted) :
    ∃ octets out bytes, code.Written other members octets out bytes := by
  obtain ⟨octets, hoctets, hcount, hmarked⟩ := fspecOctets_eq hidx hext
  obtain ⟨out, hsmall, hwrite, hread⟩ := hmembers.run
    (fun f hf => ⟨mem_sorted.mp hf, hidx f (mem_sorted.mp hf)⟩)
  have hfront : (BitWriter.writeBytes (code.endian.order octets) {}).Holds
      (bytesBits (code.endian.order octets)) := by
    simpa [BitWriter.writeBytes, bytePad_of_aligned] using
      BitWriter.holds_empty.appendBytes (code.endian.order octets) rfl
  have hlen : (bytesBits (code.endian.order octets)).length = 8 * code.octetCount members := by
    rw [length_bytesBits, length_order, hcount]
  obtain ⟨w, hfold, herr, hw⟩ := hwrite _ _ hlen hfront (BitWriter.error_appendBytes _ _)
  obtain ⟨bytes, hbytes, hbits⟩ := hw.finish herr
  rw [length_append, hlen, ← hcount] at hbits
  rw [← hcount] at hsmall hread
  refine ⟨octets, out, bytes, ?_, hcount, hmarked, hbits, hsmall, hread⟩
  have hencode : code.encode other members {} = .ok w := by
    simp only [encode, hoctets, encodeFields, bind, Except.bind, hfold, herr]
    rfl
  simp only [encodeBytes, hencode, bind, Except.bind, hbytes]
  rfl

end BitmapCode

end Conduit.Bgen
