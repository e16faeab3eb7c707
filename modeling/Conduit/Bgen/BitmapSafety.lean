import Conduit.Bgen.BitmapFspec
import Conduit.Bgen.FrameLayout
import Conduit.Io.ReaderSafety

/-!
# The presence array of the bitmap decoder

The decoder stores octets only as far as its array reaches, but counts all of them, and in
little-endian order it reverses as many octets as it has counted.
-/

namespace Conduit.Bgen

open Bits Io BitReader List
open BitReader (Safe)

/-! ## Members -/

variable {index : TypeIndex}

/-- The words that an expression reads have at most eight bytes. -/
def ReadExpr.Short : ReadExpr → Prop
  | .readWord _ bytes _ | .readSignedWord _ bytes _ => bytes ≤ 8
  | _ => True

theorem ReadExpr.Short.safe {expr : ReadExpr} (h : expr.Short) : Safe expr.exec := by
  have hmap : ∀ {α : Type} {m : ReadM α} (f : α → Int), Safe m → Safe (m >>= fun a => pure (f a)) :=
    fun f hm => hm.bind fun a => safe_ret (f a)
  cases expr with
  | readBcd bits => exact hmap (fun n : Nat => (n : Int)) (safe_readBcd bits)
  | readBcdSigned bits => exact safe_readBcdSigned bits
  | readSignMagnitude bits => exact safe_readSignMagnitude bits
  | readBits bits => exact hmap (fun n : Nat => (n : Int)) (safe_readBits bits)
  | readSignedBits bits => exact safe_readSignedBits bits
  | readU8 =>
    intro r hr
    exact ((consumes_readU8 hr).map fun n : Nat => (n : Int)).safe hr
  | readWord call bytes e =>
    intro r hr
    exact ((consumes_readFixed hr call h e).map fun n : Nat => (n : Int)).safe hr
  | readSignedWord call bytes e =>
    intro r hr
    exact ((consumes_readFixed hr call h e).map
      fun n : Nat => (n : Int).bmod (2 ^ (8 * bytes))).safe hr

theorem short_plainReadExpr (bits : Nat) (isSigned : Bool) (e : Endian) (byteAligned : Bool) :
    (plainReadExpr bits isSigned e byteAligned).Short := by
  unfold plainReadExpr
  split
  · trivial
  split
  next hword =>
    have hbytes : bits / 8 ≤ 8 := by
      simp only [Bool.and_eq_true, Bool.or_eq_true, beq_iff_eq] at hword
      omega
    cases isSigned <;> exact hbytes
  next => cases isSigned <;> trivial

theorem short_floatReadExpr (bits : Nat) (e : Endian) : (floatReadExpr bits e).Short := by
  unfold floatReadExpr
  repeat' split
  all_goals simp [ReadExpr.Short]

theorem short_emitReadExpr {fti : FieldTypeInfo} {e : Endian} {byteAligned : Bool}
    {expr : ReadExpr} (h : emitReadExpr fti e byteAligned = some expr) : expr.Short := by
  have hplain : (if fti.isFloat = true then some (floatReadExpr fti.bits e)
      else if 0 < fti.bits ∧ fti.bits ≤ 64 then
        some (plainReadExpr fti.bits fti.isSigned e byteAligned) else none) = some expr →
      expr.Short := by
    intro h
    split at h
    · cases h
      exact short_floatReadExpr fti.bits e
    split at h
    · cases h
      exact short_plainReadExpr fti.bits fti.isSigned e byteAligned
    · cases h
  unfold emitReadExpr at h
  cases hencoding : fti.wireEncoding <;> simp only [hencoding] at h
  case bcd | bcdS | bnrS =>
    cases h
    trivial
  all_goals exact hplain h

/-- The accesses of a generated member: emitted reads, and arrays whose length is an `int`. -/
def MemberAccess.Emitted : MemberAccess → Prop
  | .number _ read => read.Short
  | .bytes (some n) => n < 2 ^ 31
  | _ => True

theorem emitted_memberAccess {f : Field} {access : MemberAccess}
    (h : memberAccess index f = some access) : access.Emitted := by
  unfold memberAccess at h
  dsimp only at h
  split at h
  · cases h
    trivial
  split at h
  · cases h
    trivial
  split at h
  · split at h
    next n hn =>
      split at h
      next hint =>
        cases h
        exact hint
      next => cases h
    next =>
      cases h
      trivial
  · split at h
    · cases h
      trivial
    simp only [bind, Option.bind_eq_some_iff] at h
    obtain ⟨read, hread, h⟩ := h
    cases h
    exact short_emitReadExpr hread

theorem emitted_bitmapField {child : StructChild} {f : BitmapField}
    (h : bitmapField index child = some (some f)) : f.access.Emitted := by
  cases child with
  | field g =>
    simp only [bitmapField] at h
    split at h
    next bit hbit =>
      simp only [Option.map_eq_some_iff, Option.some.injEq] at h
      obtain ⟨access, haccess, rfl⟩ := h
      exact emitted_memberAccess haccess
    next => cases h
  | struct s children | choice c cases otherwise =>
    simp only [bitmapField, Option.some.injEq, Option.map_eq_some_iff] at h
    obtain ⟨bit, -, rfl⟩ := h
    trivial
  | _ => cases h

theorem exists_of_mem_mapM {α β : Type} {f : α → Option β} {as : List α} {bs : List β} {b : β}
    (h : as.mapM f = some bs) (hb : b ∈ bs) : ∃ a, f a = some b := by
  obtain ⟨a, -, ha⟩ := exists_of_forall₂ (forall₂_of_mapM h).flip hb
  exact ⟨a, ha⟩

/-- What generation guarantees: one member for each name, and emitted accesses. -/
structure BitmapCode.Generated (code : BitmapCode) : Prop where
  names : (code.fields.map (·.name)).Nodup
  emitted : ∀ f ∈ code.fields, f.access.Emitted

theorem BitmapCode.generated {s : StructAttrs} {children : List StructChild} {code : BitmapCode}
    (h : generate index s children = some code) : code.Generated := by
  simp only [generate, bind, Option.bind_eq_some_iff] at h
  obtain ⟨fields, hfields, h⟩ := h
  split at h
  next hnames =>
    cases h
    refine ⟨?_, ?_⟩
    · have hsnake : (fields.filterMap id).map (fun f => toSnakeCase f.name)
          = ((fields.filterMap id).map (·.name)).map toSnakeCase := by
        rw [map_map]
        rfl
      rw [hsnake] at hnames
      exact hnames.of_map
    · intro f hf
      simp only [mem_filterMap, id_eq, exists_eq_right] at hf
      obtain ⟨child, hchild⟩ := exists_of_mem_mapM hfields hf
      exact emitted_bitmapField hchild
  next => cases h

variable {O : Type} {other : OtherCode O}

theorem MemberAccess.Emitted.safe_read {f : BitmapField} (h : f.access.Emitted)
    (hother : ∀ name members, Safe (other.read name members)) (members : Members O) :
    Safe (f.read other members) := by
  unfold BitmapField.read
  cases haccess : f.access with
  | number write read =>
    rw [haccess] at h
    exact (ReadExpr.Short.safe h).bind fun v => safe_ret _
  | bytes length =>
    rw [haccess] at h
    cases length with
    | some n =>
      intro r hr
      have hwrap : r.nextByte + n < 2 ^ 64 := by
        have hint : n < 2 ^ 31 := h
        have hnext := hr.nextByte_le
        have hsmall := hr.small
        omega
      exact ((consumes_takeBytes hr "read_bytes" hwrap).map MemberValue.bytes).safe hr
    | none =>
      intro r hr
      have hwrap : r.nextByte + r.remainingBytes < 2 ^ 64 := by
        have hnext := hr.nextByte_le
        have hsmall := hr.small
        have hremaining := hr.remainingBytes_eq
        omega
      exact ((consumes_takeBytes hr "read_bytes" hwrap).map MemberValue.bytes).safe hr
  | other => exact (hother f.name members).bind fun v => safe_ret _

theorem safe_readMembers {presence : BitmapField → Option Bool} {fs : List BitmapField}
    (hother : ∀ name members, Safe (other.read name members))
    (hemitted : ∀ f ∈ fs, f.access.Emitted) (htests : ∀ f ∈ fs, (presence f).isSome)
    (members : Members O) : Safe (readMembers other presence fs members) := by
  induction fs generalizing members with
  | nil => exact safe_ret members
  | cons f fs ih =>
    have hrest := ih (fun g hg => hemitted g (mem_cons_of_mem f hg))
      (fun g hg => htests g (mem_cons_of_mem f hg))
    obtain ⟨present, hpresent⟩ := Option.isSome_iff_exists.mp (htests f mem_cons_self)
    rw [readMembers, hpresent]
    cases present with
    | false => exact hrest members
    | true =>
      have hread := (hemitted f mem_cons_self).safe_read hother members
      exact hread.bind fun value => hrest (members.assign f.name value)

/-! ## The array -/

namespace BitmapCode

variable {code : BitmapCode} {data : List UInt8}

/-- Decoding touches the presence array only inside its bounds: while it is read and reversed, and
in every test of a presence bit. -/
structure ArraySafe (code : BitmapCode) (data : List UInt8) : Prop where
  fspec : (code.readFspec { data }).1 ≠ .error .outOfBounds
  tests : ∀ fspec len r, code.readFspec { data } = (.ok (fspec, len), r) →
    ∀ f ∈ code.fields, (f.presence fspec len).isSome

/-- The input makes the decoder reverse more octets than its array has, or has it shift by a
negative number. -/
def Overruns (code : BitmapCode) (data : List UInt8) : Prop :=
  match code.ext with
  | none => False
  | some ext =>
    if ext < 8 then
      code.endian = .little
        ∧ ∃ found ∈ splitContinued (extended ext) data, code.numOctets < found.1.length
    else data ≠ []

theorem isSome_presence {f : BitmapField} (hf : f ∈ code.fields) {fspec : List UInt8}
    (hlen : fspec.length = code.numOctets) (len : Nat) : (f.presence fspec len).isSome := by
  unfold BitmapField.presence
  split
  · have hindex := byteIdx_lt hf
    rw [getElem?_eq_getElem (by omega)]
    rfl
  · rfl

/-- The outcomes of reading the FSPEC: a fault exactly where the input overruns the array, and
otherwise an error or an array of full size. -/
theorem readFspec_cases (hsize : data.length < 2 ^ 64) :
    code.Overruns data ∧ (code.readFspec { data }).1 = .error .outOfBounds ∨ ¬code.Overruns data
        ∧ ((∃ e r, code.readFspec { data } = (.error (.error e), r))
          ∨ ∃ fspec len q, code.readFspec { data } = (.ok (fspec, len), ⟨data, q, 0⟩)
            ∧ fspec.length = code.numOctets ∧ q ≤ data.length) := by
  cases hext : code.ext with
  | none =>
    refine .inr ⟨by simp [Overruns, hext], ?_⟩
    by_cases hroom : code.numOctets ≤ data.length
    · have hread := readArray_fixed hext hsize hroom
      have hlen : (data.take code.numOctets).length = code.numOctets := by
        rw [length_take]
        omega
      refine .inr ⟨_, _, _, readFspec_of_ok hread (by omega), ?_, hroom⟩
      rw [length_append, length_order, length_take, length_drop]
      omega
    · obtain ⟨e, r, hread⟩ := readArray_short hext hsize (by omega)
      exact .inl ⟨e, r, readFspec_of_error hread⟩
  | some ext =>
    by_cases h8 : ext < 8
    · cases hsplit : splitContinued (extended ext) data with
      | none =>
        obtain ⟨e, r, hread⟩ := readArray_endless hext h8 hsize hsplit
        exact .inr ⟨by simp [Overruns, hext, h8, hsplit], .inl ⟨e, r, readFspec_of_error hread⟩⟩
      | some found =>
        obtain ⟨xs, rest⟩ := found
        have hread := readArray_extended hext h8 hsize hsplit
        have htaken : xs.length ≤ data.length := by
          rw [(splitContinued_eq_some hsplit).1, length_append]
          omega
        have hover : code.Overruns data ↔ code.endian = .little ∧ code.numOctets < xs.length := by
          simp [Overruns, hext, h8, hsplit]
        by_cases hfits : xs.length ≤ code.numOctets
        · refine .inr ⟨by rw [hover]; omega, .inr ⟨_, _, _, readFspec_of_ok hread ?_, ?_, htaken⟩⟩
          · rwa [length_arrayOf]
          rw [length_append, length_order, length_take, length_drop, length_arrayOf]
          omega
        have hlong := readFspec_of_long hread (by rw [length_arrayOf]; omega)
        cases hendian : code.endian with
        | big =>
          rw [hendian] at hlong
          exact .inr ⟨by rw [hover, hendian]; simp,
            .inr ⟨_, _, _, hlong, length_arrayOf code xs, htaken⟩⟩
        | little =>
          rw [hendian] at hlong
          exact .inl ⟨by rw [hover]; exact ⟨hendian, by omega⟩, by rw [hlong]⟩
    · by_cases hdata : data = []
      · subst hdata
        obtain ⟨e, r, hread⟩ := readArray_empty hext
        exact .inr ⟨by simp [Overruns, hext, h8], .inl ⟨e, r, readFspec_of_error hread⟩⟩
      · have hread := readArray_undefined hext h8 hdata
        refine .inl ⟨by simpa [Overruns, hext, h8] using hdata, ?_⟩
        rw [readFspec_of_error (Prod.ext hread rfl)]

theorem mem_sorted {f : BitmapField} : f ∈ code.sorted ↔ f ∈ code.fields :=
  (perm_insertionSort BitmapField.wireOrder code.fields).mem_iff

/-- The decoder of a bitmap struct stays inside its presence array exactly on the inputs that do
not overrun it, and then it decodes or returns an error if the decoders of the members do. -/
theorem arraySafe_iff (other : OtherCode O) {index : TypeIndex} {s : StructAttrs}
    {children : List StructChild} (hgen : generate index s children = some code)
    (hsize : data.length < 2 ^ 64) :
    (code.ArraySafe data ↔ ¬code.Overruns data) ∧ (data.length < 2 ^ 61 → ¬code.Overruns data →
        (∀ name members, Safe (other.read name members)) →
        (∃ members, (code.decode other { data }).1 = .ok members)
          ∨ ∃ e, (code.decode other { data }).1 = .error (.error e)) := by
  have hgenerated := generated hgen
  refine ⟨⟨?_, ?_⟩, ?_⟩
  · intro hsafe hover
    rcases readFspec_cases hsize with ⟨-, hfault⟩ | ⟨hnot, -⟩
    · exact hsafe.fspec hfault
    · exact hnot hover
  · intro hover
    rcases readFspec_cases hsize with ⟨hover', -⟩ | ⟨-, ⟨e, r, hread⟩ | ⟨fspec, len, q, hread, hlen, -⟩⟩
    · exact absurd hover' hover
    · refine ⟨by rw [hread]; simp, ?_⟩
      intro fspec len r' hread'
      rw [hread] at hread'
      cases hread'
    refine ⟨by rw [hread]; simp, ?_⟩
    intro fspec' len' r' hread' f hf
    rw [hread] at hread'
    cases hread'
    exact isSome_presence hf hlen _
  intro hsmall hover hother
  rcases readFspec_cases hsize with ⟨hover', -⟩ | ⟨-, ⟨e, r, hread⟩ | ⟨fspec, len, q, hread, hlen, hq⟩⟩
  · exact absurd hover' hover
  · exact Or.inr ⟨e, by rw [decode, ReadM.bind_error hread]⟩
  have hwf : WF ⟨data, q, 0⟩ := ⟨hsmall, hq, by simp, fun _ => rfl⟩
  have hsafe : Safe (readMembers other (fun f => f.presence fspec len) code.sorted
      .empty) := safe_readMembers hother
    (fun f hf => hgenerated.emitted f (mem_sorted.mp hf))
    (fun f hf => isSome_presence (mem_sorted.mp hf) hlen len) .empty
  obtain ⟨hfault, -⟩ := hsafe ⟨data, q, 0⟩ hwf
  rw [decode, ReadM.bind_ok hread]
  rcases hresult : (readMembers other (fun f => f.presence fspec len) code.sorted
    .empty ⟨data, q, 0⟩).1 with fault | members
  · cases fault with
    | error e => exact Or.inr ⟨e, rfl⟩
    | outOfBounds => exact absurd hresult hfault
  · exact Or.inl ⟨members, rfl⟩

end BitmapCode

/-! ## A bitmap in little-endian order -/

/-- Two presence bits in two octets, and bit 7 of an octet says that another one follows. -/
def pairStruct (endian : Endian) : StructDef :=
  { attrs := { name := "Pair", isBitmap := true, bitmapBits := 16, bitmapExt := some 7
               bitmapEndian := endian }
    children := [.field { name := "a", typeRef := "u8", bit := some 0 },
                 .field { name := "b", typeRef := "u8", bit := some 8 }] }

def pairProtocol (endian : Endian) : Protocol :=
  { name := "pair"
    version := "1"
    types := [{ name := "u8", bits := 8 }]
    structs := [pairStruct endian] }

/-- The class that is generated for it. -/
def pairCode (endian : Endian) : BitmapCode :=
  { fields := [⟨"a", 0, .number (.writeWord 1 .big) .readU8⟩,
               ⟨"b", 8, .number (.writeWord 1 .big) .readU8⟩]
    ext := some 7
    endian }

theorem generate_pair (endian : Endian) :
    BitmapCode.generate (TypeIndex.ofProtocol (pairProtocol endian)) (pairStruct endian).attrs
      (pairStruct endian).children = some (pairCode endian) := by
  cases endian <;> decide +kernel

/-- No member is coded elsewhere. -/
def noOther : OtherCode Unit := { write := fun _ _ w => .ok w, read := fun _ _ => return () }

/-- In big-endian order the octet that does not fit is dropped. -/
theorem arraySafe_iff_big : (pairCode .big).ArraySafe [1, 1, 0]
      ∧ ((∃ members, ((pairCode .big).decode noOther { data := [1, 1, 0] }).1 = .ok members)
        ∨ ∃ e, ((pairCode .big).decode noOther { data := [1, 1, 0] }).1 = .error (.error e)) := by
  have hover : ¬(pairCode .big).Overruns [1, 1, 0] := by
    simp [BitmapCode.Overruns, pairCode]
  obtain ⟨hsafe, hdecode⟩ := BitmapCode.arraySafe_iff noOther (generate_pair .big)
    (show ([1, 1, 0] : List UInt8).length < 2 ^ 64 by decide)
  exact ⟨hsafe.mpr hover, hdecode (by decide) hover fun _ _ => safe_ret ()⟩

/-- Two octets with the extension bit and one without are one too many for the array of a
little-endian bitmap: the reversal leaves it. -/
theorem arraySafe_iff_fails : Validator.Accepted (pairProtocol .little)
      ∧ BitmapCode.generate (TypeIndex.ofProtocol (pairProtocol .little)) (pairStruct .little).attrs
        (pairStruct .little).children = some (pairCode .little)
      ∧ (pairCode .little).numOctets = 2
      ∧ ((pairCode .little).decode noOther { data := [1, 1, 0] }).1 = .error .outOfBounds := by
  refine ⟨by decide +kernel, generate_pair .little, by decide, ?_⟩
  have hread : (pairCode .little).readFspec { data := [1, 1, 0] }
      = (.error .outOfBounds, ⟨[1, 1, 0], 3, 0⟩) := by decide +kernel
  rw [BitmapCode.decode, ReadM.bind_error hread]

end Conduit.Bgen
