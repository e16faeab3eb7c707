import Conduit.Bgen.FrameBytes
import Conduit.Io.ByteParser

/-!
# Frames that start with the sync pattern

A header begins with the same bits in every frame as long as its fields are constants; where the
next field is one of the message, both values of its first bit occur. So the frames of a definition
all start with the sync pattern exactly if the pattern lies in the bits of the leading constants.
-/

namespace Conduit.Bgen

open Bits Io Validator FrameCode EncodeStep List

/-- The bits that a write puts in front of its value: a word starts at a byte. -/
def WriteStmt.gap (p : Nat) : WriteStmt → List Bool
  | .writeWord _ _ => bytePad p
  | _ => []

theorem WriteStmt.gap_prefix (s : WriteStmt) (value : Int) (p : Nat) :
    s.gap p <+: s.output value p := by
  cases s with
  | writeWord bytes e => exact prefix_append _ _
  | _ => exact nil_prefix

namespace FrameCode

variable (code : FrameCode)

/-- The header up to the first field that is not a constant. -/
def leading : List FieldCode := code.header.takeWhile (·.source.isConstant)

def following : List FieldCode := code.header.dropWhile (·.source.isConstant)

/-- The bits of the leading constants, whatever the members are. -/
def constantBits : List Bool := fieldsOutput (FrameObject.output ⟨fun _ => 0, 0⟩) 0 code.leading

/-- The bits that every frame starts with. -/
def leadingBits : List Bool :=
  match code.following.head? with
  | some c =>
    if c.source = .member then code.constantBits ++ c.write.gap code.constantBits.length
    else code.constantBits
  | none => code.constantBits

/-- The sync pattern lies in the bits that every frame starts with. -/
def SyncLeads : Prop := bytesBits code.session.syncPattern <+: code.leadingBits

instance : Decidable code.SyncLeads := by
  unfold SyncLeads
  infer_instance

theorem header_eq : code.header = code.leading ++ code.following :=
  (takeWhile_append_dropWhile ..).symm

theorem isConstant_leading {c : FieldCode} (hc : c ∈ code.leading) : c.source.isConstant = true :=
  all_eq_true.mp all_takeWhile c hc

theorem output_leading (object : FrameObject) :
    fieldsOutput object.output 0 code.leading = code.constantBits := by
  refine fieldsOutput_congr (fun c hc p => ?_) 0
  have hconstant := code.isConstant_leading hc
  unfold FrameObject.output FieldCode.value
  cases hsource : c.source <;> simp_all [ValueSource.isConstant]

theorem leadingBits_prefix (object : FrameObject) : ∃ first rest, code.header = first ++ rest
    ∧ code.leadingBits <+: fieldsOutput object.output 0 first
    ∧ ∀ c ∈ first, c.source ≠ .placeholder := by
  have hleading : ∀ c ∈ code.leading, c.source ≠ .placeholder := by
    intro c hc hsource
    have hconstant := code.isConstant_leading hc
    rw [hsource] at hconstant
    cases hconstant
  have hconstants : ∃ first rest, code.header = first ++ rest
      ∧ code.constantBits <+: fieldsOutput object.output 0 first
      ∧ ∀ c ∈ first, c.source ≠ .placeholder :=
    ⟨code.leading, code.following, code.header_eq,
      by simp only [code.output_leading object, prefix_rfl], hleading⟩
  unfold leadingBits
  cases hnext : code.following with
  | nil => exact hconstants
  | cons c rest =>
    simp only [head?_cons]
    split
    next hmember =>
      refine ⟨code.leading ++ [c], rest, by rw [code.header_eq, hnext, append_assoc]; rfl, ?_, ?_⟩
      · rw [fieldsOutput_append, code.output_leading object, prefix_append_right_inj]
        simp only [fieldsOutput, append_nil, Nat.zero_add]
        exact c.write.gap_prefix _ _
      · intro d hd
        rcases mem_append.mp hd with hd | hd
        · exact hleading d hd
        · rw [mem_singleton.mp hd, hmember]
          decide
    next => exact hconstants

theorem Generated.starts_of_syncLeads {proto : Protocol} {frame : FrameDef} {code : FrameCode}
    (h : Generated proto frame code) (hsync : code.SyncLeads) {object : FrameObject}
    {steps : List EncodeStep} {bytes : List UInt8}
    (henc : code.encodeBytes object (runAll steps) = .ok bytes) :
    code.session.syncPattern <+: bytes := by
  obtain ⟨first, rest, hheader, hbits, hsources⟩ := code.leadingBits_prefix object
  refine starts_of_encodeBytes hheader (hsync.trans hbits) ?_ henc
  intro l hl
  obtain ⟨c, hc, hplaceholder⟩ := h.placeholder hl
  rw [hheader, mem_append] at hc
  rcases hc with hc | hc
  · exact absurd hplaceholder (hsources c hc)
  · exact ⟨c, hc, hplaceholder⟩

/-- Constrained fields that come first, and on which the encoder and the analyzer agree, are leading
constants with the bytes of the pattern. -/
theorem Generated.syncLeads {proto : Protocol} {frame : FrameDef} {code : FrameCode}
    (h : Generated proto frame code)
    (hsync : SyncFirst code.index (plainFields frame.headerFields)) : code.SyncLeads := by
  obtain ⟨k, hfirst, hrest⟩ := hsync
  obtain ⟨hout, hconstant⟩ := fieldsOutput_sync ⟨fun _ => 0, 0⟩ (forall₂_take k h.header_emitted)
    hfirst (Nat.zero_mod 8)
  have hpattern : code.session.syncPattern
      = ((plainFields frame.headerFields).take k).flatMap (SessionAnalyzer.syncBytes code.index) := by
    have hnone : ((plainFields frame.headerFields).drop k).flatMap
        (SessionAnalyzer.syncBytes code.index) = [] :=
      flatMap_eq_nil_iff.mpr fun f hf => syncBytes_unconstrained (hrest f hf)
    rw [h.syncPattern_eq, ← take_append_drop k (plainFields frame.headerFields), flatMap_append,
      hnone, append_nil, take_append_drop]
  have hleading : code.leading
      = code.header.take k ++ (code.header.drop k).takeWhile (·.source.isConstant) := by
    rw [leading, ← takeWhile_append_of_pos hconstant, take_append_drop]
  have hbits : bytesBits code.session.syncPattern <+: code.constantBits := by
    rw [hpattern, ← hout, constantBits, hleading, fieldsOutput_append]
    exact prefix_append _ _
  refine hbits.trans ?_
  unfold leadingBits
  split
  · split
    · exact prefix_append _ _
    · exact prefix_rfl
  · exact prefix_rfl

end FrameCode

/-! ## Fields that vary -/

/-- At bit `p` the field can hold values with either first bit. -/
def FieldCode.Opens (c : FieldCode) (p : Nat) : Prop :=
  ∀ b : Bool, ∃ value, FieldAgrees c value p ∧ c.write.gap p ++ [b] <+: c.write.output value p

theorem FieldTypeInfo.PlainNumber.opens {c : FieldCode} (h : c.type.PlainNumber)
    (hc : c.Consistent) (hbits : 0 < c.type.bits ∧ c.type.bits ≤ 64) (p : Nat) : c.Opens p := by
  have hmismatch : ∀ value, ¬c.type.Mismatch c.field.endian true value p := by
    rintro value ⟨-, hword, -⟩
    exact absurd hword.2.2.1 (by simp [h.unsigned])
  have hagrees : ∀ value : Nat, value < 2 ^ c.type.bits → FieldAgrees c value p := fun value hlt =>
    ⟨h.representable hbits (Int.natCast_nonneg _) (by exact_mod_cast hlt), hmismatch _⟩
  have hzero : 0 < 2 ^ c.type.bits := Nat.two_pow_pos _
  have hwrite : c.write = plainWriteStmt c.type c.field.endian true := by
    rw [hc.write, emitWriteStmt]
    rcases h.encoding with henc | henc | henc <;> simp only [henc, h.integer.1] <;> rfl
  -- a word begins with its highest or its lowest byte
  have hwords : ∀ bytes ∈ [1, 2, 4, 8], ∀ e : Endian, ∀ b : Bool, ∃ value : Nat,
      value < 2 ^ (8 * bytes) ∧ [b] <+: bytesBits (wordBytes bytes (toUint64 value) e) := by
    intro bytes hbytes e b
    have hcases : ∀ bytes ∈ [1, 2, 4, 8],
        [false] <+: bytesBits (wordBytes bytes (toUint64 0) e)
        ∧ [true] <+: bytesBits (wordBytes bytes (toUint64 (128 : Nat)) .little)
        ∧ [true] <+: bytesBits (wordBytes bytes (toUint64 (2 ^ (8 * bytes - 1) : Nat)) .big) := by
      cases e <;> decide
    obtain ⟨hlow, hlittle, hbig⟩ := hcases bytes hbytes
    have hpos : 1 ≤ bytes := by
      simp only [mem_cons, not_mem_nil, or_false] at hbytes
      omega
    cases b with
    | false => exact ⟨0, Nat.two_pow_pos _, hlow⟩
    | true =>
      cases e with
      | big => exact ⟨_, Nat.pow_lt_pow_right (by decide) (by omega), hbig⟩
      | little =>
        have hroom : 2 ^ 8 ≤ 2 ^ (8 * bytes) := Nat.pow_le_pow_right (by decide) (by omega)
        exact ⟨128, by omega, hlittle⟩
  intro b
  rw [hwrite]
  unfold plainWriteStmt
  split
  next hbyte =>
    simp only [h.unsigned, Bool.not_false, Bool.and_self, Bool.true_and, beq_iff_eq] at hbyte
    obtain ⟨value, hlt, hfirst⟩ := hwords 1 (by simp) .big b
    exact ⟨value, hagrees value (by rw [hbyte]; exact hlt), by
      simpa only [WriteStmt.gap, WriteStmt.output, prefix_append_right_inj] using hfirst⟩
  next =>
    split
    next hword =>
      simp only [h.unsigned, Bool.not_false, Bool.and_self, Bool.true_and, Bool.or_eq_true,
        beq_iff_eq] at hword
      obtain ⟨value, hlt, hfirst⟩ := hwords (c.type.bits / 8) (by
        rcases hword with (hw | hw) | hw <;> rw [hw] <;> decide) c.field.endian b
      refine ⟨value, hagrees value ?_, by
        simpa only [WriteStmt.gap, WriteStmt.output, prefix_append_right_inj] using hfirst⟩
      rcases hword with (hw | hw) | hw <;> rw [hw] at hlt ⊢ <;> exact hlt
    next =>
      rw [if_neg (by simp [h.integer.2.2]), if_neg (by simp [h.unsigned])]
      obtain ⟨n, hn⟩ := Nat.exists_eq_succ_of_ne_zero hbits.1.ne'
      cases b with
      | false =>
        refine ⟨0, hagrees 0 hzero, ?_⟩
        rw [hn]
        exact ⟨_, by simp [WriteStmt.gap, WriteStmt.output, msbBits, toUint64]; rfl⟩
      | true =>
        have hlt : 2 ^ n < 2 ^ c.type.bits := Nat.pow_lt_pow_right (by decide) (by omega)
        refine ⟨(2 ^ n : Nat), hagrees _ hlt, ?_⟩
        have hword : (2 : Nat) ^ n < 2 ^ 64 := Nat.pow_lt_pow_right (by decide) (by omega)
        rw [hn]
        refine ⟨msbBits n (2 ^ n), ?_⟩
        simp only [WriteStmt.gap, WriteStmt.output, msbBits, toUint64_natCast hword,
          Nat.testBit_two_pow_self, nil_append, singleton_append]

/-- Where both bits can follow, a list that comes first in any case ends before them. -/
theorem prefix_of_both {l a x y : List Bool} (hx : l <+: a ++ false :: x)
    (hy : l <+: a ++ true :: y) : l <+: a := by
  by_cases hlen : l.length ≤ a.length
  · exact prefix_of_prefix_length_le hx (prefix_append _ _) hlen
  have hlt : a.length < l.length := by omega
  have hfalse := hx.getElem hlt
  have htrue := hy.getElem hlt
  rw [hfalse] at htrue
  simp at htrue

section

variable {proto : Protocol} {frame : FrameDef} {code : FrameCode} {object : FrameObject}

/-- The object with another value in a member. -/
def FrameObject.set (object : FrameObject) (name : String) (value : Int) : FrameObject :=
  { object with member := fun n => if n = name then value else object.member n }

theorem FieldCode.value_set {c : FieldCode} {name : String} (hname : c.field.name ≠ name)
    (value : Int) : c.value (object.set name value) = c.value object := by
  unfold FieldCode.value FrameObject.set
  cases c.source <;> simp [hname]

theorem FrameCode.Generated.footer_emitted (h : Generated proto frame code) :
    Forall₂ (fun f c => FieldCode.Emitted code.index code.session.payloadIsArray f c)
      (plainFields frame.footerFields) code.footer :=
  (forall₂_of_mapM h.footer).imp fun _ _ => FieldCode.emitted

theorem FrameCode.Generated.all_names_nodup (h : Generated proto frame code) :
    ((code.header ++ code.footer).map (·.field.name)).Nodup := by
  have hnames := h.names
  have hcompose : (plainFields frame.headerFields ++ plainFields frame.footerFields).map
      (fun f => toSnakeCase f.name)
      = ((code.header ++ code.footer).map (·.field.name)).map toSnakeCase := by
    rw [map_append, map_append, ← map_field_of_emitted h.header_emitted,
      ← map_field_of_emitted h.footer_emitted, map_append, map_map, map_map, map_map, map_map]
    rfl
  rw [hcompose] at hnames
  exact hnames.of_map

theorem FrameCode.Generated.fits_set (h : Generated proto frame code) {n : Nat}
    (hfits : code.Fits object n) {c : FieldCode} {rest : List FieldCode}
    (hnext : code.following = c :: rest) (hmember : c.source = .member) {value : Int}
    (hagrees : FieldAgrees c value code.constantBits.length) :
    code.Fits (object.set c.field.name value) n := by
  have hnodup := h.all_names_nodup
  rw [code.header_eq, hnext, map_append, map_append, map_cons, append_assoc, cons_append,
    nodup_middle, nodup_cons] at hnodup
  have hother : ∀ d, d ∈ code.leading ∨ d ∈ rest ∨ d ∈ code.footer →
      d.value (object.set c.field.name value) = d.value object := by
    intro d hd
    refine FieldCode.value_set (fun hname => hnodup.1 ?_) value
    rw [← hname]
    rcases hd with hd | hd | hd
    · exact mem_append_left _ (mem_map_of_mem hd)
    · exact mem_append_right _ (mem_append_left _ (mem_map_of_mem hd))
    · exact mem_append_right _ (mem_append_right _ (mem_map_of_mem hd))
  have hset : c.value (object.set c.field.name value) = value := by
    simp [FieldCode.value, hmember, FrameObject.set]
  have hplace : fieldsEnd 0 code.leading = code.constantBits.length := by
    rw [← length_fieldsOutput (length_output_fields ⟨fun _ => 0, 0⟩ 0 code.leading), Nat.zero_add]
    rfl
  have hkeep : ∀ d, d ∈ code.leading ∨ d ∈ rest ∨ d ∈ code.footer → ∀ p,
      HeaderAgrees object d p → HeaderAgrees (object.set c.field.name value) d p := by
    intro d hd p hp
    unfold HeaderAgrees at hp ⊢
    rwa [hother d hd]
  refine ⟨?_, ?_, hfits.small⟩
  · have hheader := hfits.header
    rw [code.header_eq, hnext, EachField.append, EachField] at hheader ⊢
    refine ⟨hheader.1.imp fun d hd => hkeep d (.inl hd), ?_,
      hheader.2.2.imp fun d hd => hkeep d (.inr (.inl hd))⟩
    rw [HeaderAgrees, if_neg (by rw [hmember]; decide), hset, hplace]
    exact hagrees
  · refine hfits.footer.imp fun d hd p hp => ?_
    rwa [hother d (.inr (.inr hd))]

/-- The bits of a frame with one byte of payload. -/
theorem FrameCode.Generated.starts_eq (h : Generated proto frame code) (hacc : Accepted proto)
    (hframe : frame ∈ proto.frames) (hfits : code.Fits object 1) {c : FieldCode}
    {rest : List FieldCode} (hnext : code.following = c :: rest) (hmember : c.source = .member) :
    ∃ bytes, code.encodeBytes object (runAll [.bytes [0]]) = .ok bytes
      ∧ code.constantBits ++ c.write.output (c.value object) code.constantBits.length
        <+: bytesBits bytes := by
  obtain ⟨hholds, -, -⟩ := h.writeHeader_eq hfits
  have herr := h.error_writeHeader hfits
  have hbody : PayloadWritten code object (runAll [.bytes [0]]) [0]
      ((code.writeHeader object {}).writer.appendBytes [0]) := by
    refine ⟨rfl, ?_, ?_, ?_, .inl ?_⟩
    · rw [BitWriter.error_appendBytes, herr]
    · exact (hholds.appendBytes [0] herr).sized
    · exact BitWriter.data_appendBytes herr [0]
    · rw [BitWriter.bitPos_appendBytes herr]
      omega
  obtain ⟨bytes, henc, -, hbits⟩ := h.encodeBytes_eq hacc hframe hfits hbody
  refine ⟨bytes, henc, ?_⟩
  have hpatched : fieldsOutput (patchedOutput object (code.lengthWord 1)) 0 code.leading
      = code.constantBits := by
    rw [← code.output_leading object]
    refine fieldsOutput_congr (fun d hd p => ?_) 0
    rw [patchedOutput, if_neg fun hsource => ?_]
    have hconstant := code.isConstant_leading hd
    rw [hsource] at hconstant
    cases hconstant
  rw [hbits, code.header_eq, hnext, fieldsOutput_append, length_singleton, hpatched, fieldsOutput,
    patchedOutput, if_neg (by rw [hmember]; decide), Nat.zero_add, append_assoc, append_assoc,
    prefix_append_right_inj]
  exact prefix_append _ _

end

namespace FrameCode

variable (code : FrameCode)

/-- Every frame that is encoded starts with the sync pattern. -/
def AllStart : Prop :=
  ∀ (object : FrameObject) (steps : List EncodeStep) (bytes : List UInt8),
    code.encodeBytes object (runAll steps) = .ok bytes → code.session.syncPattern <+: bytes

/-- The first field that is not a constant is a member, and can begin with either bit. -/
def Opens : Prop :=
  ∃ c ∈ code.following.head?, c.source = .member ∧ c.Opens code.constantBits.length

end FrameCode

end Conduit.Bgen
