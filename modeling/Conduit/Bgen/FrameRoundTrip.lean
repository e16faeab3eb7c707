import Conduit.Bgen.FrameBytes

/-!
# Round trip of a frame

Decoding what the generated encoder of a frame has written. After the header the decoder has to
work out from the length, the declared sizes and the bytes that remain where the payload ends, and
from the id which message it is.
-/

namespace Conduit.Bgen

open Bits Io FrameCode BitReader Validator List
open BitReader (Reads)

/-! ## Where the payload ends -/

namespace FrameCode

variable (code : FrameCode) (object : FrameObject) (n : Nat)

/-- The header values that the decoder finds. -/
def headerValues : List Int := code.header.map (patchedValue object (code.storedLength n))

/-- The decoder gets a length back from the length field: it survives the modifier and the width,
and a signed field does not take it for a negative number. -/
def LengthRead (l : LengthCode) (length : Nat) : Prop :=
  LengthFits l.modifier l.width length ∧ ∀ c ∈ code.header, c.source = .placeholder →
      0 ≤ storageCast c.type.bits c.type.isSigned (l.stored length)

/-- The payload is the rest of the input, and a `length-from` expression agrees. -/
def LastInFrame : Prop :=
  code.footer = [] ∧ ∀ expr ∈ code.session.payloadLengthFrom,
    (evalFrameExpr code.index (memberValue code.header (code.headerValues object n))
      (8 * code.totalSize n - fieldsEnd 0 code.header) expr).map CppValue.toSize = some n

/-- What the decoder goes by says that the payload has `n` bytes. -/
def Delimited : Prop :=
  match code.length with
  | some l =>
    if l.payloadOnly then
      code.lengthOrigin l + n = code.totalSize n ∧ code.LengthRead l n
    else if 0 < code.footerBits then
      code.headerBytes + n + code.footerBytes = code.totalSize n
        ∧ code.LengthRead l (code.totalSize n)
    else code.LastInFrame object n
  | none =>
    if 0 < code.footerBits then code.payloadStart + n + code.footerBytes = code.totalSize n
    else code.LastInFrame object n

instance (l : LengthCode) (length : Nat) : Decidable (code.LengthRead l length) := by
  unfold LengthRead
  infer_instance

instance : Decidable (code.LastInFrame object n) := by
  unfold LastInFrame
  infer_instance

instance : Decidable (code.Delimited object n) := by
  unfold Delimited
  split <;> infer_instance

end FrameCode

/-- The decoder of a message gives `p` for the bytes `own`, when they are all that is left and it
starts at the beginning of the input or at bit `start`. -/
def DecodesFrom {P : Type} (m : ReadM P) (start : Nat) (own : List UInt8) (p : P) : Prop :=
  ∀ r : BitReader, r.WF → (r.position = 0 ∨ r.position = start) →
    r.data.drop ((r.position + 7) / 8) = own → (m r).1 = .ok p

theorem DecodesFrom.map {P Q : Type} {m : ReadM P} {start : Nat} {own : List UInt8} {p : P}
    (h : DecodesFrom m start own p) (g : P → Q) : DecodesFrom (g <$> m) start own (g p) := by
  intro r hr hstart hrest
  show ((m >>= fun a => pure (g a)) r).1 = _
  rw [ReadM.bind_ok (Prod.ext (h r hr hstart hrest) rfl)]
  rfl

section Decoded

variable {P : Type} {m : ReadM P} {own : List UInt8} {p : P}

theorem reads_bounded (pos : Nat) (h : (m { data := own }).1 = .ok p) :
    Reads (bounded own.length m) pos (bytePad pos ++ bytesBits own) p := by
  have hsub : Reads (subReader own.length) pos (bytePad pos ++ bytesBits own) { data := own } :=
    (reads_takeBytes "sub_reader" pos own).map fun bytes => mk bytes 0 0
  rw [← append_nil (bytePad pos ++ bytesBits own)]
  refine hsub.andThen ?_
  simp only [h]
  exact reads_ret _ p

theorem storageCast_of_nonneg {bits v : Nat} {isSigned : Bool} (hv : v < 2 ^ storageBits bits)
    (h : 0 ≤ storageCast bits isSigned v) : storageCast bits isSigned v = v := by
  unfold storageCast at h ⊢
  have hmod : (v : Int) % (2 ^ storageBits bits : Nat) = v := by
    rw [← Int.natCast_emod, Nat.mod_eq_of_lt hv]
  cases isSigned with
  | false => simpa using hmod
  | true =>
    simp only [if_true, Int.bmod_def, hmod] at h ⊢
    split at h
    next hlow => rw [if_pos hlow]
    next hlow => omega

variable {proto : Protocol} {frame : FrameDef} {code : FrameCode} {object : FrameObject} {n : Nat}

theorem FrameCode.Generated.lengthMember_eq (h : Generated proto frame code)
    (hacc : Accepted proto) (hframe : frame ∈ proto.frames)
    (hfits : code.Fits object n) {l : LengthCode} (hl : code.length = some l)
    (hread : code.LengthRead l (code.totalSize n - code.lengthOrigin l)) :
    ∃ v, code.lengthMember (code.headerValues object n) = some v
      ∧ reverseArith v code.session.frameLengthModifier
        = code.totalSize n - code.lengthOrigin l := by
  obtain ⟨first, c, rest, hfield⟩ := h.lengthField hacc hframe hl
  have hmem : c ∈ code.header := by
    rw [hfield.split.split]
    simp
  obtain ⟨hagrees, hwidth, -⟩ := hfield.agrees hfits (h.consistent.1 c hmem)
  have hstored : code.storedLength n = l.stored (code.totalSize n - code.lengthOrigin l) := by
    simp only [storedLength, hl]
  have hlt : code.storedLength n < 2 ^ c.type.bits := by
    rw [hstored, LengthCode.stored, hfield.bits, hagrees.storageBits_eq]
    exact Nat.mod_lt _ (Nat.two_pow_pos _)
  have hvalue : patchedValue object (code.storedLength n) c = code.storedLength n := by
    rw [patchedValue, if_pos hfield.split.source]
    apply storageCast_of_nonneg
    · rwa [hagrees.storageBits_eq]
    rw [hstored]
    exact hread.2 c hmem hfield.split.source
  have hword : code.storedLength n < 2 ^ 64 := by
    refine hlt.trans_le (Nat.pow_le_pow_right (by decide) ?_)
    have := hagrees.width
    omega
  refine ⟨code.storedLength n, ?_, ?_⟩
  · rw [lengthMember, headerValues, memberOf_map, hfield.name,
      find?_name h.names_nodup hmem, Option.map_some, hvalue]
    simp only [hagrees.number.1, Bool.false_eq_true, if_false, toUint64_natCast hword]
  have hmod : code.storedLength n % 2 ^ (8 * l.width) = code.storedLength n := by
    rw [hwidth, Nat.mod_eq_of_lt hlt]
  rw [hfield.modifier, ← hmod, hstored]
  exact (l.reverseArith_stored_iff _).mpr hread.1

theorem sizeT_sub {a b : Nat} (hb : b ≤ a) (ha : a < 2 ^ 64) : sizeT
    (a + (2 ^ 64 - b)) = a - b := by
  unfold sizeT
  omega

theorem FrameCode.LastInFrame.decode {r : BitReader} (hlast : code.LastInFrame object own.length)
    (hdec : DecodesFrom m (fieldsEnd 0 code.header) own p) (hr : r.WF)
    (hpos : r.position = fieldsEnd 0 code.header) (hlen : r.data.length = code.totalSize own.length)
    (hstarts : bytePad r.position ++ bytesBits own <+: (bytesBits r.data).drop r.position)
    (hbounded : ∃ r', bounded own.length m r = (.ok p, r')) :
    ∃ r', (match code.session.payloadLengthFrom with
      | some expr =>
        match evalFrameExpr code.index (memberValue code.header (code.headerValues object own.length))
          r.remainingBits expr with
        | some v => bounded v.toSize m r
        | none => undefinedRead r
      | none => m r) = (.ok p, r') := by
  cases hexpr : code.session.payloadLengthFrom with
  | some expr =>
    obtain ⟨v, heval, hsize⟩ := Option.map_eq_some_iff.mp (hlast.2 expr hexpr)
    rw [← hlen, ← hpos, ← hr.remainingBits_eq] at heval
    simp only [heval, hsize]
    exact hbounded
  | none =>
    obtain ⟨q, halign, hroom, htake, -⟩ := aligned_of_starts hr rfl hstarts
    have hq : q = (r.position + 7) / 8 := by
      have hdone := congrArg position halign
      rw [hr.alignToByte_eq, ← seek_byte, position_seek, position_seek] at hdone
      omega
    have hrest : r.data.drop ((r.position + 7) / 8) = own := by
      have hcount : (r.data.drop q).length = own.length := by
        rw [length_drop, hlen, totalSize, hlast.1, fieldsEnd, footerStart, payloadStart]
        omega
      rw [← hq, ← htake, ← hcount, take_length]
    exact ⟨(m r).2, Prod.ext (hdec r hr (.inr hpos) hrest) rfl⟩

section

variable (h : Generated proto frame code)
include h

theorem FrameCode.Generated.withPayloadReader_eq (hacc : Accepted proto)
    (hframe : frame ∈ proto.frames) {r : BitReader} (hfits : code.Fits object own.length)
    (hdelim : code.Delimited object own.length)
    (hdec : DecodesFrom m (fieldsEnd 0 code.header) own p) (hr : r.WF)
    (hpos : r.position = fieldsEnd 0 code.header) (hlen : r.data.length = code.totalSize own.length)
    (hstarts : bytePad r.position ++ bytesBits own <+: (bytesBits r.data).drop r.position) :
    ∃ r', code.withPayloadReader (code.headerValues object own.length) m r = (.ok p, r')
      ∧ (code.footer = [] ∨ r' = r.seek (code.footerStart own.length)) := by
  have hsmall := hfits.small
  have hfit := (code.sizes own.length).2.2
  have hown : (m { data := own }).1 = .ok p :=
    hdec { data := own } (wf_start (by omega)) (.inl rfl) (by simp [position])
  have hbounded : bounded own.length m r = (.ok p, r.seek (code.footerStart own.length)) := by
    rw [reads_bounded r.position hown r hr rfl hstarts, length_append, length_bytePad,
      length_bytesBits, footerStart, payloadStart]
    congr 2
    omega
  have hlast : ∀ hlast : code.LastInFrame object own.length, _ := fun hlast =>
    hlast.decode hdec hr hpos hlen hstarts ⟨_, hbounded⟩
  unfold withPayloadReader
  unfold Delimited at hdelim
  cases hl : code.length with
  | none =>
    have hname := (h.no_length hl).2
    simp only [hl] at hdelim
    simp only [hname, ne_eq, not_true_eq_false, false_and, if_false, and_true]
    by_cases hfooter : 0 < code.footerBits
    · simp only [if_pos hfooter] at hdelim
      have hremaining : r.remainingBytes = own.length + code.footerBytes := by
        rw [hr.remainingBytes_eq, hlen, ← hdelim, payloadStart]
        omega
      rw [if_pos hfooter, if_neg (by omega), hremaining, Nat.add_sub_cancel]
      exact ⟨_, hbounded, .inr rfl⟩
    · simp only [if_neg hfooter] at hdelim
      obtain ⟨r', hr'⟩ := hlast hdelim
      rw [if_neg hfooter]
      exact ⟨r', hr', .inl hdelim.1⟩
  | some l =>
    obtain ⟨first, c, rest, hfield⟩ := h.lengthField hacc hframe hl
    have hname : code.session.lengthFieldName ≠ "" := by
      rw [hfield.name]
      exact hfield.named
    have href := hfield.ref
    simp only [hl] at hdelim
    by_cases honly : l.payloadOnly = true
    · rw [if_pos honly] at hdelim href
      have hcounted : code.totalSize own.length - code.lengthOrigin l = own.length := by omega
      obtain ⟨v, hv, hback⟩ := h.lengthMember_eq hacc hframe hfits hl
        (by rw [hcounted]; exact hdelim.2)
      rw [if_pos ⟨hname, href⟩]
      simp only [hv, hback, hcounted]
      exact ⟨_, hbounded, .inr rfl⟩
    rw [if_neg honly] at hdelim href
    have horigin : code.lengthOrigin l = 0 := if_neg honly
    rw [if_neg fun hc => absurd (href.symm.trans hc.2) (by decide)]
    by_cases hfooter : 0 < code.footerBits
    · rw [if_pos hfooter] at hdelim
      obtain ⟨v, hv, hback⟩ := h.lengthMember_eq hacc hframe hfits hl
        (by rw [horigin]; exact hdelim.2)
      rw [horigin, Nat.sub_zero] at hback
      have hcount : sizeT (code.totalSize own.length
          + (2 ^ 64 - (code.headerBytes + code.footerBytes))) = own.length := by
        rw [sizeT_sub (by omega) (by omega)]
        omega
      rw [if_pos ⟨hname, href, hfooter⟩]
      simp only [hv, hback, hcount]
      exact ⟨_, hbounded, .inr rfl⟩
    · rw [if_neg hfooter] at hdelim
      obtain ⟨r', hr'⟩ := hlast hdelim
      rw [if_neg (fun hc => hfooter hc.2.2), if_neg (fun hc => hfooter hc.1)]
      exact ⟨r', hr', .inl hdelim.1⟩

theorem FrameCode.Generated.lengthWord_eq (hacc : Accepted proto) (hframe : frame ∈ proto.frames)
    (hfits : code.Fits object n) :
    ∀ d ∈ code.header, d.source = .placeholder → code.storedLength n < 2 ^ d.type.bits
      ∧ code.lengthWord n = wordBytes (d.type.bits / 8) (code.storedLength n) d.field.endian := by
  intro d hd hsource
  cases hl : code.length with
  | none => exact absurd hsource ((h.no_length hl).1 d hd)
  | some l =>
    obtain ⟨first, c, rest, hfield⟩ := h.lengthField hacc hframe hl
    have hdc : d = c := by
      by_contra hne
      refine hfield.split.others d ?_ hsource
      rw [hfield.split.split] at hd
      simpa [hne] using hd
    subst hdc
    obtain ⟨hagrees, hwidth, -⟩ := hfield.agrees hfits (h.consistent.1 d hd)
    constructor
    · rw [storedLength, hl]
      simp only [LengthCode.stored, hfield.bits, hagrees.storageBits_eq]
      exact Nat.mod_lt _ (Nat.two_pow_pos _)
    · rw [lengthWord, hl]
      simp only [hfield.endian, ← hwidth, Nat.mul_div_cancel_left _ (show 0 < 8 by decide)]

theorem FrameCode.Generated.memberOf_headerValues (object : FrameObject) (n : Nat) :
    ∃ c ∈ code.header, c.field.name = code.session.idFieldName
      ∧ memberOf code.header (code.headerValues object n) code.session.idFieldName
        = some (c, c.value object) := by
  obtain ⟨c, hc, hname, hsource⟩ := h.idField
  refine ⟨c, hc, hname, ?_⟩
  rw [headerValues, memberOf_map, ← hname, find?_name h.names_nodup hc,
    Option.map_some, patchedValue, if_neg hsource]

theorem FrameCode.Generated.decodePayload_eq (hacc : Accepted proto) (hframe : frame ∈ proto.frames)
    (hsingle : code.session.payloadIsArray = false) (decodeMessage : String → ReadM P)
    {msg : MessageDef} (hmsg : msg ∈ proto.messages) (hreceivable : msg.Receivable proto)
    (hid : ∀ c ∈ code.header, c.field.name = code.session.idFieldName →
      constraintValue code.index msg.id = some (c.value object)) :
    code.decodePayload decodeMessage (code.headerValues object n)
      = code.copyHeader (code.headerValues object n) <$> decodeMessage msg.name := by
  obtain ⟨c, hc, hname, hmember⟩ := h.memberOf_headerValues object n
  obtain ⟨leaf, hleaf, hleafName⟩ := h.decodeLeaf_eq hacc hframe hsingle hmsg hreceivable
    (hid c hc hname)
  rw [decodePayload, hmember]
  simp only [hleaf, hleafName]

theorem FrameCode.Generated.readFooter_eq (hfits : code.Fits object own.length) {r : BitReader}
    {q : Nat} (hr : r.WF) (hlen : r.data.length = code.totalSize own.length)
    (hrest : (bytesBits r.data).drop (fieldsEnd 0 code.header) = code.tailBits object own) :
    ∃ r', readFields code.footer ((r.seek q).seek (code.footerStart own.length))
      = (.ok (code.footer.map (·.value object)), r') := by
  have hreads : Reads (readFields code.footer) (code.footerStart own.length)
      (fieldsOutput object.output (code.footerStart own.length) code.footer)
      (code.footer.map (·.value object)) := by
    apply reads_readFields
    refine hfits.footer.imp ?_
    intro c hc p hagrees
    exact ⟨hagrees.reads (h.consistent.2 c hc), WriteStmt.length_output _ _ _⟩
  obtain ⟨hheader, -, hfit⟩ := code.sizes own.length
  have hlast : code.footerStart own.length ≤ 8 * r.data.length := by
    rw [footerStart]
    omega
  have hbefore : code.footerStart own.length = fieldsEnd 0 code.header
        + (bytePad (fieldsEnd 0 code.header) ++ bytesBits own).length := by
    rw [length_append, length_bytePad, length_bytesBits, footerStart, payloadStart]
    omega
  rw [seek_seek]
  refine ⟨_, hreads _ (hr.seek hlast) (position_seek _ _) ?_⟩
  rw [data_seek, hbefore, ← drop_drop, hrest, tailBits, ← hbefore,
    append_assoc _ (fieldsOutput object.output _ _), drop_left]
  exact prefix_append _ _

theorem FrameCode.Generated.decode_eq (hacc : Accepted proto) (hframe : frame ∈ proto.frames)
    (hfits : code.Fits object own.length) (hdelim : code.Delimited object own.length)
    {decodeMessage : String → ReadM P} {name : String}
    (hpayload : code.decodePayload decodeMessage (code.headerValues object own.length)
      = code.copyHeader (code.headerValues object own.length) <$> decodeMessage name)
    (hdec : DecodesFrom (decodeMessage name) (fieldsEnd 0 code.header) own p) {bytes : List UInt8}
    (hlen : bytes.length = code.totalSize own.length)
    (hbits : bytesBits bytes = fieldsOutput (patchedOutput object (code.lengthWord own.length)) 0
      code.header ++ code.tailBits object own) : ∃ r, code.decode decodeMessage { data := bytes }
      = (.ok { header := code.headerValues object own.length
               payload :=
                 { value := p
                   header := code.headerValues object own.length
                   footer := code.footer.map (·.value object) }
               footer := code.footer.map (·.value object) }, r) := by
  have hsmall := hfits.small
  have hr : WF { data := bytes } := wf_start (by omega)
  obtain ⟨hheader, hend⟩ := reads_patched h.consistent.1 hfits.header
    (h.lengthWord_eq hacc hframe hfits)
  rw [Nat.zero_add] at hend
  have hread := hheader { data := bytes } hr rfl (by rw [hbits]; exact prefix_append _ _)
  rw [Nat.zero_add, hend] at hread
  have hdone : fieldsEnd 0 code.header ≤ 8 * bytes.length := by
    have hsizes := code.sizes own.length
    unfold footerStart at hsizes
    omega
  have hrest : (bytesBits bytes).drop (fieldsEnd 0 code.header) = code.tailBits object own := by
    rw [hbits, ← hend, drop_left]
  have hr' : (seek (fieldsEnd 0 code.header) { data := bytes }).WF := hr.seek hdone
  obtain ⟨r', hpay, hafter⟩ := h.withPayloadReader_eq hacc hframe hfits hdelim
    (hdec.map (code.copyHeader (code.headerValues object own.length))) hr' (position_seek _ _) hlen (by
      rw [position_seek, data_seek, hrest, tailBits,
        append_assoc _ (fieldsOutput object.output _ _)]
      exact prefix_append _ _)
  obtain ⟨r'', hfooter⟩ : ∃ r'', readFields code.footer r'
      = (.ok (code.footer.map (·.value object)), r'') := by
    rcases hafter with hnil | rfl
    · rw [hnil]
      exact ⟨r', rfl⟩
    · exact h.readFooter_eq hfits hr hlen hrest
  refine ⟨r'', ?_⟩
  rw [decode, ReadM.bind_ok hread, ← headerValues, hpayload,
    ReadM.bind_ok hpay, ReadM.bind_ok hfooter]
  rfl

end

end Decoded

/-! ## Two protocols -/

/-- A frame with a constant, an id, a length in little-endian order and a footer. -/
def trailerFrame : FrameDef :=
  { name := "Packet"
    headerFields :=
      [.field { name := "magic", typeRef := "u16", constraint := some { equals := some "0xABCD" } },
       .field { name := "kind", typeRef := "u8", autoAttr := some "id"
                autoExpr := some { kind := .id } },
       .field { name := "size", typeRef := "u16", endian := .little, autoAttr := some "length"
                autoExpr := some { kind := .length } }]
    footerFields := [.field { name := "check", typeRef := "u8" }] }

def trailerProtocol : Protocol :=
  { name := "trailer"
    version := "1"
    types := [{ name := "u8", bits := 8 }, { name := "u16", bits := 16 }]
    messages := [{ name := "Ping", id := "1"
                   children := [.field { name := "value", typeRef := "u8" }] }]
    frames := [trailerFrame] }

/-- The decoder of a message with one byte, which says what it has decoded. -/
def decodeByte (name : String) : ReadM (String × Nat) := do
  let value ← readU8
  return (name, value)

theorem decodesFrom_decodeByte (name : String) (start : Nat) (byte : UInt8) :
    DecodesFrom (decodeByte name) start [byte] (name, byte.toNat) := by
  intro r hr _ hrest
  have hroom : (r.position + 7) / 8 + 1 ≤ r.data.length := by
    have hcount := congrArg List.length hrest
    rw [length_drop, length_singleton] at hcount
    omega
  have hvalue : beVal ([byte].take 1) = byte.toNat := by
    rw [take_of_length_le (by simp), beVal_eq_bitsVal, bytesBits_cons, bytesBits_nil,
      append_nil, toNat_eq_bitsVal]
  have hread := readU8_eq hr hroom
  rw [hrest, hvalue] at hread
  rw [decodeByte, ReadM.bind_ok (Prod.ext hread rfl)]
  rfl

/-- The object of a frame for a message with id 1. -/
def checkedObject : FrameObject :=
  { member := fun name => if name = "check" then 0x5A else 1, payloadCount := 1 }

/-- A frame for a message that is sent and one that is received under the same id. -/
def sharedFrame : FrameDef :=
  { name := "Packet"
    headerFields := [.field { name := "kind", typeRef := "u8", autoAttr := some "id"
                              autoExpr := some { kind := .id } }] }

def sharedProtocol : Protocol :=
  { name := "shared"
    version := "1"
    types := [{ name := "u8", bits := 8 }]
    messages :=
      [{ name := "Ask", id := "1", direction := .send
         children := [.field { name := "value", typeRef := "u8" }] },
       { name := "Answer", id := "1", direction := .receive
         children := [.field { name := "value", typeRef := "u8" }] }]
    frames := [sharedFrame] }

end Conduit.Bgen
