import Conduit.Bgen.FrameDispatch

/-!
# The bytes of a frame

What the generated encoder returns for a frame whose fields fit: the header with the length patched
in, the bytes of the message, and the footer at the next byte.
-/

namespace Conduit.Bgen

open Bits Io FrameCode BitWriter List
open BitWriter (Sized Extends)

/-! ## The encoded frame -/

namespace FrameCode

variable (code : FrameCode) (n : Nat)

/-- The byte at which the payload starts. -/
def payloadStart : Nat := (fieldsEnd 0 code.header + 7) / 8

/-- The bit at which the footer starts after a payload of `n` bytes. -/
def footerStart : Nat := 8 * (code.payloadStart + n)

/-- The size of a frame with a payload of `n` bytes. -/
def totalSize : Nat := (fieldsEnd (code.footerStart n) code.footer + 7) / 8

/-- The number in the length field of a frame with a payload of `n` bytes. -/
def storedLength : Nat :=
  match code.length with
  | none => 0
  | some l => l.stored (code.totalSize n - code.lengthOrigin l)

/-- The bytes that are patched in. -/
def lengthWord : List UInt8 :=
  match code.length with
  | none => []
  | some l => wordBytes l.width (code.storedLength n) l.endian

/-- The footer starts at a byte whatever is written before it. -/
def FooterAligns : Prop := ∀ c ∈ code.footer.head?, ∃ bytes e, c.write = .writeWord bytes e

end FrameCode

/-- The encoder of the message writes `own` after the header, and the footer follows at a byte. -/
structure PayloadWritten (code : FrameCode) (object : FrameObject)
    (encodeMessage : BitWriter → Except Error BitWriter) (own : List UInt8) (body : BitWriter) :
    Prop where
  encoded : encodeMessage (code.writeHeader object {}).writer = .ok body
  error : body.error = none
  sized : body.Sized
  data : body.data = (code.writeHeader object {}).writer.data ++ own
  aligned : body.bitPos % 8 = 0 ∨ code.FooterAligns

theorem BitWriter.holds_alignToByte {w : BitWriter} (h : w.Sized) :
    w.alignToByte.Holds (bytesBits w.data) := by
  have hpos : w.alignToByte.bitPos = 8 * w.data.length := by rw [bitPos_alignToByte, h]
  refine ⟨by rw [hpos, length_bytesBits], ?_⟩
  rw [data_alignToByte, length_bytesBits, bytePad_of_aligned (by omega), append_nil]

theorem BitWriter.alignToByte_alignToByte (w : BitWriter) :
    w.alignToByte.alignToByte = w.alignToByte := by
  have hpos := bitPos_alignToByte w
  rw [alignToByte, if_pos (by omega)]

section Encoded

variable {code : FrameCode} {object : FrameObject} {own : List UInt8} {body : BitWriter}
  {encodeMessage : BitWriter → Except Error BitWriter}

theorem writer_writeFrameFields (cs : List FieldCode) (s : HeaderState) :
    (cs.foldl (writeFrameField object) s).writer
      = cs.foldl (fun w c => c.write.exec (c.value object) w) s.writer := by
  induction cs generalizing s with
  | nil => rfl
  | cons c cs ih => rw [foldl_cons, foldl_cons, ih, writer_writeFrameField]

theorem writeFooter_alignToByte (hfooter : code.footer ≠ []) (herr : body.error = none)
    (haligned : body.bitPos % 8 = 0 ∨ code.FooterAligns) :
    code.writeFooter object body = code.writeFooter object body.alignToByte := by
  rcases haligned with haligned | haligned
  · rw [BitWriter.alignToByte, if_pos haligned]
  obtain ⟨c, cs, hcs⟩ := exists_cons_of_ne_nil hfooter
  obtain ⟨bytes, e, hwrite⟩ := haligned c (by rw [hcs]; rfl)
  have hfirst : c.write.exec (c.value object) body
      = c.write.exec (c.value object) body.alignToByte := by
    rw [hwrite]
    simp only [WriteStmt.exec, BitWriter.appendBytes, BitWriter.error_alignToByte, herr,
      BitWriter.alignToByte_alignToByte, Option.isSome_none, Bool.false_eq_true, if_false]
  rw [writeFooter, writeFooter, writer_writeFrameFields,
    writer_writeFrameFields, hcs, foldl_cons, foldl_cons, hfirst]

theorem writeFooter_eq (hbody : PayloadWritten code object encodeMessage own body)
    (hcs : ∀ c ∈ code.footer, c.Consistent ∧ c.type.Representable (c.value object))
    (hsmall : fieldsEnd (8 * body.data.length) code.footer + 71 < 2 ^ 64) :
    (code.writeFooter object body).error = none ∧ (code.writeFooter object body).Sized
      ∧ bytesBits (code.writeFooter object body).data
        = bytesBits body.data ++ fieldsOutput object.output (8 * body.data.length) code.footer
          ++ bytePad (fieldsEnd (8 * body.data.length) code.footer) := by
  by_cases hfooter : code.footer = []
  · have hsame : code.writeFooter object body = body := by
      rw [writeFooter, hfooter]
      rfl
    rw [hsame, hfooter, fieldsOutput, fieldsEnd, bytePad_of_aligned (by omega)]
    exact ⟨hbody.error, hbody.sized, by simp⟩
  have herr : body.alignToByte.error = none := by rw [BitWriter.error_alignToByte, hbody.error]
  have hholds := BitWriter.holds_alignToByte hbody.sized
  rw [writeFooter_alignToByte hfooter hbody.error hbody.aligned]
  have hok : (code.writeFooter object body.alignToByte).error = none := by
    refine error_writeFrameFields (s := { writer := body.alignToByte }) hcs hholds herr ?_
    rwa [length_bytesBits]
  have hat : HeaderState.At { writer := body.alignToByte }
      { position := body.alignToByte.bitPos } := ⟨rfl, rfl, rfl⟩
  obtain ⟨hwritten, -⟩ := holds_writeFrameFields hholds hat hok
  have hlen := length_fieldsOutput (length_output_fields object (8 * body.data.length) code.footer)
  refine ⟨hok, hwritten.sized, ?_⟩
  rw [length_bytesBits] at hwritten
  rw [writeFooter, hwritten.2, length_append, length_bytesBits, hlen]

/-- Every field can hold what the encoder writes into it, and is read as it is written. -/
structure FrameCode.Fits (code : FrameCode) (object : FrameObject) (n : Nat) : Prop where
  header : EachField (HeaderAgrees object) 0 code.header
  footer : EachField (fun c => FieldAgrees c (c.value object)) (code.footerStart n) code.footer
  small : code.totalSize n < 2 ^ 60

instance (code : FrameCode) (object : FrameObject) (n : Nat) : Decidable (code.Fits object n) :=
  decidable_of_iff (EachField (HeaderAgrees object) 0 code.header
      ∧ EachField (fun c => FieldAgrees c (c.value object)) (code.footerStart n) code.footer
      ∧ code.totalSize n < 2 ^ 60)
    ⟨fun h => ⟨h.1, h.2.1, h.2.2⟩, fun h => ⟨h.header, h.footer, h.small⟩⟩

variable {proto : Protocol} {frame : FrameDef} {n : Nat}

theorem FrameCode.Generated.consistent (h : Generated proto frame code) :
    (∀ c ∈ code.header, c.Consistent) ∧ ∀ c ∈ code.footer, c.Consistent := by
  have hall : ∀ {fields : List Field} {cs : List FieldCode},
      Forall₂ (fun f c => emitFrameField code.index code.session.payloadIsArray f = some c)
        fields cs → ∀ c ∈ cs, c.Consistent := by
    intro fields cs hcs
    induction hcs with
    | nil =>
      intro c hc
      cases hc
    | cons hc _ ih =>
      intro d hd
      rcases mem_cons.mp hd with rfl | hd
      · exact (FieldCode.emitted hc).consistent
      · exact ih d hd
  exact ⟨hall (forall₂_of_mapM h.header), hall (forall₂_of_mapM h.footer)⟩

theorem FrameCode.sizes (code : FrameCode) (n : Nat) : fieldsEnd 0 code.header ≤ code.footerStart n
      ∧ fieldsEnd (code.footerStart n) code.footer ≤ 8 * code.totalSize n
      ∧ code.payloadStart + n ≤ code.totalSize n := by
  have hend := le_fieldsEnd (code.footerStart n) code.footer
  unfold totalSize footerStart payloadStart at *
  omega

theorem FrameCode.Fits.representable_header (h : code.Fits object n) :
    ∀ c ∈ code.header, c.type.Representable (c.value object) := by
  refine EachField.forall_mem (P := fun c => c.type.Representable (c.value object)) h.header ?_
  intro c p hc
  by_cases hsource : c.source = .placeholder
  · simp only [HeaderAgrees, if_pos hsource] at hc
    rw [FieldCode.value, hsource]
    exact hc.representable_zero
  · simp only [HeaderAgrees, if_neg hsource] at hc
    exact hc.1

theorem FrameCode.Generated.error_writeHeader (h : Generated proto frame code)
    (hfits : code.Fits object n) : (code.writeHeader object {}).writer.error = none := by
  obtain ⟨hheader, hfooter, -⟩ := code.sizes n
  have hsmall := hfits.small
  refine error_writeFrameFields (s := { writer := {} }) ?_ holds_empty rfl ?_
  · intro c hc
    exact ⟨h.consistent.1 c hc, hfits.representable_header c hc⟩
  have hend := le_fieldsEnd (code.footerStart n) code.footer
  rw [length_nil]
  omega

theorem FrameCode.Generated.writeHeader_eq (h : Generated proto frame code)
    (hfits : code.Fits object n) :
    (code.writeHeader object {}).writer.Holds (fieldsOutput object.output 0 code.header)
      ∧ (code.writeHeader object {}).At code.headerLayout
      ∧ (fieldsOutput object.output 0 code.header).length = fieldsEnd 0 code.header := by
  obtain ⟨hholds, hat⟩ := code.holds_writeHeader (h.error_writeHeader hfits)
  have hlen := length_fieldsOutput (length_output_fields object 0 code.header)
  exact ⟨hholds, hat, by omega⟩

theorem FrameCode.LengthField.agrees {l : LengthCode} {first rest : List FieldCode} {c : FieldCode}
    (h : code.LengthField l first c rest) (hfits : code.Fits object n) (hc : c.Consistent) :
    LengthAgrees c (fieldsEnd 0 first) ∧ 8 * l.width = c.type.bits
      ∧ (fieldsEnd 0 first + 7) / 8 + l.width ≤ code.payloadStart := by
  have hfields := hfits.header
  rw [h.split.split, EachField.append, EachField] at hfields
  have hagrees : LengthAgrees c (fieldsEnd 0 first) := by
    have hheader := hfields.2.1
    rwa [HeaderAgrees, if_pos h.split.source] at hheader
  have hwidth : 8 * l.width = c.type.bits := by
    unfold LengthCode.width
    rw [h.bits]
    rcases hagrees.width with hb | hb | hb <;> rw [hb] <;> rfl
  refine ⟨hagrees, hwidth, ?_⟩
  obtain ⟨bits, hout, hbits⟩ := hagrees.output_eq hc 0
  have hsize := WriteStmt.length_output c.write 0 (fieldsEnd 0 first)
  rw [hout, length_append, hbits, length_bytePad] at hsize
  have hrest := le_fieldsEnd (fieldsEnd 0 first + c.write.size (fieldsEnd 0 first)) rest
  rw [payloadStart, h.split.split, fieldsEnd_append, fieldsEnd]
  omega

/-- The bits of a frame after its header. -/
def FrameCode.tailBits (code : FrameCode) (object : FrameObject) (own : List UInt8) : List Bool :=
  bytePad (fieldsEnd 0 code.header) ++ bytesBits own
    ++ fieldsOutput object.output (code.footerStart own.length) code.footer
    ++ bytePad (fieldsEnd (code.footerStart own.length) code.footer)

theorem FrameCode.Generated.unpatched_eq (h : Generated proto frame code)
    (hfits : code.Fits object own.length)
    (hbody : PayloadWritten code object encodeMessage own body) :
    (code.writeFooter object body).error = none
      ∧ (code.writeFooter object body).sizeBytes = code.totalSize own.length
      ∧ (code.writeFooter object body).data.length = code.totalSize own.length
      ∧ bytesBits (code.writeFooter object body).data
        = fieldsOutput object.output 0 code.header ++ code.tailBits object own := by
  obtain ⟨hholds, -, hlen⟩ := h.writeHeader_eq hfits
  have hheader := hholds.length_data
  have hstart : 8 * body.data.length = code.footerStart own.length := by
    rw [hbody.data, length_append, footerStart, payloadStart]
    omega
  have hrepresentable : ∀ c ∈ code.footer, c.Consistent ∧ c.type.Representable (c.value object) := by
    intro c hc
    refine ⟨h.consistent.2 c hc, ?_⟩
    exact EachField.forall_mem (P := fun c => c.type.Representable (c.value object)) hfits.footer
      (fun _ _ hd => hd.1) c hc
  have hsmall := hfits.small
  have hsizes := (code.sizes own.length).2.1
  obtain ⟨herr, hsized, hbits⟩ := writeFooter_eq hbody hrepresentable (by rw [hstart]; omega)
  rw [hstart] at hbits
  have hfooter := length_fieldsOutput
    (length_output_fields object (code.footerStart own.length) code.footer)
  have hsize : (code.writeFooter object body).data.length = code.totalSize own.length := by
    have hcount := congrArg List.length hbits
    simp only [length_append, length_bytesBits, length_bytePad, hstart, hfooter] at hcount
    rw [totalSize]
    omega
  refine ⟨herr, hsized.symm.trans hsize, hsize, ?_⟩
  rw [hbits, hbody.data, bytesBits_append, hholds.2, hlen, tailBits]
  simp only [append_assoc]

theorem FrameCode.Generated.encodeBytes_eq (h : Generated proto frame code)
    (hacc : Validator.Accepted proto) (hframe : frame ∈ proto.frames)
    (hfits : code.Fits object own.length)
    (hbody : PayloadWritten code object encodeMessage own body) :
    ∃ bytes, code.encodeBytes object encodeMessage = .ok bytes
      ∧ bytes.length = code.totalSize own.length
      ∧ bytesBits bytes = fieldsOutput (patchedOutput object (code.lengthWord own.length)) 0
          code.header ++ code.tailBits object own := by
  obtain ⟨-, hat, -⟩ := h.writeHeader_eq hfits
  obtain ⟨herr, hcount, hsize, hbits⟩ := h.unpatched_eq hfits hbody
  cases hl : code.length with
  | none =>
    refine ⟨_, (code.encodeBytes_eq_ok_iff object).mpr
      ⟨body, hbody.encoded, herr, by simp [hl], rfl⟩, ?_, ?_⟩
    · rw [finalBytes, hl]
      exact hsize
    rw [finalBytes, hl]
    have hsame : fieldsOutput object.output 0 code.header
        = fieldsOutput (patchedOutput object (code.lengthWord own.length)) 0 code.header := by
      apply fieldsOutput_congr
      intro c hc p
      rw [patchedOutput, if_neg ((h.no_length hl).1 c hc)]
    rw [← hsame]
    exact hbits
  | some l =>
    obtain ⟨first, c, rest, hfield⟩ := h.lengthField hacc hframe hl
    have hc : c.Consistent := h.consistent.1 c (by rw [hfield.split.split]; simp)
    obtain ⟨hagrees, hwidth, hroom⟩ := hfield.agrees hfits hc
    have hpos : (code.writeHeader object {}).lengthBytePos = (fieldsEnd 0 first + 7) / 8 :=
      hat.lengthStart.trans (layout_of_split hfield.split).1
    have hfit := (code.sizes own.length).2.2
    have hstored : l.stored (l.measured (code.writeHeader object {})
        (code.writeFooter object body)) = code.storedLength own.length := by
      simp only [storedLength, hl, LengthCode.measured, hcount, hat.lengthEnd, lengthOrigin]
    have hfinal : code.finalBytes (code.writeHeader object {}) (code.writeFooter object body)
        = overwrite (code.writeFooter object body).data ((fieldsEnd 0 first + 7) / 8)
          (code.lengthWord own.length) := by
      simp only [finalBytes, hl, patched, hpos, hstored, lengthWord]
    have hword : (code.lengthWord own.length).length = l.width := by
      simp only [lengthWord, hl, length_wordBytes]
    refine ⟨_, (code.encodeBytes_eq_ok_iff object).mpr ⟨body, hbody.encoded, herr, ?_, rfl⟩, ?_, ?_⟩
    · intro l' hl'
      rw [hl, Option.mem_some_iff] at hl'
      rw [← hl', hpos, hsize]
      omega
    · rw [hfinal, length_overwrite (by omega), hsize]
    · rw [hfinal]
      exact bytesBits_patched hfield.split hc hagrees (by rw [hword, hwidth]) hbits

end Encoded

end Conduit.Bgen
