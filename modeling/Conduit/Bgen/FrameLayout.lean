import Conduit.Bgen.FieldRoundTrip
import Conduit.Bgen.Frame
import Conduit.Io.WriterExtends

/-!
# Where the encoder of a frame puts things

The encoder of a message is seen here only through the calls it makes on the writer. Whatever they
are, the header stays as it was written, and the buffer is as long as the writer says. The places
of the header fields follow from the emitted statements alone.
-/

namespace Conduit.Bgen

open Bits Io BitWriter
open BitWriter (Sized Extends)

/-! ## What is generated -/

/-- The parts of the generated class, one by one. -/
structure FrameCode.Generated (proto : Protocol) (frame : FrameDef) (code : FrameCode) : Prop where
  index : code.index = TypeIndex.ofProtocol proto
  session : code.session = SessionAnalyzer.analyze proto frame
  header : (Validator.plainFields frame.headerFields).mapM
    (emitFrameField code.index code.session.payloadIsArray) = some code.header
  footer : (Validator.plainFields frame.footerFields).mapM
    (emitFrameField code.index code.session.payloadIsArray) = some code.footer
  length : emitLength code.index frame.headerFields = some code.length
  headerBits : code.headerBits = codeHeaderBits code.index frame.headerFields
  names : ((Validator.plainFields frame.headerFields
    ++ Validator.plainFields frame.footerFields).map fun f => toSnakeCase f.name).Nodup
  id : code.session.idFieldName ≠ ""
  labels : dispatchCompiles code.index code.session = true

theorem FrameCode.generated {proto : Protocol} {frame : FrameDef} {code : FrameCode}
    (h : generate proto frame = some code) : Generated proto frame code := by
  simp only [generate, bind, Option.bind_eq_some_iff] at h
  obtain ⟨header, hheader, footer, hfooter, length, hlength, h⟩ := h
  split at h
  next hok =>
    cases h
    exact ⟨rfl, rfl, hheader, hfooter, hlength, rfl, hok.1, hok.2.1, hok.2.2⟩
  next => cases h

theorem forall₂_of_mapM {α β : Type} {f : α → Option β} {as : List α} {bs : List β}
    (h : as.mapM f = some bs) : List.Forall₂ (fun a b => f a = some b) as bs := by
  induction as generalizing bs with
  | nil =>
    cases h
    exact List.Forall₂.nil
  | cons a as ih =>
    simp only [List.mapM_cons, bind, Option.bind_eq_some_iff] at h
    obtain ⟨b, hb, bs', hbs, h⟩ := h
    cases h
    exact List.Forall₂.cons hb (ih hbs)

theorem exists_of_forall₂ {α β : Type} {R : α → β → Prop} {as : List α} {bs : List β} {a : α}
    (h : List.Forall₂ R as bs) (ha : a ∈ as) : ∃ b ∈ bs, R a b := by
  induction h with grind

/-- The accesses to one field. -/
structure FieldCode.Emitted (index : TypeIndex) (payloadIsArray : Bool) (f : Field)
    (c : FieldCode) : Prop where
  field : c.field = f
  type : c.type = resolveFieldType f index
  write : c.write = emitWriteStmt c.type f.endian
  read : emitReadExpr c.type f.endian = some c.read
  source : fieldSource index payloadIsArray f c.type = some c.source

theorem FieldCode.emitted {index : TypeIndex} {payloadIsArray : Bool} {f : Field} {c : FieldCode}
    (h : emitFrameField index payloadIsArray f = some c) : c.Emitted index payloadIsArray f := by
  simp only [emitFrameField, bind, Option.bind_eq_some_iff] at h
  obtain ⟨read, hread, source, hsource, h⟩ := h
  cases h
  exact ⟨rfl, rfl, rfl, hread, hsource⟩

theorem FrameCode.Generated.header_emitted {proto : Protocol} {frame : FrameDef}
    {code : FrameCode} (h : Generated proto frame code) :
    List.Forall₂ (fun f c => c.Emitted code.index code.session.payloadIsArray f)
      (Validator.plainFields frame.headerFields) code.header :=
  (forall₂_of_mapM h.header).imp fun _ _ => FieldCode.emitted

/-! ## Message encoders -/

/-- One call that the encoder of a message makes: a write, bytes, an alignment, or the patch of a
place it has reserved, `offset` bytes after its own start. -/
inductive EncodeStep where
  | write (s : WriteStmt) (value : Int)
  | bytes (bytes : List UInt8)
  | align (boundary : Nat)
  | patch (offset : Nat) (bytes : List UInt8) (onFailure : Error)

namespace EncodeStep

def run (start : Nat) (w : BitWriter) : EncodeStep → Except Error BitWriter
  | .write s value => .ok (s.exec value w)
  | .bytes bs => .ok (w.appendBytes bs)
  | .align boundary => .ok (w.alignTo boundary)
  | .patch offset bs onFailure =>
    if w.error.isSome ∨ start + offset + bs.length > w.data.length then .error onFailure
    else .ok { w with data := overwrite w.data (start + offset) bs }

/-- The encoder of a message as the calls it makes. -/
def runAll (steps : List EncodeStep) (w : BitWriter) : Except Error BitWriter :=
  steps.foldlM (run w.sizeBytes) w

end EncodeStep

theorem WriteStmt.extends_exec (s : WriteStmt) (value : Int) (w : BitWriter) :
    Extends w (s.exec value w) := by
  cases s with
  | writeBcd bits => exact extends_writeBcd _ bits w
  | writeBcdSigned bits => exact extends_writeBcdSigned _ bits w
  | writeSignMagnitude bits => exact extends_writeSignMagnitude _ bits w
  | writeBits bits | writeBoolBits bits => exact extends_writeBits _ bits w
  | writeSignedBits bits => exact extends_writeSignedBits _ bits w
  | writeWord bytes e => exact extends_appendBytes _ w

theorem EncodeStep.extends_run {w₀ w w' : BitWriter} {step : EncodeStep} (h : Extends w₀ w)
    (hrun : step.run w₀.sizeBytes w = .ok w') : Extends w₀ w' := by
  cases step with
  | write s value =>
    cases hrun
    exact h.trans (s.extends_exec value w)
  | bytes bytes =>
    cases hrun
    exact h.trans (extends_appendBytes bytes w)
  | align boundary =>
    cases hrun
    exact h.trans (extends_alignTo boundary w)
  | patch offset bytes onFailure =>
    simp only [run] at hrun
    split at hrun
    next => cases hrun
    next hok =>
      cases hrun
      have hroom : w₀.sizeBytes + offset + bytes.length ≤ w.data.length := by omega
      have hdone : w₀.bitPos / 8 ≤ w₀.sizeBytes := by
        unfold sizeBytes
        omega
      refine ⟨h.error, h.pos, ?_, ?_⟩
      · intro hw
        exact (length_overwrite hroom).trans (h.sized hw)
      · intro hw
        exact (take_overwrite (by omega) (by omega)).trans (h.bytes hw)

theorem EncodeStep.extends_runAll {steps : List EncodeStep} {w w' : BitWriter}
    (hrun : runAll steps w = .ok w') : Extends w w' := by
  have hloop : ∀ (steps : List EncodeStep) (v : BitWriter), Extends w v →
      steps.foldlM (run w.sizeBytes) v = .ok w' → Extends w w' := by
    intro steps
    induction steps with
    | nil =>
      intro v hv h
      cases h
      exact hv
    | cons step steps ih =>
      intro v hv h
      rw [List.foldlM_cons] at h
      cases hstep : step.run w.sizeBytes v with
      | error e =>
        rw [hstep] at h
        cases h
      | ok v' =>
        rw [hstep] at h
        exact ih v' (extends_run hv hstep) h
  exact hloop steps w (Extends.refl w) hrun

/-! ## The header -/

/-- The layout of a frame header: the bit position reached, and the bytes where the placeholder of
the length starts and ends. -/
structure HeaderLayout where
  position : Nat := 0
  lengthStart : Nat := 0
  lengthEnd : Nat := 0

/-- The layout after one more field. -/
def HeaderLayout.add (l : HeaderLayout) (c : FieldCode) : HeaderLayout :=
  let position := l.position + c.write.size l.position
  match c.source with
  | .placeholder =>
    { position, lengthStart := (l.position + 7) / 8, lengthEnd := (position + 7) / 8 }
  | _ => { l with position }

def FrameCode.headerLayout (code : FrameCode) : HeaderLayout :=
  code.header.foldl HeaderLayout.add {}

variable {object : FrameObject}

theorem writer_writeFrameField (s : HeaderState) (c : FieldCode) :
    (writeFrameField object s c).writer = c.write.exec (c.value object) s.writer := by
  simp only [writeFrameField]
  split <;> rfl

theorem extends_writeFrameField (object : FrameObject) (s : HeaderState) (c : FieldCode) :
    Extends s.writer (writeFrameField object s c).writer := by
  rw [writer_writeFrameField]
  exact c.write.extends_exec _ s.writer

theorem extends_writeFrameFields (object : FrameObject) (cs : List FieldCode) (s : HeaderState) :
    Extends s.writer (cs.foldl (writeFrameField object) s).writer := by
  induction cs generalizing s with
  | nil => exact .refl s.writer
  | cons c cs ih => exact (extends_writeFrameField object s c).trans (ih _)

theorem FrameCode.extends_writeFooter (code : FrameCode) (object : FrameObject) (w : BitWriter) :
    Extends w (code.writeFooter object w) :=
  extends_writeFrameFields object code.footer { writer := w }

/-- The state of the header writer matches a layout. -/
structure HeaderState.At (s : HeaderState) (l : HeaderLayout) : Prop where
  position : s.writer.bitPos = l.position
  lengthStart : s.lengthBytePos = l.lengthStart
  lengthEnd : s.payloadStartPos = l.lengthEnd

/-- The bits that a list of fields takes from bit `p` on, given those of each field. -/
def fieldsOutput (out : FieldCode → Nat → List Bool) (p : Nat) : List FieldCode → List Bool
  | [] => []
  | c :: cs => out c p ++ fieldsOutput out (p + (out c p).length) cs

/-- The bits that the encoder appends for a field at bit `p`. -/
def FrameObject.output (object : FrameObject) (c : FieldCode) (p : Nat) : List Bool :=
  c.write.output (c.value object) p

theorem HeaderState.at_start : HeaderState.At { writer := {} } {} := ⟨rfl, rfl, rfl⟩

theorem holds_writeFrameField {s : HeaderState} {l : HeaderLayout} {c : FieldCode}
    {bs : List Bool} (hw : s.writer.Holds bs) (hs : s.At l)
    (hok : (writeFrameField object s c).writer.error = none) :
    (writeFrameField object s c).writer.Holds (bs ++ object.output c bs.length)
      ∧ (writeFrameField object s c).At (l.add c) := by
  have herr := (extends_writeFrameField object s c).error hok
  rw [writer_writeFrameField] at hok
  have hout := WriteStmt.holds_exec hw herr hok
  have hpos : l.position = bs.length := by rw [← hs.position, hw.1]
  have hend : (c.write.exec (c.value object) s.writer).bitPos
      = l.position + c.write.size l.position := by
    rw [hout.1, List.length_append, WriteStmt.length_output, hpos]
  refine ⟨by rw [writer_writeFrameField]; exact hout, ?_⟩
  simp only [writeFrameField, HeaderLayout.add]
  cases c.source with
  | placeholder =>
    refine ⟨hend, ?_, ?_⟩
    · simp only [sizeBytes, hs.position]
    · simp only [sizeBytes, hend]
  | _ => exact ⟨hend, hs.lengthStart, hs.lengthEnd⟩

theorem holds_writeFrameFields {cs : List FieldCode} {s : HeaderState} {l : HeaderLayout}
    {bs : List Bool} (hw : s.writer.Holds bs) (hs : s.At l)
    (hok : (cs.foldl (writeFrameField object) s).writer.error = none) :
    (cs.foldl (writeFrameField object) s).writer.Holds (bs ++ fieldsOutput object.output bs.length cs)
      ∧ (cs.foldl (writeFrameField object) s).At (cs.foldl HeaderLayout.add l) := by
  induction cs generalizing s l bs with
  | nil =>
    refine ⟨?_, hs⟩
    simpa [fieldsOutput] using hw
  | cons c cs ih =>
    have hstep := (extends_writeFrameFields object cs (writeFrameField object s c)).error hok
    obtain ⟨hw', hs'⟩ := holds_writeFrameField hw hs hstep
    have hrest := ih hw' hs' hok
    rwa [List.append_assoc, List.length_append] at hrest

theorem FrameCode.holds_writeHeader (code : FrameCode)
    (hok : (code.writeHeader object {}).writer.error = none) :
    (code.writeHeader object {}).writer.Holds (fieldsOutput object.output 0 code.header)
      ∧ (code.writeHeader object {}).At code.headerLayout := by
  have h := holds_writeFrameFields holds_empty HeaderState.at_start hok
  rwa [List.nil_append] at h

/-! ## The whole frame -/

namespace LengthCode

/-- The number of bytes that the patch replaces. -/
def width (l : LengthCode) : Nat := if l.bits ≤ 8 then 1 else if l.bits ≤ 16 then 2 else 4

/-- The number of bytes that the length field counts. -/
def measured (l : LengthCode) (s : HeaderState) (w : BitWriter) : Nat :=
  w.sizeBytes - if l.payloadOnly then s.payloadStartPos else 0

/-- The number that is patched in for a measured length. -/
def stored (l : LengthCode) (length : Nat) : Nat :=
  applyArith length l.modifier % 2 ^ storageBits l.bits

theorem patch_eq_true_iff {l : LengthCode} {pos value : Nat} {w w' : BitWriter} :
    l.patch pos value w = .ok (true, w') ↔ w.error = none ∧ pos + l.width ≤ w.data.length ∧
      w' = w.patched pos (wordBytes l.width (value % 2 ^ storageBits l.bits) l.endian) := by
  unfold LengthCode.patch LengthCode.width
  dsimp only
  split
  · rw [patchU8_eq_true_iff, wordBytes_one _ l.endian]
  split
  · exact patchWord_eq_true_iff
  · exact patchWord_eq_true_iff

theorem backpatch_eq_ok_iff {l : LengthCode} {s : HeaderState} {w w' : BitWriter} :
    l.backpatch 0 s w = .ok w' ↔ w.error = none ∧ s.lengthBytePos + l.width ≤ w.data.length ∧
      w' = w.patched s.lengthBytePos (wordBytes l.width (l.stored (l.measured s w)) l.endian) := by
  refine Iff.trans ?_ patch_eq_true_iff
  unfold LengthCode.backpatch LengthCode.measured
  dsimp only
  split
  next w'' heq => rw [heq]; simp
  next hother => exact iff_of_false (by simp) (hother w')

end LengthCode

namespace FrameCode

variable (code : FrameCode) (object : FrameObject)

/-- The bytes of a frame whose header is in state `s` and whose writer is `w` after the footer. -/
def finalBytes (s : HeaderState) (w : BitWriter) : List UInt8 :=
  match code.length with
  | none => w.data
  | some l => (w.patched s.lengthBytePos
      (wordBytes l.width (l.stored (l.measured s w)) l.endian)).data

theorem finish_eq_ok_iff {w : BitWriter} {bytes : List UInt8} :
    w.finish.1 = .ok bytes ↔ w.error = none ∧ bytes = w.data := by
  unfold finish
  cases herr : w.error with
  | some e => simp
  | none => simp [data_alignToByte, eq_comm]

theorem bind_eq_ok_iff {α β : Type} {x : Except Error α} {f : α → Except Error β} {b : β} :
    (x >>= f) = .ok b ↔ ∃ a, x = .ok a ∧ f a = .ok b := by
  cases x <;> simp [bind, Except.bind]

theorem encodeBytes_eq_ok_iff {payload : BitWriter → Except Error BitWriter} {bytes : List UInt8} :
    code.encodeBytes object payload = .ok bytes ↔
      ∃ body, payload (code.writeHeader object {}).writer = .ok body
        ∧ (code.writeFooter object body).error = none
        ∧ (∀ l ∈ code.length, (code.writeHeader object {}).lengthBytePos + l.width
            ≤ (code.writeFooter object body).data.length)
        ∧ bytes = code.finalBytes (code.writeHeader object {}) (code.writeFooter object body) := by
  unfold encodeBytes encode finalBytes
  simp only [bind_eq_ok_iff, finish_eq_ok_iff]
  cases code.length with
  | none =>
    constructor
    · rintro ⟨w, ⟨body, hpay, hw⟩, herr, rfl⟩
      cases hw
      exact ⟨body, hpay, herr, by simp, rfl⟩
    · rintro ⟨body, hpay, herr, -, rfl⟩
      exact ⟨_, ⟨body, hpay, rfl⟩, herr, rfl⟩
  | some l =>
    simp only [show sizeBytes {} = 0 from rfl, LengthCode.backpatch_eq_ok_iff]
    constructor
    · rintro ⟨w, ⟨body, hpay, herr, hroom, rfl⟩, -, rfl⟩
      exact ⟨body, hpay, herr, by simpa using hroom, rfl⟩
    · rintro ⟨body, hpay, herr, hroom, rfl⟩
      exact ⟨_, ⟨body, hpay, herr, hroom l rfl, rfl⟩, herr, rfl⟩

end FrameCode

end Conduit.Bgen
