import Conduit.Bgen.FrameLayout

/-!
# The fields of a frame, written and read

The header is read back where it was written if the accesses to every field agree at the bit where
the field stands. The length is written twice, first as a placeholder and then as a patch of whole
bytes, so the place and the width of that field have to be those of the patch.
-/

namespace Conduit.Bgen

open Bits Io HeaderLayout WriteStmt List
open BitReader (Reads)
open BitWriter (Sized Extends)

/-! ## A list of fields -/

variable {ok : FieldCode → Nat → Prop} {cs : List FieldCode} {p : Nat}

/-- A condition on every field at the bit where the encoder puts it. -/
def EachField (ok : FieldCode → Nat → Prop) : Nat → List FieldCode → Prop
  | _, [] => True
  | p, c :: cs => ok c p ∧ EachField ok (p + c.write.size p) cs

instance EachField.decidable {ok : FieldCode → Nat → Prop} [h : ∀ c p, Decidable (ok c p)] :
    ∀ (p : Nat) (cs : List FieldCode), Decidable (EachField ok p cs)
  | _, [] => .isTrue trivial
  | p, c :: cs =>
    have : Decidable (EachField ok (p + c.write.size p) cs) := EachField.decidable _ cs
    inferInstanceAs (Decidable (ok c p ∧ EachField ok (p + c.write.size p) cs))

/-- The bit where a list of fields ends that starts at bit `p`. -/
def fieldsEnd (p : Nat) : List FieldCode → Nat
  | [] => p
  | c :: cs => fieldsEnd (p + c.write.size p) cs

theorem EachField.imp {ok' : FieldCode → Nat → Prop} (h : EachField ok p cs)
    (himp : ∀ c ∈ cs, ∀ p, ok c p → ok' c p) : EachField ok' p cs := by
  induction cs generalizing p with
  | nil => trivial
  | cons c cs ih =>
    refine ⟨himp c mem_cons_self p h.1, ih h.2 ?_⟩
    intro d hd
    exact himp d (mem_cons_of_mem c hd)

theorem EachField.and {ok' : FieldCode → Nat → Prop} (h : EachField ok p cs)
    (h' : EachField ok' p cs) : EachField (fun c p => ok c p ∧ ok' c p) p cs := by
  induction cs generalizing p with
  | nil => trivial
  | cons c cs ih => exact ⟨⟨h.1, h'.1⟩, ih h.2 h'.2⟩

theorem EachField.forall_mem {P : FieldCode → Prop} (h : EachField ok p cs)
    (himp : ∀ c p, ok c p → P c) : ∀ c ∈ cs, P c := by
  induction cs generalizing p with
  | nil =>
    intro c hc
    cases hc
  | cons c cs ih =>
    intro d hd
    rcases mem_cons.mp hd with rfl | hd
    · exact himp d p h.1
    · exact ih h.2 d hd

theorem le_fieldsEnd (p : Nat) (cs : List FieldCode) : p ≤ fieldsEnd p cs := by
  induction cs generalizing p with
  | nil => exact le_rfl
  | cons c cs ih => exact (Nat.le_add_right _ _).trans (ih _)

theorem fieldsEnd_append (p : Nat) (cs ds : List FieldCode) :
    fieldsEnd p (cs ++ ds) = fieldsEnd (fieldsEnd p cs) ds := by
  induction cs generalizing p with
  | nil => rfl
  | cons c cs ih => exact ih _

theorem EachField.append {ds : List FieldCode} :
    EachField ok p (cs ++ ds) ↔ EachField ok p cs ∧ EachField ok (fieldsEnd p cs) ds := by
  induction cs generalizing p with
  | nil => simp [EachField, fieldsEnd]
  | cons c cs ih => simp only [cons_append, EachField, fieldsEnd, ih, and_assoc]

theorem length_fieldsOutput {out : FieldCode → Nat → List Bool}
    (h : EachField (fun c p => (out c p).length = c.write.size p) p cs) :
    p + (fieldsOutput out p cs).length = fieldsEnd p cs := by
  induction cs generalizing p with
  | nil => rfl
  | cons c cs ih =>
    have hrest := ih h.2
    rw [fieldsOutput, fieldsEnd, length_append, h.1]
    omega

theorem length_output_fields (object : FrameObject) (p : Nat) (cs : List FieldCode) :
    EachField (fun c p => (object.output c p).length = c.write.size p) p cs := by
  induction cs generalizing p with
  | nil => trivial
  | cons c cs ih => exact ⟨length_output _ _ _, ih _⟩

theorem position_foldl_add (cs : List FieldCode) (l : HeaderLayout) :
    (cs.foldl add l).position = fieldsEnd l.position cs := by
  induction cs generalizing l with
  | nil => rfl
  | cons c cs ih =>
    have hadd : (l.add c).position = l.position + c.write.size l.position := by
      unfold add
      cases c.source <;> rfl
    rw [foldl_cons, ih, hadd, fieldsEnd]

theorem reads_readFields {out : FieldCode → Nat → List Bool} {value : FieldCode → Int}
    (h : EachField (fun c p => Reads c.read.exec p (out c p) (value c)
      ∧ (out c p).length = c.write.size p) p cs) :
    Reads (readFields cs) p (fieldsOutput out p cs) (cs.map value) := by
  induction cs generalizing p with
  | nil => exact BitReader.reads_ret p []
  | cons c cs ih =>
    obtain ⟨⟨hread, hlen⟩, hrest⟩ := h
    have hrest' : Reads (readFields cs) (p + (out c p).length)
        (fieldsOutput out (p + (out c p).length) cs) (cs.map value) := by
      rw [hlen]
      exact ih hrest
    exact hread.andThen (hrest'.map (value c :: ·))

/-! ## Fields that agree -/

/-- The accesses to a field that holds `value` at bit `p` agree. -/
def FieldAgrees (c : FieldCode) (value : Int) (p : Nat) : Prop :=
  c.type.Representable value ∧ ¬c.type.Mismatch c.field.endian true value p

instance (c : FieldCode) (value : Int) (p : Nat) : Decidable (FieldAgrees c value p) := by
  unfold FieldAgrees
  infer_instance

/-- An unsigned integer in plain binary. -/
structure FieldTypeInfo.PlainNumber (t : FieldTypeInfo) : Prop where
  encoding : t.wireEncoding = .standard ∨ t.wireEncoding = .cb2 ∨ t.wireEncoding = .bnr
  integer : t.isFloat = false ∧ t.hasFieldScale = false ∧ t.isBool = false
  unsigned : t.isSigned = false

theorem FieldTypeInfo.PlainNumber.representable {t : FieldTypeInfo} {n : Int} (h : t.PlainNumber)
    (hbits : 0 < t.bits ∧ t.bits ≤ 64) (hpos : 0 ≤ n) (hlt : n < (2 ^ t.bits : Nat)) :
    t.Representable n := by
  obtain ⟨hfloat, -, hbool⟩ := h.integer
  have hplain : t.PlainRepresentable n := by
    refine ⟨hbits.1, hbits.2, ?_⟩
    rw [if_neg (by simp [h.unsigned])]
    exact ⟨hpos, hlt, by simp [hbool]⟩
  unfold Representable
  rcases h.encoding with henc | henc | henc <;>
    simpa only [henc, hfloat, Bool.false_eq_true, if_false] using hplain

/-- The statements of a field are those emitted for its type. -/
structure FieldCode.Consistent (c : FieldCode) : Prop where
  write : c.write = emitWriteStmt c.type c.field.endian
  read : emitReadExpr c.type c.field.endian = some c.read

theorem FieldCode.Emitted.consistent {index : TypeIndex} {payloadIsArray : Bool} {f : Field}
    {c : FieldCode} (h : c.Emitted index payloadIsArray f) : c.Consistent :=
  ⟨by rw [h.field]; exact h.write, by rw [h.field]; exact h.read⟩

theorem FieldAgrees.reads {c : FieldCode} {value : Int} (h : FieldAgrees c value p)
    (hc : c.Consistent) : Reads c.read.exec p (c.write.output value p) value := by
  obtain ⟨expr, hexpr, hreads⟩ := FieldTypeInfo.reads_emitted h.1 h.2
  rw [hc.read, Option.some.injEq] at hexpr
  rw [hc.write, hexpr]
  exact hreads

theorem error_writeFrameFields {object : FrameObject} {s : HeaderState} {bs : List Bool}
    (hcs : ∀ c ∈ cs, c.Consistent ∧ c.type.Representable (c.value object)) (hw : s.writer.Holds bs)
    (herr : s.writer.error = none) (hsmall : fieldsEnd bs.length cs + 71 < 2 ^ 64) :
    (cs.foldl (writeFrameField object) s).writer.error = none := by
  induction cs generalizing s bs with
  | nil => exact herr
  | cons c cs ih =>
    obtain ⟨hc, hv⟩ := hcs c mem_cons_self
    have hend := le_fieldsEnd (bs.length + c.write.size bs.length) cs
    rw [fieldsEnd] at hsmall
    have hok : (writeFrameField object s c).writer.error = none := by
      rw [writer_writeFrameField, hc.write]
      exact FieldTypeInfo.error_exec_emitted c.field.endian true hv herr (by rw [hw.1]; omega)
    have hnext : (writeFrameField object s c).writer.Holds (bs ++ object.output c bs.length) := by
      rw [writer_writeFrameField] at hok ⊢
      exact holds_exec hw herr hok
    apply ih (fun d hd => hcs d (mem_cons_of_mem c hd)) hnext hok
    rw [length_append, FrameObject.output, length_output]
    exact hsmall

/-! ## The length field -/

/-- The patch of a length field at bit `p` replaces exactly the field, and the field is read where
the patch was made. -/
structure LengthAgrees (c : FieldCode) (p : Nat) : Prop where
  encoding : c.type.wireEncoding = .standard ∨ c.type.wireEncoding = .cb2
    ∨ c.type.wireEncoding = .bnr
  number : c.type.isFloat = false ∧ c.type.isBool = false
  width : c.type.bits = 8 ∨ c.type.bits = 16 ∨ c.type.bits = 32
  place : c.type.isSigned = false ∨ p % 8 = 0

instance (c : FieldCode) (p : Nat) : Decidable (LengthAgrees c p) :=
  decidable_of_iff ((c.type.wireEncoding = .standard ∨ c.type.wireEncoding = .cb2
      ∨ c.type.wireEncoding = .bnr)
      ∧ (c.type.isFloat = false ∧ c.type.isBool = false)
      ∧ (c.type.bits = 8 ∨ c.type.bits = 16 ∨ c.type.bits = 32)
      ∧ (c.type.isSigned = false ∨ p % 8 = 0))
    ⟨fun h => ⟨h.1, h.2.1, h.2.2.1, h.2.2.2⟩, fun h => ⟨h.encoding, h.number, h.width, h.place⟩⟩

namespace LengthAgrees

variable {c : FieldCode} {p : Nat}

section

variable (h : LengthAgrees c p)
include h

theorem representable_zero : c.type.Representable 0 := by
  have hplain : c.type.PlainRepresentable 0 := by
    refine ⟨by have := h.width; omega, by have := h.width; omega, ?_⟩
    have hlow := Nat.two_pow_pos (c.type.bits - 1)
    have hhigh := Nat.two_pow_pos c.type.bits
    split
    · exact ⟨h.number.2, by omega, by omega⟩
    · exact ⟨le_rfl, by omega, fun _ => by decide⟩
  unfold FieldTypeInfo.Representable
  rcases h.encoding with he | he | he <;> simpa [he, h.number.1] using hplain

theorem write_eq (hc : c.Consistent) : c.write = plainWriteStmt c.type c.field.endian true := by
  rw [hc.write, emitWriteStmt]
  rcases h.encoding with he | he | he <;> rw [he, h.number.1] <;> rfl

theorem read_eq (hc : c.Consistent) :
    c.read = plainReadExpr c.type.bits c.type.isSigned c.field.endian true := by
  have hread := hc.read
  have hbits : 0 < c.type.bits ∧ c.type.bits ≤ 64 := by
    have := h.width
    omega
  unfold emitReadExpr at hread
  rcases h.encoding with he | he | he <;>
    simp only [he, h.number.1, Bool.false_eq_true, if_false, if_pos hbits,
      Option.some.injEq] at hread <;>
    exact hread.symm

theorem output_eq (hc : c.Consistent) (value : Int) :
    ∃ bits, c.write.output value p = bytePad p ++ bits ∧ bits.length = c.type.bits := by
  have hwidth := h.width
  rw [h.write_eq hc]
  unfold plainWriteStmt
  cases hs : c.type.isSigned with
  | false =>
    rcases hwidth with hb | hb | hb <;> simp only [hb] <;>
      exact ⟨_, rfl, by simp⟩
  | true =>
    have hp : p % 8 = 0 := h.place.resolve_left (by rw [hs]; decide)
    refine ⟨msbBits c.type.bits (toUint64 value), ?_, by simp⟩
    rw [bytePad_of_aligned hp]
    simp [output, h.number.2]

theorem storageBits_eq : storageBits c.type.bits = c.type.bits := by
  rcases h.width with hb | hb | hb <;> rw [hb] <;> rfl

theorem reads (hc : c.Consistent) {v : Nat} (hv : v < 2 ^ c.type.bits) :
    Reads c.read.exec p (bytePad p ++ bytesBits (wordBytes (c.type.bits / 8) v c.field.endian))
      (storageCast c.type.bits c.type.isSigned v) := by
  have h8 : 8 * (c.type.bits / 8) = c.type.bits := by
    have := h.width
    omega
  rw [h.read_eq hc, storageCast, h.storageBits_eq]
  cases hs : c.type.isSigned with
  | false =>
    have hvalue : ((v : Int) % (2 ^ c.type.bits : Nat)) = v := by
      rw [← Int.natCast_emod, Nat.mod_eq_of_lt hv]
    simp only [Bool.false_eq_true, if_false, hvalue]
    by_cases hb : c.type.bits = 8
    · rw [hb] at hv ⊢
      have hbyte : Reads ReadExpr.readU8.exec p
          (bytePad p ++ bytesBits (wordBytes 1 (toUint64 (v : Int)) .big)) v :=
        ReadExpr.reads_readU8 p (by omega) (by omega)
      rwa [toUint64_natCast (by omega), ← wordBytes_one v c.field.endian] at hbyte
    have hword := (BitReader.reads_word s!"read_u{c.type.bits}" p c.field.endian
      (by rw [h8]; exact hv)).map fun n : Nat => (n : Int)
    have hread : plainReadExpr c.type.bits false c.field.endian true
        = .readWord s!"read_u{c.type.bits}" (c.type.bits / 8) c.field.endian := by
      rcases h.width with hb' | hb' | hb' <;> simp [plainReadExpr, hb'] at hb ⊢
    rw [hread]
    exact hword
  | true =>
    have hp : p % 8 = 0 := h.place.resolve_left (by rw [hs]; decide)
    simp only [if_true]
    by_cases hb : c.type.bits = 8
    · have hbits : bytesBits (wordBytes 1 v c.field.endian) = msbBits 8 v := by
        rw [wordBytes_one, wordBytes, Endian.order, bytesBits_beBytes]
      rw [hb, bytePad_of_aligned hp, hbits]
      exact BitReader.reads_readSignedBits p v (by decide)
    have hword := (BitReader.reads_word s!"read_u{c.type.bits}" p c.field.endian
      (by rw [h8]; exact hv)).map fun n : Nat => (n : Int).bmod (2 ^ c.type.bits)
    have hread : plainReadExpr c.type.bits true c.field.endian true
        = .readSignedWord s!"read_u{c.type.bits}" (c.type.bits / 8) c.field.endian := by
      rcases h.width with hb' | hb' | hb' <;> simp [plainReadExpr, hb'] at hb ⊢
    rw [hread, ReadExpr.exec, h8]
    exact hword

end

end LengthAgrees

/-! ## The patched header -/

/-- What is required of a header field at bit `p`. -/
def HeaderAgrees (object : FrameObject) (c : FieldCode) (p : Nat) : Prop :=
  if c.source = .placeholder then LengthAgrees c p else FieldAgrees c (c.value object) p

instance (object : FrameObject) (c : FieldCode) (p : Nat) :
    Decidable (HeaderAgrees object c p) := by
  unfold HeaderAgrees
  infer_instance

/-- The bits of a header field once the length is patched in. -/
def patchedOutput (object : FrameObject) (word : List UInt8) (c : FieldCode) (p : Nat) :
    List Bool :=
  if c.source = .placeholder then bytePad p ++ bytesBits word else object.output c p

/-- The value of a header field once the length is patched in. -/
def patchedValue (object : FrameObject) (stored : Nat) (c : FieldCode) : Int :=
  if c.source = .placeholder then storageCast c.type.bits c.type.isSigned stored
  else c.value object

theorem fieldsOutput_append (out : FieldCode → Nat → List Bool) (p : Nat) (cs ds : List FieldCode) :
    fieldsOutput out p (cs ++ ds)
      = fieldsOutput out p cs ++ fieldsOutput out (p + (fieldsOutput out p cs).length) ds := by
  induction cs generalizing p with
  | nil => simp [fieldsOutput]
  | cons c cs ih =>
    rw [cons_append, fieldsOutput, ih, fieldsOutput, append_assoc, length_append, Nat.add_assoc]

theorem fieldsOutput_congr {out out' : FieldCode → Nat → List Bool} {cs : List FieldCode}
    (h : ∀ c ∈ cs, ∀ p, out c p = out' c p) (p : Nat) :
    fieldsOutput out p cs = fieldsOutput out' p cs := by
  induction cs generalizing p with
  | nil => rfl
  | cons c cs ih =>
    rw [fieldsOutput, fieldsOutput, h c mem_cons_self p,
      ih (fun d hd => h d (mem_cons_of_mem c hd))]

theorem bytesBits_overwrite (data bytes : List UInt8) (offset : Nat) :
    bytesBits (BitWriter.overwrite data offset bytes)
      = (bytesBits data).take (8 * offset) ++ bytesBits bytes
        ++ (bytesBits data).drop (8 * (offset + bytes.length)) := by
  rw [BitWriter.overwrite, bytesBits_append, bytesBits_append, take_bytesBits, drop_bytesBits]

/-- Where the length field stands in a header that has one. -/
structure LengthSplit (header first : List FieldCode) (c : FieldCode) (rest : List FieldCode) :
    Prop where
  split : header = first ++ c :: rest
  source : c.source = .placeholder
  others : ∀ d ∈ first ++ rest, d.source ≠ .placeholder

section Patch

variable {object : FrameObject} {header first rest : List FieldCode} {c : FieldCode}
  {word : List UInt8}

theorem fieldsOutput_first (h : LengthSplit header first c rest) (p : Nat) :
    fieldsOutput (patchedOutput object word) p first = fieldsOutput object.output p first := by
  apply fieldsOutput_congr
  intro d hd q
  rw [patchedOutput, if_neg (h.others d (mem_append_left _ hd))]

theorem fieldsOutput_rest (h : LengthSplit header first c rest) (p : Nat) :
    fieldsOutput (patchedOutput object word) p rest = fieldsOutput object.output p rest := by
  apply fieldsOutput_congr
  intro d hd q
  rw [patchedOutput, if_neg (h.others d (mem_append_right _ hd))]

theorem bytesBits_patched {data : List UInt8} {tail : List Bool}
    (h : LengthSplit header first c rest) (hc : c.Consistent)
    (hagrees : LengthAgrees c (fieldsEnd 0 first)) (hword : 8 * word.length = c.type.bits)
    (hdata : bytesBits data = fieldsOutput object.output 0 header ++ tail) :
    bytesBits (BitWriter.overwrite data ((fieldsEnd 0 first + 7) / 8) word)
      = fieldsOutput (patchedOutput object word) 0 header ++ tail := by
  obtain ⟨bits, hout, hbits⟩ := hagrees.output_eq hc (c.value object)
  have hq : 0 + (fieldsOutput object.output 0 first).length = fieldsEnd 0 first :=
    length_fieldsOutput (length_output_fields object 0 first)
  rw [Nat.zero_add] at hq
  have hstart : 8 * ((fieldsEnd 0 first + 7) / 8)
      = (fieldsOutput object.output 0 first ++ bytePad (fieldsEnd 0 first)).length := by
    rw [length_append, length_bytePad]
    omega
  have hpatched : patchedOutput object word c (fieldsEnd 0 first)
      = bytePad (fieldsEnd 0 first) ++ bytesBits word := if_pos h.source
  have hplain : object.output c (fieldsEnd 0 first) = bytePad (fieldsEnd 0 first) ++ bits := hout
  have hsame : (bytesBits word).length = bits.length := by rw [length_bytesBits, hword, hbits]
  rw [h.split, fieldsOutput_append, fieldsOutput, Nat.zero_add, hq, hplain] at hdata
  rw [bytesBits_overwrite, h.split, fieldsOutput_append, fieldsOutput, fieldsOutput_first h,
    fieldsOutput_rest h, Nat.zero_add, hq, hpatched, hdata, length_append, length_append,
    hsame]
  generalize fieldsOutput object.output 0 first = before at *
  generalize fieldsOutput object.output _ rest = after
  generalize bytePad (fieldsEnd 0 first) = pad at *
  have hend : 8 * ((fieldsEnd 0 first + 7) / 8 + word.length) = (before ++ pad ++ bits).length := by
    rw [length_append, ← hstart, ← hsame, length_bytesBits, Nat.mul_add]
  have hregroup : before ++ (pad ++ bits ++ after) ++ tail
      = before ++ pad ++ bits ++ (after ++ tail) := by simp only [append_assoc]
  rw [hregroup, hend, drop_left, hstart, append_assoc (before ++ pad) bits, take_left]
  simp only [append_assoc]

theorem layout_of_split (h : LengthSplit header first c rest) :
    (header.foldl add {}).lengthStart = (fieldsEnd 0 first + 7) / 8
      ∧ (header.foldl add {}).lengthEnd
        = (fieldsEnd 0 first + c.write.size (fieldsEnd 0 first) + 7) / 8 := by
  have hrest : ∀ (cs : List FieldCode) (l : HeaderLayout), (∀ d ∈ cs, d.source ≠ .placeholder) →
      (cs.foldl add l).lengthStart = l.lengthStart ∧ (cs.foldl add l).lengthEnd = l.lengthEnd := by
    intro cs
    induction cs with
    | nil => exact fun _ _ => ⟨rfl, rfl⟩
    | cons d cs ih =>
      intro l hcs
      have hadd : (l.add d).lengthStart = l.lengthStart ∧ (l.add d).lengthEnd = l.lengthEnd := by
        have hd := hcs d mem_cons_self
        unfold add
        cases hsource : d.source with
        | placeholder => exact absurd hsource hd
        | _ => exact ⟨rfl, rfl⟩
      obtain ⟨hstart, hend⟩ := ih (l.add d) fun e he => hcs e (mem_cons_of_mem d he)
      exact ⟨hstart.trans hadd.1, hend.trans hadd.2⟩
  have hlength : ∀ l : HeaderLayout, (l.add c).lengthStart = (l.position + 7) / 8
      ∧ (l.add c).lengthEnd = (l.position + c.write.size l.position + 7) / 8 := by
    intro l
    unfold add
    rw [h.source]
    exact ⟨rfl, rfl⟩
  rw [h.split, foldl_append, foldl_cons]
  obtain ⟨hstart, hend⟩ := hrest rest ((first.foldl add {}).add c)
    fun d hd => h.others d (mem_append_right _ hd)
  rw [hstart, hend, (hlength _).1, (hlength _).2, position_foldl_add]
  exact ⟨rfl, rfl⟩

theorem reads_patched {stored p : Nat} {cs : List FieldCode} (hcs : ∀ d ∈ cs, d.Consistent)
    (hagrees : EachField (HeaderAgrees object) p cs)
    (hword : ∀ d ∈ cs, d.source = .placeholder → stored < 2 ^ d.type.bits
      ∧ word = wordBytes (d.type.bits / 8) stored d.field.endian) :
    Reads (readFields cs) p (fieldsOutput (patchedOutput object word) p cs)
        (cs.map (patchedValue object stored))
      ∧ p + (fieldsOutput (patchedOutput object word) p cs).length = fieldsEnd p cs := by
  have hfields : EachField (fun d p =>
      Reads d.read.exec p (patchedOutput object word d p) (patchedValue object stored d)
        ∧ (patchedOutput object word d p).length = d.write.size p) p cs := by
    refine hagrees.imp ?_
    intro d hd q hq
    have hc := hcs d hd
    by_cases hsource : d.source = .placeholder
    · simp only [HeaderAgrees, patchedOutput, patchedValue, if_pos hsource] at hq ⊢
      obtain ⟨hlt, rfl⟩ := hword d hd hsource
      obtain ⟨bits, hout, hbits⟩ := hq.output_eq hc 0
      have hsize : (bytePad q ++ bits).length = d.write.size q := by rw [← hout, length_output]
      refine ⟨hq.reads hc hlt, ?_⟩
      have hwidth := hq.width
      rw [length_append] at hsize ⊢
      rw [length_bytesBits, length_wordBytes]
      omega
    · simp only [HeaderAgrees, patchedOutput, patchedValue, if_neg hsource] at hq ⊢
      exact ⟨hq.reads hc, length_output _ _ _⟩
  exact ⟨reads_readFields hfields, length_fieldsOutput (hfields.imp fun _ _ _ h => h.2)⟩

end Patch

end Conduit.Bgen
