import Conduit.Bgen.FrameLength

/-!
# The sync pattern

The analyzer strings together the constraint values of all header fields, wherever they stand, and
the stream framer looks for the result at the start of a frame. That is what the encoder writes if
the constrained fields come first and each is written as the bytes that the analyzer takes it for.
-/

namespace Conduit.Bgen

open Bits Io Validator FrameCode SessionAnalyzer EncodeStep List
open BitWriter (Extends)
open SessionAnalyzer (syncBytes syncSource syncValue syncWidth)

/-! ## The pattern -/

variable {code : FrameCode} {p : Nat} {index : TypeIndex}

theorem syncPattern_scanHeader (index : TypeIndex) (children : List StructChild)
    (state : SessionInfo × Nat) : (children.foldl (scanHeaderChild index) state).1.syncPattern
      = state.1.syncPattern ++ (plainFields children).flatMap (syncBytes index) := by
  induction children generalizing state with
  | nil => simp [plainFields]
  | cons child children ih =>
    rw [foldl_cons, ih]
    obtain ⟨si, offset⟩ := state
    cases child with
    | field f =>
      have hauto : (scanAuto index offset f si).syncPattern = si.syncPattern := by
        unfold scanAuto
        split
        · rfl
        · split <;> rfl
      simp [scanHeaderChild, hauto, plainFields]
    | struct s children =>
      simp only [scanHeaderChild]
      split <;> simp [plainFields]
    | _ => simp [scanHeaderChild, plainFields]

theorem FrameCode.Generated.syncPattern_eq {proto : Protocol} {frame : FrameDef}
    (h : Generated proto frame code) :
    code.session.syncPattern = (plainFields frame.headerFields).flatMap (syncBytes code.index) := by
  rw [h.session, h.index]
  exact syncPattern_scanHeader _ frame.headerFields _

/-! ## Constrained fields -/

/-- A constrained field of `n` bytes on which the encoder and the analyzer agree: the type gives
both the same width, the literal means the same number in C++ and to the analyzer, and the emitted
write respects the byte order. -/
structure SyncField (index : TypeIndex) (f : Field) (n : Nat) : Prop where
  filled : ∀ a ∈ f.autoExpr, a.kind ≠ .length ∧ a.kind ≠ .count
  size : 1 ≤ n ∧ n ≤ 8
  width : (resolveFieldType f index).bits = 8 * n
  encoding : (resolveFieldType f index).wireEncoding = .standard
    ∨ (resolveFieldType f index).wireEncoding = .cb2
    ∨ (resolveFieldType f index).wireEncoding = .bnr
  number : (resolveFieldType f index).isFloat = false ∧ (resolveFieldType f index).isBool = false
  literal : ∃ eq text typeRef u v, f.constraint.bind (·.equals) = some eq
    ∧ syncSource index f = some (text, typeRef) ∧ syncWidth index typeRef = n
    ∧ constraintValue index eq = some u ∧ syncValue text = some v
    ∧ u % (2 ^ (8 * n) : Nat) = v % (2 ^ (8 * n) : Nat)
  order : f.endian = .big ∨ n = 1
    ∨ (resolveFieldType f index).isSigned = false ∧ FieldTypeInfo.IsWord (8 * n)

theorem le_storageBits {bits : Nat} (h : bits ≤ 64) : bits ≤ storageBits bits := by
  unfold storageBits
  split
  · assumption
  split
  · assumption
  · split <;> omega

theorem toUint64_storageCast_mod {bits : Nat} (isSigned : Bool) (u : Int) (h : bits ≤ 64) :
    (toUint64 (storageCast bits isSigned u) % 2 ^ bits : Nat) = (u % (2 ^ bits : Nat)).toNat := by
  have hstore : ((2 ^ bits : Nat) : Int) ∣ (2 ^ storageBits bits : Nat) := by
    exact_mod_cast Nat.pow_dvd_pow 2 (le_storageBits h)
  have hword : ((2 ^ bits : Nat) : Int) ∣ (2 ^ 64 : Nat) := by exact_mod_cast Nat.pow_dvd_pow 2 h
  have hcast : storageCast bits isSigned u % (2 ^ bits : Nat) = u % (2 ^ bits : Nat) := by
    unfold storageCast
    split
    · rw [← Int.emod_emod_of_dvd _ hstore, Int.bmod_emod, Int.emod_emod_of_dvd _ hstore]
    · exact Int.emod_emod_of_dvd _ hstore
  have hnat : ((toUint64 (storageCast bits isSigned u) : Nat) : Int)
      = storageCast bits isSigned u % (2 ^ 64 : Nat) := by
    unfold toUint64
    omega
  have hmod : ((toUint64 (storageCast bits isSigned u) % 2 ^ bits : Nat) : Int)
      = u % (2 ^ bits : Nat) := by
    rw [Int.natCast_emod, hnat, Int.emod_emod_of_dvd _ hword, hcast]
  omega

theorem wordBytes_congr {n a b : Nat} (e : Endian) (h : a % 2 ^ (8 * n) = b % 2 ^ (8 * n)) :
    wordBytes n a e = wordBytes n b e := by
  rw [wordBytes, wordBytes, ← beBytes_mod n a, h, beBytes_mod]

/-- A field of whole bytes is written as a word, in its own byte order if that is big-endian, if
there is only one byte, or if the width has a word write. -/
theorem output_plainWriteStmt {fti : FieldTypeInfo} {e : Endian} {n : Nat} (value : Int)
    (hbits : fti.bits = 8 * n) (hbool : fti.isBool = false) (hp : p % 8 = 0)
    (horder : e = .big ∨ n = 1 ∨ fti.isSigned = false ∧ FieldTypeInfo.IsWord (8 * n)) :
    (plainWriteStmt fti e true).output value p = bytesBits (wordBytes n (toUint64 value) e) := by
  have hbig : e = .big ∨ n = 1 →
      msbBits (8 * n) (toUint64 value) = bytesBits (wordBytes n (toUint64 value) e) := by
    rintro (rfl | rfl)
    · rw [wordBytes, Endian.order, bytesBits_beBytes]
    · rw [wordBytes_one _ e, wordBytes, Endian.order, bytesBits_beBytes]
  unfold plainWriteStmt
  split
  next h =>
    have hn : n = 1 := by
      simp only [Bool.and_eq_true, beq_iff_eq] at h
      omega
    subst hn
    rw [WriteStmt.output, bytePad_of_aligned hp, nil_append, wordBytes_one _ e]
  next =>
    split
    next h =>
      have hn : fti.bits / 8 = n := by omega
      rw [WriteStmt.output, bytePad_of_aligned hp, nil_append, hn]
    next hbyte hword =>
      have hplain : e = .big ∨ n = 1 := by
        rcases horder with h | h | ⟨hs, hw⟩
        · exact .inl h
        · exact .inr h
        simp only [Bool.true_and, hs, Bool.not_false, Bool.or_eq_true, beq_iff_eq, not_or] at hword
        unfold FieldTypeInfo.IsWord at hw
        omega
      rw [hbool]
      split
      next h => cases h
      next =>
        rw [hbits]
        split
        · exact hbig hplain
        · exact hbig hplain

def ValueSource.isConstant : ValueSource → Bool
  | .constant _ => true
  | _ => false

theorem SyncField.output_eq {payloadIsArray : Bool} {f : Field} {c : FieldCode} {n : Nat}
    (hf : SyncField index f n) (hc : c.Emitted index payloadIsArray f) (object : FrameObject)
    (hp : p % 8 = 0) :
    object.output c p = bytesBits (syncBytes index f) ∧ c.source.isConstant = true := by
  obtain ⟨eq, text, typeRef, u, v, heq, hsource, hwidth, hu, hv, huv⟩ := hf.literal
  obtain ⟨h1, h8⟩ := hf.size
  have hconst : c.source = .constant (storageCast c.type.bits c.type.isSigned u) := by
    have hemit := hc.source
    unfold fieldSource at hemit
    split at hemit
    next hauto => exact absurd rfl (hf.filled _ hauto).1
    next hauto => exact absurd rfl (hf.filled _ hauto).2
    next =>
      rw [heq] at hemit
      simp only [hu, Option.map_some, Option.some.injEq] at hemit
      exact hemit.symm
  refine ⟨?_, by rw [hconst]; rfl⟩
  have hvalue : c.value object = storageCast (8 * n) c.type.isSigned u := by
    rw [FieldCode.value, hconst, hc.type, hf.width]
  have hwrite : c.write = plainWriteStmt c.type f.endian true := by
    have hfloat : c.type.isFloat = false := by rw [hc.type]; exact hf.number.1
    rw [hc.write, emitWriteStmt]
    rcases hf.encoding with h | h | h <;> rw [hc.type, h, ← hc.type, hfloat] <;> rfl
  have hlow : toUint64 (storageCast (8 * n) c.type.isSigned u) % 2 ^ (8 * n)
      = (v % (2 ^ (8 * n) : Nat)).toNat % 2 ^ (8 * n) := by
    rw [toUint64_storageCast_mod _ u (by omega), huv]
    have hlt : (v % (2 ^ (8 * n) : Nat)).toNat < 2 ^ (8 * n) := by omega
    rw [Nat.mod_eq_of_lt hlt]
  rw [FrameObject.output, hwrite, hvalue, output_plainWriteStmt _ (by rw [hc.type, hf.width])
    (by rw [hc.type]; exact hf.number.2) hp (by rw [hc.type]; exact hf.order),
    wordBytes_congr f.endian hlow]
  simp only [syncBytes, hsource, parseSyncBytes, hv, hwidth]

/-! ## The start of the frame -/

theorem fieldsOutput_sync {payloadIsArray : Bool} {fields : List Field} {cs : List FieldCode}
    (object : FrameObject)
    (hcs : Forall₂ (fun f c => FieldCode.Emitted index payloadIsArray f c) fields cs)
    (hsync : ∀ f ∈ fields, ∃ n, SyncField index f n) (hp : p % 8 = 0) :
    fieldsOutput object.output p cs = bytesBits (fields.flatMap (syncBytes index))
      ∧ ∀ c ∈ cs, c.source.isConstant = true := by
  induction hcs generalizing p with
  | nil => simp [fieldsOutput]
  | @cons f c fields cs hc _ ih =>
    obtain ⟨n, hf⟩ := hsync f mem_cons_self
    obtain ⟨hout, hsource⟩ := hf.output_eq hc object hp
    have hnext : (p + (bytesBits (syncBytes index f)).length) % 8 = 0 := by
      rw [length_bytesBits]
      omega
    obtain ⟨hrest, hsources⟩ := ih (fun g hg => hsync g (mem_cons_of_mem f hg)) hnext
    constructor
    · rw [fieldsOutput, hout, hrest, flatMap_cons, bytesBits_append]
    intro d hd
    rcases mem_cons.mp hd with rfl | hd
    · exact hsource
    · exact hsources d hd

theorem le_lengthBytePos {object : FrameObject} {k : Nat} (cs : List FieldCode) (s : HeaderState)
    (hpos : 8 * k ≤ s.writer.bitPos) (h : k ≤ s.lengthBytePos ∨ ∃ c ∈ cs, c.source = .placeholder) :
    k ≤ (cs.foldl (writeFrameField object) s).lengthBytePos := by
  induction cs generalizing s with
  | nil =>
    rcases h with h | ⟨c, hc, -⟩
    · exact h
    · cases hc
  | cons c cs ih =>
    have hnext := hpos.trans (extends_writeFrameField object s c).pos
    apply ih _ hnext
    simp only [writeFrameField]
    split
    next =>
      left
      simp only [BitWriter.sizeBytes]
      omega
    next hsource =>
      rcases h with h | ⟨d, hd, hd'⟩
      · exact .inl h
      rcases mem_cons.mp hd with rfl | hd
      · exact absurd hd' hsource
      · exact .inr ⟨d, hd, hd'⟩

/-- The constrained fields of a header come first, and the encoder and the analyzer agree on
them. -/
def SyncFirst (index : TypeIndex) (fields : List Field) : Prop :=
  ∃ k, (∀ f ∈ fields.take k, ∃ n, SyncField index f n)
    ∧ ∀ f ∈ fields.drop k, f.constraint.bind (·.equals) = none

theorem syncBytes_unconstrained {f : Field} (h : f.constraint.bind (·.equals) = none) :
    syncBytes index f = [] := by
  simp only [syncBytes, syncSource, h, Option.map_none]

theorem FrameCode.Generated.placeholder {proto : Protocol} {frame : FrameDef} {l : LengthCode}
    (h : Generated proto frame code) (hl : code.length = some l) :
    ∃ c ∈ code.header, c.source = .placeholder := by
  obtain ⟨f, a, hlast, -, -, -⟩ := h.lengthOf hl
  obtain ⟨hmem, hauto, hkind⟩ := mem_of_lastLength hlast
  obtain ⟨c, hc, hemitted⟩ := exists_of_forall₂ h.header_emitted hmem
  refine ⟨c, hc, ?_⟩
  have hsource := hemitted.source
  obtain ⟨kind, fieldRef, key, modifier⟩ := a
  subst hkind
  rw [fieldSource, hauto] at hsource
  exact (Option.some.inj hsource).symm

theorem FrameCode.starts_of_encodeBytes {object : FrameObject} {steps : List EncodeStep}
    {bytes start : List UInt8} {first rest : List FieldCode} (hheader : code.header = first ++ rest)
    (hstart : bytesBits start <+: fieldsOutput object.output 0 first)
    (hlength : ∀ l ∈ code.length, ∃ c ∈ rest, c.source = .placeholder)
    (henc : code.encodeBytes object (runAll steps) = .ok bytes) : start <+: bytes := by
  obtain ⟨body, hpay, herr, hroom, hbytes⟩ := (code.encodeBytes_eq_ok_iff object).mp henc
  have hafter := (extends_runAll hpay).trans (code.extends_writeFooter object body)
  simp only [writeHeader, hheader, foldl_append] at hafter hroom hbytes
  generalize hs : first.foldl (writeFrameField object) { writer := {} } = s at *
  have hext := (extends_writeFrameFields object rest s).trans hafter
  have hholds : s.writer.Holds (fieldsOutput object.output 0 first) := by
    have herr' := hext.error herr
    rw [← hs] at herr'
    have h := (holds_writeFrameFields BitWriter.holds_empty HeaderState.at_start herr').1
    rwa [hs, length_nil] at h
  have hpos : 8 * start.length ≤ s.writer.bitPos := by
    rw [hholds.1, ← length_bytesBits]
    exact hstart.length_le
  have hdata : s.writer.data.take start.length = start := by
    have hlen := hholds.length_data
    rw [← hholds.1] at hlen
    have htake : bytesBits (s.writer.data.take start.length) <+: bytesBits s.writer.data := by
      conv_rhs => rw [← take_append_drop start.length s.writer.data, bytesBits_append]
      exact prefix_append _ _
    have hbits : bytesBits start <+: bytesBits s.writer.data := by
      rw [hholds.2]
      exact hstart.trans (prefix_append _ _)
    have hsame : (bytesBits (s.writer.data.take start.length)).length
        = (bytesBits start).length := by
      rw [length_bytesBits, length_bytesBits, length_take, Nat.min_eq_left (by omega)]
    exact bytesBits_inj ((prefix_of_prefix_length_le htake hbits hsame.le).eq_of_length hsame)
  have hkept : (code.writeFooter object body).data.take start.length = start := by
    have hwhole := congrArg (take start.length) (hext.bytes hholds.sized)
    rwa [take_take, take_take, Nat.min_eq_left (by omega), hdata] at hwhole
  rw [prefix_iff_eq_take, hbytes, finalBytes]
  cases hl : code.length with
  | none => exact hkept.symm
  | some l =>
    have hplace : start.length ≤ (rest.foldl (writeFrameField object) s).lengthBytePos :=
      le_lengthBytePos rest s hpos (.inr (hlength l hl))
    have hinside := hroom l hl
    exact hkept.symm.trans (BitWriter.take_overwrite hplace (by omega)).symm

/-! ## Two orders of a header -/

/-- A sync word of two bytes. -/
def syncWordField : Field :=
  { name := "sync", typeRef := "u16", constraint := some { equals := some "0xAA55" } }

def kindField : Field :=
  { name := "kind", typeRef := "u8", autoAttr := some "id", autoExpr := some { kind := .id } }

/-- A header of a sync word and an id, in the given order. -/
def syncFrame (header : List Field) : FrameDef :=
  { name := "Packet", headerFields := header.map .field }

def syncProtocol (header : List Field) : Protocol :=
  { name := "ping"
    version := "1"
    types := [{ name := "u8", bits := 8 }, { name := "u16", bits := 16 }]
    messages := [{ name := "Ping", id := "1"
                   children := [.field { name := "value", typeRef := "u8" }] }]
    frames := [syncFrame header] }

theorem syncField_syncWord :
    SyncField (TypeIndex.ofProtocol (syncProtocol [syncWordField, kindField])) syncWordField 2 where
  filled := by simp [syncWordField]
  size := by decide
  width := by decide +kernel
  encoding := by decide +kernel
  number := by decide +kernel
  literal := ⟨"0xAA55", "0xAA55", "u16", 0xAA55, 0xAA55, rfl, by decide +kernel, by decide +kernel,
    by decide +kernel, by decide +kernel, rfl⟩
  order := .inl rfl

end Conduit.Bgen
