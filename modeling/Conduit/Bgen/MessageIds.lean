import Conduit.Bgen.FrameRoundTrip
import Conduit.Bgen.FrameDecode

/-!
# Message ids

The id of a message is a text. `validate_frames` compares the texts (`validator.cpp:2159-2183`) and
checks a literal against the width of the id field as an unsigned number
(`validator.cpp:2092-2110`). The generated code works with the numbers: `ID_VALUE` is the text as an
initialiser of the type of the id field (`cpp_structs.cpp:1055-1083`), and the case labels of the
dispatch are the texts as C++ expressions.
-/

namespace Conduit.Bgen

open Bits Io TypeIndex SessionAnalyzer Validator MessageDef List
open Validator (plainFields)

/-! ## Literals -/

theorem isDigit_of_digitValue {base : Nat} {c : Char} (hbase : base ≤ 10)
    (h : (digitValue base c).isSome) : c.isDigit = true := by
  by_contra hdigit
  revert h
  unfold digitValue
  split_ifs <;> simp <;> omega

theorem digits_of_foldlM {base : Nat} {cs : List Char} {acc n : Nat}
    (h : cs.foldlM (fun acc c => (digitValue base c).map (base * acc + ·)) acc = some n) :
    ∀ c ∈ cs, (digitValue base c).isSome := by
  induction cs generalizing acc with
  | nil =>
    intro c hc
    cases hc
  | cons d cs ih =>
    obtain ⟨acc', hd, hrest⟩ := Option.bind_eq_some_iff.mp h
    obtain ⟨v, hv, -⟩ := Option.map_eq_some_iff.mp hd
    intro c hc
    rcases mem_cons.mp hc with rfl | hc
    · rw [hv]
      rfl
    · exact ih hrest c hc

theorem digits_of_parseDigits {base n : Nat} {cs : List Char} (h : parseDigits base cs = some n) :
    cs ≠ [] ∧ ∀ c ∈ cs, (digitValue base c).isSome := by
  cases cs with
  | nil => cases h
  | cons c cs => exact ⟨cons_ne_nil _ _, digits_of_foldlM h⟩

theorem cppLiteral_eq (s : String) : cppLiteral s =
    (if isHexText (splitSign s.toList).2 then parseDigits 16 ((splitSign s.toList).2.drop 2)
      else if (splitSign s.toList).2.head? == some '0' then parseDigits 8 (splitSign s.toList).2
      else parseDigits 10 (splitSign s.toList).2).bind fun n =>
        if n < 2 ^ 64 then some (if (splitSign s.toList).1 then -(n : Int) else n) else none := by
  unfold cppLiteral
  dsimp only
  split_ifs <;> rfl

theorem isValidNumericLiteral_of_cppLiteral {s : String} {n : Int} (h : cppLiteral s = some n) :
    isValidNumericLiteral s = true ∧ n < 2 ^ 64 := by
  rw [cppLiteral_eq] at h
  obtain ⟨v, hv, hn⟩ := Option.bind_eq_some_iff.mp h
  obtain ⟨hsmall, hn⟩ := Option.ite_none_right_eq_some.mp hn
  have hn := Option.some.inj hn
  refine ⟨?_, by split at hn <;> omega⟩
  -- a text of decimal or octal digits
  have hdecimal : ∀ {base : Nat}, base ≤ 10 → parseDigits base (splitSign s.toList).2 = some v →
      (!(splitSign s.toList).2.isEmpty && (splitSign s.toList).2.all Char.isDigit) = true := by
    intro base hbase hv
    obtain ⟨hne, hall⟩ := digits_of_parseDigits hv
    simpa using ⟨hne, fun c hc => isDigit_of_digitValue hbase (hall c hc)⟩
  unfold isValidNumericLiteral
  dsimp only
  split_ifs at hv ⊢
  · rw [all_eq_true]
    exact (digits_of_parseDigits hv).2
  · exact hdecimal (by decide) hv
  · exact hdecimal le_rfl hv

theorem takeWhile_digits {base n : Nat} {cs : List Char} (h : parseDigits base cs = some n) :
    cs.takeWhile (fun c => (digitValue base c).isSome) = cs := by
  have happend : (cs ++ []).takeWhile (fun c => (digitValue base c).isSome) = cs ++ [] :=
    takeWhile_append_of_pos (digits_of_parseDigits h).2
  rwa [append_nil] at happend

theorem digitsBase_of_literal {cs : List Char} {n : Nat}
    (h : (if isHexText cs then parseDigits 16 (cs.drop 2)
      else if cs.head? == some '0' then parseDigits 8 cs else parseDigits 10 cs) = some n) :
    parseDigits (digitsBase cs).1 ((digitsBase cs).2.takeWhile
      fun c => (digitValue (digitsBase cs).1 c).isSome) = some n := by
  unfold digitsBase
  by_cases hhex : isHexText cs = true
  · rw [if_pos hhex] at h
    obtain ⟨hne, hall⟩ := digits_of_parseDigits h
    have hfirst : ((cs.drop 2).head?.bind (digitValue 16)).isSome = true := by
      obtain ⟨c, rest, hcs⟩ := exists_cons_of_ne_nil hne
      rw [hcs] at hall ⊢
      exact hall c mem_cons_self
    simp only [hhex, hfirst, Bool.and_self, if_true]
    rwa [takeWhile_digits h]
  · simp only [hhex, Bool.false_and, Bool.false_eq_true, if_false] at h ⊢
    split at h
    next hzero => simpa only [if_pos hzero, takeWhile_digits h] using h
    next hzero => simpa only [if_neg hzero, takeWhile_digits h] using h

/-- On a literal `std::stoull` reads what the compiler reads. -/
theorem stoull_of_cppLiteral {s : String} {n : Int} (h : cppLiteral s = some n) :
    stoull s = some (n % 2 ^ 64).toNat := by
  have hvalid := (isValidNumericLiteral_of_cppLiteral h).1
  rw [cppLiteral_eq] at h
  obtain ⟨v, hv, hn⟩ := Option.bind_eq_some_iff.mp h
  obtain ⟨hsmall, hn⟩ := Option.ite_none_right_eq_some.mp hn
  have hn := Option.some.inj hn
  -- neither white space nor a plus sign comes first
  have hstart : leadingNumber s = (parseDigits (digitsBase (splitSign s.toList).2).1
      ((digitsBase (splitSign s.toList).2).2.takeWhile fun c =>
        (digitValue (digitsBase (splitSign s.toList).2).1 c).isSome)).map
          ((splitSign s.toList).1, ·) := by
    unfold isValidNumericLiteral at hvalid
    unfold leadingNumber
    rcases hcs : s.toList with _ | ⟨c, cs⟩
    · simp [hcs, splitSign, isHexText] at hvalid
    by_cases hminus : c = '-'
    · subst hminus
      simp [isSpace, splitSign, splitAnySign]
    · have hdigit : c.isDigit = true := by
        have hsplit : splitSign (c :: cs) = (false, c :: cs) := by
          unfold splitSign
          split
          next heq => exact absurd (cons.inj heq).1 hminus
          next => rfl
        rw [hcs, hsplit] at hvalid
        dsimp only at hvalid
        split at hvalid
        next hhex =>
          unfold isHexText at hhex
          split at hhex
          next heq => rw [(cons.inj heq).1]; decide
          next => cases hhex
        next => simp at hvalid; exact hvalid.1
      have hcode : 48 ≤ c.toNat := by
        simp only [Char.isDigit, Bool.and_eq_true, decide_eq_true_eq] at hdigit
        exact hdigit.1
      have hspace : isSpace c = false := by
        have hne : c ≠ ' ' := by rintro rfl; exact absurd hcode (by decide)
        simp only [isSpace, Bool.or_eq_false_iff, beq_eq_false_iff_ne, Bool.and_eq_false_iff,
          decide_eq_false_iff_not]
        exact ⟨hne, .inr (by omega)⟩
      rw [dropWhile_cons_of_neg (by simp [hspace])]
      have hsign : splitAnySign (c :: cs) = splitSign (c :: cs) := by
        unfold splitAnySign
        split
        next heq =>
          rw [(cons.inj heq).1] at hdigit
          cases hdigit
        next => rfl
      rw [hsign]
  rw [stoull, hstart, digitsBase_of_literal hv, Option.map_some]
  simp only [Option.bind_eq_bind, Option.bind_some, if_pos hsmall, ← hn]
  split
  · congr 1
    omega
  · congr 1
    omega

/-! ## What the validator knows about the id field -/

section Accepted

variable {proto : Protocol} {frame : FrameDef} {f : Field}

/-- A field with the attribute `auto="id"`. -/
structure Field.AutoId (f : Field) : Prop where
  attr : f.autoAttr.isSome
  kind : isIdField f = true

/-- The fields of a frame. -/
def FrameDef.fields (frame : FrameDef) : List Field :=
  plainFields frame.headerFields ++ plainFields frame.footerFields

theorem mem_autoFields {children : List StructChild} {a : AutoExpr} (hf : f ∈ plainFields children)
    (ha : f.autoExpr = some a) : (f, a) ∈ autoFields children := by
  obtain ⟨child, hchild, hfield⟩ := mem_filterMap.mp hf
  refine mem_filterMap.mpr ⟨child, hchild, ?_⟩
  cases child <;> cases hfield
  exact congrArg (Option.map (Prod.mk f)) ha

/-- The automatic id fields of a frame. -/
def FrameDef.ids (frame : FrameDef) : List (Field × AutoExpr) :=
  (autoFields frame.headerFields ++ autoFields frame.footerFields).filter (·.2.kind == .id)

theorem mem_ids (hf : f ∈ frame.fields) (hid : isIdField f = true) : ∃ a, (f, a) ∈ frame.ids := by
  obtain ⟨a, ha, hkind⟩ := isIdField_iff.mp hid
  refine ⟨a, mem_filter.mpr ⟨?_, by simp [hkind]⟩⟩
  rcases mem_append.mp hf with hf | hf
  · exact mem_append_left _ (mem_autoFields hf ha)
  · exact mem_append_right _ (mem_autoFields hf ha)

variable (h : Accepted proto) (hframe : frame ∈ proto.frames)
include h hframe

theorem Validator.Accepted.ids_eq (hf : f ∈ frame.fields) (hid : isIdField f = true) :
    ∃ a, frame.ids = [(f, a)] := by
  have hvalid := (h.frameErrors hframe).1
  simp only [validateFrame, append_eq_nil_iff, errorIf_eq_nil,
    decide_eq_false_iff_not] at hvalid
  have hone : ¬frame.ids.length > 1 := hvalid.1.1.1.1.1.1.2
  obtain ⟨a, ha⟩ := mem_ids hf hid
  refine ⟨a, ?_⟩
  generalize frame.ids = ids at hone ha
  cases ids with
  | nil => cases ha
  | cons x rest =>
    cases rest with
    | nil => rw [mem_singleton.mp ha]
    | cons y rest => simp at hone

theorem Validator.Accepted.id_unique {f' : Field} (hf : f ∈ frame.fields)
    (hid : isIdField f = true) (hf' : f' ∈ frame.fields) (hid' : isIdField f' = true) : f' = f := by
  obtain ⟨a, ha⟩ := h.ids_eq hframe hf hid
  obtain ⟨a', ha'⟩ := h.ids_eq hframe hf' hid'
  rw [ha, cons.injEq, Prod.mk.injEq] at ha'
  exact ha'.1.1.symm

theorem Validator.Accepted.id_equals (hf : f ∈ plainFields frame.headerFields) (hid : f.AutoId) :
    f.constraint.bind (·.equals) = none := by
  have hauto := autoErrors_of_validateField (h.headerFieldErrors hframe hf)
  obtain ⟨a, ha, hkind⟩ := isIdField_iff.mp hid.kind
  obtain ⟨attr, hattr⟩ := Option.isSome_iff_exists.mp hid.attr
  unfold autoErrors at hauto
  simp only [ha, hattr, hkind, append_eq_nil_iff] at hauto
  have hfree := errorIf_eq_nil.mp hauto.2
  unfold isConstrained at hfree
  cases hc : f.constraint with
  | none => rfl
  | some c =>
    simp only [hc, Option.any_some, Bool.or_eq_false_iff] at hfree
    simpa using hfree.1.1

theorem Validator.Accepted.literal_lt (hf : f ∈ frame.fields) (hid : isIdField f = true)
    {m : MessageDef} (hm : m ∈ proto.messages)
    {n : Int} (hn : cppLiteral m.id = some n) (hpos : 0 ≤ n)
    (hbits : 0 < fieldBits (ofProtocol proto) f ∧ fieldBits (ofProtocol proto) f < 64) :
    n < 2 ^ fieldBits (ofProtocol proto) f := by
  have hvalid := (h.frameErrors hframe).1
  simp only [validateFrame, append_eq_nil_iff] at hvalid
  have hids := hvalid.1.2
  obtain ⟨a, ha⟩ := h.ids_eq hframe hf hid
  unfold FrameDef.ids at ha
  rw [ha] at hids
  simp only [messageIdErrors, map_cons, map_nil, getLast?_singleton,
    Option.map_some, Option.getD_some, append_eq_nil_iff, hbits, decide_true, Bool.and_true,
    if_true, flatMap_eq_nil_iff] at hids
  have hchecked := hids.2 m (mem_filter.mpr ⟨hm, by simpa using h.id_ne_empty hframe hm⟩)
  obtain ⟨hliteral, hsmall⟩ := isValidNumericLiteral_of_cppLiteral hn
  simp only [hliteral, if_true, stoull_of_cppLiteral hn, errorIf_eq_nil,
    decide_eq_false_iff_not, not_lt] at hchecked
  have hpow : 0 < 2 ^ fieldBits (ofProtocol proto) f := Nat.two_pow_pos _
  have hlt : n.toNat < 2 ^ fieldBits (ofProtocol proto) f := by omega
  calc n = (n.toNat : Int) := (Int.toNat_of_nonneg hpos).symm
    _ < ((2 ^ fieldBits (ofProtocol proto) f : Nat) : Int) := Int.ofNat_lt.mpr hlt
    _ = 2 ^ fieldBits (ofProtocol proto) f := by push_cast; rfl

theorem idFieldName_analyze (hf : f ∈ frame.fields) (hid : isIdField f = true) :
    f ∈ plainFields frame.headerFields ∧ (analyze proto frame).idFieldName = f.name
      ∨ f ∉ plainFields frame.headerFields ∧ (analyze proto frame).idFieldName = "" := by
  rcases idFieldName_scanHeader (ofProtocol proto)
    ({ payloadIsArray := frame.payload.isArray
       payloadLengthFrom := frame.payload.lengthFrom }, 0) frame.headerFields
    with ⟨hnone, hstart⟩ | ⟨f', hf', hid', hname⟩
  · refine .inr ⟨fun hmem => ?_, hstart⟩
    rw [hnone f hmem] at hid
    cases hid
  · obtain rfl := h.id_unique hframe hf hid (mem_append_left _ hf') hid'
    exact .inl ⟨hf', hname⟩

end Accepted

/-! ## Numbers -/

/-- The number that the id of a message denotes in the generated code. -/
def MessageDef.number (index : TypeIndex) (m : MessageDef) : Option Int :=
  constraintValue index m.id

/-- The id field can hold a number: it is an integer, its member has the number, and so has its
encoding. -/
structure FieldTypeInfo.HoldsId (t : FieldTypeInfo) (n : Int) : Prop where
  integer : t.isFloat = false ∧ t.hasFieldScale = false
  member : storageCast t.bits t.isSigned n = n
  encoding : t.Representable n

instance (t : FieldTypeInfo) (n : Int) : Decidable (t.HoldsId n) :=
  decidable_of_iff ((t.isFloat = false ∧ t.hasFieldScale = false)
      ∧ storageCast t.bits t.isSigned n = n ∧ t.Representable n)
    ⟨fun h => ⟨h.1, h.2.1, h.2.2⟩, fun h => ⟨h.integer, h.member, h.encoding⟩⟩

theorem FieldTypeInfo.PlainNumber.holdsId {t : FieldTypeInfo} {n : Int} (h : t.PlainNumber)
    (hbits : 0 < t.bits ∧ t.bits ≤ 64) (hpos : 0 ≤ n) (hlt : n < 2 ^ t.bits) : t.HoldsId n := by
  obtain ⟨hfloat, hscale, hbool⟩ := h.integer
  have hpow : (2 : Int) ^ t.bits ≤ 2 ^ storageBits t.bits := by
    exact_mod_cast Nat.pow_le_pow_right (by decide) (le_storageBits hbits.2)
  refine ⟨⟨hfloat, hscale⟩, ?_, ?_⟩
  · rw [storageCast, if_neg (by simp [h.unsigned])]
    exact Int.emod_eq_of_lt hpos (hlt.trans_le hpow)
  exact h.representable hbits hpos (by exact_mod_cast hlt)

theorem labelsCompile_analyze_iff {proto : Protocol} {frame : FrameDef}
    (hid : (analyze proto frame).idFieldName ≠ "")
    (hids : ∀ m ∈ proto.messages, m.id ≠ "") (index : TypeIndex) :
    labelsCompile index (analyze proto frame).leafTypes = true
      ↔ (∀ m ∈ proto.messages, (m.number index).isSome)
        ∧ ∀ m ∈ proto.messages, ∀ m' ∈ proto.messages,
          m.number index = m'.number index → m.id = m'.id := by
  have htexts : (analyze proto frame).leafTypes.map (·.idText) = proto.messages.map (·.id) := by
    show (proto.messages.map (leafType (analyze proto frame).idFieldName)).map _ = _
    rw [map_map]
    refine map_congr_left fun m hm => ?_
    simp [leafType, LeafTypeInfo.idText, hids m hm, hid]
  simp only [labelsCompile, htexts, Bool.and_eq_true, all_eq_true, mem_dedup,
    decide_eq_true_eq, nodup_map_iff_inj_on (nodup_dedup _), forall_mem_map,
    number]

theorem recordLabelsCompile_analyze_iff {proto : Protocol} {frame : FrameDef}
    (hacc : Accepted proto) (hframe : frame ∈ proto.frames)
    (hid : (analyze proto frame).idFieldName ≠ "") (index : TypeIndex) :
    recordLabelsCompile index (analyze proto frame).leafTypes = true
      ↔ (∀ m ∈ proto.messages, m.direction ≠ .send → (m.number index).isSome)
        ∧ ∀ m ∈ proto.messages, m.direction ≠ .send → ∀ m' ∈ proto.messages,
          m'.direction ≠ .send → m.number index = m'.number index → m.id = m'.id := by
  have hnumbers : (recordLeaves (analyze proto frame).leafTypes).map
      (fun leaf => constraintValue index leaf.idText)
      = (proto.messages.filter fun m => m.direction != .send).map (number index) := by
    show ((proto.messages.map (leafType (analyze proto frame).idFieldName)).filter _).map _ = _
    rw [filter_map, map_map]
    refine map_congr_left fun m hm => ?_
    simp [leafType, LeafTypeInfo.idText, hacc.id_ne_empty hframe (mem_of_mem_filter hm), hid,
      number]
  have hall : ∀ leaves : List LeafTypeInfo,
      leaves.all (fun leaf => (constraintValue index leaf.idText).isSome)
        = (leaves.map fun leaf => constraintValue index leaf.idText).all Option.isSome := by
    intro leaves
    rw [all_map]
    rfl
  rw [recordLabelsCompile, hall, hnumbers, Bool.and_eq_true, decide_eq_true_eq, all_map,
    all_eq_true]
  simp only [mem_filter, bne_iff_ne, and_imp, Function.comp_apply]
  refine and_congr_right fun _ => ⟨fun hnodup m hm hdir m' hm' hdir' hnumber => ?_, fun h => ?_⟩
  · rw [inj_on_of_nodup_map hnodup (mem_filter.mpr ⟨hm, bne_iff_ne.mpr hdir⟩)
      (mem_filter.mpr ⟨hm', bne_iff_ne.mpr hdir'⟩) hnumber]
  rw [Nodup, pairwise_map, pairwise_filter]
  refine (hacc.shared_ids hframe).imp_of_mem fun {a b} ha hb hshared hsend hsend' hnumber => ?_
  rw [bne_iff_ne] at hsend hsend'
  -- with one number they have one id, and then one of them is only sent
  obtain ⟨hboth, hboth', hdiff⟩ := hshared (h a ha hsend b hb hsend' hnumber)
  cases hd : a.direction <;> cases hd' : b.direction <;> simp_all

/-! ## Dispatch -/

section Dispatch

variable {proto : Protocol} {frame : FrameDef} {code : FrameCode} {f : Field} {m : MessageDef}
  {object : FrameObject}

/-- The frame object for a message: `wrap` has put `ID_VALUE` into the id field
(`cpp_structs.cpp:249-260`). -/
def FrameCode.Wraps (code : FrameCode) (f : Field) (m : MessageDef) (object : FrameObject) : Prop :=
  ∃ n, m.number code.index = some n
    ∧ object.member f.name = storageCast (resolveFieldType f code.index).bits
      (resolveFieldType f code.index).isSigned n

/-- The number that is written into the id field is read from it, wherever the frame starts. -/
def FrameCode.IdReturns (code : FrameCode) (f : Field) (n : Int) : Prop :=
  EachField (fun c p => c.field.name = f.name → ∀ (w : BitWriter) (bs : List Bool), w.Holds bs →
    w.error = none → bs.length < 2 ^ 63 → bs.length % 8 = p % 8 →
    c.type.RoundTrips c.field.endian true n w) 0 code.header

/-- The accesses to the id field agree on where and in which order the bytes of the number are. -/
def FrameCode.IdAgrees (code : FrameCode) (f : Field) (n : Int) : Prop :=
  EachField (fun c p => c.field.name = f.name → ¬c.type.Mismatch c.field.endian true n p) 0
    code.header

instance (code : FrameCode) (f : Field) (n : Int) : Decidable (code.IdAgrees f n) := by
  unfold FrameCode.IdAgrees
  infer_instance

theorem FieldTypeInfo.Mismatch.congr {t : FieldTypeInfo} {e : Endian} {byteAligned : Bool}
    {n : Int} {p q : Nat} (hpq : p % 8 = q % 8) (h : t.Mismatch e byteAligned n p) :
    t.Mismatch e byteAligned n q := by
  unfold Mismatch at h ⊢
  rwa [← hpq]

theorem holds_zeros : ∀ q < 8, BitWriter.Holds
    { data := if q = 0 then [] else [0], bitPos := q } (replicate q false) := by
  unfold BitWriter.Holds
  decide

theorem FrameCode.idReturns_iff {n : Int}
    (hfits : ∀ c ∈ code.header, c.field.name = f.name → c.type.Representable n) :
    code.IdReturns f n ↔ code.IdAgrees f n := by
  constructor
  · refine fun h => h.imp fun c hc p hreturns hname hmismatch => ?_
    have hlt := Nat.mod_lt p (by decide : 8 > 0)
    have htrip := hreturns hname _ _ (holds_zeros _ hlt) rfl
      (by rw [length_replicate]; omega) (by rw [length_replicate, Nat.mod_mod])
    rw [FieldTypeInfo.roundTrips_iff (holds_zeros _ hlt) rfl
      (by rw [length_replicate]; omega) (hfits c hc hname), length_replicate] at htrip
    exact htrip (hmismatch.congr (Nat.mod_mod _ _).symm)
  · refine fun h => h.imp fun c hc p hagrees hname w bs hw herr hsmall hplace => ?_
    rw [FieldTypeInfo.roundTrips_iff hw herr hsmall (hfits c hc hname)]
    exact fun hmismatch => hagrees hname (hmismatch.congr hplace)

/-- `Fits` for the fields other than the id. -/
structure FrameCode.FitsBut (code : FrameCode) (f : Field) (object : FrameObject) (n : Nat) :
    Prop where
  header : EachField (fun c p => c.field.name ≠ f.name → HeaderAgrees object c p) 0 code.header
  footer : EachField (fun c => FieldAgrees c (c.value object)) (code.footerStart n) code.footer
  small : code.totalSize n < 2 ^ 60

/-- The decoder takes an encoded frame for what it was made from. A single payload is decoded from
the bytes of the frame; in an array of records each one is decoded by the id in the header. -/
structure FrameCode.Selects (code : FrameCode) (f : Field) (m : MessageDef) : Prop where
  single : code.session.payloadIsArray = false →
    ∀ (P : Type) (object : FrameObject) (own : List UInt8) (p : P)
      (encodeMessage : BitWriter → Except Error BitWriter) (decodeMessage : String → ReadM P)
      (body : BitWriter), code.Wraps f m object →
      code.FitsBut f object own.length → code.Delimited object own.length →
      PayloadWritten code object encodeMessage own body →
      DecodesFrom (decodeMessage m.name) (fieldsEnd 0 code.header) own p →
      ∃ bytes r, code.encodeBytes object encodeMessage = .ok bytes
        ∧ code.decode decodeMessage { data := bytes }
          = (.ok { header := code.headerValues object own.length
                   payload :=
                     { value := p
                       header := code.headerValues object own.length
                       footer := code.footer.map (·.value object) }
                   footer := code.footer.map (·.value object) }, r)
  array : code.session.payloadIsArray = true → m.direction ≠ .send →
    ∀ (P : Type) (object : FrameObject) (n : Nat) (decodeMessage : String → DecodeM P),
      code.Wraps f m object →
      code.decodeRecord decodeMessage (code.headerValues object n) = do
        let value ← decodeMessage m.name
        return code.copyHeader (code.headerValues object n) value

namespace FrameCode.Generated

variable (h : Generated proto frame code)
include h

theorem id_value (hf : f ∈ plainFields frame.headerFields)
    (hid : isIdField f = true) (hfree : f.constraint.bind (·.equals) = none)
    (object : FrameObject) :
    ∀ c ∈ code.header, c.field.name = f.name → c.value object = object.member f.name
      ∧ c.type = resolveFieldType f code.index ∧ c.source ≠ .placeholder := by
  intro c hc hname
  obtain ⟨d, hd, hemitted⟩ := exists_of_forall₂ h.header_emitted hf
  obtain rfl : c = d := inj_on_of_nodup_map h.names_nodup hc hd (by rw [hname, hemitted.field])
  obtain ⟨a, ha, hkind⟩ := isIdField_iff.mp hid
  have hsource : c.source = .member := by
    have hemit := hemitted.source
    obtain ⟨kind, fieldRef, key, modifier⟩ := a
    cases hkind
    simp only [fieldSource, ha, hfree, Option.some.injEq] at hemit
    exact hemit.symm
  refine ⟨?_, hemitted.type, by rw [hsource]; decide⟩
  rw [FieldCode.value, hsource, hemitted.field]

variable (hacc : Accepted proto) (hframe : frame ∈ proto.frames)
include hacc hframe

theorem number_ne {m' : MessageDef} (harray : code.session.payloadIsArray = true)
    (hm : m ∈ proto.messages) (hm' : m' ∈ proto.messages) (hdir : m.direction ≠ .send)
    (hdir' : m'.direction ≠ .send)
    (hnumber : m.number code.index = m'.number code.index) : m = m' := by
  have hlabels := h.labels
  have hid := h.id
  rw [dispatchCompiles, if_pos harray, h.session] at hlabels
  rw [h.session] at hid
  by_contra hne
  obtain ⟨hboth, hboth', hdiff⟩ := hacc.directions_of_shared hframe hm hm' hne
    (((recordLabelsCompile_analyze_iff hacc hframe hid _).mp hlabels).2 m hm hdir m' hm' hdir'
      hnumber)
  cases hd : m.direction <;> cases hd' : m'.direction <;> simp_all

theorem decodeRecord_eq {P : Type} (decodeMessage : String → DecodeM P)
    (harray : code.session.payloadIsArray = true)
    (hm : m ∈ proto.messages) (hdir : m.direction ≠ .send)
    (hid : ∀ c ∈ code.header, c.field.name = code.session.idFieldName →
      m.number code.index = some (c.value object)) (n : Nat) :
    code.decodeRecord decodeMessage (code.headerValues object n) = do
      let value ← decodeMessage m.name
      return code.copyHeader (code.headerValues object n) value := by
  obtain ⟨c, hc, hname, hmember⟩ := h.memberOf_headerValues object n
  have hnumber := hid c hc hname
  have hfound : ∃ leaf, (recordLeaves code.session.leafTypes).find? (fun leaf =>
      constraintValue code.index leaf.idText == some (c.value object)) = some leaf := by
    rw [← Option.isSome_iff_exists, find?_isSome]
    refine ⟨_, mem_filter.mpr ⟨h.leaf_mem hm, by simpa [leafType]⟩, ?_⟩
    rw [h.idText_leafType (hacc.id_ne_empty hframe hm), beq_iff_eq]
    exact hnumber
  obtain ⟨leaf, hleaf⟩ := hfound
  obtain ⟨hmem, hsend⟩ := mem_filter.mp (mem_of_find?_eq_some hleaf)
  rw [h.leafTypes_eq] at hmem
  obtain ⟨m', hm', rfl⟩ := mem_map.mp hmem
  have hnumber' := find?_some hleaf
  rw [h.idText_leafType (hacc.id_ne_empty hframe hm'), beq_iff_eq] at hnumber'
  have heq : m' = m := h.number_ne hacc hframe harray hm' hm
    (by simpa [leafType] using hsend) hdir (hnumber'.trans hnumber.symm)
  rw [FrameCode.decodeRecord, hmember]
  simp only [hleaf, heq, leafType]

theorem selects (hf : f ∈ plainFields frame.headerFields) (hauto : f.AutoId)
    (hm : m ∈ proto.messages) (hreceivable : m.Receivable proto)
    {k : Int} (hk : m.number code.index = some k)
    (hfits : (resolveFieldType f code.index).HoldsId k) (hagrees : code.IdAgrees f k) :
    code.Selects f m := by
  have hname : code.session.idFieldName = f.name := by
    rcases idFieldName_analyze hacc hframe (mem_append_left _ hf) hauto.kind
      with ⟨-, hname⟩ | ⟨hout, -⟩
    · rw [h.session, hname]
    · exact absurd hf hout
  have hfield := h.id_value hf hauto.kind (hacc.id_equals hframe hf hauto)
  have hvalue : ∀ object, code.Wraps f m object → ∀ c ∈ code.header, c.field.name = f.name →
      c.value object = k := by
    rintro object ⟨n, hn, hmember⟩ c hc hcname
    obtain rfl : n = k := Option.some.inj (hn.symm.trans hk)
    rw [(hfield object c hc hcname).1, hmember, hfits.member]
  have hid : ∀ object, code.Wraps f m object → ∀ c ∈ code.header,
      c.field.name = code.session.idFieldName → m.number code.index = some (c.value object) := by
    intro object hwraps c hc hcname
    rw [hvalue object hwraps c hc (hcname.trans hname), hk]
  constructor
  · intro hsingle P object own p encodeMessage decodeMessage body hwraps hothers hdelim hbody hdec
    have hfit : code.Fits object own.length := by
      refine ⟨?_, hothers.footer, hothers.small⟩
      refine (hothers.header.and hagrees).imp fun c hc p hc' => ?_
      by_cases hcname : c.field.name = f.name
      · obtain ⟨-, htype, hsource⟩ := hfield object c hc hcname
        rw [HeaderAgrees, if_neg hsource, hvalue object hwraps c hc hcname]
        exact ⟨htype ▸ hfits.encoding, hc'.2 hcname⟩
      · exact hc'.1 hcname
    obtain ⟨bytes, henc, hlen, hbits⟩ := h.encodeBytes_eq hacc hframe hfit hbody
    have hpayload := h.decodePayload_eq (n := own.length) hacc hframe hsingle decodeMessage hm
      hreceivable (hid object hwraps)
    obtain ⟨r, hdecode⟩ := h.decode_eq hacc hframe hfit hdelim hpayload hdec hlen hbits
    exact ⟨bytes, r, henc, hdecode⟩
  · intro harray hdir P object n decodeMessage hwraps
    exact h.decodeRecord_eq hacc hframe decodeMessage harray hm hdir (hid object hwraps) n

end FrameCode.Generated

end Dispatch

/-! ## Unambiguous dispatch -/

/-- The messages of a direction. -/
def Protocol.lane (proto : Protocol) (d : Direction) : List MessageDef :=
  proto.messages.filter fun m => m.direction == .both || m.direction == d

/-- The ids of the messages tell them apart, and the generated code goes by them. A message that is
only sent and shares its id with one that is received is for the decoder of the other side. -/
structure Dispatches (proto : Protocol) (frame : FrameDef) (f : Field) : Prop where
  apart : ∀ d, ∀ m ∈ proto.lane d, ∀ m' ∈ proto.lane d, m ≠ m' →
    ∃ n n', m.number (ofProtocol proto) = some n ∧ m'.number (ofProtocol proto) = some n' ∧ n ≠ n'
  fits : ∀ m ∈ proto.messages, ∃ n, m.number (ofProtocol proto) = some n
    ∧ (resolveFieldType f (ofProtocol proto)).HoldsId n
  compiles : (analyze proto frame).idFieldName ≠ ""
    ∧ dispatchCompiles (ofProtocol proto) (analyze proto frame) = true
  returns : ∀ code, FrameCode.generate proto frame = some code → ∀ m ∈ proto.messages,
    ∀ n, m.number (ofProtocol proto) = some n → code.IdReturns f n
  selects : ∀ code, FrameCode.generate proto frame = some code →
    ∀ m ∈ proto.messages, m.Receivable proto → code.Selects f m

/-- The validator does not hold the number of an id against the numbers of the id field: the id is
a constant, the number is negative, or the field is not an unsigned binary number, as wide as a
word, or not as wide as the validator takes it to be. -/
def Unchecked (index : TypeIndex) (f : Field) (m : MessageDef) (n : Int) : Prop :=
  let t := resolveFieldType f index
  (index.constant? m.id).isSome ∨ n < 0 ∨ ¬t.PlainNumber
    ∨ t.bits ≠ fieldBits index f ∨ t.bits = 0 ∨ 64 ≤ t.bits

/-- What the validator leaves to the author of a definition. -/
structure IdsClear (proto : Protocol) (frame : FrameDef) (f : Field) : Prop where
  header : f ∈ plainFields frame.headerFields
  numbers : ∀ m ∈ proto.messages, ∃ n, m.number (ofProtocol proto) = some n
    ∧ (Unchecked (ofProtocol proto) f m n → (resolveFieldType f (ofProtocol proto)).HoldsId n)
  spellings : ∀ m ∈ proto.messages, ∀ m' ∈ proto.messages,
    (frame.payload.isArray = true → ∃ d, m ∈ proto.lane d ∧ m' ∈ proto.lane d) →
    m.number (ofProtocol proto) = m'.number (ofProtocol proto) → m.id = m'.id
  agrees : ∀ code, FrameCode.generate proto frame = some code → ∀ m ∈ proto.messages,
    ∀ n, m.number (ofProtocol proto) = some n → code.IdAgrees f n

section

variable {proto : Protocol} {frame : FrameDef} {f : Field}

section

variable (h : IdsClear proto frame f) (hacc : Accepted proto) (hframe : frame ∈ proto.frames)

include h hacc hframe

theorem IdsClear.fits (hid : f.AutoId) {m : MessageDef} (hm : m ∈ proto.messages) :
    ∃ n, m.number (ofProtocol proto) = some n
      ∧ (resolveFieldType f (ofProtocol proto)).HoldsId n := by
  obtain ⟨n, hn, hrange⟩ := h.numbers m hm
  refine ⟨n, hn, ?_⟩
  by_cases hchecked : Unchecked (ofProtocol proto) f m n
  · exact hrange hchecked
  simp only [Unchecked, not_or, not_not, not_lt, Bool.not_eq_true, Option.isSome_eq_false_iff,
    Option.isNone_iff_eq_none, not_le] at hchecked
  obtain ⟨hconstant, hpos, hplain, hbits, hsome, hword⟩ := hchecked
  have hliteral : cppLiteral m.id = some n := by rwa [number, constraintValue, hconstant] at hn
  have hlt := hacc.literal_lt hframe (mem_append_left _ h.header) hid.kind hm hliteral hpos
    (by omega)
  exact hplain.holdsId (by omega) hpos (by rwa [hbits])

theorem IdsClear.apart {d : Direction} {m m' : MessageDef} (hm : m ∈ proto.lane d)
    (hm' : m' ∈ proto.lane d) (hne : m ≠ m') : ∃ n n', m.number (ofProtocol proto) = some n
      ∧ m'.number (ofProtocol proto) = some n' ∧ n ≠ n' := by
  obtain ⟨hmem, hlane⟩ := mem_filter.mp hm
  obtain ⟨hmem', hlane'⟩ := mem_filter.mp hm'
  obtain ⟨n, hn, -⟩ := h.numbers m hmem
  obtain ⟨n', hn', -⟩ := h.numbers m' hmem'
  refine ⟨n, n', hn, hn', ?_⟩
  rintro rfl
  -- with one number they have one id, and then different directions
  have hid := h.spellings m hmem m' hmem' (fun _ => ⟨d, hm, hm'⟩) (hn.trans hn'.symm)
  obtain ⟨hboth, hboth', hdiff⟩ := hacc.directions_of_shared hframe hmem hmem' hne hid
  simp_all

end

theorem IdsClear.dispatchCompiles (h : IdsClear proto frame f) (hacc : Accepted proto)
    (hframe : frame ∈ proto.frames) (hname : (analyze proto frame).idFieldName ≠ "") :
    dispatchCompiles (ofProtocol proto) (analyze proto frame) = true := by
  have hsome : ∀ m ∈ proto.messages, (m.number (ofProtocol proto)).isSome := by
    intro m hm
    obtain ⟨n, hn, -⟩ := h.numbers m hm
    rw [hn]
    rfl
  unfold Bgen.dispatchCompiles
  rw [payloadIsArray_analyze]
  split
  next =>
    rw [recordLabelsCompile_analyze_iff hacc hframe hname]
    refine ⟨fun m hm _ => hsome m hm, fun m hm hdir m' hm' hdir' => ?_⟩
    -- messages that can be received share the lane of the receiver
    refine h.spellings m hm m' hm' fun _ => ⟨.receive, ?_, ?_⟩ <;>
      refine mem_filter.mpr ⟨‹_›, ?_⟩
    · cases hd : m.direction <;> simp_all
    · cases hd : m'.direction <;> simp_all
  next hsingle =>
    rw [labelsCompile_analyze_iff hname fun m hm => hacc.id_ne_empty hframe hm]
    exact ⟨hsome, fun m hm m' hm' => h.spellings m hm m' hm' fun harray => absurd harray hsingle⟩

theorem Dispatches.spellings (h : Dispatches proto frame f) (hacc : Accepted proto)
    (hframe : frame ∈ proto.frames) {m m' : MessageDef} (hm : m ∈ proto.messages)
    (hm' : m' ∈ proto.messages)
    (hlane : frame.payload.isArray = true → ∃ d, m ∈ proto.lane d ∧ m' ∈ proto.lane d)
    (hnumber : m.number (ofProtocol proto) = m'.number (ofProtocol proto)) : m.id = m'.id := by
  by_cases harray : frame.payload.isArray = true
  · obtain ⟨d, hd, hd'⟩ := hlane harray
    by_contra hne
    obtain ⟨n, n', hn, hn', hdiff⟩ := h.apart d m hd m' hd' fun heq => hne (by rw [heq])
    exact hdiff (Option.some.inj (hn.symm.trans (hnumber.trans hn')))
  · obtain ⟨hname, hlabels⟩ := h.compiles
    rw [Bgen.dispatchCompiles, payloadIsArray_analyze, if_neg harray,
      labelsCompile_analyze_iff hname fun m hm => hacc.id_ne_empty hframe hm] at hlabels
    exact hlabels.2 m hm m' hm' hnumber

end

/-! ### Ids in one byte -/

/-- The id field of `sharedFrame`. -/
def idByte : Field :=
  { name := "kind", typeRef := "u8", autoAttr := some "id", autoExpr := some { kind := .id } }

/-- Two messages in that frame. -/
def twoMessages (byte : TypeDef) (constants : List ConstDef) (first second : String) : Protocol :=
  { name := "pair"
    version := "1"
    types := [byte]
    constants := constants
    messages := [{ name := "Ping", id := first }, { name := "Pong", id := second }]
    frames := [sharedFrame] }

/-- A message with a constant for its id, and one with a literal. -/
def namedProtocol : Protocol :=
  twoMessages { name := "u8", bits := 8 } [{ name := "PING", typeRef := "u8", value := "0x10" }]
    "PING" "2"

/-- One number in two spellings. -/
def spelledProtocol : Protocol := twoMessages { name := "u8", bits := 8 } [] "1" "0x1"

/-- A signed byte, and an id beyond its numbers. -/
def signedProtocol : Protocol := twoMessages { name := "u8", bits := 8, base := .int } [] "1" "200"

/-- An id field whose bytes are read in another order than they are written in. -/
def idWord : Field := { idByte with typeRef := "s16", endian := .little }

def swappedFrame : FrameDef := { name := "Packet", headerFields := [.field idWord] }

def swappedProtocol : Protocol :=
  { twoMessages { name := "s16", base := .int, bits := 16, endian := .little } [] "1" "2" with
    frames := [swappedFrame] }

end Conduit.Bgen
