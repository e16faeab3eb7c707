import Conduit.Bgen.Accepted
import Conduit.Bgen.FrameFields
import Conduit.Bgen.FrameSync
import Mathlib.Data.List.Dedup

/-!
# The length and the id of an accepted frame

The decoder looks two members up by name. In an accepted frame the length is one field of the
header, the same for the session and for the encoder, and the id of a message that can be received
leads to that message.
-/

namespace Conduit.Bgen

open Bits Io SessionAnalyzer Validator List

/-! ## The length field of an accepted frame -/

/-- A field that is filled in with a length. -/
def isLengthField (f : Field) : Bool := f.autoExpr.any (·.kind == .length)

theorem FieldCode.Emitted.source_eq_iff {index : TypeIndex} {payloadIsArray : Bool} {f : Field}
    {c : FieldCode} (h : c.Emitted index payloadIsArray f) :
    c.source = .placeholder ↔ isLengthField f = true := by
  have hsource := h.source
  unfold fieldSource at hsource
  unfold isLengthField
  generalize c.source = source at hsource ⊢
  split at hsource
  next hauto =>
    cases hsource
    simp [hauto]
  next hauto =>
    have hnot : source ≠ .placeholder := by
      split at hsource <;> cases hsource <;> exact ValueSource.noConfusion
    simp [hauto, hnot]
  next hlength hcount =>
    have hnot : source ≠ .placeholder := by
      split at hsource
      · simp only [Option.map_eq_some_iff] at hsource
        obtain ⟨v, -, hv⟩ := hsource
        rw [← hv]
        exact ValueSource.noConfusion
      · cases hsource
        exact ValueSource.noConfusion
    cases hauto : f.autoExpr with
    | none => simp [hnot]
    | some a =>
      obtain ⟨kind, fieldRef, key, modifier⟩ := a
      have hkind : kind ≠ .length := by
        rintro rfl
        exact hlength _ _ _ hauto
      simp [hnot, hkind]

theorem countP_placeholder {index : TypeIndex} {payloadIsArray : Bool} {fields : List Field}
    {cs : List FieldCode}
    (h : Forall₂ (fun f c => FieldCode.Emitted index payloadIsArray f c) fields cs) :
    cs.countP (·.source == .placeholder) = fields.countP isLengthField := by
  induction h with
  | nil => rfl
  | @cons f c fields cs hc _ ih =>
    have hhead : (c.source == .placeholder) = isLengthField f := by
      rw [Bool.eq_iff_iff, beq_iff_eq, hc.source_eq_iff]
    rw [countP_cons, countP_cons, ih, hhead]

theorem length_filter_autoFields (children : List StructChild) :
    ((autoFields children).filter (·.2.kind == .length)).length
      = (plainFields children).countP isLengthField := by
  induction children with
  | nil => rfl
  | cons child children ih =>
    cases child with
    | field f =>
      cases hauto : f.autoExpr with
      | none => simpa [autoFields, plainFields, hauto, isLengthField] using ih
      | some a =>
        by_cases hkind : a.kind = .length <;>
          simpa [autoFields, plainFields, hauto, isLengthField, hkind] using ih
    | _ => simpa [autoFields, plainFields] using ih

section Accepted

variable {proto : Protocol} {frame : FrameDef} {code : FrameCode} {m : MessageDef}

/-- What the decoder knows about the length field, and where the encoder has it. -/
structure FrameCode.LengthField (code : FrameCode) (l : LengthCode) (first : List FieldCode)
    (c : FieldCode) (rest : List FieldCode) : Prop where
  split : LengthSplit code.header first c rest
  bits : l.bits = c.type.bits
  endian : l.endian = c.field.endian
  name : code.session.lengthFieldName = c.field.name
  named : c.field.name ≠ ""
  ref : code.session.frameLengthFieldRef = if l.payloadOnly then "payload" else ""
  modifier : code.session.frameLengthModifier = l.modifier

theorem FrameCode.Generated.lengthField (h : Generated proto frame code)
    (hacc : Accepted proto) (hframe : frame ∈ proto.frames) {l : LengthCode}
    (hl : code.length = some l) : ∃ first c rest, code.LengthField l first c rest := by
  obtain ⟨f, a, hlast, hsession, href, hlength⟩ := h.lengthOf hl
  obtain ⟨hf, hauto, hkind⟩ := mem_of_lastLength hlast
  obtain ⟨c, hc, hemitted⟩ := exists_of_forall₂ h.header_emitted hf
  have hsource : c.source = .placeholder := by
    rw [hemitted.source_eq_iff]
    simp [isLengthField, hauto, hkind]
  obtain ⟨first, rest, hsplit⟩ := append_of_mem hc
  have hcount : code.header.countP (·.source == .placeholder) ≤ 1 := by
    have hone := hacc.length_autoFields_le hframe
    rw [filter_append, length_append, length_filter_autoFields] at hone
    rw [countP_placeholder h.header_emitted]
    omega
  rw [hsplit, countP_append, countP_cons, hsource] at hcount
  simp only [beq_self_eq_true, if_true] at hcount
  refine ⟨first, c, rest, ⟨hsplit, hsource, ?_⟩, ?_, ?_, ?_, ?_, ?_, ?_⟩
  · intro d hd hplaceholder
    have hpos : 0 < (first ++ rest).countP (·.source == .placeholder) :=
      countP_pos_iff.mpr ⟨d, hd, by simp [hplaceholder]⟩
    rw [countP_append] at hpos
    omega
  · rw [hlength, hemitted.type]
  · rw [hlength, hemitted.field]
  · rw [hsession.fieldName, hemitted.field]
  · rw [hemitted.field]
    exact hacc.header_name_ne_empty hframe hf
  · rw [hsession.fieldRef, hlength]
    rcases href with href | href <;> simp [href]
  · rw [hsession.modifier, hlength]

theorem FrameCode.Generated.no_length (h : Generated proto frame code) (hl : code.length = none) :
    (∀ c ∈ code.header, c.source ≠ .placeholder) ∧ code.session.lengthFieldName = "" := by
  have hlast : lastLength frame.headerFields = none := by
    have hemit := h.length
    rw [hl] at hemit
    unfold emitLength at hemit
    split at hemit
    next hnone => exact hnone
    next => split at hemit <;> cases hemit
  constructor
  · have hzero : code.header.countP (·.source == .placeholder) = 0 := by
      rw [countP_placeholder h.header_emitted, ← length_filter_autoFields,
        getLast?_eq_none_iff.mp hlast, length_nil]
    intro c hc hsource
    have hnot := countP_eq_zero.mp hzero c hc
    simp [hsource] at hnot
  · rw [h.session]
    exact lengthFieldName_scanHeader _ _ hlast

/-! ## Members by name -/

theorem memberOf_map (header : List FieldCode) (value : FieldCode → Int) (name : String) :
    memberOf header (header.map value) name
      = (header.find? (·.field.name == name)).map fun c => (c, value c) := by
  unfold memberOf
  induction header with
  | nil => rfl
  | cons c header ih =>
    rw [map_cons, zip_cons_cons, find?_cons, find?_cons]
    cases c.field.name == name with
    | true => rfl
    | false => exact ih

theorem map_field_of_emitted {index : TypeIndex} {payloadIsArray : Bool} {fields : List Field}
    {cs : List FieldCode}
    (h : Forall₂ (fun f c => FieldCode.Emitted index payloadIsArray f c) fields cs) :
    cs.map (·.field) = fields := by
  induction h with
  | nil => rfl
  | cons hc _ ih => rw [map_cons, hc.field, ih]

theorem FrameCode.Generated.names_nodup (h : Generated proto frame code) :
    (code.header.map (·.field.name)).Nodup := by
  have hnames := h.names
  rw [map_append] at hnames
  have hheader := (nodup_append.mp hnames).1
  have hcompose : (plainFields frame.headerFields).map (fun f => toSnakeCase f.name)
      = (code.header.map (·.field.name)).map toSnakeCase := by
    rw [← map_field_of_emitted h.header_emitted, map_map, map_map]
    rfl
  rw [hcompose] at hheader
  exact hheader.of_map

theorem find?_name {header : List FieldCode} {c : FieldCode}
    (hnodup : (header.map (·.field.name)).Nodup) (hc : c ∈ header) :
    header.find? (·.field.name == c.field.name) = some c := by
  induction header with
  | nil => cases hc
  | cons d header ih =>
    rw [map_cons, nodup_cons] at hnodup
    rcases mem_cons.mp hc with rfl | hc
    · rw [find?_cons, beq_self_eq_true]
    have hne : d.field.name ≠ c.field.name := by
      intro heq
      exact hnodup.1 (heq ▸ mem_map_of_mem hc)
    rw [find?_cons, beq_eq_false_iff_ne.mpr hne]
    exact ih hnodup.2 hc

/-! ## The id and the message -/

/-- A field that is filled in with the id of the message. -/
def isIdField (f : Field) : Bool := f.autoExpr.any (·.kind == .id)

theorem isIdField_iff {f : Field} :
    isIdField f = true ↔ ∃ a, f.autoExpr = some a ∧ a.kind = .id := by
  unfold isIdField
  cases f.autoExpr <;> simp

theorem idFieldName_scanHeaderChild (index : TypeIndex) (state : SessionInfo × Nat)
    (child : StructChild) : ((∀ f, child = .field f → isIdField f = false)
        ∧ (scanHeaderChild index state child).1.idFieldName = state.1.idFieldName)
      ∨ ∃ f, child = .field f ∧ isIdField f = true
        ∧ (scanHeaderChild index state child).1.idFieldName = f.name := by
  obtain ⟨si, offset⟩ := state
  cases child with
  | field f =>
    cases hid : isIdField f with
    | true =>
      refine .inr ⟨f, rfl, hid, ?_⟩
      obtain ⟨a, hauto, hkind⟩ := isIdField_iff.mp hid
      simp only [scanHeaderChild, scanAuto, hauto, hkind]
    | false =>
      refine .inl ⟨by simpa using hid, ?_⟩
      simp only [scanHeaderChild, scanAuto]
      split
      next => rfl
      next a hauto =>
        split
        next hkind =>
          rw [isIdField_iff.mpr ⟨a, hauto, hkind⟩] at hid
          cases hid
        next => rfl
        next => rfl
        next => rfl
  | struct s children =>
    refine .inl ⟨by simp, ?_⟩
    simp only [scanHeaderChild]
    split <;> rfl
  | _ => exact .inl ⟨by simp, rfl⟩

theorem idFieldName_scanHeader (index : TypeIndex) (start : SessionInfo × Nat)
    (children : List StructChild) : ((∀ f ∈ plainFields children, isIdField f = false)
        ∧ (children.foldl (scanHeaderChild index) start).1.idFieldName = start.1.idFieldName)
      ∨ ∃ f ∈ plainFields children, isIdField f = true
        ∧ (children.foldl (scanHeaderChild index) start).1.idFieldName = f.name := by
  induction children using reverseRecOn with
  | nil => exact .inl ⟨by simp [plainFields], rfl⟩
  | append_singleton children child ih =>
    have hmem : ∀ f, f ∈ plainFields (children ++ [child])
        ↔ f ∈ plainFields children ∨ child = .field f := by
      intro f
      rw [plainFields, filterMap_append, mem_append]
      refine or_congr Iff.rfl ?_
      cases child <;> simp [eq_comm]
    rw [foldl_append, foldl_cons, foldl_nil]
    generalize children.foldl (scanHeaderChild index) start = state at ih ⊢
    rcases idFieldName_scanHeaderChild index state child with ⟨hno, hsame⟩ | ⟨f, hf, hid, hname⟩
    · rw [hsame]
      rcases ih with ⟨hnone, hstart⟩ | ⟨f, hf, hid, hname⟩
      · refine .inl ⟨fun f hf => ?_, hstart⟩
        exact ((hmem f).mp hf).elim (hnone f) (hno f)
      · exact .inr ⟨f, (hmem f).mpr (.inl hf), hid, hname⟩
    · exact .inr ⟨f, (hmem f).mpr (.inr hf), hid, hname⟩

theorem payloadIsArray_scanHeader (index : TypeIndex) (start : SessionInfo × Nat)
    (children : List StructChild) :
    (children.foldl (scanHeaderChild index) start).1.payloadIsArray = start.1.payloadIsArray := by
  induction children using reverseRecOn with
  | nil => rfl
  | append_singleton children child ih =>
    rw [foldl_append, foldl_cons, foldl_nil, ← ih]
    cases child with
    | field f =>
      simp only [scanHeaderChild, scanAuto]
      split
      next => rfl
      next => split <;> rfl
    | struct s children =>
      simp only [scanHeaderChild]
      split <;> rfl
    | _ => rfl

@[simp] theorem payloadIsArray_analyze (proto : Protocol) (frame : FrameDef) :
    (analyze proto frame).payloadIsArray = frame.payload.isArray :=
  payloadIsArray_scanHeader _ _ frame.headerFields

section

variable (h : FrameCode.Generated proto frame code)
include h

theorem FrameCode.Generated.idField :
    ∃ c ∈ code.header, c.field.name = code.session.idFieldName ∧ c.source ≠ .placeholder := by
  have hid := h.id
  rw [h.session] at hid ⊢
  rcases idFieldName_scanHeader (TypeIndex.ofProtocol proto)
    ({ payloadIsArray := frame.payload.isArray
       payloadLengthFrom := frame.payload.lengthFrom }, 0) frame.headerFields
    with ⟨-, hnone⟩ | ⟨f, hf, hkind, hname⟩
  · exact absurd hnone hid
  obtain ⟨c, hc, hemitted⟩ := exists_of_forall₂ h.header_emitted hf
  refine ⟨c, hc, by rw [hemitted.field]; exact hname.symm, ?_⟩
  rw [Ne, hemitted.source_eq_iff]
  obtain ⟨a, hauto, ha⟩ := isIdField_iff.mp hkind
  simp [isLengthField, hauto, ha]

theorem FrameCode.Generated.leafTypes_eq : code.session.leafTypes
      = proto.messages.map (leafType code.session.idFieldName) := by
  rw [h.session]
  rfl

theorem FrameCode.Generated.leaf_mem (hm : m ∈ proto.messages) :
    leafType code.session.idFieldName m ∈ code.session.leafTypes := by
  rw [h.leafTypes_eq]
  exact mem_map_of_mem hm

theorem FrameCode.Generated.idText_leafType (hid : m.id ≠ "") :
    (leafType code.session.idFieldName m).idText = m.id := by
  simp [leafType, LeafTypeInfo.idText, hid, h.id]

theorem FrameCode.Generated.id_inj (hacc : Accepted proto) (hframe : frame ∈ proto.frames)
    (hsingle : code.session.payloadIsArray = false) {m' : MessageDef} (hm : m ∈ proto.messages) (hm' : m' ∈ proto.messages)
    (hnumber : constraintValue code.index m.id = constraintValue code.index m'.id) :
    m.id = m'.id := by
  have hlabels := h.labels
  simp only [dispatchCompiles, hsingle, Bool.false_eq_true, if_false, labelsCompile,
    Bool.and_eq_true, decide_eq_true_eq] at hlabels
  refine inj_on_of_nodup_map hlabels.2 ?_ ?_ hnumber <;>
    rw [mem_dedup, mem_map]
  · exact ⟨_, h.leaf_mem hm, h.idText_leafType (hacc.id_ne_empty hframe hm)⟩
  · exact ⟨_, h.leaf_mem hm', h.idText_leafType (hacc.id_ne_empty hframe hm')⟩

/-- A message that can be told from the others by its id when it is received. -/
def MessageDef.Receivable (proto : Protocol) (m : MessageDef) : Prop :=
  m.direction ≠ .send ∨ ∀ m' ∈ proto.messages, m'.id = m.id → m'.name = m.name

theorem FrameCode.Generated.decodeLeaf_eq (hacc : Accepted proto) (hframe : frame ∈ proto.frames)
    (hsingle : code.session.payloadIsArray = false)
    (hm : m ∈ proto.messages) (hreceivable : m.Receivable proto) {id : Int}
    (hid : constraintValue code.index m.id = some id) :
    ∃ leaf, decodeLeaf code.index code.session.leafTypes id = some leaf ∧ leaf.name = m.name := by
  unfold decodeLeaf
  dsimp only
  set group := code.session.leafTypes.filter fun leaf =>
    constraintValue code.index leaf.idText == some id with hgroup
  -- every message of the group has the id of `m`
  have hsame : ∀ leaf ∈ group, ∃ m' ∈ proto.messages, m'.id = m.id
      ∧ leaf = leafType code.session.idFieldName m' := by
    intro leaf hleaf
    rw [hgroup, mem_filter, h.leafTypes_eq, mem_map, beq_iff_eq] at hleaf
    obtain ⟨⟨m', hm', rfl⟩, hnumber⟩ := hleaf
    rw [h.idText_leafType (hacc.id_ne_empty hframe hm')] at hnumber
    exact ⟨m', hm', h.id_inj hacc hframe hsingle hm' hm (hnumber.trans hid.symm), rfl⟩
  have hmem : leafType code.session.idFieldName m ∈ group := by
    rw [hgroup, mem_filter, h.idText_leafType (hacc.id_ne_empty hframe hm), hid, beq_self_eq_true]
    exact ⟨h.leaf_mem hm, rfl⟩
  by_cases hunique : ∀ m' ∈ proto.messages, m'.id = m.id → m'.name = m.name
  · -- whichever message is taken has the name
    obtain ⟨leaf, hleaf⟩ : ∃ leaf, (group.find? fun leaf => !leaf.sendOnly).or group.head?
        = some leaf := by
      rw [← Option.isSome_iff_exists, Option.isSome_or, Bool.or_eq_true]
      exact .inr (isSome_head?.mpr (ne_nil_of_mem hmem))
    have hin : leaf ∈ group := by
      rcases Option.or_eq_some_iff.mp hleaf with hfind | ⟨-, hhead⟩
      · exact mem_of_find?_eq_some hfind
      · exact mem_of_head? hhead
    obtain ⟨m', hm', hsameId, rfl⟩ := hsame leaf hin
    exact ⟨_, hleaf, hunique m' hm' hsameId⟩
  have hsend : m.direction ≠ .send := hreceivable.resolve_right hunique
  obtain ⟨leaf, hleaf⟩ : ∃ leaf, group.find? (fun leaf => !leaf.sendOnly) = some leaf := by
    rw [← Option.isSome_iff_exists, find?_isSome]
    exact ⟨_, hmem, by simpa [leafType] using hsend⟩
  obtain ⟨m', hm', hsameId, rfl⟩ := hsame leaf (mem_of_find?_eq_some hleaf)
  have hsend' : m'.direction ≠ .send := by simpa [leafType] using find?_some hleaf
  refine ⟨_, by rw [hleaf, Option.some_or], ?_⟩
  by_contra hname
  have hne : m' ≠ m := fun heq => hname (by rw [heq]; rfl)
  obtain ⟨hboth', hboth, hdiff⟩ := hacc.directions_of_shared hframe hm' hm hne hsameId
  cases hd : m.direction <;> cases hd' : m'.direction <;> simp_all

end

end Accepted

end Conduit.Bgen
