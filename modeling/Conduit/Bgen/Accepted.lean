import Conduit.Bgen.Validator
import Mathlib.Data.List.Pairwise

/-!
# What acceptance guarantees

The validator collects messages; a protocol is accepted if there are none. The lemmas here turn
the absence of a message into the fact that it would have denied.
-/

namespace Conduit.Bgen.Validator

open List

variable {index : TypeIndex}

theorem errorIf_eq_nil {condition : Bool} {message : String} :
    errorIf condition message = [] ↔ condition = false := by
  cases condition <;> simp [errorIf]

/-! ## Children -/

theorem validateField_of_childrenLoop {scope : Scope} {all children : List StructChild}
    {seen : Seen} (h : childrenLoop index scope all seen children = []) :
    ∀ f ∈ plainFields children,
      validateField index f scope.inBitmap scope.parentName scope.inFx scope.inFrame = [] := by
  induction children generalizing seen with
  | nil =>
    intro f hf
    cases hf
  | cons child children ih =>
    rw [childrenLoop, append_eq_nil_iff] at h
    obtain ⟨hchild, hrest⟩ := h
    intro f hf
    cases child with
    | field g =>
      rcases mem_cons.mp hf with rfl | hf
      · simp only [childErrors, fieldErrors, append_eq_nil_iff] at hchild
        exact hchild.1.1.2
      · exact ih hrest f hf
    | _ => exact ih hrest f hf

section

variable {f : Field} {inBitmap : Bool} {parentName : String} {inFx inFrame : Bool}
  (h : validateField index f inBitmap parentName inFx inFrame = [])

include h

theorem name_ne_empty_of_validateField : f.name ≠ "" := by
  unfold validateField at h
  simp only [append_eq_nil_iff, errorIf_eq_nil] at h
  repeat obtain ⟨h, -⟩ := h
  simpa using h

theorem autoErrors_of_validateField : autoErrors index f inFx inFrame = [] := by
  unfold validateField at h
  simp only [append_eq_nil_iff] at h
  obtain ⟨⟨⟨⟨⟨⟨⟨⟨⟨⟨⟨⟨⟨⟨-, hauto⟩, -⟩, -⟩, -⟩, -⟩, -⟩, -⟩, -⟩, -⟩, -⟩, -⟩, -⟩, -⟩, -⟩ := h
  exact hauto

end

/-! ## Structs -/

theorem Accepted.structErrors {proto : Protocol} {s : StructDef} (h : Accepted proto)
    (hs : s ∈ proto.structs) : validateStructDef (TypeIndex.ofProtocol proto) s = [] := by
  simp only [Accepted, validate, append_eq_nil_iff, flatMap_eq_nil_iff] at h
  obtain ⟨⟨⟨⟨-, hstructs⟩, -⟩, -⟩, -⟩ := h
  exact hstructs s hs

theorem bits_of_bitmapBitErrors {s : StructAttrs} {used : List Int}
    {bits : List (String × String × Int)} (h : bitmapBitErrors s used bits = []) :
    (∀ b ∈ bits, 0 ≤ b.2.2 ∧ b.2.2 ∉ used) ∧ (bits.map (·.2.2)).Nodup := by
  induction bits generalizing used with
  | nil =>
    refine ⟨?_, nodup_nil⟩
    intro b hb
    cases hb
  | cons b bits ih =>
    obtain ⟨kind, name, bit⟩ := b
    simp only [bitmapBitErrors, append_eq_nil_iff, errorIf_eq_nil, Bool.or_eq_false_iff,
      decide_eq_false_iff_not, contains_eq_mem] at h
    obtain ⟨⟨⟨⟨hneg, -⟩, hused⟩, -⟩, hrest⟩ := h
    obtain ⟨hall, hnodup⟩ := ih hrest
    refine ⟨?_, ?_⟩
    · intro b hb
      rcases mem_cons.mp hb with rfl | hb
      · exact ⟨Int.not_lt.mp hneg, hused⟩
      obtain ⟨hpos, hnew⟩ := hall b hb
      exact ⟨hpos, fun hmem => hnew (mem_cons_of_mem _ hmem)⟩
    · rw [map_cons, nodup_cons]
      refine ⟨?_, hnodup⟩
      intro hmem
      obtain ⟨b, hb, heq⟩ := mem_map.mp hmem
      exact (hall b hb).2 (heq ▸ mem_cons_self ..)

/-! ## Frames -/

section Frames

variable {proto : Protocol} {frame : FrameDef}

section

variable (h : Accepted proto) (hframe : frame ∈ proto.frames)

include h hframe

theorem Accepted.frameErrors : validateFrame (TypeIndex.ofProtocol proto) proto frame = []
      ∧ proto.messages.filter (·.id == "") = []
      ∧ sharedIdErrors (proto.messages.filter (·.id != "")) = [] := by
  have hne : proto.frames.isEmpty = false := by
    rw [isEmpty_eq_false_iff]
    exact ne_nil_of_mem hframe
  simp only [Accepted, validate, Validator.validateFrames, hne, Bool.false_eq_true, if_false,
    append_eq_nil_iff, flatMap_eq_nil_iff, map_eq_nil_iff] at h
  obtain ⟨⟨-, ⟨⟨-, hframes⟩, hids⟩, hshared⟩, -⟩ := h
  exact ⟨hframes frame hframe, hids, hshared⟩

theorem Accepted.headerFieldErrors {f : Field} (hf : f ∈ plainFields frame.headerFields) :
    validateField (TypeIndex.ofProtocol proto) f false s!"frame '{frame.name}'" false true = [] := by
  have hvalid := (h.frameErrors hframe).1
  simp only [Validator.validateFrame, append_eq_nil_iff] at hvalid
  repeat obtain ⟨hvalid, -⟩ := hvalid
  exact validateField_of_childrenLoop hvalid f hf

theorem Accepted.header_name_ne_empty {f : Field} (hf : f ∈ plainFields frame.headerFields) :
    f.name ≠ "" :=
  name_ne_empty_of_validateField (h.headerFieldErrors hframe hf)

theorem Accepted.length_autoFields_le :
    ((autoFields frame.headerFields ++ autoFields frame.footerFields).filter
      (·.2.kind == .length)).length ≤ 1 := by
  have hvalid := (h.frameErrors hframe).1
  simp only [Validator.validateFrame, append_eq_nil_iff, errorIf_eq_nil,
    decide_eq_false_iff_not] at hvalid
  have := hvalid.1.1.1.1.1.2
  omega

end

theorem pairwise_of_sharedIdErrors {messages : List MessageDef} (h : sharedIdErrors messages = []) :
    messages.Pairwise fun a b => a.id = b.id →
      a.direction ≠ .both ∧ b.direction ≠ .both ∧ a.direction ≠ b.direction := by
  induction messages with
  | nil => exact Pairwise.nil
  | cons a rest ih =>
    rw [sharedIdErrors, append_eq_nil_iff] at h
    refine Pairwise.cons ?_ (ih h.2)
    intro b hb hid
    have hmem : b ∈ rest.filter (·.id == a.id) := mem_filter.mpr ⟨hb, by simp [hid]⟩
    have hnone := flatMap_eq_nil_iff.mp h.1 b hmem
    split at hnone
    next => cases hnone
    next hboth =>
      split at hnone
      next => cases hnone
      next hsame => simpa [not_or, and_assoc] using And.intro hboth hsame

variable (h : Accepted proto) (hframe : frame ∈ proto.frames)

include h hframe

theorem Accepted.id_ne_empty {m : MessageDef} (hm : m ∈ proto.messages) : m.id ≠ "" := by
  intro hid
  have hmem : m ∈ proto.messages.filter (·.id == "") := mem_filter.mpr ⟨hm, by simp [hid]⟩
  rw [(h.frameErrors hframe).2.1] at hmem
  cases hmem

theorem Accepted.shared_ids : proto.messages.Pairwise fun a b => a.id = b.id →
      a.direction ≠ .both ∧ b.direction ≠ .both ∧ a.direction ≠ b.direction := by
  have hall : proto.messages.filter (·.id != "") = proto.messages := by
    rw [filter_eq_self]
    intro m hm
    simpa using h.id_ne_empty hframe hm
  have hpairs := pairwise_of_sharedIdErrors (h.frameErrors hframe).2.2
  rwa [hall] at hpairs

theorem Accepted.directions_of_shared {a b : MessageDef} (ha : a ∈ proto.messages)
    (hb : b ∈ proto.messages) (hne : a ≠ b) (hid : a.id = b.id) :
    a.direction ≠ .both ∧ b.direction ≠ .both ∧ a.direction ≠ b.direction := by
  have hsymm : Std.Symm fun a b : MessageDef => a.id = b.id →
      a.direction ≠ .both ∧ b.direction ≠ .both ∧ a.direction ≠ b.direction := by
    refine ⟨fun a b hab hid => ?_⟩
    obtain ⟨ha, hb, hne⟩ := hab hid.symm
    exact ⟨hb, ha, hne.symm⟩
  exact (h.shared_ids hframe).forall ha hb hne hid

end Frames

end Conduit.Bgen.Validator
