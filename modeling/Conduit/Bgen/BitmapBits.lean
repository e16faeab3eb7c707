import Conduit.Bgen.Accepted
import Conduit.Bgen.Resolver

/-!
# The presence bits of bitmap structs

`validate_struct_def` looks at the presence bits of the structs at the top of a protocol. The
structs that stand inside other definitions are seen by `validate_children` alone, which does not.
-/

namespace Conduit.Bgen

open Validator

mutual

/-- The structs that are defined in place, at any depth. -/
def childStructs : StructChild → List StructDef
  | .field _ => []
  | .struct s children => ⟨s, children⟩ :: nestedStructs children
  | .array _ children => nestedStructs children
  | .choice _ cases otherwise => caseStructs cases ++ otherwiseStructs otherwise
  | .fxBlock children => nestedStructs children
  | .reserved _ => []
  | .align _ => []

def nestedStructs : List StructChild → List StructDef
  | [] => []
  | c :: cs => childStructs c ++ nestedStructs cs

def caseStructs : List Case → List StructDef
  | [] => []
  | .mk _ children :: cases => nestedStructs children ++ caseStructs cases

def otherwiseStructs : Option Case → List StructDef
  | none => []
  | some (.mk _ children) => nestedStructs children

end

/-- The structs of a protocol that stand inside a struct, a message or a frame. -/
def Protocol.innerStructs (proto : Protocol) : List StructDef :=
  proto.childLists.flatMap nestedStructs

/-- The presence bits of the children. -/
def StructDef.presenceBits (s : StructDef) : List Int :=
  (s.children.filterMap bitmapBit).map (·.2.2)

/-- A bit at the position that the bitmap uses for its extension. -/
def StructDef.OnExtension (s : StructDef) (bit : Int) : Prop :=
  ∃ ext : Nat, s.attrs.bitmapExt = some ext ∧ bit % 8 = ext

/-- The bits are different, within the bitmap and none of them is an extension bit. -/
structure StructDef.WellPlaced (s : StructDef) : Prop where
  distinct : s.presenceBits.Nodup
  within : ∀ bit ∈ s.presenceBits, 0 ≤ bit ∧ bit < s.attrs.bitmapBits
  free : ∀ bit ∈ s.presenceBits, ¬s.OnExtension bit

/-- No choice of the struct has an extension bit. -/
def StructDef.ChoicesFree (s : StructDef) : Prop :=
  ∀ c cases otherwise bit, .choice c cases otherwise ∈ s.children → c.bit = some bit →
    ¬s.OnExtension bit

theorem within_of_bitmapBitErrors {s : StructAttrs} {used : List Int}
    {bits : List (String × String × Int)} (h : bitmapBitErrors s used bits = []) :
    ∀ b ∈ bits, b.2.2 < s.bitmapBits
      ∧ (b.1 ≠ "choice" → ∀ ext : Nat, s.bitmapExt = some ext → b.2.2.tmod 8 ≠ ext) := by
  induction bits generalizing used with
  | nil =>
    intro b hb
    cases hb
  | cons b bits ih =>
    obtain ⟨kind, name, bit⟩ := b
    simp only [bitmapBitErrors, List.append_eq_nil_iff, errorIf_eq_nil, Bool.or_eq_false_iff,
      decide_eq_false_iff_not] at h
    obtain ⟨⟨⟨⟨-, hbound⟩, -⟩, hext⟩, hrest⟩ := h
    intro b hb
    rcases List.mem_cons.mp hb with rfl | hb
    · refine ⟨Int.not_le.mp hbound, ?_⟩
      intro hkind ext hsome heq
      rw [hsome] at hext
      simp [errorIf_eq_nil, hkind, heq] at hext
    · exact ih hrest b hb

theorem StructDef.mem_presenceBits {s : StructDef} {bit : Int} : bit ∈ s.presenceBits ↔
      ∃ child ∈ s.children, ∃ kind name, bitmapBit child = some (kind, name, bit) := by
  simp only [presenceBits, List.mem_map, List.mem_filterMap]
  constructor
  · rintro ⟨⟨kind, name, b⟩, ⟨child, hchild, hbit⟩, rfl⟩
    exact ⟨child, hchild, kind, name, hbit⟩
  · rintro ⟨child, hchild, kind, name, hbit⟩
    exact ⟨(kind, name, bit), ⟨child, hchild, hbit⟩, rfl⟩

theorem choice_of_bitmapBit {child : StructChild} {name : String} {bit : Int}
    (h : bitmapBit child = some ("choice", name, bit)) :
    ∃ c cases otherwise, child = .choice c cases otherwise ∧ c.bit = some bit := by
  cases child with
  | choice c cases otherwise =>
    obtain ⟨b, hb, heq⟩ := Option.map_eq_some_iff.mp h
    cases heq
    exact ⟨c, cases, otherwise, rfl, hb⟩
  | field f | struct s children | array a children =>
    obtain ⟨b, -, heq⟩ := Option.map_eq_some_iff.mp h
    simp at heq
  | fxBlock children => cases h
  | reserved bits => cases h
  | align boundary => cases h

theorem wellPlaced_iff_choicesFree {proto : Protocol} {s : StructDef} (h : Accepted proto)
    (hs : s ∈ proto.structs) (hbitmap : s.attrs.isBitmap = true) :
    s.WellPlaced ↔ s.ChoicesFree := by
  have herrors := h.structErrors hs
  simp only [validateStructDef, hbitmap, if_true, List.append_eq_nil_iff] at herrors
  obtain ⟨-, -, hbits⟩ := herrors
  obtain ⟨hpos, hnodup⟩ := bits_of_bitmapBitErrors hbits
  have hwithin := within_of_bitmapBitErrors hbits
  have hmem : ∀ {child : StructChild} {kind name : String} {bit : Int}, child ∈ s.children →
      bitmapBit child = some (kind, name, bit) →
      (kind, name, bit) ∈ s.children.filterMap bitmapBit :=
    fun hchild hbit => List.mem_filterMap.mpr ⟨_, hchild, hbit⟩
  constructor
  · intro hplaced c cases otherwise bit hchild hbit
    have hchoice : bitmapBit (.choice c cases otherwise) = some ("choice", c.name, bit) := by
      rw [bitmapBit, hbit]
      rfl
    exact hplaced.free bit (StructDef.mem_presenceBits.mpr ⟨_, hchild, _, _, hchoice⟩)
  intro hfree
  refine ⟨hnodup, ?_, ?_⟩
  · intro bit hbit
    obtain ⟨child, hchild, kind, name, hchildBit⟩ := StructDef.mem_presenceBits.mp hbit
    exact ⟨(hpos _ (hmem hchild hchildBit)).1, (hwithin _ (hmem hchild hchildBit)).1⟩
  rintro bit hbit ⟨ext, hext, hmod⟩
  obtain ⟨child, hchild, kind, name, hchildBit⟩ := StructDef.mem_presenceBits.mp hbit
  by_cases hkind : kind = "choice"
  · subst hkind
    obtain ⟨c, cases, otherwise, rfl, hchoice⟩ := choice_of_bitmapBit hchildBit
    exact hfree c cases otherwise bit hchild hchoice ⟨ext, hext, hmod⟩
  · have hnonneg : 0 ≤ bit := (hpos _ (hmem hchild hchildBit)).1
    have hne := (hwithin _ (hmem hchild hchildBit)).2 hkind ext hext
    exact hne ((Int.tmod_eq_emod_of_nonneg hnonneg).trans hmod)

/-- In an accepted protocol the presence bits of all bitmap structs are in order exactly if those of
the structs inside other definitions are, and no choice of a struct at the top has an extension
bit. -/
theorem wellPlaced_iff_inner {proto : Protocol} (h : Accepted proto) :
    (∀ s ∈ proto.structs ++ proto.innerStructs, s.attrs.isBitmap = true → s.WellPlaced) ↔
      (∀ s ∈ proto.innerStructs, s.attrs.isBitmap = true → s.WellPlaced)
      ∧ ∀ s ∈ proto.structs, s.attrs.isBitmap = true → s.ChoicesFree := by
  constructor
  · intro hall
    refine ⟨fun s hs hbitmap => hall s (List.mem_append_right _ hs) hbitmap, ?_⟩
    intro s hs hbitmap
    exact (wellPlaced_iff_choicesFree h hs hbitmap).mp (hall s (List.mem_append_left _ hs) hbitmap)
  rintro ⟨hinner, hfree⟩ s hs hbitmap
  rcases List.mem_append.mp hs with hs | hs
  · exact (wellPlaced_iff_choicesFree h hs hbitmap).mpr (hfree s hs hbitmap)
  · exact hinner s hs hbitmap

/-- A struct with two optional numbers, inside a message. -/
def optionsProtocol (first second : Int) : Protocol :=
  { name := "p", version := "1"
    messages := [{ name := "M", children := [.struct { name := "options", isBitmap := true }
      [.field { name := "a", bits := some 8, bit := some first },
        .field { name := "b", bits := some 8, bit := some second }]] }] }

theorem wellPlaced_iff_inner_options : Accepted (optionsProtocol 0 1)
      ∧ ∀ s ∈ (optionsProtocol 0 1).structs ++ (optionsProtocol 0 1).innerStructs,
        s.attrs.isBitmap = true → s.WellPlaced := by
  have haccepted : Accepted (optionsProtocol 0 1) := by decide +kernel
  have htop : (optionsProtocol 0 1).structs = [] := rfl
  refine ⟨haccepted, (wellPlaced_iff_inner haccepted).mpr ⟨?_, by simp [htop]⟩⟩
  intro s hs _
  have hs : s = ⟨{ name := "options", isBitmap := true },
      [.field { name := "a", bits := some 8, bit := some 0 },
        .field { name := "b", bits := some 8, bit := some 1 }]⟩ := by
    simpa [Protocol.innerStructs, Protocol.childLists, optionsProtocol, nestedStructs, childStructs]
      using hs
  subst hs
  refine ⟨by decide, by decide, ?_⟩
  rintro bit _ ⟨ext, hext, -⟩
  cases hext

/-- Two members of a struct in a message have one presence bit. -/
theorem inner_bits_collide : Accepted (optionsProtocol 3 3)
      ∧ ∃ s ∈ (optionsProtocol 3 3).structs ++ (optionsProtocol 3 3).innerStructs,
        s.attrs.isBitmap = true ∧ ¬s.WellPlaced := by
  refine ⟨by decide +kernel, ⟨{ name := "options", isBitmap := true },
    [.field { name := "a", bits := some 8, bit := some 3 },
      .field { name := "b", bits := some 8, bit := some 3 }]⟩, ?_, rfl, ?_⟩
  · simp [Protocol.innerStructs, Protocol.childLists, optionsProtocol, nestedStructs, childStructs]
  intro hplaced
  exact absurd hplaced.distinct (by decide)

end Conduit.Bgen
