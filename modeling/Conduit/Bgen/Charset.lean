import Conduit.Bgen.StructLayout

/-!
# Character sets

The two tables of `string/encoding.hpp`, and what the conversions between ASCII and the character
set of a field do to a text. A text of ASCII characters survives the conversion in both directions;
the tables are not inverse on all bytes.
-/

namespace Conduit.Bgen

/-- `string/encoding.hpp:17-34`. -/
def ebcdicToAsciiTable : List UInt8 :=
  [0x00, 0x01, 0x02, 0x03, 0x1A, 0x09, 0x1A, 0x7F, 0x1A, 0x1A, 0x1A, 0x0B, 0x0C, 0x0D, 0x0E, 0x0F,
   0x10, 0x11, 0x12, 0x13, 0x1A, 0x0A, 0x08, 0x1A, 0x18, 0x19, 0x1A, 0x1A, 0x1C, 0x1D, 0x1E, 0x1F,
   0x1A, 0x1A, 0x1A, 0x1A, 0x1A, 0x0A, 0x17, 0x1B, 0x1A, 0x1A, 0x1A, 0x1A, 0x1A, 0x05, 0x06, 0x07,
   0x1A, 0x1A, 0x16, 0x1A, 0x1A, 0x1A, 0x1A, 0x04, 0x1A, 0x1A, 0x1A, 0x1A, 0x14, 0x15, 0x1A, 0x1A,
   0x20, 0xA0, 0xE2, 0xE4, 0xE0, 0xE1, 0xE3, 0xE5, 0xE7, 0xF1, 0xA2, 0x2E, 0x3C, 0x28, 0x2B, 0x7C,
   0x26, 0xE9, 0xEA, 0xEB, 0xE8, 0xED, 0xEE, 0xEF, 0xEC, 0xDF, 0x21, 0x24, 0x2A, 0x29, 0x3B, 0xAC,
   0x2D, 0x2F, 0xC2, 0xC4, 0xC0, 0xC1, 0xC3, 0xC5, 0xC7, 0xD1, 0xA6, 0x2C, 0x25, 0x5F, 0x3E, 0x3F,
   0xF8, 0xC9, 0xCA, 0xCB, 0xC8, 0xCD, 0xCE, 0xCF, 0xCC, 0x60, 0x3A, 0x23, 0x40, 0x27, 0x3D, 0x22,
   0xD8, 0x61, 0x62, 0x63, 0x64, 0x65, 0x66, 0x67, 0x68, 0x69, 0xAB, 0xBB, 0xF0, 0xFD, 0xFE, 0xB1,
   0xB0, 0x6A, 0x6B, 0x6C, 0x6D, 0x6E, 0x6F, 0x70, 0x71, 0x72, 0xAA, 0xBA, 0xE6, 0xB8, 0xC6, 0xA4,
   0xB5, 0x7E, 0x73, 0x74, 0x75, 0x76, 0x77, 0x78, 0x79, 0x7A, 0xA1, 0xBF, 0xD0, 0x5B, 0xDE, 0xAE,
   0x5E, 0xA3, 0xA5, 0xB7, 0xA9, 0xA7, 0xB6, 0xBC, 0xBD, 0xBE, 0xDD, 0xA8, 0xAF, 0x5D, 0xB4, 0xD7,
   0x7B, 0x41, 0x42, 0x43, 0x44, 0x45, 0x46, 0x47, 0x48, 0x49, 0xAD, 0xF4, 0xF6, 0xF2, 0xF3, 0xF5,
   0x7D, 0x4A, 0x4B, 0x4C, 0x4D, 0x4E, 0x4F, 0x50, 0x51, 0x52, 0xB9, 0xFB, 0xFC, 0xF9, 0xFA, 0xFF,
   0x5C, 0xF7, 0x53, 0x54, 0x55, 0x56, 0x57, 0x58, 0x59, 0x5A, 0xB2, 0xD4, 0xD6, 0xD2, 0xD3, 0xD5,
   0x30, 0x31, 0x32, 0x33, 0x34, 0x35, 0x36, 0x37, 0x38, 0x39, 0xB3, 0xDB, 0xDC, 0xD9, 0xDA, 0x9F]

/-- `string/encoding.hpp:37-54`. -/
def asciiToEbcdicTable : List UInt8 :=
  [0x00, 0x01, 0x02, 0x03, 0x37, 0x2D, 0x2E, 0x2F, 0x16, 0x05, 0x25, 0x0B, 0x0C, 0x0D, 0x0E, 0x0F,
   0x10, 0x11, 0x12, 0x13, 0x3C, 0x3D, 0x32, 0x26, 0x18, 0x19, 0x3F, 0x27, 0x1C, 0x1D, 0x1E, 0x1F,
   0x40, 0x5A, 0x7F, 0x7B, 0x5B, 0x6C, 0x50, 0x7D, 0x4D, 0x5D, 0x5C, 0x4E, 0x6B, 0x60, 0x4B, 0x61,
   0xF0, 0xF1, 0xF2, 0xF3, 0xF4, 0xF5, 0xF6, 0xF7, 0xF8, 0xF9, 0x7A, 0x5E, 0x4C, 0x7E, 0x6E, 0x6F,
   0x7C, 0xC1, 0xC2, 0xC3, 0xC4, 0xC5, 0xC6, 0xC7, 0xC8, 0xC9, 0xD1, 0xD2, 0xD3, 0xD4, 0xD5, 0xD6,
   0xD7, 0xD8, 0xD9, 0xE2, 0xE3, 0xE4, 0xE5, 0xE6, 0xE7, 0xE8, 0xE9, 0xAD, 0xE0, 0xBD, 0xB0, 0x6D,
   0x79, 0x81, 0x82, 0x83, 0x84, 0x85, 0x86, 0x87, 0x88, 0x89, 0x91, 0x92, 0x93, 0x94, 0x95, 0x96,
   0x97, 0x98, 0x99, 0xA2, 0xA3, 0xA4, 0xA5, 0xA6, 0xA7, 0xA8, 0xA9, 0xC0, 0x4F, 0xD0, 0xA1, 0x07,
   0x20, 0x21, 0x22, 0x23, 0x24, 0x15, 0x06, 0x17, 0x28, 0x29, 0x2A, 0x2B, 0x2C, 0x09, 0x0A, 0x1B,
   0x30, 0x31, 0x1A, 0x33, 0x34, 0x35, 0x36, 0x08, 0x38, 0x39, 0x3A, 0x3B, 0x04, 0x14, 0x3E, 0xFF,
   0x41, 0xAA, 0x4A, 0xB1, 0x9F, 0xB2, 0x6A, 0xB5, 0xBB, 0xB4, 0x9A, 0x8A, 0xB0, 0xCA, 0xAF, 0xBC,
   0x90, 0x8F, 0xEA, 0xFA, 0xBE, 0xA0, 0xB6, 0xB3, 0x9D, 0xDA, 0x9B, 0x8B, 0xB7, 0xB8, 0xB9, 0xAB,
   0x64, 0x65, 0x62, 0x66, 0x63, 0x67, 0x9E, 0x68, 0x74, 0x71, 0x72, 0x73, 0x78, 0x75, 0x76, 0x77,
   0xAC, 0x69, 0xED, 0xEE, 0xEB, 0xEF, 0xEC, 0xBF, 0x80, 0xFD, 0xFE, 0xFB, 0xFC, 0xBA, 0xAE, 0x59,
   0x44, 0x45, 0x42, 0x46, 0x43, 0x47, 0x9C, 0x48, 0x54, 0x51, 0x52, 0x53, 0x58, 0x55, 0x56, 0x57,
   0x8C, 0x49, 0xCD, 0xCE, 0xCB, 0xCF, 0xCC, 0xE1, 0x70, 0xDD, 0xDE, 0xDB, 0xDC, 0x8D, 0x8E, 0xDF]

/-- A library with these tables. -/
structure Library.HasCodePage (lib : Library) : Prop where
  ebcdicToAscii : ∀ b, lib.ebcdicToAscii b = ebcdicToAsciiTable.getD b.toNat 0
  asciiToEbcdic : ∀ b, lib.asciiToEbcdic b = asciiToEbcdicTable.getD b.toNat 0

/-- The tables, with operations on floating-point numbers that are not used. -/
def Library.codePage037 : Library :=
  { (default : Library) with
    ebcdicToAscii := fun b => ebcdicToAsciiTable.getD b.toNat 0
    asciiToEbcdic := fun b => asciiToEbcdicTable.getD b.toNat 0 }

theorem Library.hasCodePage_codePage037 : Library.codePage037.HasCodePage :=
  ⟨fun _ => rfl, fun _ => rfl⟩

/-! ## Conversions -/

namespace Field

variable (lib : Library) (f : Field)

/-- One character that was read. -/
def charFromWire : UInt8 → UInt8 :=
  match f.encoding with
  | some .ia5 => fun b => b &&& 0x7F
  | some .ebcdic => lib.ebcdicToAscii
  | _ => id

/-- One character that is written. -/
def charToWire : UInt8 → UInt8 :=
  match f.encoding with
  | some .ia5 => fun b => b &&& 0x7F
  | some .ebcdic => lib.asciiToEbcdic
  | _ => id

/-- The padding that trimming goes by (`cpp_structs_helpers.cpp:229-238`). -/
def effectivePadding (index : TypeIndex) : StringPadding :=
  match f.padding with
  | some p => p
  | none => if f.typeRef == "" then .null else ((index.type? f.typeRef).map (·.padding)).getD .null

end Field

variable (t : StringTrim)

theorem wireText_eq_map (lib : Library) (f : Field) (s : List UInt8) :
    wireText lib f s = s.map (f.charToWire lib) := by
  unfold wireText Field.charToWire
  rcases f.encoding with _ | e
  · simp
  · cases e <;> simp [StringEncoding.needsConversion, Library.fromAscii]

theorem trimMember_eq (index : TypeIndex) (f : Field) (s : List UInt8) :
    trimMember index f s = trimText (f.trim.getD .none) (f.effectivePadding index) s := by
  unfold trimMember Field.effectivePadding
  rcases f.trim with _ | t <;> rfl

theorem memberText_eq (lib : Library) (index : TypeIndex) (f : Field) (s : List UInt8) :
    memberText lib index f s = trimMember index f (s.map (f.charFromWire lib)) := by
  unfold memberText Field.charFromWire
  rcases f.encoding with _ | e
  · simp
  · cases e <;> simp [StringEncoding.needsConversion, Library.toAscii]

/-! ## Trimming -/

theorem trimText_sublist (p : StringPadding) (s : List UInt8) : (trimText t p s).Sublist s := by
  cases t with
  | left => exact List.dropWhile_sublist _
  | right => exact (List.rdropWhile_prefix _ _).sublist
  | both => exact (List.rdropWhile_prefix _ _).sublist.trans (List.dropWhile_sublist _)
  | none => exact List.Sublist.refl s

theorem length_memberText_le (lib : Library) (index : TypeIndex) (f : Field) (s : List UInt8) :
    (memberText lib index f s).length ≤ s.length := by
  rw [memberText_eq, trimMember_eq]
  exact (trimText_sublist _ _ _).length_le.trans_eq (List.length_map _)

theorem trimText_concat {p : StringPadding} (s : List UInt8) {c : UInt8} (hc : c ≠ trimChar p) :
    ∃ s', trimText t p (s ++ [c]) = s' ++ [c] := by
  have hkeep : ¬(c == trimChar p) = true := by simpa using hc
  have hleft : ∃ s', (s ++ [c]).dropWhile (· == trimChar p) = s' ++ [c] := by
    rw [List.dropWhile_append]
    split
    · exact ⟨[], by simp [hkeep]⟩
    · exact ⟨_, rfl⟩
  cases t with
  | left => exact hleft
  | right => exact ⟨s, List.rdropWhile_concat_neg _ _ _ hkeep⟩
  | both =>
    obtain ⟨s', hs'⟩ := hleft
    refine ⟨s', ?_⟩
    rw [trimText, hs']
    exact List.rdropWhile_concat_neg _ _ _ hkeep
  | none => exact ⟨s, rfl⟩

theorem trimText_concat_ne {p : StringPadding} {s s' : List UInt8} {b c : UInt8}
    (hc : c ≠ trimChar p) (hne : c ≠ b) : trimText t p (s ++ [c]) ≠ s' ++ [b] := by
  obtain ⟨s₁, hs₁⟩ := trimText_concat t s hc
  rw [hs₁]
  intro h
  exact hne (List.singleton_injective (List.append_inj_right' h rfl))

theorem memberText_eq_self_iff {lib : Library} {index : TypeIndex} {f : Field} {s : List UInt8}
    (htrim : trimMember index f s = s) (s' : List UInt8) (hlen : s'.length = s.length) :
    memberText lib index f s' = s ↔ s'.map (f.charFromWire lib) = s := by
  rw [memberText_eq]
  constructor
  · intro h
    have hsub := trimText_sublist (f.trim.getD .none) (f.effectivePadding index)
      (s'.map (f.charFromWire lib))
    rw [← trimMember_eq, h] at hsub
    exact (hsub.eq_of_length (by simp [hlen])).symm
  · intro h
    rw [h, htrim]

end Conduit.Bgen
