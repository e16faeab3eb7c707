import Conduit.Bgen.Frame

/-!
# The generated bitmap struct

`emit_bitmap_struct` (`codegen/cpp_structs.cpp:1640-2132`): a struct whose members are optional and
whose encoding starts with one presence bit for each of them, the FSPEC. With an extension bit the
FSPEC ends after the last octet in use, and every octet before it has that bit set.

A number is written and read by the emitted accesses of its type, an array of bytes as it is. The
other members (structs, choices, enumerations, texts, scaled numbers) are coded elsewhere, and that
code is a parameter. The accessors and `to_string` are left out. The type of a member holds every
number that its read returns, so the cast to it is left out as well.
-/

namespace Conduit.Bgen

open Io

/-- How the value of a member is coded. -/
inductive MemberAccess where
  | number (write : WriteStmt) (read : ReadExpr)
  | bytes (length : Option Nat)
  | other
deriving DecidableEq

/-- `cpp_structs_emitter.hpp`: a child with a presence bit. -/
structure BitmapField where
  name : String
  bit : Int
  access : MemberAccess
deriving DecidableEq

namespace BitmapField

/-- `bit / BITS_PER_BYTE`, which rounds towards zero. -/
def byteIdx (f : BitmapField) : Int := f.bit.tdiv 8

/-- `BITS_PER_BYTE - 1 - (bit % BITS_PER_BYTE)`. -/
def bitInByte (f : BitmapField) : Nat := (7 - f.bit.tmod 8).toNat

/-- The order of `std::sort`: by octet, then by bit. -/
def wireOrder (a b : BitmapField) : Prop :=
  a.byteIdx < b.byteIdx ∨ a.byteIdx = b.byteIdx ∧ a.bit ≤ b.bit

instance : DecidableRel wireOrder := fun a b => by
  unfold wireOrder
  infer_instance

end BitmapField

/-! ## Generation -/

/-- The access that is emitted for a field (`cpp_structs.cpp:1923-2013`, `2062-2128`). The length of
an array of bytes is an `int`. -/
def memberAccess (index : TypeIndex) (f : Field) : Option MemberAccess :=
  let fti := resolveFieldType f index
  if fti.isEnum || (!f.enumValues.isEmpty && f.typeRef == "") then some .other
  else if fti.isString then some .other
  else if fti.isBytes then
    match f.length.or f.bytesAttr with
    | some n => if n < 2 ^ 31 then some (.bytes (some n)) else none
    | none => some (.bytes none)
  else if fti.isStruct || fti.hasFieldScale then some .other
  else do
    let bfti : FieldTypeInfo :=
      { bits := fti.bits, isSigned := fti.isSigned, isFloat := fti.isFloat
        wireEncoding := fti.wireEncoding }
    let read ← emitReadExpr bfti f.endian
    return .number (emitWriteStmt bfti f.endian) read

/-- `cpp_structs.cpp:1644-1702`. A child without a presence bit has no member, an array neither. -/
def bitmapField (index : TypeIndex) : StructChild → Option (Option BitmapField)
  | .field f =>
    match f.bit with
    | some bit => (memberAccess index f).map fun access => some { name := f.name, bit, access }
    | none => some none
  | .struct s _ => some (s.bit.map fun bit => { name := s.name, bit, access := .other })
  | .choice c _ _ => some (c.bit.map fun bit => { name := c.name, bit, access := .other })
  | _ => some none

structure BitmapCode where
  fields : List BitmapField
  ext : Option Nat
  endian : Endian
deriving DecidableEq

namespace BitmapCode

/-- `emit_bitmap_struct`: the class has one member for each field. -/
def generate (index : TypeIndex) (s : StructAttrs) (children : List StructChild) :
    Option BitmapCode := do
  let fields := (← children.mapM (bitmapField index)).filterMap id
  if (fields.map fun f => toSnakeCase f.name).Nodup then
    return { fields, ext := s.bitmapExt, endian := s.bitmapEndian }
  else none

variable (code : BitmapCode)

def maxBit : Int := code.fields.foldl (fun m f => max m f.bit) 0

/-- The size of the presence array. -/
def numOctets : Nat := (code.maxBit.tdiv 8).toNat + 1

/-- The fields in the order in which they are encoded and decoded. -/
def sorted : List BitmapField := code.fields.insertionSort BitmapField.wireOrder

end BitmapCode

/-- `1 << (BITS_PER_BYTE - 1 - ext)`: a shift by a negative number is undefined. -/
def extMask (ext : Nat) : Option Nat := if ext < 8 then some (2 ^ (7 - ext)) else none

/-! ## Members -/

/-- The value of a member that is present. -/
inductive MemberValue (O : Type) where
  | number (value : Int)
  | bytes (bytes : List UInt8)
  | other (value : O)
deriving DecidableEq

/-- The members of an object by name. -/
def Members (O : Type) : Type := String → Option (MemberValue O)

/-- The members of a new object: nothing is present. -/
def Members.empty {O : Type} : Members O := fun _ => none

/-- `member = value`. -/
def Members.assign {O : Type} (members : Members O) (name : String) (value : MemberValue O) :
    Members O :=
  fun other => if other = name then some value else members other

/-- The code of the members that are coded elsewhere. A choice and a struct may look at members
that are already decoded. -/
structure OtherCode (O : Type) where
  write : String → O → BitWriter → Except Fault BitWriter
  read : String → Members O → ReadM O

namespace BitmapField

variable {O : Type} (other : OtherCode O)

/-- Writing the value of a member. A value of another type than the member's does not exist in the
source. -/
def write (f : BitmapField) (value : MemberValue O) (w : BitWriter) : Except Fault BitWriter :=
  match f.access, value with
  | .number stmt _, .number v => .ok (stmt.exec v w)
  | .bytes (some n), .bytes bs =>
    if bs.length < n then .error .outOfBounds else .ok (w.writeBytes (bs.take n))
  | .bytes none, .bytes bs => .ok (w.writeBytes bs)
  | .other, .other v => other.write f.name v w
  | _, _ => .error .outOfBounds

def read (f : BitmapField) (members : Members O) : ReadM (MemberValue O) :=
  match f.access with
  | .number _ expr => do return .number (← expr.exec)
  | .bytes (some n) => do return .bytes (← BitReader.readBytes n)
  | .bytes none => fun r =>
    ((do return .bytes (← BitReader.readBytes r.remainingBytes)) : ReadM (MemberValue O)) r
  | .other => do return .other (← other.read f.name members)

end BitmapField

/-! ## `encode` -/

namespace BitmapCode

variable (code : BitmapCode) {O : Type} (other : OtherCode O) (members : Members O)

/-- The last octet with a member that is present. -/
def lastOctet : Nat :=
  code.fields.foldl (fun last f =>
    if (members f.name).isSome ∧ (last : Int) < f.byteIdx then f.byteIdx.toNat else last) 0

/-- `fspec[byte_idx] |= (1 << bit_in_byte)` for one member. -/
def markPresent (fspec : List UInt8) (f : BitmapField) : Except Fault (List UInt8) :=
  if (members f.name).isSome then
    if f.byteIdx < 0 ∨ fspec.length ≤ f.byteIdx.toNat then .error .outOfBounds
    else .ok (fspec.modify f.byteIdx.toNat (· ||| UInt8.ofNat (2 ^ f.bitInByte)))
  else .ok fspec

/-- The presence array before the extension bits. -/
def presenceArray : Except Fault (List UInt8) :=
  code.fields.foldlM (markPresent members) (List.replicate code.numOctets 0)

/-- The loop that sets the extension bit in the first `last` octets. -/
def markExtended (fspec : List UInt8) (last ext : Nat) : Except Fault (List UInt8) :=
  if min last fspec.length = 0 then .ok fspec
  else
    match extMask ext with
    | some mask => .ok (fspec.mapIdx fun i b => if i < last then b ||| UInt8.ofNat mask else b)
    | none => .error .outOfBounds

/-- `cpp_structs.cpp:1811-1853`: the octets that are written. -/
def fspecOctets : Except Fault (List UInt8) := do
  let fspec ← code.presenceArray members
  match code.ext with
  | some ext =>
    let last := code.lastOctet members
    let fspec ← markExtended fspec last ext
    return code.endian.order (fspec.take (min (last + 1) fspec.length))
  | none => return code.endian.order fspec

/-- The step of `emit_bitmap_encode_fields` for one field. -/
def encodeField (w : BitWriter) (f : BitmapField) : Except Fault BitWriter :=
  if f.byteIdx < 0 ∨ code.maxBit.tdiv 8 < f.byteIdx then .ok w
  else
    match members f.name with
    | some value => f.write other value w
    | none => .ok w

/-- `cpp_structs.cpp:2042-2132`: the members that are present, in wire order. -/
def encodeFields (w : BitWriter) : Except Fault BitWriter :=
  code.sorted.foldlM (code.encodeField other members) w

/-- `cpp_structs.cpp:1806-1858`. -/
def encode (w : BitWriter) : Except Fault BitWriter := do
  let octets ← code.fspecOctets members
  let w ← code.encodeFields other members (w.writeBytes octets)
  match w.error with
  | some e => .error (.error e)
  | none => return w

/-- The bytes of an object that is encoded on its own. -/
def encodeBytes : Except Fault (List UInt8) := do
  let w ← code.encode other members {}
  match w.finish.1 with
  | .ok bytes => return bytes
  | .error e => .error (.error e)

end BitmapCode

/-! ## `decode` -/

/-- `cpp_structs.cpp:1872-1880`: octets are read until one does not have the extension bit, and
those that do not fit into the array are dropped. Every turn takes a byte of the input, so as many
turns as it has bytes, and one for the failing read, are enough. -/
def readExtended (numOctets : Nat) (mask : Option Nat) :
    Nat → List UInt8 → Nat → ReadM (List UInt8 × Nat)
  | 0, _, _ => undefinedRead
  | turns + 1, fspec, len => do
    let byte ← BitReader.readU8
    let fspec := if len < numOctets then fspec.set len (UInt8.ofNat byte) else fspec
    match mask with
    | none => undefinedRead
    | some mask =>
      if byte &&& mask = 0 then return (fspec, len + 1)
      else readExtended numOctets mask turns fspec (len + 1)

/-- `cpp_structs.cpp:1882-1890`. -/
def readOctets : Nat → ReadM (List UInt8)
  | 0 => return []
  | n + 1 => do
    let byte ← BitReader.readU8
    let octets ← readOctets n
    return UInt8.ofNat byte :: octets

/-- `std::reverse(fspec.begin(), fspec.begin() + len)`, inside the array only. -/
def reverseFront (fspec : List UInt8) (len : Nat) : Option (List UInt8) :=
  if len ≤ fspec.length then some ((fspec.take len).reverse ++ fspec.drop len) else none

namespace BitmapField

/-- `fspec_len > byte_idx`: a negative index is converted to a large `size_t`. -/
def tested (f : BitmapField) (len : Nat) : Prop := 0 ≤ f.byteIdx ∧ f.byteIdx.toNat < len

instance (f : BitmapField) (len : Nat) : Decidable (f.tested len) := by
  unfold tested
  infer_instance

/-- `fspec_len > byte_idx && (fspec[byte_idx] & (1 << bit_in_byte))`. Nothing where the index is
outside the array. -/
def presence (f : BitmapField) (fspec : List UInt8) (len : Nat) : Option Bool :=
  if f.tested len then
    fspec[f.byteIdx.toNat]?.map fun octet => octet.toNat &&& 2 ^ f.bitInByte != 0
  else some false

end BitmapField

/-- `cpp_structs.cpp:1911-2022`: the members, by the presence that is found for each. -/
def readMembers {O : Type} (other : OtherCode O) (presence : BitmapField → Option Bool) :
    List BitmapField → Members O → ReadM (Members O)
  | [], members => return members
  | f :: fs, members =>
    match presence f with
    | none => undefinedRead
    | some false => readMembers other presence fs members
    | some true => do
      let value ← f.read other members
      readMembers other presence fs (members.assign f.name value)

namespace BitmapCode

variable (code : BitmapCode) {O : Type} (other : OtherCode O)

/-- `cpp_structs.cpp:1866-1891`: the array as it is read, and the number of octets. -/
def readArray : ReadM (List UInt8 × Nat) :=
  match code.ext with
  | some ext => fun r =>
    readExtended code.numOctets (extMask ext) (r.data.length + 1)
      (List.replicate code.numOctets 0) 0 r
  | none => do return (← readOctets code.numOctets, code.numOctets)

/-- `cpp_structs.cpp:1866-1895`: the presence array and the number of octets that were read. -/
def readFspec : ReadM (List UInt8 × Nat) := do
  let (fspec, len) ← code.readArray
  match code.endian with
  | .big => return (fspec, len)
  | .little =>
    match reverseFront fspec len with
    | some fspec => return (fspec, len)
    | none => undefinedRead

/-- `cpp_structs.cpp:1860-2028`. -/
def decode : ReadM (Members O) := do
  let (fspec, len) ← code.readFspec
  readMembers other (fun f => f.presence fspec len) code.sorted .empty

end BitmapCode

end Conduit.Bgen
