import Conduit.Bgen.Validator

/-!
# The type resolver

`analyzer/type_resolver.cpp`. The resolver reports names that are defined twice and references to
names that are not defined, and hands the byte order of a type down to the fields that refer to it.
The tables it fills are those of `TypeIndex.ofProtocol`. The display format, which is handed down as
well, is not in the model. The tables are unordered, so the order of the messages about names in two
of them is not that of the source.
-/

namespace Conduit.Bgen

open Validator (errorIf)

namespace Resolver

/-- The names that were in the table already. -/
def duplicateNames (seen : List String) : List String → List String
  | [] => []
  | name :: names =>
    if seen.contains name then name :: duplicateNames seen names
    else duplicateNames (name :: seen) names

/-- `type_resolver.cpp:17-37` and `50-56`: one table. -/
def duplicateErrors (kind : String) (names : List String) : List String :=
  (duplicateNames [] names).map fun name => s!"duplicate {kind} name: {name}"

/-- `type_resolver.cpp:224-231`. -/
def referenceErrors (index : TypeIndex) (ref : String) : List String :=
  errorIf (ref != "bytes" && ref != "string" && (index.find ref).isNone)
    s!"unresolved type reference: {ref}"

/-- `type_resolver.cpp:38-48`: the constants, each with the reference to its type. -/
def constantErrors (index : TypeIndex) (seen : List String) : List ConstDef → List String
  | [] => []
  | c :: cs =>
    errorIf (seen.contains c.name) s!"duplicate constant name: {c.name}"
      ++ (if c.typeRef != "" then referenceErrors index c.typeRef else [])
      ++ constantErrors index (c.name :: seen) cs

/-- `type_resolver.cpp:58-71`: names of two kinds. -/
def collisionErrors (index : TypeIndex) : List String :=
  (index.types.flatMap fun t =>
    errorIf (index.struct? t.name).isSome s!"name '{t.name}' defined as both type and struct"
      ++ errorIf (index.message? t.name).isSome s!"name '{t.name}' defined as both type and message")
    ++ index.structs.flatMap fun s =>
      errorIf (index.message? s.attrs.name).isSome
        s!"name '{s.attrs.name}' defined as both struct and message"

mutual

/-- `type_resolver.cpp:104-141`: the references of a child in order. -/
def childReferences : StructChild → List String
  | .field f => [f.typeRef]
  | .struct _ children => references children
  | .array a children => a.typeRef :: references children
  | .choice _ cases otherwise => caseReferences cases ++ otherwiseReferences otherwise
  | .fxBlock children => references children
  | .reserved _ => []
  | .align _ => []

def references : List StructChild → List String
  | [] => []
  | c :: cs => childReferences c ++ references cs

def caseReferences : List Case → List String
  | [] => []
  | .mk attrs children :: cases => attrs.typeRef :: (references children ++ caseReferences cases)

def otherwiseReferences : Option Case → List String
  | none => []
  | some (.mk attrs children) => attrs.typeRef :: references children

end

def childrenErrors (index : TypeIndex) (children : List StructChild) : List String :=
  ((references children).filter (· != "")).flatMap (referenceErrors index)

/-! ## Inheritance -/

mutual

/-- `type_resolver.cpp:143-165`: the fields of a child in order. -/
def childFields : StructChild → List Field
  | .field f => [f]
  | .struct _ children => allFields children
  | .array _ children => allFields children
  | .choice _ cases otherwise => caseFields cases ++ otherwiseFields otherwise
  | .fxBlock children => allFields children
  | .reserved _ => []
  | .align _ => []

def allFields : List StructChild → List Field
  | [] => []
  | c :: cs => childFields c ++ allFields cs

def caseFields : List Case → List Field
  | [] => []
  | .mk _ children :: cases => allFields children ++ caseFields cases

def otherwiseFields : Option Case → List Field
  | none => []
  | some (.mk _ children) => allFields children

end

mutual

def mapChild (g : Field → Field) : StructChild → StructChild
  | .field f => .field (g f)
  | .struct s children => .struct s (mapChildren g children)
  | .array a children => .array a (mapChildren g children)
  | .choice c cases otherwise => .choice c (mapCases g cases) (mapOtherwise g otherwise)
  | .fxBlock children => .fxBlock (mapChildren g children)
  | .reserved bits => .reserved bits
  | .align boundary => .align boundary

def mapChildren (g : Field → Field) : List StructChild → List StructChild
  | [] => []
  | c :: cs => mapChild g c :: mapChildren g cs

def mapCases (g : Field → Field) : List Case → List Case
  | [] => []
  | .mk attrs children :: cases => .mk attrs (mapChildren g children) :: mapCases g cases

def mapOtherwise (g : Field → Field) : Option Case → Option Case
  | none => none
  | some (.mk attrs children) => some (.mk attrs (mapChildren g children))

end

variable (index : TypeIndex) (f : Field)

/-- The type whose attributes a field inherits. -/
def inheritedType : Option TypeDef := if f.typeRef == "" then none else index.type? f.typeRef

/-- `type_resolver.cpp:174-177`. -/
def inheritEndian : Field :=
  match inheritedType index f with
  | none => f
  | some t => if !f.endianExplicit && t.endianExplicit then { f with endian := t.endian } else f

/-- One bound of a field beside the same bound of its type. -/
def boundErrors (relaxes : Int → Int → Bool) (message : String → String → String)
    (ofType ofField : Option String) : List String :=
  match ofType, ofField with
  | some t, some f =>
    match parseLiteral t, parseLiteral f with
    | some tv, some fv => errorIf (relaxes fv tv) (message f t)
    | _, _ => []
  | _, _ => []

/-- `type_resolver.cpp:191-221`: the constraint of a field may only narrow that of its type. -/
def narrowingErrors (t : TypeDef) (ofType ofField : Constraint) : List String :=
  (match ofType.equals, ofField.equals with
    | some a, some b =>
      errorIf (a != b) s!"field '{f.name}' constraint conflicts with type '{t.name}' constraint"
    | _, _ => [])
    ++ boundErrors (fun fv tv => fv < tv)
      (fun fb tb =>
        s!"field '{f.name}' constraint min ({fb}) is less than type '{t.name}' min ({tb})")
      ofType.min ofField.min
    ++ boundErrors (fun fv tv => tv < fv)
      (fun fb tb => s!"field '{f.name}' constraint max ({fb}) exceeds type '{t.name}' max ({tb})")
      ofType.max ofField.max

/-- `type_resolver.cpp:167-222`. -/
def inheritanceErrors : List String :=
  match inheritedType index f with
  | none => []
  | some t =>
    errorIf ((f.scale.isSome || f.offset.isSome) && (t.scale.isSome || t.offset.isSome))
        s!"field '{f.name}' and type '{t.name}' both define scale/offset"
      ++ match t.constraint, f.constraint with
        | some ofType, some ofField => narrowingErrors f t ofType ofField
        | _, _ => []

end Resolver

open Resolver

/-- The lists of children that the resolver looks through, in order. -/
def Protocol.childLists (proto : Protocol) : List (List StructChild) :=
  proto.messages.map (·.children) ++ proto.structs.map (·.children)
    ++ proto.frames.flatMap fun f => [f.headerFields, f.footerFields]

/-- The messages of `resolve_types` (`type_resolver.cpp:15-101`). -/
def resolveErrors (proto : Protocol) : List String :=
  let index := TypeIndex.ofProtocol proto
  duplicateErrors "type" (proto.types.map (·.name))
    ++ duplicateErrors "struct" (proto.structs.map (·.attrs.name))
    ++ duplicateErrors "message" (proto.messages.map (·.name))
    ++ constantErrors index [] proto.constants
    ++ duplicateErrors "frame" (proto.frames.map (·.name))
    ++ collisionErrors index
    ++ proto.childLists.flatMap (childrenErrors index)
    ++ proto.childLists.flatMap fun children =>
      (allFields children).flatMap (inheritanceErrors index)

/-- The protocol with the inherited attributes. -/
def Protocol.inherit (proto : Protocol) : Protocol :=
  let g := inheritEndian (TypeIndex.ofProtocol proto)
  { proto with
    structs := proto.structs.map fun s => { s with children := mapChildren g s.children }
    messages := proto.messages.map fun m => { m with children := mapChildren g m.children }
    frames := proto.frames.map fun f =>
      { f with
        headerFields := mapChildren g f.headerFields
        footerFields := mapChildren g f.footerFields } }

/-- `resolve_types`. -/
def resolveTypes (proto : Protocol) : Except (List String) Protocol :=
  if resolveErrors proto = [] then .ok proto.inherit else .error (resolveErrors proto)

/-- A protocol that `resolve_types` and `validate` report nothing about. -/
structure Checked (proto : Protocol) : Prop where
  resolves : resolveTypes proto = .ok proto.inherit
  accepted : Validator.Accepted proto.inherit

theorem checked_iff {proto : Protocol} :
    Checked proto ↔ resolveErrors proto = [] ∧ Validator.Accepted proto.inherit := by
  constructor
  · rintro ⟨hresolves, haccepted⟩
    refine ⟨?_, haccepted⟩
    by_contra herrors
    rw [resolveTypes, if_neg herrors] at hresolves
    cases hresolves
  · rintro ⟨herrors, haccepted⟩
    exact ⟨if_pos herrors, haccepted⟩

instance (proto : Protocol) : Decidable (Checked proto) := decidable_of_iff _ checked_iff.symm

end Conduit.Bgen
