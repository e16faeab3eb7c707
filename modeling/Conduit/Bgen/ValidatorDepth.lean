import Conduit.Bgen.Containment

/-!
# How deep the validator recurses

`validate` is a recursion over the tree of the definition, apart from four walks that follow type
references: the test for a fixed size (`child_fixed_size`), the names that inlining brings in
(`check_inline_duplicates`), the configuration keys of the messages (`scan_msg_configs`) and the
search for cycles (`detect_cycle_dfs`). The definitions of the validator follow references to a
depth; here the walks are procedures that make recursive calls, and give nothing where the depth of
the calls is used up.

The second and the fourth walk remember where they are and come back from every definition. The
other two do not, and run before the search for cycles has reported one.
-/

namespace Conduit.Bgen.Validator

open Data TypeIndex Proc List
open Relation (ReflTransGen TransGen)

variable {index : TypeIndex} {name : String}

section

variable {s : StructDef} (h : index.find name = some (.struct s))

include h

theorem struct?_of_find : index.struct? name = some s := by
  unfold find at h
  split at h
  · cases h
  split at h
  · next hstruct =>
    cases h
    exact hstruct
  · cases hm : index.message? name with
    | none => simp [hm] at h
    | some m => simp [hm] at h

theorem isStruct_of_find_struct : isStructOrMessageType index name := by
  simp [isStructOrMessageType, struct?_of_find h]

end

theorem isStruct_of_find_message {m : MessageDef} (h : index.find name = some (.message m)) :
    isStructOrMessageType index name := by
  unfold find at h
  split at h
  · cases h
  split at h
  · cases h
  cases hm : index.message? name with
  | none => simp [hm] at h
  | some m => simp [isStructOrMessageType, hm]

/-! ## Elements of a fixed size -/

/-- The size of a type is fixed. -/
def typeFixedSize (t : TypeDef) : Bool := if t.base == .string then t.length.isSome else t.bits > 0

mutual

/-- `validator.cpp:1438-1485`. -/
def childFixed (index : TypeIndex) : StructChild → Proc String Bool Bool
  | .field f =>
    if f.bits.isSome || f.bytesAttr.isSome then .ret true
    else if f.lengthStar || f.lengthFrom.isSome || f.length.isSome || f.terminated.isSome
        || f.maxLength.isSome || f.lengthPrefix.isSome then .ret false
    else if f.typeRef == "" then .ret false
    else
      match index.find f.typeRef with
      | some (.type t) => .ret (typeFixedSize t)
      | some (.struct _) => .call f.typeRef .ret
      | _ => .ret false
  | .reserved _ => .ret true
  | .align _ => .ret true
  | .struct _ children => childrenFixed index children
  | .array .. => .ret false
  | .choice .. => .ret false
  | .fxBlock _ => .ret false

def childrenFixed (index : TypeIndex) : List StructChild → Proc String Bool Bool
  | [] => .ret true
  | c :: cs => childFixed index c >>= fun fixed => if fixed then childrenFixed index cs else .ret false

end

/-- The children of the struct of that name. -/
def structFixed (index : TypeIndex) (name : String) : Proc String Bool Bool :=
  match index.find name with
  | some (.struct s) => childrenFixed index s.children
  | _ => .ret false

/-- `validator.cpp:1487-1514`. -/
def elementFixed (index : TypeIndex) (a : ArrayAttrs) (children : List StructChild) :
    Proc String Bool Bool :=
  if a.typeRef != "" then
    match index.find a.typeRef with
    | some (.type t) => .ret (typeFixedSize t)
    | some (.struct _) => .call a.typeRef .ret
    | _ => .ret false
  else if children.isEmpty then .ret false
  else childrenFixed index children

mutual

/-- The arrays with `count="fx"` among a child and what it contains. -/
def childFxArrays : StructChild → List (ArrayAttrs × List StructChild)
  | .field _ => []
  | .struct _ children => fxArrays children
  | .array a children => (if a.countFx then [(a, children)] else []) ++ fxArrays children
  | .choice _ cases otherwise => caseFxArrays cases ++ otherwiseFxArrays otherwise
  | .fxBlock children => fxArrays children
  | .reserved _ => []
  | .align _ => []

def fxArrays : List StructChild → List (ArrayAttrs × List StructChild)
  | [] => []
  | c :: cs => childFxArrays c ++ fxArrays cs

def caseFxArrays : List Case → List (ArrayAttrs × List StructChild)
  | [] => []
  | .mk _ children :: cases => fxArrays children ++ caseFxArrays cases

def otherwiseFxArrays : Option Case → List (ArrayAttrs × List StructChild)
  | none => []
  | some (.mk _ children) => fxArrays children

end

/-! ## Configuration keys -/

def fieldConfigKeys (f : Field) : List String :=
  match f.autoExpr with
  | some a => if a.kind == .config then [a.key] else []
  | none => []

/-- The children that inlining a field brings in. -/
def inlinedChildren (index : TypeIndex) (ref : String) : Option (List StructChild) :=
  match index.find ref with
  | some (.struct s) => some s.children
  | some (.message m) => some m.children
  | _ => none

/-- `validator.cpp:1973-1995`: one field. -/
def scanField (index : TypeIndex) (f : Field) : Proc String (List String) (List String) :=
  if f.isInline && f.typeRef != "" && (inlinedChildren index f.typeRef).isSome then
    .call f.typeRef fun keys => .ret (fieldConfigKeys f ++ keys)
  else .ret (fieldConfigKeys f)

/-- `validator.cpp:1971-1997`. -/
def scanChildren (index : TypeIndex) (children : List StructChild) :
    Proc String (List String) (List String) :=
  (plainFields children).foldlM
    (fun keys f => scanField index f >>= fun more => .ret (keys ++ more)) []

def scanNamed (index : TypeIndex) (ref : String) : Proc String (List String) (List String) :=
  match inlinedChildren index ref with
  | some children => scanChildren index children
  | none => .ret []

/-! ## Names that inlining brings in -/

structure Inlining where
  visiting : List String
  ref : String
  names : List String

/-- What was reported, and the names in scope. -/
structure Named where
  errors : List String := []
  names : List String := []

/-- `validator.cpp:851-863`: one child of the inlined struct. -/
def inlineChild (parentName owner : String) (visiting : List String) (named : Named) :
    StructChild → Proc Inlining Named Named
  | .field cf =>
    let duplicate := cf.name != "" && named.names.contains cf.name
    let errors := named.errors ++ errorIf duplicate
      s!"inline of '{owner}' introduces duplicate field name '{cf.name}' in {parentName}"
    let names := if cf.name != "" && !duplicate then cf.name :: named.names else named.names
    if cf.isInline && cf.typeRef != "" then
      .call ⟨visiting, cf.typeRef, names⟩ fun more =>
        .ret { errors := errors ++ more.errors, names := more.names }
    else .ret { errors, names }
  | _ => .ret named

/-- `validator.cpp:840-867`. -/
def inlineDuplicates (index : TypeIndex) (parentName : String) (i : Inlining) :
    Proc Inlining Named Named :=
  let inlined (owner : String) (children : List StructChild) : Proc Inlining Named Named :=
    children.foldlM (inlineChild parentName owner (i.ref :: i.visiting)) { names := i.names }
  if i.ref == "" || i.visiting.contains i.ref then .ret { names := i.names }
  else
    match index.find i.ref with
    | some (.struct s) => inlined s.attrs.name s.children
    | some (.message m) => inlined m.name m.children
    | _ => .ret { names := i.names }

/-! ## Where the walks lead -/

section

variable {index : TypeIndex}

mutual

theorem sat_childFixed : ∀ c : StructChild,
    (childFixed index c).Sat (fun n => (index.struct? n).isSome) (fun _ _ => True) fun _ => True
  | .field f => by
    unfold childFixed
    split_ifs
    · trivial
    · trivial
    · trivial
    split
    · trivial
    · next hs => exact ⟨by simp [struct?_of_find hs], fun _ _ => trivial⟩
    · trivial
  | .reserved _ => trivial
  | .align _ => trivial
  | .struct _ children => sat_childrenFixed children
  | .array _ _ => trivial
  | .choice _ _ _ => trivial
  | .fxBlock _ => trivial

theorem sat_childrenFixed : ∀ children : List StructChild,
    (childrenFixed index children).Sat (fun n => (index.struct? n).isSome) (fun _ _ => True) fun _ => True
  | [] => trivial
  | c :: cs => by
    refine (sat_childFixed c).bind fun fixed _ => ?_
    split_ifs
    · exact sat_childrenFixed cs
    · trivial

end

theorem sat_structFixed (name : String) :
    (structFixed index name).Sat (fun n => (index.struct? n).isSome) (fun _ _ => True) fun _ => True := by
  unfold structFixed
  split
  · exact sat_childrenFixed _
  · trivial

theorem sat_elementFixed (a : ArrayAttrs) (children : List StructChild) :
    (elementFixed index a children).Sat (fun n => (index.struct? n).isSome) (fun _ _ => True) fun _ => True := by
  unfold elementFixed
  split_ifs
  · split
    · trivial
    · next hs => exact ⟨by simp [struct?_of_find hs], fun _ _ => trivial⟩
    · trivial
  · trivial
  · exact sat_childrenFixed children

theorem isStruct_of_inlinedChildren {ref : String} (h : (inlinedChildren index ref).isSome) :
    isStructOrMessageType index ref := by
  unfold inlinedChildren at h
  split at h
  · next hs => exact isStruct_of_find_struct hs
  · next hm => exact isStruct_of_find_message hm
  · cases h

theorem sat_scanChildren (children : List StructChild) :
    (scanChildren index children).Sat (isStructOrMessageType index ·) (fun _ _ => True) fun _ => True := by
  refine sat_foldlM (plainFields children) (I := fun _ _ => True)
    (fun done f keys _ _ => ?_) trivial
  refine Sat.bind (Q := fun _ => True) ?_ fun _ _ => trivial
  unfold scanField
  split_ifs with hinline
  · exact ⟨isStruct_of_inlinedChildren (Bool.and_eq_true_iff.1 hinline).2, fun _ _ => trivial⟩
  · trivial

theorem sat_scanNamed (ref : String) :
    (scanNamed index ref).Sat (isStructOrMessageType index ·) (fun _ _ => True) fun _ => True := by
  unfold scanNamed
  split
  · exact sat_scanChildren _
  · trivial

end

/-! ## Walks that always come back -/

section

variable {proto : Protocol}

def classSet (proto : Protocol) : Finset String := (classNames proto).toFinset

theorem mem_classSet {name : String}
    (h : isStructOrMessageType (ofProtocol proto) name) : name ∈ classSet proto :=
  mem_toFinset.2 (mem_classNames h)

/-- The classes that are not being inlined. -/
def notVisiting (proto : Protocol) (i : Inlining) : Nat :=
  ((classSet proto).filter (· ∉ i.visiting)).card

theorem notVisiting_lt {i j : Inlining} (href : i.ref ∈ classSet proto)
    (hfresh : i.ref ∉ i.visiting) (hj : j.visiting = i.ref :: i.visiting) :
    notVisiting proto j < notVisiting proto i := by
  refine Finset.card_lt_card ((Finset.ssubset_iff_of_subset fun x hx => ?_).2 ⟨i.ref, ?_, ?_⟩)
  · rw [Finset.mem_filter, hj, mem_cons, not_or] at hx
    exact Finset.mem_filter.2 ⟨hx.1, hx.2.2⟩
  · exact Finset.mem_filter.2 ⟨href, hfresh⟩
  · rw [Finset.mem_filter, hj]
    exact fun h => h.2 mem_cons_self

theorem sat_inlineChildren (parentName owner : String) {i : Inlining} (children : List StructChild)
    (href : i.ref ∈ classSet proto) (hfresh : i.ref ∉ i.visiting) :
    (children.foldlM (inlineChild parentName owner (i.ref :: i.visiting)) { names := i.names }).Sat
      (fun j => True ∧ notVisiting proto j < notVisiting proto i) (fun _ _ => True)
      fun _ => True := by
  refine sat_foldlM children (I := fun _ _ => True) (fun done c named _ _ => ?_) trivial
  cases c with
  | field cf =>
    unfold inlineChild
    dsimp only
    by_cases hinline : (cf.isInline && cf.typeRef != "") = true
    · rw [if_pos hinline]
      exact ⟨⟨trivial, notVisiting_lt href hfresh rfl⟩, fun _ _ => trivial⟩
    · rw [if_neg hinline]
      trivial
  | _ => trivial

theorem sat_inlineDuplicates (parentName : String) (i : Inlining) :
    (inlineDuplicates (ofProtocol proto) parentName i).Sat
      (fun j => True ∧ notVisiting proto j < notVisiting proto i) (fun _ _ => True)
      fun _ => True := by
  unfold inlineDuplicates
  dsimp only
  split_ifs with hstop
  · trivial
  have hfresh : i.ref ∉ i.visiting := fun h => hstop (by simp [h])
  split
  · next hs => exact sat_inlineChildren _ _ _ (mem_classSet (isStruct_of_find_struct hs)) hfresh
  · next hm => exact sat_inlineChildren _ _ _ (mem_classSet (isStruct_of_find_message hm)) hfresh
  · trivial

theorem fix_inlineDuplicates (proto : Protocol) (parentName : String) (i : Inlining) {depth : Nat}
    (hdepth : (classSet proto).card < depth) :
    ∃ named, fix (inlineDuplicates (ofProtocol proto) parentName) depth i = some named := by
  obtain ⟨named, hnamed, -⟩ := fix_total (notVisiting proto)
    (fun i (_ : True) => sat_inlineDuplicates parentName i) i trivial
    ((Finset.card_filter_le _ _).trans_lt hdepth)
  exact ⟨named, hnamed⟩

end

/-! ## Definitions the validator comes back from -/

section

variable (proto : Protocol)

/-- The walks that `validate` makes come back from calls nested to a given depth. -/
structure ReturnsWithin (depth : Nat) : Prop where
  elements : ∀ children ∈ proto.childLists, ∀ a ∈ fxArrays children,
    ReturnsAt (structFixed (ofProtocol proto)) depth (elementFixed (ofProtocol proto) a.1 a.2)
  keys : proto.frames ≠ [] → ∀ m ∈ proto.messages, ReturnsAt (scanNamed (ofProtocol proto)) depth
      (scanChildren (ofProtocol proto) m.children)
  inlines : ∀ parentName i, ReturnsAt (inlineDuplicates (ofProtocol proto) parentName) depth
      (.call i .ret)
  cycles : ReturnsAt (DepthFirst.body (refsOf (ofProtocol proto)) cycleMessage) depth
    (DepthFirst.search (classNames proto))

/-- No struct is asked for a fixed size while it is being asked, for the element of an array with
`count="fx"`, and with a frame no class is scanned for keys while it is being scanned, for a
message. -/
structure AcyclicWalks : Prop where
  elements : ∀ children ∈ proto.childLists, ∀ a ∈ fxArrays children,
    AcyclicFrom (structFixed (ofProtocol proto)) (elementFixed (ofProtocol proto) a.1 a.2)
  keys : proto.frames ≠ [] → ∀ m ∈ proto.messages, AcyclicFrom (scanNamed (ofProtocol proto))
      (scanChildren (ofProtocol proto) m.children)

variable {proto}

def structSet (proto : Protocol) : Finset String := (proto.structs.map (·.attrs.name)).toFinset

theorem mem_structSet {name : String}
    (h : ((ofProtocol proto).struct? name).isSome) : name ∈ structSet proto := by
  obtain ⟨s, hs⟩ := Option.isSome_iff_exists.1 h
  have hname : s.attrs.name = name := by simpa using find?_some hs
  exact mem_toFinset.2 (hname ▸ mem_map_of_mem (mem_of_find?_eq_some hs))

theorem returnsAt_elementFixed {a : ArrayAttrs} {children : List StructChild}
    (h : AcyclicFrom (structFixed (ofProtocol proto))
      (elementFixed (ofProtocol proto) a children)) :
    ReturnsAt (structFixed (ofProtocol proto)) proto.structs.length
      (elementFixed (ofProtocol proto) a children) := by
  have hcard : (structSet proto).card ≤ proto.structs.length :=
    (toFinset_card_le _).trans (length_map _).le
  refine ReturnsAt.mono hcard (h.returnsAt ?_ ?_)
  · rintro n - m ⟨depth, hm⟩
    exact mem_structSet (pre_of_mem_calls (sat_structFixed n) hm)
  · intro depth n hn
    exact mem_structSet (pre_of_mem_calls (sat_elementFixed a children) hn)

theorem returnsAt_scanChildren {children : List StructChild}
    (h : AcyclicFrom (scanNamed (ofProtocol proto)) (scanChildren (ofProtocol proto) children)) :
    ReturnsAt (scanNamed (ofProtocol proto)) (classNames proto).length
      (scanChildren (ofProtocol proto) children) := by
  have hcard : (classSet proto).card ≤ (classNames proto).length := toFinset_card_le _
  refine ReturnsAt.mono hcard (h.returnsAt ?_ ?_)
  · rintro n - m ⟨depth, hm⟩
    exact mem_classSet (pre_of_mem_calls (sat_scanNamed n) hm)
  · intro depth n hn
    exact mem_classSet (pre_of_mem_calls (sat_scanChildren children) hn)

theorem length_structs_le : proto.structs.length ≤ (classNames proto).length := by simp [classNames]

theorem AcyclicWalks.returnsWithin (h : AcyclicWalks proto) :
    ReturnsWithin proto ((classNames proto).length + 1) where
  elements children hchildren a ha :=
    (returnsAt_elementFixed (h.elements children hchildren a ha)).mono
      (Nat.le_succ_of_le length_structs_le)
  keys hframes m hm := (returnsAt_scanChildren (h.keys hframes m hm)).mono (Nat.le_succ _)
  inlines parentName i := by
    obtain ⟨named, hnamed⟩ := fix_inlineDuplicates proto parentName i
      (Nat.lt_succ_of_le (toFinset_card_le _))
    exact ⟨named, run_call hnamed _⟩
  cycles := by
    obtain ⟨found, hfound, -⟩ := run_search_classNames proto
    exact ⟨found, hfound⟩

theorem ReturnsWithin.acyclicWalks {depth : Nat} (h : ReturnsWithin proto depth) :
    AcyclicWalks proto where
  elements children hchildren a ha := (h.elements children hchildren a ha).acyclicFrom
  keys hframes m hm := (h.keys hframes m hm).acyclicFrom

end

/-! ## What the walks give -/

section

variable {index : TypeIndex} {f : String → Option Bool} {sizes : StructDef → Bool} {fixed : Bool}

theorem eq_of_run_call {n : String} (h : (call n ret : Proc String Bool Bool).run f = some fixed) :
    f n = some fixed := by
  cases hn : f n with
  | none => simp only [run, hn, reduceCtorEq] at h
  | some b => exact (run_call hn ret).symm.trans h

mutual

theorem childFixed_eq (hf : ∀ {name s fixed}, f name = some fixed →
      index.find name = some (.struct s) → sizes s = fixed) :
    ∀ (c : StructChild) {fixed : Bool}, (childFixed index c).run f = some fixed →
      childFixedSizeWith index sizes c = fixed
  | .field g, fixed, h => by
    rw [childFixed] at h
    rw [childFixedSizeWith]
    split_ifs at h ⊢
    · exact Option.some.inj h
    · exact Option.some.inj h
    · exact Option.some.inj h
    cases hfind : index.find g.typeRef with
    | none =>
      rw [hfind] at h
      exact Option.some.inj h
    | some found =>
      rw [hfind] at h
      cases found with
      | type t => exact Option.some.inj h
      | struct s => exact hf (eq_of_run_call h) hfind
      | message m => exact Option.some.inj h
  | .struct _ children, _, h => by
    rw [childFixed] at h
    rw [childFixedSizeWith]
    exact childrenFixed_eq hf children h
  | .reserved _, _, h | .align _, _, h | .array _ _, _, h | .choice _ _ _, _, h
  | .fxBlock _, _, h => by
    rw [childFixed] at h
    rw [childFixedSizeWith]
    exact Option.some.inj h

theorem childrenFixed_eq (hf : ∀ {name s fixed}, f name = some fixed →
      index.find name = some (.struct s) → sizes s = fixed) :
    ∀ (children : List StructChild) {fixed : Bool},
      (childrenFixed index children).run f = some fixed →
      childrenFixedSizeWith index sizes children = fixed
  | [], _, h => by
    rw [childrenFixed] at h
    rw [childrenFixedSizeWith]
    exact Option.some.inj h
  | c :: cs, _, h => by
    rw [childrenFixed, run_bind] at h
    obtain ⟨first, hfirst, hrest⟩ := Option.bind_eq_some_iff.1 h
    rw [childrenFixedSizeWith, childFixed_eq hf c hfirst]
    cases first with
    | true => exact childrenFixed_eq hf cs hrest
    | false => exact Option.some.inj hrest

end

theorem structFixed_eq (depth : Nat) {name : String} {s : StructDef}
    (h : fix (structFixed index) depth name = some fixed)
    (hs : index.find name = some (.struct s)) : structFixedSize index depth s = fixed := by
  induction depth generalizing name s fixed with
  | zero => cases h
  | succ depth ih =>
    rw [fix_succ, structFixed, hs] at h
    exact childrenFixed_eq ih s.children h

theorem elementFixed_eq {a : ArrayAttrs} {children : List StructChild}
    (h : (elementFixed index a children).run (fix (structFixed index) (index.structs.length + 1))
      = some fixed) : arrayElementFixedSize index a children = fixed := by
  unfold elementFixed at h
  unfold arrayElementFixedSize
  dsimp only
  split_ifs at h ⊢ with href hnone
  · cases hfind : index.find a.typeRef with
    | none =>
      rw [hfind] at h
      exact Option.some.inj h
    | some found =>
      rw [hfind] at h
      cases found with
      | type t => exact Option.some.inj h
      | struct s => exact structFixed_eq _ (eq_of_run_call h) hfind
      | message m => exact Option.some.inj h
  · rw [hnone]
    exact Option.some.inj h
  · rw [Bool.eq_false_of_not_eq_true hnone, Bool.not_false, Bool.true_and]
    exact childrenFixed_eq (structFixed_eq _) children h

theorem scanChildren_eq {depth : Nat} {children : List StructChild} {keys : List String}
    (ih : ∀ {ref keys children}, fix (scanNamed index) depth ref = some keys →
      inlinedChildren index ref = some children → messageConfigKeys index depth children = keys)
    (h : (scanChildren index children).run (fix (scanNamed index) depth) = some keys) :
    messageConfigKeys index (depth + 1) children = keys := by
  rw [messageConfigKeys, flatMap_eq_foldl]
  refine foldl_of_run id (fun keys f keys' hstep => ?_) _ h
  rw [run_bind] at hstep
  obtain ⟨more, hmore, hkeys⟩ := Option.bind_eq_some_iff.1 hstep
  cases hkeys
  refine congrArg (keys ++ ·) ?_
  unfold scanField at hmore
  by_cases hinline : (f.isInline && f.typeRef != "") = true
  · have hcalled : ∀ {children}, inlinedChildren index f.typeRef = some children →
        fieldConfigKeys f ++ messageConfigKeys index depth children = more := by
      intro children hchildren
      simp only [hinline, hchildren, Option.isSome_some, Bool.and_self, if_true] at hmore
      cases hcall : fix (scanNamed index) depth f.typeRef with
      | none => simp only [run, hcall, reduceCtorEq] at hmore
      | some inner =>
        rw [run_call hcall] at hmore
        cases hmore
        exact congrArg (_ ++ ·) (ih hcall hchildren)
    rw [if_pos hinline]
    cases hfind : index.find f.typeRef with
    | none =>
      simp only [inlinedChildren, hfind, Option.isSome_none, Bool.and_false, Bool.false_eq_true,
        if_false] at hmore
      exact (append_nil _).trans (Option.some.inj hmore)
    | some found =>
      cases found with
      | struct s => exact hcalled (by rw [inlinedChildren, hfind])
      | message m => exact hcalled (by rw [inlinedChildren, hfind])
      | type t =>
        simp only [inlinedChildren, hfind, Option.isSome_none, Bool.and_false, Bool.false_eq_true,
          if_false] at hmore
        exact (append_nil _).trans (Option.some.inj hmore)
  · rw [if_neg hinline, append_nil]
    simp only [hinline, Bool.false_and, Bool.false_eq_true, if_false] at hmore
    exact Option.some.inj hmore

theorem scanNamed_eq (depth : Nat) {ref : String} {keys : List String} {children : List StructChild}
    (h : fix (scanNamed index) depth ref = some keys)
    (hchildren : inlinedChildren index ref = some children) :
    messageConfigKeys index depth children = keys := by
  induction depth generalizing ref keys children with
  | zero => cases h
  | succ depth ih =>
    rw [fix_succ, scanNamed, hchildren] at h
    exact scanChildren_eq ih h

end

/-- Where the walks come back, what the validator takes from them are their results. -/
theorem AcyclicWalks.hasValues {proto : Protocol} (h : AcyclicWalks proto) :
    (∀ children ∈ proto.childLists, ∀ a ∈ fxArrays children,
      (elementFixed (ofProtocol proto) a.1 a.2).run
          (fix (structFixed (ofProtocol proto)) (proto.structs.length + 1))
        = some (arrayElementFixedSize (ofProtocol proto) a.1 a.2))
    ∧ (proto.frames ≠ [] → ∀ m ∈ proto.messages,
      (scanChildren (ofProtocol proto) m.children).run
          (fix (scanNamed (ofProtocol proto)) (proto.structs.length + proto.messages.length))
        = some (messageConfigKeys (ofProtocol proto)
            (proto.structs.length + proto.messages.length + 1) m.children)) := by
  constructor
  · intro children hchildren a ha
    obtain ⟨fixed, hfixed⟩ := (returnsAt_elementFixed (h.elements children hchildren a ha)).mono
      (Nat.le_succ _)
    rw [hfixed, elementFixed_eq hfixed]
  · intro hframes m hm
    obtain ⟨keys, hkeys⟩ := returnsAt_scanChildren (h.keys hframes m hm)
    have hcount : (classNames proto).length = proto.structs.length + proto.messages.length := by
      simp [classNames]
    rw [hcount] at hkeys
    rw [hkeys, scanChildren_eq (scanNamed_eq _) hkeys]

/-! ## The resolver and the validator -/

/-- `resolve_types` is a recursion over the tree of the definition; `validate` runs if it reports
nothing. -/
def ChecksWithin (proto : Protocol) (depth : Nat) : Prop :=
  ∀ p, resolveTypes proto = .ok p → ReturnsWithin p depth

/-- `resolve_types` and `validate` come back exactly if no walk meets a class that leads back to
itself, and then the number of classes bounds how deep calls are nested. -/
theorem checks_return_iff (proto : Protocol) :
    ((∃ depth, ChecksWithin proto depth) ↔ ∀ p, resolveTypes proto = .ok p → AcyclicWalks p)
      ∧ ((∃ depth, ChecksWithin proto depth) →
        ChecksWithin proto (proto.structs.length + proto.messages.length + 1)) := by
  have hwithin : (∀ p, resolveTypes proto = .ok p → AcyclicWalks p) →
      ChecksWithin proto (proto.structs.length + proto.messages.length + 1) := by
    intro h p hp
    have hcount : (classNames p).length = proto.structs.length + proto.messages.length := by
      unfold resolveTypes at hp
      split_ifs at hp
      cases hp
      simp [classNames, Protocol.inherit]
    exact hcount ▸ (h p hp).returnsWithin
  have hiff : (∃ depth, ChecksWithin proto depth)
      ↔ ∀ p, resolveTypes proto = .ok p → AcyclicWalks p := by
    constructor
    · rintro ⟨depth, h⟩ p hp
      exact (h p hp).acyclicWalks
    · intro h
      exact ⟨_, hwithin h⟩
  exact ⟨hiff, fun h => hwithin (hiff.1 h)⟩

/-- A chain of links, repeated while a flag is set. -/
def chainProtocol : Protocol :=
  { name := "chain", version := "1"
    structs := [
      { attrs := { name := "Link" }
        children := [.field { name := "next", typeRef := "Link" }] }]
    messages := [
      { name := "Chain"
        children := [.array { name := "links", typeRef := "Link", countFx := true } []] }] }

/-- The test whether a link has a fixed size asks for the size of a link, before the cycle is
reported. -/
theorem checks_return_fails : resolveTypes chainProtocol = .ok chainProtocol.inherit
      ∧ ∀ depth, ¬ChecksWithin chainProtocol depth := by
  have hresolve : resolveTypes chainProtocol = .ok chainProtocol.inherit :=
    if_pos (by decide +kernel)
  refine ⟨hresolve, fun depth h => ?_⟩
  have hacyclic := (h _ hresolve).acyclicWalks.elements
    [.array { name := "links", typeRef := "Link", countFx := true } []] mem_cons_self
    ({ name := "links", typeRef := "Link", countFx := true }, []) mem_cons_self
  have hself : Calls (structFixed (ofProtocol chainProtocol.inherit)) "Link" "Link" :=
    ⟨0, by decide +kernel⟩
  exact hacyclic 0 "Link" (by decide +kernel) "Link" .refl (.single hself)

end Conduit.Bgen.Validator
