import Conduit.Bgen.Resolver
import Conduit.Data.DepthFirst

/-!
# Containment by value

A class has a member of the type that a field refers to, directly, in a nested struct, in an FX
block or in a branch of a choice; a choice is stored as a `std::variant` of its branches
(`codegen/cpp_structs.cpp:804-835`). A class that contains itself in this way has no finite size.
The elements of an array are in a `std::vector`.

`detect_struct_cycles` searches the references that `collect_struct_refs` finds. It does not look at
the type of a branch that is given by a reference, so the search excludes every cycle but those
through such a branch.
-/

namespace Conduit.Bgen

open Data TypeIndex DepthFirst Validator List
open Relation (ReflTransGen TransGen)
open Validator (isStructOrMessageType structRefs childStructRefs caseListRefs otherwiseRefs childrenOf)

/-- How a class refers to another one that it contains. -/
inductive RefKind where
  | field
  | branch

/-- The children of a class have a value of the type `b`, which a field or a branch of a choice
refers to. -/
inductive ByValue : RefKind → List StructChild → String → Prop
  | field {children : List StructChild} {f : Field} (h : .field f ∈ children) :
    ByValue .field children f.typeRef
  | struct {k : RefKind} {children inner : List StructChild} {s : StructAttrs} {b : String}
    (h : .struct s inner ∈ children) (hinner : ByValue k inner b) : ByValue k children b
  | fxBlock {k : RefKind} {children inner : List StructChild} {b : String}
    (h : .fxBlock inner ∈ children) (hinner : ByValue k inner b) : ByValue k children b
  | caseType {children : List StructChild} {c : ChoiceAttrs} {cases : List Case}
    {otherwise : Option Case} {attrs : CaseAttrs} {inner : List StructChild}
    (h : .choice c cases otherwise ∈ children) (hcase : .mk attrs inner ∈ cases) :
    ByValue .branch children attrs.typeRef
  | caseChildren {k : RefKind} {children : List StructChild} {c : ChoiceAttrs} {cases : List Case}
    {otherwise : Option Case} {attrs : CaseAttrs} {inner : List StructChild} {b : String}
    (h : .choice c cases otherwise ∈ children) (hcase : .mk attrs inner ∈ cases)
    (hinner : ByValue k inner b) : ByValue k children b
  | otherwiseType {children : List StructChild} {c : ChoiceAttrs} {cases : List Case}
    {attrs : CaseAttrs} {inner : List StructChild}
    (h : .choice c cases (some (.mk attrs inner)) ∈ children) :
    ByValue .branch children attrs.typeRef
  | otherwiseChildren {k : RefKind} {children : List StructChild} {c : ChoiceAttrs}
    {cases : List Case} {attrs : CaseAttrs} {inner : List StructChild} {b : String}
    (h : .choice c cases (some (.mk attrs inner)) ∈ children) (hinner : ByValue k inner b) :
    ByValue k children b

/-- The class `a` contains the class `b`. -/
def ContainsBy (index : TypeIndex) (k : RefKind) (a b : String) : Prop :=
  b ≠ "" ∧ isStructOrMessageType index b
    ∧ ∃ children, childrenOf index a = some children ∧ ByValue k children b

def Contains (index : TypeIndex) (a b : String) : Prop := ∃ k, ContainsBy index k a b

theorem not_byValue_branch_of_fields {children : List StructChild} {b : String}
    (h : ∀ c ∈ children, ∃ f, c = .field f) : ¬ByValue .branch children b := by
  intro hvalue
  have hmem : ∃ c ∈ children, ∀ f, c ≠ .field f := by
    cases hvalue with
    | struct hmem _ => exact ⟨_, hmem, by simp⟩
    | fxBlock hmem _ => exact ⟨_, hmem, by simp⟩
    | caseType hmem _ => exact ⟨_, hmem, by simp⟩
    | caseChildren hmem _ _ => exact ⟨_, hmem, by simp⟩
    | otherwiseType hmem => exact ⟨_, hmem, by simp⟩
    | otherwiseChildren hmem _ => exact ⟨_, hmem, by simp⟩
  obtain ⟨c, hc, hne⟩ := hmem
  obtain ⟨f, hf⟩ := h c hc
  exact hne f hf

/-! ## References that the validator collects -/

theorem mem_structRefs {index : TypeIndex} {children : List StructChild} {b : String} :
    b ∈ structRefs index children ↔ ∃ c ∈ children, b ∈ childStructRefs index c := by
  induction children with
  | nil => simp [structRefs]
  | cons c cs ih => simp [structRefs, ih]

theorem mem_caseListRefs {index : TypeIndex} {cases : List Case} {b : String} {attrs : CaseAttrs}
    {inner : List StructChild} (hcase : .mk attrs inner ∈ cases) (hb : b ∈ structRefs index inner) :
    b ∈ caseListRefs index cases := by
  induction cases with
  | nil => cases hcase
  | cons c cases ih =>
    cases c with
    | mk attrs' inner' =>
      rw [caseListRefs, mem_append]
      rcases mem_cons.1 hcase with heq | hcase
      · cases heq
        exact .inl hb
      · exact .inr (ih hcase)

section

variable {index : TypeIndex} {b : String}

mutual

theorem isStruct_of_mem_childStructRefs : ∀ c : StructChild, b ∈ childStructRefs index c →
    isStructOrMessageType index b
  | .field f, h => by
    rw [childStructRefs] at h
    split_ifs at h with hf
    · obtain rfl := mem_singleton.1 h
      exact (Bool.and_eq_true_iff.1 hf).2
    · cases h
  | .struct _ children, h => isStruct_of_mem_structRefs children h
  | .array _ _, h => by cases h
  | .choice _ cases otherwise, h => by
    rcases mem_append.1 h with h | h
    · exact isStruct_of_mem_caseListRefs cases h
    · exact isStruct_of_mem_otherwiseRefs otherwise h
  | .fxBlock children, h => isStruct_of_mem_structRefs children h
  | .reserved _, h => by cases h
  | .align _, h => by cases h

theorem isStruct_of_mem_structRefs : ∀ children : List StructChild, b ∈ structRefs index children →
    isStructOrMessageType index b
  | [], h => by cases h
  | c :: cs, h => by
    rcases mem_append.1 h with h | h
    · exact isStruct_of_mem_childStructRefs c h
    · exact isStruct_of_mem_structRefs cs h

theorem isStruct_of_mem_caseListRefs : ∀ cases : List Case, b ∈ caseListRefs index cases →
    isStructOrMessageType index b
  | [], h => by cases h
  | .mk _ children :: cases, h => by
    rcases mem_append.1 h with h | h
    · exact isStruct_of_mem_structRefs children h
    · exact isStruct_of_mem_caseListRefs cases h

theorem isStruct_of_mem_otherwiseRefs : ∀ otherwise : Option Case,
    b ∈ otherwiseRefs index otherwise → isStructOrMessageType index b
  | none, h => by cases h
  | some (.mk _ children), h => isStruct_of_mem_structRefs children h

end

end

theorem ByValue.mem_structRefs {index : TypeIndex} {k : RefKind} {children : List StructChild}
    {b : String} (h : ByValue k children b) (hk : k = .field) (hne : b ≠ "")
    (hb : isStructOrMessageType index b) : b ∈ structRefs index children := by
  induction h with
  | field hmem => exact Bgen.mem_structRefs.2 ⟨_, hmem, by simp [childStructRefs, hne, hb]⟩
  | struct hmem _ ih | fxBlock hmem _ ih => exact Bgen.mem_structRefs.2 ⟨_, hmem, ih hk hne hb⟩
  | caseType _ _ => cases hk
  | caseChildren hmem hcase _ ih =>
    refine Bgen.mem_structRefs.2 ⟨_, hmem, mem_append_left _ ?_⟩
    exact mem_caseListRefs hcase (ih hk hne hb)
  | otherwiseType _ => cases hk
  | otherwiseChildren hmem _ ih =>
    exact Bgen.mem_structRefs.2 ⟨_, hmem, mem_append_right _ (ih hk hne hb)⟩

/-! ## The search -/

namespace Validator

/-- The references of the struct or message of that name. -/
def refsOf (index : TypeIndex) (name : String) : List String :=
  ((childrenOf index name).map (structRefs index)).getD []

def cycleMessage (name ref : String) : String :=
  s!"recursive type cycle detected: '{name}' eventually contains itself via '{ref}'"

/-- The structs and messages, in the order of the search. -/
def classNames (proto : Protocol) : List String :=
  proto.structs.map (·.attrs.name) ++ proto.messages.map (·.name)

def Found.pair (found : Found String String) : List String × List String :=
  (found.errors, found.visited)

theorem detectCycleDfs_eq {index : TypeIndex} {depth : Nat} {v : Visit String}
    {found : Found String String}
    (h : Proc.fix (body (refsOf index) cycleMessage) depth v = some found) :
    detectCycleDfs index depth v.stack v.node v.visited = Found.pair found := by
  induction depth generalizing v found with
  | zero => cases h
  | succ depth ih =>
    rw [Proc.fix_succ, body_eq, refsOf] at h
    unfold detectCycleDfs
    cases hchildren : childrenOf index v.node with
    | none =>
      rw [hchildren] at h
      cases h
      rfl
    | some children =>
      rw [hchildren] at h
      dsimp only
      refine Proc.foldl_of_run Found.pair (fun s ref s' hrun => ?_) _ h
      simp only [Found.pair, contains_iff_mem]
      obtain ⟨hstack, rfl⟩ | ⟨hstack, hvisited, rfl⟩ | ⟨hstack, hvisited, more, hmore, rfl⟩ :=
        run_follow cycleMessage hrun
      · rw [if_pos hstack]
        rfl
      · rw [if_neg hstack, if_pos hvisited]
      have hdfs := ih hmore
      dsimp only at hdfs
      rw [if_neg hstack, if_neg hvisited, hdfs]
      rfl

theorem detectStructCycles_eq {index : TypeIndex} {proto : Protocol} {found : Found String String}
    (h : (search (classNames proto)).run (Proc.fix
      (body (refsOf index) cycleMessage) ((classNames proto).length + 1)) = some found) :
    detectStructCycles index proto = found.errors := by
  unfold detectStructCycles
  refine congrArg Prod.fst (Proc.foldl_of_run Found.pair (fun s name s' hrun => ?_) _ h)
  simp only [Found.pair, contains_iff_mem]
  obtain ⟨hvisited, rfl⟩ | ⟨hvisited, more, hmore, rfl⟩ := run_start hrun
  · rw [if_pos hvisited]
  have hdfs := detectCycleDfs_eq hmore
  dsimp only [classNames] at hdfs
  rw [if_neg hvisited, hdfs]
  rfl

end Validator

theorem mem_classNames {proto : Protocol} {b : String}
    (h : isStructOrMessageType (ofProtocol proto) b) : b ∈ classNames proto := by
  simp only [isStructOrMessageType, Bool.or_eq_true, Option.isSome_iff_exists] at h
  rcases h with ⟨s, hs⟩ | ⟨m, hm⟩
  · have hname : s.attrs.name = b := by simpa using find?_some hs
    exact mem_append_left _ (hname ▸ mem_map_of_mem (mem_of_find?_eq_some hs))
  · have hname : m.name = b := by simpa using find?_some hm
    exact mem_append_right _ (hname ▸ mem_map_of_mem (mem_of_find?_eq_some hm))

theorem run_search_classNames (proto : Protocol) :
    ∃ found, (search (classNames proto)).run (Proc.fix (body
        (refsOf (ofProtocol proto)) cycleMessage) ((classNames proto).length + 1)) = some found
      ∧ Searched (refsOf (ofProtocol proto)) (classNames proto) found := by
  refine run_search (fun a _ b hb => ?_) (Nat.lt_succ_self _)
  unfold refsOf at hb
  cases hchildren : childrenOf (ofProtocol proto) a with
  | none =>
    rw [hchildren] at hb
    cases hb
  | some children =>
    rw [hchildren] at hb
    exact mem_classNames (isStruct_of_mem_structRefs children hb)

/-! ## Cycles -/

section

variable {proto : Protocol}

theorem Validator.Accepted.fields_acyclic (h : Accepted proto) (a : String) :
    ¬TransGen (ContainsBy (ofProtocol proto) .field) a a := by
  intro hcycle
  obtain ⟨found, hrun, hsearched⟩ := run_search_classNames proto
  have herrors : found.errors = [] := by
    rw [← detectStructCycles_eq hrun]
    exact (append_eq_nil_iff.1 h).2
  have hclass : a ∈ classNames proto := by
    obtain ⟨b, -, hlast⟩ := TransGen.tail'_iff.1 hcycle
    exact mem_classNames hlast.2.1
  refine hsearched.acyclic herrors hclass (TransGen.mono (fun x y hxy => ?_) _ _ hcycle)
  obtain ⟨hne, hy, children, hchildren, hvalue⟩ := hxy
  show y ∈ refsOf _ x
  rw [refsOf, hchildren]
  exact hvalue.mem_structRefs rfl hne hy

theorem transGen_contains {index : TypeIndex} {a b : String} (h : TransGen (Contains index) a b) :
    TransGen (ContainsBy index .field) a b
      ∨ ∃ x y, ReflTransGen (Contains index) a x ∧ ContainsBy index .branch x y
        ∧ ReflTransGen (Contains index) y b := by
  have hedge : ∀ {a b}, Contains index a b → ContainsBy index .field a b
      ∨ ContainsBy index .branch a b := by
    rintro a b ⟨k, hk⟩
    cases k with
    | field => exact .inl hk
    | branch => exact .inr hk
  induction h with
  | single hab =>
    rcases hedge hab with hfield | hbranch
    · exact .inl (.single hfield)
    · exact .inr ⟨_, _, .refl, hbranch, .refl⟩
  | tail hac hcb ih =>
    rcases hedge hcb with hfield | hbranch
    · rcases ih with hfields | ⟨x, y, hax, hxy, hyc⟩
      · exact .inl (hfields.tail hfield)
      · exact .inr ⟨x, y, hax, hxy, hyc.tail hcb⟩
    · exact .inr ⟨_, _, hac.to_reflTransGen, hbranch, .refl⟩

/-- No class of a checked protocol contains itself by value exactly if no branch of a choice that is
given by a type leads back to the class of the choice. -/
theorem containment_acyclic_iff (h : Checked proto) :
    (∀ a, ¬TransGen (Contains (ofProtocol proto.inherit)) a a)
      ↔ ∀ a b, ContainsBy (ofProtocol proto.inherit) .branch a b →
        ¬ReflTransGen (Contains (ofProtocol proto.inherit)) b a := by
  constructor
  · intro hacyclic a b hbranch hback
    exact hacyclic a (TransGen.head' ⟨.branch, hbranch⟩ hback)
  intro hbranches a hcycle
  rcases transGen_contains hcycle with hfields | ⟨x, y, hax, hxy, hya⟩
  · exact h.accepted.fields_acyclic a hfields
  · exact hbranches x y hxy (hya.trans hax)

end

/-- A line starts at a point, and it may stop at one. -/
def lineProtocol : Protocol :=
  { name := "lines", version := "1"
    structs := [
      { attrs := { name := "Point" }, children := [.field { name := "x", bits := some 8 }] },
      { attrs := { name := "Line" }
        children := [
          .field { name := "start", typeRef := "Point" },
          .field { name := "tag", bits := some 8 },
          .choice { name := "stop", switchExpr := some (.fieldRef "tag") }
            [.mk { name := "there", typeRef := "Point", value := some "1" } [],
              .mk { name := "open", value := some "0" } []]
            none] }] }

theorem childrenOf_line {a : String} {children : List StructChild}
    (h : childrenOf (ofProtocol lineProtocol.inherit) a = some children) :
    ∃ s ∈ lineProtocol.structs, s.attrs.name = a ∧ s.children = children := by
  have hstructs : lineProtocol.inherit.structs = lineProtocol.structs := rfl
  unfold childrenOf at h
  cases hs : (ofProtocol lineProtocol.inherit).struct? a with
  | some s =>
    rw [hs] at h
    cases h
    exact ⟨s, hstructs ▸ mem_of_find?_eq_some hs, by simpa using find?_some hs, rfl⟩
  | none =>
    rw [hs] at h
    cases h

/-- A branch of the choice is a point, and a point contains nothing. -/
theorem containment_acyclic_line : Checked lineProtocol
      ∧ ContainsBy (ofProtocol lineProtocol.inherit) .branch "Line" "Point"
      ∧ ∀ a, ¬TransGen (Contains (ofProtocol lineProtocol.inherit)) a a := by
  have hchecked : Checked lineProtocol := by decide +kernel
  have hpoint : ∀ {k : RefKind} {b : String},
      ByValue k [.field { name := "x", bits := some 8 }] b → b = "" := by
    intro k b hvalue
    cases hvalue <;> simp_all
  have hbranch : ∀ {a b}, ContainsBy (ofProtocol lineProtocol.inherit) .branch a b →
      a = "Line" ∧ b = "Point" := by
    rintro a b ⟨hne, -, children, hchildren, hvalue⟩
    obtain ⟨s, hs, rfl, rfl⟩ := childrenOf_line hchildren
    simp only [lineProtocol, mem_cons, not_mem_nil, or_false] at hs
    rcases hs with rfl | rfl
    · exact absurd (hpoint hvalue) hne
    refine ⟨rfl, ?_⟩
    cases hvalue with
    | caseType hmem hcase =>
      simp at hmem
      obtain ⟨rfl, rfl, rfl⟩ := hmem
      simp at hcase
      rcases hcase with ⟨rfl, -⟩ | ⟨rfl, -⟩
      · rfl
      · exact absurd rfl hne
    | caseChildren hmem hcase hinner =>
      simp at hmem
      obtain ⟨rfl, rfl, rfl⟩ := hmem
      simp at hcase
      obtain ⟨-, rfl⟩ | ⟨-, rfl⟩ := hcase <;>
        exact absurd hinner (not_byValue_branch_of_fields (by simp))
    | struct hmem | fxBlock hmem | otherwiseType hmem | otherwiseChildren hmem => simp at hmem
  refine ⟨hchecked, ?_, (containment_acyclic_iff hchecked).2 ?_⟩
  · exact ⟨by decide, by decide, _, rfl,
      .caseType (mem_cons_of_mem _ (mem_cons_of_mem _ mem_cons_self)) mem_cons_self⟩
  · intro a b hab hback
    obtain ⟨rfl, rfl⟩ := hbranch hab
    rcases ReflTransGen.cases_head_iff.1 hback with heq | ⟨c, ⟨k, hne, -, children, hc, hvalue⟩, -⟩
    · exact absurd heq (by decide)
    · cases hc
      exact hne (hpoint hvalue)

/-- A list node: what follows the tag 1 is another node. -/
def nodeProtocol : Protocol :=
  { name := "list", version := "1"
    structs := [
      { attrs := { name := "Node" }
        children := [
          .field { name := "tag", bits := some 8 },
          .choice { name := "rest", switchExpr := some (.fieldRef "tag") }
            [.mk { name := "next", typeRef := "Node", value := some "1" } [],
              .mk { name := "last", value := some "0" } [.field { name := "sum", bits := some 8 }]]
            none] }] }

/-- The class of a node has a variant with a node as a member. -/
theorem containment_acyclic_fails : Checked nodeProtocol
      ∧ TransGen (Contains (ofProtocol nodeProtocol.inherit)) "Node" "Node" := by
  refine ⟨by decide +kernel, .single ⟨.branch, by decide, by decide, _, rfl, ?_⟩⟩
  exact .caseType (mem_cons_of_mem _ mem_cons_self) mem_cons_self

end Conduit.Bgen
