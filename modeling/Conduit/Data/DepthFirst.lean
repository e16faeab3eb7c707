import Conduit.Data.Recursion

/-!
# Depth-first search for cycles

A search from a node visits what its edges lead to, and reports an edge that leads back to a node it
is still searching from. It visits every node once, so the number of nodes that are not visited yet
bounds how deep it goes. If it reports nothing, the nodes it has finished lead to finished nodes
only and to no cycle.
-/

namespace Conduit.Data

open List

open Relation (ReflTransGen TransGen)

/-- A search that starts at a node: the nodes it is made from, and those that were visited. -/
structure Visit (α : Type) where
  stack : List α
  node : α
  visited : List α

/-- What was reported, and the nodes visited. -/
structure Found (ε α : Type) where
  errors : List ε := []
  visited : List α := []

namespace DepthFirst

variable {α ε : Type}

section

variable [DecidableEq α] (succ : α → List α) (report : α → α → ε)

/-- One edge of a node. -/
def follow (stack : List α) (node : α) (found : Found ε α) (next : α) :
    Proc (Visit α) (Found ε α) (Found ε α) :=
  if next ∈ node :: stack then
    .ret { found with errors := found.errors ++ [report node next] }
  else if next ∈ found.visited then .ret found
  else
    .call ⟨node :: stack, next, found.visited⟩ fun more =>
      .ret { errors := found.errors ++ more.errors, visited := more.visited }

/-- The edges of a node in order. -/
def body (v : Visit α) : Proc (Visit α) (Found ε α) (Found ε α) :=
  (succ v.node).foldlM (follow report v.stack v.node) { visited := v.node :: v.visited }

theorem body_eq (v : Visit α) : body succ report v
      = (succ v.node).foldlM (follow report v.stack v.node) { visited := v.node :: v.visited } :=
  rfl

theorem run_follow {f : Visit α → Option (Found ε α)} {stack : List α} {node next : α}
    {found found' : Found ε α} (h : (follow report stack node found next).run f = some found') :
    (next ∈ node :: stack ∧ found' = { found with errors := found.errors ++ [report node next] })
      ∨ (next ∉ node :: stack ∧ next ∈ found.visited ∧ found' = found)
      ∨ (next ∉ node :: stack ∧ next ∉ found.visited
        ∧ ∃ more, f ⟨node :: stack, next, found.visited⟩ = some more
          ∧ found' = { errors := found.errors ++ more.errors, visited := more.visited }) := by
  unfold follow at h
  split_ifs at h with hstack hvisited
  · exact .inl ⟨hstack, (Option.some.inj h).symm⟩
  · exact .inr (.inl ⟨hstack, hvisited, (Option.some.inj h).symm⟩)
  cases hmore : f ⟨node :: stack, next, found.visited⟩ with
  | none => simp only [Proc.run, hmore, reduceCtorEq] at h
  | some more =>
    rw [Proc.run_call hmore] at h
    exact .inr (.inr ⟨hstack, hvisited, more, rfl, (Option.some.inj h).symm⟩)

/-- A search from a node, if it was not visited yet. -/
def start (found : Found ε α) (node : α) : Proc (Visit α) (Found ε α) (Found ε α) :=
  if node ∈ found.visited then .ret found
  else
    .call ⟨[], node, found.visited⟩ fun more =>
      .ret { errors := found.errors ++ more.errors, visited := more.visited }

theorem run_start {f : Visit α → Option (Found ε α)} {node : α} {found found' : Found ε α}
    (h : (start found node).run f = some found') : (node ∈ found.visited ∧ found' = found)
      ∨ (node ∉ found.visited ∧ ∃ more, f ⟨[], node, found.visited⟩ = some more
          ∧ found' = { errors := found.errors ++ more.errors, visited := more.visited }) := by
  unfold start at h
  split_ifs at h with hvisited
  · exact .inl ⟨hvisited, (Option.some.inj h).symm⟩
  cases hmore : f ⟨[], node, found.visited⟩ with
  | none => simp only [Proc.run, hmore, reduceCtorEq] at h
  | some more =>
    rw [Proc.run_call hmore] at h
    exact .inr ⟨hvisited, more, rfl, (Option.some.inj h).symm⟩

/-- Searches from all nodes. -/
def search (nodes : List α) : Proc (Visit α) (Found ε α) (Found ε α) := nodes.foldlM start {}

end

/-! ## What a search leaves behind -/

variable (succ : α → List α)

/-- The edges. -/
def Edge (a b : α) : Prop := b ∈ succ a

/-- The visited nodes from which the search has come back lead to each other only, and to no
cycle. -/
structure Finished (stack visited : List α) : Prop where
  closed : ∀ a ∈ visited, a ∉ stack → ∀ b ∈ succ a, b ∈ visited ∧ b ∉ stack
  acyclic : ∀ a ∈ visited, a ∉ stack → ¬TransGen (Edge succ) a a

variable {succ}

theorem Finished.reaches {stack visited : List α} (h : Finished succ stack visited) {a b : α}
    (ha : a ∈ visited) (hstack : a ∉ stack) (hreach : ReflTransGen (Edge succ) a b) :
    b ∈ visited ∧ b ∉ stack := by
  induction hreach with
  | refl => exact ⟨ha, hstack⟩
  | tail _ hedge ih => exact h.closed _ ih.1 ih.2 _ hedge

theorem Finished.pop {stack visited : List α} {node : α} (h : Finished succ (node :: stack) visited)
    (hedges : ∀ b ∈ succ node, b ∈ visited ∧ b ∉ node :: stack) : Finished succ stack visited := by
  have hother : ∀ a, a ∉ stack → a ≠ node → a ∉ node :: stack := by
    intro a hstack hne
    rw [mem_cons, not_or]
    exact ⟨hne, hstack⟩
  constructor
  · intro a ha hstack b hb
    rcases eq_or_ne a node with rfl | hne
    · obtain ⟨hvisited, hb⟩ := hedges b hb
      exact ⟨hvisited, fun hmem => hb (mem_cons_of_mem _ hmem)⟩
    · obtain ⟨hvisited, hb⟩ := h.closed a ha (hother a hstack hne) b hb
      exact ⟨hvisited, fun hmem => hb (mem_cons_of_mem _ hmem)⟩
  intro a ha hstack hcycle
  rcases eq_or_ne a node with rfl | hne
  · -- the first edge leads to a finished node, and from there nothing leads back
    obtain ⟨b, hedge, hback⟩ := TransGen.head'_iff.1 hcycle
    obtain ⟨hvisited, hb⟩ := hedges b hedge
    exact (h.reaches hvisited hb hback).2 mem_cons_self
  · exact h.acyclic a ha (hother a hstack hne) hcycle

/-- What holds before a search: it is made from nodes that were visited, and starts at another
one. -/
structure Pre (nodes : List α) (v : Visit α) : Prop where
  node : v.node ∈ nodes
  fresh : v.node ∉ v.visited
  stack : v.stack ⊆ v.visited

/-- What holds after it. -/
structure Post (succ : α → List α) (v : Visit α) (found : Found ε α) : Prop where
  visited : v.visited ⊆ found.visited
  node : v.node ∈ found.visited
  finished : found.errors = [] → Finished succ v.stack v.visited →
    Finished succ v.stack found.visited

/-- What holds between two edges of a node. -/
structure Between (succ : α → List α) (v : Visit α) (done : List α) (found : Found ε α) : Prop where
  visited : v.visited ⊆ found.visited
  node : v.node ∈ found.visited
  finished : found.errors = [] → Finished succ v.stack v.visited →
    Finished succ (v.node :: v.stack) found.visited
      ∧ ∀ b ∈ done, b ∈ found.visited ∧ b ∉ v.node :: v.stack

theorem Between.edge {v : Visit α} {done : List α} {found : Found ε α} {next : α}
    (h : Between succ v done found) (hvisited : next ∈ found.visited)
    (hstack : next ∉ v.node :: v.stack) : Between succ v (done ++ [next]) found := by
  refine ⟨h.visited, h.node, fun herrors hbefore => ?_⟩
  obtain ⟨hfinished, hdone⟩ := h.finished herrors hbefore
  refine ⟨hfinished, fun b hb => ?_⟩
  rcases mem_append.1 hb with hb | hb
  · exact hdone b hb
  obtain rfl := mem_singleton.1 hb
  exact ⟨hvisited, hstack⟩

/-- What holds between two searches. -/
structure Searched (succ : α → List α) (done : List α) (found : Found ε α) : Prop where
  visited : ∀ a ∈ done, a ∈ found.visited
  finished : found.errors = [] → Finished succ [] found.visited

theorem Searched.acyclic {nodes : List α} {found : Found ε α} (h : Searched succ nodes found)
    (herrors : found.errors = []) {a : α} (ha : a ∈ nodes) : ¬TransGen (Edge succ) a a :=
  (h.finished herrors).acyclic a (h.visited a ha) not_mem_nil

/-! ## Searches -/

variable [DecidableEq α] {report : α → α → ε} {nodes : List α} {v : Visit α}

/-- The nodes that are not visited yet. -/
def unvisited (nodes : List α) (v : Visit α) : Nat := (nodes.filter (· ∉ v.visited)).length

theorem unvisited_lt {w : Visit α} (hnode : v.node ∈ nodes) (hfresh : v.node ∉ v.visited)
    (hvisited : v.visited ⊆ w.visited) (hnode' : v.node ∈ w.visited) :
    unvisited nodes w < unvisited nodes v := by
  have hfilter : nodes.filter (· ∉ w.visited)
      = (nodes.filter (· ∉ v.visited)).filter (· ∉ w.visited) := by
    rw [filter_filter]
    refine filter_congr fun a _ => ?_
    by_cases ha : a ∈ v.visited
    · simp [hvisited ha]
    · simp [ha]
  unfold unvisited
  rw [hfilter]
  exact length_filter_lt_length_iff_exists.2
    ⟨v.node, mem_filter.2 ⟨hnode, by simpa using hfresh⟩, by simpa using hnode'⟩

theorem sat_follow (hv : Pre nodes v) {done : List α} {found : Found ε α} {next : α}
    (hnext : next ∈ nodes) (h : Between succ v done found) :
    (follow report v.stack v.node found next).Sat
      (fun w => Pre nodes w ∧ unvisited nodes w < unvisited nodes v) (Post succ)
      (Between succ v (done ++ [next])) := by
  unfold follow
  split_ifs with hstack hvisited
  · refine ⟨h.visited, h.node, fun herrors => ?_⟩
    simp at herrors
  · exact h.edge hvisited hstack
  refine ⟨⟨⟨hnext, hvisited, ?_⟩, unvisited_lt hv.node hv.fresh h.visited h.node⟩, ?_⟩
  · exact cons_subset.2 ⟨h.node, Subset.trans hv.stack h.visited⟩
  intro more hmore
  have hafter : Between succ v done
      { errors := found.errors ++ more.errors, visited := more.visited } := by
    refine ⟨Subset.trans h.visited hmore.visited, hmore.visited h.node, ?_⟩
    intro herrors hbefore
    obtain ⟨hfound, hmoreErrors⟩ := append_eq_nil_iff.1 herrors
    obtain ⟨hfinished, hdone⟩ := h.finished hfound hbefore
    exact ⟨hmore.finished hmoreErrors hfinished, fun b hb =>
      ⟨hmore.visited (hdone b hb).1, (hdone b hb).2⟩⟩
  exact hafter.edge hmore.node hstack

variable (hnodes : ∀ a ∈ nodes, ∀ b ∈ succ a, b ∈ nodes)

include hnodes

theorem sat_body (hv : Pre nodes v) :
    (body succ report v).Sat (fun w => Pre nodes w ∧ unvisited nodes w < unvisited nodes v)
      (Post succ) (Post succ v) := by
  have hloop : (body succ report v).Sat
      (fun w => Pre nodes w ∧ unvisited nodes w < unvisited nodes v) (Post succ)
      (Between succ v (succ v.node)) := by
    refine Proc.sat_foldlM (succ v.node) (fun done next found hdone h => ?_) ?_
    · refine sat_follow hv (hnodes v.node hv.node next (hdone.subset ?_)) h
      exact mem_append_right _ mem_cons_self
    refine ⟨subset_cons_self _ _, mem_cons_self, fun _ hbefore => ⟨?_, by simp⟩⟩
    -- the node itself is not finished, and the others were finished before
    have hold : ∀ a ∈ v.node :: v.visited, a ∉ v.node :: v.stack → a ∈ v.visited ∧ a ∉ v.stack := by
      intro a ha hstack
      rw [mem_cons, not_or] at hstack
      exact ⟨mem_of_ne_of_mem hstack.1 ha, hstack.2⟩
    constructor
    · intro a ha hstack b hb
      obtain ⟨ha, hstack⟩ := hold a ha hstack
      obtain ⟨hvisited, hb⟩ := hbefore.closed a ha hstack b hb
      refine ⟨mem_cons_of_mem _ hvisited, ?_⟩
      rw [mem_cons, not_or]
      exact ⟨fun heq => hv.fresh (heq ▸ hvisited), hb⟩
    · intro a ha hstack
      obtain ⟨ha, hstack⟩ := hold a ha hstack
      exact hbefore.acyclic a ha hstack
  refine hloop.imp fun found h => ⟨h.visited, h.node, fun herrors hbefore => ?_⟩
  obtain ⟨hfinished, hedges⟩ := h.finished herrors hbefore
  exact hfinished.pop hedges

/-- A search from a node comes back within as many nested calls as there are nodes. -/
theorem fix_body (hv : Pre nodes v) {depth : Nat} (hdepth : nodes.length < depth) :
    ∃ found, Proc.fix (body succ report) depth v = some found ∧ Post succ v found :=
  Proc.fix_total (unvisited nodes) (fun _ hw => sat_body hnodes hw) v hv
    ((length_filter_le _ _).trans_lt hdepth)

theorem run_search {depth : Nat} (hdepth : nodes.length < depth) :
    ∃ found, (search nodes).run (Proc.fix (body succ report) depth) = some found
      ∧ Searched succ nodes found := by
  refine Proc.run_of_sat (fun v hv => fix_body hnodes hv hdepth) ?_
  refine Proc.sat_foldlM nodes (fun done node found hdone h => ?_) ?_
  · have hafter : ∀ more : Found ε α, found.visited ⊆ more.visited → node ∈ more.visited →
        ∀ a ∈ done ++ [node], a ∈ more.visited := by
      intro more hvisited hnode a ha
      rcases mem_append.1 ha with ha | ha
      · exact hvisited (h.visited a ha)
      obtain rfl := mem_singleton.1 ha
      exact hnode
    unfold start
    split_ifs with hvisited
    · exact ⟨hafter found (Subset.refl _) hvisited, h.finished⟩
    refine ⟨⟨hdone.subset (mem_append_right _ mem_cons_self), hvisited,
      nil_subset _⟩, fun more hmore => ⟨hafter _ hmore.visited hmore.node, ?_⟩⟩
    intro herrors
    obtain ⟨hfound, hmoreErrors⟩ := append_eq_nil_iff.1 herrors
    exact hmore.finished hmoreErrors (h.finished hfound)
  · exact ⟨by simp, fun _ => ⟨by simp, by simp⟩⟩

end DepthFirst

end Conduit.Data
