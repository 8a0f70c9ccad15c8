import Mathlib.Combinatorics.SimpleGraph.Basic
import Mathlib.Data.Set.Card
import StackBackend.Proofs.Slots.Traversal

/-!
# Graphs made by calls are simple graphs

What interferes in a graph is a simple graph: an edge is held at both of its ends, and a loop only makes a
node. For a graph that calls make, its edges are the pairs of different names that were joined, in either
order and any number of times, and its nodes are the names in the calls. Each neighbour and each node is
listed once, so the degrees and the size count them.
-/

namespace StackBackend

namespace Graph

/-- The simple graph of what interferes. -/
def view (g : Graph) : SimpleGraph String where
  Adj x y := g.interferes x y = true
  symm := by
    constructor
    intro x y joined
    rw [interferes_iff] at joined ⊢
    apply g.symm x y joined
  loopless := by
    constructor
    intro x joined
    apply g.loopless x (interferes_iff.1 joined)

theorem view_adj {g : Graph} {x y : String} :
  g.view.Adj x y ↔ g.interferes x y = true
  := Iff.rfl

/-- The pairs of names that calls join. -/
def joinedPairs (calls : List Call) : Set (Sym2 String) := {e | ∃ x y, .edge x y ∈ calls ∧ e = s(x, y)}

/-- The graph that calls make has the edges that they join. -/
theorem view_make (calls : List Call) :
  (make calls).view = SimpleGraph.fromEdgeSet (joinedPairs calls)
  := by
  ext x y
  rw [view_adj, interferes_iff, mem_neighbors_make, SimpleGraph.fromEdgeSet_adj, and_comm]
  apply and_congr_left
  intro _
  constructor
  · rintro (call | call)
    · use x, y
    · use y, x, call, Sym2.eq_swap
  · rintro ⟨z, w, call, same⟩
    obtain ⟨rfl, rfl⟩ | ⟨rfl, rfl⟩ := Sym2.eq_iff.1 same
    · left
      apply call
    · right
      apply call

/-! ### Counts -/

theorem ncard_mem_of_nodup {xs : List String} (nodup : xs.Nodup) :
  {x | x ∈ xs}.ncard = xs.length
  := by
  rw [← List.coe_toFinset, Set.ncard_coe_finset, List.toFinset_card_of_nodup nodup]

/-- The degree of a node is the number of its neighbours. -/
theorem degree_eq_ncard (g : Graph) (x : String) :
  g.degree x = (g.view.neighborSet x).ncard
  := by
  have listed : g.view.neighborSet x = {y | y ∈ (g.neighbors x).toList} := by
    ext y
    rw [SimpleGraph.mem_neighborSet, view_adj, interferes_iff, Set.mem_ofPred_eq, Std.ExtTreeSet.mem_toList]
  rw [listed, ncard_mem_of_nodup (g.nodup_neighbors x), degree, Std.ExtTreeSet.length_toList]

/-- The size of a graph is the number of its nodes. -/
theorem size_eq_ncard (g : Graph) :
  g.size = {x | g.contains x = true}.ncard
  := by
  have listed : {x | g.contains x = true} = {x | x ∈ g.nodes} := by
    ext x
    apply mem_nodes.symm
  have once : g.nodes.Nodup := Std.ExtTreeMap.nodup_keys
  rw [listed, ncard_mem_of_nodup once, size, nodes, Std.ExtTreeMap.length_keys]

/-- The neighbours of a name are listed once each. -/
theorem count_neighbors (g : Graph) (x y : String) :
  (g.neighbors x).toList.count y = if g.interferes x y = true then 1 else 0
  := by
  have listed : g.interferes x y = true ↔ y ∈ (g.neighbors x).toList := by
    rw [interferes_iff, Std.ExtTreeSet.mem_toList]
  split
  · next joined => apply List.count_eq_one_of_mem (g.nodup_neighbors x) (listed.1 joined)
  · next apart =>
      apply List.count_eq_zero_of_not_mem
      intro mem
      apply apart (listed.2 mem)

end Graph

/-- A graph that calls make is a simple graph. Two names interfere exactly when they are different and a call
joined them, in one order or the other. The nodes are the names in the calls. The neighbours of a name are the
nodes that it interferes with, listed once each; the degree is their number, and the size that of the nodes. -/
theorem make_simpleGraph (calls : List Graph.Call) :
  let g := Graph.make calls
  g.view = SimpleGraph.fromEdgeSet (Graph.joinedPairs calls)
    ∧ (∀ x y, g.interferes x y = true ↔ x ≠ y ∧ (.edge x y ∈ calls ∨ .edge y x ∈ calls))
    ∧ (∀ x, g.contains x = true ↔ ∃ call ∈ calls, x ∈ call.names)
    ∧ (∀ x y, (g.neighbors x).toList.count y = if g.interferes x y = true then 1 else 0)
    ∧ (∀ x y, y ∈ (g.neighbors x).toList → g.contains x = true ∧ g.contains y = true)
    ∧ (∀ x, g.degree x = (g.view.neighborSet x).ncard)
    ∧ g.size = {x | g.contains x = true}.ncard
  := by
  intro g
  and_intros
  · apply Graph.view_make calls
  · intro x y
    rw [Graph.interferes_iff, Graph.mem_neighbors_make]
  · intro x
    rw [Graph.contains_make, List.mem_flatMap]
  · apply g.count_neighbors
  · intro x y mem
    have joined : y ∈ g.neighbors x := Std.ExtTreeSet.mem_toList.1 mem
    use Graph.contains_of_mem_neighbors (g.symm x y joined), Graph.contains_of_mem_neighbors joined
  · apply g.degree_eq_ncard
  · apply g.size_eq_ncard

end StackBackend
