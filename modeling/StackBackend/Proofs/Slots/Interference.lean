import Mathlib.Tactic.Tauto
import Mathlib.Tactic.Use
import StackBackend.Proofs.Slots.Liveness
import StackBackend.Slots.Allocation

/-!
# What interferes

The graph of a method joins two different variables exactly when some instruction leaves both
occupied. The sets of occupied variables are joined one after another, each on the assumption that
the names it shares with the set before are joined already.
-/

namespace StackBackend

namespace Graph

variable {g : Graph} {x y z w : String}

/-! ### Nodes and edges -/

/-- A new node has no edges. -/
@[simp]
theorem mem_neighbors_addNode :
  w ∈ (g.addNode x).neighbors z ↔ w ∈ g.neighbors z
  := by
  simp only [neighbors, addNode, Adjacency.near_enter]

/-- A new node is there, with the old ones. -/
theorem contains_addNode :
  (g.addNode x).contains z = true ↔ z = x ∨ g.contains z = true
  := by
  simp [contains, addNode, Adjacency.enter, Std.ExtTreeMap.contains_insertIfNew, eq_comm (a := z)]

/-- An edge joins its ends, in both directions, and nothing else. -/
theorem mem_neighbors_addEdge :
  w ∈ (g.addEdge x y).neighbors z
    ↔ w ∈ g.neighbors z ∨ z ≠ w ∧ (z = x ∧ w = y ∨ z = y ∧ w = x)
  := by
  unfold addEdge
  split
  · next same =>
      subst same
      rw [mem_neighbors_addNode]
      constructor
      · exact .inl
      · rintro (h | ⟨different, ⟨rfl, rfl⟩ | ⟨rfl, rfl⟩⟩)
        · apply h
        · apply (different rfl).elim
        · apply (different rfl).elim
  · next different =>
      simp only [neighbors, Adjacency.mem_near_link]
      constructor
      · rintro ((h | ⟨rfl, rfl⟩) | ⟨rfl, rfl⟩)
        · left
          apply h
        · right
          use different
          left
          use rfl
        · right
          use Ne.symm different
          right
          use rfl
      · rintro (h | ⟨-, ⟨rfl, rfl⟩ | ⟨rfl, rfl⟩⟩)
        · left
          left
          apply h
        · left
          right
          use rfl
        · right
          use rfl

/-- The ends of an edge are nodes. -/
theorem contains_addEdge :
  (g.addEdge x y).contains z = true ↔ z = x ∨ z = y ∨ g.contains z = true
  := by
  unfold addEdge
  split
  · next same =>
      subst same
      rw [contains_addNode]
      tauto
  · simp only [contains, Adjacency.link, Std.ExtTreeMap.contains_insert, Bool.or_eq_true,
      Std.LawfulBEqCmp.compare_eq_iff_beq, beq_iff_eq]
    constructor <;> rintro (h | h | h) <;> simp [h]

/-! ### Joining a name to a set -/

/-- Joining a name to names gives the edges between them, and no other. -/
theorem mem_neighbors_joinAll {names : NameSet} :
  w ∈ (g.joinAll x names).neighbors z
    ↔ w ∈ g.neighbors z ∨ z ≠ w ∧ (z = x ∧ w ∈ names ∨ z ∈ names ∧ w = x)
  := by
  have gather : ∀ (ys : List String) (g : Graph),
      w ∈ (ys.foldl (fun g y => g.addEdge x y) g).neighbors z
        ↔ w ∈ g.neighbors z ∨ z ≠ w ∧ (z = x ∧ w ∈ ys ∨ z ∈ ys ∧ w = x) := by
    intro ys
    induction ys with
    | nil => simp
    | cons y ys ih =>
        intro g
        rw [List.foldl_cons, ih, mem_neighbors_addEdge, List.mem_cons, List.mem_cons]
        tauto
  rw [joinAll, gather, Std.ExtTreeSet.mem_toList, Std.ExtTreeSet.mem_toList]

/-- The names that are joined are nodes. -/
theorem contains_joinAll {names : NameSet} (mem : x ∈ names) :
  (g.joinAll x names).contains z = true ↔ z ∈ names ∨ g.contains z = true
  := by
  have gather : ∀ (ys : List String) (g : Graph),
      (ys.foldl (fun g y => g.addEdge x y) g).contains z = true
        ↔ (z = x ∧ ys ≠ [] ∨ z ∈ ys) ∨ g.contains z = true := by
    intro ys
    induction ys with
    | nil => simp
    | cons y ys ih =>
        intro g
        rw [List.foldl_cons, ih, contains_addEdge, List.mem_cons]
        simp only [ne_eq, reduceCtorEq, not_false_eq_true, and_true]
        tauto
  have first : z = x → z ∈ names := fun same => same ▸ mem
  rw [joinAll, gather, Std.ExtTreeSet.mem_toList]
  tauto

/-! ### Joining the names of sets -/

/-- The names are nodes of the graph, and any two of them are joined. -/
structure Clique (g : Graph) (s : NameSet) : Prop where
  contains : ∀ z ∈ s, g.contains z = true
  joined : ∀ z ∈ s, ∀ w ∈ s, z ≠ w → w ∈ g.neighbors z

/-- Joining several names to a set. -/
theorem mem_neighbors_joinEach {s : NameSet} (xs : List String) :
  w ∈ (xs.foldl (fun g x => g.joinAll x s) g).neighbors z
    ↔ w ∈ g.neighbors z ∨ z ≠ w ∧ (z ∈ xs ∧ w ∈ s ∨ z ∈ s ∧ w ∈ xs)
  := by
  induction xs generalizing g with
  | nil => simp
  | cons x xs ih =>
      rw [List.foldl_cons, ih, mem_neighbors_joinAll, List.mem_cons, List.mem_cons]
      tauto

theorem contains_joinEach {s : NameSet} {xs : List String} (within : ∀ x ∈ xs, x ∈ s) :
  (xs.foldl (fun g x => g.joinAll x s) g).contains z = true
    ↔ xs ≠ [] ∧ z ∈ s ∨ g.contains z = true
  := by
  induction xs generalizing g with
  | nil => simp
  | cons x xs ih =>
      rw [List.foldl_cons, ih fun y hy => within y (List.mem_cons_of_mem x hy),
        contains_joinAll (within x (List.mem_cons_self ..))]
      simp only [ne_eq, reduceCtorEq, not_false_eq_true, true_and]
      tauto

/-- One set is joined: of two of its names that the set before does not hold together it lacks
one. -/
theorem mem_neighbors_joinSet {joined s : NameSet} (clique : g.Clique joined) :
  w ∈ ((s \ joined).toList.foldl (fun g x => g.joinAll x s) g).neighbors z
    ↔ w ∈ g.neighbors z ∨ z ≠ w ∧ z ∈ s ∧ w ∈ s
  := by
  have before := clique.joined z
  simp only [mem_neighbors_joinEach, Std.ExtTreeSet.mem_toList, Std.ExtTreeSet.mem_diff_iff]
  by_cases hz : z ∈ joined
  · by_cases hw : w ∈ joined
    · have known := before hz w hw
      tauto
    · tauto
  · tauto

/-- Joining what is new of a set to the set makes all its names nodes. -/
theorem contains_joinSet {joined s : NameSet} (clique : g.Clique joined) :
  ((s \ joined).toList.foldl (fun g x => g.joinAll x s) g).contains z = true
    ↔ z ∈ s ∨ g.contains z = true
  := by
  have within : ∀ x ∈ (s \ joined).toList, x ∈ s := by
    intro x hx
    apply (Std.ExtTreeSet.mem_diff_iff.1 (Std.ExtTreeSet.mem_toList.1 hx)).1
  rw [contains_joinEach within]
  constructor
  · rintro (⟨-, hz⟩ | h)
    · left
      apply hz
    · right
      apply h
  · rintro (hz | h)
    · by_cases old : z ∈ joined
      · right
        apply clique.contains z old
      · left
        constructor
        · apply List.ne_nil_of_mem (a := z)
          rw [Std.ExtTreeSet.mem_toList, Std.ExtTreeSet.mem_diff_iff]
          use hz, old
        · apply hz
    · right
      apply h

/-- The names of a set that is joined are joined to each other: its old names were already. -/
theorem clique_joinSet {joined s : NameSet} (clique : g.Clique joined) :
  ((s \ joined).toList.foldl (fun g x => g.joinAll x s) g).Clique s
  where
  contains _ hz := (contains_joinSet clique).2 (.inl hz)
  joined _ hz _ hw different := (mem_neighbors_joinSet clique).2 (.inr ⟨different, hz, hw⟩)

/-- Joining sets one after another joins two names exactly when a set holds both. -/
theorem mem_neighbors_addCliques {joined : NameSet} {sets : List NameSet}
    (clique : g.Clique joined) :
  w ∈ (g.addCliques joined sets).neighbors z
    ↔ w ∈ g.neighbors z ∨ z ≠ w ∧ ∃ s ∈ sets, z ∈ s ∧ w ∈ s
  := by
  induction sets generalizing g joined with
  | nil => simp [addCliques]
  | cons s sets ih =>
      rw [addCliques, ih (clique_joinSet clique), mem_neighbors_joinSet clique]
      simp only [List.mem_cons, exists_eq_or_imp]
      tauto

/-- The names of the sets become nodes. -/
theorem contains_addCliques {joined : NameSet} {sets : List NameSet} (clique : g.Clique joined) :
  (g.addCliques joined sets).contains z = true
    ↔ (∃ s ∈ sets, z ∈ s) ∨ g.contains z = true
  := by
  induction sets generalizing g joined with
  | nil => simp [addCliques]
  | cons s sets ih =>
      rw [addCliques, ih (clique_joinSet clique), contains_joinSet clique]
      simp only [List.mem_cons, exists_eq_or_imp]
      apply or_left_comm.trans or_assoc.symm

theorem clique_empty (g : Graph) :
  g.Clique ∅
  where
  contains _ hz := (Std.ExtTreeSet.not_mem_empty hz).elim
  joined _ hz := (Std.ExtTreeSet.not_mem_empty hz).elim

/-- New nodes have no edges. -/
theorem mem_neighbors_addNodes (xs : List String) :
  w ∈ (xs.foldl addNode g).neighbors z ↔ w ∈ g.neighbors z
  := by
  induction xs generalizing g with
  | nil => rfl
  | cons x xs ih => rw [List.foldl_cons, ih, mem_neighbors_addNode]

theorem contains_addNodes (xs : List String) :
  (xs.foldl addNode g).contains z = true ↔ z ∈ xs ∨ g.contains z = true
  := by
  induction xs generalizing g with
  | nil => simp
  | cons x xs ih =>
      rw [List.foldl_cons, ih, contains_addNode, List.mem_cons]
      tauto

end Graph

theorem NameSet.mem_filter {s : NameSet} {p : String → Bool} {x : String} :
  x ∈ s.filter p ↔ x ∈ s ∧ p x = true
  := by
  simp [Std.ExtTreeSet.mem_filter]

namespace Method

variable {m : Method} {live : Liveness} {z w : String}

/-- Two variables are joined exactly when they are different, both take a slot, and some instruction
leaves both occupied. -/
theorem mem_neighbors_interference :
  w ∈ (m.interference live).neighbors z
    ↔ z ≠ w ∧ m.vars.takesSlot z = true ∧ m.vars.takesSlot w = true
      ∧ ∃ alive ∈ live.occupiedSets, z ∈ alive ∧ w ∈ alive
  := by
  rw [interference, Graph.mem_neighbors_addCliques (Graph.clique_empty _),
    Graph.mem_neighbors_addNodes]
  have none : w ∉ Graph.empty.neighbors z := by
    simp [Graph.neighbors, Graph.empty, Adjacency.near]
  simp only [none, false_or, List.mem_map, exists_exists_and_eq_and, NameSet.mem_filter]
  constructor
  · rintro ⟨different, alive, mem, ⟨hz, slot⟩, hw, slot'⟩
    constructor
    · apply different
    · use slot, slot', alive, mem, hz, hw
  · rintro ⟨different, slot, slot', alive, mem, hz, hw⟩
    exact ⟨different, alive, mem, ⟨hz, slot⟩, hw, slot'⟩

/-- The nodes are the variables that take a slot and are in the table or occupied somewhere. -/
theorem contains_interference :
  (m.interference live).contains z = true
    ↔ m.vars.takesSlot z = true ∧ (z ∈ m.vars ∨ ∃ alive ∈ live.occupiedSets, z ∈ alive)
  := by
  rw [interference, Graph.contains_addCliques (Graph.clique_empty _), Graph.contains_addNodes]
  have none : Graph.empty.contains z = false := by
    simp [Graph.contains, Graph.empty]
  simp only [none, Bool.false_eq_true, or_false, List.mem_map, exists_exists_and_eq_and,
    NameSet.mem_filter, List.mem_filter, Std.ExtTreeMap.mem_keys]
  constructor
  · rintro (⟨alive, mem, hz, slot⟩ | ⟨hz, slot⟩)
    · use slot
      right
      use alive, mem, hz
    · use slot, .inl hz
  · rintro ⟨slot, hz | ⟨alive, mem, hz⟩⟩
    · right
      use hz, slot
    · left
      use alive, mem, hz, slot

/-- What is occupied after an instruction is written by it or found after it. -/
theorem getElem?_occupiedSets (m : Method) (i : Nat) :
  m.liveness.occupiedSets[i]? = m.body[i]?.map fun instr => instr.defs ∪ m.liveness.sets.afterAt i
  := by
  have nodes : m.liveness.nodes = m.flowNodes := rfl
  simp only [Liveness.occupiedSets, List.getElem?_mapIdx, nodes, getElem?_flowNodes, Option.map_map,
    Function.comp_def, Liveness.occupied]

/-- The sets that occupy slots together: what an instruction defines and what is live after it. -/
theorem exists_occupiedSets {p : NameSet → Prop} :
  (∃ alive ∈ m.liveness.occupiedSets, p alive)
    ↔ ∃ i instr, m.body[i]? = some instr ∧ p (instr.defs ∪ m.liveness.sets.afterAt i)
  := by
  simp only [List.mem_iff_getElem?, getElem?_occupiedSets, Option.map_eq_some_iff]
  constructor
  · rintro ⟨alive, ⟨i, instr, at_i, rfl⟩, holds⟩
    use i, instr, at_i, holds
  · rintro ⟨i, instr, at_i, holds⟩
    exact ⟨_, ⟨i, instr, at_i, rfl⟩, holds⟩

/-- A variable that an instruction writes interferes with the others that are live after it. -/
theorem interferes_of_liveAt {i j : Nat} {instr : Instr} (at_i : m.body[i]? = some instr)
    (written : z ∈ instr.defs) (next : j ∈ m.successorsOf instr i)
    (alive : LiveAt m.flowNodes w j) (different : z ≠ w) (slot : m.vars.takesSlot z = true)
    (slot' : m.vars.takesSlot w = true) :
  w ∈ (m.interference m.liveness).neighbors z
  := by
  apply mem_neighbors_interference.2
  use different, slot, slot', instr.defs ∪ m.liveness.sets.afterAt i
  and_intros
  · apply List.mem_of_getElem? (i := i)
    rw [getElem?_occupiedSets, at_i, Option.map_some]
  · apply Std.ExtTreeSet.mem_union_iff.2 (.inl written)
  · apply Std.ExtTreeSet.mem_union_iff.2 (.inr _)
    apply (mem_livenessInOrder_after m.mem_reverse_range_body at_i).2
    use j, next, alive

end Method

/-- Two variables interfere exactly when they are different, neither is a field, and some instruction writes
or leaves live both of them. The graph is simple, and its nodes are the variables other than fields that are in
the table or that some instruction writes or leaves live. -/
theorem interference_iff_occupied_together (m : Method) :
  (∀ x y, (m.interference m.liveness).interferes x y = true ↔
      x ≠ y ∧ (∀ v, m.vars[x]? = some v → v.scope ≠ .field) ∧ (∀ v, m.vars[y]? = some v → v.scope ≠ .field)
        ∧ ∃ i instr, m.body[i]? = some instr
          ∧ x ∈ instr.defs ∪ m.liveness.sets.afterAt i ∧ y ∈ instr.defs ∪ m.liveness.sets.afterAt i)
    ∧ (∀ x y, (m.interference m.liveness).interferes x y = (m.interference m.liveness).interferes y x)
    ∧ (∀ x, (m.interference m.liveness).interferes x x = false)
    ∧ ∀ x, x ∈ (m.interference m.liveness).nodes ↔
      (∀ v, m.vars[x]? = some v → v.scope ≠ .field)
        ∧ (x ∈ m.vars ∨ ∃ i instr, m.body[i]? = some instr ∧ x ∈ instr.defs ∪ m.liveness.sets.afterAt i)
  := by
  and_intros
  · intro x y
    rw [Graph.interferes_iff, Method.mem_neighbors_interference, Method.exists_occupiedSets,
      VarTable.takesSlot_iff, VarTable.takesSlot_iff]
  · intro x y
    rw [Bool.eq_iff_iff, Graph.interferes_iff, Graph.interferes_iff]
    use Graph.symm _ x y, Graph.symm _ y x
  · intro x
    rw [Bool.eq_false_iff, Ne, Graph.interferes_iff]
    apply Graph.loopless _ x
  · intro x
    rw [Graph.mem_nodes, Method.contains_interference, Method.exists_occupiedSets, VarTable.takesSlot_iff]

end StackBackend
