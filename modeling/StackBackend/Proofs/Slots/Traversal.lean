import StackBackend.Proofs.Slots.Repetition
import StackBackend.Proofs.Slots.Simplification

/-!
# Colorings do not depend on orders

A graph is made by calls, and a table is filled by entries, in some order. The nodes, the neighbours of a
node and the entries of a table may then be gone through in any order. The node to take out is chosen from
a row of names that is sorted, and the slots that are taken at a node are the same in whatever order its
neighbours are asked. So a coloring comes out the same: it is that of the graph and the table as such.
-/

namespace StackBackend

/-! ### Calls -/

/-- A step in the making of a graph. -/
inductive Graph.Call where
  | node (x : String)
  | edge (x y : String)
deriving DecidableEq

namespace Graph

namespace Call

/-- The graph after a call. -/
def apply (g : Graph) : Call → Graph
  | node x => g.addNode x
  | edge x y => g.addEdge x y

/-- The names that a call makes nodes. -/
def names : Call → List String
  | node x => [x]
  | edge x y => [x, y]

end Call

/-- The graph that calls make, one after the other. -/
def make (calls : List Call) : Graph := calls.foldl Call.apply empty

/-- Calls for the same nodes and the same edges between different nodes. -/
structure SameCalls (calls calls' : List Call) : Prop where
  nodes : ∀ x, x ∈ calls.flatMap Call.names ↔ x ∈ calls'.flatMap Call.names
  edges : ∀ x y, x ≠ y →
    (.edge x y ∈ calls ∨ .edge y x ∈ calls ↔ .edge x y ∈ calls' ∨ .edge y x ∈ calls')

variable {calls calls' : List Call} {x y : String}

/-- The nodes of a graph are the names of its calls. -/
theorem contains_make :
  (make calls).contains x = true ↔ x ∈ calls.flatMap Call.names
  := by
  have after (g : Graph) :
      (calls.foldl Call.apply g).contains x = true
        ↔ x ∈ calls.flatMap Call.names ∨ g.contains x = true := by
    induction calls generalizing g with
    | nil => simp
    | cons call calls ih =>
        rw [List.foldl_cons, ih, List.flatMap_cons, List.mem_append]
        cases call with
        | node z =>
            rw [Call.apply, contains_addNode, Call.names, List.mem_singleton]
            grind
        | edge z w =>
            rw [Call.apply, contains_addEdge, Call.names]
            grind
  rw [make, after]
  simp [empty, contains]

/-- Its edges are the pairs that calls join. -/
theorem mem_neighbors_make :
  y ∈ (make calls).neighbors x ↔ x ≠ y ∧ (.edge x y ∈ calls ∨ .edge y x ∈ calls)
  := by
  have after (g : Graph) :
      y ∈ (calls.foldl Call.apply g).neighbors x
        ↔ (x ≠ y ∧ (.edge x y ∈ calls ∨ .edge y x ∈ calls)) ∨ y ∈ g.neighbors x := by
    induction calls generalizing g with
    | nil => simp
    | cons call calls ih =>
        rw [List.foldl_cons, ih]
        cases call with
        | node z =>
            rw [Call.apply, mem_neighbors_addNode]
            simp
        | edge z w =>
            rw [Call.apply, mem_neighbors_addEdge]
            simp only [List.mem_cons, Call.edge.injEq]
            grind
  rw [make, after]
  simp [empty, neighbors, Adjacency.near]

/-- Calls in another order, repeated or turned around make the same graph. -/
theorem make_eq_of_sameCalls (same : SameCalls calls calls') :
  make calls = make calls'
  := by
  apply Graph.ext
  · intro x
    rw [contains_make, contains_make, same.nodes]
  · intro x y
    rw [mem_neighbors_make, mem_neighbors_make]
    apply and_congr_right (same.edges x y)

end Graph

/-- The table that entries fill, one after the other. -/
def VarTable.fill (entries : List (String × Variable)) : VarTable :=
  entries.foldl (fun vars e => vars.insert e.1 e.2) ∅

/-! ### Orders -/

/-- Orders in which the nodes of a graph, the neighbours of each node and the entries of a table are gone
through. -/
structure Traversal (g : Graph) (vars : VarTable) where
  nodes : List String
  near : String → List String
  entries : List (String × Variable)
  nodes_perm : nodes.Perm g.nodes
  near_perm : ∀ x, (near x).Perm (g.neighbors x).toList
  entries_perm : entries.Perm vars.toList

namespace Traversal

variable {g : Graph} {vars : VarTable}

/-- The opposite of the order of names. -/
def backward (g : Graph) (vars : VarTable) : Traversal g vars where
  nodes := g.nodes.reverse
  near x := (g.neighbors x).toList.reverse
  entries := vars.toList.reverse
  nodes_perm := List.reverse_perm _
  near_perm _ := List.reverse_perm _
  entries_perm := List.reverse_perm _

/-- The first slot after those of pinned variables. -/
def offset (t : Traversal g vars) : Nat :=
  ((t.entries.filter (·.2.isPinned)).map (·.2.slot + 1)).foldl max 0

/-- The nodes that are not pinned, sorted. -/
def working (t : Traversal g vars) : List String :=
  (t.nodes.filter fun x => (vars.pinnedSlot? x).isNone).mergeSort fun x y => (compare x y).isLE

/-- The numbers of neighbours of the nodes that are not pinned. -/
def degrees (t : Traversal g vars) : NameMap Nat :=
  .ofList (t.working.map fun x => (x, (t.near x).length))

/-- The numbers of neighbours that are left when `y` is taken out. -/
def lower (t : Traversal g vars) (degrees : NameMap Nat) (y : String) : NameMap Nat :=
  ((t.near y).foldl (fun degrees x => degrees.modify x (· - 1)) degrees).erase y

/-- A node with its number of neighbours. -/
def candidate (degrees : NameMap Nat) (x : String) : Candidate := ⟨x, degrees[x]?.getD 0⟩

/-- The node to take out next. -/
def pick (degrees : NameMap Nat) (k : Nat) (x : String) (xs : List String) : String :=
  (nextOut k (candidate degrees x) (xs.map (candidate degrees))).name

/-- The candidate that is taken out is that of the name that is picked. -/
theorem nextOut_eq_candidate (degrees : NameMap Nat) (k : Nat) (x : String) (xs : List String) :
  pick degrees k x xs ∈ x :: xs
    ∧ nextOut k (candidate degrees x) (xs.map (candidate degrees)) = candidate degrees (pick degrees k x xs)
  := by
  have mem := nextOut_mem k (candidate degrees x) (xs.map (candidate degrees))
  rw [← List.map_cons, List.mem_map] at mem
  obtain ⟨y, listed, same⟩ := mem
  have named : pick degrees k x xs = y := by rw [pick, ← same, candidate]
  rw [named]
  use listed, same.symm

/-- Takes nodes out one by one and puts them on a stack. -/
def simplify (t : Traversal g vars) (k : Nat) (degrees : NameMap Nat) (stack : List String) :
    List String → List String
  | [] => stack
  | x :: xs =>
      let y := pick degrees k x xs
      t.simplify k (t.lower degrees y) (y :: stack) ((x :: xs).erase y)
termination_by working => working.length
decreasing_by
  rw [List.length_erase_of_mem (nextOut_eq_candidate degrees k x xs).1]
  simp

/-- Slots in the making: those of all nodes so far, pinned ones as well, and the coloring. -/
structure Selection where
  colors : NameMap Nat
  coloring : Coloring

/-- The slots of the pinned nodes. -/
def colors (t : Traversal g vars) : NameMap Nat :=
  .ofList ((t.entries.filter fun e => e.2.isPinned && g.contains e.1).map fun e => (e.1, e.2.slot))

/-- Gives `x` the least slot that no neighbour has. -/
def select (t : Traversal g vars) (k : Nat) (s : Selection) (x : String) : Selection :=
  let taken := (t.near x).filterMap fun y => s.colors[y]?
  let j := leastFrom (fun j => s.coloring.offset + j ∉ taken) 0 taken.length
  { colors := s.colors.insert x (s.coloring.offset + j)
    coloring :=
      { s.coloring with
        slots := s.coloring.slots.insert x (s.coloring.offset + j)
        needed := max s.coloring.needed (j + 1)
        spilled := if j < k then s.coloring.spilled else s.coloring.spilled ++ [x] } }

/-- The slots that the nodes are given as they are gone through in these orders. -/
def color (t : Traversal g vars) (k : Nat) : Coloring :=
  ((t.simplify k t.degrees [] t.working).foldl (t.select k) ⟨t.colors, ⟨∅, t.offset, 0, []⟩⟩).coloring

/-! ### Taking nodes out -/

/-- The first slot of a traversal is the first free one. -/
theorem offset_eq (t : Traversal g vars) :
  t.offset = vars.firstFree
  := by
  apply ((t.entries_perm.filter _).map _).foldl_eq'
  intro x _ y _ z
  omega

/-- Sorting gives the order of names, in whatever order the nodes come. -/
theorem working_eq (t : Traversal g vars) :
  t.working = g.nodes.filter fun x => (vars.pinnedSlot? x).isNone
  := by
  have sorted : t.working.Pairwise fun x y => (compare x y).isLE = true := by
    apply List.pairwise_mergeSort
    · intro x y z
      apply Std.TransCmp.isLE_trans
    · intro x y
      have swapped : compare y x = (compare x y).swap := Std.OrientedCmp.eq_swap
      rw [swapped]
      cases compare x y <;> rfl
  have ordered : (g.nodes.filter fun x => (vars.pinnedSlot? x).isNone).Pairwise
      fun x y => (compare x y).isLE = true := by
    apply List.Pairwise.filter
    apply Std.ExtTreeMap.ordered_keys.imp
    intro x y lt
    rw [lt]
    rfl
  apply List.Perm.eq_of_pairwise _ sorted ordered
  · apply (List.mergeSort_perm _ _).trans (t.nodes_perm.filter _)
  · intro x y _ _ le le'
    apply Std.LawfulEqCmp.eq_of_compare (Std.OrientedCmp.isLE_antisymm le le')

/-- A node that is left has its degree. -/
theorem getElem?_degrees (t : Traversal g vars) {x : String} (listed : x ∈ t.working) :
  t.degrees[x]? = some (g.degree x)
  := by
  have size : (t.near x).length = g.degree x := by
    rw [Graph.degree, ← Std.ExtTreeSet.length_toList, (t.near_perm x).length_eq]
  rw [← size]
  apply Std.ExtTreeMap.getElem?_ofList_of_mem Std.ReflCmp.compare_self
  · rw [List.pairwise_map, working_eq]
    apply (Std.ExtTreeMap.distinct_keys (t := g.adjacent)).filter _
  · apply List.mem_map_of_mem (f := fun x => (x, (t.near x).length)) listed

/-- When `y` is taken out, its neighbours have one less, in whatever order they are gone through. -/
theorem candidate_lower (t : Traversal g vars) (degrees : NameMap Nat) {x y : String} (other : y ≠ x) :
  candidate (t.lower degrees y) x = (candidate degrees x).without g y
  := by
  have walk (zs : List String) (once : zs.Nodup) (degrees : NameMap Nat) :
      (zs.foldl (fun degrees z => degrees.modify z (· - 1)) degrees)[x]?
        = if x ∈ zs then degrees[x]?.map (· - 1) else degrees[x]? := by
    induction zs generalizing degrees with
    | nil => simp
    | cons z zs ih =>
        obtain ⟨absent, once⟩ := List.nodup_cons.1 once
        simp only [List.foldl_cons, ih once, Std.ExtTreeMap.getElem?_modify, Std.compare_eq_iff_eq]
        by_cases same : z = x
        · subst same
          simp [absent]
        · simp [same, Ne.symm same]
  have near : x ∈ t.near y ↔ g.interferes y x = true := by
    rw [(t.near_perm y).mem_iff, Std.ExtTreeSet.mem_toList, Graph.interferes_iff]
  have once : (t.near y).Nodup := (t.near_perm y).nodup_iff.2 (g.nodup_neighbors y)
  rw [candidate, lower, Std.ExtTreeMap.getElem?_erase, if_neg (by simpa using other), walk _ once,
    Candidate.without]
  by_cases joined : g.interferes y x = true
  · rw [if_pos (near.2 joined)]
    cases entry : degrees[x]? <;> simp [candidate, joined, entry]
  · rw [if_neg (mt near.1 joined)]
    simp [candidate, joined]

/-- The nodes are taken out in the same order as by name. -/
theorem simplify_eq (t : Traversal g vars) (k : Nat) (degrees : NameMap Nat) (stack left : List String)
    (once : left.Nodup) :
  t.simplify k degrees stack left = (g.eliminate k (left.map (candidate degrees))).reverse ++ stack
  := by
  fun_induction simplify t k degrees stack left with
  | case1 => rw [List.map_nil, Graph.eliminate, List.reverse_nil, List.nil_append]
  | case2 degrees stack x xs y ih =>
      obtain ⟨listed, next⟩ := nextOut_eq_candidate degrees k x xs
      have injective : Function.Injective (candidate degrees) := fun _ _ same => congrArg Candidate.name same
      have left : ((x :: xs).erase y).map (candidate (t.lower degrees y))
          = (((x :: xs).map (candidate degrees)).erase (candidate degrees y)).map (Candidate.without g y) := by
        rw [← List.map_erase injective, List.map_map]
        apply List.map_congr_left
        intro z mem
        apply candidate_lower
        rintro rfl
        apply (once.mem_erase_iff.1 mem).1 rfl
      rw [ih (once.erase y), List.map_cons, Graph.eliminate, next, left, List.map_cons]
      simp [candidate, y]

/-! ### Giving slots -/

/-- At the start the pinned slots are given. -/
theorem getElem?_colors (t : Traversal g vars) {y : String} (node : g.contains y = true) :
  t.colors[y]? = vars.pinnedSlot? y
  := by
  have mem_iff (n : Nat) : (y, n) ∈ (t.entries.filter fun e => e.2.isPinned && g.contains e.1).map
      (fun e => (e.1, e.2.slot)) ↔ vars.pinnedSlot? y = some n := by
    rw [VarTable.pinnedSlot?_eq_some, List.mem_map]
    simp only [List.mem_filter, t.entries_perm.mem_iff, Bool.and_eq_true, Prod.mk.injEq]
    constructor
    · rintro ⟨⟨x, v⟩, ⟨entry, pinned, -⟩, rfl, rfl⟩
      use v
      and_intros
      · apply Std.ExtTreeMap.mem_toList_iff_getElem?_eq_some.1 entry
      · apply pinned
      · rfl
    · rintro ⟨v, entry, pinned, rfl⟩
      exact ⟨(y, v), ⟨Std.ExtTreeMap.mem_toList_iff_getElem?_eq_some.2 entry, pinned, node⟩, rfl, rfl⟩
  have distinct : ((t.entries.filter fun e => e.2.isPinned && g.contains e.1).map
      (fun e => (e.1, e.2.slot))).Pairwise fun a b => ¬ compare a.1 b.1 = .eq := by
    rw [List.pairwise_map]
    apply List.Pairwise.filter
    rw [t.entries_perm.pairwise_iff]
    · apply Std.ExtTreeMap.distinct_keys_toList
    · intro a b different same
      apply different (Std.OrientedCmp.eq_symm same)
  cases pinned : vars.pinnedSlot? y with
  | some n =>
      apply Std.ExtTreeMap.getElem?_ofList_of_mem Std.ReflCmp.compare_self distinct ((mem_iff n).2 pinned)
  | none =>
      apply Std.ExtTreeMap.getElem?_ofList_of_contains_eq_false
      rw [Bool.eq_false_iff]
      intro listed
      rw [List.contains_iff_mem, List.mem_map] at listed
      obtain ⟨⟨x, n⟩, entry, rfl⟩ := listed
      simp [(mem_iff n).1 entry] at pinned

/-- The slots so far are those of a coloring and, of the nodes, the pinned ones. -/
structure Selection.Agrees (g : Graph) (vars : VarTable) (s : Selection) (c : Coloring) : Prop where
  coloring : s.coloring = c
  colors : ∀ y, g.contains y = true → s.colors[y]? = (vars.pinnedSlot? y <|> c.slots[y]?)

/-- A node is given the same slot, in whatever order its neighbours are asked. -/
theorem select_agrees (t : Traversal g vars) (k : Nat) {s : Selection} {c : Coloring}
    (agrees : s.Agrees g vars c) {x : String} (unpinned : vars.pinnedSlot? x = none) :
  (t.select k s x).Agrees g vars (c.place g vars k x)
  := by
  obtain ⟨rfl, colors⟩ := agrees
  have taken : ((t.near x).filterMap fun y => s.colors[y]?).Perm (s.coloring.taken g vars x) := by
    have same : (t.near x).filterMap (fun y => s.colors[y]?)
        = (t.near x).filterMap fun y => vars.pinnedSlot? y <|> s.coloring.slots[y]? := by
      apply List.filterMap_congr
      intro y near
      apply colors
      apply Graph.contains_of_mem_neighbors (x := x)
      rwa [(t.near_perm x).mem_iff, Std.ExtTreeSet.mem_toList] at near
    rw [same]
    apply (t.near_perm x).filterMap _
  have slot : leastFrom (fun j => s.coloring.offset + j ∉ (t.near x).filterMap fun y => s.colors[y]?) 0
      ((t.near x).filterMap fun y => s.colors[y]?).length = s.coloring.choice g vars x := by
    rw [Coloring.choice, taken.length_eq]
    congr
    funext j
    rw [decide_eq_decide, taken.mem_iff]
  constructor
  · simp only [select, slot]
    rfl
  · intro y node
    rw [Coloring.getElem?_place]
    simp only [select, slot, Std.ExtTreeMap.getElem?_insert, Std.compare_eq_iff_eq]
    split
    · next same =>
        subst same
        simp [unpinned]
    · apply colors y node

/-- Nodes are given the same slots, one after the other. -/
theorem foldl_select_agrees (t : Traversal g vars) (k : Nat) {xs : List String} {s : Selection} {c : Coloring}
    (agrees : s.Agrees g vars c) (unpinned : ∀ x ∈ xs, vars.pinnedSlot? x = none) :
  (xs.foldl (t.select k) s).Agrees g vars (xs.foldl (Coloring.place g vars k) c)
  := by
  induction xs generalizing s c with
  | nil => apply agrees
  | cons x xs ih =>
      rw [List.forall_mem_cons] at unpinned
      apply ih (t.select_agrees k agrees unpinned.1) unpinned.2

/-- The coloring is that of the graph and the table, in whatever orders they are gone through. -/
theorem color_eq (t : Traversal g vars) (k : Nat) :
  t.color k = g.color vars k
  := by
  have once : t.working.Nodup := by
    rw [working_eq]
    apply Std.ExtTreeMap.nodup_keys.filter
  have candidates : t.working.map (candidate t.degrees)
      = (g.nodes.filter fun x => (vars.pinnedSlot? x).isNone).map fun x => ⟨x, g.degree x⟩ := by
    rw [← working_eq t]
    apply List.map_congr_left
    intro x listed
    rw [candidate, t.getElem?_degrees listed, Option.getD_some]
  have order : t.simplify k t.degrees [] t.working = (g.outOrder vars k).reverse := by
    rw [simplify_eq t k _ _ _ once, List.append_nil, candidates, Graph.outOrder]
  have start : Selection.Agrees g vars ⟨t.colors, ⟨∅, t.offset, 0, []⟩⟩ ⟨∅, vars.firstFree, 0, []⟩ := by
    constructor
    · rw [offset_eq]
    · intro y node
      simp [t.getElem?_colors node]
  have unpinned : ∀ x ∈ (g.outOrder vars k).reverse, vars.pinnedSlot? x = none := by
    intro x mem
    apply (Graph.mem_outOrder.1 (List.mem_reverse.1 mem)).2
  rw [color, order]
  apply (t.foldl_select_agrees k start unpinned).coloring

end Traversal

/-- A coloring depends only on the graph and the table. If calls name the same nodes and the same edges, in
any order, any number of times and in either direction, and tables give each name the same entry, in whatever
order they were filled, then the colorings are the same, in whatever orders the nodes, the neighbours and the
entries are gone through. -/
theorem color_canonical {calls calls' : List Graph.Call} (same : Graph.SameCalls calls calls')
    {entries entries' : List (String × Variable)}
    (equal : ∀ x : String, (VarTable.fill entries)[x]? = (VarTable.fill entries')[x]?)
    (t : Traversal (.make calls) (.fill entries)) (t' : Traversal (.make calls') (.fill entries')) (k : Nat) :
  t.color k = t'.color k
    ∧ t.color k = (Graph.make calls).color (.fill entries) k
    ∧ t'.color k = (Graph.make calls').color (.fill entries') k
  := by
  have graphs := Graph.make_eq_of_sameCalls same
  have tables : VarTable.fill entries = .fill entries' := Std.ExtTreeMap.ext_getElem? equal
  and_intros
  · rw [t.color_eq, t'.color_eq, graphs, tables]
  · apply t.color_eq k
  · apply t'.color_eq k

/-- Two ways to make a path of three nodes with a pinned end, and a node alone. -/
theorem path_color_canonical :
  let calls : List Graph.Call := [.edge "b" "a", .node "d", .edge "p" "a"]
  let calls' : List Graph.Call := [.edge "d" "d", .edge "a" "p", .edge "a" "b", .node "b", .edge "p" "a"]
  let entries := [("p", ⟨.parameter, 2, .int⟩), ("a", ⟨.temporary, 3, .int⟩)]
  let entries' := [("a", ⟨.temporary, 0, .int⟩), ("p", ⟨.parameter, 2, .int⟩), ("a", ⟨.temporary, 3, .int⟩)]
  Graph.SameCalls calls calls'
    ∧ (∀ x : String, (VarTable.fill entries)[x]? = (VarTable.fill entries')[x]?)
    ∧ (Graph.make calls).color (.fill entries) 1 = (Traversal.backward (.make calls') (.fill entries')).color 1
    ∧ ((Graph.make calls).color (.fill entries) 1).slots.toList = [("a", 4), ("b", 3), ("d", 3)]
  := by
  intro calls calls' entries entries'
  have same : Graph.SameCalls calls calls' := by
    constructor
    · intro x
      simp only [calls, calls', List.flatMap_cons, List.flatMap_nil, Graph.Call.names, List.mem_append,
        List.mem_cons, List.not_mem_nil]
      grind
    · intro x y different
      simp only [calls, calls', List.mem_cons, List.not_mem_nil, Graph.Call.edge.injEq]
      grind
  have equal : ∀ x : String, (VarTable.fill entries)[x]? = (VarTable.fill entries')[x]? := by
    intro x
    simp only [entries, entries', VarTable.fill, List.foldl_cons, List.foldl_nil,
      Std.ExtTreeMap.getElem?_insert, Std.compare_eq_iff_eq]
    grind
  obtain ⟨alike, walked, -⟩ :=
    color_canonical same equal (Traversal.backward _ _) (Traversal.backward _ _) 1
  use same, equal, walked.symm.trans alike
  decide +kernel

end StackBackend
