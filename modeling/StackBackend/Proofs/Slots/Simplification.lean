import Mathlib.Data.Finset.Basic
import StackBackend.Proofs.Slots.Gapless

/-!
# Budgets that suffice

Nodes are taken out of a graph with the number of their neighbours that are still there or pinned. As long
as one has fewer than `k`, such a node is taken out. It makes no difference which one: the others have no
more neighbours after it, so that what can be taken out in some order can be taken out in any order. If
all nodes are taken out in this way, each of them finds one of the first `k` slots free as it is put
back. So the budget is exceeded only when a set of nodes is left of which each has `k` neighbours in the set or
pinned.
-/

namespace StackBackend

namespace Graph

variable {g : Graph} {vars : VarTable} {k : Nat} {x y : String} {p q : String → Prop} [DecidablePred p]
  [DecidablePred q]

/-! ### Degrees -/

/-- The number of neighbours of `x` that are pinned or satisfy `p`. -/
def degreeIn (g : Graph) (vars : VarTable) (p : String → Prop) [DecidablePred p] (x : String) : Nat :=
  (g.neighbors x).toList.countP fun y => p y ∨ (vars.pinnedSlot? y).isSome = true

/-- Among more nodes a node has no smaller degree. -/
theorem degreeIn_mono (weaker : ∀ y ∈ g.neighbors x, p y → q y) :
  g.degreeIn vars p x ≤ g.degreeIn vars q x
  := by
  apply List.countP_mono_left
  intro y listed counted
  have joined := Std.ExtTreeSet.mem_toList.1 listed
  simp only [decide_eq_true_eq] at counted ⊢
  apply counted.imp_left (weaker y joined)

/-- A degree depends only on which neighbours count. -/
theorem degreeIn_congr (same : ∀ y ∈ g.neighbors x, p y ↔ q y) :
  g.degreeIn vars p x = g.degreeIn vars q x
  := by
  apply Nat.le_antisymm
  · apply degreeIn_mono
    intro y joined
    apply (same y joined).1
  · apply degreeIn_mono
    intro y joined
    apply (same y joined).2

theorem nodup_neighbors (g : Graph) (x : String) :
  (g.neighbors x).toList.Nodup
  := by
  apply Std.ExtTreeSet.distinct_toList.imp
  rintro y z distinct rfl
  apply distinct Std.ReflCmp.compare_self

/-- Without one of its neighbours that was counted, a node has one less. -/
theorem degreeIn_of_mem (joined : y ∈ g.neighbors x) (counted : p y) (unpinned : vars.pinnedSlot? y = none) :
  g.degreeIn vars p x = g.degreeIn vars (fun z => z ≠ y ∧ p z) x + 1
  := by
  have listed : y ∈ (g.neighbors x).toList := Std.ExtTreeSet.mem_toList.2 joined
  have once : (y :: (g.neighbors x).toList.erase y).Nodup :=
    (List.perm_cons_erase listed).nodup_iff.1 (nodup_neighbors g x)
  have others : ((g.neighbors x).toList.erase y).countP (fun z => p z ∨ (vars.pinnedSlot? z).isSome = true)
      = ((g.neighbors x).toList.erase y).countP
        (fun z => (z ≠ y ∧ p z) ∨ (vars.pinnedSlot? z).isSome = true) := by
    apply List.countP_congr
    intro z mem
    have other : z ≠ y := by
      rintro rfl
      apply (List.nodup_cons.1 once).1 mem
    simp [other]
  rw [degreeIn, degreeIn, (List.perm_cons_erase listed).countP_eq, (List.perm_cons_erase listed).countP_eq,
    List.countP_cons, List.countP_cons, others]
  simp [counted, unpinned]

/-- Neighbours are nodes. -/
theorem contains_of_mem_neighbors (joined : y ∈ g.neighbors x) :
  g.contains y = true
  := by
  have back : x ∈ g.adjacent.near y := g.symm x y joined
  rw [contains, Std.ExtTreeMap.contains_iff_mem, Std.ExtTreeMap.mem_iff_isSome_getElem?]
  cases entry : g.adjacent[y]? with
  | some names => rfl
  | none => simp [Adjacency.near, entry] at back

/-! ### Taking nodes out -/

/-- The degrees of the candidates are the numbers of neighbours that are candidates or pinned. -/
structure Exact (g : Graph) (vars : VarTable) (left : List Candidate) : Prop where
  nodup : (left.map Candidate.name).Nodup
  free : ∀ x ∈ left, g.contains x.name = true ∧ vars.pinnedSlot? x.name = none
  degree : ∀ x ∈ left, x.degree = g.degreeIn vars (· ∈ left.map Candidate.name) x.name

/-- At the start every candidate has its degree. -/
theorem start_exact (g : Graph) (vars : VarTable) :
  g.Exact vars ((g.nodes.filter fun x => (vars.pinnedSlot? x).isNone).map fun x => ⟨x, g.degree x⟩)
  := by
  have names (xs : List String) :
      (xs.map fun x => Candidate.mk x (g.degree x)).map Candidate.name = xs := by
    simp [Function.comp_def]
  constructor
  · rw [names]
    apply Std.ExtTreeMap.nodup_keys.filter
  · intro x listed
    obtain ⟨y, mem, rfl⟩ := List.mem_map.1 listed
    rwa [List.mem_filter, mem_nodes, Option.isNone_iff_eq_none] at mem
  · intro x listed
    obtain ⟨y, -, rfl⟩ := List.mem_map.1 listed
    rw [names, degree, degreeIn, ← Std.ExtTreeSet.length_toList]
    symm
    rw [List.countP_eq_length]
    intro z mem
    have node := contains_of_mem_neighbors (Std.ExtTreeSet.mem_toList.1 mem)
    cases pinned : vars.pinnedSlot? z with
    | some slot => simp [pinned]
    | none => simp [List.mem_filter, mem_nodes, node, pinned]

/-- Taking a candidate out leaves the others. -/
theorem mem_names_without {left : List Candidate} {y : Candidate} (once : (left.map Candidate.name).Nodup)
    (listed : y ∈ left) {z : String} :
  z ∈ ((left.erase y).map (Candidate.without g y.name)).map Candidate.name
    ↔ z ≠ y.name ∧ z ∈ left.map Candidate.name
  := by
  have taken : (left.map Candidate.name).Perm (y.name :: (left.erase y).map Candidate.name) :=
    (List.perm_cons_erase listed).map Candidate.name
  have absent : y.name ∉ (left.erase y).map Candidate.name := (List.nodup_cons.1 (taken.nodup_iff.1 once)).1
  rw [List.map_map, Function.comp_def, taken.mem_iff, List.mem_cons]
  simp only [Candidate.without_name]
  constructor
  · intro mem
    constructor
    · rintro rfl
      apply absent mem
    · right
      apply mem
  · rintro ⟨other, same | mem⟩
    · apply (other same).elim
    · apply mem

/-- The degrees stay exact as a candidate is taken out. -/
theorem Exact.without {left : List Candidate} (exact_left : g.Exact vars left) {y : Candidate} (listed : y ∈ left) :
  g.Exact vars ((left.erase y).map (Candidate.without g y.name))
  := by
  have among := fun z => mem_names_without (g := g) (z := z) exact_left.nodup listed
  constructor
  · have part := ((List.erase_sublist (a := y) (l := left)).map Candidate.name)
    rw [List.map_map, Function.comp_def]
    simp only [Candidate.without_name]
    apply exact_left.nodup.sublist part
  · intro x listed_x
    obtain ⟨x, mem, rfl⟩ := List.mem_map.1 listed_x
    rw [Candidate.without_name]
    apply exact_left.free x (List.mem_of_mem_erase mem)
  · intro x listed_x
    obtain ⟨x, mem, rfl⟩ := List.mem_map.1 listed_x
    have before := exact_left.degree x (List.mem_of_mem_erase mem)
    rw [Candidate.without_name, degreeIn_congr fun z _ => among z]
    unfold Candidate.without
    split
    · next joined =>
        have joined : y.name ∈ g.neighbors x.name := g.symm _ _ (interferes_iff.1 joined)
        rw [degreeIn_of_mem joined (List.mem_map_of_mem listed) (exact_left.free y listed).2] at before
        simp [before]
    · next apart =>
        rw [before]
        apply degreeIn_congr
        intro z joined
        have other : z ≠ y.name := by
          rintro rfl
          apply apart (interferes_iff.2 (g.symm _ _ joined))
        simp [other]

/-- The candidate to take out next has a degree below `k`, unless there is none. -/
theorem nextOut_degree (k : Nat) (x : Candidate) (xs : List Candidate) :
  (nextOut k x xs).degree < k ∨ ∀ y ∈ x :: xs, k ≤ y.degree
  := by
  unfold nextOut
  cases found : (x :: xs).find? (·.degree < k) with
  | some y =>
      left
      simpa using List.find?_some found
  | none =>
      right
      intro y mem
      simpa using List.find?_eq_none.1 found y mem

/-! ### Orders and sets -/

/-- The nodes can be taken out one after the other, each with fewer than `k` neighbours that are pinned or
still there. -/
def Simplifies (g : Graph) (vars : VarTable) (k : Nat) : List String → Prop
  | [] => True
  | x :: xs => g.degreeIn vars (· ∈ xs) x < k ∧ g.Simplifies vars k xs

/-- The nodes that are not pinned, each once. -/
structure IsOrder (g : Graph) (vars : VarTable) (order : List String) : Prop where
  nodup : order.Nodup
  mem : ∀ {x}, x ∈ order ↔ g.contains x = true ∧ vars.pinnedSlot? x = none

/-- The nodes come out in an order of the graph. -/
theorem outOrder_isOrder (g : Graph) (vars : VarTable) (k : Nat) :
  g.IsOrder vars (g.outOrder vars k)
  := by
  constructor
  · rw [(g.outOrder_perm vars k).nodup_iff]
    apply Std.ExtTreeMap.nodup_keys.filter
  · apply mem_outOrder

/-- None of the nodes, which are not pinned, has fewer than `k` neighbours that are pinned or among them. -/
structure Resists (g : Graph) (vars : VarTable) (k : Nat) (s : Finset String) : Prop where
  nonempty : s.Nonempty
  free : ∀ x ∈ s, g.contains x = true ∧ vars.pinnedSlot? x = none
  dense : ∀ x ∈ s, k ≤ g.degreeIn vars (· ∈ s) x

/-- A set that resists cannot be taken out: the first of its nodes would have all its neighbours in the
set left. -/
theorem Resists.not_simplifies {s : Finset String} (resists : g.Resists vars k s) {order : List String}
    (covered : ∀ x ∈ s, x ∈ order) :
  ¬ g.Simplifies vars k order
  := by
  induction order with
  | nil =>
      obtain ⟨x, mem⟩ := resists.nonempty
      simpa using covered x mem
  | cons x xs ih =>
      rintro ⟨few, rest⟩
      by_cases mem : x ∈ s
      · have most := resists.dense x mem
        have left : g.degreeIn vars (· ∈ s) x ≤ g.degreeIn vars (· ∈ xs) x := by
          apply degreeIn_mono
          intro y joined inside
          obtain rfl | later := List.mem_cons.1 (covered y inside)
          · apply (g.loopless y joined).elim
          · apply later
        omega
      · apply ih _ rest
        intro y inside
        obtain rfl | later := List.mem_cons.1 (covered y inside)
        · apply (mem inside).elim
        · apply later

/-- Candidates with their degrees are taken out one after the other, or some of them resist. -/
theorem Exact.simplifies_or_resists {left : List Candidate} (exact_left : g.Exact vars left) :
  g.Simplifies vars k (g.eliminate k left) ∨ ∃ s, g.Resists vars k s
  := by
  fun_induction Graph.eliminate g k left with
  | case1 =>
      left
      trivial
  | case2 x xs y ih =>
      have listed : y ∈ x :: xs := nextOut_mem k x xs
      obtain few | many := nextOut_degree k x xs
      · obtain simplifies | resists := ih (exact_left.without listed)
        · left
          constructor
          · rw [degreeIn_congr (q := (· ∈ (x :: xs).map Candidate.name)), ← exact_left.degree y listed]
            · apply few
            · intro z joined
              have other : z ≠ y.name := by
                rintro rfl
                apply g.loopless _ joined
              rw [(g.eliminate_perm k _).mem_iff, mem_names_without exact_left.nodup listed]
              simp [other]
          · apply simplifies
        · right
          apply resists
      · right
        use ((x :: xs).map Candidate.name).toFinset
        constructor
        · use x.name
          simp
        · intro z named
          obtain ⟨z, mem, rfl⟩ := List.mem_map.1 (List.mem_toFinset.1 named)
          apply exact_left.free z mem
        · intro z named
          obtain ⟨z, mem, rfl⟩ := List.mem_map.1 (List.mem_toFinset.1 named)
          rw [degreeIn_congr fun w _ => List.mem_toFinset, ← exact_left.degree z mem]
          apply many z mem

/-- Each node comes out with few neighbours left, or there is a set of nodes that resists. -/
theorem outOrder_simplifies_or_resists (g : Graph) (vars : VarTable) (k : Nat) :
  g.Simplifies vars k (g.outOrder vars k) ∨ ∃ s, g.Resists vars k s
  := (g.start_exact vars).simplifies_or_resists

/-! ### Putting nodes back -/

/-- A node that has fewer than `k` neighbours with slots is given one of the first `k` slots. -/
theorem choice_lt_of_degreeIn {c : Coloring} {done : List String} (fits : Coloring.Fits g vars done c)
    (few : g.degreeIn vars (· ∈ done) x < k) :
  c.choice g vars x < k
  := by
  apply Nat.lt_of_le_of_lt _ few
  rw [degreeIn, List.countP_eq_length_filter]
  apply Coloring.choice_le_length fits
  intro y joined placed
  rw [List.mem_filter, Std.ExtTreeSet.mem_toList]
  use joined
  simp [placed]

/-- If the nodes are taken out with few neighbours, they are put back within the budget. -/
theorem color_needed_le_of_simplifies (simplifies : g.Simplifies vars k (g.outOrder vars k)) :
  (g.color vars k).needed ≤ k
  := by
  have step (done : List String) (c : Coloring) (x : String) (fits : Coloring.Fits g vars done c)
      (within : g.Simplifies vars k done → c.needed ≤ k) (simplifies : g.Simplifies vars k (x :: done)) :
      (c.place g vars k x).needed ≤ k := by
    have first := choice_lt_of_degreeIn fits simplifies.1
    have others := within simplifies.2
    rw [Coloring.place_needed]
    omega
  have whole := g.color_induction_outOrder vars k
    (P := fun done c => g.Simplifies vars k done → c.needed ≤ k) (fun _ => Nat.zero_le k)
    (fun done c x fits _ _ => step done c x fits)
  apply whole.2 simplifies

end Graph

/-- A coloring exceeds its budget only if some nodes that are not pinned resist being taken out: each of
them has at least as many neighbours, pinned or among them, as there are slots in the budget. In other words,
if the nodes that are not pinned can be taken out in some order, each with fewer neighbours that are
pinned or still there, then the coloring stays within the budget, in whatever order it takes them. -/
theorem color_within_unless_resists (g : Graph) (vars : VarTable) (k : Nat) :
  (k < (g.color vars k).needed → ∃ s, g.Resists vars k s)
    ∧ ((∃ order, g.IsOrder vars order ∧ g.Simplifies vars k order) → (g.color vars k).needed ≤ k)
    ∧ ((∃ s, g.Resists vars k s) ↔ ¬ ∃ order, g.IsOrder vars order ∧ g.Simplifies vars k order)
  := by
  have clash : (∃ s, g.Resists vars k s) → ¬ ∃ order, g.IsOrder vars order ∧ g.Simplifies vars k order := by
    rintro ⟨s, resists⟩ ⟨order, complete, simplifies⟩
    apply resists.not_simplifies _ simplifies
    intro x mem
    apply complete.mem.2 (resists.free x mem)
  obtain simplifies | resists := g.outOrder_simplifies_or_resists vars k
  · have within := Graph.color_needed_le_of_simplifies simplifies
    have none : ¬ ∃ s, g.Resists vars k s := fun some => clash some ⟨_, g.outOrder_isOrder vars k, simplifies⟩
    refine ⟨fun exceeds => by omega, fun _ => within, clash, fun stuck => ?_⟩
    apply (stuck ⟨_, g.outOrder_isOrder vars k, simplifies⟩).elim
  · constructor
    · intro _
      apply resists
    · constructor
      · intro found
        apply (clash resists found).elim
      · use clash
        intro _
        apply resists

/-- Three nodes joined to each other exceed a budget of two. A cycle of four resists it as well, and fits. -/
example : ((((Graph.empty.addEdge "a" "b").addEdge "b" "c").addEdge "c" "a").color ∅ 2).needed = 3
    ∧ (((((Graph.empty.addEdge "a" "b").addEdge "b" "c").addEdge "c" "d").addEdge "d" "a").color ∅ 2).needed = 2
  := by decide +kernel

end StackBackend
