import Mathlib.Tactic.Use
import StackBackend.Slots.Coloring

/-!
# Colorings are proper

The nodes are taken out in some order, each once. As they are given slots, those that have one stay
clear of the pinned slots and differ from their neighbours.
-/

namespace StackBackend

/-! ### The order -/

@[simp]
theorem Candidate.without_name (g : Graph) (y : String) (x : Candidate) :
  (x.without g y).name = x.name
  := by
  unfold without
  split <;> rfl

/-- Each candidate is taken out once. -/
theorem Graph.eliminate_perm (g : Graph) (k : Nat) (left : List Candidate) :
  (g.eliminate k left).Perm (left.map Candidate.name)
  := by
  fun_induction Graph.eliminate g k left with
  | case1 => exact .refl []
  | case2 x xs y ih =>
      have names : (((x :: xs).erase y).map (Candidate.without g y.name)).map Candidate.name
          = ((x :: xs).erase y).map Candidate.name := by
        simp [Function.comp_def]
      have taken : (x :: xs).Perm (y :: (x :: xs).erase y) :=
        List.perm_cons_erase (nextOut_mem k x xs)
      rw [names] at ih
      apply (ih.cons y.name).trans
      apply (taken.map Candidate.name).symm

/-! ### Pinned slots -/

/-- The largest of a list of numbers and a start. -/
theorem le_foldl_max (xs : List Nat) (start : Nat) :
  start ≤ xs.foldl max start ∧ ∀ x ∈ xs, x ≤ xs.foldl max start
  := by
  induction xs generalizing start with
  | nil => simp
  | cons x xs ih =>
      obtain ⟨first, rest⟩ := ih (max start x)
      rw [List.foldl_cons, List.forall_mem_cons]
      and_intros
      · omega
      · omega
      · apply rest

/-- A pinned slot is that of a pinned variable. -/
theorem VarTable.pinnedSlot?_eq_some {vars : VarTable} {x : String} {n : Nat} :
  vars.pinnedSlot? x = some n ↔ ∃ v, vars[x]? = some v ∧ v.isPinned = true ∧ v.slot = n
  := by
  simp only [pinnedSlot?, Option.map_eq_some_iff, Option.filter_eq_some_iff, and_assoc]

/-- Pinned variables have slots before the first free one. -/
theorem VarTable.pinned_lt_firstFree {vars : VarTable} {x : String} {v : Variable}
    (entry : vars[x]? = some v) (pinned : v.isPinned = true) :
  v.slot < vars.firstFree
  := by
  apply (le_foldl_max _ 0).2
  rw [List.mem_map]
  refine ⟨(x, v), ?_, rfl⟩
  rw [List.mem_filter]
  constructor
  · apply Std.ExtTreeMap.mem_toList_iff_getElem?_eq_some.2 entry
  · apply pinned

/-! ### Slots -/

namespace Coloring

variable {g : Graph} {vars : VarTable} {k : Nat} {c : Coloring} {done : List String}

/-- The number of free slots before the one that `x` is given. -/
def choice (c : Coloring) (g : Graph) (vars : VarTable) (x : String) : Nat :=
  leastFrom (fun j => c.offset + j ∉ c.taken g vars x) 0 (c.taken g vars x).length

/-- Placing a node changes its slot alone. -/
theorem getElem?_place (c : Coloring) (g : Graph) (vars : VarTable) (k : Nat) (x y : String) :
  (c.place g vars k x).slots[y]?
    = if x = y then some (c.offset + c.choice g vars x) else c.slots[y]?
  := by
  simp only [place, choice, Std.ExtTreeMap.getElem?_insert, Std.compare_eq_iff_eq]

@[simp]
theorem place_offset (c : Coloring) (g : Graph) (vars : VarTable) (k : Nat) (x : String) :
  (c.place g vars k x).offset = c.offset
  := rfl

/-- The slots that are needed include the one that is chosen. -/
@[simp]
theorem place_needed (c : Coloring) (g : Graph) (vars : VarTable) (k : Nat) (x : String) :
  (c.place g vars k x).needed = max c.needed (c.choice g vars x + 1)
  := rfl

/-- The slot that `x` is given is that of no neighbour. -/
theorem not_mem_taken (c : Coloring) (g : Graph) (vars : VarTable) (x : String) :
  c.offset + c.choice g vars x ∉ c.taken g vars x
  := by
  have one : ∀ m n slot : Nat, c.offset + m = slot → c.offset + n = slot → m = n := by omega
  have blocked : ∀ n, 0 ≤ n → decide (c.offset + n ∉ c.taken g vars x) = false →
      ∃ slot ∈ c.taken g vars x, c.offset + n = slot := by
    intro n _ failed
    use c.offset + n
    constructor
    · simpa using failed
    · rfl
  have found := leastFrom_of_obstacles (p := fun j => decide (c.offset + j ∉ c.taken g vars x))
    one (Nat.le_refl _) blocked
  simpa [choice] using found

/-- The nodes `done` have slots, free ones, and neighbours among them have different ones. -/
structure Fits (g : Graph) (vars : VarTable) (done : List String) (c : Coloring) : Prop where
  offset : c.offset = vars.firstFree
  placed : ∀ x, x ∈ c.slots ↔ x ∈ done
  free : ∀ (x : String) (n : Nat), c.slots[x]? = some n → vars.firstFree ≤ n
  apart : ∀ (x y : String) (n : Nat), c.slots[x]? = some n → c.slots[y]? = some n → y ∉ g.neighbors x

/-- Before the first node no slot is given. -/
theorem start_fits (g : Graph) (vars : VarTable) :
  Fits g vars [] ⟨∅, vars.firstFree, 0, []⟩
  where
  offset := rfl
  placed := by simp
  free := by simp
  apart := by simp

/-- Only nodes that are done have slots. -/
theorem Fits.mem_of_slots (fits : Fits g vars done c) {x : String} {n : Nat}
    (given : c.slots[x]? = some n) :
  x ∈ done
  := by
  rw [← fits.placed, Std.ExtTreeMap.mem_iff_isSome_getElem?, given]
  rfl

/-- What is done matters only as a set. -/
theorem Fits.congr {done' : List String} (fits : Fits g vars done c)
    (same : ∀ x, x ∈ done ↔ x ∈ done') :
  Fits g vars done' c
  := { fits with placed := fun x => (fits.placed x).trans (same x) }

/-- A slot that a neighbour was given before is taken. -/
theorem mem_taken_of_slots {x y : String} {n : Nat} (joined : y ∈ g.neighbors x)
    (unpinned : vars.pinnedSlot? y = none) (given : c.slots[y]? = some n) :
  n ∈ c.taken g vars x
  := by
  rw [taken, List.mem_filterMap]
  use y, Std.ExtTreeSet.mem_toList.2 joined
  rw [unpinned, given]
  rfl

/-- One more node is given a slot. -/
theorem place_fits (fits : Fits g vars done c) {x : String}
    (unpinned : ∀ y ∈ done, vars.pinnedSlot? y = none) :
  Fits g vars (x :: done) (c.place g vars k x)
  := by
  have clear := c.not_mem_taken g vars x
  constructor
  · apply fits.offset
  · intro y
    simp [place, fits.placed, eq_comm (a := x)]
  · intro y n given
    rw [getElem?_place] at given
    split at given
    · rw [← fits.offset]
      cases given
      omega
    · apply fits.free y n given
  · intro y z n hy hz joined
    rw [getElem?_place] at hy hz
    split at hy
    · next same =>
        subst same
        split at hz
        · next same =>
            subst same
            apply g.loopless x joined
        · cases hy
          apply clear
          apply mem_taken_of_slots joined (unpinned z (fits.mem_of_slots hz)) hz
    · split at hz
      · next same =>
          subst same
          cases hz
          apply clear
          apply mem_taken_of_slots (g.symm y x joined) (unpinned y (fits.mem_of_slots hy)) hy
      · apply fits.apart y z n hy hz joined

/-- What holds of no slots, and is kept as a further free node is given one, holds after all nodes of a row. -/
theorem foldl_place_induction {P : List String → Coloring → Prop}
    (step : ∀ done c x, Fits g vars done c → (x :: done).Nodup →
      (∀ y ∈ x :: done, g.contains y = true ∧ vars.pinnedSlot? y = none) →
      P done c → P (x :: done) (c.place g vars k x))
    {xs : List String} (fits : Fits g vars done c) (once : (xs ++ done).Nodup)
    (free : ∀ y ∈ xs ++ done, g.contains y = true ∧ vars.pinnedSlot? y = none) (start : P done c) :
  Fits g vars (xs.reverse ++ done) (xs.foldl (place g vars k) c)
    ∧ P (xs.reverse ++ done) (xs.foldl (place g vars k) c)
  := by
  induction xs generalizing c done with
  | nil => use fits, start
  | cons x xs ih =>
      have part : (x :: done).Sublist (x :: xs ++ done) := (List.sublist_append_right xs done).cons_cons x
      have known : ∀ y ∈ x :: done, g.contains y = true ∧ vars.pinnedSlot? y = none :=
        fun y mem => free y (part.mem mem)
      rw [List.reverse_cons, List.append_assoc]
      apply ih
      · apply place_fits fits
        intro y mem
        apply (known y (List.mem_cons_of_mem x mem)).2
      · apply List.perm_middle.nodup_iff.2 once
      · intro y mem
        apply free y (List.perm_middle.mem_iff.1 mem)
      · apply step done c x fits (List.Nodup.sublist part once) known start

end Coloring

namespace Graph

/-- The order in which the nodes that are not pinned are taken out. -/
def outOrder (g : Graph) (vars : VarTable) (k : Nat) : List String :=
  g.eliminate k ((g.nodes.filter fun x => (vars.pinnedSlot? x).isNone).map fun x => ⟨x, g.degree x⟩)

/-- The nodes come out once each, the pinned ones aside. -/
theorem outOrder_perm (g : Graph) (vars : VarTable) (k : Nat) :
  (g.outOrder vars k).Perm (g.nodes.filter fun x => (vars.pinnedSlot? x).isNone)
  := by
  have same := g.eliminate_perm k
    ((g.nodes.filter fun x => (vars.pinnedSlot? x).isNone).map fun x => ⟨x, g.degree x⟩)
  rwa [List.map_map, Function.comp_def, List.map_id'] at same

/-- A node comes out unless it is pinned. -/
theorem mem_outOrder {g : Graph} {vars : VarTable} {k : Nat} {x : String} :
  x ∈ g.outOrder vars k ↔ g.contains x = true ∧ vars.pinnedSlot? x = none
  := by
  rw [(g.outOrder_perm vars k).mem_iff, List.mem_filter, mem_nodes, Option.isNone_iff_eq_none]

/-- What holds of no slots, and is kept as a further free node is given one, holds of the coloring of a
graph, which gives slots to all free nodes against the order in which they are taken out. -/
theorem color_induction_outOrder (g : Graph) (vars : VarTable) (k : Nat)
    {P : List String → Coloring → Prop} (start : P [] ⟨∅, vars.firstFree, 0, []⟩)
    (step : ∀ done c x, Coloring.Fits g vars done c → (x :: done).Nodup →
      (∀ y ∈ x :: done, g.contains y = true ∧ vars.pinnedSlot? y = none) →
      P done c → P (x :: done) (c.place g vars k x)) :
  Coloring.Fits g vars (g.outOrder vars k) (g.color vars k) ∧ P (g.outOrder vars k) (g.color vars k)
  := by
  have once : ((g.outOrder vars k).reverse ++ []).Nodup := by
    rw [List.append_nil, ((List.reverse_perm _).trans (g.outOrder_perm vars k)).nodup_iff]
    apply Std.ExtTreeMap.nodup_keys.filter
  have known : ∀ y ∈ (g.outOrder vars k).reverse ++ [], g.contains y = true ∧ vars.pinnedSlot? y = none := by
    intro y mem
    rwa [List.append_nil, List.mem_reverse, mem_outOrder] at mem
  have result := Coloring.foldl_place_induction step (Coloring.start_fits g vars) once known start
  rwa [List.append_nil, List.reverse_reverse] at result

/-- What holds of no slots, and is kept as a further free node is given one, holds of the coloring of a
graph, which gives slots to all free nodes. -/
theorem color_induction (g : Graph) (vars : VarTable) (k : Nat) {P : List String → Coloring → Prop}
    (start : P [] ⟨∅, vars.firstFree, 0, []⟩)
    (step : ∀ done c x, Coloring.Fits g vars done c → (x :: done).Nodup →
      (∀ y ∈ x :: done, g.contains y = true ∧ vars.pinnedSlot? y = none) →
      P done c → P (x :: done) (c.place g vars k x)) :
  ∃ done, done.Perm (g.nodes.filter fun x => (vars.pinnedSlot? x).isNone)
    ∧ Coloring.Fits g vars done (g.color vars k) ∧ P done (g.color vars k)
  := ⟨g.outOrder vars k, g.outOrder_perm vars k, g.color_induction_outOrder vars k start step⟩

/-- The coloring of a graph gives slots to the nodes that are not pinned. -/
theorem color_fits (g : Graph) (vars : VarTable) (k : Nat) :
  Coloring.Fits g vars (g.nodes.filter fun x => (vars.pinnedSlot? x).isNone) (g.color vars k)
  := by
  obtain ⟨done, perm, fits, -⟩ := g.color_induction vars k (P := fun _ _ => True) trivial
    fun _ _ _ _ _ _ _ => trivial
  apply fits.congr
  intro x
  apply perm.mem_iff

end Graph

end StackBackend
