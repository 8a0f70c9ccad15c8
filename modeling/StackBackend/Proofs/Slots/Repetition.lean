import StackBackend.Proofs.Slots.Budget

/-!
# Allocating again

Of a table allocation reads which names it has, which of them are fields, and the slots of those that
are pinned. An allocation changes the slots of the other variables and enters names that were nodes of
the graph without an entry. So it changes nothing that the next one reads, and the slots of the next
one are written over its own.
-/

namespace StackBackend

/-! ### What a coloring reads of a table -/

/-- The largest of a list of numbers and a start is below a bound if they all are. -/
theorem foldl_max_le_iff (xs : List Nat) (start n : Nat) :
  xs.foldl max start ≤ n ↔ start ≤ n ∧ ∀ x ∈ xs, x ≤ n
  := by
  induction xs generalizing start with
  | nil => simp
  | cons x xs ih =>
      rw [List.foldl_cons, ih, List.forall_mem_cons, Nat.max_le, and_assoc]

namespace VarTable

variable {vars vars' : VarTable}

/-- The first free slot is the least one after those of pinned variables. -/
theorem firstFree_le_iff {n : Nat} :
  vars.firstFree ≤ n ↔ ∀ x slot, vars.pinnedSlot? x = some slot → slot < n
  := by
  rw [firstFree, foldl_max_le_iff]
  constructor
  · rintro ⟨-, bound⟩ x slot pinned
    obtain ⟨v, entry, isPinned, rfl⟩ := pinnedSlot?_eq_some.1 pinned
    apply bound
    rw [List.mem_map]
    refine ⟨(x, v), List.mem_filter.2 ⟨?_, isPinned⟩, rfl⟩
    apply Std.ExtTreeMap.mem_toList_iff_getElem?_eq_some.2 entry
  · intro bound
    use Nat.zero_le n
    intro slot mem
    obtain ⟨⟨x, v⟩, listed, rfl⟩ := List.mem_map.1 mem
    obtain ⟨listed, isPinned⟩ := List.mem_filter.1 listed
    have entry := Std.ExtTreeMap.mem_toList_iff_getElem?_eq_some.1 listed
    apply bound x v.slot
    apply pinnedSlot?_eq_some.2
    use v, entry

/-- The first free slot depends on the pinned slots alone. -/
theorem firstFree_congr (pinned : vars.pinnedSlot? = vars'.pinnedSlot?) :
  vars.firstFree = vars'.firstFree
  := by
  apply Nat.le_antisymm
  · rw [firstFree_le_iff, pinned, ← firstFree_le_iff]
  · rw [firstFree_le_iff, ← pinned, ← firstFree_le_iff]

/-- A coloring depends on the table by the slots of the pinned variables alone. -/
theorem color_congr (g : Graph) (pinned : vars.pinnedSlot? = vars'.pinnedSlot?) (k : Nat) :
  g.color vars k = g.color vars' k
  := by
  have taken (c : Coloring) (x : String) : c.taken g vars x = c.taken g vars' x := by
    simp only [Coloring.taken, pinned]
  have place : Coloring.place g vars k = Coloring.place g vars' k := by
    funext c x
    simp only [Coloring.place, taken]
  simp only [Graph.color, pinned, place, firstFree_congr pinned]

/-- Whether a variable is pinned does not depend on its slot. -/
theorem isPinned_with_slot (v : Variable) (slot : Nat) :
  ({ v with slot } : Variable).isPinned = v.isPinned
  := rfl

/-- Of two slots that a variable is given the later one counts. -/
theorem reslot_reslot (types : NameMap Ty) (x : String) (slot slot' : Nat) (entry : Option Variable) :
  reslot types x slot' (reslot types x slot entry) = reslot types x slot' entry
  := by
  cases entry with
  | none => cases known : types[x]? <;> simp [reslot, known, Variable.isPinned]
  | some v => cases pinned : v.isPinned <;> simp [reslot, pinned, isPinned_with_slot]

end VarTable

/-- A graph is determined by its nodes and their neighbours. -/
theorem Graph.ext {g h : Graph} (nodes : ∀ x, g.contains x = true ↔ h.contains x = true)
    (near : ∀ x y, y ∈ g.neighbors x ↔ y ∈ h.neighbors x) :
  g = h
  := by
  obtain ⟨adjacent, _, _⟩ := g
  obtain ⟨adjacent', _, _⟩ := h
  have same : adjacent = adjacent' := by
    apply Std.ExtTreeMap.ext_getElem?
    intro x
    have sets : adjacent.near x = adjacent'.near x := Std.ExtTreeSet.ext_mem (near x)
    have node : x ∈ adjacent ↔ x ∈ adjacent' := by simpa [contains] using nodes x
    rw [Std.ExtTreeMap.mem_iff_isSome_getElem?, Std.ExtTreeMap.mem_iff_isSome_getElem?] at node
    simp only [Adjacency.near] at sets
    cases here : adjacent[x]? with
    | none => simpa [here] using node
    | some s =>
        cases there : adjacent'[x]? with
        | none => simp [here, there] at node
        | some s' => simpa [here, there] using sets
  subst same
  rfl

/-! ### Tables with other slots -/

namespace Method

variable {m : Method} {vars : VarTable} {k k' : Nat} {x : String}

/-- The table differs from that of the method in the slots of variables that are given slots, and has
entries for some of those that lack one. -/
def Reslots (m : Method) (vars : VarTable) : Prop :=
  ∀ x, vars[x]? = m.vars[x]? ∨ (m.interference m.liveness).contains x = true
    ∧ m.vars.pinnedSlot? x = none
    ∧ ∃ slot, vars[x]? = VarTable.reslot m.liveness.types x slot m.vars[x]?

/-- Allocation gives other slots to variables that are not pinned. -/
theorem allocated_reslots (m : Method) (k : Nat) :
  m.Reslots (m.allocated k).vars
  := by
  intro x
  obtain same | same := m.allocated_eq k
  · left
    rw [same]
  · rw [same]
    simp only
    rw [VarTable.getElem?_assignAll]
    cases given : (m.coloring k).slots[x]? with
    | none =>
        left
        rfl
    | some slot =>
        obtain ⟨node, free⟩ := mem_coloring_slots.1 (Std.ExtTreeMap.mem_iff_isSome_getElem?.2 (by rw [given]; rfl))
        right
        use node, free, slot

/-- Other slots leave the pinned ones. -/
theorem Reslots.pinnedSlot?_eq (other : m.Reslots vars) :
  vars.pinnedSlot? = m.vars.pinnedSlot?
  := by
  funext x
  obtain same | ⟨-, free, slot, same⟩ := other x
  · simp only [VarTable.pinnedSlot?, same]
  · rw [free, VarTable.pinnedSlot?, same]
    cases entry : m.vars[x]? with
    | none => cases types : m.liveness.types[x]? <;> simp [VarTable.reslot, types, Variable.isPinned]
    | some v =>
        have unpinned : v.isPinned = false := by simpa [VarTable.pinnedSlot?, entry] using free
        simp [VarTable.reslot, unpinned, VarTable.isPinned_with_slot]

/-- They leave which names may take a slot. -/
theorem Reslots.takesSlot_eq (other : m.Reslots vars) (x : String) :
  vars.takesSlot x = m.vars.takesSlot x
  := by
  obtain same | ⟨-, -, slot, same⟩ := other x
  · simp only [VarTable.takesSlot, same]
  · simp only [VarTable.takesSlot, same]
    cases m.vars[x]? with
    | none => cases types : m.liveness.types[x]? <;> simp [VarTable.reslot, types]
    | some v => cases pinned : v.isPinned <;> simp [VarTable.reslot, pinned]

/-- The graph of a method depends on its table by the names and the fields alone. -/
theorem Reslots.interference_eq (other : m.Reslots vars) :
  ({ m with vars } : Method).interference m.liveness = m.interference m.liveness
  := by
  apply Graph.ext
  · intro x
    rw [contains_interference, contains_interference, other.takesSlot_eq]
    obtain same | ⟨node, -, slot, same⟩ := other x
    · rw [Std.ExtTreeMap.mem_iff_isSome_getElem?, Std.ExtTreeMap.mem_iff_isSome_getElem?, same]
    · obtain ⟨takes, known | alive⟩ := contains_interference.1 node
      · have kept : x ∈ vars := by
          rw [Std.ExtTreeMap.mem_iff_isSome_getElem?, Option.isSome_iff_exists] at known
          obtain ⟨v, entry⟩ := known
          simp [Std.ExtTreeMap.mem_iff_isSome_getElem?, same, entry, VarTable.reslot]
        constructor
        · intro _
          use takes
          left
          apply known
        · intro _
          use takes
          left
          apply kept
      · constructor
        · intro _
          use takes
          right
          apply alive
        · intro _
          use takes
          right
          apply alive
  · intro x y
    simp only [mem_neighbors_interference, other.takesSlot_eq]

/-- So the coloring is the same. -/
theorem Reslots.coloring_eq (other : m.Reslots vars) (k : Nat) :
  ({ m with vars } : Method).coloring k = m.coloring k
  := by
  have graph : ({ m with vars } : Method).interference ({ m with vars } : Method).liveness
      = m.interference m.liveness := other.interference_eq
  rw [coloring, graph]
  apply VarTable.color_congr _ other.pinnedSlot?_eq k

/-- A method without instructions or variables is not allocated. -/
theorem allocate_eq_none_iff :
  m.allocate k = none ↔ m.body = [] ∨ m.vars = ∅
  := by
  simp only [allocate, ite_eq_left_iff, reduceCtorEq, imp_false, Decidable.not_not, Bool.or_eq_true,
    List.isEmpty_iff, Std.ExtTreeMap.isEmpty_iff]

theorem allocated_of_none (none : m.allocate k = none) :
  m.allocated k = m
  := by
  simp [allocated, none]

/-- The entry of a variable after allocation. -/
theorem getElem?_allocated_of_ne_none (taken : m.allocate k ≠ none) (x : String) :
  (m.allocated k).vars[x]? = match (m.coloring k).slots[x]? with
    | some slot => VarTable.reslot m.liveness.types x slot m.vars[x]?
    | none => m.vars[x]?
  := by
  rw [ne_eq, allocate_eq_none_iff, not_or] at taken
  apply getElem?_allocated taken.1 (Std.ExtTreeMap.isEmpty_eq_false_iff.2 taken.2) x

/-- The coloring is that of the method as it was. -/
theorem coloring_allocated (m : Method) (k k' : Nat) :
  (m.allocated k).coloring k' = m.coloring k'
  := by
  rw [m.allocated_with_vars k]
  apply (m.allocated_reslots k).coloring_eq k'

/-- A method that has been allocated can be allocated again. -/
theorem allocate_allocated_ne_none (taken : m.allocate k' ≠ none) :
  (m.allocated k).allocate k' ≠ none
  := by
  rw [ne_eq, allocate_eq_none_iff, not_or] at taken ⊢
  rw [m.allocated_with_vars k]
  use taken.1
  intro empty
  apply taken.2
  rw [Std.ExtTreeMap.eq_empty_iff_forall_not_mem] at empty ⊢
  intro x mem
  apply empty x (mem_allocated_of_mem mem)

/-- An allocation ends where it would have ended without an earlier one, since a variable that has been given
a slot is given one again. -/
theorem allocated_allocated (m : Method) (k k' : Nat) :
  (m.allocated k).allocated k' = m.allocated k'
  := by
  by_cases idle : m.allocate k' = none
  · have idle' : m.allocate k = none := by rwa [allocate_eq_none_iff] at idle ⊢
    rw [allocated_of_none idle']
  · have vars : ((m.allocated k).allocated k').vars = (m.allocated k').vars := by
      apply Std.ExtTreeMap.ext_getElem?
      intro x
      have types : (m.allocated k).liveness.types = m.liveness.types := by rw [m.allocated_with_vars k]; rfl
      rw [getElem?_allocated_of_ne_none (allocate_allocated_ne_none idle), getElem?_allocated_of_ne_none idle,
        coloring_allocated, types]
      obtain same | ⟨node, free, slot, same⟩ := m.allocated_reslots k x
      · rw [same]
      · have given : x ∈ (m.coloring k').slots := mem_coloring_slots.2 ⟨node, free⟩
        rw [Std.ExtTreeMap.mem_iff_isSome_getElem?, Option.isSome_iff_exists] at given
        obtain ⟨slot', given⟩ := given
        simp only [given, same, VarTable.reslot_reslot]
    rw [(m.allocated k).allocated_with_vars k', vars, m.allocated_with_vars k, ← m.allocated_with_vars k']

/-- The report of an allocation, if the method is taken on. -/
theorem map_report_allocate (m : Method) (k : Nat) :
  (m.allocate k).map MethodAllocation.report
    = if m.allocate k = none then none else some ⟨m.name, k, (m.coloring k).needed⟩
  := by
  unfold allocate
  split
  · rfl
  · rfl

/-- The report is the same the second time. -/
theorem map_report_allocate_allocated (m : Method) (k k' : Nat) :
  ((m.allocated k).allocate k').map MethodAllocation.report
    = (m.allocate k').map MethodAllocation.report
  := by
  rw [map_report_allocate, map_report_allocate, coloring_allocated]
  by_cases idle : m.allocate k' = none
  · have idle' : m.allocate k = none := by rwa [allocate_eq_none_iff] at idle ⊢
    rw [allocated_of_none idle']
  · have name : (m.allocated k).name = m.name := by rw [m.allocated_with_vars k]
    rw [if_neg idle, if_neg (allocate_allocated_ne_none idle), name]

end Method

/-! ### Classes -/

/-- The reports of a class are those of its methods. -/
theorem ClassUnit.reports_eq (u : ClassUnit) (k : Nat) :
  u.reports k = u.methods.filterMap fun m => (m.allocate k).map MethodAllocation.report
  := by
  simp [reports, allocation, ClassAllocation.reports, Int.not_lt.2 (Int.natCast_nonneg k)]

/-- Allocating a class after another allocation leaves the class and the reports of the later one
alone. -/
theorem allocate_absorbs (u : ClassUnit) (k k' : Nat) :
  (u.allocate k).allocate k' = u.allocate k' ∧ (u.allocate k).reports k' = u.reports k'
  := by
  have first := u.allocate_eq (Int.natCast_nonneg k)
  rw [Int.toNat_natCast] at first
  constructor
  · rw [ClassUnit.allocate_eq _ (Int.natCast_nonneg k'), ClassUnit.allocate_eq _ (Int.natCast_nonneg k'), first]
    simp [Function.comp_def, Method.allocated_allocated]
  · rw [ClassUnit.reports_eq, ClassUnit.reports_eq, first]
    simp only [List.filterMap_map, Function.comp_def, Method.map_report_allocate_allocated]

end StackBackend
