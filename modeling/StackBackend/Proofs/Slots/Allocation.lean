import StackBackend.Proofs.Execution.Program
import StackBackend.Proofs.Slots.Coloring
import StackBackend.Proofs.Slots.Interference
import StackBackend.Slots.Allocation

/-!
# The slots after allocation

Allocation writes the slots of the coloring into the table, one after another. A pinned variable
keeps its slot, any other variable gets the slot it was given, and a variable that the table lacked
is entered. Where the pinned variables have slots of their own, two variables that interfere end up
in different slots.
-/

namespace StackBackend

/-! ### The table -/

namespace VarTable

variable {types : NameMap Ty}

/-- The entry of a variable that is given a slot. -/
def reslot (types : NameMap Ty) (x : String) (slot : Nat) : Option Variable → Option Variable
  | some v => some (if v.isPinned then v else { v with slot := slot })
  | none => types[x]?.map fun ty => ⟨.temporary, slot, ty⟩

/-- Assigning a slot changes the entry of that name alone. -/
theorem getElem?_assign (vars : VarTable) (x y : String) (slot : Nat) :
  (assign types vars x slot)[y]? = if x = y then reslot types x slot vars[x]? else vars[y]?
  := by
  unfold assign
  split
  · next v entry =>
      split
      · next pinned =>
          split
          · next same => rw [← same, entry, reslot, if_pos pinned]
          · rfl
      · next free =>
          rw [Std.ExtTreeMap.getElem?_insert, entry, reslot, if_neg free]
          simp only [Std.compare_eq_iff_eq]
  · next missing =>
      split
      · next ty known =>
          rw [Std.ExtTreeMap.getElem?_insert, missing, reslot, known]
          simp only [Std.compare_eq_iff_eq, Option.map_some]
      · next unknown =>
          split
          · next same => rw [← same, missing, reslot, unknown, Option.map_none]
          · rfl

/-- A name without a slot of its own keeps its entry. -/
theorem getElem?_foldl_assign_of_not_mem {slots : List (String × Nat)} {x : String}
    (absent : x ∉ slots.map Prod.fst) (vars : VarTable) :
  (slots.foldl (fun vars e => assign types vars e.1 e.2) vars)[x]? = vars[x]?
  := by
  induction slots generalizing vars with
  | nil => rfl
  | cons e slots ih =>
      rw [List.map_cons, List.mem_cons, not_or] at absent
      rw [List.foldl_cons, ih absent.2, getElem?_assign, if_neg (Ne.symm absent.1)]

/-- In a row of assignments to different variables each gets its own slot. -/
theorem getElem?_foldl_assign_of_mem {slots : List (String × Nat)}
    (once : (slots.map Prod.fst).Nodup) {x : String} {slot : Nat} (mem : (x, slot) ∈ slots)
    (vars : VarTable) :
  (slots.foldl (fun vars e => assign types vars e.1 e.2) vars)[x]? = reslot types x slot vars[x]?
  := by
  induction slots generalizing vars with
  | nil => simp at mem
  | cons e slots ih =>
      rw [List.map_cons, List.nodup_cons] at once
      rw [List.foldl_cons]
      obtain rfl | later := List.mem_cons.1 mem
      · rw [getElem?_foldl_assign_of_not_mem once.1, getElem?_assign, if_pos rfl]
      · have other : e.1 ≠ x := by
          rintro rfl
          apply once.1 (List.mem_map.2 ⟨_, later, rfl⟩)
        rw [ih once.2 later, getElem?_assign, if_neg other]

/-- The table after all slots of a coloring are written to it. -/
theorem getElem?_assignAll (slots : NameMap Nat) (vars : VarTable) (x : String) :
  (slots.toList.foldl (fun vars e => assign types vars e.1 e.2) vars)[x]?
    = match slots[x]? with
      | some slot => reslot types x slot vars[x]?
      | none => vars[x]?
  := by
  cases given : slots[x]? with
  | some slot =>
      apply getElem?_foldl_assign_of_mem
      · rw [Std.ExtTreeMap.map_fst_toList_eq_keys]
        apply Std.ExtTreeMap.nodup_keys
      · apply Std.ExtTreeMap.mem_toList_iff_getElem?_eq_some.2 given
  | none =>
      apply getElem?_foldl_assign_of_not_mem
      rw [Std.ExtTreeMap.map_fst_toList_eq_keys, Std.ExtTreeMap.mem_keys,
        Std.ExtTreeMap.mem_iff_isSome_getElem?, given]
      simp

end VarTable

/-! ### Allocated methods -/

namespace Method

variable {m : Method} {k : Nat} {x : String} {v : Variable}

/-- The method with its slots allocated; one without instructions or variables stays as it is. -/
def allocated (m : Method) (k : Nat) : Method :=
  ((m.allocate k).map MethodAllocation.method).getD m

/-- The coloring that the slots are taken from. -/
def coloring (m : Method) (k : Nat) : Coloring := (m.interference m.liveness).color m.vars k

/-- A method is left as it is, or gets the slots of its coloring. -/
theorem allocated_eq (m : Method) (k : Nat) :
  m.allocated k = m ∨ m.allocated k = { m with
    vars := (m.coloring k).slots.toList.foldl
      (fun vars e => VarTable.assign m.liveness.types vars e.1 e.2) m.vars }
  := by
  unfold allocated allocate
  split
  · left
    rfl
  · right
    rfl

/-- Allocation changes the table only. -/
theorem allocated_with_vars (m : Method) (k : Nat) :
  m.allocated k = { m with vars := (m.allocated k).vars }
  := by
  obtain same | same := m.allocated_eq k <;> rw [same]

theorem vars_isEmpty_eq_false (entry : m.vars[x]? = some v) :
  m.vars.isEmpty = false
  := by
  cases empty : m.vars.isEmpty with
  | false => rfl
  | true =>
      rw [Std.ExtTreeMap.isEmpty_iff] at empty
      simp [empty] at entry

/-- A method with instructions and variables is given the slots of the coloring. -/
theorem getElem?_allocated (body : m.body ≠ []) (vars : m.vars.isEmpty = false) (x : String) :
  (m.allocated k).vars[x]? = match (m.coloring k).slots[x]? with
    | some slot => VarTable.reslot m.liveness.types x slot m.vars[x]?
    | none => m.vars[x]?
  := by
  have some_body : m.body.isEmpty = false := by simpa using body
  rw [← VarTable.getElem?_assignAll]
  simp [allocated, allocate, some_body, vars, coloring]

/-- The variables that are given slots are the nodes of the graph that are not pinned. -/
theorem mem_coloring_slots :
  x ∈ (m.coloring k).slots
    ↔ (m.interference m.liveness).contains x = true ∧ m.vars.pinnedSlot? x = none
  := by
  rw [coloring, (Graph.color_fits _ m.vars k).placed, List.mem_filter, Graph.mem_nodes,
    Option.isNone_iff_eq_none]

/-- A pinned variable keeps its entry. -/
theorem allocated_pinned (body : m.body ≠ []) (entry : m.vars[x]? = some v)
    (pinned : v.isPinned = true) :
  (m.allocated k).vars[x]? = some v
  := by
  have absent : (m.coloring k).slots[x]? = none := by
    have not_free : m.vars.pinnedSlot? x = some v.slot :=
      VarTable.pinnedSlot?_eq_some.2 ⟨v, entry, pinned, rfl⟩
    apply Std.ExtTreeMap.getElem?_eq_none
    rw [mem_coloring_slots, not_free]
    simp
  rw [getElem?_allocated body (vars_isEmpty_eq_false entry), absent, entry]

/-- A variable that is neither pinned nor a field gets the slot it was given. -/
theorem allocated_temporary (body : m.body ≠ []) (entry : m.vars[x]? = some v)
    (free : v.isPinned = false) (local' : v.scope ≠ .field) :
  ∃ slot, (m.coloring k).slots[x]? = some slot
    ∧ (m.allocated k).vars[x]? = some { v with slot := slot }
  := by
  have given : x ∈ (m.coloring k).slots := by
    rw [mem_coloring_slots, contains_interference]
    refine ⟨⟨?_, .inl ?_⟩, ?_⟩
    · simp [VarTable.takesSlot, entry, local']
    · rw [Std.ExtTreeMap.mem_iff_isSome_getElem?, entry]
      rfl
    · simp [VarTable.pinnedSlot?, entry, free]
  rw [Std.ExtTreeMap.mem_iff_isSome_getElem?, Option.isSome_iff_exists] at given
  obtain ⟨slot, given⟩ := given
  use slot, given
  rw [getElem?_allocated body (vars_isEmpty_eq_false entry), given, entry]
  simp [VarTable.reslot, free]

/-- The slot of a node of the graph after allocation: its own if it is pinned, or the one it was
given. -/
theorem slotOf_allocated {n : Nat} (body : m.body ≠ [])
    (node : (m.interference m.liveness).contains x = true)
    (slot : (m.allocated k).slotOf x = some n) :
  m.vars.pinnedSlot? x = some n ∨ (m.coloring k).slots[x]? = some n
  := by
  cases empty : m.vars.isEmpty with
  | true =>
      have same : m.allocated k = m := by simp [allocated, allocate, empty]
      rw [Std.ExtTreeMap.isEmpty_iff] at empty
      simp [same, slotOf, empty] at slot
  | false =>
      rw [slotOf, getElem?_allocated body empty] at slot
      cases given : (m.coloring k).slots[x]? with
      | some n' =>
          right
          have placed : x ∈ (m.coloring k).slots := by
            rw [Std.ExtTreeMap.mem_iff_isSome_getElem?, given]
            rfl
          have free := (mem_coloring_slots.1 placed).2
          cases entry : m.vars[x]? with
          | some v =>
              have unpinned : v.isPinned = false := by simpa [VarTable.pinnedSlot?, entry] using free
              simpa [given, entry, VarTable.reslot, unpinned] using slot
          | none =>
              simp only [given, entry, VarTable.reslot, Option.map_map, Option.map_eq_some_iff] at slot
              obtain ⟨ty, -, rfl⟩ := slot
              rfl
      | none =>
          left
          have not_placed : x ∉ (m.coloring k).slots := by
            rw [Std.ExtTreeMap.mem_iff_isSome_getElem?, given]
            simp
          cases pinned : m.vars.pinnedSlot? x with
          | none => apply (not_placed (mem_coloring_slots.2 ⟨node, pinned⟩)).elim
          | some n' =>
              obtain ⟨v, entry, -, rfl⟩ := VarTable.pinnedSlot?_eq_some.1 pinned
              simpa [given, entry] using slot

end Method

end StackBackend
