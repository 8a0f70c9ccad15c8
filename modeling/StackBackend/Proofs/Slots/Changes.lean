import StackBackend.Proofs.Execution.Reading
import StackBackend.Proofs.Slots.LivePaths
import StackBackend.Proofs.Slots.Repetition

/-!
# What allocation changes

Of a class only the tables of its methods change. The receiver, the parameters and the fields keep their
entries, and a temporary keeps all of its entry but the slot. A table gains the names that it lacks and
that some instruction writes or that are live after one, as temporaries with the types they first appear
with. In an instruction the variable that is written appears before those that are read; an array of which
an element is written counts among the ones that are read, and comes last.
-/

namespace StackBackend

/-! ### Names that are entered -/

/-- A variable that an instruction writes or reads appears in it with a type. -/
theorem Instr.exists_typedNames {i : Instr} {x : String} (named : x ∈ i.defs ∨ x ∈ i.uses) :
  ∃ ty, (x, ty) ∈ i.typedNames
  := by
  obtain written | read := named
  · obtain ⟨ty, target⟩ := mem_defs.1 written
    use ty
    simp [typedNames, target]
  · obtain ⟨e, listed, named⟩ := mem_uses.1 read
    obtain ⟨⟨_, ty⟩, typed, rfl⟩ := List.mem_map.1 named
    use ty
    apply List.mem_append_right
    apply List.mem_flatMap.2
    use e, listed, typed

/-- Every name that an instruction defines or uses has a first type. -/
theorem mem_firstTypes {body : List Instr} {i : Instr} {x : String} (listed : i ∈ body)
    (named : x ∈ i.defs ∨ x ∈ i.uses) :
  x ∈ firstTypes body
  := by
  obtain ⟨ty, typed⟩ := i.exists_typedNames named
  rw [Std.ExtTreeMap.mem_iff_isSome_getElem?, getElem?_firstTypes, Option.isSome_iff_ne_none, ne_eq,
    List.lookup_eq_none_iff]
  intro unnamed
  simpa using unnamed (x, ty) (List.mem_flatMap.2 ⟨i, listed, typed⟩)

namespace Method

variable {m : Method} {k : Nat} {x : String} {v : Variable}

/-- A variable is occupied somewhere when some instruction writes it or it is found after one. -/
theorem exists_mem_occupiedSets :
  (∃ alive ∈ m.liveness.occupiedSets, x ∈ alive) ↔ ∃ i, x ∈ m.defsAt i ∨ x ∈ m.liveness.sets.afterAt i
  := by
  constructor
  · rintro ⟨alive, listed, mem⟩
    obtain ⟨i, at_i⟩ := List.mem_iff_getElem?.1 listed
    rw [getElem?_occupiedSets, Option.map_eq_some_iff] at at_i
    obtain ⟨instr, at_i, rfl⟩ := at_i
    use i
    rw [defsAt, at_i]
    apply Std.ExtTreeSet.mem_union_iff.1 mem
  · rintro ⟨i, named⟩
    cases at_i : m.body[i]? with
    | none =>
        rw [liveness, mem_afterAt_iff m.mem_reverse_range_body, successorsAt_eq, defsAt, at_i] at named
        simp at named
    | some instr =>
        rw [defsAt, at_i] at named
        refine ⟨instr.defs ∪ m.liveness.sets.afterAt i, ?_, Std.ExtTreeSet.mem_union_iff.2 named⟩
        apply List.mem_of_getElem? (i := i)
        rw [getElem?_occupiedSets, at_i, Option.map_some]

/-- Such a variable stands in the body with a type. -/
theorem mem_firstTypes_of_occupied (named : ∃ i, x ∈ m.defsAt i ∨ x ∈ m.liveness.sets.afterAt i) :
  x ∈ firstTypes m.body
  := by
  obtain ⟨i, written | alive⟩ := named
  · unfold defsAt at written
    cases at_i : m.body[i]? with
    | none => simp [at_i] at written
    | some instr =>
        apply mem_firstTypes (List.mem_of_getElem? at_i)
        left
        simpa [at_i] using written
  · rw [liveness, mem_afterAt_iff m.mem_reverse_range_body] at alive
    obtain ⟨j, -, alive⟩ := alive
    rw [mem_livenessInOrder_before m.mem_reverse_range_body] at alive
    obtain ⟨instr, listed, used⟩ := exists_uses_of_liveAt alive
    apply mem_firstTypes listed (.inr used)

/-- The entry of a variable that the table lacks. -/
theorem getElem?_allocated_of_not_mem (taken : m.allocate k ≠ none) (missing : x ∉ m.vars) :
  (m.allocated k).vars[x]? = (m.coloring k).slots[x]?.bind fun slot =>
    ((m.body.flatMap Instr.typedNames).lookup x).map fun ty => ⟨.temporary, slot, ty⟩
  := by
  have types : m.liveness.types = firstTypes m.body := rfl
  rw [getElem?_allocated_of_ne_none taken, Std.ExtTreeMap.getElem?_eq_none missing]
  cases (m.coloring k).slots[x]? with
  | none => rfl
  | some slot => simp only [VarTable.reslot, types, getElem?_firstTypes, Option.bind_some]

/-- The names that are entered are those that are occupied somewhere. -/
theorem mem_allocated_iff_of_not_mem (taken : m.allocate k ≠ none) (missing : x ∉ m.vars) :
  x ∈ (m.allocated k).vars ↔ ∃ i, x ∈ m.defsAt i ∨ x ∈ m.liveness.sets.afterAt i
  := by
  constructor
  · intro mem
    apply exists_mem_occupiedSets.1 (of_mem_allocated missing mem).2.2
  · intro named
    have absent : m.vars[x]? = none := Std.ExtTreeMap.getElem?_eq_none missing
    have placed : x ∈ (m.coloring k).slots := by
      rw [mem_coloring_slots, contains_interference]
      refine ⟨⟨?_, .inr (exists_mem_occupiedSets.2 named)⟩, ?_⟩
      · simp [VarTable.takesSlot, absent]
      · simp [VarTable.pinnedSlot?, absent]
    have typed := mem_firstTypes_of_occupied named
    rw [Std.ExtTreeMap.mem_iff_isSome_getElem?] at placed typed ⊢
    rw [getElem?_firstTypes] at typed
    obtain ⟨slot, placed⟩ := Option.isSome_iff_exists.1 placed
    rw [getElem?_allocated_of_not_mem taken missing, placed]
    simpa using typed

/-! ### Methods -/

/-- `m'` is `m` with other slots for temporaries, and with temporaries entered for the names that are
written or live after an instruction and that the table lacks. -/
structure Reslotted (m m' : Method) : Prop where
  rest : m' = { m with vars := m'.vars }
  fixed : ∀ (x : String) (v : Variable), m.vars[x]? = some v → v.scope ≠ .temporary → m'.vars[x]? = some v
  kept : ∀ (x : String) (v : Variable), m.vars[x]? = some v → ∃ slot, m'.vars[x]? = some { v with slot }
  entered : ∀ x : String, x ∉ m.vars →
    (x ∈ m'.vars ↔ m.vars ≠ ∅ ∧ ∃ i, x ∈ m.defsAt i ∨ x ∈ m.liveness.sets.afterAt i)
  entry : ∀ (x : String) (v : Variable), x ∉ m.vars → m'.vars[x]? = some v →
    v.scope = .temporary ∧ (m.body.flatMap Instr.typedNames).lookup x = some v.ty
  idle : m.body = [] ∨ m.vars = ∅ → m' = m

/-- The receiver, a parameter or a field keeps its entry. -/
theorem Reslots.fixed {vars : VarTable} (other : m.Reslots vars) (entry : m.vars[x]? = some v)
    (owned : v.scope ≠ .temporary) :
  vars[x]? = some v
  := by
  obtain same | ⟨node, free, -⟩ := other x
  · rw [same, entry]
  · have unpinned : v.isPinned = false := by simpa [VarTable.pinnedSlot?, entry] using free
    have takes : v.scope ≠ .field := by
      simpa [VarTable.takesSlot, entry] using (contains_interference.1 node).1
    cases scope : v.scope with
    | receiver | parameter => simp [Variable.isPinned, scope] at unpinned
    | temporary => apply (owned scope).elim
    | field => apply (takes scope).elim

/-- A variable keeps its scope and its type. -/
theorem Reslots.kept {vars : VarTable} (other : m.Reslots vars) (entry : m.vars[x]? = some v) :
  ∃ slot, vars[x]? = some { v with slot }
  := by
  obtain same | ⟨-, -, slot, same⟩ := other x
  · use v.slot
    rw [same, entry]
  · rw [same, entry]
    simp only [VarTable.reslot]
    split
    · use v.slot
    · use slot

/-- Allocation gives temporaries other slots, and enters those that are written or live. -/
theorem allocated_reslotted (m : Method) (k : Nat) :
  m.Reslotted (m.allocated k)
  where
  rest := m.allocated_with_vars k
  fixed _ _ entry owned := (m.allocated_reslots k).fixed entry owned
  kept _ _ entry := (m.allocated_reslots k).kept entry
  entered x missing := by
    by_cases idle : m.allocate k = none
    · rw [allocated_of_none idle]
      obtain none | none := allocate_eq_none_iff.1 idle
      · have nowhere : ¬∃ i, x ∈ m.defsAt i ∨ x ∈ m.liveness.sets.afterAt i := by
          intro named
          simpa [firstTypes, none] using mem_firstTypes_of_occupied named
        simp [missing, nowhere]
      · simp [none]
    · have vars : m.vars ≠ ∅ := fun none => idle (allocate_eq_none_iff.2 (.inr none))
      simp [mem_allocated_iff_of_not_mem idle missing, vars]
  entry x v missing found := by
    have taken : m.allocate k ≠ none := by
      intro idle
      rw [allocated_of_none idle, Std.ExtTreeMap.getElem?_eq_none missing] at found
      simp at found
    rw [getElem?_allocated_of_not_mem taken missing, Option.bind_eq_some_iff] at found
    obtain ⟨slot, -, found⟩ := found
    obtain ⟨ty, typed, rfl⟩ := Option.map_eq_some_iff.1 found
    use rfl, typed
  idle none := allocated_of_none (allocate_eq_none_iff.2 none)

end Method

/-! ### Classes -/

/-- Allocation changes nothing of a class but the tables of its methods, and of these the slots of the
temporaries and the entries that they gain. The reports are those of the methods that have instructions
and variables. -/
theorem allocate_reslotted (u : ClassUnit) (k : Nat) :
  u.allocate k = { u with methods := (u.allocate k).methods }
    ∧ List.Forall₂ Method.Reslotted u.methods (u.allocate k).methods
    ∧ u.reports k = (u.methods.filter fun m => !(m.body.isEmpty || m.vars.isEmpty)).map
      fun m => ⟨m.name, k, (m.coloring k).needed⟩
  := by
  rw [u.allocate_eq (Int.natCast_nonneg k), Int.toNat_natCast]
  use rfl
  constructor
  · rw [List.forall₂_map_right_iff]
    apply List.forall₂_same.2
    intro m _
    apply m.allocated_reslotted k
  · rw [ClassUnit.reports_eq, ← List.filterMap_eq_map, List.filterMap_filter]
    congr 1
    funext m
    rw [Method.map_report_allocate]
    by_cases idle : m.allocate k = none
    · rw [if_pos idle]
      obtain none | none := Method.allocate_eq_none_iff.1 idle <;> simp [none]
    · rw [if_neg idle]
      rw [Method.allocate_eq_none_iff, not_or] at idle
      simp [idle]

/-- The variables of an instruction with their types, those of its target first whether or not it is an
element of an array. -/
def Instr.typedNamesTargetFirst (i : Instr) : List (String × Ty) :=
  (i.target?.toList ++ i.reads).flatMap Operand.typedNames

/-- A class whose method writes into an array that its table lacks the array itself, read as a number. -/
def storing : ClassUnit where
  name := "A"
  superName := none
  imports := []
  fields := []
  methods := [{
    name := "f"
    access := .package
    isStatic := true
    isConstructor := false
    params := [⟨"x", .int⟩]
    ret := .void
    body := [
      .assign (.var "x" .int) .int (.single (.literal "1" .int)),
      .assign (.item "a" (.literal "0" .int) .int) .int (.single (.var "a" .int))]
    labels := []
    vars := Std.ExtTreeMap.ofList [("x", Variable.mk .parameter 0 .int)] }]

/-- The array is entered with the type that it is read with, and not with that of the target. -/
theorem storing_typed_as_read :
  storing.methods.map (fun m => m.vars["a"]?) = [none]
    ∧ (storing.allocate 1).methods.map (fun m => m.vars["a"]?) = [some ⟨.temporary, 1, .int⟩]
    ∧ storing.methods.map (fun m => (m.body.flatMap Instr.typedNamesTargetFirst).lookup "a")
      = [some (.array .int)]
  := by
  and_intros
  · decide +kernel
  · decide +kernel
  · decide +kernel

end StackBackend
