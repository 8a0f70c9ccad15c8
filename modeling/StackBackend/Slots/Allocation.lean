import StackBackend.Program.ClassUnit
import StackBackend.Slots.Coloring
import StackBackend.Slots.Liveness

/-!
# Slot allocation

The variables of a method are given new slots by a coloring of its interference graph. Two variables
interfere when both hold a value just after some instruction: one may have been written there without
being read later, and it still takes a place. A field lives in an object and takes no slot. Pinned
variables and fields keep their entries; a variable that the table lacks is entered as a temporary. A
negative budget leaves a class as it is.
-/

namespace StackBackend

/-! ### Interference -/

/-- Whether the name `x` stands for a variable that takes a slot; a name without an entry does. -/
def VarTable.takesSlot (vars : VarTable) (x : String) : Bool :=
  match vars[x]? with
  | some v => v.scope ≠ .field
  | none => true

theorem VarTable.takesSlot_iff {vars : VarTable} {x : String} :
  vars.takesSlot x = true ↔ ∀ v, vars[x]? = some v → v.scope ≠ .field
  := by
  unfold takesSlot
  split
  · next v entry => simp [entry]
  · next entry => simp [entry]

/-- The interference graph of a method with the live variables `live`. -/
def Method.interference (m : Method) (live : Liveness) : Graph :=
  let entered := (m.vars.keys.filter m.vars.takesSlot).foldl Graph.addNode .empty
  entered.addCliques ∅ (live.occupiedSets.map fun alive => alive.filter m.vars.takesSlot)

/-! ### Allocation -/

/-- How many slots a method was allowed and how many it needs beyond its pinned ones. -/
structure Report where
  method : String
  requested : Nat
  needed : Nat
deriving DecidableEq, Repr, Inhabited

namespace Report

/-- Whether more slots are needed than were allowed. -/
def isOverflow (r : Report) : Bool := r.requested < r.needed

/-- The text of a report. -/
def text (r : Report) : String :=
  r.method ++ ": " ++ toString r.requested ++ " register(s) requested, " ++ toString r.needed
    ++ " needed" ++ if r.isOverflow then " (overflow)" else ""

end Report

/-- The allocation of a method: the analyses it rests on, the variables that were entered, the
method with its new table, and the report. -/
structure MethodAllocation where
  live : Liveness
  graph : Graph
  coloring : Coloring
  entered : List String
  method : Method
  report : Report

/-- The table with the slot of `x` replaced; a pinned variable keeps its slot, and a variable
that is not there is entered if its type is known. -/
def VarTable.assign (types : NameMap Ty) (vars : VarTable) (x : String) (slot : Nat) : VarTable :=
  match vars[x]? with
  | some v => if v.isPinned then vars else vars.insert x { v with slot := slot }
  | none =>
      match types[x]? with
      | some ty => vars.insert x ⟨.temporary, slot, ty⟩
      | none => vars

/-- The allocation of a method; a method without instructions or variables has none. -/
def Method.allocate (m : Method) (k : Nat) : Option MethodAllocation :=
  if m.body.isEmpty || m.vars.isEmpty then none
  else
    let live := m.liveness
    let graph := m.interference live
    let coloring := graph.color m.vars k
    some {
      live := live
      graph := graph
      coloring := coloring
      entered := coloring.slots.keys.filter fun x => x ∉ m.vars ∧ x ∈ live.types
      method := { m with
        vars := coloring.slots.toList.foldl
          (fun vars e => VarTable.assign live.types vars e.1 e.2) m.vars }
      report := ⟨m.name, k, coloring.needed⟩
    }

/-- The allocation of a class: each method with its allocation, if it has one. -/
structure ClassAllocation where
  unit : ClassUnit
  budget : Int
  methods : List (Method × Option MethodAllocation)

/-- The allocation of a class; a negative budget allocates nothing. -/
def ClassUnit.allocation (u : ClassUnit) (k : Int) : ClassAllocation :=
  ⟨u, k, u.methods.map fun m => (m, if k < 0 then none else m.allocate k.toNat)⟩

namespace ClassAllocation

/-- The class with the slots of its methods allocated. -/
def result (a : ClassAllocation) : ClassUnit :=
  { a.unit with methods := a.methods.map fun e => (e.2.map MethodAllocation.method).getD e.1 }

/-- The reports of the methods that are allocated. -/
def reports (a : ClassAllocation) : List Report :=
  a.methods.filterMap fun e => e.2.map MethodAllocation.report

end ClassAllocation

/-- A class with the slots of its methods allocated. -/
def ClassUnit.allocate (u : ClassUnit) (k : Int) : ClassUnit := (u.allocation k).result

/-- The reports of the methods of a class that are allocated. -/
def ClassUnit.reports (u : ClassUnit) (k : Int) : List Report := (u.allocation k).reports

end StackBackend
