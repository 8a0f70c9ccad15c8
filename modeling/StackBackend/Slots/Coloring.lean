import StackBackend.Least
import StackBackend.Slots.Graph

/-!
# Coloring

The nodes that are not pinned are given slots after the pinned ones, so that joined nodes have
different slots. Nodes are first taken out of the graph one by one: the first in the order of
names with fewer than `k` neighbours left, or else the first of those with the most. They are
then given slots in the opposite order, each the least slot that no neighbour has. The result
may need more than `k` slots.
-/

namespace StackBackend

/-- The slot of a pinned variable. -/
def VarTable.pinnedSlot? (vars : VarTable) (x : String) : Option Nat :=
  (vars[x]?.filter Variable.isPinned).map Variable.slot

/-- The first slot after those of pinned variables. Slots are natural numbers: that the slot after
the last one of a machine word does not exist is left out. -/
def VarTable.firstFree (vars : VarTable) : Nat :=
  ((vars.toList.filter (·.2.isPinned)).map (·.2.slot + 1)).foldl max 0

/-! ### Taking nodes out -/

/-- A node that is still in the graph, with the number of its neighbours that are. -/
structure Candidate where
  name : String
  degree : Nat
deriving DecidableEq, Repr, Inhabited

/-- The first candidate with the greatest degree among `best` and those after it. -/
def densest (best : Candidate) : List Candidate → Candidate
  | [] => best
  | x :: xs => densest (if best.degree < x.degree then x else best) xs

/-- The candidate to take out next: the first with a degree below `k`, or the first of the
greatest degree. -/
def nextOut (k : Nat) (x : Candidate) (xs : List Candidate) : Candidate :=
  ((x :: xs).find? (·.degree < k)).getD (densest x xs)

theorem densest_mem (best : Candidate) (xs : List Candidate) :
  densest best xs ∈ best :: xs
  := by
  induction xs generalizing best with
  | nil => simp [densest]
  | cons x xs ih =>
      rw [densest]
      split
      · exact List.mem_cons_of_mem best (ih x)
      · obtain h | h := List.mem_cons.mp (ih best)
        · exact List.mem_cons.mpr (.inl h)
        · exact List.mem_cons_of_mem best (List.mem_cons_of_mem x h)

theorem nextOut_mem (k : Nat) (x : Candidate) (xs : List Candidate) :
  nextOut k x xs ∈ x :: xs
  := by
  unfold nextOut
  cases h : (x :: xs).find? (·.degree < k) with
  | none => exact densest_mem x xs
  | some y => exact List.mem_of_find?_eq_some h

/-- The candidate `x` when the node `y` is taken out. -/
def Candidate.without (g : Graph) (y : String) (x : Candidate) : Candidate :=
  if g.interferes y x.name then { x with degree := x.degree - 1 } else x

/-- The order in which candidates are taken out. -/
def Graph.eliminate (g : Graph) (k : Nat) : List Candidate → List String
  | [] => []
  | x :: xs =>
      let y := nextOut k x xs
      y.name :: g.eliminate k (((x :: xs).erase y).map (Candidate.without g y.name))
termination_by left => left.length
decreasing_by
  rw [List.length_map, List.length_erase_of_mem (nextOut_mem _ _ _)]
  simp

/-! ### Giving slots -/

/-- Slots for nodes: `offset` is the first slot that may be given, `needed` the number of slots
given, and `spilled` the nodes whose slot is beyond the budget. -/
structure Coloring where
  slots : NameMap Nat
  offset : Nat
  needed : Nat
  spilled : List String

/-- The slots of the neighbours of `x`, as far as they have one. -/
def Coloring.taken (c : Coloring) (g : Graph) (vars : VarTable) (x : String) : List Nat :=
  (g.neighbors x).toList.filterMap fun y => vars.pinnedSlot? y <|> c.slots[y]?

/-- Gives `x` the least slot that no neighbour has. -/
def Coloring.place (g : Graph) (vars : VarTable) (k : Nat) (c : Coloring) (x : String) :
    Coloring :=
  let taken := c.taken g vars x
  let j := leastFrom (fun j => c.offset + j ∉ taken) 0 taken.length
  { c with
    slots := c.slots.insert x (c.offset + j)
    needed := max c.needed (j + 1)
    spilled := if j < k then c.spilled else c.spilled ++ [x] }

/-- The slots that the nodes of a graph are given with a budget of `k` slots. -/
def Graph.color (g : Graph) (vars : VarTable) (k : Nat) : Coloring :=
  let free := g.nodes.filter fun x => (vars.pinnedSlot? x).isNone
  let order := g.eliminate k (free.map fun x => ⟨x, g.degree x⟩)
  order.reverse.foldl (Coloring.place g vars k) ⟨∅, vars.firstFree, 0, []⟩

end StackBackend
