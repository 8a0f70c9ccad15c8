import StackBackend.Program.Variable
import StackBackend.Text

/-!
# Interference graphs

A simple undirected graph over names: every edge is held at both of its ends, and no name is
joined to itself.
-/

namespace StackBackend

/-- The neighbours held at each name. -/
abbrev Adjacency := NameMap NameSet

namespace Adjacency

/-- The neighbours held at `x`. -/
def near (adj : Adjacency) (x : String) : NameSet := adj[x]?.getD ∅

/-- Adds `y` to the neighbours held at `x`. -/
def link (adj : Adjacency) (x y : String) : Adjacency := adj.insert x ((adj.near x).insert y)

theorem mem_near_link {adj : Adjacency} {x y z w : String} :
  w ∈ (adj.link x y).near z ↔ w ∈ adj.near z ∨ x = z ∧ y = w
  := by
  simp only [near, link, Std.ExtTreeMap.getElem?_insert, Std.compare_eq_iff_eq]
  split
  · next h =>
      subst h
      simp [Std.ExtTreeSet.mem_insert, or_comm]
  · next h => simp [h]

/-- Adds `x` without neighbours, unless it is there. -/
def enter (adj : Adjacency) (x : String) : Adjacency := adj.insertIfNew x ∅

theorem near_enter {adj : Adjacency} {x z : String} :
  (adj.enter x).near z = adj.near z
  := by
  simp only [near, enter, Std.ExtTreeMap.getElem?_insertIfNew, Std.compare_eq_iff_eq]
  split
  · next h =>
      obtain ⟨rfl, h⟩ := h
      simp [Std.ExtTreeMap.getElem?_eq_none h]
  · rfl

end Adjacency

/-- A simple undirected graph over names. -/
structure Graph where
  adjacent : Adjacency
  symm : ∀ x y, y ∈ adjacent.near x → x ∈ adjacent.near y
  loopless : ∀ x, x ∉ adjacent.near x

namespace Graph

/-- The graph without nodes. -/
def empty : Graph where
  adjacent := ∅
  symm := by simp [Adjacency.near]
  loopless := by simp [Adjacency.near]

/-- Adds a node; a node that is there keeps its neighbours. -/
def addNode (g : Graph) (x : String) : Graph where
  adjacent := g.adjacent.enter x
  symm := by
    intro y z
    rw [Adjacency.near_enter, Adjacency.near_enter]
    exact g.symm y z
  loopless := by
    intro y
    rw [Adjacency.near_enter]
    exact g.loopless y

/-- Joins two names, which become nodes; a name is not joined to itself. -/
def addEdge (g : Graph) (x y : String) : Graph :=
  if h : x = y then g.addNode x
  else {
    adjacent := (g.adjacent.link x y).link y x
    symm := by
      intro z w
      simp only [Adjacency.mem_near_link]
      rintro ((hm | ⟨rfl, rfl⟩) | ⟨rfl, rfl⟩)
      · exact .inl (.inl (g.symm z w hm))
      · exact .inr ⟨rfl, rfl⟩
      · exact .inl (.inr ⟨rfl, rfl⟩)
    loopless := by
      intro z
      simp only [Adjacency.mem_near_link]
      rintro ((hm | ⟨rfl, rfl⟩) | ⟨rfl, rfl⟩)
      · exact g.loopless z hm
      · exact h rfl
      · exact h rfl
  }

/-- Joins `x` to each of the names. -/
def joinAll (g : Graph) (x : String) (names : NameSet) : Graph :=
  names.toList.foldl (fun g y => g.addEdge x y) g

/-- Joins any two names of each set, when those of the set `joined` are joined already. Of two
names that the set before does not hold together it lacks one, so it is enough to join the names
that it lacks. -/
def addCliques (g : Graph) (joined : NameSet) : List NameSet → Graph
  | [] => g
  | s :: ss => ((s \ joined).toList.foldl (fun g x => g.joinAll x s) g).addCliques s ss

/-- The nodes in the order of their names. -/
def nodes (g : Graph) : List String := g.adjacent.keys

/-- Whether `x` is a node. -/
def contains (g : Graph) (x : String) : Bool := g.adjacent.contains x

theorem mem_nodes {g : Graph} {x : String} :
  x ∈ g.nodes ↔ g.contains x = true
  := by
  rw [nodes, contains, Std.ExtTreeMap.mem_keys, Std.ExtTreeMap.contains_iff_mem]

/-- The neighbours of `x`. -/
def neighbors (g : Graph) (x : String) : NameSet := g.adjacent.near x

/-- Whether `x` and `y` are joined. -/
def interferes (g : Graph) (x y : String) : Bool := (g.neighbors x).contains y

theorem interferes_iff {g : Graph} {x y : String} :
  g.interferes x y = true ↔ y ∈ g.neighbors x
  := Std.ExtTreeSet.contains_iff_mem

/-- The number of neighbours of `x`. -/
def degree (g : Graph) (x : String) : Nat := (g.neighbors x).size

/-- The number of nodes. -/
def size (g : Graph) : Nat := g.adjacent.size

/-- Whether the graph has no nodes. -/
def isEmpty (g : Graph) : Bool := g.adjacent.isEmpty

/-- The text of a graph: a line for each node with its neighbours. -/
def text (g : Graph) : String :=
  Text.ofLines (g.nodes.map fun x =>
    x ++ ": " ++ Text.enclose (g.neighbors x).toList "\x7b" ", " "\x7d")

end Graph

end StackBackend
