import Mathlib.Data.List.Perm.Subperm
import Mathlib.Order.Interval.Finset.Nat
import StackBackend.Proofs.Slots.Coloring

/-!
# Colorings leave no gaps

A node is given the least free slot that no neighbour has, so each free slot before it is that of a
neighbour, which has been given it already. Hence the slots that are given are the first free ones, as
many as are needed, and a node gets one of the first slots, no further than it has neighbours that are
not pinned.
-/

namespace StackBackend

namespace Coloring

variable {g : Graph} {vars : VarTable} {k : Nat} {c : Coloring} {done : List String} {x : String}

/-! ### The slot of one node -/

/-- A slot that a node is not given is that of a neighbour. -/
theorem exists_neighbor_of_lt (fits : Fits g vars done c) {j : Nat}
    (passed : j < c.choice g vars x) :
  ∃ y ∈ g.neighbors x, c.slots[y]? = some (c.offset + j)
  := by
  have taken := not_of_lt_leastFrom (Nat.zero_le j) passed
  simp only [decide_eq_false_iff_not, Decidable.not_not] at taken
  obtain ⟨y, listed, slot⟩ := List.mem_filterMap.1 taken
  use y, Std.ExtTreeSet.mem_toList.1 listed
  cases pinned : vars.pinnedSlot? y with
  | none => simpa [pinned] using slot
  | some n =>
      obtain rfl : n = c.offset + j := by simpa [pinned] using slot
      obtain ⟨v, entry, isPinned, same⟩ := VarTable.pinnedSlot?_eq_some.1 pinned
      have lt := VarTable.pinned_lt_firstFree entry isPinned
      rw [← fits.offset] at lt
      omega

/-- The slot of a node is no further than it has neighbours with slots. -/
theorem choice_le_length (fits : Fits g vars done c) {ys : List String}
    (listed : ∀ y ∈ g.neighbors x, y ∈ done → y ∈ ys) :
  c.choice g vars x ≤ ys.length
  := by
  generalize bound : c.choice g vars x = n
  have held : (List.range n).map (c.offset + ·) ⊆ ys.filterMap (c.slots[·]?) := by
    intro slot mem
    obtain ⟨j, lt, rfl⟩ := List.mem_map.1 mem
    rw [List.mem_range, ← bound] at lt
    obtain ⟨y, joined, given⟩ := exists_neighbor_of_lt fits lt
    apply List.mem_filterMap.2
    use y, listed y joined (fits.mem_of_slots given), given
  have once : ((List.range n).map (c.offset + ·)).Nodup :=
    List.nodup_range.map fun _ _ same => Nat.add_left_cancel same
  calc
    n = ((List.range n).map (c.offset + ·)).length := by simp
    _ ≤ (ys.filterMap (c.slots[·]?)).length := (List.subperm_of_subset once held).length_le
    _ ≤ ys.length := List.length_filterMap_le ..

/-! ### The slots that are given -/

/-- All slots that are given are among those needed. -/
def Below (c : Coloring) : Prop :=
  ∀ (x : String) (n : Nat), c.slots[x]? = some n → n < c.offset + c.needed

/-- The slot of a node is below the number that is needed. -/
theorem place_below (below : c.Below) (x : String) :
  (c.place g vars k x).Below
  := by
  intro y n given
  rw [getElem?_place] at given
  rw [place_offset, place_needed]
  split at given
  · obtain rfl := Option.some.inj given
    omega
  · have before := below y n given
    omega

/-- Each of the slots needed is given to some node. -/
def Filled (c : Coloring) : Prop :=
  ∀ j < c.needed, ∃ x : String, c.slots[x]? = some (c.offset + j)

/-- A slot is needed that was not before only when all slots before it are given. -/
theorem place_filled (fits : Fits g vars done c) (filled : c.Filled) (fresh : x ∉ done) :
  (c.place g vars k x).Filled
  := by
  have kept : ∀ (y : String) (n : Nat), c.slots[y]? = some n → (c.place g vars k x).slots[y]? = some n := by
    intro y n given
    have other : x ≠ y := by
      rintro rfl
      apply fresh (fits.mem_of_slots given)
    rw [getElem?_place, if_neg other, given]
  intro j needed
  obtain before | passed | rfl : j < c.needed ∨ j < c.choice g vars x ∨ j = c.choice g vars x := by
    rw [place_needed] at needed
    omega
  · obtain ⟨y, given⟩ := filled j before
    use y, kept y _ given
  · obtain ⟨y, -, given⟩ := exists_neighbor_of_lt fits passed
    use y, kept y _ given
  · use x
    rw [getElem?_place, if_pos rfl, place_offset]

/-- The set of the slots that are given. -/
def used (c : Coloring) : Finset Nat := (c.slots.toList.map Prod.snd).toFinset

/-- A slot that is used is that of a name. -/
theorem mem_used {n : Nat} :
  n ∈ c.used ↔ ∃ x : String, c.slots[x]? = some n
  := by
  simp [used, Std.ExtTreeMap.mem_toList_iff_getElem?_eq_some]

end Coloring

namespace Graph

/-- The number of neighbours of `x` that are not pinned. -/
def freeDegree (g : Graph) (vars : VarTable) (x : String) : Nat :=
  ((g.neighbors x).toList.filter fun y => (vars.pinnedSlot? y).isNone).length

/-- The greatest number of neighbours of a node that are not pinned. -/
def maxFreeDegree (g : Graph) (vars : VarTable) : Nat := (g.nodes.map (g.freeDegree vars)).foldl max 0

variable {g : Graph} {vars : VarTable} {k n : Nat} {x : String}

/-- The degree of a node is at most the largest one. -/
theorem freeDegree_le_max (vars : VarTable) (node : g.contains x = true) :
  g.freeDegree vars x ≤ g.maxFreeDegree vars
  := by
  apply (le_foldl_max _ 0).2
  apply List.mem_map_of_mem (mem_nodes.2 node)

/-- The slot of a node is no further than it has neighbours that are not pinned. -/
theorem choice_le_freeDegree {c : Coloring} {done : List String} (fits : Coloring.Fits g vars done c)
    (unpinned : ∀ y ∈ done, vars.pinnedSlot? y = none) :
  c.choice g vars x ≤ g.freeDegree vars x
  := by
  apply Coloring.choice_le_length fits
  intro y joined placed
  rw [List.mem_filter, Std.ExtTreeSet.mem_toList, Option.isNone_iff_eq_none]
  use joined, unpinned y placed

/-- Every slot that is given is below the number that is needed. -/
theorem color_below (g : Graph) (vars : VarTable) (k : Nat) :
  (g.color vars k).Below
  := by
  obtain ⟨-, -, -, below⟩ := g.color_induction vars k (P := fun _ c => c.Below)
    (by simp [Coloring.Below]) fun _ _ x _ _ _ below => Coloring.place_below below x
  apply below

/-- Each of the slots needed is given to some node of the graph. -/
theorem color_filled (g : Graph) (vars : VarTable) (k : Nat) :
  (g.color vars k).Filled
  := by
  obtain ⟨-, -, -, filled⟩ := g.color_induction vars k (P := fun _ c => c.Filled)
    (by simp [Coloring.Filled])
    fun _ _ _ fits once _ filled => Coloring.place_filled fits filled (List.nodup_cons.1 once).1
  apply filled

/-- The slots of a coloring are among those that it needs. -/
theorem color_slot_lt (given : (g.color vars k).slots[x]? = some n) :
  n < vars.firstFree + (g.color vars k).needed
  := by
  have lt := g.color_below vars k x n given
  rwa [(g.color_fits vars k).offset] at lt

/-- A coloring needs no more slots than one and the neighbours of a node that are not pinned. -/
theorem color_needed_le (g : Graph) (vars : VarTable) (k : Nat) :
  (g.color vars k).needed ≤ g.maxFreeDegree vars + 1
  := by
  have step : ∀ (done : List String) (c : Coloring) (x : String), Coloring.Fits g vars done c →
      (x :: done).Nodup → (∀ y ∈ x :: done, g.contains y = true ∧ vars.pinnedSlot? y = none) →
      c.needed ≤ g.maxFreeDegree vars + 1 → (c.place g vars k x).needed ≤ g.maxFreeDegree vars + 1 := by
    intro done c x fits _ free bound
    have few := choice_le_freeDegree (x := x) fits fun y mem => (free y (List.mem_cons_of_mem x mem)).2
    have most := freeDegree_le_max vars (free x List.mem_cons_self).1
    rw [Coloring.place_needed]
    omega
  obtain ⟨-, -, -, bound⟩ := g.color_induction vars k (P := fun _ c => c.needed ≤ g.maxFreeDegree vars + 1)
    (Nat.zero_le _) step
  apply bound

/-- The slots that are given are those from the first free one to the number that is needed. -/
theorem color_used (g : Graph) (vars : VarTable) (k : Nat) :
  (g.color vars k).used
    = Finset.Ico (g.color vars k).offset ((g.color vars k).offset + (g.color vars k).needed)
  := by
  ext n
  rw [Coloring.mem_used, Finset.mem_Ico]
  constructor
  · rintro ⟨x, given⟩
    have least := (g.color_fits vars k).free x n given
    rw [← (g.color_fits vars k).offset] at least
    use least, g.color_below vars k x n given
  · rintro ⟨least, lt⟩
    obtain ⟨x, given⟩ := g.color_filled vars k (n - (g.color vars k).offset) (by omega)
    rw [Nat.add_sub_cancel' least] at given
    use x, given

end Graph

/-- The slots are those of the nodes that are not pinned, joined nodes have different ones, all come
after the pinned slots, and they are the first ones there, as many as are needed: at most one more than
a node has neighbours that are not pinned. -/
structure Coloring.Gapless (g : Graph) (vars : VarTable) (c : Coloring) : Prop where
  keys : ∀ x, x ∈ c.slots ↔ g.contains x = true ∧ vars.pinnedSlot? x = none
  apart : ∀ (x y : String) (m n : Nat), g.interferes x y = true →
    c.slots[x]? = some m → c.slots[y]? = some n → m ≠ n
  after_offset : ∀ (x : String) (n : Nat), c.slots[x]? = some n → c.offset ≤ n
  pinned_before : ∀ x n, vars.pinnedSlot? x = some n → n < c.offset
  used_eq : c.used = Finset.Ico c.offset (c.offset + c.needed)
  card_used : c.used.card = c.needed
  needed_le : c.needed ≤ g.maxFreeDegree vars + 1

/-- The coloring of a graph is proper, gives slots to all nodes that are not pinned and leaves no gaps,
within any budget. -/
theorem color_gapless (g : Graph) (vars : VarTable) (k : Nat) :
  Coloring.Gapless g vars (g.color vars k)
  := by
  have fits := g.color_fits vars k
  constructor
  · intro x
    rw [fits.placed, List.mem_filter, Graph.mem_nodes, Option.isNone_iff_eq_none]
  · intro x y m n joined given given' same
    subst same
    apply fits.apart x y m given given'
    rwa [Graph.interferes, Std.ExtTreeSet.contains_iff_mem] at joined
  · intro x n given
    rw [fits.offset]
    apply fits.free x n given
  · intro x n pinned
    obtain ⟨v, entry, isPinned, rfl⟩ := VarTable.pinnedSlot?_eq_some.1 pinned
    rw [fits.offset]
    apply VarTable.pinned_lt_firstFree entry isPinned
  · apply g.color_used
  · rw [g.color_used, Nat.card_Ico, Nat.add_sub_cancel_left]
  · apply g.color_needed_le

end StackBackend
