import StackBackend.Program.Method

/-!
# Live variables

A variable is live at a place when some path from there reads it before it is written. The
analysis starts with empty sets and visits the instructions in a given order, in passes, until a
pass changes nothing. Each visit recomputes the sets of one instruction from the sets before its
successors.

The sets only grow: what has been found so far is always justified by the sets it was found
from. They stay within the variables that are read somewhere, so the passes come to an end.
-/

namespace StackBackend

/-! ### Reading and writing -/

namespace Instr

/-- The variables an instruction writes: the target of an assignment, unless it is an element of
an array. -/
def defs (i : Instr) : NameSet :=
  match i.target? with
  | some (.var name _) => .ofList [name]
  | _ => ∅

/-- The variables an instruction reads. -/
def uses (i : Instr) : NameSet := .ofList (i.reads.flatMap Operand.names)

/-- The variables of an instruction with their types, the one written first. -/
def typedNames (i : Instr) : List (String × Ty) :=
  (match i.target? with
    | some (.var name ty) => [(name, ty)]
    | _ => []) ++ i.reads.flatMap Operand.typedNames

end Instr

/-- The type of each variable at its first appearance. -/
def firstTypes (body : List Instr) : NameMap Ty :=
  (body.flatMap Instr.typedNames).foldl (fun types x => types.insertIfNew x.1 x.2) ∅

/-- What an instruction does to variables, and where control goes from it. -/
structure FlowNode where
  defs : NameSet
  uses : NameSet
  next : List Nat

/-- The variables before an instruction, from those after it. -/
def FlowNode.transfer (node : FlowNode) (after : NameSet) : NameSet :=
  node.uses ∪ (after \ node.defs)

theorem FlowNode.mem_transfer {node : FlowNode} {after : NameSet} {x : String} :
  x ∈ node.transfer after ↔ x ∈ node.uses ∨ x ∈ after ∧ x ∉ node.defs
  := by
  simp [transfer, Std.ExtTreeSet.mem_union_iff, Std.ExtTreeSet.mem_diff_iff]

/-- The instructions of a method as nodes. -/
def Method.flowNodes (m : Method) : List FlowNode :=
  m.body.mapIdx fun index i => ⟨i.defs, i.uses, m.successorsOf i index⟩

/-! ### Sets per instruction -/

/-- The variables found so far before and after each instruction. -/
structure LiveSets where
  before : List NameSet
  after : List NameSet
deriving DecidableEq

namespace LiveSets

/-- The variables found before the instruction `i`. -/
def beforeAt (s : LiveSets) (i : Nat) : NameSet := s.before[i]?.getD ∅

/-- The variables found after the instruction `i`. -/
def afterAt (s : LiveSets) (i : Nat) : NameSet := s.after[i]?.getD ∅

/-- The variables found before the successors of a node. -/
def leaving (s : LiveSets) (node : FlowNode) : NameSet :=
  node.next.foldl (fun found j => found ∪ s.beforeAt j) ∅

/-- Nothing found yet, for `n` instructions. -/
def start (n : Nat) : LiveSets := ⟨List.replicate n ∅, List.replicate n ∅⟩

/-- Recomputes the sets of the instruction `i`; an index without an instruction changes
nothing. -/
def visit (nodes : List FlowNode) (s : LiveSets) (i : Nat) : LiveSets :=
  match nodes[i]? with
  | none => s
  | some node =>
      ⟨s.before.set i (node.transfer (s.leaving node)), s.after.set i (s.leaving node)⟩

/-- Visits the instructions in order. -/
def pass (nodes : List FlowNode) (order : List Nat) (s : LiveSets) : LiveSets :=
  order.foldl (visit nodes) s

theorem mem_leaving {s : LiveSets} {node : FlowNode} {x : String} :
  x ∈ s.leaving node ↔ ∃ j ∈ node.next, x ∈ s.beforeAt j
  := by
  have gather : ∀ (js : List Nat) (found : NameSet),
      x ∈ js.foldl (fun found j => found ∪ s.beforeAt j) found
        ↔ x ∈ found ∨ ∃ j ∈ js, x ∈ s.beforeAt j := by
    intro js
    induction js with
    | nil => simp
    | cons j js ih =>
        intro found
        simp [ih, Std.ExtTreeSet.mem_union_iff, or_assoc]
  simp [leaving, gather]

/-! ### Growth -/

/-- The sets `t` hold whatever the sets `s` hold. -/
structure Below (s t : LiveSets) : Prop where
  before : ∀ i x, x ∈ s.beforeAt i → x ∈ t.beforeAt i
  after : ∀ i x, x ∈ s.afterAt i → x ∈ t.afterAt i

theorem Below.refl (s : LiveSets) :
  Below s s
  := ⟨fun _ _ h => h, fun _ _ h => h⟩

theorem Below.trans {s t u : LiveSets} (h₁ : Below s t) (h₂ : Below t u) :
  Below s u
  := ⟨fun i x h => h₂.before i x (h₁.before i x h), fun i x h => h₂.after i x (h₁.after i x h)⟩

theorem Below.leaving {s t : LiveSets} (h : Below s t) {node : FlowNode} {x : String}
    (hx : x ∈ s.leaving node) :
  x ∈ t.leaving node
  := by
  obtain ⟨j, hj, hx⟩ := mem_leaving.mp hx
  exact mem_leaving.mpr ⟨j, hj, h.before j x hx⟩

theorem Below.transfer {s t : LiveSets} (h : Below s t) {node : FlowNode} {x : String}
    (hx : x ∈ node.transfer (s.leaving node)) :
  x ∈ node.transfer (t.leaving node)
  := by
  rw [FlowNode.mem_transfer] at hx ⊢
  exact hx.imp_right fun ⟨hx, hd⟩ => ⟨h.leaving hx, hd⟩

/-- The variables that some instruction reads. -/
def readNames (nodes : List FlowNode) : NameSet :=
  nodes.foldl (fun found node => found ∪ node.uses) ∅

theorem mem_readNames {nodes : List FlowNode} {x : String} :
  x ∈ readNames nodes ↔ ∃ node ∈ nodes, x ∈ node.uses
  := by
  have gather : ∀ (ns : List FlowNode) (found : NameSet),
      x ∈ ns.foldl (fun found node => found ∪ node.uses) found
        ↔ x ∈ found ∨ ∃ node ∈ ns, x ∈ node.uses := by
    intro ns
    induction ns with
    | nil => simp
    | cons n ns ih =>
        intro found
        simp [ih, Std.ExtTreeSet.mem_union_iff, or_assoc]
  simp [readNames, gather]

/-- What has been found is justified: each set lies within what a visit would put in its place,
and holds only variables that are read somewhere. -/
structure Justified (nodes : List FlowNode) (s : LiveSets) : Prop where
  before_length : s.before.length = nodes.length
  after_length : s.after.length = nodes.length
  before_mem : ∀ i node x, nodes[i]? = some node → x ∈ s.beforeAt i →
    x ∈ node.transfer (s.leaving node)
  after_mem : ∀ i node x, nodes[i]? = some node → x ∈ s.afterAt i → x ∈ s.leaving node
  before_read : ∀ i x, x ∈ s.beforeAt i → x ∈ readNames nodes
  after_read : ∀ i x, x ∈ s.afterAt i → x ∈ readNames nodes

theorem beforeAt_start (n i : Nat) :
  (start n).beforeAt i = ∅
  := by
  simp only [beforeAt, start, List.getElem?_replicate]
  split <;> rfl

theorem afterAt_start (n i : Nat) :
  (start n).afterAt i = ∅
  := by
  simp only [afterAt, start, List.getElem?_replicate]
  split <;> rfl

theorem start_justified (nodes : List FlowNode) :
  (start nodes.length).Justified nodes
  where
  before_length := by simp [start]
  after_length := by simp [start]
  before_mem := by simp [beforeAt_start]
  after_mem := by simp [afterAt_start]
  before_read := by simp [beforeAt_start]
  after_read := by simp [afterAt_start]

theorem lt_length_of_getElem? {nodes : List FlowNode} {i : Nat} {node : FlowNode}
    (h : nodes[i]? = some node) :
  i < nodes.length
  := (List.getElem?_eq_some_iff.mp h).1

/-- A visit puts the recomputed sets in place and leaves the others. -/
theorem beforeAt_visit {nodes : List FlowNode} {s : LiveSets} (hs : s.Justified nodes) {i : Nat}
    {node : FlowNode} (h : nodes[i]? = some node) (j : Nat) :
  (s.visit nodes i).beforeAt j
    = if i = j then node.transfer (s.leaving node) else s.beforeAt j
  := by
  have hi : i < s.before.length := hs.before_length ▸ lt_length_of_getElem? h
  simp only [visit, h, beforeAt, List.getElem?_set]
  split
  · simp
  · rfl

theorem afterAt_visit {nodes : List FlowNode} {s : LiveSets} (hs : s.Justified nodes) {i : Nat}
    {node : FlowNode} (h : nodes[i]? = some node) (j : Nat) :
  (s.visit nodes i).afterAt j = if i = j then s.leaving node else s.afterAt j
  := by
  have hi : i < s.after.length := hs.after_length ▸ lt_length_of_getElem? h
  simp only [visit, h, afterAt, List.getElem?_set]
  split
  · simp
  · rfl

theorem below_visit {nodes : List FlowNode} {s : LiveSets} (hs : s.Justified nodes) (i : Nat) :
  Below s (s.visit nodes i)
  := by
  cases h : nodes[i]? with
  | none =>
      simp only [visit, h]
      exact Below.refl s
  | some node =>
      constructor
      · intro j x hx
        rw [beforeAt_visit hs h]
        split
        · next hij => exact hs.before_mem i node x h (hij ▸ hx)
        · exact hx
      · intro j x hx
        rw [afterAt_visit hs h]
        split
        · next hij => exact hs.after_mem i node x h (hij ▸ hx)
        · exact hx

theorem visit_justified {nodes : List FlowNode} {s : LiveSets} (hs : s.Justified nodes)
    (i : Nat) :
  (s.visit nodes i).Justified nodes
  := by
  cases h : nodes[i]? with
  | none =>
      simp only [visit, h]
      exact hs
  | some node =>
      have grown := below_visit hs i
      have leaving_read : ∀ x, x ∈ s.leaving node → x ∈ readNames nodes := by
        intro x hx
        obtain ⟨j, -, hx⟩ := mem_leaving.mp hx
        exact hs.before_read j x hx
      constructor
      · simpa [visit, h] using hs.before_length
      · simpa [visit, h] using hs.after_length
      · intro j n x hn hx
        apply grown.transfer
        rw [beforeAt_visit hs h] at hx
        split at hx
        · next hij =>
            subst hij
            rw [h] at hn
            cases hn
            exact hx
        · exact hs.before_mem j n x hn hx
      · intro j n x hn hx
        apply grown.leaving
        rw [afterAt_visit hs h] at hx
        split at hx
        · next hij =>
            subst hij
            rw [h] at hn
            cases hn
            exact hx
        · exact hs.after_mem j n x hn hx
      · intro j x hx
        rw [beforeAt_visit hs h] at hx
        split at hx
        · rw [FlowNode.mem_transfer] at hx
          cases hx with
          | inl hx => exact mem_readNames.mpr ⟨node, List.mem_of_getElem? h, hx⟩
          | inr hx => exact leaving_read x hx.1
        · exact hs.before_read j x hx
      · intro j x hx
        rw [afterAt_visit hs h] at hx
        split at hx
        · exact leaving_read x hx
        · exact hs.after_read j x hx

theorem pass_justified {nodes : List FlowNode} (order : List Nat) {s : LiveSets}
    (hs : s.Justified nodes) :
  (s.pass nodes order).Justified nodes
  := by
  induction order generalizing s with
  | nil => exact hs
  | cons i order ih => exact ih (visit_justified hs i)

/-- A pass only adds variables. -/
theorem below_pass {nodes : List FlowNode} (order : List Nat) {s : LiveSets}
    (hs : s.Justified nodes) :
  Below s (s.pass nodes order)
  := by
  induction order generalizing s with
  | nil => exact Below.refl s
  | cons i order ih => exact (below_visit hs i).trans (ih (visit_justified hs i))

/-! ### Sizes -/

/-- The size of a set and of what a larger set has beyond it. -/
theorem size_add_size_diff {a b : NameSet} (h : ∀ x ∈ a, x ∈ b) :
  a.size + (b \ a).size = b.size
  := by
  have inter : b ∩ a = a := by
    apply Std.ExtTreeSet.ext_mem
    intro x
    rw [Std.ExtTreeSet.mem_inter_iff]
    exact ⟨fun hx => hx.2, fun hx => ⟨h x hx, hx⟩⟩
  have split : (b \ a).size + (b ∩ a).size = b.size :=
    Std.ExtTreeSet.size_diff_add_size_inter_eq_size_left
  rw [inter] at split
  omega

/-- A set within another of the same size is the other. -/
theorem eq_of_size_le {a b : NameSet} (h : ∀ x ∈ a, x ∈ b) (hs : b.size ≤ a.size) :
  a = b
  := by
  have total := size_add_size_diff h
  have none : b \ a = ∅ := Std.ExtTreeSet.eq_empty_iff_size_eq_zero.mpr (by omega)
  apply Std.ExtTreeSet.ext_mem
  intro x
  refine ⟨h x, fun hx => ?_⟩
  false_or_by_contra
  next hna =>
    have : x ∈ b \ a := Std.ExtTreeSet.mem_diff_iff.mpr ⟨hx, hna⟩
    rw [none] at this
    exact Std.ExtTreeSet.not_mem_empty this

/-- The number of variables in a list of sets, counted in each. -/
def weigh : List NameSet → Nat
  | [] => 0
  | a :: sets => a.size + weigh sets

theorem weigh_le {sets : List NameSet} {u : NameSet} (h : ∀ a ∈ sets, ∀ x ∈ a, x ∈ u) :
  weigh sets ≤ sets.length * u.size
  := by
  induction sets with
  | nil => simp [weigh]
  | cons a sets ih =>
      have ha := size_add_size_diff (h a (by simp))
      have hs := ih fun b hb => h b (by simp [hb])
      simp only [weigh, List.length_cons, Nat.add_mul] at *
      omega

/-- Larger sets weigh at least as much, and the same only when they are equal. -/
theorem weigh_mono {as bs : List NameSet} (hl : as.length = bs.length)
    (h : ∀ i : Nat, ∀ x ∈ as[i]?.getD (∅ : NameSet), x ∈ bs[i]?.getD (∅ : NameSet)) :
  weigh as ≤ weigh bs ∧ (weigh bs ≤ weigh as → as = bs)
  := by
  induction as generalizing bs with
  | nil =>
      cases bs with
      | nil => simp
      | cons b bs => simp at hl
  | cons a as ih =>
      cases bs with
      | nil => simp at hl
      | cons b bs =>
          have hab : ∀ x ∈ a, x ∈ b := by simpa using h 0
          have htail := ih (by simpa using hl) fun i => by simpa using h (i + 1)
          have hsize := size_add_size_diff hab
          simp only [weigh] at *
          refine ⟨by omega, fun hle => ?_⟩
          rw [eq_of_size_le hab (by omega), htail.2 (by omega)]

/-- The number of variables found so far. -/
def weight (s : LiveSets) : Nat := weigh s.before + weigh s.after

/-- Sets that have grown and are not the same weigh more. -/
theorem weight_lt {nodes : List FlowNode} {s t : LiveSets} (hs : s.Justified nodes)
    (ht : t.Justified nodes) (h : Below s t) (hne : t ≠ s) :
  s.weight < t.weight
  := by
  have hb := weigh_mono (hs.before_length.trans ht.before_length.symm) h.before
  have ha := weigh_mono (hs.after_length.trans ht.after_length.symm) h.after
  simp only [weight]
  false_or_by_contra
  next hlt =>
    apply hne
    cases s
    cases t
    simp only [mk.injEq]
    exact ⟨(hb.2 (by omega)).symm, (ha.2 (by omega)).symm⟩

/-- What can be found at most. -/
def capacity (nodes : List FlowNode) : Nat := 2 * (nodes.length * (readNames nodes).size)

theorem mem_getD {sets : List NameSet} {a : NameSet} (h : a ∈ sets) :
  ∃ i : Nat, sets[i]?.getD (∅ : NameSet) = a
  := by
  obtain ⟨i, hi, rfl⟩ := List.mem_iff_getElem.mp h
  exact ⟨i, by simp [hi]⟩

/-- What can be found before the instructions at most. -/
theorem weigh_before_le {nodes : List FlowNode} {s : LiveSets} (hs : s.Justified nodes) :
  weigh s.before ≤ nodes.length * (readNames nodes).size
  := by
  rw [← hs.before_length]
  apply weigh_le
  intro a ha x hx
  obtain ⟨i, rfl⟩ := mem_getD ha
  exact hs.before_read i x hx

theorem weight_le_capacity {nodes : List FlowNode} {s : LiveSets} (hs : s.Justified nodes) :
  s.weight ≤ capacity nodes
  := by
  have hb := weigh_before_le hs
  have ha : weigh s.after ≤ s.after.length * (readNames nodes).size := by
    apply weigh_le
    intro a ha x hx
    obtain ⟨i, rfl⟩ := mem_getD ha
    exact hs.after_read i x hx
  rw [hs.after_length] at ha
  simp only [weight, capacity]
  omega

/-! ### Iteration -/

set_option linter.unusedVariables false in
/-- Passes until one changes nothing, with the number of passes. -/
def settle (nodes : List FlowNode) (order : List Nat) (s : LiveSets) (hs : s.Justified nodes) :
    LiveSets × Nat :=
  if settled : s.pass nodes order = s then (s, 1)
  else
    let (sets, passes) := settle nodes order (s.pass nodes order) (pass_justified order hs)
    (sets, passes + 1)
termination_by capacity nodes - s.weight
decreasing_by
  have grown := weight_lt hs (pass_justified order hs) (below_pass order hs) settled
  have bounded := weight_le_capacity (pass_justified order hs)
  omega

end LiveSets

/-! ### The analysis -/

/-- The live variables of a method. -/
structure Liveness where
  nodes : List FlowNode
  sets : LiveSets
  types : NameMap Ty
  passes : Nat

/-- The live variables of a method, its instructions visited in `order`. -/
def Method.livenessInOrder (m : Method) (order : List Nat) : Liveness :=
  let (sets, passes) := LiveSets.settle m.flowNodes order _ (LiveSets.start_justified m.flowNodes)
  ⟨m.flowNodes, sets, firstTypes m.body, passes⟩

/-- The live variables of a method, its instructions visited from the last to the first. -/
def Method.liveness (m : Method) : Liveness :=
  m.livenessInOrder (List.range m.body.length).reverse

namespace Liveness

/-- The variables written by the instruction `i` or live after it: those that hold a value of
their own just after it. -/
def occupied (l : Liveness) (node : FlowNode) (i : Nat) : NameSet :=
  node.defs ∪ l.sets.afterAt i

/-- The variables that hold a value just after each instruction. -/
def occupiedSets (l : Liveness) : List NameSet := l.nodes.mapIdx fun i node => l.occupied node i

end Liveness

end StackBackend
