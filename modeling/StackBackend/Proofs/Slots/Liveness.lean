import Mathlib.Tactic.Use
import StackBackend.Slots.Liveness

/-!
# What the liveness analysis finds

A variable is live at an instruction when a path from there leads to an instruction that reads it,
past instructions that do not write it. The analysis, whatever the order in which it visits the
instructions, finds live variables only; when each instruction is visited it finds them all, and the
sets after an instruction are those before its successors.
-/

namespace StackBackend

/-- The variable `x` is live before the node with this index. -/
inductive LiveAt (nodes : List FlowNode) (x : String) : Nat → Prop
  | read {i : Nat} {node : FlowNode} (at_i : nodes[i]? = some node) (used : x ∈ node.uses) :
      LiveAt nodes x i
  | onward {i j : Nat} {node : FlowNode} (at_i : nodes[i]? = some node) (kept : x ∉ node.defs)
      (next : j ∈ node.next) (live : LiveAt nodes x j) : LiveAt nodes x i

namespace LiveSets

variable {nodes : List FlowNode} {s : LiveSets}

/-! ### Only live variables are found -/

/-- The sets hold live variables only. -/
def Sound (nodes : List FlowNode) (s : LiveSets) : Prop :=
  ∀ i x, x ∈ s.beforeAt i → LiveAt nodes x i

/-- At the start nothing is found. -/
theorem start_sound (nodes : List FlowNode) (n : Nat) :
  (start n).Sound nodes
  := by
  intro i x hx
  rw [beforeAt_start] at hx
  apply (Std.ExtTreeSet.not_mem_empty hx).elim

/-- A visit finds only live variables. -/
theorem visit_sound (hs : s.Justified nodes) (sound : s.Sound nodes) (i : Nat) :
  (s.visit nodes i).Sound nodes
  := by
  cases at_i : nodes[i]? with
  | none => rwa [visit, at_i]
  | some node =>
      intro j x hx
      rw [beforeAt_visit hs at_i] at hx
      split at hx
      · next same =>
          subst same
          obtain used | ⟨leaves, kept⟩ := FlowNode.mem_transfer.1 hx
          · apply LiveAt.read at_i used
          · obtain ⟨k, next, hk⟩ := mem_leaving.1 leaves
            apply LiveAt.onward at_i kept next (sound k x hk)
      · apply sound j x hx

/-- So does a pass. -/
theorem pass_sound (order : List Nat) (hs : s.Justified nodes) (sound : s.Sound nodes) :
  (s.pass nodes order).Sound nodes
  := by
  induction order generalizing s with
  | nil => apply sound
  | cons i order ih => apply ih (visit_justified hs i) (visit_sound hs sound i)

/-! ### Every live variable is found -/

/-- A visit of the instruction `i` would change nothing. -/
structure StableAt (nodes : List FlowNode) (s : LiveSets) (i : Nat) : Prop where
  before : ∀ node, nodes[i]? = some node → s.beforeAt i = node.transfer (s.leaving node)
  after : ∀ node, nodes[i]? = some node → s.afterAt i = s.leaving node

/-- After a pass that adds nothing before the instructions, a visit of an instruction of its order changes
nothing: its visit in the pass finds the sets before the successors as they are at the end. -/
theorem stableAt_pass {order : List Nat} {i : Nat} (hs : s.Justified nodes)
    (same : (s.pass nodes order).before = s.before) (visited : i ∈ order) :
  StableAt nodes (s.pass nodes order) i
  := by
  have final := pass_justified order hs
  have kept (node : FlowNode) : (s.pass nodes order).leaving node = s.leaving node := by
    simp only [leaving, beforeAt, same]
  obtain ⟨earlier, later, rfl⟩ := List.append_of_mem visited
  have justified := pass_justified earlier hs
  have grown : Below s (s.pass nodes earlier) := below_pass earlier hs
  have bounded : Below ((s.pass nodes earlier).visit nodes i) (s.pass nodes (earlier ++ i :: later)) := by
    have rest := below_pass later (visit_justified justified i)
    simpa [pass] using rest
  constructor
  · intro node at_i
    apply Std.ExtTreeSet.ext_mem
    intro x
    constructor
    · apply final.before_mem i node x at_i
    · intro hx
      rw [kept] at hx
      apply bounded.before
      rw [beforeAt_visit justified at_i, if_pos rfl]
      apply grown.transfer hx
  · intro node at_i
    apply Std.ExtTreeSet.ext_mem
    intro x
    constructor
    · apply final.after_mem i node x at_i
    · intro hx
      rw [kept] at hx
      apply bounded.after
      rw [afterAt_visit justified at_i, if_pos rfl]
      apply grown.leaving hx

/-- When a pass changes nothing, a visit of an instruction of its order changes nothing. -/
theorem stableAt_of_pass {order : List Nat} {i : Nat} (hs : s.Justified nodes)
    (settled : s.pass nodes order = s) (visited : i ∈ order) :
  StableAt nodes s i
  := by
  have stable := stableAt_pass hs (congrArg before settled) visited
  rwa [settled] at stable

/-- Sets that no visit changes hold every live variable. -/
theorem mem_beforeAt_of_liveAt (stable : ∀ i, StableAt nodes s i) {i : Nat} {x : String}
    (live : LiveAt nodes x i) :
  x ∈ s.beforeAt i
  := by
  induction live with
  | read at_i used =>
      rw [(stable _).before _ at_i, FlowNode.mem_transfer]
      left
      apply used
  | onward at_i kept next _ ih =>
      rw [(stable _).before _ at_i, FlowNode.mem_transfer]
      exact .inr ⟨mem_leaving.2 ⟨_, next, ih⟩, kept⟩

/-! ### The passes together -/

/-- What the last pass leaves is justified. -/
theorem settle_justified (order : List Nat) (hs : s.Justified nodes) :
  (settle nodes order s hs).1.Justified nodes
  := by
  fun_induction settle nodes order s hs with
  | case1 s hs settled => apply hs
  | case2 s hs settled sets passes eq ih => rwa [eq] at ih

/-- Another pass changes nothing. -/
theorem settle_settled (order : List Nat) (hs : s.Justified nodes) :
  (settle nodes order s hs).1.pass nodes order = (settle nodes order s hs).1
  := by
  fun_induction settle nodes order s hs with
  | case1 s hs settled => apply settled
  | case2 s hs settled sets passes eq ih => rwa [eq] at ih

/-- The passes together find only live variables. -/
theorem settle_sound (order : List Nat) (hs : s.Justified nodes) (sound : s.Sound nodes) :
  (settle nodes order s hs).1.Sound nodes
  := by
  fun_induction settle nodes order s hs with
  | case1 s hs settled => apply sound
  | case2 s hs settled sets passes eq ih =>
      rw [eq] at ih
      apply ih (pass_sound order hs sound)

end LiveSets

namespace Method

variable {m : Method} {order : List Nat}

/-- The node of an instruction. -/
theorem getElem?_flowNodes (m : Method) (i : Nat) :
  m.flowNodes[i]? = m.body[i]?.map fun instr => ⟨instr.defs, instr.uses, m.successorsOf instr i⟩
  := by
  simp [flowNodes]

theorem length_flowNodes (m : Method) :
  m.flowNodes.length = m.body.length
  := by
  simp [flowNodes]

/-- An order that visits each instruction leaves nothing to find. -/
theorem livenessInOrder_stableAt (covers : ∀ i < m.body.length, i ∈ order) (i : Nat) :
  LiveSets.StableAt m.flowNodes (m.livenessInOrder order).sets i
  := by
  have justified := LiveSets.settle_justified order (LiveSets.start_justified m.flowNodes)
  have settled := LiveSets.settle_settled order (LiveSets.start_justified m.flowNodes)
  by_cases inside : i < m.body.length
  · apply LiveSets.stableAt_of_pass justified settled (covers i inside)
  · have outside : m.flowNodes[i]? = none := by
      rw [List.getElem?_eq_none_iff, length_flowNodes]
      omega
    constructor <;> simp [outside]

/-- The variables found before an instruction are those that are live there. -/
theorem mem_livenessInOrder_before (covers : ∀ i < m.body.length, i ∈ order) {i : Nat} {x : String} :
  x ∈ (m.livenessInOrder order).sets.beforeAt i ↔ LiveAt m.flowNodes x i
  := by
  constructor
  · apply LiveSets.settle_sound order _ (LiveSets.start_sound _ _)
  · apply LiveSets.mem_beforeAt_of_liveAt (livenessInOrder_stableAt covers)

/-- The variables found after an instruction are those that are live before a successor. -/
theorem mem_livenessInOrder_after (covers : ∀ i < m.body.length, i ∈ order) {i : Nat} {x : String}
    {instr : Instr} (at_i : m.body[i]? = some instr) :
  x ∈ (m.livenessInOrder order).sets.afterAt i
    ↔ ∃ j ∈ m.successorsOf instr i, LiveAt m.flowNodes x j
  := by
  have node := m.getElem?_flowNodes i
  rw [at_i, Option.map_some] at node
  rw [(livenessInOrder_stableAt covers i).after _ node, LiveSets.mem_leaving]
  simp only [mem_livenessInOrder_before covers]

/-! ### Live variables of a method -/

/-- A variable that an instruction reads is live before it. -/
theorem liveAt_of_uses {i : Nat} {instr : Instr} (at_i : m.body[i]? = some instr) {x : String}
    (used : x ∈ instr.uses) :
  LiveAt m.flowNodes x i
  := by
  have node := m.getElem?_flowNodes i
  rw [at_i] at node
  apply LiveAt.read node used

/-- A variable that an instruction does not write is live before it when it is live after it. -/
theorem liveAt_of_successor {i j : Nat} {instr : Instr} (at_i : m.body[i]? = some instr)
    (next : j ∈ m.successorsOf instr i) {x : String} (kept : x ∉ instr.defs)
    (live : LiveAt m.flowNodes x j) :
  LiveAt m.flowNodes x i
  := by
  have node := m.getElem?_flowNodes i
  rw [at_i] at node
  apply LiveAt.onward node kept next live

/-- A live variable is read by some instruction. -/
theorem exists_uses_of_liveAt {index : Nat} {x : String} (live : LiveAt m.flowNodes x index) :
  ∃ i ∈ m.body, x ∈ i.uses
  := by
  induction live with
  | read at_i used =>
      rw [getElem?_flowNodes, Option.map_eq_some_iff] at at_i
      obtain ⟨i, at_i, rfl⟩ := at_i
      use i, List.mem_of_getElem? at_i, used
  | onward _ _ _ _ ih => apply ih

/-- Nothing is live at the end. -/
theorem lt_length_of_liveAt {i : Nat} {x : String} (live : LiveAt m.flowNodes x i) :
  i < m.body.length
  := by
  rw [← length_flowNodes]
  cases live with
  | read at_i | onward at_i => apply LiveSets.lt_length_of_getElem? at_i

/-- The analysis of a method visits each instruction. -/
theorem mem_reverse_range_body (m : Method) :
  ∀ i < m.body.length, i ∈ (List.range m.body.length).reverse
  := by
  simp

end Method

end StackBackend
