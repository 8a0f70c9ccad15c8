import Mathlib.Logic.Function.Iterate
import Mathlib.Tactic.Use
import StackBackend.Command.Log
import StackBackend.Proofs.Slots.LivePaths

/-!
# The passes of the liveness analysis

Each pass only adds variables, and the sets before the instructions have room for `n * u` of them, for `n`
instructions and `u` variables that are read. A pass that adds nothing to these sets recomputes the sets
after the instructions from what they will stay, so that the next pass has nothing to do. Hence the first
pass without a change comes after `n * u + 1` passes at most, in whatever order the instructions are
visited, and whether or not all of them are.
-/

namespace StackBackend

namespace LiveSets

variable {nodes : List FlowNode} {order : List Nat} {s : LiveSets} {i : Nat}

/-! ### Visits that change nothing -/

/-- A visit puts the same sets in place where they are stable. -/
theorem visit_eq_self (hs : s.Justified nodes) (stable : StableAt nodes s i) :
  s.visit nodes i = s
  := by
  have justified := visit_justified hs i
  cases at_i : nodes[i]? with
  | none => rw [visit, at_i]
  | some node =>
      apply ext_mem
      · rw [justified.before_length, hs.before_length]
      · rw [justified.after_length, hs.after_length]
      · intro j x
        rw [beforeAt_visit hs at_i]
        split
        · next same => rw [← same, stable.before node at_i]
        · rfl
      · intro j x
        rw [afterAt_visit hs at_i]
        split
        · next same => rw [← same, stable.after node at_i]
        · rfl

/-- A pass whose visits change nothing changes nothing. -/
theorem pass_eq_self (unchanged : ∀ i ∈ order, s.visit nodes i = s) :
  s.pass nodes order = s
  := by
  induction order with
  | nil => rfl
  | cons i order ih =>
      rw [List.forall_mem_cons] at unchanged
      rw [pass, List.foldl_cons, unchanged.1]
      apply ih unchanged.2

/-- A pass without a change is made of visits without one. -/
theorem visit_eq_self_of_pass (hs : s.Justified nodes) (settled : s.pass nodes order = s) :
  ∀ i ∈ order, s.visit nodes i = s
  := by
  intro i visited
  apply visit_eq_self hs
  apply stableAt_of_pass hs settled visited

/-- A pass that adds nothing before the instructions leaves nothing to do. -/
theorem pass_pass_of_before_eq (hs : s.Justified nodes)
    (same : (s.pass nodes order).before = s.before) :
  (s.pass nodes order).pass nodes order = s.pass nodes order
  := by
  apply pass_eq_self
  intro i visited
  apply visit_eq_self (pass_justified order hs)
  apply stableAt_pass hs same visited

/-! ### The number of passes -/

/-- What the sets before the instructions have room for bounds the passes still to come: each pass takes
some of it, the one before the last and the last one excepted. -/
theorem settle_passes_le (order : List Nat) (hs : s.Justified nodes) :
  (settle nodes order s hs).2 + weigh s.before ≤ nodes.length * (readNames nodes).size + 2
  := by
  fun_induction settle nodes order s hs with
  | case1 s hs settled =>
      have room := weigh_before_le hs
      simp only
      omega
  | case2 s hs settled sets passes eq ih =>
      have next := pass_justified order hs
      have grown := weigh_mono (hs.before_length.trans next.before_length.symm) (below_pass order hs).before
      rw [eq] at ih
      by_cases more : weigh s.before < weigh (s.pass nodes order).before
      · simp only at ih ⊢
        omega
      · have same := grown.2 (by omega)
        have last := pass_pass_of_before_eq hs same.symm
        rw [settle, dif_pos last] at eq
        cases eq
        have room := weigh_before_le hs
        simp only
        omega

/-- The passes are those up to the first that changes nothing. -/
theorem settle_eq_iterate (order : List Nat) (hs : s.Justified nodes) :
  ∃ changing, settle nodes order s hs = ((pass nodes order)^[changing] s, changing + 1)
    ∧ pass nodes order ((pass nodes order)^[changing] s) = (pass nodes order)^[changing] s
    ∧ ∀ k < changing, (pass nodes order)^[k + 1] s ≠ (pass nodes order)^[k] s
  := by
  fun_induction settle nodes order s hs with
  | case1 s hs settled =>
      use 0, rfl, settled
      simp
  | case2 s hs settled sets passes eq ih =>
      obtain ⟨changing, result, last, earlier⟩ := ih
      rw [eq, Prod.mk.injEq] at result
      refine ⟨changing + 1, ?_, last, ?_⟩
      · rw [result.1, result.2, Function.iterate_succ_apply]
      · intro k lt
        cases k with
        | zero => apply settled
        | succ k => apply earlier k (by omega)

/-- Passes keep what they have found justified. -/
theorem iterate_justified (order : List Nat) (hs : s.Justified nodes) (k : Nat) :
  ((pass nodes order)^[k] s).Justified nodes
  := by
  induction k with
  | zero => apply hs
  | succ k ih =>
      rw [Function.iterate_succ_apply']
      apply pass_justified order ih

end LiveSets

/-- The sets of a method after `k` passes over its instructions in `order`. -/
def Method.liveAfter (m : Method) (order : List Nat) (k : Nat) : LiveSets :=
  (LiveSets.pass m.flowNodes order)^[k] (LiveSets.start m.body.length)

/-- Whatever the order, with instructions left out, repeated or out of range, the passes come to an end:
some pass is made of visits that change nothing, the passes before it all change something, and its number
is the one that is logged, `n * u + 2` at most for `n` instructions and `u` variables that are read. From
pass to pass the sets before and after each instruction only grow. -/
theorem livenessInOrder_converges (m : Method) (order : List Nat) :
  ∃ changing : Nat,
    m.livenessEvents (m.livenessInOrder order) = m.flowEvents ++ [.converged m.name (changing + 1)]
      ∧ (m.livenessInOrder order).sets = m.liveAfter order changing
      ∧ (∀ i ∈ order, (m.liveAfter order changing).visit m.flowNodes i = m.liveAfter order changing)
      ∧ (∀ k < changing, m.liveAfter order (k + 1) ≠ m.liveAfter order k)
      ∧ (∀ k i x, (x ∈ (m.liveAfter order k).beforeAt i → x ∈ (m.liveAfter order (k + 1)).beforeAt i)
        ∧ (x ∈ (m.liveAfter order k).afterAt i → x ∈ (m.liveAfter order (k + 1)).afterAt i))
      ∧ changing + 1 ≤ m.body.length * (LiveSets.readNames m.flowNodes).size + 2
  := by
  have start := LiveSets.start_justified m.flowNodes
  have sets (k : Nat) : m.liveAfter order k
      = (LiveSets.pass m.flowNodes order)^[k] (LiveSets.start m.flowNodes.length) := by
    rw [Method.liveAfter, m.length_flowNodes]
  have justified (k : Nat) : (m.liveAfter order k).Justified m.flowNodes := by
    rw [sets]
    apply LiveSets.iterate_justified order start
  obtain ⟨changing, result, last, earlier⟩ := LiveSets.settle_eq_iterate order start
  have bound := LiveSets.settle_passes_le order start
  simp only [← sets] at result last earlier
  refine ⟨changing, ?_, ?_, ?_, earlier, ?_, ?_⟩
  · simp only [Method.livenessEvents, Method.livenessInOrder, result]
  · simp only [Method.livenessInOrder, result]
  · apply LiveSets.visit_eq_self_of_pass (justified changing) last
  · intro k i x
    have grown := LiveSets.below_pass order (justified k)
    rw [sets (k + 1), Function.iterate_succ_apply', ← sets]
    use grown.before i x, grown.after i x
  · rw [result, m.length_flowNodes] at bound
    omega

end StackBackend
