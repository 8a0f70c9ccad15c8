import Mathlib.Tactic.Use
import StackBackend.Proofs.Slots.Liveness

/-!
# Live variables and paths

A path of control goes from instruction to instruction along the successors. The analysis finds a variable
before an instruction exactly when a path from there leads to an instruction that reads it, past none that
writes it, and after an instruction when it finds it before a successor. This holds in whatever order the
instructions are visited, if only each of them is: so all these orders find the same sets.
-/

namespace StackBackend

namespace Method

variable {m : Method} {x : String} {i j : Nat}

/-! ### Instructions by index -/

/-- The variables that the instruction `i` writes. -/
def defsAt (m : Method) (i : Nat) : NameSet := (m.body[i]?.map Instr.defs).getD ∅

/-- The variables that the instruction `i` reads. -/
def usesAt (m : Method) (i : Nat) : NameSet := (m.body[i]?.map Instr.uses).getD ∅

/-- The places control may go to from the instruction `i`. -/
def successorsAt (m : Method) (i : Nat) : List Nat := m.successors[i]?.getD []

theorem successorsAt_eq (m : Method) (i : Nat) :
  m.successorsAt i = (m.body[i]?.map fun instr => m.successorsOf instr i).getD []
  := by
  simp [successorsAt, successors]

/-- A variable is live where it is used. -/
theorem liveAt_of_mem_usesAt (used : x ∈ m.usesAt i) :
  LiveAt m.flowNodes x i
  := by
  unfold usesAt at used
  cases at_i : m.body[i]? with
  | none => simp [at_i] at used
  | some instr =>
      apply liveAt_of_uses at_i
      simpa [at_i] using used

/-- A variable is live before an instruction that keeps it, if it is live after it. -/
theorem liveAt_of_mem_successorsAt (next : j ∈ m.successorsAt i) (kept : x ∉ m.defsAt i)
    (live : LiveAt m.flowNodes x j) :
  LiveAt m.flowNodes x i
  := by
  rw [successorsAt_eq] at next
  unfold defsAt at kept
  cases at_i : m.body[i]? with
  | none => simp [at_i] at next
  | some instr =>
      rw [at_i] at next kept
      apply liveAt_of_successor at_i next kept live

/-! ### Paths -/

/-- The instructions `p 0`, …, `p len` follow one another along the successors, the last one reads `x`, and
none before it writes `x`. -/
structure ReadPath (m : Method) (x : String) (p : Nat → Nat) (len : Nat) : Prop where
  next : ∀ l < len, p (l + 1) ∈ m.successorsAt (p l)
  kept : ∀ l < len, x ∉ m.defsAt (p l)
  read : x ∈ m.usesAt (p len)

namespace ReadPath

variable {p : Nat → Nat} {len : Nat}

/-- A path with an instruction before it. -/
theorem cons (path : m.ReadPath x p len) (next : p 0 ∈ m.successorsAt i) (kept : x ∉ m.defsAt i) :
  m.ReadPath x (fun | 0 => i | l + 1 => p l) (len + 1)
  where
  next
    | 0, _ => next
    | l + 1, lt => path.next l (Nat.lt_of_succ_lt_succ lt)
  kept
    | 0, _ => kept
    | l + 1, lt => path.kept l (Nat.lt_of_succ_lt_succ lt)
  read := path.read

/-- A path without its first instruction. -/
theorem tail (path : m.ReadPath x p (len + 1)) :
  m.ReadPath x (fun l => p (l + 1)) len
  where
  next l lt := path.next (l + 1) (Nat.succ_lt_succ lt)
  kept l lt := path.kept (l + 1) (Nat.succ_lt_succ lt)
  read := path.read

/-- A variable is live at the start of a path on which it is read; by induction on the length of the path. -/
theorem liveAt (path : m.ReadPath x p len) :
  LiveAt m.flowNodes x (p 0)
  := by
  induction len generalizing p with
  | zero => apply liveAt_of_mem_usesAt path.read
  | succ len ih =>
      have rest := ih path.tail
      apply liveAt_of_mem_successorsAt (path.next 0 _) (path.kept 0 _) rest
      · apply Nat.succ_pos
      · apply Nat.succ_pos

end ReadPath

/-- A variable is live where a path to a reader begins. -/
theorem liveAt_iff_exists_readPath :
  LiveAt m.flowNodes x i ↔ ∃ p len, p 0 = i ∧ m.ReadPath x p len
  := by
  constructor
  · intro live
    induction live with
    | @read i node at_i used =>
        rw [getElem?_flowNodes, Option.map_eq_some_iff] at at_i
        obtain ⟨instr, at_i, rfl⟩ := at_i
        refine ⟨fun _ => i, 0, rfl, ?_, ?_, ?_⟩
        · simp
        · simp
        · simpa [usesAt, at_i] using used
    | @onward i j node at_i kept next _ ih =>
        rw [getElem?_flowNodes, Option.map_eq_some_iff] at at_i
        obtain ⟨instr, at_i, rfl⟩ := at_i
        obtain ⟨p, len, rfl, path⟩ := ih
        refine ⟨_, len + 1, rfl, path.cons ?_ ?_⟩
        · rwa [successorsAt_eq, at_i]
        · rwa [defsAt, at_i]
  · rintro ⟨p, len, rfl, path⟩
    apply path.liveAt

end Method

/-! ### Orders -/

/-- Sets per instruction are determined by what they hold. -/
theorem LiveSets.ext_mem {s t : LiveSets} (before_length : s.before.length = t.before.length)
    (after_length : s.after.length = t.after.length)
    (before : ∀ i x, x ∈ s.beforeAt i ↔ x ∈ t.beforeAt i)
    (after : ∀ i x, x ∈ s.afterAt i ↔ x ∈ t.afterAt i) :
  s = t
  := by
  have same {as bs : List NameSet} (length : as.length = bs.length)
      (mem : ∀ (i : Nat) (x : String), x ∈ as[i]?.getD (∅ : NameSet) ↔ x ∈ bs[i]?.getD (∅ : NameSet)) :
      as = bs := by
    apply List.ext_getElem length
    intro i lt lt'
    apply Std.ExtTreeSet.ext_mem
    intro x
    simpa [lt, lt'] using mem i x
  cases s
  cases t
  rw [LiveSets.mk.injEq]
  use same before_length before, same after_length after

namespace Method

variable {m : Method} {order order' : List Nat}

/-- Whatever the order of visits, what is found is justified. -/
theorem livenessInOrder_justified (m : Method) (order : List Nat) :
  (m.livenessInOrder order).sets.Justified m.flowNodes
  := LiveSets.settle_justified order (LiveSets.start_justified m.flowNodes)

/-- The variables found after an instruction are those found before its successors; where there is no
instruction there are none. -/
theorem mem_afterAt_iff (covers : ∀ i < m.body.length, i ∈ order) {i : Nat} {x : String} :
  x ∈ (m.livenessInOrder order).sets.afterAt i
    ↔ ∃ j ∈ m.successorsAt i, x ∈ (m.livenessInOrder order).sets.beforeAt j
  := by
  rw [successorsAt_eq]
  cases at_i : m.body[i]? with
  | some instr =>
      simp only [mem_livenessInOrder_after covers at_i, mem_livenessInOrder_before covers, Option.map_some,
        Option.getD_some]
  | none =>
      have outside : (m.livenessInOrder order).sets.after[i]? = none := by
        rwa [List.getElem?_eq_none_iff, (m.livenessInOrder_justified order).after_length, length_flowNodes,
          ← List.getElem?_eq_none_iff]
      simp [LiveSets.afterAt, outside]

/-- Orders that visit each instruction find the same sets. -/
theorem livenessInOrder_sets_eq (covers : ∀ i < m.body.length, i ∈ order)
    (covers' : ∀ i < m.body.length, i ∈ order') :
  (m.livenessInOrder order).sets = (m.livenessInOrder order').sets
  := by
  have justified := m.livenessInOrder_justified order
  have justified' := m.livenessInOrder_justified order'
  have before (i : Nat) (x : String) : x ∈ (m.livenessInOrder order).sets.beforeAt i
      ↔ x ∈ (m.livenessInOrder order').sets.beforeAt i := by
    rw [mem_livenessInOrder_before covers, mem_livenessInOrder_before covers']
  apply LiveSets.ext_mem
  · rw [justified.before_length, justified'.before_length]
  · rw [justified.after_length, justified'.after_length]
  · apply before
  · intro i x
    simp only [mem_afterAt_iff covers, mem_afterAt_iff covers', before]

end Method

/-- In any order that visits each instruction, repeatedly or not, the analysis gives a set before and one
after each instruction. A variable is found before an instruction exactly when a path from there leads to
a reader past no writer, and after it exactly when it is found before a successor. All such orders find
the same sets, and so does the order from the last instruction to the first. -/
theorem livenessInOrder_exact (m : Method) {order : List Nat} (covers : ∀ i < m.body.length, i ∈ order) :
  (m.livenessInOrder order).sets.before.length = m.body.length
    ∧ (m.livenessInOrder order).sets.after.length = m.body.length
    ∧ (∀ i x, x ∈ (m.livenessInOrder order).sets.beforeAt i ↔ ∃ p len, p 0 = i ∧ m.ReadPath x p len)
    ∧ (∀ i x, x ∈ (m.livenessInOrder order).sets.afterAt i
      ↔ ∃ j ∈ m.successorsAt i, x ∈ (m.livenessInOrder order).sets.beforeAt j)
    ∧ (∀ order', (∀ i < m.body.length, i ∈ order') →
      (m.livenessInOrder order').sets = (m.livenessInOrder order).sets)
    ∧ m.liveness.sets = (m.livenessInOrder order).sets
  := by
  have justified := m.livenessInOrder_justified order
  and_intros
  · rw [justified.before_length, Method.length_flowNodes]
  · rw [justified.after_length, Method.length_flowNodes]
  · intro i x
    rw [Method.mem_livenessInOrder_before covers, Method.liveAt_iff_exists_readPath]
  · intro i x
    apply Method.mem_afterAt_iff covers
  · intro order' covers'
    apply Method.livenessInOrder_sets_eq covers' covers
  · apply Method.livenessInOrder_sets_eq m.mem_reverse_range_body covers

/-- A method that adds the numbers below its parameter. -/
def summing : Method where
  name := "sum"
  access := .everyone
  isStatic := true
  isConstructor := false
  params := [⟨"n", .int⟩]
  ret := .int
  body := [
    .assign (.var "s" .int) .int (.single (.literal "0" .int)),
    .assign (.var "i" .int) .int (.single (.literal "0" .int)),
    .branch (.compare .ge (.var "i" .int) (.var "n" .int)) "done",
    .assign (.var "s" .int) .int (.binary .add (.var "s" .int) (.var "i" .int) .int),
    .assign (.var "i" .int) .int (.binary .add (.var "i" .int) (.literal "1" .int) .int),
    .goto "head",
    .ret .int (some (.var "s" .int))]
  labels := [("head", 2), ("done", 6)]
  vars := Std.ExtTreeMap.ofList [("n", Variable.mk .parameter 0 .int),
    ("s", Variable.mk .temporary 1 .int), ("i", Variable.mk .temporary 2 .int)]

/-- The sum is live at the end of the loop: from there a path goes round by the head of the loop to the
last instruction. -/
theorem summing_live :
  (∀ i < summing.body.length, i ∈ [3, 0, 6, 2, 5, 9, 1, 4, 2])
    ∧ "s" ∈ (summing.livenessInOrder [3, 0, 6, 2, 5, 9, 1, 4, 2]).sets.beforeAt 4
  := by
  have covers : ∀ i < summing.body.length, i ∈ [3, 0, 6, 2, 5, 9, 1, 4, 2] := by decide
  have path : summing.ReadPath "s" (fun l => [4, 5, 2].getD l 6) 3 := by
    constructor <;> decide +kernel
  use covers
  apply ((livenessInOrder_exact summing covers).2.2.1 4 "s").2 ⟨_, 3, rfl, path⟩

end StackBackend
