import Mathlib.Tactic.Use
import StackBackend.Assembly.Frame
import StackBackend.Proofs.Assembly.Pieces

/-!
# Slots that lines touch

The frame of lines is as wide as the slots that they touch. Fusing increments touches no slot anew. A
slot that no fused line touches any more was touched twice: an increment of another slot went by way of
it.
-/

namespace StackBackend

namespace Line

/-- The slot that a line touches. -/
def slot? : Line → Option Nat
  | .label _ => none
  | .inst i => i.slot?

/-- The slot that a line reads. -/
def readSlot? : Line → Option Nat
  | .inst (.load _ slot) | .inst (.inc slot _) => some slot
  | _ => none

/-- The slot that a line writes. -/
def writtenSlot? : Line → Option Nat
  | .inst (.store _ slot) | .inst (.inc slot _) => some slot
  | _ => none

/-- The slot that a line touches is read or written. -/
theorem slot?_eq_some_iff {line : Line} {slot : Nat} :
  line.slot? = some slot ↔ line.readSlot? = some slot ∨ line.writtenSlot? = some slot
  := by
  cases line with
  | label name => simp [slot?, readSlot?, writtenSlot?]
  | inst i => cases i <;> simp [slot?, readSlot?, writtenSlot?, Inst.slot?]

theorem readSlot?_of_inst {i : Inst} (free : i.slot? = none) :
  readSlot? (.inst i) = none
  := by
  cases i <;> first | rfl | cases free

theorem writtenSlot?_of_inst {i : Inst} (free : i.slot? = none) :
  writtenSlot? (.inst i) = none
  := by
  cases i <;> first | rfl | cases free

end Line

/-! ### Frames -/

namespace Frame

variable {f g : Frame} {n : Nat}

/-- The frame grows to the slot that a line touches. -/
theorem maxSlots_step_le_iff {line : Line} (stepped : f.step line = .ok g) :
  g.maxSlots ≤ n ↔ f.maxSlots ≤ n ∧ ∀ slot, line.slot? = some slot → slot < n
  := by
  cases line with
  | label name =>
      obtain rfl := Except.ok.inj stepped
      simp only [passLabel, Line.slot?]
      split <;> simp
  | inst i =>
      simp only [step] at stepped
      split at stepped
      · cases stepped
      · split at stepped
        · obtain rfl := Except.ok.inj stepped
          simp only [passInst, Line.slot?]
          cases i.slot? with
          | none => simp
          | some slot => simp only [Nat.max_le, Nat.add_one_le_iff, Option.some.injEq, forall_eq']
        · cases stepped

/-- A frame is no wider than its start and the slots of its lines make it. -/
theorem maxSlots_replay_le_iff {lines : List Line} (counted : f.replay lines = .ok g) :
  g.maxSlots ≤ n ↔ f.maxSlots ≤ n ∧ ∀ line ∈ lines, ∀ slot, line.slot? = some slot → slot < n
  := by
  induction lines generalizing f with
  | nil =>
      obtain rfl := Except.ok.inj counted
      simp
  | cons line lines ih =>
      rw [replay, List.foldlM_cons] at counted
      cases stepped : f.step line with
      | error e =>
          rw [stepped] at counted
          cases counted
      | ok h =>
          rw [stepped] at counted
          rw [ih counted, maxSlots_step_le_iff stepped, List.forall_mem_cons, and_assoc]

end Frame

/-! ### Fused lines -/

variable {all : List Line} {slot : Nat}

/-- Fused lines touch slots that were touched before. -/
theorem exists_slot_of_mem_fuseIn {lines : List Line} {line : Line} (mem : line ∈ (fuseIn all lines).1)
    (touched : line.slot? = some slot) :
  ∃ line' ∈ lines, line'.slot? = some slot
  := by
  obtain ⟨pieces, rfl, -, same⟩ := exists_cut all lines
  rw [same] at mem
  obtain mem | ⟨n, t, among, rfl⟩ := Piece.mem_of_mem_map_after mem
  · use line, mem, touched
  · have first : .inst (.load .int n) ∈ (Piece.fused n t).before := List.mem_cons_self
    exact ⟨_, List.mem_flatMap.2 ⟨_, among, first⟩, touched⟩

/-- Where no increment is fused the lines stay as they are. -/
theorem fuseIn_of_count_eq_zero {lines : List Line} (none : (fuseIn all lines).2 = 0) :
  (fuseIn all lines).1 = lines
  := by
  fun_induction fuseIn all lines with
  | case1 => rfl
  | case2 => simp at none
  | case3 first rest _ fused count rest_fused ih =>
      rw [rest_fused] at ih
      apply congrArg (first :: ·) (ih none)

/-- Every place among the lines has one among the fused lines or is inside a fused increment that has
one. -/
theorem exists_fusedPlace {p : Nat} (le : p ≤ all.length) :
  (∃ p', FusedPlace all p' p)
    ∨ ∃ w n w', w < p ∧ p < w + 6 ∧ FusedPlace all w' w ∧ fusibleAt? all (all.drop w) = some n
  := by
  induction p with
  | zero => exact .inl ⟨0, .zero all⟩
  | succ p ih =>
      obtain ⟨p', place⟩ | ⟨w, n, w', after, before, place, found⟩ := ih (Nat.le_of_succ_le le)
      · cases found : fusibleAt? all (all.drop p) with
        | some n => exact .inr ⟨p, n, p', by omega, by omega, place, found⟩
        | none =>
            have here : all[p]? = some all[p] := List.getElem?_eq_getElem le
            exact .inl ⟨p' + 1, (place.kept here found).2⟩
      · by_cases last : p + 1 = w + 6
        · rw [last]
          left
          use w' + 1
          apply (place.fused found).2
        · exact .inr ⟨w, n, w', by omega, by omega, place, found⟩

/-- A line is kept or belongs to an increment that is fused. -/
theorem mem_fused_or_window {p : Nat} {line : Line} (here : all[p]? = some line) :
  line ∈ (fuseIncrements all).1
    ∨ ∃ w n, w ≤ p ∧ p < w + 6 ∧ fusibleAt? all (all.drop w) = some n
      ∧ .inst (.inc n 1) ∈ (fuseIncrements all).1
  := by
  obtain ⟨lt, -⟩ := List.getElem?_eq_some_iff.1 here
  obtain ⟨p', place⟩ | ⟨w, n, w', after, before, place, found⟩ := exists_fusedPlace (Nat.le_of_lt lt)
  · cases found : fusibleAt? all (all.drop p) with
    | none =>
        left
        apply List.mem_of_getElem? (place.kept here found).1
    | some n =>
        right
        use p, n, Nat.le_refl p
        and_intros
        · omega
        · apply found
        · apply List.mem_of_getElem? (place.fused found).1
  · right
    use w, n, Nat.le_of_lt after, before, found, List.mem_of_getElem? (place.fused found).1

/-- Where no fused line touches a slot, each line that touches it is in the middle of an increment that goes
by way of it, and it is read once. Of the six lines of an increment the first and the last touch its own slot,
the fourth and the fifth the other one. -/
theorem window_of_gone {p : Nat} {line : Line} (here : all[p]? = some line) (touched : line.slot? = some slot)
    (gone : ∀ line ∈ (fuseIncrements all).1, line.slot? ≠ some slot) :
  ∃ w n rest, all.drop w = incrementWindow n slot ++ rest ∧ all.countP (Line.reads slot) = 1
    ∧ (p = w + 3 ∨ p = w + 4)
  := by
  obtain kept | ⟨w, n, after, before, found, fused⟩ := mem_fused_or_window here
  · apply (gone line kept touched).elim
  · obtain ⟨t, rest, window, once⟩ := fusibleAt?_eq_some found
    have other : slot ≠ n := by
      rintro rfl
      apply gone _ fused rfl
    obtain ⟨k, rfl⟩ := Nat.exists_eq_add_of_le after
    have inside : (incrementWindow n t ++ rest)[k]? = some line := by
      rw [← window, List.getElem?_drop, here]
    have cases : k = 0 ∨ k = 1 ∨ k = 2 ∨ k = 3 ∨ k = 4 ∨ k = 5 := by omega
    rcases cases with rfl | rfl | rfl | rfl | rfl | rfl <;>
      obtain rfl := Option.some.inj inside <;>
      simp only [Line.slot?, Inst.slot?, Option.some.injEq, reduceCtorEq] at touched
    · apply (other touched.symm).elim
    · subst touched
      use w, n, rest, window, once.resolve_left other
      left
      rfl
    · subst touched
      use w, n, rest, window, once.resolve_left other
      right
      rfl
    · apply (other touched.symm).elim

/-- A slot that is touched, but by no fused line, is touched in the middle of one increment alone, since each
of two increments would read it. -/
theorem exists_window_of_gone {line : Line} (mem : line ∈ all) (touched : line.slot? = some slot)
    (gone : ∀ line ∈ (fuseIncrements all).1, line.slot? ≠ some slot) :
  ∃ w n rest, all.drop w = incrementWindow n slot ++ rest
    ∧ ∀ (p : Nat) (line : Line), all[p]? = some line → line.slot? = some slot → p = w + 3 ∨ p = w + 4
  := by
  obtain ⟨p, here⟩ := List.mem_iff_getElem?.1 mem
  obtain ⟨w, n, rest, window, once, -⟩ := window_of_gone here touched gone
  use w, n, rest, window
  intro p' line' here' touched'
  obtain ⟨w', n', rest', window', -, place⟩ := window_of_gone here' touched' gone
  have load : all[w + 4]? = some (.inst (.load .int slot)) := by
    rw [← List.getElem?_drop, window]
    rfl
  have load' : all[w' + 4]? = some (.inst (.load .int slot)) := by
    rw [← List.getElem?_drop, window']
    rfl
  have reads : (Line.inst (.load .int slot)).reads slot = true := by simp [Line.reads]
  obtain less | rfl | less := Nat.lt_trichotomy w w'
  · have twice := two_le_countP (show w + 4 < w' + 4 by omega) load load' reads reads
    omega
  · apply place
  · have twice := two_le_countP (show w' + 4 < w + 4 by omega) load' load reads reads
    omega

end StackBackend
