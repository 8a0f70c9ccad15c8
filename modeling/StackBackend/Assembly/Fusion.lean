import StackBackend.Assembly.Inst

/-!
# Fused increments

Six lines that add one to a slot `n` by way of a slot `t`,

    iload n;  iconst_1;  iadd;  istore t;  iload t;  istore n,

become the single line `iinc n 1` when `t` is `n`, or when no line outside the six reads `t`.
Labels among the lines keep them apart.
-/

namespace StackBackend

/-- Whether a line reads the slot. -/
def Line.reads (slot : Nat) : Line → Bool
  | .inst (.load _ s) | .inst (.inc s _) => s = slot
  | _ => false

/-- The slots `n` and `t` if the lines begin with an increment of `n` by way of `t`. -/
def incrementAt? : List Line → Option (Nat × Nat)
  | .inst (.load .int n) :: .inst (.const 1) :: .inst .add :: .inst (.store .int t)
      :: .inst (.load .int t') :: .inst (.store .int n') :: _ =>
      if t = t' ∧ n = n' then some (n, t) else none
  | _ => none

/-- The slot whose increment begins the lines and can be fused, in a method of the lines `all`:
the one read of `t` among the six lines is the only one. -/
def fusibleAt? (all lines : List Line) : Option Nat :=
  match incrementAt? lines with
  | some (n, t) => if t = n ∨ all.countP (Line.reads t) = 1 then some n else none
  | none => none

/-- Fuses the increments in the rest `lines` of the lines `all`, and counts them. -/
def fuseIn (all : List Line) : List Line → List Line × Nat
  | [] => ([], 0)
  | line :: rest =>
      match fusibleAt? all (line :: rest) with
      | some n =>
          let (fused, count) := fuseIn all (rest.drop 5)
          (.inst (.inc n 1) :: fused, count + 1)
      | none =>
          let (fused, count) := fuseIn all rest
          (line :: fused, count)
termination_by lines => lines.length
decreasing_by
  · simp only [List.length_drop, List.length_cons]
    omega
  · simp

/-- Fuses increments from the first line to the last, and counts them. -/
def fuseIncrements (lines : List Line) : List Line × Nat := fuseIn lines lines

end StackBackend
