import StackBackend.Proofs.Execution.Domain

/-!
# The domain of words and references

Integers are words of 32 bits whose arithmetic wraps around; everything else is a reference.
What references stand for, and what the actions on them do, is up to the surroundings: they may
change a heap of any form, give any result, or fail. Values are moved without regard to kinds.
-/

namespace StackBackend

/-- A machine value: a word or a reference. -/
inductive Datum (R : Type) where
  | int (w : Int32)
  | ref (r : R)
deriving DecidableEq, Repr

/-- Surroundings: references, a heap, the references of text constants, and what each action
does to the heap and gives, unless it fails. -/
structure World where
  Ref : Type
  Heap : Type
  text : String → Ref
  act : Action → List (Datum Ref) → Heap → Option (Datum Ref × Heap)

/-- The operation on words; division by zero has no result. -/
def Arith.onWords (x y : Int32) : Arith → Option Int32
  | add => some (x + y)
  | sub => some (x - y)
  | mul => some (x * y)
  | div => if y = 0 then none else some (x / y)
  | xor => some (x ^^^ y)

namespace World

/-- A world in which every action fails. -/
def barren : World := ⟨Unit, Unit, fun _ => (), fun _ _ _ => none⟩

/-- The comparison of two values: both must be words. -/
def compare (W : World) (r : Int32 → Int32 → Bool) :
    Datum W.Ref → Datum W.Ref → W.Heap → Except Fault (Bool × W.Heap)
  | .int x, .int y, h => .ok (r x y, h)
  | _, _, _ => .error .test

/-- The domain of words and of the references of a world. -/
def domain (W : World) : Domain where
  Value := Datum W.Ref
  Heap := W.Heap
  int v := .int (.ofInt v)
  text s := .ref (W.text s)
  check _ _ := .ok ()
  arith op
    | .int x, .int y =>
        match op.onWords x y with
        | some z => .ok (.int z)
        | none => .error (.arithmetic op)
    | _, _ => .error (.arithmetic op)
  neg
    | .int x => .ok (.int (-x))
    | .ref _ => .error .negation
  test p
    | .int x, h => .ok (p x, h)
    | .ref _, _ => .error .test
  compare := W.compare
  act a args h :=
    match W.act a args h with
    | some r => .ok r
    | none => .error (.action a)

theorem domain_lawful (W : World) :
  W.domain.Lawful
  where
  compare_zero _ a _ := by
    cases a <;> rfl
  zero_compare _ b _ := by
    cases b <;> rfl
  add_comm a b := by
    cases a <;> cases b
    · simp [domain, Arith.onWords, Int32.add_comm]
    · rfl
    · rfl
    · rfl
  check_add _ _ := rfl
  check_sum _ _ _ _ := rfl

end World

end StackBackend
