import StackBackend.Proofs.Execution.Discipline
import StackBackend.Proofs.Execution.Machine
import StackBackend.Proofs.Kinds.Signature

/-!
# The domain of kinds

A domain that knows no more of a value than its kind, or that there is none. Every operation asks for
the kinds it works on, and fails on others. Which way a test goes is not known: the heap is a list of
answers to come.
-/

namespace StackBackend

namespace Action

/-- The kinds of the values that an action is done on. -/
def wants : Action → List Kind
  | invoke kind target =>
      (if kind = .static then [] else [.ref]) ++ (Signature.ofTarget target).params
  | new _ => []
  | newArray _ | newRefArray _ => [.int]
  | arrayLoad _ => [.ref, .int]
  | arrayStore kind => [.ref, .int, kind]
  | arrayLength | getField .. => [.ref]
  | putField _ desc => [.ref, .ofDescriptor desc.toList]

/-- The kind of the value that an action gives, if it gives one. -/
def gives : Action → Option Kind
  | invoke _ target => (Signature.ofTarget target).result
  | new _ | newArray _ | newRefArray _ => some .ref
  | arrayLoad kind => some kind
  | arrayLength => some .int
  | getField _ desc => some (.ofDescriptor desc.toList)
  | arrayStore _ | putField .. => none

end Action

/-- A value is of the kind that is asked for. -/
def checkKind (kind : Kind) (v : Option Kind) : Except Fault Unit :=
  if v = some kind then .ok () else .error .kind

@[simp]
theorem checkKind_self (kind : Kind) :
  checkKind kind (some kind) = .ok ()
  := if_pos rfl

/-- Any other kind is a fault. -/
theorem checkKind_of_ne {kind : Kind} {v : Option Kind} (other : v ≠ some kind) :
  checkKind kind v = .error .kind
  := if_neg other

/-- An operation on two integers gives an integer. -/
def arithKinds : Option Kind → Option Kind → Except Fault (Option Kind)
  | some .int, some .int => .ok (some .int)
  | _, _ => .error .kind

theorem arithKinds_of_not_ints {v w : Option Kind} (other : ¬ (v = some .int ∧ w = some .int)) :
  arithKinds v w = .error .kind
  := by
  unfold arithKinds
  split
  · apply (other ⟨rfl, rfl⟩).elim
  · rfl

/-- The next answer decides the test of an integer. -/
def testKind : Option Kind → List Bool → Except Fault (Bool × List Bool)
  | some .int, answers => .ok (answers.headD false, answers.tail)
  | _, _ => .error .kind

theorem testKind_of_ne {v : Option Kind} (other : v ≠ some .int) (answers : List Bool) :
  testKind v answers = .error .kind
  := by
  unfold testKind
  split
  · apply (other rfl).elim
  · rfl

/-- The next answer decides the comparison of two integers. -/
def compareKinds : Option Kind → Option Kind → List Bool → Except Fault (Bool × List Bool)
  | some .int, w, answers => testKind w answers
  | _, _, _ => .error .kind

theorem compareKinds_of_not_ints {v w : Option Kind} (other : ¬ (v = some .int ∧ w = some .int))
    (answers : List Bool) :
  compareKinds v w answers = .error .kind
  := by
  unfold compareKinds
  split
  · apply testKind_of_ne
    intro int
    apply other
    use rfl, int
  · rfl

/-- An action on values of the kinds it wants gives the kind it gives. -/
def actKinds (a : Action) (vs : List (Option Kind)) (answers : List Bool) :
    Except Fault (Option Kind × List Bool) :=
  if vs = a.wants.map some then .ok (a.gives, answers) else .error .kind

/-- An action on values of the kinds it wants gives what it gives. -/
@[simp]
theorem actKinds_wants (a : Action) (answers : List Bool) :
  actKinds a (a.wants.map some) answers = .ok (a.gives, answers)
  := if_pos rfl

/-- On any others it is a fault. -/
theorem actKinds_of_ne {a : Action} {vs : List (Option Kind)} (other : vs ≠ a.wants.map some)
    (answers : List Bool) :
  actKinds a vs answers = .error .kind
  := if_neg other

/-- The domain of kinds. -/
@[reducible]
def Domain.kinds : Domain where
  Value := Option Kind
  Heap := List Bool
  int _ := some .int
  text _ := some .ref
  check := checkKind
  arith _ := arithKinds
  neg v := arithKinds v (some .int)
  test _ := testKind
  compare _ := compareKinds
  act := actKinds

theorem Domain.kinds_lawful :
  Domain.kinds.Lawful
  where
  compare_zero _ v _ := by
    rcases v with _ | _ | _ <;> rfl
  zero_compare _ w _ := by
    rcases w with _ | _ | _ <;> rfl
  add_comm v w := by
    rcases v with _ | _ | _ <;> rcases w with _ | _ | _ <;> rfl
  check_add v w := by
    rcases v with _ | _ | _ <;> rcases w with _ | _ | _ <;> rfl
  check_sum v w sum made := by
    rcases v with _ | _ | _ <;> rcases w with _ | _ | _ <;> cases made
    rfl

/-! ### What an instruction finds -/

/-- The kinds that the operand stack holds, from the top down, and those that the slots hold. -/
structure Shape where
  stack : List Kind
  slots : Nat → Option Kind

namespace Inst

/-- The kinds that an instruction takes from the stack, from the top down; any kind where there is
none. -/
def wants (i : Inst) : List (Option Kind) :=
  match i.action? with
  | some (act, _, _) => act.wants.reverse.map some
  | none =>
      match i with
      | store kind _ | ret (some kind) => [some kind]
      | add | sub | mul | div | xor | jumpIfCompare .. => [some .int, some .int]
      | neg | jumpIf .. => [some .int]
      | pop => [none]
      | _ => []

/-- The kinds that an instruction leaves on the stack. -/
def gives (i : Inst) : List Kind :=
  match i.action? with
  | some (act, _, _) => act.gives.toList
  | none =>
      match i with
      | minusOne | const _ | bytePush _ | shortPush _ | add | sub | mul | div | xor | neg => [.int]
      | loadConst text => [if text.toList.head? = some '"' then .ref else .int]
      | load kind _ => [kind]
      | _ => []

/-- The slot that an instruction reads, with the kind it is read as. -/
def reads? : Inst → Option (Kind × Nat)
  | load kind slot => some (kind, slot)
  | inc slot _ => some (.int, slot)
  | _ => none

/-- The slot that an instruction writes, with the kind that is written. -/
def writes? : Inst → Option (Kind × Nat)
  | store kind slot => some (kind, slot)
  | inc slot _ => some (.int, slot)
  | _ => none

end Inst

/-- A stack begins with such kinds. -/
def Begins : List (Option Kind) → List Kind → Prop
  | [], _ => True
  | want :: wants, kind :: stack => (∀ k ∈ want, kind = k) ∧ Begins wants stack
  | _ :: _, [] => False

/-- An instruction finds values of the kinds it takes on the stack, and a value of the kind it reads in
the slot. -/
structure Inst.Finds (i : Inst) (s : Shape) : Prop where
  stack : Begins i.wants s.stack
  slot : ∀ kind slot, i.reads? = some (kind, slot) → s.slots slot = some kind

/-- The kinds after an instruction. -/
def Inst.shape (i : Inst) (s : Shape) : Shape where
  stack := i.gives ++ s.stack.drop i.wants.length
  slots :=
    match i.writes? with
    | some (kind, slot) => Function.update s.slots slot (some kind)
    | none => s.slots

/-- The counts that a call carries are those of its signature, and a constant is a quoted text or a
number. -/
def Inst.IsFaithful : Inst → Prop
  | invoke kind target pops pushes =>
      pops = (Action.invoke kind target).wants.length
        ∧ pushes = (Action.invoke kind target).gives.toList.length
  | loadConst text => text.toList.head? = some '"' ∨ (Text.integer? 32 text).isSome
  | _ => True

end StackBackend
