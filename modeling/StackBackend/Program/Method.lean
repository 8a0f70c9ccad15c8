import StackBackend.Program.Instr
import StackBackend.Program.Variable
import StackBackend.Text

/-!
# Methods

A method has a signature, a body of instructions, labels that stand before instructions (or at
the end), and a variable table. `successors` gives the places control may go to from each
instruction.
-/

namespace StackBackend

/-- Who may use a member of a class. -/
inductive Access where
  | everyone | owner | family | package
deriving DecidableEq, Repr, Inhabited

/-- The word of an access with the blank after it; package access has no word. -/
def Access.text : Access → String
  | everyone => "public "
  | owner => "private "
  | family => "protected "
  | package => ""

/-- A parameter. -/
structure Param where
  name : String
  ty : Ty
deriving DecidableEq, Repr, Inhabited

/-- A method. The number with a label is the index of the instruction that it stands before;
at the number of instructions it stands at the end. -/
structure Method where
  name : String
  access : Access
  isStatic : Bool
  isConstructor : Bool
  params : List Param
  ret : Ty
  body : List Instr
  labels : List (String × Nat)
  vars : VarTable
deriving DecidableEq

namespace Method

/-- The labels that stand before the instruction at `index`, in order. -/
def labelsAt (m : Method) (index : Nat) : List String :=
  (m.labels.filter (·.2 = index)).map Prod.fst

/-- The index of a label: that of its first definition. -/
def labelIndex? (m : Method) (label : String) : Option Nat :=
  (m.labels.find? (·.1 = label)).map Prod.snd

/-- The number of slots that the receiver and the parameters take. -/
def entrySlots (m : Method) : Nat :=
  m.params.length + if m.isStatic then 0 else 1

/-! ### Control flow -/

/-- The instruction a jump to `label` goes to; a label at the end or an unknown label has
none. -/
def jumpIndex? (m : Method) (label : String) : Option Nat :=
  (m.labelIndex? label).filter (· < m.body.length)

/-- The instruction after `index`, if there is one. -/
def nextIndex? (m : Method) (index : Nat) : Option Nat :=
  if index + 1 < m.body.length then some (index + 1) else none

/-- The places control may go to from the instruction `i` at `index`, a jump before the next
instruction, none twice. -/
def successorsOf (m : Method) (i : Instr) (index : Nat) : List Nat :=
  match i with
  | .goto label => (m.jumpIndex? label).toList
  | .branch _ label =>
      let jump := (m.jumpIndex? label).toList
      jump ++ (m.nextIndex? index).toList.filter (· ∉ jump)
  | .ret .. => []
  | _ => (m.nextIndex? index).toList

/-- The places control may go to from each instruction. -/
def successors (m : Method) : List (List Nat) :=
  m.body.mapIdx fun index i => m.successorsOf i index

/-- The labels of jumps that the method does not define, in the order of the jumps. -/
def undefinedLabels (m : Method) : List String :=
  (m.body.filterMap Instr.jumpLabel?).filter fun label => (m.labelIndex? label).isNone

/-! ### Text -/

/-- The text of the parameters. -/
def paramsText (m : Method) : String :=
  Text.enclose (m.params.map fun p => p.name ++ "." ++ p.ty.text) "(" ", " ")"

/-- The first line of a method of the class `owner`. -/
def headLine (m : Method) (owner : String) : String :=
  let title :=
    if m.isConstructor then ".construct " ++ owner
    else ".method " ++ m.access.text ++ (if m.isStatic then "static " else "") ++ m.name
  "    " ++ title ++ m.paramsText ++ "." ++ m.ret.text ++ " \x7b"

/-- The lines of the labels at `index`. -/
def labelLines (m : Method) (index : Nat) : List String :=
  (m.labelsAt index).map fun label => "    " ++ label ++ ":"

/-- The lines of a method of the class `owner`. -/
def lines (m : Method) (owner : String) : List String :=
  m.headLine owner
    :: (m.body.mapIdx fun index i => m.labelLines index ++ ["        " ++ i.text ++ ";"]).flatten
    ++ m.labelLines m.body.length
    ++ ["    \x7d"]

end Method

end StackBackend
