import StackBackend.Program.Ty
import StackBackend.Text

/-!
# Operands

An operand is a literal, a variable, or an element of an array variable; each carries the type
of its value. The type of an array element is the type of the element, so its variable has the
array type over it.
-/

namespace StackBackend

/-- An operand. -/
inductive Operand where
  | literal (value : String) (ty : Ty)
  | var (name : String) (ty : Ty)
  | item (name : String) (index : Operand) (ty : Ty)
deriving DecidableEq, Repr, Inhabited

namespace Operand

/-- The type of the value of an operand. -/
def ty : Operand → Ty
  | literal _ ty | var _ ty | item _ _ ty => ty

/-- The variable an operand names, itself or as an array. -/
def name? : Operand → Option String
  | literal _ _ => none
  | var name _ | item name _ _ => some name

/-- Whether an operand is a literal. -/
def isLiteral : Operand → Bool
  | literal _ _ => true
  | _ => false

/-- Whether an operand is a literal that writes the number zero, whatever its type. -/
def isZero : Operand → Bool
  | literal value _ => Text.integer? 64 value = some 0
  | _ => false

/-- The text of an operand. -/
def text : Operand → String
  | literal value ty => value ++ "." ++ ty.text
  | var name ty => name ++ "." ++ ty.text
  | item name index ty => name ++ "[" ++ index.text ++ "]." ++ ty.text

/-- The variables in an operand with their types, an array before the variables of its
index. -/
def typedNames : Operand → List (String × Ty)
  | literal _ _ => []
  | var name ty => [(name, ty)]
  | item name index ty => (name, .array ty) :: index.typedNames

/-- The variables in an operand. -/
def names (e : Operand) : List String := e.typedNames.map Prod.fst

end Operand

end StackBackend
