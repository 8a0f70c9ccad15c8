/-!
# Types

The types of a program: 32-bit integers, booleans, strings, the type of no value, arrays and
objects of a named class. An integer and a boolean are both held as a machine integer.
-/

namespace StackBackend

/-- A type. -/
inductive Ty where
  | int
  | bool
  | string
  | void
  | array (elem : Ty)
  | object (name : String)
deriving DecidableEq, Repr, Inhabited

namespace Ty

/-- The text of a type. -/
def text : Ty → String
  | int => "i32"
  | bool => "bool"
  | string => "String"
  | void => "V"
  | array elem => "array." ++ elem.text
  | object name => name

/-- The type a single name stands for: one of the four built-in names, or a class. -/
def ofName (name : String) : Ty :=
  if name = "i32" then int
  else if name = "bool" then bool
  else if name = "String" then string
  else if name = "V" then void
  else object name

/-- Whether values of the type are held as machine integers. -/
def isIntLike : Ty → Bool
  | int | bool => true
  | _ => false

/-- Whether the type is the type of no value. -/
def isVoid (ty : Ty) : Bool := ty = void

end Ty

end StackBackend
