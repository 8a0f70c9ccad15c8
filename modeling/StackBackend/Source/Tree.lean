import StackBackend.Program.ClassUnit
import StackBackend.Source.Token

/-!
# Declaration trees

What the grammar reads: a class with its members as they are written. The body of a method is
a list of labels and instructions in order, each with its place in the text; labels have no
positions yet, and nothing has been checked.
-/

namespace StackBackend

/-- A part of a method body. -/
inductive BodyItem where
  | label (name : String)
  | instr (i : Instr)
deriving DecidableEq, Repr, Inhabited

/-- A method as it is written. -/
structure MethodDecl where
  name : String
  access : Access
  isStatic : Bool
  isConstructor : Bool
  params : List Param
  ret : Ty
  body : List (Located BodyItem)
deriving DecidableEq, Repr, Inhabited

/-- A member of a class as it is written. -/
inductive Member where
  | field (f : Field)
  | method (m : MethodDecl)
deriving DecidableEq, Repr, Inhabited

/-- A class as it is written. -/
structure UnitDecl where
  imports : List String
  name : String
  superName : Option String
  members : List Member
deriving DecidableEq, Repr, Inhabited

/-- The fields of a class as it is written. -/
def UnitDecl.fields (d : UnitDecl) : List Field :=
  d.members.filterMap fun
    | .field f => some f
    | .method _ => none

/-- The methods of a class as it is written. -/
def UnitDecl.methods (d : UnitDecl) : List MethodDecl :=
  d.members.filterMap fun
    | .field _ => none
    | .method m => some m

/-- A word before the name of a member. -/
inductive Modifier where
  | access (a : Access)
  | static
  | final
deriving DecidableEq, Repr, Inhabited

namespace Modifier

/-- The access that modifiers give: the last one written, or `default`. -/
def accessOr (default : Access) (ms : List Modifier) : Access :=
  ms.foldl (fun a m => match m with
    | .access b => b
    | _ => a) default

/-- The field that modifiers, a name and a type declare. -/
def field (ms : List Modifier) (name : String) (ty : Ty) : Field where
  name := name
  ty := ty
  access := accessOr .package ms
  isStatic := ms.contains .static
  isFinal := ms.contains .final

/-- The method that modifiers, a name, a signature and a body declare. -/
def method (ms : List Modifier) (name : String) (params : List Param) (ret : Ty)
    (body : List (Located BodyItem)) : MethodDecl where
  name := name
  access := accessOr .package ms
  isStatic := ms.contains .static
  isConstructor := false
  params := params
  ret := ret
  body := body

/-- The constructor that modifiers, a signature and a body declare. -/
def constructor (ms : List Modifier) (params : List Param) (ret : Ty)
    (body : List (Located BodyItem)) : MethodDecl where
  name := "<init>"
  access := accessOr .everyone ms
  isStatic := ms.contains .static
  isConstructor := true
  params := params
  ret := ret
  body := body

end Modifier

end StackBackend
