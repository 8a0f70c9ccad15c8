import StackBackend.Program.Method

/-!
# Class units

A class unit is a class with its imports, fields and methods. A class name stands for the class
itself, for an import with that last component, or for a class of no package. A descriptor is the
text by which the machine names a type.
-/

namespace StackBackend

/-- A field of a class. -/
structure Field where
  name : String
  ty : Ty
  access : Access
  isStatic : Bool
  isFinal : Bool
deriving DecidableEq, Repr, Inhabited

/-- A class with its imports, fields and methods. -/
structure ClassUnit where
  name : String
  superName : Option String
  imports : List String
  fields : List Field
  methods : List Method
deriving DecidableEq

namespace ClassUnit

/-- The last component of a dotted name. -/
def lastComponent (path : String) : String :=
  String.ofList (path.toList.reverse.takeWhile (· ≠ '.')).reverse

/-- A dotted name with slashes for its dots. -/
def slashed (path : String) : String :=
  String.ofList (path.toList.map fun c => if c = '.' then '/' else c)

/-- The full name of the class that `name` stands for. -/
def resolve (u : ClassUnit) (name : String) : String :=
  if name = u.name then name
  else
    match u.imports.find? (lastComponent · = name) with
    | some path => slashed path
    | none => name

/-- The full name of the class above this one. -/
def superPath (u : ClassUnit) : String :=
  match u.superName with
  | some name => u.resolve name
  | none => "java/lang/Object"

/-- The first method of that name. -/
def method? (u : ClassUnit) (name : String) : Option Method :=
  u.methods.find? (·.name = name)

/-! ### Descriptors -/

/-- The descriptor of a type in a class unit. -/
def descriptor (u : ClassUnit) : Ty → String
  | .int => "I"
  | .bool => "Z"
  | .string => "Ljava/lang/String;"
  | .void => "V"
  | .array elem => "[" ++ u.descriptor elem
  | .object name => "L" ++ u.resolve name ++ ";"

/-- The descriptors of types in a row. -/
def descriptors (u : ClassUnit) (tys : List Ty) : String :=
  String.join (tys.map u.descriptor)

/-- The class that an instruction on values of the type works on. -/
def classPath (u : ClassUnit) : Ty → String
  | .object name => u.resolve name
  | .string => "java/lang/String"
  | .array elem => u.descriptor (.array elem)
  | .int | .bool | .void => "java/lang/Object"

/-! ### Text -/

/-- The line of a field. -/
def fieldLine (f : Field) : String :=
  "    .field " ++ f.access.text ++ (if f.isStatic then "static " else "")
    ++ (if f.isFinal then "final " else "") ++ f.name ++ "." ++ f.ty.text ++ ";"

/-- The line that opens a class. -/
def headLine (u : ClassUnit) : String :=
  u.name ++ (match u.superName with
    | some name => " extends " ++ name
    | none => "") ++ " \x7b"

/-- The lines of a class unit; a blank line stands before each method. -/
def lines (u : ClassUnit) : List String :=
  u.imports.map (fun path => "import " ++ path ++ ";")
    ++ u.headLine :: u.fields.map fieldLine
    ++ u.methods.flatMap (fun m => "" :: m.lines u.name)
    ++ ["\x7d"]

/-- The text of a class unit. -/
def text (u : ClassUnit) : String := Text.ofLines u.lines

end ClassUnit

end StackBackend
