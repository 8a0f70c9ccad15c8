import StackBackend.Program.Operand

/-!
# Instructions

A method body is a list of instructions. The right side of an assignment is an instruction
again; every instruction that leaves a value may stand there. `reads` and `target?` say
which operands an instruction reads and which one it writes: writing an element of an array
reads the array.
-/

namespace StackBackend

/-- A binary operator. -/
inductive BinaryOp where
  | add | sub | mul | div | lt | gt | le | ge | eq | ne | and | or
deriving DecidableEq, Repr, Inhabited

namespace BinaryOp

/-- The operators in order. -/
def all : List BinaryOp := [add, sub, mul, div, lt, gt, le, ge, eq, ne, and, or]

/-- The symbol of an operator. -/
def symbol : BinaryOp → String
  | add => "+"
  | sub => "-"
  | mul => "*"
  | div => "/"
  | lt => "<"
  | gt => ">"
  | le => "<="
  | ge => ">="
  | eq => "=="
  | ne => "!="
  | and => "&&"
  | or => "||"

/-- Whether an operator compares two numbers. -/
def isRelational : BinaryOp → Bool
  | lt | gt | le | ge | eq | ne => true
  | _ => false

end BinaryOp

/-- A unary operator. -/
inductive UnaryOp where
  | not | neg
deriving DecidableEq, Repr, Inhabited

/-- The symbol of a unary operator. -/
def UnaryOp.symbol : UnaryOp → String
  | not => "!"
  | neg => "-"

/-- How a method is called: on a class, on an object by its class, or exactly as named. -/
inductive CallKind where
  | static | virtual | special
deriving DecidableEq, Repr, Inhabited

/-- The name of a call kind. -/
def CallKind.text : CallKind → String
  | static => "invokestatic"
  | virtual => "invokevirtual"
  | special => "invokespecial"

/-- The condition of a branch. -/
inductive Condition where
  | compare (op : BinaryOp) (lhs rhs : Operand)
  | not (e : Operand)
  | test (e : Operand)
deriving DecidableEq, Repr, Inhabited

namespace Condition

/-- The text of a condition. -/
def text : Condition → String
  | compare op lhs rhs => lhs.text ++ " " ++ op.symbol ++ ".bool " ++ rhs.text
  | not e => "!.bool " ++ e.text
  | test e => e.text

/-- The operands of a condition. -/
def operands : Condition → List Operand
  | compare _ lhs rhs => [lhs, rhs]
  | not e | test e => [e]

/-- The condition with `f` applied to each operand. -/
def map (f : Operand → Operand) : Condition → Condition
  | compare op lhs rhs => compare op (f lhs) (f rhs)
  | not e => not (f e)
  | test e => test (f e)

end Condition

/-- An instruction. The receiver of a static call is a variable that names the class; the
type of a new array is the array type and its argument the length. -/
inductive Instr where
  | assign (dest : Operand) (ty : Ty) (rhs : Instr)
  | single (e : Operand)
  | binary (op : BinaryOp) (lhs rhs : Operand) (ty : Ty)
  | unary (op : UnaryOp) (e : Operand) (ty : Ty)
  | ret (ty : Ty) (value : Option Operand)
  | call (kind : CallKind) (receiver : Operand) (method : String) (args : List Operand)
    (result : Ty)
  | new (ty : Ty) (args : List Operand)
  | getField (object : Operand) (field : String) (fieldTy : Ty)
  | putField (object : Operand) (field : String) (fieldTy : Ty) (value : Operand)
  | goto (label : String)
  | branch (cond : Condition) (label : String)
  | arrayLength (e : Operand)
deriving DecidableEq, Repr, Inhabited

namespace Instr

/-- The name of the form of an instruction. -/
def kindName : Instr → String
  | assign .. => "Assign"
  | single .. => "SingleOp"
  | binary .. => "BinaryOp"
  | unary .. => "UnaryOp"
  | ret .. => "Return"
  | call .static .. => "CallStatic"
  | call .virtual .. => "CallVirtual"
  | call .special .. => "CallSpecial"
  | new .. => "New"
  | getField .. => "GetField"
  | putField .. => "PutField"
  | goto .. => "Goto"
  | branch .. => "CondBranch"
  | arrayLength .. => "ArrayLength"

/-- The operands an instruction reads, in order; an array element that is written comes
last. -/
def reads : Instr → List Operand
  | assign dest _ rhs =>
      match dest with
      | .item .. => rhs.reads ++ [dest]
      | _ => rhs.reads
  | single e | arrayLength e => [e]
  | binary _ lhs rhs _ => [lhs, rhs]
  | unary _ e _ => [e]
  | ret _ value => value.toList
  | call kind receiver _ args _ => if kind = .static then args else receiver :: args
  | new _ args => args
  | getField object _ _ => [object]
  | putField object _ _ value => [object, value]
  | goto _ => []
  | branch cond _ => cond.operands

/-- The operand an instruction writes. -/
def target? : Instr → Option Operand
  | assign dest _ _ => some dest
  | _ => none

/-- The label an instruction may jump to. -/
def jumpLabel? : Instr → Option String
  | goto label | branch _ label => some label
  | _ => none

/-- The instruction with `f` applied to each of its operands, indices of array elements
excepted. -/
def map (f : Operand → Operand) : Instr → Instr
  | assign dest ty rhs => assign (f dest) ty (rhs.map f)
  | single e => single (f e)
  | binary op lhs rhs ty => binary op (f lhs) (f rhs) ty
  | unary op e ty => unary op (f e) ty
  | ret ty value => ret ty (value.map f)
  | call kind receiver method args result => call kind (f receiver) method (args.map f) result
  | new ty args => new ty (args.map f)
  | getField object field fieldTy => getField (f object) field fieldTy
  | putField object field fieldTy value => putField (f object) field fieldTy (f value)
  | goto label => goto label
  | branch cond label => branch (cond.map f) label
  | arrayLength e => arrayLength (f e)

/-- The texts of further arguments, each after a comma. -/
def argsText (args : List Operand) : String :=
  String.join (args.map fun e => ", " ++ e.text)

/-- The text of the receiver of a call: a static call on a variable shows its name alone. -/
def receiverText : CallKind → Operand → String
  | .static, .var name _ => name
  | _, receiver => receiver.text

/-- The text of an instruction. -/
def text : Instr → String
  | assign dest ty rhs => dest.text ++ " :=." ++ ty.text ++ " " ++ rhs.text
  | single e => e.text
  | binary op lhs rhs ty =>
      lhs.text ++ " " ++ op.symbol ++ "." ++ ty.text ++ " " ++ rhs.text
  | unary op e ty => op.symbol ++ "." ++ ty.text ++ " " ++ e.text
  | ret ty (some value) => "ret." ++ ty.text ++ " " ++ value.text
  | ret ty none => "ret." ++ ty.text
  | call kind receiver method args result =>
      kind.text ++ "(" ++ receiverText kind receiver ++ ", \"" ++ method ++ "\""
        ++ argsText args ++ ")." ++ result.text
  | new ty args =>
      let head := match ty with
        | .array _ => "array"
        | _ => ty.text
      "new(" ++ head ++ argsText args ++ ")." ++ ty.text
  | getField object field fieldTy =>
      "getfield(" ++ object.text ++ ", " ++ field ++ "." ++ fieldTy.text ++ ")." ++ fieldTy.text
  | putField object field fieldTy value =>
      "putfield(" ++ object.text ++ ", " ++ field ++ "." ++ fieldTy.text ++ ", "
        ++ value.text ++ ").V"
  | goto label => "goto " ++ label
  | branch cond label => "if (" ++ cond.text ++ ") goto " ++ label
  | arrayLength e => "arraylength(" ++ e.text ++ ").i32"

end Instr

end StackBackend
