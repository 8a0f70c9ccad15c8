import StackBackend.Program.ClassUnit
import StackBackend.Lowering.Emission

/-!
# Lowering instructions

Each instruction becomes lines for the stack machine. Operands are loaded from the slots of the
variable table; a comparison with zero tests one operand alone; `&&` and `||` stop at the first
operand that decides; adding a small literal to a variable in place becomes one increment.
-/

namespace StackBackend

/-- An instruction of a method of a class. -/
structure Site where
  unit : ClassUnit
  method : Method
  instr : Instr

namespace Site

/-- Stops because the form named by `what` has no lowering. -/
def unmapped {α : Type} (site : Site) (what : String) : Emit α :=
  .fail (.unmapped what site.instr.text)

/-! ### Operands -/

/-- The slot of a variable. -/
def slot (site : Site) (name : String) : Emit Nat :=
  match site.method.vars[name]? with
  | some v => pure v.slot
  | none => .fail (.missingVariable name site.method.name site.instr.text)

/-- The number that a literal of the type stands for; a boolean may be written as a word. -/
def literalValue? (value : String) (ty : Ty) : Option Int :=
  if ty = .bool ∧ value = "true" then some 1
  else if ty = .bool ∧ value = "false" then some 0
  else Text.integer? 32 value

/-- Pushes a literal. -/
def loadLiteral (site : Site) (value : String) (ty : Ty) : Emit Unit :=
  if ty = .string then .inst (.loadConst ("\"" ++ value ++ "\""))
  else
    match literalValue? value ty with
    | some v => .inst (.push v)
    | none => .fail (.invalidLiteral value site.instr.text)

/-- Pushes an operand. -/
def load (site : Site) : Operand → Emit Unit
  | .literal value ty => site.loadLiteral value ty
  | .var name ty => do
      .inst (.load (.ofTy ty) (← site.slot name))
  | .item name index ty => do
      .inst (.load .ref (← site.slot name))
      site.load index
      .inst (.arrayLoad (.ofTy ty))

/-- Pushes operands in order. -/
def loadAll (site : Site) : List Operand → Emit Unit
  | [] => pure ()
  | e :: es => do
      site.load e
      site.loadAll es

/-! ### Operators -/

/-- Jumps to `label` if `lhs op rhs` holds. -/
def jumpIfCompare (site : Site) (op : BinaryOp) (lhs rhs : Operand) (label : String) :
    Emit Unit := do
  match Cond.ofOp? op with
  | none => site.unmapped op.symbol
  | some cond =>
      if rhs.isZero then
        site.load lhs
        .inst (.jumpIf cond label)
      else if lhs.isZero then
        site.load rhs
        .inst (.jumpIf cond.swap label)
      else
        site.load lhs
        site.load rhs
        .inst (.jumpIfCompare cond label)

/-- Pushes `here`, or `there` for control that comes by the label `target`. -/
def choose (here there : Int) (target stop : String) : Emit Unit := do
  .inst (.push here)
  .inst (.goto stop)
  .label target
  .inst (.push there)
  .label stop

/-- Pushes both operands and applies an arithmetic instruction. -/
def arithmetic (site : Site) (i : Inst) (lhs rhs : Operand) : Emit Unit := do
  site.load lhs
  site.load rhs
  .inst i

/-- Jumps to `label` if one of the operands passes the test against zero. -/
def jumpIfEither (site : Site) (cond : Cond) (lhs rhs : Operand) (label : String) :
    Emit Unit := do
  site.load lhs
  .inst (.jumpIf cond label)
  site.load rhs
  .inst (.jumpIf cond label)

/-- Pushes the value of a binary operation. -/
def binary (site : Site) (op : BinaryOp) (lhs rhs : Operand) : Emit Unit :=
  match op with
  | .add => site.arithmetic .add lhs rhs
  | .sub => site.arithmetic .sub lhs rhs
  | .mul => site.arithmetic .mul lhs rhs
  | .div => site.arithmetic .div lhs rhs
  | .and => do
      let (target, stop) ← Emit.freshPair "j_false" "j_end"
      site.jumpIfEither .eq lhs rhs target
      choose 1 0 target stop
  | .or => do
      let (target, stop) ← Emit.freshPair "j_true" "j_end"
      site.jumpIfEither .ne lhs rhs target
      choose 0 1 target stop
  | .lt | .gt | .le | .ge | .eq | .ne => do
      let (target, stop) ← Emit.freshPair "j_true" "j_end"
      site.jumpIfCompare op lhs rhs target
      choose 0 1 target stop

/-- Pushes the value of a unary operation. -/
def unary (site : Site) (op : UnaryOp) (e : Operand) : Emit Unit := do
  site.load e
  match op with
  | .not =>
      .inst (.push 1)
      .inst .xor
  | .neg => .inst .neg

/-! ### Calls and objects -/

/-- The class a call is made on. The receiver of a call that is not static is pushed; a call of
the constructor on `this` goes to the class above. -/
def owner (site : Site) (kind : CallKind) (receiver : Operand) (method : String) :
    Emit String :=
  match kind, receiver with
  | .static, .var name _ =>
      pure (if name = "this" then site.unit.name else site.unit.resolve name)
  | .static, _ => site.unmapped "static call on a non-class receiver"
  | _, _ => do
      site.load receiver
      if kind = .special ∧ receiver.name? = some "this" ∧ method = "<init>" then
        return site.unit.superPath
      else
        return site.unit.classPath receiver.ty

/-- A call; gives whether it leaves a value. -/
def call (site : Site) (kind : CallKind) (receiver : Operand) (method : String)
    (args : List Operand) (result : Ty) : Emit Bool := do
  let owner ← site.owner kind receiver method
  site.loadAll args
  let target := owner ++ "/" ++ method ++ "(" ++ site.unit.descriptors (args.map Operand.ty)
    ++ ")" ++ site.unit.descriptor result
  let pops := args.length + if kind = .static then 0 else 1
  let pushes := if result.isVoid then 0 else 1
  .inst (.invoke kind target pops pushes)
  return !result.isVoid

/-- A new array of one given length, or a new object without arguments. -/
def new (site : Site) (ty : Ty) (args : List Operand) : Emit Unit :=
  match ty, args with
  | .array elem, [length] => do
      site.load length
      match elem with
      | .int => .inst (.newArray "int")
      | .bool => .inst (.newArray "boolean")
      | _ => .inst (.newRefArray (site.unit.classPath elem))
  | .array _, _ => site.unmapped "array allocation without a single length"
  | _, [] => .inst (.new (site.unit.classPath ty))
  | _, _ => site.unmapped "object allocation with arguments"

/-- The name by which the machine knows a field of an object. -/
def fieldTarget (site : Site) (object : Operand) (field : String) : String :=
  site.unit.classPath object.ty ++ "/" ++ field

/-! ### Instructions -/

/-- An expression; gives whether it leaves a value. -/
def expr (site : Site) (i : Instr) : Emit Bool :=
  match i with
  | .single e => do
      site.load e
      return true
  | .binary op lhs rhs _ => do
      site.binary op lhs rhs
      return true
  | .unary op e _ => do
      site.unary op e
      return true
  | .call kind receiver method args result => site.call kind receiver method args result
  | .new ty args => do
      site.new ty args
      return true
  | .getField object field fieldTy => do
      site.load object
      .inst (.getField (site.fieldTarget object field) (site.unit.descriptor fieldTy))
      return true
  | .arrayLength e => do
      site.load e
      .inst .arrayLength
      return true
  | .assign .. | .ret .. | .putField .. | .goto .. | .branch .. => site.unmapped i.kindName

/-- An expression that has to leave a value. -/
def value (site : Site) (i : Instr) : Emit Unit := do
  unless ← site.expr i do
    site.unmapped "void value"

/-- The literal that is added to the variable `name`, on either side. -/
def addend? (name : String) : Instr → Option String
  | .binary .add (.var x _) (.literal value .int) _
  | .binary .add (.literal value .int) (.var x _) _ => if x = name then some value else none
  | _ => none

/-- The variable and the amount if an assignment adds to an integer variable in place an amount
that fits an increment. -/
def increment? (dest : Operand) (rhs : Instr) : Option (String × Int) :=
  match dest with
  | .var name .int =>
      (((addend? name rhs).bind (Text.integer? 32)).filter fun v =>
        v ≠ 0 ∧ -128 ≤ v ∧ v ≤ 127).map fun v => (name, v)
  | _ => none

/-- An assignment that is not an increment in place. -/
def store (site : Site) (dest : Operand) (rhs : Instr) : Emit Unit :=
  match dest with
  | .var name ty => do
      site.value rhs
      .inst (.store (.ofTy ty) (← site.slot name))
  | .item name index ty => do
      .inst (.load .ref (← site.slot name))
      site.load index
      site.value rhs
      .inst (.arrayStore (.ofTy ty))
  | .literal .. => site.unmapped "assignment to a literal"

/-- An assignment. -/
def assign (site : Site) (dest : Operand) (rhs : Instr) : Emit Unit :=
  match increment? dest rhs with
  | some (name, v) => do
      .inst (.inc (← site.slot name) v)
  | none => site.store dest rhs

/-- A jump to `label` if a condition holds. -/
def branch (site : Site) (cond : Condition) (label : String) : Emit Unit :=
  match cond with
  | .compare .and lhs rhs => do
      let skip ← Emit.fresh "j_skip"
      site.load lhs
      .inst (.jumpIf .eq skip)
      site.load rhs
      .inst (.jumpIf .ne label)
      .label skip
  | .compare .or lhs rhs => site.jumpIfEither .ne lhs rhs label
  | .compare op lhs rhs => site.jumpIfCompare op lhs rhs label
  | .not e => do
      site.load e
      .inst (.jumpIf .eq label)
  | .test e => do
      site.load e
      .inst (.jumpIf .ne label)

/-- A return. -/
def ret (site : Site) (ty : Ty) (value : Option Operand) : Emit Unit :=
  match value with
  | some e => do
      site.load e
      .inst (.ret (some (.ofTy ty)))
  | none => if ty.isVoid then .inst (.ret none) else site.unmapped "return without a value"

/-- The lines of an instruction. A value that an expression leaves is dropped. -/
def lower (site : Site) : Emit Unit :=
  match site.instr with
  | .assign dest _ rhs => site.assign dest rhs
  | .ret ty value => site.ret ty value
  | .goto label => .inst (.goto label)
  | .branch cond label => site.branch cond label
  | .putField object field fieldTy value => do
      site.load object
      site.load value
      .inst (.putField (site.fieldTarget object field) (site.unit.descriptor fieldTy))
  | i => do
      if ← site.expr i then
        .inst .pop

end Site

end StackBackend
