import StackBackend.Source.Cursor
import StackBackend.Source.Tree

/-!
# The grammar

One reader for each form of the language, from types up to whole classes. Forms that begin alike
share the reader of their common beginning: an identifier may begin a label, a variable or an
array element, and an operand may be assigned to, begin a binary operation, or stand alone.
-/

namespace StackBackend.Reader

/-! ### Types -/

/-- `array . array . … name`. -/
def ty (role : TypeRole) : Reader Ty := do
  let dims ← many (· = .fixed .wArray) (do fixed .wArray; fixed .dot)
  let name ← ident
  endType role
  return dims.foldr (fun _ t => Ty.array t) (Ty.ofName name)

/-- `. type`. -/
def tySuffix (role : TypeRole) : Reader Ty := do
  fixed .dot
  ty role

/-! ### Operands -/

/-- A variable of that name; `true` and `false` are the literals one and zero. -/
def namedOperand (name : String) (ty : Ty) : Operand :=
  if name = "true" then .literal "1" ty
  else if name = "false" then .literal "0" ty
  else .var name ty

/-- Whether a token begins an operand. -/
def beginsOperand : Token → Bool
  | .ident _ | .int _ => true
  | _ => false

mutual

/-- What follows the name of a variable: its type, or an index and the type of the element. -/
def operandAfterUpTo (name : String) : Nat → Reader Operand
  | 0 => stuck
  | fuel + 1 => do
      if ← nextIs .lbracket then
        fixed .lbracket
        let index ← operandUpTo fuel
        fixed .rbracket
        return .item name index (← tySuffix .operand)
      else
        return namedOperand name (← tySuffix .operand)

/-- An operand nested at most `fuel` deep. -/
def operandUpTo : Nat → Reader Operand
  | 0 => stuck
  | fuel + 1 => do
      match ← peek with
      | some (.int digits) =>
          let _ ← accept some
          return .literal digits (← tySuffix .operand)
      | _ =>
          let name ← ident
          operandAfterUpTo name fuel

end

/-- A bound for the nesting of an operand: an index takes a name and a bracket. -/
def depth (c : Cursor) : Nat := c.rest.length + 1

/-- An operand. -/
def operand : Reader Operand := fun c => operandUpTo (depth c) c

/-- The rest of an operand after the name of its variable. -/
def operandAfter (name : String) : Reader Operand := fun c => operandAfterUpTo name (depth c) c

/-- An operand, or a bare name: a class that is called on. -/
def receiver : Reader Operand := do
  match ← peek with
  | some (.ident _) =>
      let name ← ident
      if (← nextIs .dot) || (← nextIs .lbracket) then operandAfter name
      else return .var name (.object name)
  | _ => operand

/-- The name of a field and its type. -/
def fieldRef : Reader (String × Ty) := do
  let name ← ident
  return (name, ← tySuffix .fieldAccess)

/-- `, operand , operand …`. -/
def args : Reader (List Operand) :=
  many (· = .fixed .comma) (do fixed .comma; operand)

/-! ### Expressions -/

/-- The binary operator of a token. -/
def binaryOp? : Token → Option BinaryOp
  | .fixed .plus => some .add
  | .fixed .minus => some .sub
  | .fixed .star => some .mul
  | .fixed .slash => some .div
  | .fixed .less => some .lt
  | .fixed .greater => some .gt
  | .fixed .lessEqual => some .le
  | .fixed .greaterEqual => some .ge
  | .fixed .equalEqual => some .eq
  | .fixed .notEqual => some .ne
  | .fixed .andAnd => some .and
  | .fixed .orOr => some .or
  | _ => none

/-- The unary operator of a token. -/
def unaryOp? : Token → Option UnaryOp
  | .fixed .bang => some .not
  | .fixed .minus => some .neg
  | _ => none

/-- The call kind of a token. -/
def callKind? : Token → Option CallKind
  | .fixed .wInvokeStatic => some .static
  | .fixed .wInvokeVirtual => some .virtual
  | .fixed .wInvokeSpecial => some .special
  | _ => none

/-- The rest of an expression that begins with the operand `lhs`. -/
def exprAfter (lhs : Operand) : Reader Instr := do
  if ((← peek).bind binaryOp?).isSome then
    let op ← accept binaryOp?
    let ty ← tySuffix .other
    return .binary op lhs (← operand) ty
  else
    return .single lhs

/-- `kind ( receiver , "method" args ) . type`. -/
def call : Reader Instr := do
  let kind ← accept callKind?
  fixed .lparen
  let object ← receiver
  fixed .comma
  let method ← str
  let args ← args
  fixed .rparen
  return .call kind object method args (← tySuffix .other)

/-- `new ( array args ) . type` or `new ( name args ) . type`; the type after the brackets is
the one that counts. -/
def new : Reader Instr := do
  fixed .wNew
  fixed .lparen
  accept fun
    | .fixed .wArray | .ident _ => some ()
    | _ => none
  let args ← args
  fixed .rparen
  return .new (← tySuffix .other) args

/-- `getfield ( receiver , field ) . type`. -/
def getField : Reader Instr := do
  fixed .wGetField
  fixed .lparen
  let object ← receiver
  fixed .comma
  let (field, fieldTy) ← fieldRef
  fixed .rparen
  let _ ← tySuffix .other
  return .getField object field fieldTy

/-- `putfield ( receiver , field , operand ) . type`. -/
def putField : Reader Instr := do
  fixed .wPutField
  fixed .lparen
  let object ← receiver
  fixed .comma
  let (field, fieldTy) ← fieldRef
  fixed .comma
  let value ← operand
  fixed .rparen
  let _ ← tySuffix .other
  return .putField object field fieldTy value

/-- `arraylength ( operand ) . type`. -/
def arrayLength : Reader Instr := do
  fixed .wArrayLength
  fixed .lparen
  let e ← operand
  fixed .rparen
  let _ ← tySuffix .other
  return .arrayLength e

/-- `op . type operand`. -/
def unary : Reader Instr := do
  let op ← accept unaryOp?
  let ty ← tySuffix .other
  return .unary op (← operand) ty

/-- An expression. -/
def expr : Reader Instr := do
  match ← peek with
  | some (.fixed .wInvokeStatic) | some (.fixed .wInvokeVirtual)
  | some (.fixed .wInvokeSpecial) => call
  | some (.fixed .wNew) => new
  | some (.fixed .wGetField) => getField
  | some (.fixed .wArrayLength) => arrayLength
  | some (.fixed .bang) | some (.fixed .minus) => unary
  | _ => exprAfter (← operand)

/-! ### Statements -/

/-- A condition: a negated operand, a comparison or an operand. -/
def condition : Reader Condition := do
  if ← nextIs .bang then
    fixed .bang
    let _ ← tySuffix .other
    return .not (← operand)
  else
    let lhs ← operand
    if ((← peek).bind binaryOp?).isSome then
      let op ← accept binaryOp?
      let _ ← tySuffix .other
      return .compare op lhs (← operand)
    else
      return .test lhs

/-- `goto label`. -/
def goto : Reader Instr := do
  fixed .wGoto
  return .goto (← ident)

/-- `if ( condition ) goto label`. -/
def branch : Reader Instr := do
  fixed .wIf
  fixed .lparen
  let cond ← condition
  fixed .rparen
  fixed .wGoto
  return .branch cond (← ident)

/-- `ret . type`, perhaps with an operand. -/
def ret : Reader Instr := do
  fixed .wRet
  let ty ← tySuffix .other
  if (← peek).any beginsOperand then
    return .ret ty (some (← operand))
  else
    return .ret ty none

/-- The rest of a statement that begins with the operand `e`. -/
def statementAfter (e : Operand) : Reader Instr := do
  if ← nextIs .becomes then
    fixed .becomes
    let ty ← tySuffix .other
    return .assign e ty (← expr)
  else
    exprAfter e

/-- A statement that does not begin with an identifier. -/
def statement : Reader Instr := do
  match ← peek with
  | some (.fixed .wGoto) => goto
  | some (.fixed .wIf) => branch
  | some (.fixed .wRet) => ret
  | some (.fixed .wPutField) => putField
  | some (.int _) => statementAfter (← operand)
  | _ => expr

/-! ### Bodies -/

/-- The end of a statement that began at byte `start`: the semicolon is not part of it. -/
def endStatement (start : Nat) (i : Instr) : Reader (Located BodyItem) := do
  let stop ← offset
  fixed .semicolon
  return ⟨.instr i, ⟨start, stop⟩⟩

/-- A label or a statement. -/
def bodyItem : Reader (Located BodyItem) := do
  let start ← start
  match ← peek with
  | some (.ident _) =>
      let name ← ident
      if ← nextIs .colon then
        let stop ← offset
        fixed .colon
        return ⟨.label name, ⟨start, stop⟩⟩
      else
        endStatement start (← statementAfter (← operandAfter name))
  | _ => endStatement start (← statement)

/-- A body between braces. -/
def body : Reader (List (Located BodyItem)) := do
  fixed .lbrace
  let items ← many (· ≠ .fixed .rbrace) bodyItem
  fixed .rbrace
  return items

/-! ### Members and classes -/

/-- The modifier of a token. -/
def modifier? : Token → Option Modifier
  | .fixed .wPublic => some (.access .everyone)
  | .fixed .wPrivate => some (.access .owner)
  | .fixed .wProtected => some (.access .family)
  | .fixed .wStatic => some .static
  | .fixed .wFinal => some .final
  | _ => none

/-- Any number of modifiers. -/
def modifiers : Reader (List Modifier) :=
  many (fun t => (modifier? t).isSome) (accept modifier?)

/-- A parameter. -/
def param : Reader Param := do
  let name ← ident
  return ⟨name, ← tySuffix .other⟩

/-- Parameters between brackets. -/
def params : Reader (List Param) := do
  fixed .lparen
  let ps ← listed (fun | .ident _ => true | _ => false) param
  fixed .rparen
  return ps

/-- The rest of a field after its first word. -/
def field : Reader Member := do
  let ms ← modifiers
  let name ← ident
  let ty ← tySuffix .other
  fixed .semicolon
  return .field (Modifier.field ms name ty)

/-- The rest of a method after its first word. -/
def method : Reader Member := do
  let ms ← modifiers
  let name ← ident
  let ps ← params
  let ret ← tySuffix .other
  return .method (Modifier.method ms name ps ret (← body))

/-- The rest of a constructor after its first word; the name it repeats is not kept. -/
def constructor : Reader Member := do
  let ms ← modifiers
  let _ ← ident
  let ps ← params
  let ret ← tySuffix .other
  return .method (Modifier.constructor ms ps ret (← body))

/-- A member of a class. -/
def member : Reader Member := do
  fixed .dot
  match ← peek with
  | some (.fixed .wField) => fixed .wField; field
  | some (.fixed .wMethod) => fixed .wMethod; method
  | _ => fixed .wConstruct; constructor

/-- `import name . name … ;`. -/
def importPath : Reader String := do
  fixed .wImport
  let head ← ident
  let tail ← many (· = .fixed .dot) (do fixed .dot; ident)
  fixed .semicolon
  return ".".intercalate (head :: tail)

/-- A class with its imports. -/
def unit : Reader UnitDecl := do
  let imports ← many (· = .fixed .wImport) importPath
  let name ← ident
  let superName ← (do
    if ← nextIs .wExtends then
      fixed .wExtends
      return some (← ident)
    else
      return none)
  fixed .lbrace
  let members ← many (· = .fixed .dot) member
  fixed .rbrace
  return { imports, name, superName, members }

end StackBackend.Reader
