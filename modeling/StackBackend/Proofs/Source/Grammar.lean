import StackBackend.Source.Token
import StackBackend.Source.Tree

/-!
# The grammar of classes

A form of the language is a set of rows of tokens, each with what it stands for. Forms follow each
other, are alternatives of each other and are repeated, and nothing is said of how a row is taken
apart: a production is a sequence of forms with the value it gives, and a form with several
productions is their union. `Form.unit` is the form of whole classes. Where a value depends on which
word is written (the name of a type, `true` and `false`, the modifiers of a member) a relation or a
table of its own says so.
-/

namespace StackBackend

/-- A form of the language: the rows of tokens that write it, each with the value it stands for. -/
def Form (α : Type) : Type := List (Located Token) → α → Prop

namespace Form

variable {α β : Type}

/-- The empty row stands for a value; a row for `G >>= H` is one for `G` and then one for `H`. -/
instance : Monad Form where
  pure a := fun ts b => ts = [] ∧ b = a
  bind G H := fun ts b => ∃ us vs a, ts = us ++ vs ∧ G us a ∧ H a vs b

/-- A row of either form. -/
instance : Union (Form α) where
  union G H := fun ts a => G ts a ∨ H ts a

/-- A single token that carries the value. -/
def terminal (token : α → Token) : Form α := fun ts a => ts.map Located.value = [token a]

/-- A fixed word or mark. -/
def word (f : Fixed) : Form Unit := terminal fun _ => .fixed f

/-- An identifier. -/
def ident : Form String := terminal .ident

/-- An integer. -/
def int : Form String := terminal .int

/-- A quoted string. -/
def str : Form String := terminal .str

/-- One of the words or marks of a table, for the value beside it. -/
def oneOf (table : List (Fixed × α)) : Form α := fun ts a => ∃ f, (f, a) ∈ table ∧ word f ts ()

/-- Any number of rows of a form, one after the other. -/
inductive Many (G : Form α) : Form (List α)
  | nil : Many G [] []
  | cons {ts us : List (Located Token)} {a : α} {as : List α} (first : G ts a)
      (rest : Many G us as) : Many G (ts ++ us) (a :: as)

/-- A row of a form or nothing. -/
def opt (G : Form α) : Form (Option α) := (do return some (← G)) ∪ pure none

/-- Rows of a form with a comma after each, the last one perhaps without. -/
def listed (G : Form α) : Form (List α) := do
  let as ← Many (do
    let a ← G
    word .comma
    return a)
  let last ← opt G
  return as ++ last.toList

/-- The place of a row: from the start of its first token to the end of its last one. -/
def extent (ts : List (Located Token)) : Span :=
  ⟨(ts.head?.map (·.span.start)).getD 0, (ts.getLast?.map (·.span.stop)).getD 0⟩

/-- A row of a form with its place. -/
def placed (G : Form α) : Form (Located α) := fun ts a => G ts a.value ∧ a.span = extent ts

/-! ### Types -/

/-- The type that a single name stands for. -/
inductive NamesTy : String → Ty → Prop
  | int : NamesTy "i32" .int
  | bool : NamesTy "bool" .bool
  | string : NamesTy "String" .string
  | void : NamesTy "V" .void
  | object {x : String} (free : x ∉ ["i32", "bool", "String", "V"]) : NamesTy x (.object x)

/-- `array . type` or a name. -/
inductive WritesTy : Form Ty
  | array {a d : Located Token} {ts : List (Located Token)} {elem : Ty}
      (word : a.value = .fixed .wArray) (dot : d.value = .fixed .dot) (rest : WritesTy ts elem) :
      WritesTy (a :: d :: ts) (.array elem)
  | name {t : Located Token} {x : String} {ty : Ty} (word : t.value = .ident x)
      (names : NamesTy x ty) : WritesTy [t] ty

/-- A type. -/
def ty : Form Ty := WritesTy

/-- `. type`. -/
def tySuffix : Form Ty := do
  word .dot
  ty

/-! ### Operands -/

/-- The operand that a name with a type stands for: `true` and `false` are literals. -/
inductive NamesOperand (ty : Ty) : String → Operand → Prop
  | true : NamesOperand ty "true" (.literal "1" ty)
  | false : NamesOperand ty "false" (.literal "0" ty)
  | var {x : String} (h : x ≠ "true") (h' : x ≠ "false") : NamesOperand ty x (.var x ty)

/-- `integer . type`, `name . type` or `name [ operand ] . type`. -/
inductive WritesOperand : Form Operand
  | literal {t : Located Token} {ts : List (Located Token)} {digits : String} {ty : Ty}
      (word : t.value = .int digits) (suffix : tySuffix ts ty) :
      WritesOperand (t :: ts) (.literal digits ty)
  | named {t : Located Token} {ts : List (Located Token)} {x : String} {ty : Ty} {e : Operand}
      (word : t.value = .ident x) (suffix : tySuffix ts ty) (names : NamesOperand ty x e) :
      WritesOperand (t :: ts) e
  | item {t l r : Located Token} {us ts : List (Located Token)} {x : String} {index : Operand} {ty : Ty}
      (word : t.value = .ident x) (left : l.value = .fixed .lbracket) (inner : WritesOperand us index)
      (right : r.value = .fixed .rbracket) (suffix : tySuffix ts ty) :
      WritesOperand (t :: l :: (us ++ r :: ts)) (.item x index ty)

/-- An operand. -/
def operand : Form Operand := WritesOperand

/-- An operand, or a bare name: a variable of the class of that name. -/
def receiver : Form Operand :=
  operand ∪ do
    let x ← ident
    return .var x (.object x)

/-- The name of a field and its type. -/
def fieldRef : Form (String × Ty) := do
  let x ← ident
  let ty ← tySuffix
  return (x, ty)

/-- `, operand , operand …`. -/
def args : Form (List Operand) := Many do
  word .comma
  operand

/-! ### Operators -/

/-- A binary operator. -/
def binaryOp : Form BinaryOp :=
  oneOf [(.plus, .add), (.minus, .sub), (.star, .mul), (.slash, .div), (.less, .lt), (.greater, .gt),
    (.lessEqual, .le), (.greaterEqual, .ge), (.equalEqual, .eq), (.notEqual, .ne), (.andAnd, .and),
    (.orOr, .or)]

/-- A unary operator. -/
def unaryOp : Form UnaryOp := oneOf [(.bang, .not), (.minus, .neg)]

/-- The word of a call. -/
def callKind : Form CallKind :=
  oneOf [(.wInvokeStatic, .static), (.wInvokeVirtual, .virtual), (.wInvokeSpecial, .special)]

/-! ### Expressions and statements -/

/-- `kind ( receiver , "method" args ) . type`. -/
def call : Form Instr := do
  let kind ← callKind
  word .lparen
  let object ← receiver
  word .comma
  let method ← str
  let args ← args
  word .rparen
  let result ← tySuffix
  return .call kind object method args result

/-- `new ( array args ) . type`. -/
def newArray : Form Instr := do
  word .wNew
  word .lparen
  word .wArray
  let args ← args
  word .rparen
  let ty ← tySuffix
  return .new ty args

/-- `new ( name args ) . type`; the name is not kept. -/
def newObject : Form Instr := do
  word .wNew
  word .lparen
  let _ ← ident
  let args ← args
  word .rparen
  let ty ← tySuffix
  return .new ty args

/-- `getfield ( receiver , field ) . type`. -/
def getField : Form Instr := do
  word .wGetField
  word .lparen
  let object ← receiver
  word .comma
  let field ← fieldRef
  word .rparen
  let _ ← tySuffix
  return .getField object field.1 field.2

/-- `arraylength ( operand ) . type`. -/
def arrayLength : Form Instr := do
  word .wArrayLength
  word .lparen
  let e ← operand
  word .rparen
  let _ ← tySuffix
  return .arrayLength e

/-- `op . type operand`. -/
def unary : Form Instr := do
  let op ← unaryOp
  let ty ← tySuffix
  let e ← operand
  return .unary op e ty

/-- `operand op . type operand`. -/
def binary : Form Instr := do
  let lhs ← operand
  let op ← binaryOp
  let ty ← tySuffix
  let rhs ← operand
  return .binary op lhs rhs ty

/-- An operand alone. -/
def single : Form Instr := do
  let e ← operand
  return .single e

/-- An expression. -/
def expr : Form Instr :=
  call ∪ newArray ∪ newObject ∪ getField ∪ arrayLength ∪ unary ∪ binary ∪ single

/-- `! . type operand`. -/
def negation : Form Condition := do
  word .bang
  let _ ← tySuffix
  let e ← operand
  return .not e

/-- `operand op . type operand`. -/
def comparison : Form Condition := do
  let lhs ← operand
  let op ← binaryOp
  let _ ← tySuffix
  let rhs ← operand
  return .compare op lhs rhs

/-- An operand alone. -/
def test : Form Condition := do
  let e ← operand
  return .test e

/-- A condition. -/
def condition : Form Condition := negation ∪ comparison ∪ test

/-- `operand := . type expression`. -/
def assign : Form Instr := do
  let dest ← operand
  word .becomes
  let ty ← tySuffix
  let rhs ← expr
  return .assign dest ty rhs

/-- `goto label`. -/
def goto : Form Instr := do
  word .wGoto
  let label ← ident
  return .goto label

/-- `if ( condition ) goto label`. -/
def branch : Form Instr := do
  word .wIf
  word .lparen
  let cond ← condition
  word .rparen
  word .wGoto
  let label ← ident
  return .branch cond label

/-- `ret . type`, perhaps with an operand. -/
def ret : Form Instr := do
  word .wRet
  let ty ← tySuffix
  let value ← opt operand
  return .ret ty value

/-- `putfield ( receiver , field , operand ) . type`. -/
def putField : Form Instr := do
  word .wPutField
  word .lparen
  let object ← receiver
  word .comma
  let field ← fieldRef
  word .comma
  let value ← operand
  word .rparen
  let _ ← tySuffix
  return .putField object field.1 field.2 value

/-- A statement. -/
def statement : Form Instr := assign ∪ goto ∪ branch ∪ ret ∪ putField ∪ expr

/-! ### Bodies -/

/-- `name :`, with the place of the name. -/
def label : Form (Located BodyItem) := do
  let x ← placed ident
  word .colon
  return ⟨.label x.value, x.span⟩

/-- `statement ;`, with the place of the statement. -/
def step : Form (Located BodyItem) := do
  let i ← placed statement
  word .semicolon
  return ⟨.instr i.value, i.span⟩

/-- A label or a statement. -/
def item : Form (Located BodyItem) := label ∪ step

/-- A body between braces. -/
def body : Form (List (Located BodyItem)) := do
  word .lbrace
  let items ← Many item
  word .rbrace
  return items

/-! ### Members and classes -/

/-- A modifier. -/
def modifier : Form Modifier :=
  oneOf [(.wPublic, .access .everyone), (.wPrivate, .access .owner), (.wProtected, .access .family),
    (.wStatic, .static), (.wFinal, .final)]

/-- The last access that modifiers name, or `default`. -/
def lastAccess (default : Access) (ms : List Modifier) : Access :=
  (ms.filterMap fun
    | .access a => some a
    | _ => none).getLastD default

/-- A parameter. -/
def param : Form Param := do
  let x ← ident
  let ty ← tySuffix
  return ⟨x, ty⟩

/-- Parameters between brackets. -/
def params : Form (List Param) := do
  word .lparen
  let ps ← listed param
  word .rparen
  return ps

/-- `. field modifiers name . type ;`. -/
def field : Form Member := do
  word .dot
  word .wField
  let ms ← Many modifier
  let x ← ident
  let ty ← tySuffix
  word .semicolon
  return .field ⟨x, ty, lastAccess .package ms, .static ∈ ms, .final ∈ ms⟩

/-- `. method modifiers name params . type body`. -/
def method : Form Member := do
  word .dot
  word .wMethod
  let ms ← Many modifier
  let x ← ident
  let ps ← params
  let ret ← tySuffix
  let items ← body
  return .method ⟨x, lastAccess .package ms, .static ∈ ms, false, ps, ret, items⟩

/-- `. construct modifiers name params . type body`; the name is not kept. -/
def constructor : Form Member := do
  word .dot
  word .wConstruct
  let ms ← Many modifier
  let _ ← ident
  let ps ← params
  let ret ← tySuffix
  let items ← body
  return .method ⟨"<init>", lastAccess .everyone ms, .static ∈ ms, true, ps, ret, items⟩

/-- A member of a class. -/
def member : Form Member := field ∪ method ∪ constructor

/-- `import name . name … ;`. -/
def importPath : Form String := do
  word .wImport
  let head ← ident
  let tail ← Many do
    word .dot
    ident
  word .semicolon
  return ".".intercalate (head :: tail)

/-- A class with its imports. -/
def unit : Form UnitDecl := do
  let imports ← Many importPath
  let name ← ident
  let superName ← opt do
    word .wExtends
    ident
  word .lbrace
  let members ← Many member
  word .rbrace
  return { imports, name, superName, members }

end Form

end StackBackend
