import StackBackend.Program.ClassUnit
import StackBackend.Proofs.Execution.Control
import StackBackend.Proofs.Text.Integer

/-!
# The meaning of programs

The instructions of a method are run one by one. A variable is held in the cell at its address. With
the names themselves as addresses each variable has a cell of its own; with slots as addresses
variables of one slot share a cell. Operands are evaluated from left to right, and the right side of
an assignment to an array element after the array and the index. The operators `&&` and `||`
evaluate their right operand only when the left one does not decide.

Numbers are signed words of 32 bits: a literal is a decimal numeral, relational operators compare words as
the integers they stand for, and a word is true when it is not zero.
-/

namespace StackBackend

variable {D : Domain} {α : Type}

/-- The number that a literal of the type stands for: a truth value or a decimal numeral. -/
def literalNumber? (value : String) : Ty → Option Int
  | .bool =>
      if value = "true" then some 1
      else if value = "false" then some 0
      else Text.word? value
  | _ => Text.word? value

/-- The value of a literal of the type. -/
def literalConstant (D : Domain) (value : String) (ty : Ty) : Except Fault D.Value :=
  if ty = .string then .ok (D.text value)
  else
    match literalNumber? value ty with
    | some v => .ok (D.int v)
    | none => .error (.constant value)

/-- The content of the cell of a variable. -/
def fetch (address : String → Option α) (cells : α → D.Value) (x : String) :
    Except Fault D.Value :=
  match address x with
  | some a => .ok (cells a)
  | none => .error (.variable x)

/-- The value of a variable of a kind. -/
def fetchAs (read : String → Except Fault D.Value) (kind : Kind) (x : String) : Eff D D.Value := do
  let v ← Eff.ofExcept (read x)
  Eff.ofExcept (D.check kind v)
  return v

/-- The value of an operand, where `read` gives the values of variables. -/
def Operand.eval (read : String → Except Fault D.Value) : Operand → Eff D D.Value
  | .literal value ty => Eff.ofExcept (literalConstant D value ty)
  | .var x ty => fetchAs read (.ofTy ty) x
  | .item x index ty => do
      let array ← fetchAs read .ref x
      let i ← index.eval read
      Eff.act (.arrayLoad (.ofTy ty)) [array, i]

/-- The values of operands, from left to right. -/
def Operand.evalAll (read : String → Except Fault D.Value) :
    List Operand → Eff D (List D.Value)
  | [] => pure []
  | e :: es => do
      let v ← e.eval read
      let vs ← evalAll read es
      return v :: vs

/-- There are as many values as operands. -/
theorem Operand.length_evalAll {read : String → Except Fault D.Value} {es : List Operand}
    {vs : List D.Value} (h : (evalAll read es).Gives vs) :
  vs.length = es.length
  := by
  induction es generalizing vs with
  | nil => rw [h.of_pure]; rfl
  | cons e es ih =>
      obtain ⟨v, -, h⟩ := h.of_bind
      obtain ⟨ws, hw, h⟩ := h.of_bind
      rw [h.of_pure, List.length_cons, List.length_cons, ih hw]

/-- A decision as an integer. -/
def Domain.ofBool (D : Domain) (b : Bool) : D.Value := D.int (if b then 1 else 0)

/-- The relation between words that a relational operator stands for; words are signed. -/
def BinaryOp.relation? : BinaryOp → Option (Int32 → Int32 → Bool)
  | lt => some fun x y => x.toInt < y.toInt
  | gt => some fun x y => x.toInt > y.toInt
  | le => some fun x y => x.toInt ≤ y.toInt
  | ge => some fun x y => x.toInt ≥ y.toInt
  | eq => some fun x y => x.toInt = y.toInt
  | ne => some fun x y => x.toInt ≠ y.toInt
  | add | sub | mul | div | and | or => none

/-- A word that counts as true. -/
def isTrue (w : Int32) : Bool := w ≠ 0

/-- A word that counts as false. -/
def isFalse (w : Int32) : Bool := w = 0

section Expressions

variable (u : ClassUnit) (read : String → Except Fault D.Value)

/-- Whether `lhs op rhs` holds for a relational operator. -/
def evalCompare (op : BinaryOp) (lhs rhs : Operand) : Eff D Bool :=
  match op.relation? with
  | some r => do
      let v ← lhs.eval read
      let w ← rhs.eval read
      Eff.decide (D.compare r v w)
  | none => .fail .malformed

/-- Whether one of the operands has the property; the right one is evaluated only when the left one
does not. -/
def evalEither (p : Int32 → Bool) (lhs rhs : Operand) : Eff D Bool := do
  let v ← lhs.eval read
  if ← Eff.decide (D.test p v) then
    return true
  else
    let w ← rhs.eval read
    Eff.decide (D.test p w)

/-- Whether a condition holds. -/
def Condition.eval : Condition → Eff D Bool
  | .compare .and lhs rhs => do
      let v ← lhs.eval read
      if ← Eff.decide (D.test isFalse v) then
        return false
      else
        let w ← rhs.eval read
        Eff.decide (D.test isTrue w)
  | .compare .or lhs rhs => evalEither read isTrue lhs rhs
  | .compare op lhs rhs => evalCompare read op lhs rhs
  | .not e => do
      let v ← e.eval read
      Eff.decide (D.test isFalse v)
  | .test e => do
      let v ← e.eval read
      Eff.decide (D.test isTrue v)

/-- The value of an operation on two integers. -/
def evalArith (op : Arith) (lhs rhs : Operand) : Eff D D.Value := do
  let v ← lhs.eval read
  let w ← rhs.eval read
  Eff.ofExcept (D.arith op v w)

/-- The value of a binary operation. -/
def evalBinary (op : BinaryOp) (lhs rhs : Operand) : Eff D D.Value :=
  match op with
  | .add => evalArith read .add lhs rhs
  | .sub => evalArith read .sub lhs rhs
  | .mul => evalArith read .mul lhs rhs
  | .div => evalArith read .div lhs rhs
  | .and => do
      let failed ← evalEither read isFalse lhs rhs
      return D.ofBool (!failed)
  | .or => do
      let held ← evalEither read isTrue lhs rhs
      return D.ofBool held
  | .lt | .gt | .le | .ge | .eq | .ne => do
      let held ← evalCompare read op lhs rhs
      return D.ofBool held

/-- The value of a unary operation; the negation of a boolean changes its lowest bit. -/
def evalUnary (op : UnaryOp) (e : Operand) : Eff D D.Value := do
  let v ← e.eval read
  match op with
  | .not => Eff.ofExcept (D.arith .xor v (D.int 1))
  | .neg => Eff.ofExcept (D.neg v)

/-- The class a call is made on: a static call names it, the constructor called on `this` is that of
the class above, and any other call is made on the class of the receiver. -/
def callOwner? (kind : CallKind) (receiver : Operand) (method : String) : Option String :=
  match kind, receiver with
  | .static, .var name _ => some (if name = "this" then u.name else u.resolve name)
  | .static, _ => none
  | _, _ =>
      if kind = .special ∧ receiver.name? = some "this" ∧ method = "<init>" then some u.superPath
      else some (u.classPath receiver.ty)

/-- The method that a call on the class `owner` names. -/
def callTarget (owner method : String) (args : List Operand) (result : Ty) : String :=
  owner ++ "/" ++ method ++ "(" ++ u.descriptors (args.map Operand.ty) ++ ")"
    ++ u.descriptor result

/-- The operands that a call takes: the receiver, unless it is static, and the arguments. -/
def callOperands (kind : CallKind) (receiver : Operand) (args : List Operand) : List Operand :=
  if kind = .static then args else receiver :: args

/-- A call. -/
def evalCall (kind : CallKind) (receiver : Operand) (method : String) (args : List Operand)
    (result : Ty) : Eff D (Option D.Value) :=
  match callOwner? u kind receiver method with
  | some owner => do
      let vs ← Operand.evalAll read (callOperands kind receiver args)
      let v ← Eff.act (.invoke kind (callTarget u owner method args result)) vs
      return if result.isVoid then none else some v
  | none => .fail .malformed

/-- The action that makes a new array of such elements. -/
def arrayAction : Ty → Action
  | .int => .newArray "int"
  | .bool => .newArray "boolean"
  | elem => .newRefArray (u.classPath elem)

/-- A new array of one given length, or a new object without arguments. -/
def evalNew (ty : Ty) (args : List Operand) : Eff D D.Value :=
  match ty, args with
  | .array elem, [length] => do
      let n ← length.eval read
      Eff.act (arrayAction u elem) [n]
  | .array _, _ => .fail .malformed
  | _, [] => Eff.act (.new (u.classPath ty)) []
  | _, _ => .fail .malformed

/-- The name of a field of an object. -/
def fieldName (object : Operand) (field : String) : String :=
  u.classPath object.ty ++ "/" ++ field

/-- An expression, with its value if it has one. -/
def Instr.eval : Instr → Eff D (Option D.Value)
  | .single e => some <$> e.eval read
  | .binary op lhs rhs _ => some <$> evalBinary read op lhs rhs
  | .unary op e _ => some <$> evalUnary read op e
  | .call kind receiver method args result => evalCall u read kind receiver method args result
  | .new ty args => some <$> evalNew u read ty args
  | .getField object field fieldTy => do
      let o ← object.eval read
      some <$> Eff.act (.getField (fieldName u object field) (u.descriptor fieldTy)) [o]
  | .arrayLength e => do
      let array ← e.eval read
      some <$> Eff.act .arrayLength [array]
  | .assign .. | .ret .. | .putField .. | .goto .. | .branch .. => .fail .malformed

/-- The value of an expression that has to have one. -/
def Instr.evalValue (i : Instr) : Eff D D.Value := do
  match ← i.eval u read with
  | some v => return v
  | none => .fail .malformed

end Expressions

section Instructions

variable [DecidableEq α] (u : ClassUnit) (address : String → Option α)

/-- The cells after a value is written to a variable. -/
def writeVar (cells : α → D.Value) (x : String) (v : D.Value) : Except Fault (α → D.Value) :=
  match address x with
  | some a => .ok (Function.update cells a v)
  | none => .error (.variable x)

/-- An assignment. -/
def execAssign (dest : Operand) (rhs : Instr) (cells : α → D.Value) : Eff D (α → D.Value) :=
  match dest with
  | .var x ty => do
      let v ← rhs.evalValue u (fetch address cells)
      Eff.ofExcept (D.check (.ofTy ty) v)
      Eff.ofExcept (writeVar address cells x v)
  | .item x index ty => do
      let array ← fetchAs (fetch address cells) .ref x
      let i ← index.eval (fetch address cells)
      let v ← rhs.evalValue u (fetch address cells)
      let _ ← Eff.act (.arrayStore (.ofTy ty)) [array, i, v]
      return cells
  | .literal .. => .fail .malformed

/-- A return. -/
def execRet (ty : Ty) (value : Option Operand) (cells : α → D.Value) :
    Eff D (Next (α → D.Value) D.Value) :=
  match value with
  | some e => do
      let v ← e.eval (fetch address cells)
      Eff.ofExcept (D.check (.ofTy ty) v)
      return .ret (some v)
  | none => if ty.isVoid then pure (.ret none) else .fail .malformed

/-- What an instruction does. The value of an expression that stands alone is dropped. -/
def Instr.exec (i : Instr) (cells : α → D.Value) : Eff D (Next (α → D.Value) D.Value) :=
  match i with
  | .assign dest _ rhs => Next.on <$> execAssign u address dest rhs cells
  | .ret ty value => execRet address ty value cells
  | .goto label => pure (.jump label cells)
  | .branch cond label => do
      let taken ← cond.eval (fetch address cells)
      return if taken then .jump label cells else .on cells
  | .putField object field fieldTy value => do
      let o ← object.eval (fetch address cells)
      let v ← value.eval (fetch address cells)
      let _ ← Eff.act (.putField (fieldName u object field) (u.descriptor fieldTy)) [o, v]
      return .on cells
  | i => do
      let _ ← i.eval u (fetch address cells)
      return .on cells

/-- Whether an instruction never goes on to the next one. -/
def Instr.leaves : Instr → Bool
  | .goto _ | .ret .. => true
  | _ => false

omit [DecidableEq α] in
/-- A return ends the method. -/
theorem execRet_gives {ty : Ty} {value : Option Operand} {cells : α → D.Value}
    {next : Next (α → D.Value) D.Value} (h : (execRet address ty value cells).Gives next) :
  ∃ v, next = .ret v
  := by
  unfold execRet at h
  split at h
  · obtain ⟨v, -, h⟩ := h.of_bind
    obtain ⟨_, -, h⟩ := h.of_bind
    use some v, h.of_pure
  · split at h
    · use none, h.of_pure
    · apply h.of_fail.elim

/-- Where control goes after an instruction: a return ends the run, only a jump or a branch goes to
its label, and only an instruction that does not leave goes on. -/
theorem Instr.exec_gives {i : Instr} {cells : α → D.Value} {next : Next (α → D.Value) D.Value}
    (h : (i.exec u address cells).Gives next) :
  match next with
  | .on _ => i.leaves = false
  | .jump label _ => i.jumpLabel? = some label
  | .ret _ => i.leaves = true
  := by
  cases i with
  | assign dest ty rhs =>
      obtain ⟨cells', -, rfl⟩ := h.of_map
      rfl
  | ret ty value =>
      obtain ⟨v, rfl⟩ := execRet_gives address h
      rfl
  | goto label =>
      obtain rfl := h.of_pure
      rfl
  | branch cond label =>
      obtain ⟨taken, -, h⟩ := h.of_bind
      obtain rfl := h.of_pure
      cases taken <;> rfl
  | putField object field fieldTy value =>
      obtain ⟨o, -, h⟩ := h.of_bind
      obtain ⟨v, -, h⟩ := h.of_bind
      obtain ⟨_, -, h⟩ := h.of_bind
      obtain rfl := h.of_pure
      rfl
  | single | binary | unary | call | new | getField | arrayLength =>
      obtain ⟨v, -, h⟩ := h.of_bind
      obtain rfl := h.of_pure
      rfl

/-- The program of a method with its variables at these addresses. A method without a result may end
at its last instruction. -/
def program (D : Domain) (m : Method) : Control D (α → D.Value) where
  instr index := m.body[index]?.map (Instr.exec u address)
  target := m.labelIndex?
  atEnd := if m.ret.isVoid then .returned none else .fellOff

end Instructions

/-- The slot of a variable in the table of a method. -/
def Method.slotOf (m : Method) (x : String) : Option Nat := m.vars[x]?.map Variable.slot

end StackBackend
