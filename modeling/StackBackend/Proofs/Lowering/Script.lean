import StackBackend.Lowering.Instr
import StackBackend.Proofs.Execution.Program
import StackBackend.Proofs.Lowering.Emission

/-!
# Scripts of instructions

The code of an instruction written out as a list: operands that are pushed, and single steps between
them. A step writes one line, or it stops lowering: a variable may have no slot, a literal may be no number, a
form may have no code. The labels of an instruction are made together, before its first line, so the steps
share their number.

Lowering an instruction makes its labels and writes its script up to the first step that stops
(`Site.lower_eq`). What holds of the lines of an instruction is read off its script.
-/

namespace StackBackend

/-- No instruction that pushes an integer touches a slot. -/
theorem Inst.slot?_push (v : Int) :
  (push v).slot? = none
  := by
  unfold push
  repeat' split
  all_goals rfl

/-! ### Steps -/

/-- A step in writing the code of an instruction. -/
inductive CodeStep where
  /-- An instruction that touches no slot. -/
  | inst (i : Inst) (free : i.slot? = none := by rfl)
  /-- The shortest instruction that pushes the integer. -/
  | push (v : Int)
  /-- The number that a literal of the type stands for. -/
  | number (value : String) (ty : Ty)
  /-- The value of a variable. -/
  | load (kind : Kind) (name : String)
  /-- A new value for a variable. -/
  | store (kind : Kind) (name : String)
  /-- An amount that is added to a variable. -/
  | inc (name : String) (v : Int)
  /-- A label that stands here. -/
  | label (name : String)
  /-- The end, because the form named by `what` has no code. -/
  | stop (what : String)

/-- The slot of a variable, or the error that it has none. -/
def Site.find (site : Site) (name : String) : Except LoweringError Nat :=
  match site.method.slotOf name with
  | some slot => .ok slot
  | none => .error (.missingVariable name site.method.name site.instr.text)

/-- The line of a step, or the error that stops lowering there. -/
def CodeStep.line (site : Site) : CodeStep → Except LoweringError Line
  | inst i _ => .ok (.inst i)
  | push v => .ok (.inst (.push v))
  | number value ty =>
      match Site.literalValue? value ty with
      | some v => .ok (.inst (.push v))
      | none => .error (.invalidLiteral value site.instr.text)
  | load kind name => (site.find name).map fun slot => .inst (.load kind slot)
  | store kind name => (site.find name).map fun slot => .inst (.store kind slot)
  | inc name v => (site.find name).map fun slot => .inst (.inc slot v)
  | label name => .ok (.label name)
  | stop what => .error (.unmapped what site.instr.text)

/-! ### Scripts -/

/-- The steps that push an operand. -/
def Operand.steps : Operand → List CodeStep
  | .literal value ty =>
      if ty = .string then [.inst (.loadConst ("\"" ++ value ++ "\""))] else [.number value ty]
  | .var name ty => [.load (.ofTy ty) name]
  | .item name index ty => .load .ref name :: (index.steps ++ [.inst (.arrayLoad (.ofTy ty))])

/-- A part of the code of an instruction: the steps that push an operand, or one step. -/
inductive Phrase where
  | operand (e : Operand)
  | one (step : CodeStep)

/-- The steps of a phrase. -/
def Phrase.steps : Phrase → List CodeStep
  | operand e => e.steps
  | one step => [step]

namespace Script

/-- Jumps to `label` if `lhs op rhs` holds. -/
def compare (op : BinaryOp) (lhs rhs : Operand) (label : String) : List Phrase :=
  match Cond.ofOp? op with
  | none => [.one (.stop op.symbol)]
  | some cond =>
      if rhs.isZero then [.operand lhs, .one (.inst (.jumpIf cond label))]
      else if lhs.isZero then [.operand rhs, .one (.inst (.jumpIf cond.swap label))]
      else [.operand lhs, .operand rhs, .one (.inst (.jumpIfCompare cond label))]

/-- Jumps to `label` if one of the operands passes the test against zero. -/
def either (cond : Cond) (lhs rhs : Operand) (label : String) : List Phrase :=
  [.operand lhs, .one (.inst (.jumpIf cond label)), .operand rhs, .one (.inst (.jumpIf cond label))]

/-- Pushes `here`, or `there` for control that comes by the label `target`. -/
def choose (here there : Int) (target stop : String) : List Phrase :=
  [.one (.push here), .one (.inst (.goto stop)), .one (.label target), .one (.push there), .one (.label stop)]

/-- Pushes the value of a binary operation, with labels of the number `n`. -/
def binary (n : Nat) (op : BinaryOp) (lhs rhs : Operand) : List Phrase :=
  match op with
  | .add => [.operand lhs, .operand rhs, .one (.inst .add)]
  | .sub => [.operand lhs, .operand rhs, .one (.inst .sub)]
  | .mul => [.operand lhs, .operand rhs, .one (.inst .mul)]
  | .div => [.operand lhs, .operand rhs, .one (.inst .div)]
  | .and =>
      either .eq lhs rhs (LabelSupply.numbered "j_false" n)
        ++ choose 1 0 (LabelSupply.numbered "j_false" n) (LabelSupply.numbered "j_end" n)
  | .or =>
      either .ne lhs rhs (LabelSupply.numbered "j_true" n)
        ++ choose 0 1 (LabelSupply.numbered "j_true" n) (LabelSupply.numbered "j_end" n)
  | .lt | .gt | .le | .ge | .eq | .ne =>
      compare op lhs rhs (LabelSupply.numbered "j_true" n)
        ++ choose 0 1 (LabelSupply.numbered "j_true" n) (LabelSupply.numbered "j_end" n)

/-- Pushes the value of a unary operation. -/
def unary (op : UnaryOp) (e : Operand) : List Phrase :=
  match op with
  | .not => [.operand e, .one (.push 1), .one (.inst .xor)]
  | .neg => [.operand e, .one (.inst .neg)]

/-- Pushes the receiver of a call, unless the call is static. -/
def receiver (kind : CallKind) (receiver : Operand) : List Phrase :=
  match kind, receiver with
  | .static, .var .. => []
  | .static, _ => [.one (.stop "static call on a non-class receiver")]
  | _, _ => [.operand receiver]

variable (u : ClassUnit)

/-- Makes a call. -/
def call (kind : CallKind) (owner : Operand) (method : String) (args : List Operand) (result : Ty) :
    List Phrase :=
  receiver kind owner ++ args.map .operand
    ++ [.one (.inst (.invoke kind (callTarget u ((callOwner? u kind owner method).getD "") method args result)
        (args.length + if kind = .static then 0 else 1) (if result.isVoid then 0 else 1)))]

/-- The step that makes a new array of such elements. -/
def newArray (elem : Ty) : CodeStep :=
  match elem with
  | .int => .inst (.newArray "int")
  | .bool => .inst (.newArray "boolean")
  | _ => .inst (.newRefArray (u.classPath elem))

/-- Makes a new array of one given length, or a new object without arguments. -/
def new (ty : Ty) (args : List Operand) : List Phrase :=
  match ty, args with
  | .array elem, [length] => [.operand length, .one (newArray u elem)]
  | .array _, _ => [.one (.stop "array allocation without a single length")]
  | _, [] => [.one (.inst (.new (u.classPath ty)))]
  | _, _ => [.one (.stop "object allocation with arguments")]

/-- The code of an expression, with labels of the number `n`. -/
def expr (n : Nat) (i : Instr) : List Phrase :=
  match i with
  | .single e => [.operand e]
  | .binary op lhs rhs _ => binary n op lhs rhs
  | .unary op e _ => unary op e
  | .call kind receiver method args result => call u kind receiver method args result
  | .new ty args => new u ty args
  | .getField object field fieldTy =>
      [.operand object,
        .one (.inst (.getField (u.classPath object.ty ++ "/" ++ field) (u.descriptor fieldTy)))]
  | .arrayLength e => [.operand e, .one (.inst .arrayLength)]
  | .assign .. | .ret .. | .putField .. | .goto .. | .branch .. => [.one (.stop i.kindName)]

end Script

/-- Whether the code of an expression leaves a value. -/
def Instr.leavesValue : Instr → Bool
  | .call _ _ _ _ result => !result.isVoid
  | _ => true

namespace Script

variable (u : ClassUnit)

/-- The code of an expression that has to leave a value. -/
def value (n : Nat) (i : Instr) : List Phrase :=
  expr u n i ++ if i.leavesValue then [] else [.one (.stop "void value")]

/-- The code of an expression whose value, if it leaves one, is dropped. -/
def discard (n : Nat) (i : Instr) : List Phrase :=
  expr u n i ++ if i.leavesValue then [.one (.inst .pop)] else []

/-- The code of an assignment that is not an increment in place. -/
def store (n : Nat) (dest : Operand) (rhs : Instr) : List Phrase :=
  match dest with
  | .var name ty => value u n rhs ++ [.one (.store (.ofTy ty) name)]
  | .item name index ty =>
      [.one (.load .ref name), .operand index] ++ value u n rhs ++ [.one (.inst (.arrayStore (.ofTy ty)))]
  | .literal .. => [.one (.stop "assignment to a literal")]

/-- The code of an assignment. -/
def assign (n : Nat) (dest : Operand) (rhs : Instr) : List Phrase :=
  match Site.increment? dest rhs with
  | some (name, v) => [.one (.inc name v)]
  | none => store u n dest rhs

/-- Jumps to `label` if a condition holds. -/
def branch (n : Nat) (cond : Condition) (label : String) : List Phrase :=
  match cond with
  | .compare .and lhs rhs =>
      [.operand lhs, .one (.inst (.jumpIf .eq (LabelSupply.numbered "j_skip" n))), .operand rhs,
        .one (.inst (.jumpIf .ne label)), .one (.label (LabelSupply.numbered "j_skip" n))]
  | .compare .or lhs rhs => either .ne lhs rhs label
  | .compare op lhs rhs => compare op lhs rhs label
  | .not e => [.operand e, .one (.inst (.jumpIf .eq label))]
  | .test e => [.operand e, .one (.inst (.jumpIf .ne label))]

/-- The code of a return. -/
def ret (ty : Ty) (value : Option Operand) : List Phrase :=
  match value with
  | some e => [.operand e, .one (.inst (.ret (some (.ofTy ty))))]
  | none => if ty.isVoid then [.one (.inst (.ret none))] else [.one (.stop "return without a value")]

end Script

/-- The code of an instruction, with labels of the number `n`. -/
def Instr.script (u : ClassUnit) (n : Nat) (i : Instr) : List Phrase :=
  match i with
  | .assign dest _ rhs => Script.assign u n dest rhs
  | .ret ty value => Script.ret ty value
  | .goto label => [.one (.inst (.goto label))]
  | .branch cond label => Script.branch n cond label
  | .putField object field fieldTy value =>
      [.operand object, .operand value,
        .one (.inst (.putField (u.classPath object.ty ++ "/" ++ field) (u.descriptor fieldTy)))]
  | .single .. | .binary .. | .unary .. | .call .. | .new .. | .getField .. | .arrayLength .. =>
      Script.discard u n i

/-! ### Labels that are made -/

/-- The stems of the labels that the code of a binary operation makes. -/
def BinaryOp.stems : BinaryOp → List String
  | .add | .sub | .mul | .div => []
  | .and => ["j_false", "j_end"]
  | .or | .lt | .gt | .le | .ge | .eq | .ne => ["j_true", "j_end"]

namespace Instr

/-- The stems of the labels that the code of an expression makes. -/
def exprStems : Instr → List String
  | .binary op _ _ _ => op.stems
  | _ => []

/-- The stems of the labels that the code of an instruction makes. -/
def stems : Instr → List String
  | .assign (.literal ..) _ _ => []
  | .assign _ _ rhs => rhs.exprStems
  | .branch (.compare .and _ _) _ => ["j_skip"]
  | i => i.exprStems

end Instr

/-- The supply after one label is made of each stem, if there are stems. -/
def LabelSupply.after (s : LabelSupply) (stems : List String) : LabelSupply :=
  if stems = [] then s else (s.fresh stems).2

/-- An increment in place assigns a variable its sum with a literal, on either side. -/
theorem increment?_eq_some {dest : Operand} {rhs : Instr} {x : String} {v : Int}
    (h : Site.increment? dest rhs = some (x, v)) :
  dest = .var x .int ∧ ∃ value ty ty', Text.integer? 32 value = some v
    ∧ (rhs = .binary .add (.var x ty) (.literal value .int) ty'
      ∨ rhs = .binary .add (.literal value .int) (.var x ty) ty')
  := by
  unfold Site.increment? at h
  split at h
  · next name =>
      simp only [Option.map_eq_some_iff, Option.filter_eq_some_iff, Option.bind_eq_some_iff,
        Prod.mk.injEq] at h
      obtain ⟨v', ⟨⟨value, added, read⟩, -⟩, rfl, rfl⟩ := h
      constructor
      · rfl
      · unfold Site.addend? at added
        split at added
        · next y ty value' ty' =>
            obtain ⟨rfl, rfl⟩ : y = name ∧ value' = value := by simpa using added
            use value', ty, ty', read
            left
            rfl
        · next value' y ty ty' =>
            obtain ⟨rfl, rfl⟩ : y = name ∧ value' = value := by simpa using added
            use value', ty, ty', read
            right
            rfl
        · simp at added
  · simp at h

/-! ### Emissions of scripts -/

namespace Site

variable (site : Site)

/-- Writes the line of a step. -/
def emit (step : CodeStep) : Emit Unit :=
  match step.line site with
  | .ok line => fun s => ([line], .ok ((), s))
  | .error e => .fail e

/-- Writes the lines of steps, up to the first that stops. -/
def emitAll (steps : List CodeStep) : Emit Unit := steps.forM site.emit

/-- Writes the lines of a script, up to the first step that stops. -/
def write (script : List Phrase) : Emit Unit := site.emitAll (script.flatMap Phrase.steps)

/-- Makes one label of each stem, if there are stems, and writes the script for their number. -/
def writeNumbered (stems : List String) (script : Nat → List Phrase) : Emit Unit := fun s =>
  site.write (script (s.number stems)) (s.after stems)

variable {site : Site} {script script' : List Phrase} {stems : List String} {numbered : Nat → List Phrase}

theorem emitAll_cons (step : CodeStep) (steps : List CodeStep) :
  site.emitAll (step :: steps) = (do site.emit step; site.emitAll steps)
  := List.forM_cons

theorem emitAll_append (steps steps' : List CodeStep) :
  site.emitAll (steps ++ steps') = (do site.emitAll steps; site.emitAll steps')
  := List.forM_append

theorem emitAll_singleton (step : CodeStep) :
  site.emitAll [step] = site.emit step
  := by
  rw [emitAll_cons]
  apply bind_pure_unit

/-- A step that stops is the last of its script. -/
theorem emit_bind_error {step : CodeStep} {e : LoweringError} (stops : step.line site = .error e)
    (rest : Emit Unit) :
  (do site.emit step; rest) = .fail e
  := by
  rw [emit, stops]
  rfl

/-- A step that does not stop writes its line before those of the rest. -/
theorem emit_bind_ok {step : CodeStep} {line : Line} (writes : step.line site = .ok line) (rest : Emit Unit)
    (s : LabelSupply) :
  (do site.emit step; rest) s = (line :: (rest s).1, (rest s).2)
  := by
  rw [emit, writes]
  rfl

/-- A script is written after the one before it. -/
theorem write_append :
  site.write (script ++ script') = (do site.write script; site.write script')
  := by
  rw [write, List.flatMap_append, emitAll_append]
  rfl

theorem write_one (step : CodeStep) :
  site.write [.one step] = site.emit step
  := by
  rw [write, List.flatMap_singleton]
  apply emitAll_singleton

theorem write_one_cons (step : CodeStep) (script : List Phrase) :
  site.write (.one step :: script) = (do site.emit step; site.write script)
  := emitAll_cons step _

/-- Whether labels are made before or after the lines of steps cannot be told from what is written. -/
theorem emitAll_bind_numbered (steps : List CodeStep) (s : LabelSupply) :
  (do site.emitAll steps; site.writeNumbered stems numbered) s
    = (do site.emitAll steps; site.write (numbered (s.number stems))) (s.after stems)
  := by
  induction steps with
  | nil => rfl
  | cons step steps ih =>
      rw [emitAll_cons, bind_assoc, bind_assoc]
      cases result : step.line site with
      | error e =>
          rw [emit_bind_error result, emit_bind_error result]
          rfl
      | ok line => rw [emit_bind_ok result, emit_bind_ok result, ih]

/-- Labels may be made before the lines that come first. -/
theorem write_bind_numbered (script : List Phrase) :
  (do site.write script; site.writeNumbered stems numbered)
    = site.writeNumbered stems fun n => script ++ numbered n
  := by
  funext s
  rw [write, emitAll_bind_numbered, writeNumbered, write_append]
  rfl

/-- Lines after a script with labels belong to the script. -/
theorem numbered_bind_write (script : List Phrase) :
  (do site.writeNumbered stems numbered; site.write script)
    = site.writeNumbered stems fun n => numbered n ++ script
  := by
  funext s
  simp only [writeNumbered, write_append, Emit.bind_apply]

/-! ### The code of an instruction is its script -/

section Lowering

open Emit

/-- A single instruction is a script of one step. -/
theorem inst_eq {i : Inst} (free : i.slot? = none) :
  inst i = site.write [.one (.inst i free)]
  := by
  rw [write_one]
  rfl

/-- The slot of a variable is looked up before the line that needs it is written. -/
theorem slot_bind {α : Type} (name : String) (f : Nat → Emit α) :
  site.slot name >>= f = match site.find name with
    | .ok slot => f slot
    | .error e => .fail e
  := by
  rw [slot, find, Method.slotOf]
  cases site.method.vars[name]? <;> rfl

/-- A variable is loaded by one step. -/
theorem loadSlot_eq (kind : Kind) (name : String) :
  (do inst (.load kind (← site.slot name))) = site.emit (.load kind name)
  := by
  rw [slot_bind, emit, CodeStep.line]
  cases site.find name <;> rfl

theorem storeSlot_eq (kind : Kind) (name : String) :
  (do inst (.store kind (← site.slot name))) = site.emit (.store kind name)
  := by
  rw [slot_bind, emit, CodeStep.line]
  cases site.find name <;> rfl

theorem incSlot_eq (name : String) (v : Int) :
  (do inst (.inc (← site.slot name) v)) = site.emit (.inc name v)
  := by
  rw [slot_bind, emit, CodeStep.line]
  cases site.find name <;> rfl

/-- A literal is pushed by one step, a text or a number. -/
theorem loadLiteral_eq (value : String) (ty : Ty) :
  site.loadLiteral value ty = site.emitAll (Operand.literal value ty).steps
  := by
  rw [loadLiteral, Operand.steps]
  split
  · rw [emitAll_singleton]
    rfl
  · rw [emitAll_singleton, emit, CodeStep.line]
    cases literalValue? value ty <;> rfl

/-- An operand is pushed by its steps; the index of an array element is an operand again. -/
theorem load_eq_emitAll (e : Operand) :
  site.load e = site.emitAll e.steps
  := by
  induction e with
  | literal value ty => apply loadLiteral_eq
  | var name ty =>
      rw [Operand.steps, emitAll_singleton]
      apply loadSlot_eq
  | item name index ty ih =>
      rw [load, ← bind_assoc, loadSlot_eq, ih, Operand.steps, emitAll_cons, emitAll_append, emitAll_singleton]
      rfl

/-- An operand is a script of one phrase. -/
theorem load_eq (e : Operand) :
  site.load e = site.write [.operand e]
  := by
  rw [write, List.flatMap_singleton]
  apply load_eq_emitAll

theorem write_operand_cons (e : Operand) (script : List Phrase) :
  site.write (.operand e :: script) = (do site.load e; site.write script)
  := by
  rw [load_eq, ← write_append]
  rfl

/-- Operands are pushed in their order. -/
theorem loadAll_eq (es : List Operand) :
  site.loadAll es = site.write (es.map .operand)
  := by
  induction es with
  | nil => rfl
  | cons e es ih =>
      rw [loadAll, ih, List.map_cons, write_operand_cons]

/-- A comparison with zero is a test, on whichever side the zero stands. -/
theorem jumpIfCompare_eq (op : BinaryOp) (lhs rhs : Operand) (label : String) :
  site.jumpIfCompare op lhs rhs label = site.write (Script.compare op lhs rhs label)
  := by
  rw [jumpIfCompare, Script.compare]
  cases Cond.ofOp? op with
  | none => rfl
  | some cond =>
      dsimp only
      split
      · rw [write_operand_cons]
        rfl
      · split
        · rw [write_operand_cons]
          rfl
        · rw [write_operand_cons, write_operand_cons]
          rfl

theorem jumpIfEither_eq (cond : Cond) (lhs rhs : Operand) (label : String) :
  site.jumpIfEither cond lhs rhs label = site.write (Script.either cond lhs rhs label)
  := by
  rw [Script.either, write_operand_cons, write_one_cons, write_operand_cons]
  rfl

theorem choose_eq (here there : Int) (target stop : String) :
  choose here there target stop = site.write (Script.choose here there target stop)
  := rfl

/-- A script that makes no labels. -/
theorem write_eq_numbered (script : List Phrase) :
  site.write script = site.writeNumbered [] fun _ => script
  := rfl

theorem arithmetic_eq {i : Inst} (free : i.slot? = none) (lhs rhs : Operand) :
  site.arithmetic i lhs rhs = site.write [.operand lhs, .operand rhs, .one (.inst i free)]
  := by
  rw [write_operand_cons, write_operand_cons, write_one]
  rfl

/-- A decision that is made into one of two integers. -/
theorem chosen_eq {stem stem' : String} {code : String → Emit Unit} {script : String → List Phrase}
    (same : ∀ label, code label = site.write (script label)) (here there : Int) :
  (do
    let (target, stop) ← freshPair stem stem'
    code target
    choose here there target stop)
    = site.writeNumbered [stem, stem'] fun n =>
        script (LabelSupply.numbered stem n)
          ++ Script.choose here there (LabelSupply.numbered stem n) (LabelSupply.numbered stem' n)
  := by
  simp only [same, @choose_eq site, ← write_append]
  rfl

/-- The code of a binary operation is its script, operator by operator. -/
theorem binary_eq (op : BinaryOp) (lhs rhs : Operand) :
  site.binary op lhs rhs = site.writeNumbered op.stems fun n => Script.binary n op lhs rhs
  := by
  cases op with
  | add | sub | mul | div => apply arithmetic_eq
  | and | or => apply chosen_eq (jumpIfEither_eq _ lhs rhs)
  | lt | gt | le | ge | eq | ne => apply chosen_eq (jumpIfCompare_eq _ lhs rhs)

theorem unary_eq (op : UnaryOp) (e : Operand) :
  site.unary op e = site.write (Script.unary op e)
  := by
  cases op <;> rw [Script.unary, write_operand_cons] <;> rfl

/-- The receiver of a call is pushed, and the class that the call is made on is known. -/
theorem owner_eq (kind : CallKind) (receiver : Operand) (method : String) :
  site.owner kind receiver method = do
    site.write (Script.receiver kind receiver)
    return (callOwner? site.unit kind receiver method).getD ""
  := by
  cases kind with
  | static => cases receiver <;> rfl
  | virtual | special =>
      simp only [owner, load_eq, callOwner?, Script.receiver]
      split <;> rfl

/-- The code of a call is its script, and leaves a value unless it is void. -/
theorem call_eq (kind : CallKind) (receiver : Operand) (method : String) (args : List Operand)
    (result : Ty) :
  site.call kind receiver method args result = do
    site.write (Script.call site.unit kind receiver method args result)
    return !result.isVoid
  := by
  simp only [call, owner_eq, loadAll_eq, Script.call, write_append, bind_assoc, pure_bind]
  rfl

/-- The code of a new array or object is its script. -/
theorem new_eq (ty : Ty) (args : List Operand) :
  site.new ty args = site.write (Script.new site.unit ty args)
  := by
  cases ty with
  | array elem =>
      match args with
      | [] => rfl
      | [length] =>
          rw [Script.new, write_operand_cons]
          cases elem <;> rfl
      | _ :: _ :: _ => rfl
  | int | bool | void | string | object => cases args <;> rfl

/-- The code of an expression is its script. -/
theorem expr_eq (i : Instr) :
  site.expr i = do
    site.writeNumbered i.exprStems fun n => Script.expr site.unit n i
    return i.leavesValue
  := by
  cases i with
  | single e => rw [expr, load_eq, write_eq_numbered]; rfl
  | binary op lhs rhs ty => rw [expr, binary_eq]; rfl
  | unary op e ty => rw [expr, unary_eq, write_eq_numbered]; rfl
  | call kind receiver method args result => rw [expr, call_eq, write_eq_numbered]; rfl
  | new ty args => rw [expr, new_eq, write_eq_numbered]; rfl
  | getField object | arrayLength object =>
      rw [expr, inst_eq rfl, ← bind_assoc, ← write_operand_cons, write_eq_numbered]
      rfl
  | assign | ret | putField | goto | branch => rfl

/-- The code of an expression that has to leave a value. -/
theorem value_eq (i : Instr) :
  site.value i = site.writeNumbered i.exprStems fun n => Script.value site.unit n i
  := by
  simp only [value, expr_eq, Script.value, ← numbered_bind_write, bind_assoc, pure_bind]
  congr
  funext _
  cases i.leavesValue <;> rfl

/-- The code of an assignment that is not an increment in place. -/
theorem store_eq (dest : Operand) (ty : Ty) (rhs : Instr) :
  site.store dest rhs
    = site.writeNumbered (Instr.assign dest ty rhs).stems fun n => Script.store site.unit n dest rhs
  := by
  cases dest with
  | literal value ty => rfl
  | var name ty =>
      rw [store, value_eq, storeSlot_eq, ← write_one, numbered_bind_write]
      rfl
  | item name index ty =>
      rw [store, ← bind_assoc, loadSlot_eq, ← write_one, load_eq, value_eq, inst_eq rfl, numbered_bind_write,
        write_bind_numbered, write_bind_numbered]
      simp [Script.store, Instr.stems]

/-- The increment of a variable makes no label, like the sum that it replaces. -/
theorem assign_eq (dest : Operand) (ty : Ty) (rhs : Instr) :
  site.assign dest rhs
    = site.writeNumbered (Instr.assign dest ty rhs).stems fun n => Script.assign site.unit n dest rhs
  := by
  simp only [assign, Script.assign]
  cases found : increment? dest rhs with
  | none => apply store_eq
  | some named =>
      dsimp only
      rw [incSlot_eq, ← write_one]
      obtain ⟨rfl, value, ty, ty', -, rfl | rfl⟩ := increment?_eq_some found <;> rfl

/-- The code of a conditional jump is its script, condition by condition. -/
theorem branch_eq (cond : Condition) (label : String) :
  site.branch cond label
    = site.writeNumbered (Instr.branch cond label).stems fun n => Script.branch n cond label
  := by
  cases cond with
  | compare op lhs rhs =>
      cases op with
      | and =>
          funext s
          simp only [writeNumbered, Script.branch, write_operand_cons, write_one_cons]
          rfl
      | or => apply jumpIfEither_eq
      | add | sub | mul | div | lt | gt | le | ge | eq | ne =>
          simp only [branch, jumpIfCompare_eq]
          rfl
  | not e | test e =>
      rw [branch, inst_eq rfl, ← write_operand_cons]
      rfl

theorem ret_eq (ty : Ty) (value : Option Operand) :
  site.ret ty value = site.write (Script.ret ty value)
  := by
  cases value with
  | some e =>
      rw [Script.ret, write_operand_cons]
      rfl
  | none =>
      rw [ret, Script.ret]
      split <;> rfl

/-- The code of an expression whose value is dropped. -/
theorem discard_eq (i : Instr) :
  (do if ← site.expr i then inst .pop)
    = site.writeNumbered i.exprStems fun n => Script.discard site.unit n i
  := by
  simp only [expr_eq, Script.discard, ← numbered_bind_write, bind_assoc, pure_bind]
  congr
  funext _
  cases i.leavesValue <;> rfl

/-- Lowering an instruction makes its labels and writes its script. -/
theorem lower_eq :
  site.lower = site.writeNumbered site.instr.stems (site.instr.script site.unit)
  := by
  obtain ⟨u, m, i⟩ := site
  cases i with
  | assign dest ty rhs => apply assign_eq
  | ret ty value => apply ret_eq
  | goto label => apply inst_eq
  | branch cond label => apply branch_eq
  | putField object field fieldTy value => apply arithmetic_eq
  | single | binary | unary | call | new | getField | arrayLength => apply discard_eq

end Lowering

end Site

/-! ### Lines and steps -/

/-- The line is that of the step, with the slots of the method. -/
inductive CodeStep.Writes (m : Method) : CodeStep → Line → Prop
  | inst (i : Inst) (free : i.slot? = none) : Writes m (.inst i free) (.inst i)
  | push (v : Int) : Writes m (.push v) (.inst (.push v))
  | number {value : String} {ty : Ty} {v : Int} (read : Site.literalValue? value ty = some v) :
      Writes m (.number value ty) (.inst (.push v))
  | load {kind : Kind} {name : String} {slot : Nat} (found : m.slotOf name = some slot) :
      Writes m (.load kind name) (.inst (.load kind slot))
  | store {kind : Kind} {name : String} {slot : Nat} (found : m.slotOf name = some slot) :
      Writes m (.store kind name) (.inst (.store kind slot))
  | inc {name : String} {v : Int} {slot : Nat} (found : m.slotOf name = some slot) :
      Writes m (.inc name v) (.inst (.inc slot v))
  | label (name : String) : Writes m (.label name) (.label name)

/-- The lines are those of the steps, one for each. -/
def CodeStep.WritesAll (m : Method) : List CodeStep → List Line → Prop := List.Forall₂ (Writes m)

/-- What is collected from the lines is collected from the steps. -/
theorem CodeStep.WritesAll.filterMap_eq {α : Type} {m : Method} {steps : List CodeStep} {ls : List Line}
    {f : CodeStep → Option α} {g : Line → Option α} (writes : WritesAll m steps ls)
    (same : ∀ step line, Writes m step line → g line = f step) :
  ls.filterMap g = steps.filterMap f
  := by
  induction writes with
  | nil => rfl
  | cons first _ ih => rw [List.filterMap_cons, List.filterMap_cons, same _ _ first, ih]

/-! ### Steps of operands -/

/-- The steps that push operands. -/
inductive CodeStep.Pushes : CodeStep → Prop
  | text (value : String) : Pushes (.inst (.loadConst ("\"" ++ value ++ "\"")))
  | number (value : String) (ty : Ty) : Pushes (.number value ty)
  | load (kind : Kind) (name : String) : Pushes (.load kind name)
  | element (kind : Kind) : Pushes (.inst (.arrayLoad kind))

/-- The steps of an operand push values and do nothing else. -/
theorem Operand.pushes_of_mem {e : Operand} {step : CodeStep} (mem : step ∈ e.steps) :
  step.Pushes
  := by
  induction e with
  | literal value ty =>
      rw [steps] at mem
      split at mem
      · rw [List.mem_singleton.1 mem]
        apply CodeStep.Pushes.text
      · rw [List.mem_singleton.1 mem]
        apply CodeStep.Pushes.number
  | var name ty =>
      rw [List.mem_singleton.1 mem]
      apply CodeStep.Pushes.load
  | item name index ty ih =>
      rw [steps, List.mem_cons, List.mem_append, List.mem_singleton] at mem
      obtain rfl | mem | rfl := mem
      · apply CodeStep.Pushes.load
      · apply ih mem
      · apply CodeStep.Pushes.element

namespace Phrase

/-- What a function gives for a phrase that is one step. -/
def own {α : Type} (f : CodeStep → Option α) : Phrase → Option α
  | operand _ => none
  | one step => f step

/-- What is collected from the steps of a script, when those that push operands give nothing. -/
theorem filterMap_steps {α : Type} {f : CodeStep → Option α} (none : ∀ step, step.Pushes → f step = none)
    (script : List Phrase) :
  (script.flatMap steps).filterMap f = script.filterMap (own f)
  := by
  induction script with
  | nil => rfl
  | cons phrase script ih =>
      rw [List.flatMap_cons, List.filterMap_append, ih]
      cases phrase with
      | operand e =>
          have nothing : e.steps.filterMap f = [] := by
            rw [List.filterMap_eq_nil_iff]
            intro step mem
            apply none step (e.pushes_of_mem mem)
          rw [steps, nothing]
          rfl
      | one step => cases found : f step <;> simp [steps, own, found]

/-- Operands have no steps of their own. -/
theorem filterMap_own_operands {α : Type} (f : CodeStep → Option α) (es : List Operand) :
  (es.map operand).filterMap (own f) = []
  := by
  induction es with
  | nil => rfl
  | cons e es ih => apply ih

end Phrase

/-- Each step of what is written has its line. -/
theorem CodeStep.WritesAll.exists_line {m : Method} {steps : List CodeStep} {ls : List Line}
    (writes : WritesAll m steps ls) {step : CodeStep} (mem : step ∈ steps) :
  ∃ line, step.Writes m line
  := by
  induction writes with
  | nil => cases mem
  | @cons _ line _ _ first _ ih =>
      obtain rfl | mem := List.mem_cons.1 mem
      · use line
      · apply ih mem

/-- The last line is that of the last step. -/
theorem CodeStep.WritesAll.of_concat {m : Method} {steps : List CodeStep} {step : CodeStep} {ls : List Line}
    (writes : WritesAll m (steps ++ [step]) ls) :
  ∃ init last, ls = init ++ [last] ∧ WritesAll m steps init
  := by
  induction steps generalizing ls with
  | nil =>
      cases writes with
      | @cons _ line _ _ _ rest =>
          cases rest
          use [], line, rfl
          apply List.Forall₂.nil
  | cons step steps ih =>
      cases writes with
      | @cons _ line _ _ first rest =>
          obtain ⟨init, last, rfl, writes⟩ := ih rest
          use line :: init, last, rfl
          apply List.Forall₂.cons first writes

namespace Site

variable {site : Site} {s t : LabelSupply} {ls : List Line} {r : Unit}

/-- A line on the slot of a variable is written only if the variable has one. -/
theorem exists_slotOf_of_find {name : String} {lineOn : Nat → Line} {line : Line}
    (ok : (site.find name).map lineOn = .ok line) :
  ∃ slot, site.method.slotOf name = some slot ∧ line = lineOn slot
  := by
  unfold find at ok
  split at ok
  · next slot found =>
      cases ok
      use slot
  · cases ok

/-- What a step writes at a site, it writes for the method there. -/
theorem writes_of_line {step : CodeStep} {line : Line} (ok : step.line site = .ok line) :
  step.Writes site.method line
  := by
  cases step with
  | inst i free =>
      cases ok
      apply CodeStep.Writes.inst
  | push v =>
      cases ok
      apply CodeStep.Writes.push
  | number value ty =>
      simp only [CodeStep.line] at ok
      split at ok
      · next read =>
          cases ok
          apply CodeStep.Writes.number read
      · cases ok
  | load kind name =>
      obtain ⟨slot, found, rfl⟩ := exists_slotOf_of_find ok
      apply CodeStep.Writes.load found
  | store kind name =>
      obtain ⟨slot, found, rfl⟩ := exists_slotOf_of_find ok
      apply CodeStep.Writes.store found
  | inc name v =>
      obtain ⟨slot, found, rfl⟩ := exists_slotOf_of_find ok
      apply CodeStep.Writes.inc found
  | label name =>
      cases ok
      apply CodeStep.Writes.label
  | stop what => cases ok

/-- A step writes one line and makes no label. -/
theorem emit_writes {step : CodeStep} (w : (site.emit step).Writes s ls r t) :
  ∃ line, step.Writes site.method line ∧ ls = [line] ∧ t = s
  := by
  unfold emit at w
  split at w
  · next line ok =>
      cases w
      use line, writes_of_line ok
  · cases w.of_fail

/-- Steps write their lines one by one; by induction on the steps. -/
theorem emitAll_writes {steps : List CodeStep} (w : (site.emitAll steps).Writes s ls r t) :
  CodeStep.WritesAll site.method steps ls ∧ t = s
  := by
  induction steps generalizing ls s with
  | nil =>
      obtain ⟨rfl, -, rfl⟩ := w.of_pure
      constructor
      · apply List.Forall₂.nil
      · rfl
  | cons step steps ih =>
      rw [emitAll_cons] at w
      obtain ⟨l₁, _, t₁, l₂, w₁, w₂, rfl⟩ := w.of_bind
      obtain ⟨line, writes, rfl, rfl⟩ := emit_writes w₁
      obtain ⟨lists, rfl⟩ := ih w₂
      constructor
      · exact .cons writes lists
      · rfl

/-- Each line that is written before an emission of steps ends or stops is that of one of them. -/
theorem writes_of_mem_emitAll {steps : List CodeStep} {line : Line} (mem : line ∈ (site.emitAll steps s).1) :
  ∃ step ∈ steps, step.Writes site.method line
  := by
  induction steps with
  | nil => cases mem
  | cons step steps ih =>
      rw [emitAll_cons] at mem
      cases result : step.line site with
      | error e =>
          rw [emit_bind_error result] at mem
          cases mem
      | ok line' =>
          rw [emit_bind_ok result, List.mem_cons] at mem
          obtain rfl | mem := mem
          · use step, List.mem_cons_self
            apply writes_of_line result
          · obtain ⟨step', listed, writes⟩ := ih mem
            use step', List.mem_cons_of_mem step listed

/-- The lines of an instruction are those of its script, with labels of the next number that is free. -/
theorem lower_writes (w : site.lower.Writes s ls r t) :
  CodeStep.WritesAll site.method
      ((site.instr.script site.unit (s.number site.instr.stems)).flatMap Phrase.steps) ls
    ∧ t = s.after site.instr.stems
  := by
  rw [lower_eq] at w
  apply emitAll_writes w

end Site

end StackBackend
