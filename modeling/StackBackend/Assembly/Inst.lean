import StackBackend.Program.Instr

/-!
# Machine instructions

The instructions of a stack machine with numbered local slots, the lines of its assembly text,
and what an instruction does to the height of the operand stack.
-/

namespace StackBackend

/-- What a slot or an array element holds: a machine integer or a reference. -/
inductive Kind where
  | int | ref
deriving DecidableEq, Repr, Inhabited

namespace Kind

/-- What a value of the type is held as. -/
def ofTy (ty : Ty) : Kind := if ty.isIntLike then int else ref

/-- The letter that instruction names begin with. -/
def letter : Kind → String
  | int => "i"
  | ref => "a"

end Kind

/-- The test of a conditional jump. -/
inductive Cond where
  | eq | ne | lt | ge | gt | le
deriving DecidableEq, Repr, Inhabited

namespace Cond

/-- The test that a relational operator makes. -/
def ofOp? : BinaryOp → Option Cond
  | .eq => some eq
  | .ne => some ne
  | .lt => some lt
  | .ge => some ge
  | .gt => some gt
  | .le => some le
  | _ => none

/-- The same test with its sides exchanged. -/
def swap : Cond → Cond
  | lt => gt
  | gt => lt
  | le => ge
  | ge => le
  | c => c

/-- The name of a test. -/
def text : Cond → String
  | eq => "eq"
  | ne => "ne"
  | lt => "lt"
  | ge => "ge"
  | gt => "gt"
  | le => "le"

end Cond

/-- A machine instruction. A call names its target with the descriptor and carries the number of
values it takes from the stack and leaves on it. -/
inductive Inst where
  | minusOne
  | const (v : Int)
  | bytePush (v : Int)
  | shortPush (v : Int)
  | loadConst (text : String)
  | load (kind : Kind) (slot : Nat)
  | store (kind : Kind) (slot : Nat)
  | arrayLoad (kind : Kind)
  | arrayStore (kind : Kind)
  | add
  | sub
  | mul
  | div
  | neg
  | xor
  | inc (slot : Nat) (amount : Int)
  | jumpIf (cond : Cond) (label : String)
  | jumpIfCompare (cond : Cond) (label : String)
  | goto (label : String)
  | ret (kind : Option Kind)
  | invoke (kind : CallKind) (target : String) (pops pushes : Nat)
  | new (path : String)
  | newArray (elem : String)
  | newRefArray (path : String)
  | arrayLength
  | getField (target desc : String)
  | putField (target desc : String)
  | pop
deriving DecidableEq, Repr, Inhabited

namespace Inst

/-- The change of the height of the operand stack. That of a call is counted in signed words of
32 bits. -/
def effect : Inst → Int
  | minusOne | const _ | bytePush _ | shortPush _ | loadConst _ | load .. | new _ => 1
  | store .. | add | sub | mul | div | xor | jumpIf .. | arrayLoad _ | pop => -1
  | arrayStore _ => -3
  | jumpIfCompare .. | putField .. => -2
  | ret (some _) => -1
  | invoke _ _ pops pushes => ((pushes : Int) - (pops : Int)).bmod 0x100000000
  | neg | inc .. | goto _ | ret none | newArray _ | newRefArray _ | arrayLength
  | getField .. => 0

/-- With counts below half the range of a word, a call changes the height by their difference. -/
theorem effect_invoke {kind : CallKind} {target : String} {pops pushes : Nat}
    (hp : pops < 0x80000000) (hq : pushes < 0x80000000) :
  (invoke kind target pops pushes).effect = (pushes : Int) - (pops : Int)
  := by
  apply Int.bmod_eq_of_le <;> omega

/-- The label that an instruction may jump to. -/
def jumpLabel? : Inst → Option String
  | jumpIf _ label | jumpIfCompare _ label | goto label => some label
  | _ => none

/-- Whether control never goes on to the next line. -/
def isTerminator : Inst → Bool
  | goto _ | ret _ => true
  | _ => false

/-- The local slot that an instruction touches. -/
def slot? : Inst → Option Nat
  | load _ slot | store _ slot | inc slot _ => some slot
  | _ => none

/-- The shortest instruction that pushes the integer `v`. -/
def push (v : Int) : Inst :=
  if v = -1 then minusOne
  else if 0 ≤ v ∧ v ≤ 5 then const v
  else if -128 ≤ v ∧ v ≤ 127 then bytePush v
  else if -32768 ≤ v ∧ v ≤ 32767 then shortPush v
  else loadConst (toString v)

/-- An instruction name with its slot; the first four slots have names of their own. -/
def slotText (name : String) (slot : Nat) : String :=
  name ++ (if slot ≤ 3 then "_" else " ") ++ toString slot

/-- The text of an instruction. -/
def text : Inst → String
  | minusOne => "iconst_m1"
  | const v => "iconst_" ++ toString v
  | bytePush v => "bipush " ++ toString v
  | shortPush v => "sipush " ++ toString v
  | loadConst text => "ldc " ++ text
  | load kind slot => slotText (kind.letter ++ "load") slot
  | store kind slot => slotText (kind.letter ++ "store") slot
  | arrayLoad kind => kind.letter ++ "aload"
  | arrayStore kind => kind.letter ++ "astore"
  | add => "iadd"
  | sub => "isub"
  | mul => "imul"
  | div => "idiv"
  | neg => "ineg"
  | xor => "ixor"
  | inc slot v => "iinc " ++ toString slot ++ " " ++ toString v
  | jumpIf cond label => "if" ++ cond.text ++ " " ++ label
  | jumpIfCompare cond label => "if_icmp" ++ cond.text ++ " " ++ label
  | goto label => "goto " ++ label
  | ret none => "return"
  | ret (some kind) => kind.letter ++ "return"
  | invoke kind target _ _ => kind.text ++ " " ++ target
  | new path => "new " ++ path
  | newArray elem => "newarray " ++ elem
  | newRefArray path => "anewarray " ++ path
  | arrayLength => "arraylength"
  | getField target desc => "getfield " ++ target ++ " " ++ desc
  | putField target desc => "putfield " ++ target ++ " " ++ desc
  | pop => "pop"

end Inst

/-- A line of assembly. -/
inductive Line where
  | label (name : String)
  | inst (i : Inst)
deriving DecidableEq, Repr, Inhabited

/-- The text of a line. -/
def Line.text : Line → String
  | label name => name ++ ":"
  | inst i => "\t" ++ i.text

end StackBackend
