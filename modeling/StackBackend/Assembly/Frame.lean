import StackBackend.Assembly.Inst
import StackBackend.Program.Variable

/-!
# Frames

A frame counts the operand stack and the local slots along the lines of a method, from the first
to the last. The height at a label is the one recorded where the label was first jumped to or
fallen into; after a line that control does not leave downwards, a label that nothing recorded
has height zero. An instruction that takes more than the stack holds has no frame after it, nor has
one after which the height does not fit the word it is counted in.
-/

namespace StackBackend

/-- The counts at a place in the lines of a method. -/
structure Frame where
  /-- The height of the operand stack. -/
  height : Nat
  /-- The greatest height so far. -/
  maxHeight : Nat
  /-- The slot after the one touched last. -/
  slots : Nat
  /-- The greatest of those so far: all slots touched are below it. -/
  maxSlots : Nat
  /-- Whether control does not come here from the line before. -/
  terminated : Bool
  /-- The height recorded for each label. -/
  heights : NameMap Nat
deriving DecidableEq

/-- Why a line has no counts after it. -/
inductive FrameFault where
  /-- The instruction takes more than the operand stack holds. -/
  | underflow (i : Inst)
  /-- The height after the instruction does not fit a signed word of 32 bits. -/
  | overflow (i : Inst)
deriving DecidableEq, Repr, Inhabited

/-- The message of a fault. -/
def FrameFault.message : FrameFault → String
  | underflow i => "stack underflow at `" ++ i.text ++ "`"
  | overflow _ => "attempt to add with overflow"

namespace Frame

/-- The counts before the first line, with slots taken by the receiver and the parameters. -/
def start (entrySlots : Nat) : Frame := ⟨0, 0, entrySlots, entrySlots, false, ∅⟩

/-- The counts after a label. -/
def passLabel (f : Frame) (label : String) : Frame :=
  if f.terminated then { f with height := f.heights[label]?.getD 0, terminated := false }
  else { f with heights := f.heights.insertIfNew label f.height }

/-- The counts after an instruction that leaves the stack at `height`. Slots are natural numbers:
that the slot after the last one of a machine word does not exist is left out. -/
def passInst (f : Frame) (i : Inst) (height : Nat) : Frame :=
  { height := if i.isTerminator then 0 else height
    maxHeight := max f.maxHeight height
    slots := match i.slot? with
      | some slot => slot + 1
      | none => f.slots
    maxSlots := match i.slot? with
      | some slot => max f.maxSlots (slot + 1)
      | none => f.maxSlots
    terminated := f.terminated || i.isTerminator
    heights := match i.jumpLabel? with
      | some label => f.heights.insertIfNew label height
      | none => f.heights }

/-- The counts after a line, or why there are none. -/
def step (f : Frame) : Line → Except FrameFault Frame
  | .label label => .ok (f.passLabel label)
  | .inst i =>
      let height := (f.height : Int) + i.effect
      if height < 0 then .error (.underflow i)
      else if height < 0x80000000 then .ok (f.passInst i height.toNat)
      else .error (.overflow i)

/-- The counts after lines. -/
def replay (f : Frame) (lines : List Line) : Except FrameFault Frame := lines.foldlM step f

end Frame

end StackBackend
