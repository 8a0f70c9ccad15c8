import StackBackend.Assembly.Frame
import StackBackend.Assembly.Fusion
import StackBackend.Assembly.LabelSupply

/-!
# Listings

The lines of a method as they are written down, with the counts of its frame and the supply of
its labels.
-/

namespace StackBackend

/-- The lines of a method with their counts. -/
structure Listing where
  entrySlots : Nat
  lines : List Line
  frame : Frame
  supply : LabelSupply
deriving DecidableEq

namespace Listing

/-- A listing without lines. -/
def start (entrySlots : Nat) (supply : LabelSupply) : Listing :=
  ⟨entrySlots, [], .start entrySlots, supply⟩

/-- Adds a line at the end. -/
def push (l : Listing) (line : Line) : Except FrameFault Listing := do
  return { l with lines := l.lines ++ [line], frame := ← l.frame.step line }

/-- Adds lines at the end. -/
def pushAll (l : Listing) (lines : List Line) : Except FrameFault Listing := lines.foldlM push l

/-- New labels, one for each stem. -/
def fresh (l : Listing) (stems : List String) : List String × Listing :=
  let (labels, supply) := l.supply.fresh stems
  (labels, { l with supply := supply })

/-- The same lines, counted again from the first. -/
def recount (l : Listing) : Except FrameFault Listing := do
  return { l with frame := ← (Frame.start l.entrySlots).replay l.lines }

/-- The listing with its increments fused, not counted again, and their number. -/
def fuse (l : Listing) : Listing × Nat :=
  let (lines, count) := fuseIncrements l.lines
  ({ l with lines := lines }, count)

end Listing

end StackBackend
