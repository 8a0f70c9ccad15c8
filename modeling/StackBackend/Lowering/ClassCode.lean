import StackBackend.Assembly.Listing
import StackBackend.Lowering.Instr

/-!
# Assembly of methods and classes

The lines of a method are those of its instructions with its labels among them, and a return at
the end of a method without a result that control may fall out of. Increments are fused before
the frame is counted. A class is its fields, a constructor that calls the one above, and its
methods; constructors that are written out have no code.
-/

namespace StackBackend

/-- Why a method has no code. -/
inductive CodeFault where
  /-- An instruction has no lowering. -/
  | lowering (e : LoweringError)
  /-- The operand stack cannot be counted along the lines. -/
  | frame (f : FrameFault)
deriving DecidableEq, Repr, Inhabited

/-- The message of a fault. -/
def CodeFault.message : CodeFault → String
  | lowering e => e.message
  | frame f => f.message

/-! ### Methods -/

/-- Writes labels. -/
def Emit.labels : List String → Emit Unit
  | [] => pure ()
  | l :: ls => do
      .label l
      Emit.labels ls

/-- The lines of instructions from the index `index` on, each after its labels, and of the
labels at the end. -/
def ClassUnit.lowerFrom (u : ClassUnit) (m : Method) (index : Nat) : List Instr → Emit Unit
  | [] => Emit.labels (m.labelsAt index)
  | i :: is => do
      Emit.labels (m.labelsAt index)
      Site.lower ⟨u, m, i⟩
      u.lowerFrom m (index + 1) is

/-- The lines of the body of a method. -/
def ClassUnit.lowerBody (u : ClassUnit) (m : Method) : Emit Unit := u.lowerFrom m 0 m.body

/-- The code of a method: its first line, its lines with their counts, and the number of
increments that were fused. -/
structure MethodCode where
  header : String
  listing : Listing
  fused : Nat
deriving DecidableEq

/-- The first line of the code of a method. -/
def ClassUnit.codeHeader (u : ClassUnit) (m : Method) : String :=
  ".method " ++ m.access.text ++ (if m.isStatic then "static " else "") ++ m.name ++ "("
    ++ u.descriptors (m.params.map Param.ty) ++ ")" ++ u.descriptor m.ret

/-- The listing of a body with the return that a method without a result may need. -/
def Listing.close (l : Listing) (ret : Ty) : Except FrameFault Listing :=
  if ret.isVoid && !l.frame.terminated then l.push (.inst (.ret none)) else .ok l

/-- The code of a method. A fault of the frame among the lines written before an error comes
first. -/
def ClassUnit.methodCode (u : ClassUnit) (m : Method) : Except CodeFault MethodCode := do
  let supply := LabelSupply.ofLabels (m.labels.map Prod.fst)
  let (lines, outcome) := u.lowerBody m supply
  let listing ← ((Listing.start m.entrySlots supply).pushAll lines).mapError .frame
  let (_, left) ← outcome.mapError .lowering
  let listing ← ({ listing with supply := left }.close m.ret).mapError .frame
  let (listing, fused) := listing.fuse
  let listing ← listing.recount.mapError .frame
  return ⟨u.codeHeader m, listing, fused⟩

/-- The text of the code of a method. -/
def MethodCode.text (c : MethodCode) : String :=
  Text.ofLines (
    [c.header,
      "\t.limit stack " ++ toString c.listing.frame.maxHeight,
      "\t.limit locals " ++ toString c.listing.frame.maxSlots]
    ++ c.listing.lines.map Line.text ++ [".end method"])

/-! ### Classes -/

/-- The methods of a class that have code. -/
def ClassUnit.codedMethods (u : ClassUnit) : List Method :=
  u.methods.filter fun m => !m.isConstructor

/-- The text before the methods: the names of the class and of the one above, the fields, and
the constructor. -/
def ClassUnit.codePreamble (u : ClassUnit) : String :=
  Text.ofLines (
    [".class " ++ u.name, "", ".super " ++ u.superPath]
    ++ u.fields.map (fun f => ".field public '" ++ f.name ++ "' " ++ u.descriptor f.ty)
    ++ ["",
      ".method public <init>()V",
      "\taload_0",
      "\tinvokespecial " ++ u.superPath ++ "/<init>()V",
      "\treturn",
      ".end method"])

/-- The assembly text of a class. The first method without code gives the fault. -/
def ClassUnit.code (u : ClassUnit) : Except CodeFault String := do
  let codes ← u.codedMethods.mapM u.methodCode
  return u.codePreamble ++ String.join (codes.map fun c => "\n" ++ c.text)

end StackBackend
