import StackBackend.Source.Expected
import StackBackend.Source.Tree

/-!
# From text to class unit

The whole text is read by the grammar before any method is checked. A method is accepted when its labels are distinct, no assignment goes to a literal and each jump
goes to a label of the method. An accepted method has its labels placed before instructions, the
receiver typed by its class, and a variable table: the receiver, the parameters, and then the
other variables in the order of their first appearance, each with a slot of its own.
-/

namespace StackBackend

/-! ### Variable tables -/

/-- A variable table in the making, with the next free slot. -/
structure Registry where
  table : VarTable
  next : Nat

namespace Registry

/-- Enters a new temporary; `this` and names that are already there are left alone. -/
def enter (r : Registry) (name : String) (ty : Ty) : Registry :=
  if name = "this" ∨ name ∈ r.table then r
  else ⟨r.table.insert name ⟨.temporary, r.next, ty⟩, r.next + 1⟩

/-- Enters the variables of an operand, those of an index before the array. -/
def enterOperand (r : Registry) : Operand → Registry
  | .literal _ _ => r
  | .var name ty => r.enter name ty
  | .item name index ty => (r.enterOperand index).enter name (.array ty)

/-- Enters the variables of an instruction, the one written first. -/
def enterInstr (r : Registry) (i : Instr) : Registry :=
  (i.target?.toList ++ i.reads).foldl enterOperand r

/-- Enters a parameter; a later parameter of the same name replaces it. -/
def enterParam (r : Registry) (p : Param) : Registry :=
  ⟨r.table.insert p.name ⟨.parameter, r.next, p.ty⟩, r.next + 1⟩

/-- The receiver of a method of the class `owner`; a static method has none. -/
def entry (isStatic : Bool) (owner : String) : Registry :=
  if isStatic then ⟨∅, 0⟩ else ⟨(∅ : VarTable).insert "this" ⟨.receiver, 0, .object owner⟩, 1⟩

end Registry

/-- The variable table of a method of the class `owner`. -/
def variableTable (isStatic : Bool) (owner : String) (params : List Param) (body : List Instr) :
    VarTable :=
  (body.foldl Registry.enterInstr
    (params.foldl Registry.enterParam (Registry.entry isStatic owner))).table

/-! ### Checks -/

/-- The first repeated label or literal target among the items, when the labels `seen` stand
before them. -/
def itemFault? (seen : List String) : List (Located BodyItem) → Option SourceError
  | [] => none
  | ⟨.label name, span⟩ :: items =>
      if name ∈ seen then some ⟨.repeatedLabel name, span⟩ else itemFault? (name :: seen) items
  | ⟨.instr (.assign (.literal value ty) _ _), span⟩ :: _ =>
      some ⟨.literalTarget (Operand.literal value ty).text, span⟩
  | ⟨.instr _, _⟩ :: items => itemFault? seen items

/-- The labels of items, each with the number of instructions before it, counted from
`index`. -/
def placedLabels (index : Nat) : List (Located BodyItem) → List (String × Nat)
  | [] => []
  | ⟨.label name, _⟩ :: items => (name, index) :: placedLabels index items
  | ⟨.instr _, _⟩ :: items => placedLabels (index + 1) items

/-- An operand with the receiver typed by the class `owner`. -/
def typeReceiver (owner : String) : Operand → Operand
  | .var name ty => if name = "this" then .var name (.object owner) else .var name ty
  | e => e

/-- The first jump to a label that is not among `labels`. -/
def jumpFault? (method : String) (labels : List String) (items : List (Located BodyItem)) :
    Option SourceError :=
  items.findSome? fun item =>
    match item.value with
    | .label _ => none
    | .instr i =>
        (i.jumpLabel?.filter (· ∉ labels)).map fun label =>
          ⟨.undefinedLabel label method, item.span⟩

/-- The instructions of items. -/
def itemInstrs (items : List (Located BodyItem)) : List Instr :=
  items.filterMap fun item =>
    match item.value with
    | .label _ => none
    | .instr i => some i

/-- The method of the class `owner` that a declaration writes, if it is accepted. -/
def MethodDecl.check (owner : String) (d : MethodDecl) : Except SourceError Method :=
  let labels := placedLabels 0 d.body
  match itemFault? [] d.body <|> jumpFault? d.name (labels.map Prod.fst) d.body with
  | some e => .error e
  | none =>
      let body := (itemInstrs d.body).map (Instr.map (typeReceiver owner))
      .ok {
        name := d.name
        access := d.access
        isStatic := d.isStatic
        isConstructor := d.isConstructor
        params := d.params
        ret := d.ret
        body := body
        labels := labels
        vars := variableTable d.isStatic owner d.params body
      }

/-- The class unit that a declaration writes, if each of its methods is accepted; the first
method that is not gives the error. -/
def UnitDecl.check (d : UnitDecl) : Except SourceError ClassUnit := do
  let methods ← d.methods.mapM (MethodDecl.check d.name)
  return {
    name := d.name
    superName := d.superName
    imports := d.imports
    fields := d.fields
    methods := methods
  }

/-! ### Texts -/

/-- The declaration that a text writes. -/
def readUnit (text : String) : Except SourceError UnitDecl :=
  (Scan.ofText text).read.mapError GrammarFailure.toError

/-- The class unit that a text writes. -/
def parse (text : String) : Except SourceError ClassUnit := do
  (← readUnit text).check

end StackBackend
