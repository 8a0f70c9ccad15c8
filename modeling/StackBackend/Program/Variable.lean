import Std.Data.ExtTreeMap
import Std.Data.ExtTreeSet
import StackBackend.Program.Ty

/-!
# Variables

Names are ordered by their code points. A variable table gives each variable of a method its
scope, its slot and its type; a table is determined by what it gives each name.
-/

namespace StackBackend

/-- A finite set of names. -/
abbrev NameSet := Std.ExtTreeSet String

/-- A finite map from names. -/
abbrev NameMap (α : Type) := Std.ExtTreeMap String α

/-- Where a variable comes from. -/
inductive Scope where
  | receiver | parameter | temporary | field
deriving DecidableEq, Repr, Inhabited

/-- A variable of a method. -/
structure Variable where
  scope : Scope
  slot : Nat
  ty : Ty
deriving DecidableEq, Repr, Inhabited

/-- Whether the slot of a variable is fixed by the calling convention: the receiver and the
parameters come in slots of their own. -/
def Variable.isPinned (v : Variable) : Bool :=
  match v.scope with
  | .receiver | .parameter => true
  | .temporary | .field => false

/-- The variables of a method by name. -/
abbrev VarTable := NameMap Variable

end StackBackend
