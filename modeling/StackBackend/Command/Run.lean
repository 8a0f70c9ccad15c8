import StackBackend.Command.Options
import StackBackend.Lowering.ClassCode
import StackBackend.Slots.Allocation
import StackBackend.Source.Check

/-!
# Running a command

What a command prints, which file it is to write, and how it fails. Reading and writing files is
left to the caller.
-/

namespace StackBackend

/-- The result of a command: what it prints, the file it is to write, and the messages of its
failure, the outermost first. -/
structure Outcome where
  printed : String
  file : Option (String × String)
  failure : Option (List String)
deriving DecidableEq, Repr, Inhabited

/-- The word for a scope. -/
def Scope.text : Scope → String
  | receiver => "This"
  | parameter => "Parameter"
  | temporary => "Local"
  | field => "Field"

/-- Whether a variable comes before another one: by slot, then by name. -/
def slotOrder (a b : String × Variable) : Bool :=
  a.2.slot < b.2.slot || a.2.slot = b.2.slot && a.1 ≤ b.1

/-- The lines of the variables of a method, in the order of their slots. -/
def Method.variableLines (m : Method) : List String :=
  (m.name ++ ":") :: (m.vars.toList.mergeSort slotOrder).map fun e =>
    "\t" ++ e.1 ++ ": " ++ toString e.2.slot ++ " (" ++ e.2.scope.text ++ ")"

namespace Options

/-- What a verbose command prints of a class before allocation. -/
def sourceListing (u : ClassUnit) : String := Text.ofLines ["[[ollir]]", u.text]

/-- What a verbose command prints of a class after allocation. -/
def allocationListing (u : ClassUnit) (reports : List Report) : String :=
  Text.ofLines ("[[allocated]]" :: u.methods.flatMap Method.variableLines ++ reports.map Report.text)

/-- Allocates and assembles a class. -/
def build (o : Options) (u : ClassUnit) : Outcome :=
  let allocation := u.allocation o.budget
  let allocated := allocation.result
  let printed :=
    (if o.verbose then sourceListing u else "")
      ++ if o.verbose ∧ 0 ≤ o.budget then allocationListing allocated allocation.reports else ""
  match allocated.code with
  | .error e => ⟨printed, none, some ["failed to generate code for " ++ o.source, e.message]⟩
  | .ok code =>
      match o.output with
      | some path => ⟨printed, some (path, code), none⟩
      | none => ⟨printed ++ code, none, none⟩

/-- Runs a command on what reading its source gave: a text, or the cause why there is none. -/
def run (o : Options) (source : Except String String) : Outcome :=
  match source with
  | .error cause => ⟨"", none, some ["failed to open file: " ++ o.source, cause]⟩
  | .ok text =>
      match parse text with
      | .error e =>
          ⟨"[03] Error: " ++ e.value.message, none, some ["aborting due to the error above"]⟩
      | .ok u => o.build u

end Options

/-- The cause of a failure on a file that is not there, or whose directory is not. -/
def noSuchFile : String := "No such file or directory (os error 2)"

/-- The messages of a failure to write the file at `path`. -/
def writeFailure (path cause : String) : List String := ["failed to write file: " ++ path, cause]

end StackBackend
