import StackBackend.Assembly.Inst
import StackBackend.Assembly.LabelSupply

/-!
# Emissions

Lowering writes lines one after the other and takes fresh labels from a supply. When it cannot
go on it stops with an error; the lines written before are kept.
-/

namespace StackBackend

/-- Why an instruction has no lowering. Each cause carries the text of the instruction. -/
inductive LoweringError where
  /-- The form named by `what` has no lowering. -/
  | unmapped (what instr : String)
  /-- A variable is not in the table of the method. -/
  | missingVariable (name method instr : String)
  /-- A literal is not a number of 32 bits. -/
  | invalidLiteral (value instr : String)
deriving DecidableEq, Repr, Inhabited

/-- The message of an error. -/
def LoweringError.message : LoweringError → String
  | unmapped what instr => "codegen error: no lowering for " ++ what ++ " in `" ++ instr ++ "`"
  | missingVariable name method instr =>
      "codegen error: variable `" ++ name ++ "` of method `" ++ method
        ++ "` has no descriptor (in `" ++ instr ++ "`)"
  | invalidLiteral value instr =>
      "codegen error: invalid literal `" ++ value ++ "` in `" ++ instr ++ "`"

/-- A computation that writes lines: the lines it writes, and its result with the supply of
labels left, or the error that stops it. -/
def Emit (α : Type) : Type := LabelSupply → List Line × Except LoweringError (α × LabelSupply)

namespace Emit

variable {α β : Type}

instance : Monad Emit where
  pure a := fun s => ([], .ok (a, s))
  bind p f := fun s =>
    match p s with
    | (lines, .error e) => (lines, .error e)
    | (lines, .ok (a, t)) =>
        let (more, result) := f a t
        (lines ++ more, result)

@[simp]
theorem pure_apply (a : α) (s : LabelSupply) :
  (pure a : Emit α) s = ([], .ok (a, s))
  := rfl

theorem bind_apply (p : Emit α) (f : α → Emit β) (s : LabelSupply) :
  (p >>= f) s = match p s with
    | (lines, .error e) => (lines, .error e)
    | (lines, .ok (a, t)) => (lines ++ (f a t).1, (f a t).2)
  := rfl

/-- Stops with an error. -/
def fail (e : LoweringError) : Emit α := fun _ => ([], .error e)

/-- Writes an instruction. -/
def inst (i : Inst) : Emit Unit := fun s => ([.inst i], .ok ((), s))

/-- Writes a label. -/
def label (name : String) : Emit Unit := fun s => ([.label name], .ok ((), s))

/-- A fresh label. -/
def fresh (stem : String) : Emit String := fun s =>
  let (labels, t) := s.fresh [stem]
  ([], .ok (labels.headD stem, t))

/-- Two fresh labels with the same number. -/
def freshPair (stem stem' : String) : Emit (String × String) := fun s =>
  let (labels, t) := s.fresh [stem, stem']
  ([], .ok ((labels.headD stem, (labels.drop 1).headD stem'), t))

end Emit

end StackBackend
