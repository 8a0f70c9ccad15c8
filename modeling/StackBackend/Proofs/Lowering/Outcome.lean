import StackBackend.Proofs.Lowering.MethodCode
import StackBackend.Proofs.Lowering.Operators
import StackBackend.Proofs.Lowering.Touches

/-!
# When lowering succeeds

An instruction has code when its variables are in the table of the method, its literals are numbers of a
word, and its form is one of those that have code. Otherwise lowering stops with an error, and a
variable that the error blames is one of the instruction and not in the table.
-/

namespace StackBackend

/-! ### Operands -/

/-- The literals of an operand with their types. -/
def Operand.literals : Operand → List (String × Ty)
  | .literal value ty => [(value, ty)]
  | .var _ _ => []
  | .item _ index _ => index.literals

/-- A literal of the type can be loaded. -/
def IsLoadable (value : String) (ty : Ty) : Prop :=
  ty = .string ∨ (Site.literalValue? value ty).isSome = true

namespace Operand

/-- An operand can be loaded: its variables are in the table, and its literals can be loaded. -/
structure Loads (vars : VarTable) (e : Operand) : Prop where
  names : ∀ x ∈ e.names, x ∈ vars
  literals : ∀ l ∈ e.literals, IsLoadable l.1 l.2

variable {vars : VarTable} {x value : String} {index e : Operand} {ty : Ty}

/-- A literal can be pushed if it stands for a value of its type. -/
theorem loads_literal :
  (literal value ty).Loads vars ↔ IsLoadable value ty
  := by
  constructor
  · intro loads
    apply loads.literals (value, ty) List.mem_cons_self
  · intro loadable
    constructor
    · simp [names, typedNames]
    · simpa [literals] using loadable

/-- A variable can be pushed if it has a slot. -/
theorem loads_var :
  (var x ty).Loads vars ↔ x ∈ vars
  := by
  constructor
  · intro loads
    apply loads.names x List.mem_cons_self
  · intro mem
    constructor
    · simpa [names, typedNames] using mem
    · simp [literals]

/-- An array element can be pushed if the array has a slot and the index can be pushed. -/
theorem loads_item :
  (item x index ty).Loads vars ↔ x ∈ vars ∧ index.Loads vars
  := by
  constructor
  · intro loads
    have named := loads.names
    rw [names_item, List.forall_mem_cons] at named
    use named.1, named.2, loads.literals
  · rintro ⟨mem, loads⟩
    constructor
    · rw [names_item, List.forall_mem_cons]
      use mem, loads.names
    · apply loads.literals

/-- A zero can be loaded whatever its type. -/
theorem loads_of_isZero (zero : e.isZero = true) :
  e.Loads vars
  := by
  cases e with
  | literal value ty =>
      have written : Text.integer? 64 value = some 0 := by simpa [isZero] using zero
      rw [loads_literal]
      right
      rw [Site.literalValue?_of_zero written]
      rfl
  | var | item => simp [isZero] at zero

end Operand

/-! ### Forms that have code -/

namespace Instr

/-- Whether an instruction is an expression. -/
def isExpression : Instr → Bool
  | .assign .. | .ret .. | .putField .. | .goto .. | .branch .. => false
  | _ => true

/-- The forms that have code. The receiver of a static call is a variable, a new array has one length
and a new object no arguments, what is assigned leaves a value, a return without a value returns none, and
a branch compares. -/
def HasCode : Instr → Prop
  | .call .static (.var _ _) _ _ _ => True
  | .call .static _ _ _ _ => False
  | .new (.array _) args => args.length = 1
  | .new _ args => args.length = 0
  | .assign _ _ rhs => rhs.HasCode ∧ rhs.leavesValue = true
  | .ret ty none => ty = .void
  | .branch (.compare op _ _) _ => op ∉ [.add, .sub, .mul, .div]
  | _ => True

/-- An assignment is of an expression and not to a literal. -/
def IsRegular : Instr → Prop
  | .assign dest _ rhs => dest.isLiteral = false ∧ rhs.isExpression = true
  | _ => True

end Instr

/-! ### Steps -/

namespace CodeStep

/-- A step can be written: its variable is in the table, and its literal is a number. -/
def IsWritable (vars : VarTable) : CodeStep → Prop
  | inst .. | push _ | label _ => True
  | number value ty => (Site.literalValue? value ty).isSome = true
  | load _ name | store _ name | inc name _ => name ∈ vars
  | stop _ => False

/-- The variable that a step names. -/
def name? : CodeStep → Option String
  | load _ name | store _ name | inc name _ => some name
  | _ => none

variable {site : Site} {step : CodeStep} {line : Line} {e : LoweringError}

/-- A variable of a method is one with a slot. -/
theorem mem_vars_iff {m : Method} {name : String} :
  name ∈ m.vars ↔ (m.slotOf name).isSome = true
  := by
  rw [Std.ExtTreeMap.mem_iff_isSome_getElem?, Method.slotOf, Option.isSome_map]

/-- A step that is written can be written. -/
theorem Writes.isWritable {m : Method} (writes : step.Writes m line) :
  step.IsWritable m.vars
  := by
  cases writes with
  | inst | push | label => trivial
  | number read => simp [IsWritable, read]
  | load found | store found | inc found =>
      rw [IsWritable, mem_vars_iff, found]
      rfl

/-- Without a slot for the variable there is no line on it, and the error blames the variable. -/
theorem find_eq_error {α : Type} {name : String} {lineOn : Nat → α}
    (failed : (site.find name).map lineOn = .error e) :
  name ∉ site.method.vars ∧ e = .missingVariable name site.method.name site.instr.text
  := by
  unfold Site.find at failed
  split at failed
  · cases failed
  · next absent =>
      cases failed
      constructor
      · simp [mem_vars_iff, absent]
      · rfl

/-- A step that stops cannot be written, and a variable that it misses is the one it names. -/
theorem of_line_eq_error (failed : step.line site = .error e) :
  ¬ step.IsWritable site.method.vars
    ∧ ∀ x method instr, e = .missingVariable x method instr → step.name? = some x ∧ x ∉ site.method.vars
  := by
  have missing {name : String} (absent : name ∉ site.method.vars)
      (blamed : e = .missingVariable name site.method.name site.instr.text) :
      ∀ x method instr, e = .missingVariable x method instr → some name = some x ∧ x ∉ site.method.vars := by
    rintro x method instr again
    cases blamed.symm.trans again
    use rfl
  cases step with
  | inst | push | label => cases failed
  | number value ty =>
      simp only [line] at failed
      split at failed
      · cases failed
      · next unread =>
          cases failed
          constructor
          · simp [IsWritable, unread]
          · rintro x method instr ⟨⟩
  | load kind name | store kind name | inc name v =>
      obtain ⟨absent, blamed⟩ := find_eq_error failed
      use absent, missing absent blamed
  | stop what =>
      cases failed
      constructor
      · apply id
      · rintro x method instr ⟨⟩

end CodeStep

/-- An emission of steps fails at one of them. -/
theorem Site.emitAll_eq_error {site : Site} {steps : List CodeStep} {s : LabelSupply} {e : LoweringError}
    (failed : (site.emitAll steps s).2 = .error e) :
  ∃ step ∈ steps, step.line site = .error e
  := by
  induction steps with
  | nil => cases failed
  | cons step steps ih =>
      rw [emitAll_cons] at failed
      cases result : step.line site with
      | error e' =>
          rw [emit_bind_error result] at failed
          cases failed
          use step, List.mem_cons_self
      | ok line =>
          rw [emit_bind_ok result] at failed
          obtain ⟨step', mem, stops⟩ := ih failed
          use step', List.mem_cons_of_mem step mem

/-! ### Scripts -/

namespace Phrase

/-- A phrase can be written. -/
def Loads (vars : VarTable) : Phrase → Prop
  | operand e => e.Loads vars
  | one step => step.IsWritable vars

/-- The variables that a phrase names. -/
def names : Phrase → List String
  | operand e => e.names
  | one step => step.name?.toList

variable {vars : VarTable} {phrase : Phrase}

/-- A phrase can be pushed if each of its steps can be written. -/
theorem loads_iff_steps :
  phrase.Loads vars ↔ ∀ step ∈ phrase.steps, step.IsWritable vars
  := by
  cases phrase with
  | one step => simp [Loads, steps]
  | operand e =>
      simp only [Loads, steps]
      induction e with
      | literal value ty =>
          rw [Operand.loads_literal, Operand.steps, IsLoadable]
          split <;> simp_all [CodeStep.IsWritable]
      | var name ty => simp [Operand.loads_var, Operand.steps, CodeStep.IsWritable]
      | item name index ty ih =>
          have element : CodeStep.IsWritable vars (.inst (.arrayLoad (.ofTy ty))) := trivial
          have array : CodeStep.IsWritable vars (.load .ref name) ↔ name ∈ vars := Iff.rfl
          rw [Operand.loads_item, ih, Operand.steps, List.forall_mem_cons, List.forall_mem_append,
            List.forall_mem_singleton, array, and_iff_left element]

/-- The names that the steps of a phrase look up. -/
theorem mem_names_of_steps {step : CodeStep} {x : String} (mem : step ∈ phrase.steps)
    (named : step.name? = some x) :
  x ∈ phrase.names
  := by
  cases phrase with
  | one step' =>
      rw [List.mem_singleton.1 mem] at named
      simp [names, named]
  | operand e =>
      rw [names, ← e.reads_steps, List.mem_filterMap]
      use step, mem
      cases e.pushes_of_mem mem with
      | load => apply named
      | text | number | element => cases named

end Phrase


namespace Script

open Phrase

variable {op : BinaryOp} {lhs rhs : Operand} {label : String} {u : ClassUnit} {n : Nat} {i : Instr}
  {vars : VarTable}

/-- A comparison has code when its operator compares; a zero that is not loaded could be. -/
theorem loads_compare :
  (∀ phrase ∈ compare op lhs rhs label, phrase.Loads vars)
    ↔ (Cond.ofOp? op).isSome = true ∧ lhs.Loads vars ∧ rhs.Loads vars
  := by
  unfold compare
  cases Cond.ofOp? op with
  | none => simp [Loads, CodeStep.IsWritable]
  | some cond =>
      dsimp only
      split
      · next zero => simp [Loads, CodeStep.IsWritable, Operand.loads_of_isZero zero]
      · split
        · next zero => simp [Loads, CodeStep.IsWritable, Operand.loads_of_isZero zero]
        · simp [Loads, CodeStep.IsWritable]

theorem names_compare :
  (compare op lhs rhs label).flatMap names ⊆ lhs.names ++ rhs.names
  := by
  unfold compare
  repeat' split
  all_goals simp [names, CodeStep.name?]

/-- A binary operation has code if its operands have. -/
theorem loads_binary :
  (∀ phrase ∈ binary n op lhs rhs, phrase.Loads vars) ↔ lhs.Loads vars ∧ rhs.Loads vars
  := by
  cases op with
  | add | sub | mul | div => simp [binary, Loads, CodeStep.IsWritable]
  | and | or => simp [binary, either, choose, Loads, CodeStep.IsWritable]
  | lt | gt | le | ge | eq | ne =>
      rw [binary, List.forall_mem_append, loads_compare]
      simp [choose, Loads, CodeStep.IsWritable, Cond.ofOp?]

theorem names_binary :
  (binary n op lhs rhs).flatMap names ⊆ lhs.names ++ rhs.names
  := by
  cases op with
  | add | sub | mul | div => simp [binary, names, CodeStep.name?]
  | and | or => simp [binary, either, choose, names, CodeStep.name?]
  | lt | gt | le | ge | eq | ne =>
      rw [binary, List.flatMap_append]
      simpa [choose, names, CodeStep.name?] using names_compare

/-- A call has code if it is on a class or not static, and its operands have. -/
theorem loads_call {kind : CallKind} {owner : Operand} {method : String} {args : List Operand} {result : Ty} :
  (∀ phrase ∈ call u kind owner method args result, phrase.Loads vars)
    ↔ (Instr.call kind owner method args result).HasCode
      ∧ ∀ e ∈ (Instr.call kind owner method args result).reads, e.Loads vars
  := by
  rw [call, List.forall_mem_append, List.forall_mem_append, List.forall_mem_map, List.forall_mem_singleton]
  cases kind with
  | static => cases owner <;> simp [receiver, Loads, CodeStep.IsWritable, Instr.HasCode, Instr.reads]
  | virtual | special => simp [receiver, Loads, CodeStep.IsWritable, Instr.HasCode, Instr.reads]

/-- An allocation has code if its form has, and its operands have. -/
theorem loads_new {ty : Ty} {args : List Operand} :
  (∀ phrase ∈ new u ty args, phrase.Loads vars)
    ↔ (Instr.new ty args).HasCode ∧ ∀ e ∈ args, e.Loads vars
  := by
  cases ty with
  | array elem =>
      match args with
      | [] => simp [new, Loads, CodeStep.IsWritable, Instr.HasCode]
      | [length] => cases elem <;> simp [new, newArray, Loads, CodeStep.IsWritable, Instr.HasCode]
      | _ :: _ :: _ => simp [new, Loads, CodeStep.IsWritable, Instr.HasCode]
  | int | bool | string | void | object =>
      cases args <;> simp [new, Loads, CodeStep.IsWritable, Instr.HasCode]

/-- An expression has code when its form has and its operands can be loaded. -/
theorem loads_expr (expression : i.isExpression = true) :
  (∀ phrase ∈ expr u n i, phrase.Loads vars) ↔ i.HasCode ∧ ∀ e ∈ i.reads, e.Loads vars
  := by
  cases i with
  | binary op lhs rhs ty =>
      rw [expr, loads_binary]
      simp [Instr.HasCode, Instr.reads]
  | unary op e ty =>
      cases op <;> simp [expr, unary, Loads, CodeStep.IsWritable, Instr.HasCode, Instr.reads]
  | call kind owner method args result => apply loads_call
  | new ty args => apply loads_new
  | single | getField | arrayLength =>
      simp [expr, Loads, CodeStep.IsWritable, Instr.HasCode, Instr.reads]
  | assign | ret | putField | goto | branch => cases expression

/-- The code of an expression looks up names of its operands only. -/
theorem names_expr (i : Instr) :
  (expr u n i).flatMap names ⊆ i.reads.flatMap Operand.names
  := by
  cases i with
  | binary op lhs rhs ty => simpa [expr, Instr.reads] using names_binary
  | unary op e ty => cases op <;> simp [expr, unary, names, CodeStep.name?, Instr.reads]
  | call kind owner method args result =>
      have operands : (args.map Phrase.operand).flatMap names = args.flatMap Operand.names := List.flatMap_map ..
      rw [expr, call, List.flatMap_append, List.flatMap_append, operands]
      cases kind with
      | static => cases owner <;> simp [receiver, names, CodeStep.name?, Instr.reads]
      | virtual | special => simp [receiver, names, CodeStep.name?, Instr.reads]
  | new ty args =>
      simp only [expr, new]
      split
      · next elem length => cases elem <;> simp [newArray, names, CodeStep.name?, Instr.reads]
      · simp [names, CodeStep.name?]
      · simp [names, CodeStep.name?]
      · simp [names, CodeStep.name?]
  | single | getField | arrayLength => simp [expr, names, CodeStep.name?, Instr.reads]
  | assign | ret | putField | goto | branch => simp [expr, names, CodeStep.name?]

/-- An expression that has to leave a value must not be void. -/
theorem loads_value (expression : i.isExpression = true) :
  (∀ phrase ∈ value u n i, phrase.Loads vars)
    ↔ (i.HasCode ∧ i.leavesValue = true) ∧ ∀ e ∈ i.reads, e.Loads vars
  := by
  rw [value, List.forall_mem_append, loads_expr expression]
  cases i.leavesValue <;> simp [Loads, CodeStep.IsWritable]

theorem names_value (i : Instr) :
  (value u n i).flatMap names ⊆ i.reads.flatMap Operand.names
  := by
  rw [value, List.flatMap_append]
  cases i.leavesValue <;> simpa [names, CodeStep.name?] using names_expr i

/-- An expression whose value is dropped may be void. -/
theorem loads_discard (expression : i.isExpression = true) :
  (∀ phrase ∈ discard u n i, phrase.Loads vars) ↔ i.HasCode ∧ ∀ e ∈ i.reads, e.Loads vars
  := by
  rw [discard, List.forall_mem_append, loads_expr expression]
  cases i.leavesValue <;> simp [Loads, CodeStep.IsWritable]

theorem names_discard (i : Instr) :
  (discard u n i).flatMap names ⊆ i.reads.flatMap Operand.names
  := by
  rw [discard, List.flatMap_append]
  cases i.leavesValue <;> simpa [names, CodeStep.name?] using names_expr i

/-- An assignment has code when what is assigned has and leaves a value. The literal of an increment is not
loaded, and could be. -/
theorem loads_assign {dest : Operand} (assignable : dest.isLiteral = false) {rhs : Instr}
    (expression : rhs.isExpression = true) :
  (∀ phrase ∈ assign u n dest rhs, phrase.Loads vars)
    ↔ (rhs.HasCode ∧ rhs.leavesValue = true) ∧ ∀ e ∈ dest :: rhs.reads, e.Loads vars
  := by
  unfold assign
  cases found : Site.increment? dest rhs with
  | some named =>
      obtain ⟨rfl, value, ty, ty', read, sum⟩ := increment?_eq_some found
      have loads : (Operand.literal value .int).Loads vars := by
        rw [Operand.loads_literal]
        simp [IsLoadable, Site.literalValue?, read]
      obtain rfl | rfl := sum <;>
        simp [Loads, CodeStep.IsWritable, Instr.HasCode, Instr.leavesValue, Instr.reads, Operand.loads_var, loads]
  | none =>
      cases dest with
      | literal => cases assignable
      | var name ty =>
          dsimp only
          rw [store, List.forall_mem_append, loads_value expression, List.forall_mem_cons]
          simp [Loads, CodeStep.IsWritable, Operand.loads_var, and_assoc, and_comm, and_left_comm]
      | item name index ty =>
          dsimp only
          rw [store, List.forall_mem_append, List.forall_mem_append, loads_value expression, List.forall_mem_cons]
          simp [Loads, CodeStep.IsWritable, Operand.loads_item, and_assoc, and_left_comm]

/-- The code of an assignment looks up names of its target and of what its right side reads. -/
theorem names_assign (dest : Operand) (rhs : Instr) :
  (assign u n dest rhs).flatMap names ⊆ dest.names ++ rhs.reads.flatMap Operand.names
  := by
  unfold assign
  cases found : Site.increment? dest rhs with
  | some named =>
      obtain ⟨rfl, -⟩ := increment?_eq_some found
      simp [names, CodeStep.name?, Operand.names, Operand.typedNames]
  | none =>
      cases dest with
      | literal => simp [store, names, CodeStep.name?]
      | var name ty =>
          have named := names_value (u := u) (n := n) rhs
          simp only [store, List.flatMap_append, List.append_subset]
          constructor
          · apply List.subset_append_of_subset_right _ named
          · simp [names, CodeStep.name?, Operand.names, Operand.typedNames]
      | item name index ty =>
          have named := names_value (u := u) (n := n) rhs
          simp only [store, List.flatMap_append, List.append_subset, Operand.names_item]
          split_ands
          · simp [names, CodeStep.name?]
          · apply List.subset_append_of_subset_right _ named
          · simp [names, CodeStep.name?]

/-- A conditional jump has code if its operator compares, and its operands have code. -/
theorem loads_branch {cond : Condition} :
  (∀ phrase ∈ branch n cond label, phrase.Loads vars)
    ↔ (Instr.branch cond label).HasCode ∧ ∀ e ∈ cond.operands, e.Loads vars
  := by
  cases cond with
  | compare op lhs rhs =>
      cases op with
      | and => simp [branch, Loads, CodeStep.IsWritable, Instr.HasCode, Condition.operands]
      | or => simp [branch, either, Loads, CodeStep.IsWritable, Instr.HasCode, Condition.operands]
      | add | sub | mul | div | lt | gt | le | ge | eq | ne =>
          simp only [branch]
          rw [loads_compare]
          simp [Cond.ofOp?, Instr.HasCode, Condition.operands]
  | not e | test e => simp [branch, Loads, CodeStep.IsWritable, Instr.HasCode, Condition.operands]

theorem names_branch (cond : Condition) :
  (branch n cond label).flatMap names ⊆ cond.operands.flatMap Operand.names
  := by
  cases cond with
  | compare op lhs rhs =>
      cases op with
      | and => simp [branch, names, CodeStep.name?, Condition.operands]
      | or => simp [branch, either, names, CodeStep.name?, Condition.operands]
      | add | sub | mul | div | lt | gt | le | ge | eq | ne =>
          simp only [branch]
          simpa [Condition.operands] using names_compare
  | not e | test e => simp [branch, names, CodeStep.name?, Condition.operands]

end Script

namespace Instr

open Phrase

variable {u : ClassUnit} {n : Nat} {i : Instr} {vars : VarTable}

/-- The operands of an assignment, whatever its target. -/
theorem mem_operands_assign {dest e : Operand} {ty : Ty} {rhs : Instr} :
  e ∈ (Instr.assign dest ty rhs).target?.toList ++ (Instr.assign dest ty rhs).reads ↔ e ∈ dest :: rhs.reads
  := by
  cases dest <;> simp [target?, reads, or_left_comm, or_comm]

/-- An instruction has code exactly when its form has and its operands can be loaded. -/
theorem loads_script (regular : i.IsRegular) :
  (∀ phrase ∈ i.script u n, phrase.Loads vars)
    ↔ i.HasCode ∧ ∀ e ∈ i.target?.toList ++ i.reads, e.Loads vars
  := by
  cases i with
  | assign dest ty rhs =>
      rw [script, Script.loads_assign regular.1 regular.2]
      simp only [mem_operands_assign]
      rfl
  | ret ty value =>
      cases value with
      | some e => simp [script, Script.ret, Loads, CodeStep.IsWritable, HasCode, target?, reads]
      | none =>
          by_cases void : ty = .void
          · simp [script, Script.ret, Ty.isVoid, void, Loads, CodeStep.IsWritable, HasCode, target?, reads]
          · simp [script, Script.ret, Ty.isVoid, void, Loads, CodeStep.IsWritable, HasCode]
  | goto label => simp [script, Loads, CodeStep.IsWritable, HasCode, target?, reads]
  | branch cond label => apply Script.loads_branch
  | putField => simp [script, Loads, CodeStep.IsWritable, HasCode, target?, reads]
  | single | binary | unary | call | new | getField | arrayLength => apply Script.loads_discard rfl

/-- The code of an instruction looks up names of its operands only. -/
theorem names_script (i : Instr) :
  (i.script u n).flatMap names ⊆ (i.target?.toList ++ i.reads).flatMap Operand.names
  := by
  cases i with
  | assign dest ty rhs =>
      apply List.Subset.trans (Script.names_assign dest rhs)
      intro x mem
      rw [← List.flatMap_cons, List.mem_flatMap] at mem
      obtain ⟨e, mem, named⟩ := mem
      rw [List.mem_flatMap]
      use e, mem_operands_assign.2 mem
  | ret ty value =>
      cases value with
      | some e => simp [script, Script.ret, names, CodeStep.name?, target?, reads]
      | none =>
          simp only [script, Script.ret]
          split <;> simp [names, CodeStep.name?]
  | goto label => simp [script, names, CodeStep.name?]
  | branch cond label => apply Script.names_branch
  | putField => simp [script, names, CodeStep.name?, target?, reads]
  | single | binary | unary | call | new | getField | arrayLength => apply Script.names_discard

end Instr

/-! ### Emissions -/

namespace Emit

variable {α β : Type} {vars : VarTable} {es es' : List Operand} {P P' : Prop} {p : Emit α} {s : LabelSupply}

/-- An emission in a row fails if its first part does, or if the rest does after it. -/
theorem error_of_bind {f : α → Emit β} {e : LoweringError} (failed : ((p >>= f) s).2 = .error e) :
  (p s).2 = .error e ∨ ∃ ls a t, p.Writes s ls a t ∧ (f a t).2 = .error e
  := by
  rw [bind_apply] at failed
  rcases written : p s with ⟨ls, e' | ⟨a, t⟩⟩
  · simp only [written, Except.error.injEq] at failed
    left
    rw [failed]
  · simp only [written] at failed
    right
    use ls, a, t, written

/-- The emission succeeds exactly when the operands can be loaded and `P` holds, and a variable that it
misses is one of the operands and not in the table. -/
structure Decides (vars : VarTable) (es : List Operand) (P : Prop) (p : Emit α) : Prop where
  ok : ∀ ⦃s ls a t⦄, p.Writes s ls a t → P ∧ ∀ e ∈ es, e.Loads vars
  error : ∀ ⦃s e⦄, (p s).2 = .error e → ¬ (P ∧ ∀ e ∈ es, e.Loads vars)
  missing : ∀ ⦃s x method instr⦄, (p s).2 = .error (.missingVariable x method instr) →
    x ∉ vars ∧ ∃ e ∈ es, x ∈ e.names

namespace Decides

/-- What never fails. -/
theorem always (succeeds : ∀ s, ∃ a t, (p s).2 = .ok (a, t)) :
  Decides vars [] True p
  := by
  have never {s : LabelSupply} {e : LoweringError} : (p s).2 ≠ .error e := by
    obtain ⟨a, t, done⟩ := succeeds s
    simp [done]
  constructor
  · intro s ls a t _
    simp
  · intro s e failed
    cases never failed
  · intro s x method instr failed
    cases never failed

/-- Emissions in a row. -/
theorem bind {f : α → Emit β} (first : Decides vars es P p) (rest : ∀ a, Decides vars es' P' (f a)) :
  Decides vars (es ++ es') (P ∧ P') (p >>= f)
  := by
  constructor
  · intro s ls b t w
    obtain ⟨l₁, a, t₁, l₂, w₁, w₂, rfl⟩ := w.of_bind
    obtain ⟨holds, loads⟩ := first.ok w₁
    obtain ⟨holds', loads'⟩ := (rest a).ok w₂
    rw [List.forall_mem_append]
    use ⟨holds, holds'⟩, loads
  · rintro s e failed ⟨⟨holds, holds'⟩, loads⟩
    rw [List.forall_mem_append] at loads
    obtain failed | ⟨ls, a, t, w, failed⟩ := error_of_bind failed
    · apply first.error failed
      use holds, loads.1
    · apply (rest a).error failed
      use holds', loads.2
  · intro s x method instr failed
    obtain failed | ⟨ls, a, t, w, failed⟩ := error_of_bind failed
    · obtain ⟨absent, e, mem, named⟩ := first.missing failed
      use absent, e, List.mem_append_left _ mem
    · obtain ⟨absent, e, mem, named⟩ := (rest a).missing failed
      use absent, e, List.mem_append_right _ mem

end Decides

end Emit

/-- The code of an instruction is written to its end exactly when its script can be, and a variable that is
missed is one that the script names. -/
theorem Site.lower_decides (site : Site) (regular : site.instr.IsRegular) :
  Emit.Decides site.method.vars (site.instr.target?.toList ++ site.instr.reads) site.instr.HasCode site.lower
  := by
  have written (s : LabelSupply) : (site.lower s).2 = (site.emitAll
      ((site.instr.script site.unit (s.number site.instr.stems)).flatMap Phrase.steps)
      (s.after site.instr.stems)).2 := by
    rw [lower_eq]
    rfl
  constructor
  · intro s ls r t w
    obtain ⟨writes, -⟩ := lower_writes w
    rw [← Instr.loads_script regular (u := site.unit) (n := s.number site.instr.stems)]
    intro phrase mem
    rw [Phrase.loads_iff_steps]
    intro step listed
    obtain ⟨line, writes⟩ := writes.exists_line (List.mem_flatMap_of_mem mem listed)
    apply writes.isWritable
  · intro s e failed
    obtain ⟨step, mem, stops⟩ := emitAll_eq_error (written s ▸ failed)
    obtain ⟨phrase, listed, mem⟩ := List.mem_flatMap.1 mem
    rw [← Instr.loads_script regular (u := site.unit) (n := s.number site.instr.stems)]
    intro loads
    apply (CodeStep.of_line_eq_error stops).1
    apply Phrase.loads_iff_steps.1 (loads phrase listed) step mem
  · intro s x method instr failed
    obtain ⟨step, mem, stops⟩ := emitAll_eq_error (written s ▸ failed)
    obtain ⟨phrase, listed, mem⟩ := List.mem_flatMap.1 mem
    obtain ⟨named, absent⟩ := (CodeStep.of_line_eq_error stops).2 x method instr rfl
    use absent
    rw [← List.mem_flatMap]
    apply site.instr.names_script
    apply List.mem_flatMap_of_mem listed
    apply Phrase.mem_names_of_steps mem named

/-! ### Methods -/

namespace ClassUnit

open Emit

variable {u : ClassUnit} {m : Method}

/-- Labels are always written. -/
theorem labels_decides {vars : VarTable} (names : List String) :
  Decides vars [] True (Emit.labels names)
  := by
  apply Decides.always
  intro s
  use (), s
  induction names with
  | nil => rfl
  | cons name names ih => apply ih

/-- A body has code if each of its instructions has; by induction on the body. -/
theorem lowerFrom_decides {body : List Instr} (regular : ∀ i ∈ body, i.IsRegular) (index : Nat) :
  Decides m.vars (body.flatMap fun i => i.target?.toList ++ i.reads) (∀ i ∈ body, i.HasCode) (u.lowerFrom m index body)
  := by
  induction body generalizing index with
  | nil => simpa [lowerFrom] using labels_decides (m.labelsAt index)
  | cons i body ih =>
      rw [List.forall_mem_cons] at regular
      have rest (_ : Unit) := (Site.lower_decides ⟨u, m, i⟩ regular.1).bind fun _ => ih regular.2 (index + 1)
      simpa [lowerFrom] using (labels_decides (m.labelsAt index)).bind rest

end ClassUnit

end StackBackend
