import StackBackend.Proofs.Assembly.Slots
import StackBackend.Proofs.Execution.Reading
import StackBackend.Proofs.Lowering.Script

/-!
# Slots that the code of an instruction touches

The code of an instruction reads the slots of the variables in the operands that the instruction reads,
each as often as it stands there, and it writes to the slot of the variable that the instruction writes.
Writing comes last, and there is no instruction without code.
-/

namespace StackBackend

/-! ### Steps -/

namespace CodeStep

/-- The variable whose slot the line of a step reads. -/
def read? : CodeStep → Option String
  | load _ name | inc name _ => some name
  | _ => none

/-- The variable whose slot the line of a step writes. -/
def written? : CodeStep → Option String
  | store _ name | inc name _ => some name
  | _ => none

variable {m : Method} {step : CodeStep} {line : Line} {steps : List CodeStep} {ls : List Line}

/-- The line of a step reads the slot of the variable that the step reads. -/
theorem Writes.read_eq (writes : step.Writes m line) :
  line.readSlot?.map some = step.read?.map m.slotOf
  := by
  cases writes with
  | inst i free => simp [Line.readSlot?_of_inst free, read?]
  | push | number => simp [Line.readSlot?_of_inst (Inst.slot?_push _), read?]
  | load found | inc found => simp [Line.readSlot?, read?, found]
  | store | label => rfl

/-- The line of a step writes the slot of the variable that the step writes. -/
theorem Writes.written_eq (writes : step.Writes m line) :
  line.writtenSlot?.map some = step.written?.map m.slotOf
  := by
  cases writes with
  | inst i free => simp [Line.writtenSlot?_of_inst free, written?]
  | push | number => simp [Line.writtenSlot?_of_inst (Inst.slot?_push _), written?]
  | store found | inc found => simp [Line.writtenSlot?, written?, found]
  | load | label => rfl

/-- The slots that lines read are those of the variables that the steps read, in their order. -/
theorem WritesAll.reads_eq (writes : WritesAll m steps ls) :
  (ls.filterMap Line.readSlot?).map some = (steps.filterMap read?).map m.slotOf
  := by
  rw [List.map_filterMap, List.map_filterMap]
  apply writes.filterMap_eq
  intro step line
  apply Writes.read_eq

/-- The slots that lines write are those of the variables that the steps write. -/
theorem WritesAll.written_eq (writes : WritesAll m steps ls) :
  (ls.filterMap Line.writtenSlot?).map some = (steps.filterMap written?).map m.slotOf
  := by
  rw [List.map_filterMap, List.map_filterMap]
  apply writes.filterMap_eq
  intro step line
  apply Writes.written_eq

/-- No step of a script that is written to its end stops. -/
theorem WritesAll.stop_not_mem (writes : WritesAll m steps ls) (what : String) :
  .stop what ∉ steps
  := by
  intro mem
  obtain ⟨line, impossible⟩ := writes.exists_line mem
  cases impossible

end CodeStep

/-! ### Operands -/

theorem Operand.names_item (x : String) (index : Operand) (ty : Ty) :
  (Operand.item x index ty).names = x :: index.names
  := rfl

/-- Zero is a literal, so it names no variable. -/
theorem Operand.names_of_isZero {e : Operand} (zero : e.isZero = true) :
  e.names = []
  := by
  cases e with
  | literal => rfl
  | var | item => simp [isZero] at zero

/-- The steps of an operand read its names. -/
theorem Operand.reads_steps (e : Operand) :
  e.steps.filterMap CodeStep.read? = e.names
  := by
  induction e with
  | literal value ty =>
      rw [steps]
      split <;> rfl
  | var name ty => rfl
  | item name index ty ih => rw [names_item, steps, List.filterMap_cons, List.filterMap_append, ih]; simp [CodeStep.read?]

namespace Phrase

/-- The variables whose slots the lines of a phrase read. -/
def reads : Phrase → List String
  | operand e => e.names
  | one step => step.read?.toList

/-- What the steps of a script read is read by its phrases. -/
theorem reads_steps (script : List Phrase) :
  (script.flatMap steps).filterMap CodeStep.read? = script.flatMap reads
  := by
  rw [List.filterMap_flatMap]
  congr
  funext phrase
  cases phrase with
  | operand e => apply e.reads_steps
  | one step => cases found : step.read? <;> simp [steps, reads, found]

/-- A script without a step that stops. -/
def Whole (script : List Phrase) : Prop := ∀ what, .one (.stop what) ∉ script

variable {script script' : List Phrase}

/-- The first part of a script that is written to its end. -/
theorem Whole.left (whole : Whole (script ++ script')) :
  Whole script
  := by
  intro what mem
  apply whole what
  apply List.mem_append_left _ mem

theorem Whole.right (whole : Whole (script ++ script')) :
  Whole script'
  := by
  intro what mem
  apply whole what
  apply List.mem_append_right _ mem

/-- A script whose lines are written has no step that stops. -/
theorem Whole.of_writesAll {m : Method} {ls : List Line}
    (writes : CodeStep.WritesAll m (script.flatMap steps) ls) :
  Whole script
  := by
  intro what mem
  apply writes.stop_not_mem what
  rw [List.mem_flatMap]
  use .one (.stop what), mem
  apply List.mem_cons_self

theorem flatMap_reads_operands (es : List Operand) :
  (es.map operand).flatMap reads = es.flatMap Operand.names
  := List.flatMap_map ..

end Phrase

/-- The variable that an instruction writes, if it writes one. -/
def Instr.written (i : Instr) : List String :=
  match i.target? with
  | some (.var x _) => [x]
  | _ => []

/-- What an instruction writes is what it defines. -/
theorem Instr.mem_written {i : Instr} {x : String} :
  x ∈ i.written ↔ x ∈ i.defs
  := by
  rw [mem_defs, written]
  split
  · next target => simp [target, eq_comm]
  · next other =>
      constructor
      · simp
      · rintro ⟨ty, target⟩
        apply (other x ty target).elim

/-! ### Scripts -/

namespace Script

open Phrase

variable {op : BinaryOp} {lhs rhs : Operand} {label : String} {u : ClassUnit} {n : Nat} {i : Instr}

/-- A comparison reads both operands: the one that is left out is the literal zero. -/
theorem reads_compare (whole : Whole (compare op lhs rhs label)) :
  (compare op lhs rhs label).flatMap reads = lhs.names ++ rhs.names
  := by
  unfold compare at whole ⊢
  split
  · next none =>
      rw [none] at whole
      cases whole _ List.mem_cons_self
  · split
    · next zero => simp [reads, CodeStep.read?, Operand.names_of_isZero zero]
    · split
      · next zero => simp [reads, CodeStep.read?, Operand.names_of_isZero zero]
      · simp [reads, CodeStep.read?]

/-- A binary operation reads both operands. -/
theorem reads_binary (whole : Whole (binary n op lhs rhs)) :
  (binary n op lhs rhs).flatMap reads = lhs.names ++ rhs.names
  := by
  cases op with
  | add | sub | mul | div => simp [binary, reads, CodeStep.read?]
  | and | or => simp [binary, either, choose, reads, CodeStep.read?]
  | lt | gt | le | ge | eq | ne =>
      rw [binary, List.flatMap_append, reads_compare whole.left]
      simp [choose, reads, CodeStep.read?]

/-- A call reads its receiver, unless it is static, and its arguments. -/
theorem reads_call (kind : CallKind) (owner : Operand) (method : String) (args : List Operand) (result : Ty) :
  (call u kind owner method args result).flatMap reads
    = (Instr.call kind owner method args result).reads.flatMap Operand.names
  := by
  have pushed : (receiver kind owner).flatMap reads = if kind = .static then [] else owner.names := by
    cases kind with
    | static => cases owner <;> rfl
    | virtual | special => simp [receiver, reads]
  have own : (if kind = .static then args else owner :: args).flatMap Operand.names
      = (if kind = .static then [] else owner.names) ++ args.flatMap Operand.names := by
    split <;> rfl
  rw [call, List.flatMap_append, List.flatMap_append, pushed, flatMap_reads_operands, Instr.reads, own]
  simp [reads, CodeStep.read?]

theorem reads_new {ty : Ty} {args : List Operand} (whole : Whole (new u ty args)) :
  (new u ty args).flatMap reads = args.flatMap Operand.names
  := by
  cases ty with
  | array elem =>
      match args with
      | [] => rfl
      | [length] => cases elem <;> simp [new, reads, newArray, CodeStep.read?]
      | _ :: _ :: _ => cases whole _ List.mem_cons_self
  | int | bool | string | void | object =>
      cases args with
      | nil => rfl
      | cons => cases whole _ List.mem_cons_self

/-- An expression reads the names of its operands. -/
theorem reads_expr (whole : Whole (expr u n i)) :
  (expr u n i).flatMap reads = i.reads.flatMap Operand.names
  := by
  cases i with
  | binary op lhs rhs ty =>
      rw [expr, reads_binary whole]
      simp [Instr.reads]
  | unary op e ty => cases op <;> simp [expr, unary, reads, CodeStep.read?, Instr.reads]
  | call kind owner method args result => apply reads_call
  | new ty args => apply reads_new whole
  | single | getField | arrayLength => simp [expr, reads, CodeStep.read?, Instr.reads]
  | assign | ret | putField | goto | branch => cases whole _ List.mem_cons_self

/-- Every expression has a step. -/
theorem expr_ne_nil (i : Instr) :
  expr u n i ≠ []
  := by
  cases i with
  | binary op lhs rhs ty => cases op <;> simp [expr, binary, choose]
  | unary op e ty => cases op <;> simp [expr, unary]
  | call => simp [expr, call]
  | new ty args =>
      simp only [expr, new]
      split <;> simp
  | single | getField | arrayLength | assign | ret | putField | goto | branch => simp [expr]

theorem writes_compare :
  (compare op lhs rhs label).filterMap (own CodeStep.written?) = []
  := by
  unfold compare
  repeat' split
  all_goals rfl

/-- An expression writes no variable. -/
theorem writes_expr (i : Instr) :
  (expr u n i).filterMap (own CodeStep.written?) = []
  := by
  cases i with
  | binary op lhs rhs ty =>
      cases op with
      | add | sub | mul | div | and | or => rfl
      | lt | gt | le | ge | eq | ne =>
          rw [expr, binary, List.filterMap_append, writes_compare]
          rfl
  | unary op e ty => cases op <;> rfl
  | call kind owner method args result =>
      have pushed : (receiver kind owner).filterMap (own CodeStep.written?) = [] := by
        cases kind <;> cases owner <;> rfl
      rw [expr, call, List.filterMap_append, List.filterMap_append, pushed, filterMap_own_operands]
      rfl
  | new ty args =>
      simp only [expr, new]
      split
      · next elem length => cases elem <;> rfl
      · rfl
      · rfl
      · rfl
  | single | getField | arrayLength | assign | ret | putField | goto | branch => rfl

/-- An expression that has to leave a value reads the same. -/
theorem reads_value (whole : Whole (value u n i)) :
  (value u n i).flatMap reads = i.reads.flatMap Operand.names
  := by
  rw [value, List.flatMap_append, reads_expr whole.left]
  cases i.leavesValue <;> simp [reads, CodeStep.read?]

theorem writes_value (i : Instr) :
  (value u n i).filterMap (own CodeStep.written?) = []
  := by
  rw [value, List.filterMap_append, writes_expr]
  cases i.leavesValue <;> rfl

/-- An expression whose value is dropped reads the same. -/
theorem reads_discard (whole : Whole (discard u n i)) :
  (discard u n i).flatMap reads = i.reads.flatMap Operand.names
  := by
  rw [discard, List.flatMap_append, reads_expr whole.left]
  cases i.leavesValue <;> simp [reads, CodeStep.read?]

theorem writes_discard (i : Instr) :
  (discard u n i).filterMap (own CodeStep.written?) = []
  := by
  rw [discard, List.filterMap_append, writes_expr]
  cases i.leavesValue <;> rfl

/-- An assignment to an element reads its array and its index before the value. -/
theorem reads_store {dest : Operand} {rhs : Instr} (ty : Ty) (whole : Whole (store u n dest rhs)) :
  ((store u n dest rhs).flatMap reads).Perm ((Instr.assign dest ty rhs).reads.flatMap Operand.names)
  := by
  cases dest with
  | literal => cases whole _ List.mem_cons_self
  | var name ty' =>
      rw [store, List.flatMap_append, reads_value whole.left]
      simp [reads, CodeStep.read?, Instr.reads]
  | item name index ty' =>
      have own : (Instr.assign (.item name index ty') ty rhs).reads.flatMap Operand.names
          = rhs.reads.flatMap Operand.names ++ name :: index.names := by
        simp [Instr.reads, Operand.names_item]
      have script : (store u n (.item name index ty') rhs).flatMap reads
          = name :: index.names ++ rhs.reads.flatMap Operand.names := by
        rw [store, List.flatMap_append, List.flatMap_append, reads_value whole.left.right]
        simp [reads, CodeStep.read?]
      rw [own, script]
      apply List.perm_append_comm

/-- An assignment reads the names of its instruction, in place or not. -/
theorem reads_assign {dest : Operand} {rhs : Instr} (ty : Ty) (whole : Whole (assign u n dest rhs)) :
  ((assign u n dest rhs).flatMap reads).Perm ((Instr.assign dest ty rhs).reads.flatMap Operand.names)
  := by
  unfold assign at whole ⊢
  cases found : Site.increment? dest rhs with
  | some named =>
      obtain ⟨rfl, value, ty', ty'', -, rfl | rfl⟩ := increment?_eq_some found <;> rfl
  | none =>
      rw [found] at whole
      apply reads_store ty whole

/-- An assignment writes its variable, and an array element none. -/
theorem writes_assign (dest : Operand) (ty : Ty) (rhs : Instr) :
  (assign u n dest rhs).filterMap (own CodeStep.written?) = (Instr.assign dest ty rhs).written
  := by
  unfold assign
  cases found : Site.increment? dest rhs with
  | some named =>
      obtain ⟨rfl, -⟩ := increment?_eq_some found
      rfl
  | none =>
      cases dest with
      | literal => rfl
      | var name ty' =>
          dsimp only
          rw [store, List.filterMap_append, writes_value]
          rfl
      | item name index ty' =>
          dsimp only
          rw [store, List.filterMap_append, List.filterMap_append, writes_value]
          rfl

/-- A conditional jump reads the operands of its condition. -/
theorem reads_branch {cond : Condition} (whole : Whole (branch n cond label)) :
  (branch n cond label).flatMap reads = cond.operands.flatMap Operand.names
  := by
  cases cond with
  | compare op lhs rhs =>
      cases op with
      | and => simp [branch, reads, CodeStep.read?, Condition.operands]
      | or => simp [branch, either, reads, CodeStep.read?, Condition.operands]
      | add | sub | mul | div | lt | gt | le | ge | eq | ne =>
          simp only [branch] at whole ⊢
          rw [reads_compare whole]
          simp [Condition.operands]
  | not e | test e => simp [branch, reads, CodeStep.read?, Condition.operands]

theorem writes_branch (cond : Condition) :
  (branch n cond label).filterMap (own CodeStep.written?) = []
  := by
  cases cond with
  | compare op lhs rhs =>
      cases op with
      | and | or => rfl
      | add | sub | mul | div | lt | gt | le | ge | eq | ne =>
          simp only [branch]
          apply writes_compare
  | not e | test e => rfl

end Script

namespace Instr

open Phrase

variable {u : ClassUnit} {n : Nat} {i : Instr}

/-- The code of an instruction reads the variables of its operands. -/
theorem reads_script (whole : Whole (i.script u n)) :
  ((i.script u n).flatMap Phrase.reads).Perm (i.reads.flatMap Operand.names)
  := by
  cases i with
  | assign dest ty rhs => apply Script.reads_assign ty whole
  | ret ty value =>
      cases value with
      | some e => simp [script, Script.ret, Phrase.reads, CodeStep.read?, reads]
      | none =>
          simp only [script, Script.ret]
          split <;> rfl
  | goto label => rfl
  | branch cond label => rw [script, Script.reads_branch whole]; rfl
  | putField => simp [script, Phrase.reads, CodeStep.read?, reads]
  | single | binary | unary | call | new | getField | arrayLength => rw [script, Script.reads_discard whole]

/-- The code of an instruction writes to the variable that the instruction writes. -/
theorem writes_script (i : Instr) :
  (i.script u n).filterMap (own CodeStep.written?) = i.written
  := by
  cases i with
  | assign dest ty rhs => apply Script.writes_assign
  | ret ty value =>
      cases value with
      | some e => rfl
      | none =>
          simp only [script, Script.ret]
          split <;> rfl
  | goto label => rfl
  | branch cond label => apply Script.writes_branch
  | putField => rfl
  | single | binary | unary | call | new | getField | arrayLength => apply Script.writes_discard

/-- Every instruction has a step. -/
theorem script_ne_nil (i : Instr) :
  i.script u n ≠ []
  := by
  cases i with
  | assign dest ty rhs =>
      simp only [script, Script.assign]
      split
      · simp
      · cases dest <;> simp [Script.store]
  | ret ty value =>
      simp only [script, Script.ret]
      repeat' split
      all_goals simp
  | goto label => simp [script]
  | branch cond label =>
      cases cond with
      | compare op lhs rhs =>
          cases op <;> simp only [script, Script.branch, Script.either, Script.compare]
          all_goals repeat' split
          all_goals simp
      | not e | test e => simp [script, Script.branch]
  | putField => simp [script]
  | single | binary | unary | call | new | getField | arrayLength =>
      apply List.append_ne_nil_of_left_ne_nil
      apply Script.expr_ne_nil

/-- The code of an instruction has a last phrase, and no phrase before it writes to a slot. -/
theorem script_ends (i : Instr) :
  ∃ init last, i.script u n = init ++ [last] ∧ init.filterMap (own CodeStep.written?) = []
  := by
  have ends (none : i.written = []) :
      ∃ init last, i.script u n = init ++ [last] ∧ init.filterMap (own CodeStep.written?) = [] := by
    have silent := writes_script (u := u) (n := n) i
    have split := List.dropLast_concat_getLast (i.script_ne_nil (u := u) (n := n))
    use (i.script u n).dropLast, (i.script u n).getLast i.script_ne_nil, split.symm
    rw [none, ← split, List.filterMap_append, List.append_eq_nil_iff] at silent
    apply silent.1
  cases i with
  | assign dest ty rhs =>
      cases dest with
      | var name ty' =>
          simp only [script, Script.assign]
          split
          · next name v _ =>
              use [], .one (.inc name v), rfl
              rfl
          · use Script.value u n rhs, .one (.store (.ofTy ty') name), rfl
            apply Script.writes_value
      | literal | item => apply ends rfl
  | _ => apply ends rfl

end Instr

theorem Operand.steps_ne_nil (e : Operand) :
  e.steps ≠ []
  := by
  cases e with
  | literal value ty =>
      rw [steps]
      split <;> simp
  | var | item => simp [steps]

/-- Of the steps of a phrase only the last one may write a variable. -/
theorem Phrase.steps_ends (phrase : Phrase) :
  ∃ init last, phrase.steps = init ++ [last] ∧ init.filterMap CodeStep.written? = []
  := by
  cases phrase with
  | one step =>
      use [], step, rfl
      rfl
  | operand e =>
      use e.steps.dropLast, e.steps.getLast e.steps_ne_nil, (List.dropLast_concat_getLast _).symm
      rw [List.filterMap_eq_nil_iff]
      intro step mem
      cases e.pushes_of_mem (List.mem_of_mem_dropLast mem) <;> rfl

/-! ### Slots read and written -/

namespace Site

variable {site : Site} {s t : LabelSupply} {ls : List Line} {r : Unit}

/-- The code of an instruction reads the slots of the variables it reads, each as often as it stands there. -/
theorem lower_reads (w : site.lower.Writes s ls r t) :
  ((ls.filterMap Line.readSlot?).map some).Perm
    ((site.instr.reads.flatMap Operand.names).map site.method.slotOf)
  := by
  obtain ⟨writes, -⟩ := lower_writes w
  rw [writes.reads_eq, Phrase.reads_steps]
  apply List.Perm.map
  apply Instr.reads_script (.of_writesAll writes)

/-- The code of an instruction writes to the slot of the variable it writes. -/
theorem lower_written (w : site.lower.Writes s ls r t) :
  (ls.filterMap Line.writtenSlot?).map some = site.instr.written.map site.method.slotOf
  := by
  obtain ⟨writes, -⟩ := lower_writes w
  rw [writes.written_eq, Phrase.filterMap_steps, Instr.writes_script]
  intro step pushes
  cases pushes <;> rfl

/-- Lines touch a slot exactly when it is the place of one of the variables listed. -/
theorem exists_line_iff {touch : Line → Option Nat} {locate : String → Option Nat} {xs : List String}
    (listed : ((ls.filterMap touch).map some).Perm (xs.map locate)) {slot : Nat} :
  (∃ line ∈ ls, touch line = some slot) ↔ ∃ x ∈ xs, locate x = some slot
  := by
  have same := listed.mem_iff (a := some slot)
  simpa using same

/-- A name that is touched has a slot. -/
theorem exists_place {touch : Line → Option Nat} {locate : String → Option Nat} {xs : List String}
    (listed : ((ls.filterMap touch).map some).Perm (xs.map locate)) {x : String} (mem : x ∈ xs) :
  ∃ slot, locate x = some slot
  := by
  have touched := listed.mem_iff.2 (List.mem_map_of_mem mem)
  obtain ⟨slot, -, found⟩ := List.mem_map.1 touched
  use slot, found.symm

/-- The slots that the code of an instruction reads are those of the variables that it reads. -/
theorem exists_readSlot_iff (w : site.lower.Writes s ls r t) {slot : Nat} :
  (∃ line ∈ ls, line.readSlot? = some slot) ↔ ∃ x ∈ site.instr.uses, site.method.slotOf x = some slot
  := by
  rw [exists_line_iff (lower_reads w)]
  simp only [Instr.mem_uses, List.mem_flatMap]

/-- The slots that the code of an instruction writes are those of the variables that it writes. -/
theorem exists_writtenSlot_iff (w : site.lower.Writes s ls r t) {slot : Nat} :
  (∃ line ∈ ls, line.writtenSlot? = some slot) ↔ ∃ x ∈ site.instr.defs, site.method.slotOf x = some slot
  := by
  rw [exists_line_iff (.of_eq (lower_written w))]
  simp only [Instr.mem_written]

/-- Variables that an instruction with code reads or writes have slots. -/
theorem exists_slotOf (w : site.lower.Writes s ls r t) {x : String}
    (mentioned : x ∈ site.instr.uses ∨ x ∈ site.instr.defs) :
  ∃ slot, site.method.slotOf x = some slot
  := by
  obtain used | defined := mentioned
  · apply exists_place (lower_reads w) (List.mem_flatMap.2 (Instr.mem_uses.1 used))
  · apply exists_place (.of_eq (lower_written w)) (Instr.mem_written.2 defined)

/-- The code of an instruction has a last line, and no line before it writes to a slot. -/
theorem lower_ends (w : site.lower.Writes s ls r t) :
  ∃ init last, ls = init ++ [last] ∧ init.filterMap Line.writtenSlot? = []
  := by
  obtain ⟨writes, -⟩ := lower_writes w
  obtain ⟨init, last, script, silent⟩ := site.instr.script_ends (u := site.unit) (n := s.number site.instr.stems)
  obtain ⟨init', last', steps, silent'⟩ := last.steps_ends
  rw [script, List.flatMap_append, List.flatMap_singleton, steps, ← List.append_assoc] at writes
  obtain ⟨lines, line, rfl, before⟩ := writes.of_concat
  use lines, line, rfl
  have none := before.written_eq
  rw [List.filterMap_append, silent', Phrase.filterMap_steps, silent] at none
  · simpa using none
  · intro step pushes
    cases pushes <;> rfl

end Site

/-- When an instruction has code, the slots that its lines read are the slots of the variables that it reads
by the analysis of live variables, and the slots that its lines write are those of the variables that
it writes. All these variables have slots. -/
theorem lower_slots_eq_uses_defs (site : Site) {s t : LabelSupply} {ls : List Line}
    (w : site.lower.Writes s ls () t) :
  (∀ slot, (∃ line ∈ ls, line.readSlot? = some slot)
      ↔ ∃ x ∈ site.instr.uses, site.method.slotOf x = some slot)
    ∧ (∀ slot, (∃ line ∈ ls, line.writtenSlot? = some slot)
      ↔ ∃ x ∈ site.instr.defs, site.method.slotOf x = some slot)
    ∧ ∀ x, x ∈ site.instr.uses ∨ x ∈ site.instr.defs → ∃ slot, site.method.slotOf x = some slot
  := by
  split_ands
  · intro slot
    apply Site.exists_readSlot_iff w
  · intro slot
    apply Site.exists_writtenSlot_iff w
  · intro x
    apply Site.exists_slotOf w

/-- An instruction that replaces a variable by the item of an array at it. -/
def followLink : Site where
  unit := ⟨"Chain", none, [], [], []⟩
  method := {
    name := "follow"
    access := .everyone
    isStatic := true
    isConstructor := false
    params := [⟨"next", .array .int⟩, ⟨"at", .int⟩]
    ret := .int
    body := [.assign (.var "at" .int) .int (.single (.item "next" (.var "at" .int) .int))]
    labels := []
    vars := Std.ExtTreeMap.ofList
      [("next", Variable.mk .parameter 0 (.array .int)), ("at", Variable.mk .parameter 1 .int)]
  }
  instr := .assign (.var "at" .int) .int (.single (.item "next" (.var "at" .int) .int))

/-- The link of an array that is followed in place: the array and the index are read, and the index is
written. -/
theorem followLink_slots_eq_uses_defs :
  followLink.lower.Writes (.ofLabels [])
      [.inst (.load .ref 0), .inst (.load .int 1), .inst (.arrayLoad .int), .inst (.store .int 1)] ()
      (.ofLabels [])
    ∧ (∃ x ∈ followLink.instr.uses, followLink.method.slotOf x = some 0)
    ∧ (∃ x ∈ followLink.instr.uses, followLink.method.slotOf x = some 1)
    ∧ ¬ (∃ x ∈ followLink.instr.defs, followLink.method.slotOf x = some 0)
    ∧ ∃ x ∈ followLink.instr.defs, followLink.method.slotOf x = some 1
  := by
  have coded : followLink.lower.Writes (.ofLabels [])
      [.inst (.load .ref 0), .inst (.load .int 1), .inst (.arrayLoad .int), .inst (.store .int 1)] ()
      (.ofLabels []) := rfl
  obtain ⟨reads, writes, -⟩ := lower_slots_eq_uses_defs followLink coded
  use coded
  rw [← reads 0, ← reads 1, ← writes 0, ← writes 1]
  decide

end StackBackend
