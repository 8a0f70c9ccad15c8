import StackBackend.Lowering.ClassCode
import StackBackend.Proofs.Assembly.Balance
import StackBackend.Proofs.Assembly.LabelSupply
import StackBackend.Proofs.Execution.Machine
import StackBackend.Proofs.Lowering.Script

/-!
# The labels, the jumps and the ends of lowered code

The labels among the code of an instruction are those that are made for it, each of them once, in the order
in which they are made. A jump in the code goes to one of them, or to the label that the instruction itself
jumps to. Unless the instruction itself leaves, control comes out at the end of its code: the last line
that control does not pass is followed by a label.
-/

namespace StackBackend

theorem Inst.isTerminator_push (v : Int) :
  (push v).isTerminator = false
  := (push_pops v).2.2.2.2

theorem Inst.jumpLabel?_push (v : Int) :
  (push v).jumpLabel? = none
  := (push_pops v).2.2.2.1

/-! ### Labels that are made -/

/-- The labels among the lines are new in the supply `s`, differ from each other, and are in use in
the supply `t`, which keeps all that is in use in `s`. -/
structure FreshLabels (s : LabelSupply) (ls : List Line) (t : LabelSupply) : Prop where
  nodup : (Line.labelNames ls).Nodup
  new : ∀ l ∈ Line.labelNames ls, l ∉ s.reserved
  used : ∀ l ∈ Line.labelNames ls, l ∈ t.reserved
  grows : ∀ l ∈ s.reserved, l ∈ t.reserved

namespace FreshLabels

variable {s t : LabelSupply} {ls : List Line}

/-- Lines without labels, whatever the supply has made. -/
theorem of_none (h : Line.labelNames ls = []) (grows : ∀ l ∈ s.reserved, l ∈ t.reserved) :
  FreshLabels s ls t
  := by
  constructor
  · simp [h]
  · simp [h]
  · simp [h]
  · apply grows

/-- Lines whose labels are made together, of different stems. -/
theorem of_fresh {stems : List String} (fresh : s.fresh stems = (Line.labelNames ls, t))
    (nodup : stems.Nodup) :
  FreshLabels s ls t
  := by
  constructor
  · apply LabelSupply.nodup_of_fresh fresh nodup
  · intro l hl
    apply LabelSupply.not_mem_of_fresh fresh hl
  · intro l hl
    apply (LabelSupply.mem_reserved_of_fresh fresh).2
    left
    apply hl
  · intro l used
    apply (LabelSupply.mem_reserved_of_fresh fresh).2
    right
    apply used

end FreshLabels

/-- The labels are made one call after the other, from the supply `s` to the supply `t`. -/
inductive LabelSupply.Makes : LabelSupply → List String → LabelSupply → Prop
  | none (s : LabelSupply) : Makes s [] s
  | call {s t t' : LabelSupply} {stems labels names : List String} (fresh : s.fresh stems = (labels, t))
      (rest : Makes t names t') : Makes s (labels ++ names) t'

/-- Labels that are made together. -/
theorem LabelSupply.Makes.one {s t : LabelSupply} {stems labels : List String} (fresh : s.fresh stems = (labels, t)) :
  Makes s labels t
  := by
  have made := Makes.call fresh (.none t)
  rwa [List.append_nil] at made

/-! ### Labels that are jumped to -/

/-- The label that a line jumps to. -/
def Line.jumpName? : Line → Option String
  | .label _ => none
  | .inst i => i.jumpLabel?

/-- The labels that lines jump to, in order. -/
def Line.jumpNames (lines : List Line) : List String := lines.filterMap Line.jumpName?

/-- The labels among the lines are made from the supply `s`, which leaves `t`, and each jump goes to one of
them or to a label in `T`. -/
structure Routed (T : String → Prop) (s : LabelSupply) (ls : List Line) (t : LabelSupply) : Prop where
  made : s.Makes (Line.labelNames ls) t
  jumps : ∀ label ∈ Line.jumpNames ls, T label ∨ label ∈ Line.labelNames ls

/-! ### Steps -/

namespace CodeStep

/-- The label that a step writes. -/
def label? : CodeStep → Option String
  | label name => some name
  | _ => none

/-- The label that the line of a step jumps to. -/
def jump? : CodeStep → Option String
  | inst i _ => i.jumpLabel?
  | _ => none

/-- Whether control is known not to come to the end of a step, when `b` says so of its beginning. -/
def ended (b : Bool) : CodeStep → Bool
  | label _ => false
  | inst i _ => b || i.isTerminator
  | _ => b

variable {m : Method} {step : CodeStep} {line : Line}

/-- The line of a step is a label if the step is. -/
theorem Writes.label_eq (writes : step.Writes m line) :
  line.labelName? = step.label?
  := by
  cases writes <;> rfl

/-- The line of a step jumps where the step does. -/
theorem Writes.jump_eq (writes : step.Writes m line) :
  line.jumpName? = step.jump?
  := by
  cases writes with
  | push v => apply Inst.jumpLabel?_push
  | number read => apply Inst.jumpLabel?_push
  | inst | load | store | inc | label => rfl

/-- The line of a step ends control if the step does. -/
theorem Writes.ended_eq (writes : step.Writes m line) (b : Bool) :
  Line.ended b [line] = step.ended b
  := by
  cases writes with
  | push v => simp [ended, Inst.isTerminator_push]
  | number read => simp [ended, Inst.isTerminator_push]
  | load found => simp [ended, Inst.isTerminator]
  | store found => simp [ended, Inst.isTerminator]
  | inc found => simp [ended, Inst.isTerminator]
  | inst | label => rfl

variable {steps : List CodeStep} {ls : List Line}

/-- The labels among lines are those of their steps. -/
theorem WritesAll.labelNames_eq (writes : WritesAll m steps ls) :
  Line.labelNames ls = steps.filterMap label?
  := by
  apply writes.filterMap_eq
  intro step line
  apply Writes.label_eq

/-- The jumps among lines are those of their steps. -/
theorem WritesAll.jumpNames_eq (writes : WritesAll m steps ls) :
  Line.jumpNames ls = steps.filterMap jump?
  := by
  apply writes.filterMap_eq
  intro step line
  apply Writes.jump_eq

/-- Whether lines end control is told by their steps. -/
theorem WritesAll.ended_eq (writes : WritesAll m steps ls) (b : Bool) :
  Line.ended b ls = steps.foldl ended b
  := by
  induction writes generalizing b with
  | nil => rfl
  | cons first _ ih => rw [List.foldl_cons, ← first.ended_eq, ← ih, ← Line.ended_append, List.singleton_append]

end CodeStep

/-! ### Scripts -/

namespace Phrase

/-- Whether a phrase neither writes a label nor jumps nor leaves. -/
def isPlain : Phrase → Bool
  | operand _ => true
  | one (.inst i _) => i.jumpLabel?.isNone && !i.isTerminator
  | one (.label _) => false
  | one _ => true

/-- Whether control is known not to come to the end of a phrase, when `b` says so of its beginning. -/
def ended (b : Bool) : Phrase → Bool
  | operand _ => b
  | one step => step.ended b

/-- Pushing an operand does not end control. -/
theorem ended_operand (e : Operand) (b : Bool) :
  e.steps.foldl CodeStep.ended b = b
  := by
  have stays (step : CodeStep) (mem : step ∈ e.steps) : step.ended b = b := by
    cases e.pushes_of_mem mem <;> simp [CodeStep.ended, Inst.isTerminator]
  generalize e.steps = steps at stays
  induction steps with
  | nil => rfl
  | cons step steps ih =>
      rw [List.forall_mem_cons] at stays
      rw [List.foldl_cons, stays.1]
      apply ih stays.2

/-- Whether control has ended is counted phrase by phrase. -/
theorem ended_steps (script : List Phrase) (b : Bool) :
  (script.flatMap steps).foldl CodeStep.ended b = script.foldl ended b
  := by
  have same (b : Bool) (phrase : Phrase) : phrase.steps.foldl CodeStep.ended b = phrase.ended b := by
    cases phrase with
    | operand e => apply ended_operand
    | one step => rfl
  simp only [List.foldl_flatMap, same]

variable {phrase : Phrase} {script script' : List Phrase}

/-- A plain phrase is no label. -/
theorem label?_of_isPlain (plain : phrase.isPlain = true) :
  phrase.own CodeStep.label? = none
  := by
  cases phrase with
  | operand e => rfl
  | one step => cases step <;> first | rfl | cases plain

theorem jump?_of_isPlain (plain : phrase.isPlain = true) :
  phrase.own CodeStep.jump? = none
  := by
  cases phrase with
  | operand e => rfl
  | one step => cases step <;> simp_all [isPlain, own, CodeStep.jump?]

/-- A plain phrase does not end control. -/
theorem ended_of_isPlain (plain : phrase.isPlain = true) (b : Bool) :
  phrase.ended b = b
  := by
  cases phrase with
  | operand e => rfl
  | one step => cases step <;> simp_all [isPlain, ended, CodeStep.ended]

/-- Nor do plain phrases in a row. -/
theorem ended_of_plain (plain : script.all isPlain = true) (b : Bool) :
  script.foldl ended b = b
  := by
  induction script with
  | nil => rfl
  | cons phrase script ih =>
      rw [List.all_cons, Bool.and_eq_true] at plain
      rw [List.foldl_cons, ended_of_isPlain plain.1]
      apply ih plain.2

/-- The labels of the script are those named, and it jumps to one of them or to a label in `T`. -/
structure Routes (T : String → Prop) (names : List String) (script : List Phrase) : Prop where
  labels : script.filterMap (own CodeStep.label?) = names
  jumps : ∀ label ∈ script.filterMap (own CodeStep.jump?), T label ∨ label ∈ names

variable {T : String → Prop} {names names' : List String}

/-- Plain phrases have no labels and no jumps. -/
theorem Routes.of_plain (plain : script.all isPlain = true) :
  Routes T [] script
  := by
  rw [List.all_eq_true] at plain
  constructor
  · rw [List.filterMap_eq_nil_iff]
    intro phrase mem
    apply label?_of_isPlain (plain phrase mem)
  · intro label mem
    obtain ⟨phrase, mem, jumps⟩ := List.mem_filterMap.1 mem
    rw [jump?_of_isPlain (plain phrase mem)] at jumps
    cases jumps

/-- Scripts in a row, with the labels of both. -/
theorem Routes.append (first : Routes T names script) (second : Routes T names' script') :
  Routes T (names ++ names') (script ++ script')
  := by
  constructor
  · rw [List.filterMap_append, first.labels, second.labels]
  · intro label mem
    rw [List.filterMap_append, List.mem_append] at mem
    rw [List.mem_append]
    obtain mem | mem := mem
    · apply (first.jumps label mem).imp_right
      apply Or.inl
    · apply (second.jumps label mem).imp_right
      apply Or.inr

/-- Plain phrases after a script change nothing. -/
theorem Routes.before {after : List Phrase} (routes : Routes T names script) (plain : after.all isPlain = true) :
  Routes T names (script ++ after)
  := by
  have whole := routes.append (of_plain plain)
  rwa [List.append_nil] at whole

/-- Plain phrases around a script change nothing. -/
theorem Routes.between {first last : List Phrase} (routes : Routes T names script)
    (plain : first.all isPlain = true) (plain' : last.all isPlain = true) :
  Routes T names (first ++ script ++ last)
  := by
  apply Routes.before _ plain'
  apply (of_plain plain).append routes

end Phrase

namespace Script

open CodeStep Phrase

variable {op : BinaryOp} {lhs rhs : Operand} {label : String} {u : ClassUnit} {n : Nat} {T : String → Prop}

/-- The code of an expression that makes no label. -/
theorem plain_expr {i : Instr} (straight : i.exprStems = []) :
  (expr u n i).all isPlain = true
  := by
  cases i with
  | binary op lhs rhs ty =>
      cases op with
      | add | sub | mul | div => rfl
      | and | or | lt | gt | le | ge | eq | ne => cases straight
  | unary op e ty => cases op <;> rfl
  | call kind owner method args result =>
      have receiver : (receiver kind owner).all isPlain = true := by
        cases kind <;> cases owner <;> rfl
      have operands : (args.map Phrase.operand).all isPlain = true := by simp [isPlain]
      rw [expr, call, List.all_append, List.all_append, receiver, operands]
      rfl
  | new ty args =>
      simp only [expr, new]
      split
      · next elem length => cases elem <;> rfl
      · rfl
      · rfl
      · rfl
  | single | getField | arrayLength | assign | ret | putField | goto | branch => rfl

/-- A comparison jumps to its target. -/
theorem routes_compare (target : T label) :
  Routes T [] (compare op lhs rhs label)
  := by
  unfold compare
  repeat' split
  all_goals
    constructor
    · rfl
    · simp [own, jump?, Inst.jumpLabel?, target]

theorem routes_either {cond : Cond} (target : T label) :
  Routes T [] (either cond lhs rhs label)
  := by
  constructor
  · rfl
  · simp [either, own, jump?, Inst.jumpLabel?, target]

/-- A decision that is made into one of two integers jumps to the two labels that are made for it. -/
theorem routes_chosen {code : List Phrase} {target stop : String} (routes : Routes (· = target) [] code)
    (here there : Int) :
  Routes T [target, stop] (code ++ choose here there target stop)
  := by
  constructor
  · rw [List.filterMap_append, routes.labels]
    rfl
  · intro label mem
    right
    rw [List.filterMap_append, List.mem_append] at mem
    obtain mem | mem := mem
    · obtain rfl | none := routes.jumps label mem
      · apply List.mem_cons_self
      · cases none
    · apply List.mem_cons_of_mem target mem

/-- A comparison goes on if it does not hold. -/
theorem ended_compare (b : Bool) :
  (compare op lhs rhs label).foldl Phrase.ended b = b
  := by
  unfold compare
  repeat' split
  all_goals simp [Phrase.ended, CodeStep.ended, Inst.isTerminator]

/-- The code of an expression jumps to the labels that it makes. -/
theorem routes_expr (i : Instr) :
  Routes T (i.exprStems.map (LabelSupply.numbered · n)) (expr u n i)
  := by
  cases i with
  | binary op lhs rhs ty =>
      cases op with
      | add | sub | mul | div => apply Routes.of_plain rfl
      | and | or => apply routes_chosen (routes_either rfl)
      | lt | gt | le | ge | eq | ne => apply routes_chosen (routes_compare rfl)
  | single | unary | call | new | getField | arrayLength | assign | ret | putField | goto | branch =>
      apply Routes.of_plain (plain_expr rfl)

/-- The code of an expression comes to its end. -/
theorem ended_expr (i : Instr) :
  (expr u n i).foldl Phrase.ended false = false
  := by
  cases i with
  | binary op lhs rhs ty =>
      cases op with
      | add | sub | mul | div | and | or => rfl
      | lt | gt | le | ge | eq | ne =>
          rw [expr, binary, List.foldl_append, ended_compare]
          rfl
  | single | unary | call | new | getField | arrayLength | assign | ret | putField | goto | branch =>
      apply ended_of_plain (plain_expr rfl)

theorem routes_value (i : Instr) :
  Routes T (i.exprStems.map (LabelSupply.numbered · n)) (value u n i)
  := by
  apply (routes_expr i).before
  cases i.leavesValue <;> rfl

theorem ended_value (i : Instr) :
  (value u n i).foldl Phrase.ended false = false
  := by
  rw [value, List.foldl_append, ended_expr]
  cases i.leavesValue <;> rfl

theorem routes_discard (i : Instr) :
  Routes T (i.exprStems.map (LabelSupply.numbered · n)) (discard u n i)
  := by
  apply (routes_expr i).before
  cases i.leavesValue <;> rfl

theorem ended_discard (i : Instr) :
  (discard u n i).foldl Phrase.ended false = false
  := by
  rw [discard, List.foldl_append, ended_expr]
  cases i.leavesValue <;> rfl

/-- An assignment has the labels of its right side. -/
theorem routes_assign (dest : Operand) (ty : Ty) (rhs : Instr) :
  Routes T ((Instr.assign dest ty rhs).stems.map (LabelSupply.numbered · n)) (assign u n dest rhs)
  := by
  unfold assign
  split
  · next found =>
      obtain ⟨rfl, value, ty, ty', -, rfl | rfl⟩ := increment?_eq_some found <;> apply Routes.of_plain rfl
  · cases dest with
    | literal => apply Routes.of_plain rfl
    | var name ty => apply (routes_value rhs).before rfl
    | item name index ty => apply (routes_value rhs).between rfl rfl

theorem ended_assign (dest : Operand) (rhs : Instr) :
  (assign u n dest rhs).foldl Phrase.ended false = false
  := by
  unfold assign
  split
  · rfl
  · cases dest with
    | literal => rfl
    | var name ty =>
        rw [store, List.foldl_append, ended_value]
        rfl
    | item name index ty =>
        have before (rest : List Phrase) :
            (.one (.load .ref name) :: .operand index :: rest).foldl Phrase.ended false
              = rest.foldl Phrase.ended false := rfl
        rw [store, List.append_assoc, List.cons_append, List.cons_append, before, List.nil_append,
          List.foldl_append, ended_value]
        rfl

/-- A conditional jump goes to its label, and by a label of its own over it. -/
theorem routes_branch (cond : Condition) (target : T label) :
  Routes T ((Instr.branch cond label).stems.map (LabelSupply.numbered · n)) (branch n cond label)
  := by
  cases cond with
  | compare op lhs rhs =>
      cases op with
      | and =>
          constructor
          · rfl
          · intro l mem
            obtain rfl | rfl : l = LabelSupply.numbered "j_skip" n ∨ l = label := by
              simpa [branch, own, jump?, Inst.jumpLabel?, eq_comm] using mem
            · right
              apply List.mem_cons_self
            · left
              apply target
      | or => apply routes_either target
      | add | sub | mul | div | lt | gt | le | ge | eq | ne =>
          simp only [branch]
          apply routes_compare target
  | not e | test e =>
      constructor
      · rfl
      · simp [branch, own, jump?, Inst.jumpLabel?, target]

/-- A conditional jump may go on. -/
theorem ended_branch (cond : Condition) :
  (branch n cond label).foldl Phrase.ended false = false
  := by
  cases cond with
  | compare op lhs rhs =>
      cases op with
      | and | or => rfl
      | add | sub | mul | div | lt | gt | le | ge | eq | ne =>
          simp only [branch]
          apply ended_compare
  | not e | test e => rfl

end Script

namespace Instr

open Phrase

variable {u : ClassUnit} {n : Nat}

/-- The code of an instruction jumps to the labels made for it and to the label of the instruction. -/
theorem routes_script (i : Instr) :
  Routes (i.jumpLabel? = some ·) (i.stems.map (LabelSupply.numbered · n)) (i.script u n)
  := by
  have discarded : Routes (i.jumpLabel? = some ·) (i.exprStems.map (LabelSupply.numbered · n))
    (Script.discard u n i) := Script.routes_discard i
  cases i with
  | assign dest ty rhs => apply Script.routes_assign
  | ret ty value =>
      cases value with
      | some e =>
          constructor
          · rfl
          · intro label mem
            cases mem
      | none =>
          simp only [script, Script.ret]
          split
          · constructor
            · rfl
            · intro label mem
              cases mem
          · apply Routes.of_plain rfl
  | goto label =>
      constructor
      · rfl
      · intro l mem
        left
        rw [List.mem_singleton.1 mem]
        rfl
  | branch cond label =>
      apply Script.routes_branch cond
      rfl
  | putField => apply Routes.of_plain rfl
  | single | binary | unary | call | new | getField | arrayLength => apply discarded

/-- Unless an instruction leaves, control comes out at the end of its code. -/
theorem ended_script {i : Instr} (stays : i.leaves = false) :
  (i.script u n).foldl ended false = false
  := by
  cases i with
  | assign dest ty rhs => apply Script.ended_assign
  | ret | goto => cases stays
  | branch cond label => apply Script.ended_branch
  | putField => rfl
  | single | binary | unary | call | new | getField | arrayLength => apply Script.ended_discard

end Instr

/-! ### Instructions -/

/-- The labels of an operation have different stems. -/
theorem BinaryOp.nodup_stems (op : BinaryOp) :
  op.stems.Nodup
  := by
  cases op <;> decide

theorem Instr.nodup_exprStems (i : Instr) :
  i.exprStems.Nodup
  := by
  cases i with
  | binary op => apply op.nodup_stems
  | _ => apply List.nodup_nil

/-- So have those of an instruction. -/
theorem Instr.nodup_stems (i : Instr) :
  i.stems.Nodup
  := by
  unfold stems
  split
  · apply List.nodup_nil
  · apply nodup_exprStems
  · simp
  · apply nodup_exprStems

namespace Site

variable {site : Site} {s t : LabelSupply} {ls : List Line} {r : Unit}

/-- The labels of the code of an instruction are those that are made of its stems. -/
theorem lower_labelNames (w : site.lower.Writes s ls r t) :
  Line.labelNames ls = site.instr.stems.map (LabelSupply.numbered · (s.number site.instr.stems))
  := by
  obtain ⟨writes, -⟩ := lower_writes w
  rw [writes.labelNames_eq, Phrase.filterMap_steps]
  · apply site.instr.routes_script.labels
  · intro step pushes
    cases pushes <;> rfl

/-- An instruction without labels leaves the supply as it is; the others make theirs together. -/
theorem lower_supply (w : site.lower.Writes s ls r t) :
  (Line.labelNames ls = [] ∧ t = s) ∨ s.fresh site.instr.stems = (Line.labelNames ls, t)
  := by
  obtain ⟨-, rfl⟩ := lower_writes w
  rw [lower_labelNames w, LabelSupply.after]
  split
  · next none =>
      left
      rw [none]
      simp
  · right
    rfl

/-- The code of an instruction jumps to the labels made for it and to the label of the instruction. -/
theorem lower_routed (w : site.lower.Writes s ls r t) :
  Routed (site.instr.jumpLabel? = some ·) s ls t
  := by
  constructor
  · obtain ⟨none, rfl⟩ | fresh := lower_supply w
    · rw [none]
      apply LabelSupply.Makes.none
    · apply LabelSupply.Makes.one fresh
  · obtain ⟨writes, -⟩ := lower_writes w
    rw [lower_labelNames w, writes.jumpNames_eq, Phrase.filterMap_steps]
    · apply site.instr.routes_script.jumps
    · intro step pushes
      cases pushes <;> rfl

/-- The labels that the code of an instruction defines are fresh. -/
theorem lower_fresh (w : site.lower.Writes s ls r t) :
  FreshLabels s ls t
  := by
  obtain ⟨none, rfl⟩ | fresh := lower_supply w
  · apply FreshLabels.of_none none
    intro l used
    apply used
  · apply FreshLabels.of_fresh fresh
    apply Instr.nodup_stems

/-- Unless an instruction leaves, control comes out at the end of its code. -/
theorem lower_ended (stays : site.instr.leaves = false) (w : site.lower.Writes s ls r t) :
  Line.ended false ls = false
  := by
  obtain ⟨writes, -⟩ := lower_writes w
  rw [writes.ended_eq, Phrase.ended_steps]
  apply Instr.ended_script stays

end Site

end StackBackend
