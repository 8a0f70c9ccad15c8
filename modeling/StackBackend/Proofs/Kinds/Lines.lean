import StackBackend.Proofs.Assembly.Pieces
import StackBackend.Proofs.Kinds.Domain
import StackBackend.Proofs.Lowering.Preservation
import StackBackend.Proofs.Lowering.Script

/-!
# Calls and constants among the lines

The numbers of values that a call among the lines of a method carries are those of the signature in its
target, and every constant is a quoted text or a number.
-/

namespace StackBackend

/-! ### Steps -/

/-- A pushed integer is written as it is. -/
theorem Inst.push_isFaithful {v : Int} (fits : Text.Fits 32 v) :
  (push v).IsFaithful
  := by
  unfold push
  split
  · trivial
  · split
    · trivial
    · split
      · trivial
      · split
        · trivial
        · exact .inr (by rw [Text.integer?_toString fits]; rfl)

namespace CodeStep

/-- The line of a step is faithful. -/
def IsFaithful : CodeStep → Prop
  | inst i _ => i.IsFaithful
  | push v => Text.Fits 32 v
  | _ => True

/-- The line of a faithful step is faithful. -/
theorem Writes.isFaithful {m : Method} {step : CodeStep} {i : Inst} (writes : step.Writes m (.inst i))
    (faithful : step.IsFaithful) :
  i.IsFaithful
  := by
  cases writes with
  | inst => apply faithful
  | push => apply Inst.push_isFaithful faithful
  | number read => apply Inst.push_isFaithful (Site.literalValue?_fits read)
  | load | store | inc => trivial

/-- Steps that push operands are faithful. -/
theorem Pushes.isFaithful {step : CodeStep} (pushes : step.Pushes) :
  step.IsFaithful
  := by
  cases pushes with
  | text value =>
      left
      simp
  | number | load | element => trivial

end CodeStep

/-! ### Scripts -/

namespace Phrase

/-- The lines of a phrase are faithful. -/
def IsFaithful : Phrase → Prop
  | operand _ => True
  | one step => step.IsFaithful

/-- The steps of a faithful phrase are faithful. -/
theorem IsFaithful.of_mem {phrase : Phrase} (faithful : phrase.IsFaithful) {step : CodeStep}
    (mem : step ∈ phrase.steps) :
  step.IsFaithful
  := by
  cases phrase with
  | operand e => apply (e.pushes_of_mem mem).isFaithful
  | one step' =>
      rw [List.mem_singleton.1 mem]
      apply faithful

end Phrase

namespace Script

open Phrase

variable {op : BinaryOp} {lhs rhs : Operand} {label : String} {u : ClassUnit} {n : Nat} {i : Instr}

/-- A comparison names no method and no constant. -/
theorem faithful_compare :
  ∀ phrase ∈ compare op lhs rhs label, phrase.IsFaithful
  := by
  unfold compare
  repeat' split
  all_goals simp [IsFaithful, CodeStep.IsFaithful, Inst.IsFaithful]

/-- A call takes the receiver and the arguments and leaves its result, as its target says. -/
theorem faithful_call (imports : ∀ path ∈ u.imports, IsPath path) (kind : CallKind) (owner : Operand)
    (method : String) {args : List Operand} {result : Ty} (proper : ∀ e ∈ args, e.ty.IsProper)
    (proper' : result.IsProper) :
  ∀ phrase ∈ call u kind owner method args result, phrase.IsFaithful
  := by
  have signature := ClassUnit.signature_callTarget imports ((callOwner? u kind owner method).getD "") method
    proper proper'
  rw [call, List.forall_mem_append, List.forall_mem_append, List.forall_mem_map, List.forall_mem_singleton]
  split_ands
  · cases kind <;> cases owner <;> simp [receiver, IsFaithful, CodeStep.IsFaithful]
  · intro e mem
    trivial
  · simp only [Action.wants, signature]
    split <;> simp
  · simp only [Action.gives, signature]
    split <;> simp

/-- The calls of an expression count what their signatures say. -/
theorem faithful_expr (imports : ∀ path ∈ u.imports, IsPath path) (proper : i.IsProper) :
  ∀ phrase ∈ expr u n i, phrase.IsFaithful
  := by
  have zero : Text.Fits 32 0 := by decide
  have one : Text.Fits 32 1 := by decide
  cases i with
  | binary op lhs rhs ty =>
      cases op with
      | add | sub | mul | div => simp [expr, binary, IsFaithful, CodeStep.IsFaithful, Inst.IsFaithful]
      | and | or =>
          simp [expr, binary, either, choose, IsFaithful, CodeStep.IsFaithful, Inst.IsFaithful, zero, one]
      | lt | gt | le | ge | eq | ne =>
          rw [expr, binary, List.forall_mem_append]
          use faithful_compare
          simp [choose, IsFaithful, CodeStep.IsFaithful, Inst.IsFaithful, zero, one]
  | unary op e ty => cases op <;> simp [expr, unary, IsFaithful, CodeStep.IsFaithful, Inst.IsFaithful, one]
  | call kind owner method args result => apply faithful_call imports kind owner method proper.1 proper.2
  | new ty args =>
      simp only [expr, new]
      split
      · next elem length =>
          cases elem <;> simp [newArray, IsFaithful, CodeStep.IsFaithful, Inst.IsFaithful]
      · simp [IsFaithful, CodeStep.IsFaithful]
      · simp [IsFaithful, CodeStep.IsFaithful, Inst.IsFaithful]
      · simp [IsFaithful, CodeStep.IsFaithful]
  | single | getField | arrayLength | assign | ret | putField | goto | branch =>
      simp [expr, IsFaithful, CodeStep.IsFaithful, Inst.IsFaithful]

theorem faithful_value (imports : ∀ path ∈ u.imports, IsPath path) (proper : i.IsProper) :
  ∀ phrase ∈ value u n i, phrase.IsFaithful
  := by
  rw [value, List.forall_mem_append]
  use faithful_expr imports proper
  split <;> simp [IsFaithful, CodeStep.IsFaithful]

theorem faithful_discard (imports : ∀ path ∈ u.imports, IsPath path) (proper : i.IsProper) :
  ∀ phrase ∈ discard u n i, phrase.IsFaithful
  := by
  rw [discard, List.forall_mem_append]
  use faithful_expr imports proper
  split <;> simp [IsFaithful, CodeStep.IsFaithful, Inst.IsFaithful]

theorem faithful_assign (imports : ∀ path ∈ u.imports, IsPath path) (dest : Operand) {rhs : Instr}
    (proper : rhs.IsProper) :
  ∀ phrase ∈ assign u n dest rhs, phrase.IsFaithful
  := by
  have assigned := faithful_value (n := n) imports proper
  unfold assign
  split
  · simp [IsFaithful, CodeStep.IsFaithful]
  · cases dest with
    | literal => simp [store, IsFaithful, CodeStep.IsFaithful]
    | var name ty =>
        rw [store, List.forall_mem_append]
        use assigned
        simp [IsFaithful, CodeStep.IsFaithful]
    | item name index ty =>
        rw [store, List.forall_mem_append, List.forall_mem_append]
        split_ands
        · simp [IsFaithful, CodeStep.IsFaithful]
        · apply assigned
        · simp [IsFaithful, CodeStep.IsFaithful, Inst.IsFaithful]

theorem faithful_branch (cond : Condition) :
  ∀ phrase ∈ branch n cond label, phrase.IsFaithful
  := by
  cases cond with
  | compare op lhs rhs =>
      cases op with
      | and | or => simp [branch, either, IsFaithful, CodeStep.IsFaithful, Inst.IsFaithful]
      | add | sub | mul | div | lt | gt | le | ge | eq | ne =>
          simp only [branch]
          apply faithful_compare
  | not e | test e => simp [branch, IsFaithful, CodeStep.IsFaithful, Inst.IsFaithful]

end Script

/-- So do those of an instruction. -/
theorem Instr.faithful_script {u : ClassUnit} {n : Nat} {i : Instr} (imports : ∀ path ∈ u.imports, IsPath path)
    (proper : i.IsProper) :
  ∀ phrase ∈ i.script u n, phrase.IsFaithful
  := by
  cases i with
  | assign dest ty rhs =>
      have proper : rhs.IsProper := proper
      apply Script.faithful_assign imports dest proper
  | ret ty value =>
      simp only [script, Script.ret]
      repeat' split
      all_goals simp [Phrase.IsFaithful, CodeStep.IsFaithful, Inst.IsFaithful]
  | goto label => simp [script, Phrase.IsFaithful, CodeStep.IsFaithful, Inst.IsFaithful]
  | branch cond label => apply Script.faithful_branch
  | putField => simp [script, Phrase.IsFaithful, CodeStep.IsFaithful, Inst.IsFaithful]
  | single | binary | unary | call | new | getField | arrayLength => apply Script.faithful_discard imports proper

/-! ### Emissions -/

/-- All instructions that an emission writes are faithful, whatever comes of it. -/
def Emit.Faithful {α : Type} (p : Emit α) : Prop := ∀ s i, .inst i ∈ (p s).1 → i.IsFaithful

/-- Emissions in a row. -/
theorem Emit.Faithful.bind {α β : Type} {p : Emit α} {f : α → Emit β} (first : p.Faithful)
    (rest : ∀ a, (f a).Faithful) :
  (p >>= f).Faithful
  := by
  intro s i mem
  rw [bind_apply] at mem
  have written := first s i
  rcases hp : p s with ⟨lines, e | ⟨a, t⟩⟩
  · rw [hp] at mem written
    apply written mem
  · rw [hp] at mem written
    obtain mem | mem := List.mem_append.1 mem
    · apply written mem
    · apply rest a t i mem

/-- The instructions of the lines of an instruction are faithful. -/
theorem Site.lower_faithful {site : Site} (imports : ∀ path ∈ site.unit.imports, IsPath path)
    (proper : site.instr.IsProper) :
  site.lower.Faithful
  := by
  intro s i mem
  rw [lower_eq] at mem
  obtain ⟨step, listed, writes⟩ := writes_of_mem_emitAll mem
  obtain ⟨phrase, listed, among⟩ := List.mem_flatMap.1 listed
  apply writes.isFaithful
  apply (Instr.faithful_script imports proper phrase listed).of_mem among

namespace ClassUnit

variable {u : ClassUnit} {m : Method}

theorem labels_faithful (names : List String) :
  (Emit.labels names).Faithful
  := by
  induction names with
  | nil =>
      intro s i mem
      cases mem
  | cons name names ih =>
      intro s i mem
      obtain _ | ⟨_, mem⟩ := mem
      apply ih s i mem

/-- The lines of a body are faithful; by induction on the body. -/
theorem lowerFrom_faithful (imports : ∀ path ∈ u.imports, IsPath path) {is : List Instr}
    (proper : ∀ i ∈ is, i.IsProper) (index : Nat) :
  (u.lowerFrom m index is).Faithful
  := by
  induction is generalizing index with
  | nil => apply labels_faithful
  | cons i is ih =>
      rw [List.forall_mem_cons] at proper
      apply (labels_faithful _).bind
      intro _
      apply (@Site.lower_faithful ⟨u, m, i⟩ imports proper.1).bind
      intro _
      apply ih proper.2

end ClassUnit

namespace MethodCode.Made

variable {u : ClassUnit} {m : Method} {code : MethodCode} {body : List Line} {left : LabelSupply}
  {f f' : Frame}

/-- All instructions among the final lines of a method are faithful. -/
theorem isFaithful (made : Made u m code body left f f')
    (imports : ∀ path ∈ u.imports, IsPath path) (proper : ∀ i ∈ m.body, i.IsProper) {i : Inst}
    (mem : .inst i ∈ code.listing.lines) :
  i.IsFaithful
  := by
  rw [made.lines] at mem
  obtain mem | ⟨n, inc⟩ := mem_of_mem_fuseIn mem
  · obtain mem | mem := List.mem_append.1 mem
    · have written := ClassUnit.lowerFrom_faithful (m := m) imports proper 0
        (.ofLabels (m.labels.map Prod.fst)) i
      have writes : (u.lowerFrom m 0 m.body (.ofLabels (m.labels.map Prod.fst))).1 = body :=
        congrArg Prod.fst made.writes
      rw [writes] at written
      apply written mem
    · unfold Method.closing at mem
      split at mem
      · cases List.mem_singleton.1 mem
        trivial
      · simp at mem
  · cases inc
    trivial

/-- The labels among the final lines of a method differ. -/
theorem final_labelNames_nodup (made : Made u m code body left f f')
    (nodup : (m.labels.map Prod.fst).Nodup) :
  (Line.labelNames code.listing.lines).Nodup
  := by
  rw [made.lines, fuseIncrements, labelNames_fuseIn]
  apply made.labelNames_nodup nodup

end MethodCode.Made

end StackBackend
