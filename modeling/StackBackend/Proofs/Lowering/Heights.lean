import StackBackend.Proofs.Lowering.Balance
import StackBackend.Proofs.Lowering.Script

/-!
# The height of the stack along a body

What each part of lowering does to the height of the stack. An operand raises it by one, an expression
by the value that it leaves, and an instruction of the body leaves it empty.
-/

namespace StackBackend

/-! ### Straight steps -/

/-- An instruction that takes and leaves few values is counted as it is. -/
theorem Inst.isCounted_of_few {i : Inst} (pops : i.pops < 0x80000000) (pushes : i.pushes < 0x80000000) :
  i.IsCounted
  := by
  cases i with
  | invoke => apply isCounted_invoke pops pushes
  | ret kind => cases kind <;> rfl
  | _ => rfl

namespace CodeStep

/-- At the height `k`, the step finds what it takes and goes on to the next one. -/
def Goes (k : Nat) : CodeStep → Prop
  | inst i _ => i.pops ≤ k ∧ i.pushes ≤ 1 ∧ i.jumpLabel? = none ∧ i.isTerminator = false
  | store .. => 1 ≤ k
  | label _ => False
  | push _ | number .. | load .. | inc .. | stop _ => True

/-- The height after a step at the height `k`. -/
def leave (k : Nat) : CodeStep → Nat
  | inst i _ => i.leave k
  | push _ | number .. | load .. => k + 1
  | store .. => k - 1
  | inc .. | label _ | stop _ => k

/-- The steps lead straight from the height `k` to the height `k'`, unless one of them stops. -/
def Lifts : Nat → List CodeStep → Nat → Prop
  | k, [], k' => k = k'
  | _, .stop _ :: _, _ => True
  | k, step :: steps, k' => step.Goes k ∧ Lifts (step.leave k) steps k'

/-- A step from a height where it may be taken, and steps from the height it leaves. -/
theorem lifts_cons {k k' : Nat} {step : CodeStep} {steps : List CodeStep} (goes : step.Goes k)
    (lifts : Lifts (step.leave k) steps k') :
  Lifts k (step :: steps) k'
  := by
  cases step with
  | stop what => trivial
  | inst | push | number | load | store | inc | label => use goes, lifts

/-- An operand raises the stack by one. -/
theorem lifts_operand {e : Operand} {k k' : Nat} {steps : List CodeStep} (lifts : Lifts (k + 1) steps k') :
  Lifts k (e.steps ++ steps) k'
  := by
  induction e generalizing k steps with
  | literal value ty =>
      rw [Operand.steps]
      split
      · apply lifts_cons
        · simp [Goes, Inst.pops, Inst.pushes, Inst.jumpLabel?, Inst.isTerminator]
        · apply lifts
      · apply lifts_cons
        · trivial
        · apply lifts
  | var name ty =>
      apply lifts_cons
      · trivial
      · apply lifts
  | item name index ty ih =>
      rw [Operand.steps, List.cons_append, List.append_assoc]
      apply lifts_cons
      · trivial
      · apply ih
        apply lifts_cons
        · simp [leave, Goes, Inst.pops, Inst.pushes, Inst.jumpLabel?, Inst.isTerminator]
        · apply lifts

end CodeStep

namespace Site

open CodeStep

variable {U : String → Prop} {site : Site} {s : LabelSupply} {f g : Frame} {k k' : Nat}

/-- A push raises the stack by one. -/
theorem push_keeps (v : Int) (raised : f.Raised k g) :
  (Emit.inst (.push v)).Keeps U s g fun _ t e => t = s ∧ f.Raised (k + 1) e
  := by
  obtain ⟨pops, pushes, counted, plain, goes⟩ := Inst.push_pops v
  have pushed := Emit.Keeps.raise (U := U) (s := s) raised counted (by omega) plain goes
  rwa [Inst.leave, pops, pushes] at pushed

/-- An instruction on the slot of a variable. -/
theorem onSlot_keeps {name : String} {i : Nat → Inst} {Q : Unit → LabelSupply → Frame → Prop}
    (keeps : ∀ slot, (Emit.inst (i slot)).Keeps U s g Q) {step : CodeStep}
    (line : step.line site = (site.find name).map fun slot => .inst (i slot)) :
  (site.emit step).Keeps U s g Q
  := by
  rw [emit, line]
  cases site.find name with
  | error e => apply Emit.Keeps.fail
  | ok slot => apply keeps

/-- A step changes the height by what it takes and leaves. -/
theorem emit_keeps {step : CodeStep} (goes : step.Goes k) (raised : f.Raised k g) :
  (site.emit step).Keeps U s g fun _ t e => t = s ∧ f.Raised (step.leave k) e
  := by
  have few : k < 0x80000000 := by
    have small := raised.small
    have height := raised.height
    omega
  cases step with
  | inst i free =>
      obtain ⟨enough, one, plain, goes⟩ := goes
      apply Emit.Keeps.raise raised _ enough plain goes
      apply Inst.isCounted_of_few <;> omega
  | push v => apply push_keeps v raised
  | number value ty =>
      rw [emit, CodeStep.line]
      cases literalValue? value ty with
      | none => apply Emit.Keeps.fail
      | some v => apply push_keeps v raised
  | load kind name =>
      apply onSlot_keeps _ rfl
      intro slot
      apply Emit.Keeps.raise (i := .load kind slot) raised rfl (Nat.zero_le k) rfl rfl
  | store kind name =>
      apply onSlot_keeps _ rfl
      intro slot
      apply Emit.Keeps.raise (i := .store kind slot) raised rfl goes rfl rfl
  | inc name v =>
      apply onSlot_keeps _ rfl
      intro slot
      apply Emit.Keeps.raise (i := .inc slot v) raised rfl (Nat.zero_le k) rfl rfl
  | label name => cases goes
  | stop what => apply Emit.Keeps.fail

/-- Steps that lead straight from one height to another raise the stack so. -/
theorem emitAll_keeps {steps : List CodeStep} (lifts : Lifts k steps k') (raised : f.Raised k g) :
  (site.emitAll steps).Keeps U s g fun _ t e => t = s ∧ f.Raised k' e
  := by
  induction steps generalizing k g with
  | nil =>
      obtain rfl : k = k' := lifts
      apply Emit.Keeps.pure
      use rfl
  | cons step steps ih =>
      rw [emitAll_cons]
      cases step with
      | stop what =>
          rw [emit_bind_error rfl]
          apply Emit.Keeps.fail
      | inst | push | number | load | store | inc | label =>
          obtain ⟨goes, rest⟩ := lifts
          apply (emit_keeps goes raised).bind
          rintro _ _ e ⟨rfl, raised⟩
          apply ih rest raised

end Site

/-! ### Straight scripts -/

/-- The script leads straight from the height `k` to the height `k'`, unless one of its steps stops. -/
def Phrase.Lifts : Nat → List Phrase → Nat → Prop
  | k, [], k' => k = k'
  | k, .operand _ :: script, k' => Lifts (k + 1) script k'
  | _, .one (.stop _) :: _, _ => True
  | k, .one step :: script, k' => step.Goes k ∧ Lifts (step.leave k) script k'

/-- What phrases do to the height, their steps do. -/
theorem Phrase.Lifts.steps {script : List Phrase} {k k' : Nat} (lifts : Lifts k script k') :
  CodeStep.Lifts k (script.flatMap Phrase.steps) k'
  := by
  induction script generalizing k with
  | nil => apply lifts
  | cons phrase script ih =>
      rw [List.flatMap_cons]
      cases phrase with
      | operand e => apply CodeStep.lifts_operand (ih lifts)
      | one step =>
          cases step with
          | stop what => trivial
          | inst | push | number | load | store | inc | label =>
              obtain ⟨goes, rest⟩ := lifts
              apply CodeStep.lifts_cons goes (ih rest)

namespace Script

open Phrase

variable {u : ClassUnit} {n k k' : Nat}

/-- Each operand raises the stack by one. -/
theorem lifts_operands {es : List Operand} {script : List Phrase} (lifts : Lifts (k + es.length) script k') :
  Lifts k (es.map .operand ++ script) k'
  := by
  induction es generalizing k with
  | nil => apply lifts
  | cons e es ih =>
      apply ih
      rw [List.length_cons, Nat.add_comm es.length, ← Nat.add_assoc] at lifts
      apply lifts

/-- A call takes its operands, and leaves its result. -/
theorem lifts_call (kind : CallKind) (owner : Operand) (method : String) (args : List Operand) (result : Ty) :
  Lifts k (call u kind owner method args result) (k + (!result.isVoid).toNat)
  := by
  have invoked (pops : Nat) (enough : pops = args.length + if kind = .static then 0 else 1) :
      Lifts (k + pops) [.one (.inst (.invoke kind
        (callTarget u ((callOwner? u kind owner method).getD "") method args result)
        (args.length + if kind = .static then 0 else 1) (if result.isVoid then 0 else 1)))]
        (k + (!result.isVoid).toNat) := by
    cases result.isVoid <;>
      simp [Lifts, CodeStep.Goes, CodeStep.leave, Inst.leave, Inst.pops, Inst.pushes, Inst.jumpLabel?,
        Inst.isTerminator, enough]
  cases kind with
  | static =>
      cases owner with
      | var name ty => apply lifts_operands (invoked _ rfl)
      | literal | item => trivial
  | virtual | special =>
      apply lifts_operands
      rw [Nat.add_assoc, Nat.add_comm 1]
      apply invoked _ rfl

/-- The code of an expression that makes no label raises the stack by the value that it leaves. -/
theorem lifts_expr {i : Instr} (straight : i.exprStems = []) :
  Lifts k (expr u n i) (k + i.leavesValue.toNat)
  := by
  cases i with
  | binary op lhs rhs ty =>
      cases op with
      | add | sub | mul | div =>
          simp [expr, binary, Lifts, CodeStep.Goes, CodeStep.leave, Inst.leave, Inst.pops, Inst.pushes,
            Inst.jumpLabel?, Inst.isTerminator, Instr.leavesValue]
      | and | or | lt | gt | le | ge | eq | ne => cases straight
  | unary op e ty =>
      cases op <;> simp [expr, unary, Lifts, CodeStep.Goes, CodeStep.leave, Inst.leave, Inst.pops, Inst.pushes,
        Inst.jumpLabel?, Inst.isTerminator, Instr.leavesValue]
  | call kind owner method args result => apply lifts_call
  | new ty args =>
      simp only [expr, new]
      split
      · next elem length =>
          cases elem <;> simp [newArray, Lifts, CodeStep.Goes, CodeStep.leave, Inst.leave, Inst.pops,
            Inst.pushes, Inst.jumpLabel?, Inst.isTerminator, Instr.leavesValue]
      · trivial
      · simp [Lifts, CodeStep.Goes, CodeStep.leave, Inst.leave, Inst.pops, Inst.pushes, Inst.jumpLabel?,
          Inst.isTerminator, Instr.leavesValue]
      · trivial
  | single | getField | arrayLength | assign | ret | putField | goto | branch =>
      simp [expr, Lifts, CodeStep.Goes, CodeStep.leave, Inst.leave, Inst.pops, Inst.pushes, Inst.jumpLabel?,
        Inst.isTerminator, Instr.leavesValue]

end Script

/-! ### Jumps -/

namespace Site

variable {U : String → Prop} {site : Site} {s : LabelSupply} {f g : Frame} {k k' : Nat}

/-- A straight script raises the stack from one height to the other. -/
theorem write_keeps {script : List Phrase} (lifts : Phrase.Lifts k script k') (raised : f.Raised k g) :
  (site.write script).Keeps U s g fun _ t e => t = s ∧ f.Raised k' e
  := emitAll_keeps lifts.steps raised

/-- A test of an operand jumps at the height before the operand. -/
theorem jumpIf_keeps (cond : Cond) (e : Operand) {label : String} (agrees : f.Agrees U label f.height) :
  (site.write [.operand e, .one (.inst (.jumpIf cond label))]).Keeps U s f fun _ t g => t = s ∧ f.Jumped label g
  := by
  have lifts : Phrase.Lifts 0 [.operand e] 1 := rfl
  rw [write_operand_cons, load_eq, write_one]
  apply (write_keeps lifts (.refl f)).bind
  rintro _ _ g ⟨rfl, raised⟩
  exact .jump raised rfl rfl rfl rfl rfl agrees

/-- A comparison takes both operands before it jumps. -/
theorem jumpIfCompare_keeps (cond : Cond) (lhs rhs : Operand) {label : String}
    (agrees : f.Agrees U label f.height) :
  (site.write [.operand lhs, .operand rhs, .one (.inst (.jumpIfCompare cond label))]).Keeps U s f
    fun _ t g => t = s ∧ f.Jumped label g
  := by
  have lifts : Phrase.Lifts 0 [.operand lhs, .operand rhs] 2 := rfl
  have script : [.operand lhs, .operand rhs, .one (.inst (.jumpIfCompare cond label))]
      = [.operand lhs, .operand rhs] ++ [Phrase.one (.inst (.jumpIfCompare cond label))] := rfl
  rw [script, write_append, write_one]
  apply (write_keeps lifts (.refl f)).bind
  rintro _ _ g ⟨rfl, raised⟩
  exact .jump raised rfl rfl rfl rfl rfl agrees

/-- A comparison jumps at the height before its operands. -/
theorem compare_keeps (op : BinaryOp) (lhs rhs : Operand) {label : String} (agrees : f.Agrees U label f.height) :
  (site.write (Script.compare op lhs rhs label)).Keeps U s f fun _ t g => t = s ∧ f.Jumped label g
  := by
  unfold Script.compare
  split
  · rw [write_one]
    apply Emit.Keeps.fail
  · split
    · apply jumpIf_keeps _ lhs agrees
    · split
      · apply jumpIf_keeps _ rhs agrees
      · apply jumpIfCompare_keeps _ lhs rhs agrees

/-- Two tests that jump at the same height. -/
theorem either_keeps (cond : Cond) (lhs rhs : Operand) {label : String} (agrees : f.Agrees U label f.height) :
  (site.write (Script.either cond lhs rhs label)).Keeps U s f fun _ t g => t = s ∧ f.Jumped label g
  := by
  have both : Script.either cond lhs rhs label
      = [.operand lhs, .one (.inst (.jumpIf cond label))] ++ [.operand rhs, .one (.inst (.jumpIf cond label))] := rfl
  rw [both, write_append]
  apply (jumpIf_keeps cond lhs agrees).bind
  rintro _ _ g ⟨rfl, first⟩
  apply (jumpIf_keeps cond rhs (first.agrees agrees)).mono
  rintro _ _ e ⟨rfl, second⟩
  use rfl
  apply first.trans second

/-- A choice between two integers, of which the second is for control that comes by `target`. -/
theorem choose_keeps (here there : Int) {target stop : String}
    (recorded : f.heights[target]? = some f.height)
    (agrees : f.Agrees U stop (f.height + 1)) :
  (choose here there target stop).Keeps U s f fun _ t g =>
    t = s ∧ g.height = f.height + 1 ∧ g.heights = f.heights.insertIfNew stop (f.height + 1)
  := by
  apply (push_keeps here (.refl f)).bind
  rintro _ s₁ g₁ ⟨rfl, raised⟩
  have goes : (Emit.inst (.goto stop)).Keeps U s₁ g₁ fun _ t g =>
      t = s₁ ∧ g.terminated = true ∧ g.heights = f.heights.insertIfNew stop (f.height + 1) := by
    apply Emit.Keeps.inst
    · use rfl, Nat.zero_le _
      rintro label ⟨⟩
      rw [Inst.leave, raised.height]
      use raised.heights ▸ agrees.recorded, agrees.known
    · intro _
      use rfl
      constructor
      · simp [Frame.passInst, Inst.isTerminator]
      · simp [Frame.passInst, Inst.jumpLabel?, raised.heights, Inst.leave, Inst.pops, Inst.pushes,
          raised.height]
  apply goes.bind
  rintro _ s₂ g₂ ⟨rfl, ended, heights⟩
  have recorded₂ : g₂.heights[target]? = some f.height := by
    rw [heights]
    apply Frame.getElem?_insertIfNew recorded stop
  have enters : (Emit.label target).Keeps U s₂ g₂ fun _ t g =>
      t = s₂ ∧ g.terminated = false ∧ g.height = f.height ∧ g.heights = g₂.heights := by
    apply Emit.Keeps.label
    · simp [Frame.Admits, ended, recorded₂]
    · simp [Frame.passLabel, ended, recorded₂]
  apply enters.bind
  rintro _ _ g₃ ⟨rfl, open', height, heights₃⟩
  apply (push_keeps there (.refl g₃)).bind
  rintro _ _ g₄ ⟨rfl, raised⟩
  have open₄ : g₄.terminated = false := raised.terminated.trans open'
  have height₄ : g₄.height = f.height + 1 := by rw [raised.height, height]
  have heights₄ : g₄.heights = f.heights.insertIfNew stop (f.height + 1) := by
    rw [raised.heights, heights₃, heights]
  apply Emit.Keeps.label
  · simp only [Frame.Admits, open₄, Bool.false_eq_true, if_false, height₄]
    constructor
    · intro h recorded
      rw [heights₄, Frame.getElem?_insertIfNew_self agrees.recorded] at recorded
      apply (Option.some.inj recorded).symm
    · apply agrees.known
  · use rfl
    constructor
    · simp [Frame.passLabel, open₄, height₄]
    · simp [Frame.passLabel, open₄, height₄, heights₄, Frame.insertIfNew_insertIfNew]

end Site

/-! ### Expressions -/

namespace LabelSupply

variable {s : LabelSupply} {stems : List String}

/-- Labels stay reserved when others are made. -/
theorem mem_reserved_after {label : String} (old : label ∈ s.reserved) :
  label ∈ (s.after stems).reserved
  := by
  rw [after]
  split
  · apply old
  · apply (mem_reserved_of_fresh rfl).2
    right
    apply old

/-- A label that is made was not in use, and is afterwards. -/
theorem numbered_fresh (s : LabelSupply) {stem : String} (mem : stem ∈ stems) :
  numbered stem (s.number stems) ∉ s.reserved ∧ numbered stem (s.number stems) ∈ (s.after stems).reserved
  := by
  have made : numbered stem (s.number stems) ∈ (s.fresh stems).1 := List.mem_map_of_mem mem
  constructor
  · apply not_mem_of_fresh rfl made
  · rw [after, if_neg (List.ne_nil_of_mem mem)]
    apply (mem_reserved_of_fresh rfl).2
    left
    apply made

end LabelSupply

/-- From any frame whose records are in use, the script with its labels raises the stack by `k`, and
records only labels that are in use. -/
def Site.Lifts (U : String → Prop) (site : Site) (stems : List String) (script : Nat → List Phrase) (k : Nat) :
    Prop :=
  ∀ ⦃s : LabelSupply⦄ ⦃f : Frame⦄, f.Knows U s →
    (site.write (script (s.number stems))).Keeps U (s.after stems) f fun _ t g =>
      t = s.after stems ∧ g.height = f.height + k ∧ g.Knows U t

namespace Site

variable {U : String → Prop} {site : Site} {s : LabelSupply} {f g : Frame} {k : Nat}

/-- A script without jumps and labels. -/
theorem lifts_of_straight {script : Nat → List Phrase} (lifts : ∀ n, Phrase.Lifts 0 (script n) k) :
  site.Lifts U [] script k
  := by
  intro s f knows
  apply (write_keeps (lifts _) (.refl f)).mono
  rintro _ _ g ⟨rfl, raised⟩
  use rfl, raised.height
  apply knows.of_heights raised.heights

/-- A decision that is made into one of two integers. -/
theorem chosen_lifts {stem stem' : String} (differ : stem ≠ stem') (here there : Int)
    {code : String → List Phrase}
    (jumps : ∀ (s : LabelSupply) (f : Frame) (label : String), f.Agrees U label f.height →
      (site.write (code label)).Keeps U s f fun _ t g => t = s ∧ f.Jumped label g) :
  site.Lifts U [stem, stem'] (fun n => code (LabelSupply.numbered stem n)
    ++ Script.choose here there (LabelSupply.numbered stem n) (LabelSupply.numbered stem' n)) 1
  := by
  intro s f knows
  have different {n : Nat} : LabelSupply.numbered stem n ≠ LabelSupply.numbered stem' n := by
    intro same
    apply differ (LabelSupply.numbered_inj same).1
  have first : stem ∈ [stem, stem'] := List.mem_cons_self
  have second : stem' ∈ [stem, stem'] := List.mem_cons_of_mem stem List.mem_cons_self
  obtain ⟨new_target, used_target⟩ := s.numbered_fresh first
  obtain ⟨new_stop, used_stop⟩ := s.numbered_fresh second
  have knows₁ : f.Knows U (s.after [stem, stem']) := knows.mono fun _ => LabelSupply.mem_reserved_after
  have agrees := knows.agrees_fresh new_target f.height
  rw [write_append, ← choose_eq]
  apply (jumps _ f _ agrees).bind
  rintro _ t g ⟨rfl, jumped⟩
  have knows_g : g.Knows U (s.after [stem, stem']) := knows₁.record jumped.heights used_target agrees.known
  have recorded : g.heights[LabelSupply.numbered stem (s.number [stem, stem'])]? = some g.height := by
    rw [jumped.heights, jumped.height]
    apply Frame.getElem?_insertIfNew_self agrees.recorded
  have agrees_stop : g.Agrees U (LabelSupply.numbered stem' (s.number [stem, stem'])) (g.height + 1) := by
    have agrees_f := knows.agrees_fresh new_stop (g.height + 1)
    constructor
    · intro h old
      rw [jumped.heights] at old
      obtain old | ⟨same, -⟩ := Frame.getElem?_insertIfNew_cases old
      · apply agrees_f.recorded h old
      · cases different same.symm
    · apply agrees_f.known
  apply (choose_keeps here there recorded agrees_stop).mono
  rintro _ t' e ⟨rfl, height, heights⟩
  split_ands
  · rfl
  · rw [height, jumped.height]
  · apply knows_g.record heights used_stop agrees_stop.known

/-- The code of an expression raises the stack by the value that it leaves. -/
theorem expr_lifts (i : Instr) :
  site.Lifts U i.exprStems (fun n => Script.expr site.unit n i) i.leavesValue.toNat
  := by
  by_cases straight : i.exprStems = []
  · rw [straight]
    apply lifts_of_straight
    intro n
    have lifts := Script.lifts_expr (k := 0) (u := site.unit) (n := n) straight
    rwa [Nat.zero_add] at lifts
  · cases i with
    | binary op lhs rhs ty =>
        cases op with
        | add | sub | mul | div => cases straight rfl
        | and | or =>
            apply chosen_lifts (by decide)
            intro _ _ _
            apply either_keeps
        | lt | gt | le | ge | eq | ne =>
            apply chosen_lifts (by decide)
            intro _ _ _
            apply compare_keeps
    | _ => cases straight rfl

/-- An expression that has to leave a value raises the stack by one. -/
theorem value_lifts (i : Instr) :
  site.Lifts U i.exprStems (fun n => Script.value site.unit n i) 1
  := by
  intro s f knows
  dsimp only
  rw [Script.value, write_append]
  apply (expr_lifts i knows).bind
  rintro _ t g lifted
  cases left : i.leavesValue with
  | true =>
      rw [left] at lifted
      apply Emit.Keeps.pure lifted
  | false => apply Emit.Keeps.fail

/-! ### Instructions -/

/-- The stack is empty, and the frame has recorded only labels that are in use. -/
def Clear (U : String → Prop) (s : LabelSupply) (f : Frame) : Prop := f.height = 0 ∧ f.Knows U s

/-- A straight script that leaves what it found keeps an empty stack. -/
theorem straight_keeps {script : List Phrase} (lifts : Phrase.Lifts 0 script 0) (clear : Clear U s f) :
  (site.write script).Keeps U s f fun _ t g => Clear U t g
  := by
  apply (write_keeps lifts (.refl f)).mono
  rintro _ _ g ⟨rfl, raised⟩
  use raised.height.trans clear.1
  apply clear.2.of_heights raised.heights

/-- An instruction that takes all there is on the stack clears it. -/
theorem clear_keeps {i : Inst} (knows : f.Knows U s) (counted : i.IsCounted)
    (takes : i.pops = f.height) (leaves : i.pushes = 0) (plain : i.jumpLabel? = none) :
  (Emit.inst i).Keeps U s f fun _ t g => Clear U t g
  := by
  apply Emit.Keeps.inst
  · constructor
    · apply counted
    · omega
    · simp [plain]
  · intro _
    constructor
    · simp [Frame.passInst, Inst.leave, takes, leaves]
    · apply knows.of_heights
      simp [Frame.passInst, plain]

/-- An expression whose value is dropped leaves the stack empty. -/
theorem discard_keeps (i : Instr) (clear : Clear U s f) :
  (site.write (Script.discard site.unit (s.number i.exprStems) i)).Keeps U (s.after i.exprStems) f
    fun _ t g => Clear U t g
  := by
  obtain ⟨empty, knows⟩ := clear
  rw [Script.discard, write_append]
  apply (expr_lifts i knows).bind
  rintro _ t g ⟨rfl, height, knows⟩
  rw [empty, Nat.zero_add] at height
  cases left : i.leavesValue with
  | true =>
      rw [left] at height
      apply clear_keeps (i := .pop) knows rfl height.symm rfl rfl
  | false =>
      rw [left] at height
      apply Emit.Keeps.pure
      use height

/-- An assignment that is not an increment in place leaves the stack empty. -/
theorem store_keeps (dest : Operand) (ty : Ty) (rhs : Instr) (clear : Clear U s f) :
  (site.write (Script.store site.unit (s.number (Instr.assign dest ty rhs).stems) dest rhs)).Keeps U
    (s.after (Instr.assign dest ty rhs).stems) f fun _ t g => Clear U t g
  := by
  obtain ⟨empty, knows⟩ := clear
  cases dest with
  | literal => apply Emit.Keeps.fail
  | var name ty' =>
      rw [Script.store, write_append, write_one]
      apply (value_lifts rhs knows).bind
      rintro _ _ g ⟨rfl, height, knows⟩
      apply onSlot_keeps _ rfl
      intro slot
      apply clear_keeps (i := .store _ slot) knows rfl _ rfl rfl
      rw [height, empty]
      rfl
  | item name index ty' =>
      have lifts : Phrase.Lifts 0 [.one (.load .ref name), .operand index] 2 := ⟨trivial, rfl⟩
      rw [Script.store, List.append_assoc, write_append, write_append, write_one]
      apply (write_keeps lifts (.refl f)).bind
      rintro _ _ g₁ ⟨rfl, raised⟩
      apply (value_lifts rhs (knows.of_heights raised.heights)).bind
      rintro _ _ g₂ ⟨rfl, height, knows⟩
      apply clear_keeps (i := .arrayStore _) knows rfl _ rfl rfl
      rw [height, raised.height, empty]
      rfl

/-- An assignment leaves the stack empty, in place or not. -/
theorem assign_keeps (dest : Operand) (ty : Ty) (rhs : Instr) (clear : Clear U s f) :
  (site.write (Script.assign site.unit (s.number (Instr.assign dest ty rhs).stems) dest rhs)).Keeps U
    (s.after (Instr.assign dest ty rhs).stems) f fun _ t g => Clear U t g
  := by
  unfold Script.assign
  split
  · next name v found =>
      have lifts : Phrase.Lifts 0 [.one (.inc name v)] 0 := ⟨trivial, rfl⟩
      obtain ⟨rfl, value, ty', ty'', -, rfl | rfl⟩ := increment?_eq_some found <;>
        apply straight_keeps lifts clear
  · apply store_keeps dest ty rhs clear

/-- A jump to a known label leaves the stack empty. -/
theorem clear_of_jumped {label : String} (clear : Clear U s f) (user : U label)
    (jumped : f.Jumped label g) :
  Clear U s g
  := by
  obtain ⟨empty, knows⟩ := clear
  use jumped.height.trans empty
  apply knows.record jumped.heights (knows.known label user)
  intro _
  apply empty

/-- A label that is known or was jumped to, with an empty stack, is passed with an empty stack. -/
theorem label_keeps {name : String} (clear : Clear U s f) (met : U name ∨ f.heights[name]?.isSome)
    (zero : ∀ h, f.heights[name]? = some h → h = 0) (used : name ∈ s.reserved) :
  (Emit.label name).Keeps U s f fun _ t g => Clear U t g
  := by
  obtain ⟨empty, knows⟩ := clear
  cases ended : f.terminated with
  | true =>
      apply Emit.Keeps.label
      · simpa [Frame.Admits, ended] using met
      · constructor
        · cases recorded : f.heights[name]? with
          | none => simp [Frame.passLabel, ended, recorded]
          | some h => simp [Frame.passLabel, ended, recorded, zero h recorded]
        · apply knows.of_heights
          simp [Frame.passLabel, ended]
  | false =>
      apply Emit.Keeps.label
      · simp only [Frame.Admits, ended, Bool.false_eq_true, if_false, empty]
        use zero
        intro _
        rfl
      · constructor
        · simpa [Frame.passLabel, ended] using empty
        · apply knows.record (h := f.height) _ used fun _ => empty
          simp [Frame.passLabel, ended]


/-- A branch on two operands that both have to hold skips the second one by a fresh label. The label was
recorded by the first jump, with an empty stack. -/
theorem both_keeps (lhs rhs : Operand) {label : String} (user : U label) (clear : Clear U s f) :
  (site.write (Script.branch (s.number ["j_skip"]) (.compare .and lhs rhs) label)).Keeps U (s.after ["j_skip"]) f
    fun _ t g => Clear U t g
  := by
  obtain ⟨empty, knows⟩ := clear
  obtain ⟨new, used⟩ := s.numbered_fresh (List.mem_singleton_self "j_skip")
  have knows₁ : f.Knows U (s.after ["j_skip"]) := knows.mono fun _ => LabelSupply.mem_reserved_after
  have agrees := knows.agrees_fresh new f.height
  simp only [Script.branch]
  generalize LabelSupply.numbered "j_skip" (s.number ["j_skip"]) = skip at *
  change (site.write ([.operand lhs, .one (.inst (.jumpIf .eq skip))]
    ++ ([.operand rhs, .one (.inst (.jumpIf .ne label))] ++ [.one (.label skip)]))).Keeps _ _ _ _
  rw [write_append, write_append, write_one]
  apply (jumpIf_keeps .eq lhs agrees).bind
  rintro _ _ g₁ ⟨rfl, skipped⟩
  have clear₁ : Clear U (s.after ["j_skip"]) g₁ := by
    use skipped.height.trans empty
    apply knows₁.record skipped.heights used agrees.known
  apply (jumpIf_keeps .ne rhs (clear₁.2.agrees user clear₁.1)).bind
  rintro _ _ g₂ ⟨rfl, jumped⟩
  have recorded : g₂.heights[skip]? = some 0 := by
    rw [jumped.heights]
    apply Frame.getElem?_insertIfNew
    rw [skipped.heights, Frame.getElem?_insertIfNew_self agrees.recorded, empty]
  apply label_keeps (clear_of_jumped clear₁ user jumped) (.inr (by simp [recorded])) _ used
  intro h again
  rw [recorded] at again
  cases again
  rfl

/-- A conditional jump leaves the stack empty, taken or not. -/
theorem branch_keeps (cond : Condition) {label : String} (user : U label) (clear : Clear U s f) :
  (site.write (Script.branch (s.number (Instr.branch cond label).stems) cond label)).Keeps U
    (s.after (Instr.branch cond label).stems) f fun _ t g => Clear U t g
  := by
  have agrees := clear.2.agrees user clear.1
  have jumps {script : List Phrase}
      (keeps : (site.write script).Keeps U s f fun _ t g => t = s ∧ f.Jumped label g) :
      (site.write script).Keeps U s f fun _ t g => Clear U t g := by
    apply keeps.mono
    rintro _ _ g ⟨rfl, jumped⟩
    apply clear_of_jumped clear user jumped
  cases cond with
  | compare op lhs rhs =>
      cases op with
      | and => apply both_keeps lhs rhs user clear
      | or => apply jumps (either_keeps .ne lhs rhs agrees)
      | add | sub | mul | div | lt | gt | le | ge | eq | ne =>
          simp only [Script.branch]
          apply jumps (compare_keeps _ lhs rhs agrees)
  | not e | test e => apply jumps (jumpIf_keeps _ e agrees)

/-- A return leaves the stack empty. -/
theorem ret_keeps (ty : Ty) (value : Option Operand) (clear : Clear U s f) :
  (site.write (Script.ret ty value)).Keeps U s f fun _ t g => Clear U t g
  := by
  obtain ⟨empty, knows⟩ := clear
  cases value with
  | some e =>
      have lifts : Phrase.Lifts 0 [.operand e] 1 := rfl
      rw [Script.ret, write_operand_cons, load_eq, write_one]
      apply (write_keeps lifts (.refl f)).bind
      rintro _ _ g ⟨rfl, raised⟩
      apply clear_keeps (i := .ret (some _)) (knows.of_heights raised.heights) rfl _ rfl rfl
      rw [raised.height, empty]
      rfl
  | none =>
      rw [Script.ret]
      split
      · rw [write_one]
        apply clear_keeps (i := .ret none) knows rfl empty.symm rfl rfl
      · rw [write_one]
        apply Emit.Keeps.fail

/-- The code of an instruction begins and ends with an empty stack. -/
theorem lower_keeps (user : ∀ label, site.instr.jumpLabel? = some label → U label) (clear : Clear U s f) :
  site.lower.Keeps U s f fun _ t g => Clear U t g
  := by
  have script : (site.write (site.instr.script site.unit (s.number site.instr.stems))).Keeps U
      (s.after site.instr.stems) f fun _ t g => Clear U t g := by
    obtain ⟨unit, method, instr⟩ := site
    have discarded := @discard_keeps U ⟨unit, method, instr⟩ s f instr clear
    cases instr with
    | assign dest ty rhs => apply assign_keeps dest ty rhs clear
    | ret ty value => apply ret_keeps ty value clear
    | goto label =>
        have known := user label rfl
        change (Site.write ⟨unit, method, .goto label⟩ [.one (.inst (.goto label))]).Keeps _ _ _ _
        rw [write_one]
        apply Emit.Keeps.inst (i := .goto label)
        · use rfl, Nat.zero_le _
          rintro _ ⟨⟩
          apply clear.2.agrees known clear.1
        · intro _
          use rfl
          apply clear.2.record (h := f.height) _ (clear.2.known label known) fun _ => clear.1
          simp [Frame.passInst, Inst.jumpLabel?, Inst.leave, Inst.pops, Inst.pushes]
    | branch cond label => apply branch_keeps cond (user label rfl) clear
    | putField object field fieldTy value =>
        have lifts : Phrase.Lifts 0 (Instr.script unit 0 (.putField object field fieldTy value)) 0 := by
          simp [Instr.script, Phrase.Lifts, CodeStep.Goes, CodeStep.leave, Inst.leave, Inst.pops, Inst.pushes,
            Inst.jumpLabel?, Inst.isTerminator]
        apply straight_keeps lifts clear
    | single | binary | unary | call | new | getField | arrayLength => apply discarded
  rw [lower_eq]
  constructor
  · apply script.admits
  · apply script.result

end Site

/-! ### Bodies -/

namespace ClassUnit

variable {U : String → Prop} {u : ClassUnit} {m : Method} {s : LabelSupply} {f : Frame}

/-- Labels before an instruction stand where the stack is empty. -/
theorem labels_keep {names : List String} (known : ∀ name ∈ names, U name)
    (clear : Site.Clear U s f) :
  (Emit.labels names).Keeps U s f fun _ t g => Site.Clear U t g
  := by
  induction names generalizing s f with
  | nil => exact .pure clear
  | cons name names ih =>
      rw [List.forall_mem_cons] at known
      have user := known.1
      have first : (Emit.label name).Keeps U s f fun _ t g => Site.Clear U t g :=
        Site.label_keeps clear (.inl user) (fun h => clear.2.zero name h user)
          (clear.2.known name user)
      apply first.bind
      intro _ s₁ f₁ clear
      apply ih known.2 clear

/-- The labels before an instruction are labels of the method. -/
theorem labelsAt_known (known : ∀ name ∈ m.labels.map Prod.fst, U name) (index : Nat) :
  ∀ name ∈ m.labelsAt index, U name
  := by
  intro name mem
  apply known name
  simp only [Method.labelsAt, List.mem_map, List.mem_filter] at mem ⊢
  obtain ⟨e, ⟨mem, -⟩, rfl⟩ := mem
  use e

/-- The lines of instructions from the index `index` on, each after its labels. The labels after the
last one are not among them. -/
def lowerRow (u : ClassUnit) (m : Method) (index : Nat) : List Instr → Emit Unit
  | [] => pure ()
  | i :: is => do
      Emit.labels (m.labelsAt index)
      Site.lower ⟨u, m, i⟩
      u.lowerRow m (index + 1) is

/-- After each instruction the stack is empty. -/
theorem lowerRow_keeps {index : Nat} {is : List Instr}
    (known : ∀ name ∈ m.labels.map Prod.fst, U name)
    (jumps : ∀ i ∈ is, ∀ label, i.jumpLabel? = some label → U label) (clear : Site.Clear U s f) :
  (u.lowerRow m index is).Keeps U s f fun _ t g => Site.Clear U t g
  := by
  induction is generalizing index s f with
  | nil => exact .pure clear
  | cons i is ih =>
      rw [List.forall_mem_cons] at jumps
      apply (labels_keep (labelsAt_known known index) clear).bind
      intro _ s₁ f₁ clear
      have lowered : (Site.lower ⟨u, m, i⟩).Keeps U s₁ f₁ fun _ t g => Site.Clear U t g :=
        Site.lower_keeps jumps.1 clear
      apply lowered.bind
      intro _ s₂ f₂ clear
      apply ih jumps.2 clear

/-- A body is lowered in two parts. -/
theorem lowerFrom_append (u : ClassUnit) (m : Method) (index : Nat) (is is' : List Instr) :
  u.lowerFrom m index (is ++ is')
    = u.lowerRow m index is >>= fun _ => u.lowerFrom m (index + is.length) is'
  := by
  induction is generalizing index with
  | nil => rw [lowerRow, pure_bind, List.nil_append, List.length_nil, Nat.add_zero]
  | cons i is ih =>
      rw [List.cons_append, lowerFrom, lowerRow, bind_assoc]
      simp only [bind_assoc, ih, List.length_cons, Nat.add_assoc, Nat.add_comm 1]

/-- The lines of a body are balanced, whether or not it is lowered to its end. -/
theorem lowerBody_keeps (known : ∀ name ∈ m.labels.map Prod.fst, U name)
    (jumps : ∀ i ∈ m.body, ∀ label, i.jumpLabel? = some label → U label)
    (clear : Site.Clear U s f) :
  (u.lowerBody m).Keeps U s f fun _ t g => Site.Clear U t g
  := by
  have whole := u.lowerFrom_append m 0 m.body []
  rw [List.append_nil] at whole
  rw [lowerBody, whole]
  apply (lowerRow_keeps known jumps clear).bind
  intro _ s₁ f₁ clear
  apply labels_keep (labelsAt_known known _) clear

end ClassUnit

end StackBackend
