import StackBackend.Proofs.Kinds.Lines
import StackBackend.Proofs.Lowering.Outcome
import StackBackend.Proofs.Lowering.Tables
import StackBackend.Proofs.Source.Rereading

/-!
# Methods that have code

A method that a text declares has code when each of its instructions can be expressed. What a text can
say and code cannot is little: a number that is too large, a receiver in a static method, and some forms
of instructions. Besides, the operand stack is counted in a signed word, which does for all code of
fewer lines than that word can count.
-/

namespace StackBackend

/-! ### Heights -/

namespace Frame

variable {U : String → Prop} {f g : Frame} {n : Nat} {lines : List Line} {line : Line} {i : Inst}

/-- Neither the height of the stack nor one that is recorded is greater than `n`. -/
structure Within (n : Nat) (f : Frame) : Prop where
  height : f.height ≤ n
  recorded : ∀ (label : String) (h : Nat), f.heights[label]? = some h → h ≤ n

/-- At the start the stack is empty. -/
theorem within_start (entrySlots : Nat) :
  (Frame.start entrySlots).Within 0
  := by
  constructor
  · apply Nat.le_refl 0
  · simp [start]

/-- An instruction that leaves one value at most raises the stack by one at most. -/
theorem Within.passInst (within : f.Within n) (light : i.pushes ≤ 1) :
  (f.passInst i (i.leave f.height)).Within (n + 1)
  := by
  have height := within.height
  have raised : i.leave f.height ≤ n + 1 := by
    rw [Inst.leave]
    omega
  constructor
  · simp only [Frame.passInst]
    split
    · apply Nat.zero_le _
    · apply raised
  · intro label h recorded
    simp only [Frame.passInst] at recorded
    split at recorded
    · obtain old | ⟨-, rfl⟩ := getElem?_insertIfNew_cases recorded
      · apply Nat.le_succ_of_le (within.recorded label h old)
      · apply raised
    · apply Nat.le_succ_of_le (within.recorded label h recorded)

/-- A label leaves the height within the bound. -/
theorem Within.passLabel (within : f.Within n) (label : String) :
  (f.passLabel label).Within n
  := by
  unfold Frame.passLabel
  split
  · constructor
    · cases recorded : f.heights[label]? with
      | none => apply Nat.zero_le n
      | some h => apply within.recorded label h recorded
    · apply within.recorded
  · use within.height
    intro label' h recorded
    obtain old | ⟨-, rfl⟩ := getElem?_insertIfNew_cases recorded
    · apply within.recorded label' h old
    · apply within.height

/-- A line raises the stack by one at most. -/
theorem Within.step (within : f.Within n) (admits : f.Admits U line)
    (light : ∀ i, line = .inst i → i.pushes ≤ 1) (stepped : f.step line = .ok g) :
  g.Within (n + 1)
  := by
  cases line with
  | label label =>
      obtain rfl := Except.ok.inj stepped
      have passed := within.passLabel label
      use Nat.le_succ_of_le passed.height
      intro l h r
      apply Nat.le_succ_of_le (passed.recorded l h r)
  | inst i =>
      obtain ⟨-, rfl⟩ := Bears.step_eq_ok admits stepped
      apply within.passInst (light i rfl)

/-- The stack grows by one with each line at most. -/
theorem AdmitsAll.within (admits : f.AdmitsAll U lines) (within : f.Within n)
    (light : ∀ i, .inst i ∈ lines → i.pushes ≤ 1) (counted : f.replay lines = .ok g) :
  g.Within (n + lines.length)
  := by
  induction lines generalizing f n with
  | nil =>
      obtain rfl := Except.ok.inj counted
      apply within
  | cons line lines ih =>
      obtain ⟨f', stepped, counted⟩ := replay_cons_eq_ok.1 counted
      have next := within.step admits.1 (fun i same => light i (same ▸ List.mem_cons_self)) stepped
      have rest := ih (admits.2 f' stepped) next (fun i mem => light i (List.mem_cons_of_mem line mem)) counted
      rwa [List.length_cons, Nat.add_comm lines.length, ← Nat.add_assoc]

/-- Where the stack outgrows its count there are as many lines as can be counted. -/
theorem AdmitsAll.overflow_le (admits : f.AdmitsAll U lines) (within : f.Within n)
    (light : ∀ i, .inst i ∈ lines → i.pushes ≤ 1) (failed : f.replay lines = .error (.overflow i)) :
  0x80000000 ≤ n + lines.length
  := by
  induction lines generalizing f n with
  | nil => cases failed
  | cons line lines ih =>
      rw [replay_cons] at failed
      rw [List.length_cons]
      obtain failed | ⟨f', stepped, failed⟩ := eq_error_of_bind failed
      · cases line with
        | label label => cases failed
        | inst i' =>
            have height := within.height
            have pushed := light i' List.mem_cons_self
            rw [Bears.step admits.1] at failed
            split at failed
            · cases failed
            · next large =>
                rw [Inst.leave] at large
                omega
      · have next := within.step admits.1 (fun i same => light i (same ▸ List.mem_cons_self)) stepped
        have rest := ih (admits.2 f' stepped) next (fun i mem => light i (List.mem_cons_of_mem line mem)) failed
        omega

end Frame

/-- No instruction of lowered code pushes more than one value. -/
theorem Inst.IsFaithful.pushes_le {i : Inst} (faithful : i.IsFaithful) :
  i.pushes ≤ 1
  := by
  cases i with
  | invoke kind target pops pushes =>
      have counted : pushes = (Action.invoke kind target).gives.toList.length := faithful.2
      rw [Inst.pushes, counted]
      cases (Action.invoke kind target).gives <;> simp
  | _ => simp [Inst.pushes]

namespace ClassUnit

variable {u : ClassUnit} {m : Method}

/-- The stack of a method outgrows its count only if its body has as many lines as can be counted; the closing
line does not change the height. -/
theorem overflow_le (jumps : m.JumpsInside)
    (light : ∀ i, .inst i ∈ (u.lowerBody m (.ofLabels (m.labels.map Prod.fst))).1 → i.pushes ≤ 1) {i : Inst}
    (failed : u.methodCode m = .error (.frame (.overflow i))) :
  0x80000000 ≤ (u.lowerBody m (.ofLabels (m.labels.map Prod.fst))).1.length
  := by
  have admits := (u.lowerBody_keeps (fun _ mem => mem) jumps (clear_start m)).admits
  obtain ⟨body, written, failed | ⟨f, counted, failed | ⟨f', closed, failed⟩⟩⟩ := methodCode_eq_frame failed
  · rw [written] at admits light ⊢
    have large := admits.overflow_le (Frame.within_start _) light failed
    rwa [Nat.zero_add] at large
  · rw [written] at admits light ⊢
    have height := (admits.within (Frame.within_start _) light counted).height
    have bears : f.Bears m.IsLabel (.ret none) := ⟨rfl, Nat.zero_le _, by simp [Inst.jumpLabel?]⟩
    unfold Method.closing at failed
    split at failed
    · rw [Frame.replay_cons, bears.step] at failed
      split at failed
      · cases failed
      · next large =>
          simp only [Inst.leave, Inst.pops, Inst.pushes] at large
          omega
    · cases failed
  · have whole : (Frame.start m.entrySlots).replay (body ++ m.closing f) = .ok f' := by
      rw [Frame.replay_append_of_ok counted, closed]
    obtain ⟨g, fused⟩ := (Frame.SameCore.refl _).replay_fuseIn (body ++ m.closing f) whole
    rw [fuseIncrements, fused] at failed
    cases failed

end ClassUnit

/-! ### Literals -/

/-- A literal of a text can be loaded if it is a string or fits a word. -/
theorem IsInteger.isLoadable_iff {value : String} (integer : IsInteger value) (ty : Ty) :
  IsLoadable value ty ↔
    (ty ≠ .string → ∃ v, Text.signed? value.toList = some v ∧ -0x80000000 ≤ v ∧ v < 0x80000000)
  := by
  have notWord : value ≠ "true" ∧ value ≠ "false" := by
    constructor
    · rintro rfl
      revert integer
      decide
    · rintro rfl
      revert integer
      decide
  have number : Site.literalValue? value ty = Text.integer? 32 value := by
    simp [Site.literalValue?, notWord]
  rw [IsLoadable, number, Text.integer?, or_iff_not_imp_left]
  simp only [Option.isSome_filter, Option.any_eq_true, decide_eq_true_eq]
  rfl

/-! ### Instructions of a text -/

/-- The literals of an operand that is read are integers. -/
theorem Operand.IsWritten.isInteger {e : Operand} (written : e.IsWritten) :
  ∀ l ∈ e.literals, IsInteger l.1
  := by
  have plain {e : Operand} (plain : e.IsPlain) : ∀ l ∈ e.literals, IsInteger l.1 := by
    induction e with
    | literal value ty => simpa [literals] using plain.1
    | var => simp [literals]
    | item x index ty ih => apply ih plain.2.1
  obtain written | ⟨x, -, rfl⟩ := written
  · apply plain written
  · simp [literals]

/-- Typing the receiver changes no literal. -/
theorem literals_typeReceiver (owner : String) (e : Operand) :
  (typeReceiver owner e).literals = e.literals
  := by
  cases e with
  | literal | item => rfl
  | var x ty => by_cases receiver : x = "this" <;> simp [typeReceiver, receiver, Operand.literals]

namespace Instr

variable {i : Instr} {owner : String}

/-- Nor what an instruction reads, apart from that type. -/
theorem reads_map_typeReceiver (i : Instr) :
  (i.map (typeReceiver owner)).reads = i.reads.map (typeReceiver owner)
  := by
  induction i with
  | assign dest ty rhs ih =>
      cases dest with
      | literal | item => simp [map, reads, typeReceiver, ih]
      | var x ty =>
          by_cases receiver : x = "this" <;> simp [map, reads, typeReceiver, receiver, ih]
  | ret ty value => cases value <;> rfl
  | call kind receiver method args result => cases kind <;> simp [map, reads]
  | branch cond label => apply operands_map _ cond
  | _ => rfl

/-- The operands of an expression that is read. -/
theorem IsWrittenExpr.reads (written : i.IsWrittenExpr) :
  ∀ e ∈ i.reads, e.IsWritten
  := by
  cases i with
  | single | arrayLength => exact List.forall_mem_singleton.2 (.inl written)
  | binary op lhs rhs ty =>
      rw [Instr.reads, List.forall_mem_cons, List.forall_mem_singleton]
      constructor
      · left
        apply written.1
      · left
        apply written.2.1
  | unary op e ty => exact List.forall_mem_singleton.2 (.inl written.1)
  | call kind receiver method args result =>
      obtain ⟨object, -, plain, -⟩ := written
      have args : ∀ e ∈ args, e.IsWritten := fun e mem => .inl (plain e mem)
      rw [Instr.reads]
      split
      · apply args
      · apply List.forall_mem_cons.2 ⟨object, args⟩
  | new ty args =>
      intro e mem
      left
      apply written.2 e mem
  | getField object field ty => apply List.forall_mem_singleton.2 written.1
  | assign | ret | putField | goto | branch => apply written.elim

/-- What an instruction of a text reads is as it is read. -/
theorem IsWritten.reads (written : i.IsWritten) :
  ∀ e ∈ i.reads, e.IsWritten
  := by
  cases i with
  | assign dest ty rhs =>
      obtain ⟨plain, -, expr⟩ := written
      cases dest with
      | literal | var => apply expr.reads
      | item x index ty' =>
          rw [Instr.reads, List.forall_mem_append, List.forall_mem_singleton]
          use expr.reads
          left
          apply plain
  | goto label => simp [Instr.reads]
  | branch cond label =>
      intro e mem
      left
      apply written.1 e mem
  | ret ty value =>
      intro e mem
      left
      apply written.2 e (Option.mem_toList.1 mem)
  | putField object field ty value =>
      rw [Instr.reads, List.forall_mem_cons, List.forall_mem_singleton]
      use written.1
      left
      apply written.2.2.2
  | single | binary | unary | call | new | getField | arrayLength =>
      rw [IsWritten] at written
      · apply written.reads
      all_goals simp

/-- What is read as an expression is one. -/
theorem IsWrittenExpr.isExpression (written : i.IsWrittenExpr) :
  (i.map (typeReceiver owner)).isExpression = true
  := by
  cases i with
  | assign | ret | putField | goto | branch => apply written.elim
  | single | binary | unary | call | new | getField | arrayLength => rfl

/-- An instruction that is read has a regular form, if it assigns to no literal. -/
theorem IsWritten.isRegular (written : i.IsWritten) (assignable : ∀ e ∈ i.target?, e.isLiteral = false) :
  (i.map (typeReceiver owner)).IsRegular
  := by
  cases i with
  | assign dest ty rhs =>
      constructor
      · rw [isLiteral_typeReceiver]
        apply assignable dest rfl
      · apply written.2.2.isExpression
  | _ => trivial

/-- What is written is a variable, or an element of an array, which is read as well. -/
theorem mem_reads_of_target (regular : i.IsRegular) {e : Operand} (target : i.target? = some e) :
  (∃ x ty, e = .var x ty) ∨ e ∈ i.reads
  := by
  cases i with
  | assign dest ty rhs =>
      obtain rfl := Option.some.inj target
      cases dest with
      | literal => cases regular.1
      | var x ty =>
          left
          use x, ty
      | item x index ty =>
          right
          simp [Instr.reads]
  | _ => cases target

/-- The variables of the operands are those that are written or read. -/
theorem exists_operand_iff (regular : i.IsRegular) {x : String} :
  (∃ e ∈ i.target?.toList ++ i.reads, x ∈ e.names) ↔ x ∈ i.defs ∨ x ∈ i.uses
  := by
  rw [mem_defs, mem_uses]
  constructor
  · rintro ⟨e, mem, named⟩
    rw [List.mem_append, Option.mem_toList] at mem
    obtain target | mem := mem
    · obtain ⟨y, ty, rfl⟩ | mem := mem_reads_of_target regular target
      · left
        rw [List.mem_singleton.1 named]
        use ty, target
      · right
        use e, mem, named
    · right
      use e, mem, named
  · rintro (⟨ty, target⟩ | ⟨e, mem, named⟩)
    · exact ⟨_, List.mem_append_left _ (Option.mem_toList.2 target), List.mem_cons_self⟩
    · use e, List.mem_append_right _ mem, named

end Instr

variable {text : String} {u : ClassUnit} {m : Method} {i : Instr}

/-- An instruction of a text assigns an expression, and not to a literal; its literals are integers. -/
theorem isRegular_of_parse (read : parse text = .ok u) (mem : m ∈ u.methods) (listed : i ∈ m.body) :
  i.IsRegular ∧ ∀ e ∈ i.reads, ∀ l ∈ e.literals, IsInteger l.1
  := by
  obtain ⟨d, written, checked⟩ := exists_isWritten_of_parse read mem
  obtain ⟨sound, rfl⟩ := MethodDecl.eq_of_check checked
  obtain ⟨i, mem', rfl⟩ := List.mem_map.1 listed
  have written := written.isWritten_of_mem mem'
  constructor
  · apply written.isRegular
    intro e
    apply isLiteral_of_itemFault? sound mem'
  · rw [Instr.reads_map_typeReceiver, List.forall_mem_map]
    intro e mem
    rw [literals_typeReceiver]
    apply (written.reads e mem).isInteger

/-! ### Expressible instructions -/

/-- The instruction can be expressed in the method. The literals that it reads, those in indices
included, are strings or fit a word. It neither writes nor reads a receiver, unless the method has one
or a parameter of that name. And its form is one of those that have code. -/
structure Method.Expresses (m : Method) (i : Instr) : Prop where
  literals : ∀ e ∈ i.reads, ∀ l ∈ e.literals, l.2 ≠ .string →
    ∃ v, Text.signed? l.1.toList = some v ∧ -0x80000000 ≤ v ∧ v < 0x80000000
  receiver : "this" ∈ i.defs ∨ "this" ∈ i.uses → m.isStatic = false ∨ ∃ p ∈ m.params, p.name = "this"
  form : i.HasCode

/-- An instruction of a text can be expressed exactly when its form has code and its operands can be
loaded. -/
theorem expresses_iff (read : parse text = .ok u) (mem : m ∈ u.methods) (listed : i ∈ m.body) :
  m.Expresses i ↔ i.HasCode ∧ ∀ e ∈ i.target?.toList ++ i.reads, e.Loads m.vars
  := by
  obtain ⟨regular, integers⟩ := isRegular_of_parse read mem listed
  have entered {e : Operand} (operand : e ∈ i.target?.toList ++ i.reads) {x : String} (named : x ∈ e.names) :
      x ∈ m.vars ↔ (x = "this" → m.isStatic = false ∨ ∃ p ∈ m.params, p.name = "this") := by
    rw [vars_of_parse read mem]
    apply mem_variableTable listed operand named
  constructor
  · intro expresses
    have loaded : ∀ e ∈ i.reads, ∀ l ∈ e.literals, IsLoadable l.1 l.2 := fun e mem l inside =>
      ((integers e mem l inside).isLoadable_iff l.2).2 (expresses.literals e mem l inside)
    use expresses.form
    intro e operand
    constructor
    · intro x named
      rw [entered operand named]
      rintro rfl
      apply expresses.receiver
      apply (Instr.exists_operand_iff regular).1
      use e, operand, named
    · rw [List.mem_append, Option.mem_toList] at operand
      obtain target | operand := operand
      · obtain ⟨x, ty, rfl⟩ | operand := Instr.mem_reads_of_target regular target
        · simp [Operand.literals]
        · apply loaded e operand
      · apply loaded e operand
  · rintro ⟨form, loads⟩
    constructor
    · intro e mem l inside
      apply ((integers e mem l inside).isLoadable_iff l.2).1
      apply (loads e (List.mem_append_right _ mem)).literals l inside
    · intro mentioned
      obtain ⟨e, operand, named⟩ := (Instr.exists_operand_iff regular).2 mentioned
      apply (entered operand named).1 ((loads e operand).names _ named) rfl
    · apply form

/-- All instructions of a method can be expressed exactly when all have code. -/
theorem forall_expresses_iff (read : parse text = .ok u) (mem : m ∈ u.methods) :
  (∀ i ∈ m.body, m.Expresses i) ↔ (∀ i ∈ m.body, i.HasCode)
    ∧ ∀ e ∈ m.body.flatMap fun i => i.target?.toList ++ i.reads, e.Loads m.vars
  := by
  simp only [List.mem_flatMap]
  constructor
  · intro expressed
    constructor
    · intro i listed
      apply (expressed i listed).form
    · rintro e ⟨i, listed, operand⟩
      apply ((expresses_iff read mem listed).1 (expressed i listed)).2 e operand
  · rintro ⟨forms, loads⟩ i listed
    rw [expresses_iff read mem listed]
    use forms i listed
    intro e operand
    apply loads e
    use i, listed, operand

/-- A method that a text declares has code exactly when each of its instructions can be expressed, unless
the operand stack outgrows its count, which takes a body of more lines than a signed word can count. A
variable is missing only if it is the receiver, which some instruction of a static method without a
parameter of that name writes or reads. -/
theorem methodCode_ok_iff_expresses (read : parse text = .ok u) (mem : m ∈ u.methods) :
  ((∃ code, u.methodCode m = .ok code) ↔
      (∀ i ∈ m.body, m.Expresses i) ∧ ∀ i, u.methodCode m ≠ .error (.frame (.overflow i)))
    ∧ (∀ i, u.methodCode m = .error (.frame (.overflow i)) →
      0x80000000 ≤ (u.lowerBody m (.ofLabels (m.labels.map Prod.fst))).1.length)
    ∧ ∀ x method instr, u.methodCode m = .error (.lowering (.missingVariable x method instr)) →
      x = "this" ∧ m.isStatic = true ∧ (∀ p ∈ m.params, p.name ≠ "this")
        ∧ ∃ i ∈ m.body, "this" ∈ i.defs ∨ "this" ∈ i.uses
  := by
  obtain ⟨imports, declared⟩ := declared_of_parse read
  have jumps : m.JumpsInside := (declared m mem).labelled.jumps
  have regular : ∀ i ∈ m.body, i.IsRegular := fun i listed => (isRegular_of_parse read mem listed).1
  have decides := u.lowerFrom_decides (m := m) regular 0
  and_intros
  · rw [forall_expresses_iff read mem]
    constructor
    · rintro ⟨code, made⟩
      obtain ⟨body, left, f, f', steps⟩ := u.methodCode_eq_ok made
      use decides.ok steps.writes
      simp [made]
    · rintro ⟨expressed, fits⟩
      rcases made : u.methodCode m with (e | (i | i)) | code
      · apply (decides.error (u.methodCode_eq_lowering made) expressed).elim
      · apply (u.methodCode_ne_underflow jumps i made).elim
      · apply (fits i made).elim
      · use code
  · intro i failed
    apply u.overflow_le jumps _ failed
    intro i' written
    apply (u.lowerFrom_faithful imports (declared m mem).proper 0 _ i' written).pushes_le
  · intro x method instr failed
    obtain ⟨absent, e, operand, named⟩ := decides.missing (u.methodCode_eq_lowering failed)
    obtain ⟨i, listed, operand⟩ := List.mem_flatMap.1 operand
    rw [vars_of_parse read mem, mem_variableTable listed operand named, Classical.not_imp, not_or] at absent
    obtain ⟨rfl, isStatic, params⟩ := absent
    and_intros
    · rfl
    · simpa using isStatic
    · intro p given receiver
      apply params
      use p, given, receiver
    · use i, listed
      apply (Instr.exists_operand_iff (regular i listed)).1
      use e, operand, named

/-- A class with two static methods. The first one names its class by the receiver and assigns the least
number of a word, and the second one assigns the number after the greatest. -/
def boundaryText : String :=
  "A\x7b.method static f(n.i32).V\x7bn.i32:=.i32 -2147483648.i32;invokestatic(this,\"f\",n.i32).V;\x7d"
    ++ ".method static g(n.i32).V\x7bn.i32:=.i32 2147483648.i32;\x7d\x7d"

/-- The least number has code, and the number after the greatest has none. -/
theorem boundary_expresses :
  ∃ u m m', parse boundaryText = .ok u ∧ m ∈ u.methods ∧ m' ∈ u.methods
    ∧ (∃ code, u.methodCode m = .ok code) ∧ (∀ i ∈ m.body, m.Expresses i)
    ∧ u.methodCode m' = .error (.lowering (.invalidLiteral "2147483648" "n.i32 :=.i32 2147483648.i32"))
    ∧ ¬ ∀ i ∈ m'.body, m'.Expresses i
  := by
  have checked : ((parse boundaryText).toOption.any fun u =>
      u.methods[0]?.any (fun m => (u.methodCode m).toOption.isSome)
        && u.methods[1]?.any fun m' => decide (u.methodCode m'
          = .error (.lowering (.invalidLiteral "2147483648" "n.i32 :=.i32 2147483648.i32")))) = true := by
    decide +kernel
  rw [Option.any_eq_true] at checked
  obtain ⟨u, parsed, checked⟩ := checked
  rw [Bool.and_eq_true, Option.any_eq_true, Option.any_eq_true] at checked
  obtain ⟨⟨m, first, coded⟩, m', second, failed⟩ := checked
  obtain ⟨code, made⟩ := Option.isSome_iff_exists.1 coded
  have parsed := eq_ok_of_toOption parsed
  have made := eq_ok_of_toOption made
  have failed := of_decide_eq_true failed
  have mem := List.mem_of_getElem? first
  have mem' := List.mem_of_getElem? second
  refine ⟨u, m, m', parsed, mem, mem', ⟨code, made⟩, ?_, failed, ?_⟩
  · apply ((methodCode_ok_iff_expresses parsed mem).1.1 ⟨code, made⟩).1
  · intro expressed
    obtain ⟨code', made'⟩ := (methodCode_ok_iff_expresses parsed mem').1.2 ⟨expressed, by simp [failed]⟩
    rw [failed] at made'
    cases made'

end StackBackend
