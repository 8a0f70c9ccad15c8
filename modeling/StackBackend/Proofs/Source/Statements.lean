import StackBackend.Proofs.Source.Operands

/-!
# Reading expressions and statements

The readers of expressions, conditions and statements recognise their forms. An expression or a
statement that begins with an operand goes on by what follows it; every other form is known by its
first token, the head.
-/

namespace StackBackend

/-! ### Expressions -/

namespace Form

variable {ts rest : List (Located Token)} {i : Instr}

/-- What follows the first operand of an expression. -/
def exprAfter (lhs : Operand) : Form Instr :=
  (do
    let op ← binaryOp
    let ty ← tySuffix
    let rhs ← operand
    return .binary op lhs rhs ty)
  ∪ pure (.single lhs)

/-- What a new object or array is named by. -/
def newHead : Form Unit := word .wArray ∪ do let _ ← ident

/-- A new object or array. -/
def new : Form Instr := do
  word .wNew
  word .lparen
  newHead
  let args ← args
  word .rparen
  let ty ← tySuffix
  return .new ty args

/-- The word after `new` is one of two, and is not kept. -/
theorem newHead_bind {H : Form Instr} :
  (newHead >>= fun _ => H) ts i ↔ ((word .wArray >>= fun _ => H) ∪ (ident >>= fun _ => H)) ts i
  := by
  constructor
  · rintro ⟨us, vs, _, rfl, row | ⟨us, _, x, rfl, name, rfl, -⟩, rest⟩
    · left
      use us, vs, (), rfl, row, rest
    · right
      use us, vs, x
      simp [name, rest]
  · rintro (⟨us, vs, _, rfl, row, rest⟩ | ⟨us, vs, x, rfl, name, rest⟩)
    · use us, vs, (), rfl, .inl row, rest
    · have row : (do let _ ← ident : Form Unit) us () := by
        use us, [], x, (List.append_nil us).symm, name
        trivial
      use us, vs, (), rfl, .inr row, rest

/-- The two forms of `new` differ only in what names the class. -/
theorem new_iff :
  new ts i ↔ (newArray ∪ newObject) ts i
  := by
  apply Iff.trans _ bind_union.symm
  apply bind_congr
  intro _ us
  apply Iff.trans _ bind_union.symm
  apply bind_congr
  intro _ vs
  apply newHead_bind

/-- An expression with an operator and one without begin with an operand. -/
theorem binary_union_single :
  (binary ∪ single) ts i ↔ (operand >>= exprAfter) ts i
  := bind_union

theorem binaryOp_begins :
  Begins (fun t => (Reader.binaryOp? t).isSome = true) binaryOp
  := oneOf_begins (by decide)

/-- The forms of expressions that do not begin with an operand, with the tokens they begin with. -/
inductive ExprHead : Token → Form Instr → Prop
  | callStatic : ExprHead (.fixed .wInvokeStatic) call
  | callVirtual : ExprHead (.fixed .wInvokeVirtual) call
  | callSpecial : ExprHead (.fixed .wInvokeSpecial) call
  | new : ExprHead (.fixed .wNew) new
  | getField : ExprHead (.fixed .wGetField) getField
  | arrayLength : ExprHead (.fixed .wArrayLength) arrayLength
  | not : ExprHead (.fixed .bang) unary
  | neg : ExprHead (.fixed .minus) unary

theorem call_begins :
  Begins (ExprHead · call) call
  := by
  apply (oneOf_begins _).bind
  simp [ExprHead.callStatic, ExprHead.callVirtual, ExprHead.callSpecial]

theorem new_begins :
  Begins (ExprHead · new) new
  := (word_begins _).bind.mono fun _ same => same ▸ .new

theorem getField_begins :
  Begins (ExprHead · getField) getField
  := (word_begins _).bind.mono fun _ same => same ▸ .getField

theorem arrayLength_begins :
  Begins (ExprHead · arrayLength) arrayLength
  := (word_begins _).bind.mono fun _ same => same ▸ .arrayLength

theorem unary_begins :
  Begins (ExprHead · unary) unary
  := by
  apply (oneOf_begins _).bind
  simp [ExprHead.not, ExprHead.neg]

/-- An expression begins with one of the heads or with an operand. -/
theorem expr_cases (row : expr ts i) (rest : List (Located Token)) :
  (∃ t G, front (ts ++ rest) = some t ∧ ExprHead t G ∧ G ts i) ∨ (operand >>= exprAfter) ts i
  := by
  have headed {G : Form Instr} (begins : Begins (ExprHead · G) G) (row : G ts i) :
      ∃ t G, front (ts ++ rest) = some t ∧ ExprHead t G ∧ G ts i := by
    obtain ⟨t, place, head⟩ := front_append_of_begins begins row rest
    use t, G, place, head, row
  obtain ((((((row | row) | row) | row) | row) | row) | row) | row := row
  · left
    apply headed call_begins row
  · left
    apply headed new_begins (new_iff.2 (.inl row))
  · left
    apply headed new_begins (new_iff.2 (.inr row))
  · left
    apply headed getField_begins row
  · left
    apply headed arrayLength_begins row
  · left
    apply headed unary_begins row
  · right
    apply binary_union_single.1 (.inl row)
  · right
    apply binary_union_single.1 (.inr row)

/-- A row that begins with the first token of an expression without operand in front. -/
theorem expr_of_head {t : Token} {G : Form Instr} (head : ExprHead t G) (row : G ts i) :
  expr ts i
  := by
  cases head with
  | callStatic | callVirtual | callSpecial =>
      left
      left
      left
      left
      left
      left
      left
      apply row
  | new =>
      obtain row | row := new_iff.1 row
      · left
        left
        left
        left
        left
        left
        right
        apply row
      · left
        left
        left
        left
        left
        right
        apply row
  | getField =>
      left
      left
      left
      left
      right
      apply row
  | arrayLength =>
      left
      left
      left
      right
      apply row
  | not | neg =>
      left
      left
      right
      apply row

/-- A row that begins with an operand. -/
theorem expr_of_operand (row : (operand >>= exprAfter) ts i) :
  expr ts i
  := by
  obtain row | row := binary_union_single.2 row
  · left
    right
    apply row
  · right
    apply row

/-- No operand begins with such a token. -/
theorem ExprHead.not_beginsOperand {t : Token} {G : Form Instr} (head : ExprHead t G) :
  Reader.beginsOperand t = false
  := by
  cases head <;> rfl

/-- The head of an expression decides its form. -/
theorem expr_iff_of_head {t : Token} {G : Form Instr} (head : ExprHead t G)
    (place : front (ts ++ rest) = some t) :
  expr ts i ↔ G ts i
  := by
  constructor
  · intro row
    obtain ⟨t', G', place', head', row⟩ | row := expr_cases row rest
    · obtain rfl : t = t' := Option.some.inj (place.symm.trans place')
      cases head <;> cases head' <;> exact row
    · obtain ⟨t', place', begins⟩ := front_append_of_begins operand_begins.bind row rest
      obtain rfl : t = t' := Option.some.inj (place.symm.trans place')
      simp [head.not_beginsOperand] at begins
  · apply expr_of_head head

/-- Without such a token in front an expression begins with an operand. -/
theorem expr_iff_of_no_head (rest : List (Located Token))
    (other : ∀ t G, front (ts ++ rest) = some t → ¬ ExprHead t G) :
  expr ts i ↔ (operand >>= exprAfter) ts i
  := by
  constructor
  · intro row
    obtain ⟨t, G, place, head, -⟩ | row := expr_cases row rest
    · apply (other t G place head).elim
    · apply row
  · apply expr_of_operand

end Form

namespace Reader

/-- Something else than a binary operator follows. -/
def NoOperator : Option Token → Prop := fun t => (t.bind binaryOp?).isSome = false

/-- What follows an operand: an operator with its type and another operand, or nothing. -/
theorem afterOperand_reads {α : Type} (value : BinaryOp → Ty → Operand → α) (alone : α) :
  Reads (do
    if ((← peek).bind binaryOp?).isSome then
      let op ← accept binaryOp?
      let ty ← tySuffix .other
      return value op ty (← operand)
    else
      return alone)
    ((do
      let op ← Form.binaryOp
      let ty ← Form.tySuffix
      let rhs ← Form.operand
      return value op ty rhs)
    ∪ pure alone) NoOperator
  := by
  have operation : Reads (do
      let op ← accept binaryOp?
      let ty ← tySuffix .other
      return value op ty (← operand))
      (do
        let op ← Form.binaryOp
        let ty ← Form.tySuffix
        let rhs ← Form.operand
        return value op ty rhs) Any := by
    apply binaryOp_reads.step
    intro op
    apply (tySuffix_reads _).step
    intro ty
    apply operand_reads.step
    intro rhs
    apply pure_reads
  intro t
  apply ReadsFrom.peek
  split
  · next more =>
      apply (operation.any t).goOn
      simp [NoOperator, more]
  · next done =>
      apply ReadsFrom.stop Form.binaryOp_begins.bind
      rintro u rfl
      apply done

theorem exprAfter_reads (lhs : Operand) :
  Reads (exprAfter lhs) (Form.exprAfter lhs) NoOperator
  := afterOperand_reads _ _

theorem call_reads :
  Reads call Form.call Any
  := by
  apply callKind_reads.step
  intro kind
  apply (fixed_reads _).step
  intro _
  apply receiver_reads.before _ rfl
  intro object
  apply (fixed_reads _).step
  intro _
  apply str_reads.step
  intro method
  apply args_reads.before _ (by simp [NoComma])
  intro args
  apply (fixed_reads _).step
  intro _
  apply (tySuffix_reads _).step
  intro result
  apply pure_reads

/-- The word `array` or a name. -/
theorem newHead_reads :
  Reads (accept fun
    | .fixed .wArray | .ident _ => some ()
    | _ => none) Form.newHead Any
  := by
  apply accept_reads
  intro ts _
  constructor
  · rintro (row | ⟨us, _, x, rfl, row, rfl, -⟩)
    · obtain ⟨t, rfl, mark⟩ := Form.word_iff.1 row
      use t, rfl
      simp [mark]
    · obtain ⟨t, rfl, name⟩ := Form.ident_iff.1 row
      use t, rfl
      simp [name]
  · rintro ⟨t, rfl, found⟩
    split at found
    · next mark =>
        left
        apply Form.word_iff.2
        use t, rfl, mark
    · next x name =>
        have row : Form.ident [t] x := by
          apply Form.ident_iff.2
          use t, rfl, name
        right
        use [t], [], x, rfl, row
        trivial
    · cases found

theorem new_reads :
  Reads new Form.new Any
  := by
  apply (fixed_reads _).step
  intro _
  apply (fixed_reads _).step
  intro _
  apply newHead_reads.step
  intro _
  apply args_reads.before _ (by simp [NoComma])
  intro args
  apply (fixed_reads _).step
  intro _
  apply (tySuffix_reads _).step
  intro ty
  apply pure_reads

theorem getField_reads :
  Reads getField Form.getField Any
  := by
  apply (fixed_reads _).step
  intro _
  apply (fixed_reads _).step
  intro _
  apply receiver_reads.before _ rfl
  intro object
  apply (fixed_reads _).step
  intro _
  apply fieldRef_reads.step
  intro field
  apply (fixed_reads _).step
  intro _
  apply (tySuffix_reads _).step
  intro ty
  apply pure_reads

theorem putField_reads :
  Reads putField Form.putField Any
  := by
  apply (fixed_reads _).step
  intro _
  apply (fixed_reads _).step
  intro _
  apply receiver_reads.before _ rfl
  intro object
  apply (fixed_reads _).step
  intro _
  apply fieldRef_reads.step
  intro field
  apply (fixed_reads _).step
  intro _
  apply operand_reads.step
  intro value
  apply (fixed_reads _).step
  intro _
  apply (tySuffix_reads _).step
  intro ty
  apply pure_reads

theorem arrayLength_reads :
  Reads arrayLength Form.arrayLength Any
  := by
  apply (fixed_reads _).step
  intro _
  apply (fixed_reads _).step
  intro _
  apply operand_reads.step
  intro e
  apply (fixed_reads _).step
  intro _
  apply (tySuffix_reads _).step
  intro ty
  apply pure_reads

theorem unary_reads :
  Reads unary Form.unary Any
  := by
  apply unaryOp_reads.step
  intro op
  apply (tySuffix_reads _).step
  intro ty
  apply operand_reads.step
  intro e
  apply pure_reads

/-- The first token decides between the forms of expressions. -/
theorem expr_reads :
  Reads expr Form.expr NoOperator
  := by
  have begun : Reads (do exprAfter (← operand)) (Form.operand >>= Form.exprAfter) NoOperator :=
    operand_reads.step exprAfter_reads
  intro t
  apply ReadsFrom.peek
  split
  · apply (call_reads.any _).congr
    intro _ _ _
    apply Form.expr_iff_of_head .callStatic
  · apply (call_reads.any _).congr
    intro _ _ _
    apply Form.expr_iff_of_head .callVirtual
  · apply (call_reads.any _).congr
    intro _ _ _
    apply Form.expr_iff_of_head .callSpecial
  · apply (new_reads.any _).congr
    intro _ _ _
    apply Form.expr_iff_of_head .new
  · apply (getField_reads.any _).congr
    intro _ _ _
    apply Form.expr_iff_of_head .getField
  · apply (arrayLength_reads.any _).congr
    intro _ _ _
    apply Form.expr_iff_of_head .arrayLength
  · apply (unary_reads.any _).congr
    intro _ _ _
    apply Form.expr_iff_of_head .not
  · apply (unary_reads.any _).congr
    intro _ _ _
    apply Form.expr_iff_of_head .neg
  · apply (begun t).congr
    intro ts i rest place
    apply Form.expr_iff_of_no_head rest
    intro u G place' head
    cases head <;> simp_all

end Reader

/-! ### Statements -/

namespace Form

variable {ts rest : List (Located Token)} {i : Instr}

/-- What follows the first operand of a condition. -/
def conditionAfter (lhs : Operand) : Form Condition :=
  (do
    let op ← binaryOp
    let _ ← tySuffix
    let rhs ← operand
    return .compare op lhs rhs)
  ∪ pure (.test lhs)

/-- What follows the type of a return. -/
def retAfter (ty : Ty) : Form Instr :=
  (do
    let e ← operand
    return .ret ty (some e))
  ∪ pure (.ret ty none)

/-- What follows the first operand of a statement. -/
def statementAfter (e : Operand) : Form Instr :=
  (do
    word .becomes
    let ty ← tySuffix
    let rhs ← expr
    return .assign e ty rhs)
  ∪ exprAfter e

/-- A comparison and a test begin with an operand. -/
theorem condition_iff {cond : Condition} :
  condition ts cond ↔ (negation ∪ (operand >>= conditionAfter)) ts cond
  := by
  constructor
  · rintro ((row | row) | row)
    · left
      apply row
    · right
      apply bind_union.1 (.inl row)
    · right
      apply bind_union.1 (.inr row)
  · rintro (row | row)
    · left
      left
      apply row
    · obtain row | row := bind_union.2 row
      · left
        right
        apply row
      · right
        apply row

/-- The two forms of return have their beginning in common. -/
theorem ret_iff :
  ret ts i ↔ (do
    word .wRet
    let ty ← tySuffix
    retAfter ty : Form Instr) ts i
  := by
  apply bind_congr
  intro _ us
  apply bind_congr
  intro ty vs
  constructor
  · rintro ⟨_, _, value, rfl, ⟨us, _, e, rfl, row, rfl, rfl⟩ | ⟨rfl, rfl⟩, rfl, rfl⟩
    · left
      use us, [], e
      and_intros
      · simp
      · apply row
      · rfl
      · rfl
    · right
      use rfl
  · rintro (⟨us, _, e, rfl, row, rfl, rfl⟩ | ⟨rfl, rfl⟩)
    · have option : opt operand us (some e) := by
        left
        use us, [], e, (List.append_nil us).symm, row
        trivial
      use us, [], some e, rfl, option
      trivial
    · have option : opt operand [] none := by
        right
        trivial
      use [], [], none, rfl, option
      trivial

/-- The forms of statements that do not begin with an operand, with the tokens they begin with. -/
inductive StatementHead : Token → Form Instr → Prop
  | goto : StatementHead (.fixed .wGoto) goto
  | branch : StatementHead (.fixed .wIf) branch
  | ret : StatementHead (.fixed .wRet) ret
  | putField : StatementHead (.fixed .wPutField) putField
  | expr {t : Token} {G : Form Instr} (head : ExprHead t G) : StatementHead t G

/-- No operand begins with the first word of a statement. -/
theorem StatementHead.not_beginsOperand {t : Token} {G : Form Instr} (head : StatementHead t G) :
  Reader.beginsOperand t = false
  := by
  cases head with
  | goto | branch | ret | putField => rfl
  | expr head => apply head.not_beginsOperand

/-- A statement begins with one of the heads or with an operand. -/
theorem statement_cases (row : statement ts i) (rest : List (Located Token)) :
  (∃ t G, front (ts ++ rest) = some t ∧ StatementHead t G ∧ G ts i)
    ∨ (operand >>= statementAfter) ts i
  := by
  have headed {G : Form Instr} {f : Fixed} (begins : Begins (· = .fixed f) G)
      (head : StatementHead (.fixed f) G) (row : G ts i) :
      ∃ t G, front (ts ++ rest) = some t ∧ StatementHead t G ∧ G ts i := by
    obtain ⟨_, place, rfl⟩ := front_append_of_begins begins row rest
    exact ⟨_, G, place, head, row⟩
  obtain ((((row | row) | row) | row) | row) | row := row
  · right
    apply bind_union.1 (.inl row)
  · left
    apply headed (word_begins _).bind .goto row
  · left
    apply headed (word_begins _).bind .branch row
  · left
    apply headed (word_begins _).bind .ret row
  · left
    apply headed (word_begins _).bind .putField row
  · obtain ⟨t, G, place, head, row⟩ | row := expr_cases row rest
    · left
      use t, G, place, .expr head, row
    · right
      apply bind_union.1 (.inr row)

/-- A row that begins with the first word of a statement. -/
theorem statement_of_head {t : Token} {G : Form Instr} (head : StatementHead t G) (row : G ts i) :
  statement ts i
  := by
  cases head with
  | goto =>
      left
      left
      left
      left
      right
      apply row
  | branch =>
      left
      left
      left
      right
      apply row
  | ret =>
      left
      left
      right
      apply row
  | putField =>
      left
      right
      apply row
  | expr head =>
      right
      apply expr_of_head head row

/-- A row that begins with an operand: an assignment or an expression. -/
theorem statement_of_operand (row : (operand >>= statementAfter) ts i) :
  statement ts i
  := by
  obtain row | row := bind_union.2 row
  · left
    left
    left
    left
    left
    apply row
  · right
    apply expr_of_operand row

/-- The head of a statement decides its form. -/
theorem statement_iff_of_head {t : Token} {G : Form Instr} (head : StatementHead t G)
    (place : front (ts ++ rest) = some t) :
  statement ts i ↔ G ts i
  := by
  constructor
  · intro row
    obtain ⟨t', G', place', head', row⟩ | row := statement_cases row rest
    · obtain rfl : t = t' := Option.some.inj (place.symm.trans place')
      cases head with
      | expr head =>
          cases head' with
          | expr head' => apply (expr_iff_of_head head place).1 (expr_of_head head' row)
          | goto | branch | ret | putField => cases head
      | goto | branch | ret | putField =>
          cases head' with
          | expr head' => cases head'
          | _ => apply row
    · obtain ⟨t', place', begins⟩ := front_append_of_begins operand_begins.bind row rest
      obtain rfl : t = t' := Option.some.inj (place.symm.trans place')
      simp [head.not_beginsOperand] at begins
  · apply statement_of_head head

/-- A statement with an operand in front is an assignment or an expression. -/
theorem statement_iff_of_operand {t : Token} (begins : Reader.beginsOperand t = true)
    (place : front (ts ++ rest) = some t) :
  statement ts i ↔ (operand >>= statementAfter) ts i
  := by
  constructor
  · intro row
    obtain ⟨t', G, place', head, -⟩ | row := statement_cases row rest
    · obtain rfl : t = t' := Option.some.inj (place.symm.trans place')
      simp [head.not_beginsOperand] at begins
    · apply row
  · apply statement_of_operand

/-- A statement that begins with another token is an expression. -/
theorem statement_iff_expr (rest : List (Located Token))
    (other : ∀ t, front (ts ++ rest) = some t →
      Reader.beginsOperand t = false ∧ t ∉ [.fixed .wGoto, .fixed .wIf, .fixed .wRet, .fixed .wPutField]) :
  statement ts i ↔ expr ts i
  := by
  constructor
  · intro row
    obtain ⟨t, G, place, head, row⟩ | row := statement_cases row rest
    · obtain ⟨-, unlisted⟩ := other t place
      cases head with
      | expr head => apply expr_of_head head row
      | _ => simp at unlisted
    · obtain ⟨t, place, begins⟩ := front_append_of_begins operand_begins.bind row rest
      simp [other t place] at begins
  · exact .inr

end Form

namespace Reader

/-- A semicolon follows. -/
def Semicolon : Option Token → Prop := (· = some (.fixed .semicolon))

/-- A condition is read to its end, where no operator follows. -/
theorem condition_reads :
  Reads condition Form.condition NoOperator
  := by
  apply Reads.congr _ fun _ _ => Form.condition_iff
  have negation : Reads (do
      fixed .bang
      let _ ← tySuffix .other
      return Condition.not (← operand)) Form.negation Any := by
    apply (fixed_reads _).step
    intro _
    apply (tySuffix_reads _).step
    intro _
    apply operand_reads.step
    intro e
    apply pure_reads
  intro t
  apply ReadsFrom.nextIs
  split
  · next bang =>
      apply (negation.any t).left Form.operand_begins.bind
      simp_all [beginsOperand]
  · next other =>
      apply ReadsFrom.right _ (Form.word_begins .bang).bind
      · grind
      · apply operand_reads.step _ t
        intro lhs
        apply afterOperand_reads

theorem goto_reads :
  Reads goto Form.goto Any
  := by
  apply (fixed_reads _).step
  intro _
  apply ident_reads.step
  intro label
  apply pure_reads

theorem branch_reads :
  Reads branch Form.branch Any
  := by
  apply (fixed_reads _).step
  intro _
  apply (fixed_reads _).step
  intro _
  apply condition_reads.before _ (by simp [NoOperator, binaryOp?])
  intro cond
  apply (fixed_reads _).step
  intro _
  apply (fixed_reads _).step
  intro _
  apply ident_reads.step
  intro label
  apply pure_reads

/-- The semicolon after a return says that it has no value. -/
theorem ret_reads :
  Reads ret Form.ret Semicolon
  := by
  apply Reads.congr _ fun _ _ => Form.ret_iff
  apply (fixed_reads _).step
  intro _
  apply (tySuffix_reads _).step
  intro ty
  have value : Reads (do return Instr.ret ty (some (← operand)))
      (do return Instr.ret ty (some (← Form.operand))) Any := by
    apply operand_reads.step
    intro e
    apply pure_reads
  intro t
  apply ReadsFrom.peek
  split
  · next more =>
      apply (value.any t).goOn
      rintro rfl
      simp [beginsOperand] at more
  · next done =>
      apply ReadsFrom.stop Form.operand_begins.bind
      rintro u rfl
      simpa using done

/-- What follows an operand: the rest of an assignment or of an expression. -/
theorem statementAfter_reads (e : Operand) :
  Reads (statementAfter e) (Form.statementAfter e) Semicolon
  := by
  have assignment : Reads (do
      fixed .becomes
      let ty ← tySuffix .other
      return Instr.assign e ty (← expr))
      (do
        Form.word .becomes
        let ty ← Form.tySuffix
        let rhs ← Form.expr
        return Instr.assign e ty rhs) Semicolon := by
    apply (fixed_reads _).step
    intro _
    apply (tySuffix_reads _).step
    intro ty
    apply expr_reads.bind
    · intro rhs
      apply (pure_reads _).any
    · rintro rhs _ _ rest ⟨rfl, -⟩ follows
      rw [List.nil_append, follows]
      simp [NoOperator, binaryOp?]
  intro t
  apply ReadsFrom.nextIs
  split
  · next becomes =>
      obtain rfl : t = some (.fixed .becomes) := by simpa using becomes
      apply (assignment _).of_rows
      · intro ts i rest _ row
        left
        apply row
      · rintro ts i rest place (row | row | ⟨rfl, -⟩) follows
        · use row, follows
        · obtain ⟨u, first, operator⟩ := Form.front_append_of_begins Form.binaryOp_begins.bind row rest
          simp_all [binaryOp?]
        · rw [List.nil_append, follows] at place
          simp at place
  · next other =>
      apply ReadsFrom.right _ (Form.word_begins .becomes).bind
      · grind
      · apply (exprAfter_reads e).follows _ t
        rintro _ rfl
        simp [NoOperator, binaryOp?]

/-- The reader of statements, for those that do not begin with an identifier. -/
theorem statement_reads {t : Option Token} (other : ∀ x, t ≠ some (.ident x)) :
  ReadsFrom t statement Form.statement Semicolon
  := by
  have begun : Reads (do statementAfter (← operand)) (Form.operand >>= Form.statementAfter) Semicolon :=
    operand_reads.step statementAfter_reads
  have expr : Reads expr Form.expr Semicolon := by
    apply expr_reads.follows
    rintro _ rfl
    simp [NoOperator, binaryOp?]
  apply ReadsFrom.peek
  split
  · apply (goto_reads.any _).congr
    intro _ _ _
    apply Form.statement_iff_of_head .goto
  · apply (branch_reads.any _).congr
    intro _ _ _
    apply Form.statement_iff_of_head .branch
  · apply (ret_reads _).congr
    intro _ _ _
    apply Form.statement_iff_of_head .ret
  · apply (putField_reads.any _).congr
    intro _ _ _
    apply Form.statement_iff_of_head .putField
  · apply (begun _).congr
    intro _ _ _
    apply Form.statement_iff_of_operand rfl
  · apply (expr t).congr
    intro ts i rest place
    apply Form.statement_iff_expr rest
    rintro u first
    obtain rfl : t = some u := place.symm.trans first
    cases u <;> simp_all [beginsOperand]

end Reader

end StackBackend
