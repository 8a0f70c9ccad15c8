import StackBackend.Proofs.Source.PrintedMembers
import StackBackend.Proofs.Source.Sentences

/-!
# The names in what is read

The names and literals in what is read from a text are tokens of the text. The forms of the grammar are
gone through once: what the rows of each stand for has only identifiers for names, integers for literals
and texts without quotes for the names of methods. In particular the names of classes are made of the
characters of identifiers.
-/

namespace StackBackend

/-! ### Forms of the tokens of a text -/

namespace Form

variable {α β : Type} {G G' : Form α} {H : α → Form β} {Q : α → Prop} {R : β → Prop}

/-- What the rows of the form stand for satisfies `Q`, if their tokens are those of a text. -/
structure Yields (G : Form α) (Q : α → Prop) : Prop where
  holds : ∀ ts a, (∀ t ∈ ts, t.value.IsLexical) → G ts a → Q a

/-- A value with the property. -/
theorem yields_pure {a : α} (holds : Q a) :
  (pure a : Form α).Yields Q
  := by
  constructor
  rintro _ _ _ ⟨rfl, rfl⟩
  apply holds

/-- What is known of the first part of a row may be used for the rest. -/
theorem Yields.bind (first : G.Yields Q) (rest : ∀ a, Q a → (H a).Yields R) :
  (G >>= H).Yields R
  := by
  constructor
  rintro _ b lexical ⟨us, vs, a, rfl, row, row'⟩
  rw [List.forall_mem_append] at lexical
  apply (rest a (first.holds us a lexical.1 row)).holds vs b lexical.2 row'

/-- Nothing need be known of what a form in front stands for. -/
theorem yields_after (rest : ∀ a, (H a).Yields R) :
  (G >>= H).Yields R
  := by
  have first : G.Yields fun _ => True := by
    constructor
    intro ts a _ _
    trivial
  apply first.bind
  intro a _
  apply rest a

/-- A row of one form or the other. -/
theorem Yields.union (left : G.Yields Q) (right : G'.Yields Q) :
  (G ∪ G').Yields Q
  := by
  constructor
  rintro ts a lexical (row | row)
  · apply left.holds ts a lexical row
  · apply right.holds ts a lexical row

/-- Each of a number of rows. -/
theorem Yields.many (each : G.Yields Q) :
  (Many G).Yields fun as => ∀ a ∈ as, Q a
  := by
  constructor
  intro ts as lexical rows
  induction rows with
  | nil => simp
  | cons first rest ih =>
      rw [List.forall_mem_append] at lexical
      rw [List.forall_mem_cons]
      use each.holds _ _ lexical.1 first, ih lexical.2

/-- A row that may be left out. -/
theorem Yields.opt (each : G.Yields Q) :
  (opt G).Yields fun o => ∀ a ∈ o, Q a
  := by
  apply union
  · apply each.bind
    intro a holds
    apply yields_pure (by simpa using holds)
  · apply yields_pure (by simp)

/-- Each row of a list with commas. -/
theorem Yields.listed (each : G.Yields Q) :
  (listed G).Yields fun as => ∀ a ∈ as, Q a
  := by
  have row : Yields (do let a ← G; word .comma; return a) Q :=
    each.bind fun a holds => yields_after fun _ => yields_pure holds
  apply row.many.bind
  intro as all
  apply each.opt.bind
  intro last holds
  apply yields_pure
  rw [List.forall_mem_append]
  use all
  simpa using holds

/-- A row with its place. -/
theorem Yields.placed (each : G.Yields Q) :
  (placed G).Yields fun a => Q a.value
  := by
  constructor
  intro ts a lexical row
  apply each.holds ts a.value lexical row.1

/-- A single token: the property follows from what is known of tokens. -/
theorem terminal_yields {token : α → Token} (holds : ∀ a, (token a).IsLexical → Q a) :
  (terminal token).Yields Q
  := by
  constructor
  intro ts a lexical row
  obtain ⟨t, rfl, value⟩ := List.map_eq_singleton_iff.1 row
  apply holds a (value ▸ lexical t List.mem_cons_self)

theorem ident_yields :
  ident.Yields IsIdent
  := terminal_yields fun _ => id

theorem str_yields :
  str.Yields IsQuotable
  := terminal_yields fun _ => id

/-! ### Types and operands -/

/-- The words of built-in types are no names of classes. -/
theorem ty_yields :
  ty.Yields Ty.IsNamed
  := by
  constructor
  intro ts ty lexical row
  induction row with
  | array word dot rest ih =>
      apply ih
      intro t mem
      apply lexical t (by simp [mem])
  | @name t x ty word names =>
      have ident : IsIdent x := by
        have := lexical t List.mem_cons_self
        rwa [word] at this
      cases names with
      | object free => use ident, free
      | _ => trivial

theorem tySuffix_yields :
  tySuffix.Yields Ty.IsNamed
  := yields_after fun _ => ty_yields

/-- The words of literals are no names of variables. -/
theorem operand_yields :
  operand.Yields Operand.IsPlain
  := by
  constructor
  intro ts e lexical row
  induction row with
  | literal word suffix =>
      rw [List.forall_mem_cons, word] at lexical
      use lexical.1, tySuffix_yields.holds _ _ lexical.2 suffix
  | named word suffix names =>
      rw [List.forall_mem_cons, word] at lexical
      have named := tySuffix_yields.holds _ _ lexical.2 suffix
      cases names with
      | true | false =>
          constructor
          · decide
          · apply named
      | var h h' =>
          use lexical.1
          constructor
          · simp [h, h']
          · apply named
  | item word left inner right suffix ih =>
      simp only [List.forall_mem_cons, List.forall_mem_append, word] at lexical
      obtain ⟨ident, -, inside, -, after⟩ := lexical
      use ident, ih inside, tySuffix_yields.holds _ _ after suffix

end Form

/-- An operand that may be a bare name. -/
def Operand.IsWritten (e : Operand) : Prop := e.IsPlain ∨ ∃ x, IsIdent x ∧ e = .var x (.object x)

namespace Form

/-- A receiver may be a bare name. -/
theorem receiver_yields :
  receiver.Yields Operand.IsWritten
  := by
  apply Yields.union
  · constructor
    intro ts e lexical row
    left
    apply operand_yields.holds ts e lexical row
  · apply ident_yields.bind
    intro x ident
    apply yields_pure
    right
    use x

theorem args_yields :
  args.Yields fun es => ∀ e ∈ es, e.IsPlain
  := Yields.many (yields_after fun _ => operand_yields)

theorem fieldRef_yields :
  fieldRef.Yields fun f => IsIdent f.1 ∧ f.2.IsNamed
  := by
  apply ident_yields.bind
  intro x ident
  apply tySuffix_yields.bind
  intro ty named
  apply yields_pure
  use ident, named

end Form

/-! ### Instructions -/

namespace Instr

/-- An expression as it is read. -/
def IsWrittenExpr : Instr → Prop
  | .single e | .arrayLength e => e.IsPlain
  | .binary _ lhs rhs ty => lhs.IsPlain ∧ rhs.IsPlain ∧ ty.IsNamed
  | .unary _ e ty => e.IsPlain ∧ ty.IsNamed
  | .call _ receiver method args result =>
      receiver.IsWritten ∧ IsQuotable method ∧ (∀ e ∈ args, e.IsPlain) ∧ result.IsNamed
  | .new ty args => ty.IsNamed ∧ ∀ e ∈ args, e.IsPlain
  | .getField object field ty => object.IsWritten ∧ IsIdent field ∧ ty.IsNamed
  | .assign .. | .ret .. | .putField .. | .goto _ | .branch .. => False

/-- A statement as it is read. -/
def IsWritten : Instr → Prop
  | .assign dest ty rhs => dest.IsPlain ∧ ty.IsNamed ∧ rhs.IsWrittenExpr
  | .goto label => IsIdent label
  | .branch cond label => (∀ e ∈ cond.operands, e.IsPlain) ∧ IsIdent label
  | .ret ty value => ty.IsNamed ∧ ∀ e ∈ value, e.IsPlain
  | .putField object field ty value => object.IsWritten ∧ IsIdent field ∧ ty.IsNamed ∧ value.IsPlain
  | i => i.IsWrittenExpr

end Instr

namespace Form

variable {α : Type}

theorem call_yields :
  call.Yields Instr.IsWrittenExpr
  := by
  apply yields_after
  intro kind
  apply yields_after
  intro _
  apply receiver_yields.bind
  intro object written
  apply yields_after
  intro _
  apply str_yields.bind
  intro method quotable
  apply args_yields.bind
  intro args plain
  apply yields_after
  intro _
  apply tySuffix_yields.bind
  intro result named
  apply yields_pure
  use written, quotable, plain, named

/-- The two forms of `new` differ in a word that is not kept. -/
theorem new_yields {G : Form α} :
  Yields (do word .wNew; word .lparen; let _ ← G; let args ← args; word .rparen; let ty ← tySuffix; return .new ty args)
    Instr.IsWrittenExpr
  := by
  apply yields_after
  intro _
  apply yields_after
  intro _
  apply yields_after
  intro _
  apply args_yields.bind
  intro args plain
  apply yields_after
  intro _
  apply tySuffix_yields.bind
  intro ty named
  apply yields_pure
  use named, plain

theorem getField_yields :
  getField.Yields Instr.IsWrittenExpr
  := by
  apply yields_after
  intro _
  apply yields_after
  intro _
  apply receiver_yields.bind
  intro object written
  apply yields_after
  intro _
  apply fieldRef_yields.bind
  intro field named
  apply yields_after
  intro _
  apply yields_after
  intro _
  apply yields_pure
  use written

theorem arrayLength_yields :
  arrayLength.Yields Instr.IsWrittenExpr
  := by
  apply yields_after
  intro _
  apply yields_after
  intro _
  apply operand_yields.bind
  intro e plain
  apply yields_after
  intro _
  apply yields_after
  intro _
  exact yields_pure plain

theorem unary_yields :
  unary.Yields Instr.IsWrittenExpr
  := by
  apply yields_after
  intro op
  apply tySuffix_yields.bind
  intro ty named
  apply operand_yields.bind
  intro e plain
  apply yields_pure
  use plain, named

theorem binary_yields :
  binary.Yields Instr.IsWrittenExpr
  := by
  apply operand_yields.bind
  intro lhs plain
  apply yields_after
  intro op
  apply tySuffix_yields.bind
  intro ty named
  apply operand_yields.bind
  intro rhs plain'
  apply yields_pure
  use plain, plain', named

theorem single_yields :
  single.Yields Instr.IsWrittenExpr
  := operand_yields.bind fun _ plain => yields_pure plain

theorem expr_yields :
  expr.Yields Instr.IsWrittenExpr
  := ((((((call_yields.union new_yields).union new_yields).union getField_yields).union arrayLength_yields).union
    unary_yields).union binary_yields).union single_yields

/-- The operands of a condition are plain. -/
theorem condition_yields :
  condition.Yields fun cond => ∀ e ∈ cond.operands, e.IsPlain
  := by
  refine Yields.union (Yields.union ?_ ?_) ?_
  · apply yields_after
    intro _
    apply yields_after
    intro _
    apply operand_yields.bind
    intro e plain
    apply yields_pure (by simpa [Condition.operands] using plain)
  · apply operand_yields.bind
    intro lhs plain
    apply yields_after
    intro op
    apply yields_after
    intro _
    apply operand_yields.bind
    intro rhs plain'
    apply yields_pure (by simpa [Condition.operands] using ⟨plain, plain'⟩)
  · apply operand_yields.bind
    intro e plain
    apply yields_pure (by simpa [Condition.operands] using plain)

theorem assign_yields :
  assign.Yields Instr.IsWritten
  := by
  apply operand_yields.bind
  intro dest plain
  apply yields_after
  intro _
  apply tySuffix_yields.bind
  intro ty named
  apply expr_yields.bind
  intro rhs written
  apply yields_pure
  use plain, named, written

theorem goto_yields :
  goto.Yields Instr.IsWritten
  := by
  apply yields_after
  intro _
  apply ident_yields.bind
  intro label ident
  exact yields_pure ident

theorem branch_yields :
  branch.Yields Instr.IsWritten
  := by
  apply yields_after
  intro _
  apply yields_after
  intro _
  apply condition_yields.bind
  intro cond plain
  apply yields_after
  intro _
  apply yields_after
  intro _
  apply ident_yields.bind
  intro label ident
  apply yields_pure
  use plain

theorem ret_yields :
  ret.Yields Instr.IsWritten
  := by
  apply yields_after
  intro _
  apply tySuffix_yields.bind
  intro ty named
  apply operand_yields.opt.bind
  intro value plain
  apply yields_pure
  use named, plain

theorem putField_yields :
  putField.Yields Instr.IsWritten
  := by
  apply yields_after
  intro _
  apply yields_after
  intro _
  apply receiver_yields.bind
  intro object written
  apply yields_after
  intro _
  apply fieldRef_yields.bind
  intro field named
  apply yields_after
  intro _
  apply operand_yields.bind
  intro value plain
  apply yields_after
  intro _
  apply yields_after
  intro _
  apply yields_pure
  use written, named.1, named.2, plain

/-- Every statement that is read is written by the grammar, an expression too. -/
theorem statement_yields :
  statement.Yields Instr.IsWritten
  := by
  have expr : expr.Yields Instr.IsWritten := by
    constructor
    intro ts i lexical row
    have written := expr_yields.holds ts i lexical row
    cases i with
    | assign | ret | putField | goto | branch => apply written.elim
    | single | binary | unary | call | new | getField | arrayLength => apply written
  apply ((((assign_yields.union goto_yields).union branch_yields).union ret_yields).union putField_yields).union
    expr

end Form

/-! ### Declarations -/

/-- Identifiers with dots between them. -/
def IsDotted (path : String) : Prop :=
  ∃ head tail, (∀ x ∈ head :: tail, IsIdent x) ∧ path = ".".intercalate (head :: tail)

/-- An item of a body that is read. -/
def BodyItem.IsWritten : BodyItem → Prop
  | .label x => IsIdent x
  | .instr i => i.IsWritten

/-- A method that is read. -/
structure MethodDecl.IsWritten (d : MethodDecl) : Prop where
  name : if d.isConstructor then d.name = "<init>" else IsIdent d.name
  params : ∀ p ∈ d.params, IsIdent p.name ∧ p.ty.IsNamed
  ret : d.ret.IsNamed
  body : ∀ item ∈ d.body, item.value.IsWritten

/-- A member that is read. -/
def Member.IsWritten : Member → Prop
  | .field f => f.IsPrintable
  | .method d => d.IsWritten

/-- A class that is read. -/
structure UnitDecl.IsWritten (d : UnitDecl) : Prop where
  name : IsIdent d.name
  superName : ∀ x ∈ d.superName, IsIdent x
  imports : ∀ path ∈ d.imports, IsDotted path
  members : ∀ member ∈ d.members, member.IsWritten

namespace Form

/-- The labels and instructions of a body. -/
theorem body_yields :
  body.Yields fun items => ∀ item ∈ items, item.value.IsWritten
  := by
  have label : label.Yields fun item => item.value.IsWritten := by
    apply ident_yields.placed.bind
    intro x ident
    exact yields_after fun _ => yields_pure ident
  have step : step.Yields fun item => item.value.IsWritten := by
    apply statement_yields.placed.bind
    intro i holds
    exact yields_after fun _ => yields_pure holds
  apply yields_after
  intro _
  apply (label.union step).many.bind
  intro items all
  apply yields_after
  intro _
  apply yields_pure all

/-- The parameters of a method. -/
theorem params_yields :
  params.Yields fun ps => ∀ p ∈ ps, IsIdent p.name ∧ p.ty.IsNamed
  := by
  have param : param.Yields fun p => IsIdent p.name ∧ p.ty.IsNamed := by
    apply ident_yields.bind
    intro x ident
    apply tySuffix_yields.bind
    intro ty named
    apply yields_pure
    use ident, named
  apply yields_after
  intro _
  apply param.listed.bind
  intro ps all
  apply yields_after
  intro _
  apply yields_pure all

/-- The members of a class; a constructor gets its own name. -/
theorem member_yields :
  member.Yields Member.IsWritten
  := by
  refine Yields.union (Yields.union ?_ ?_) ?_
  · apply yields_after
    intro _
    apply yields_after
    intro _
    apply yields_after
    intro ms
    apply ident_yields.bind
    intro x ident
    apply tySuffix_yields.bind
    intro ty named
    apply yields_after
    intro _
    apply yields_pure
    use ident, named
  · apply yields_after
    intro _
    apply yields_after
    intro _
    apply yields_after
    intro ms
    apply ident_yields.bind
    intro x ident
    apply params_yields.bind
    intro ps params
    apply tySuffix_yields.bind
    intro ret named
    apply body_yields.bind
    intro items all
    apply yields_pure
    use ident, params, named, all
  · apply yields_after
    intro _
    apply yields_after
    intro _
    apply yields_after
    intro ms
    apply yields_after
    intro _
    apply params_yields.bind
    intro ps params
    apply tySuffix_yields.bind
    intro ret named
    apply body_yields.bind
    intro items all
    apply yields_pure
    use rfl, params, named, all

/-- The path of an import. -/
theorem importPath_yields :
  importPath.Yields IsDotted
  := by
  have component : Yields (do word .dot; ident) IsIdent := yields_after fun _ => ident_yields
  apply yields_after
  intro _
  apply ident_yields.bind
  intro head ident
  apply component.many.bind
  intro tail idents
  apply yields_after fun _ => yields_pure ⟨head, tail, List.forall_mem_cons.2 ⟨ident, idents⟩, rfl⟩

/-- A class, by way of its members. -/
theorem unit_yields :
  unit.Yields UnitDecl.IsWritten
  := by
  have above : Yields (do word .wExtends; ident) IsIdent := yields_after fun _ => ident_yields
  apply importPath_yields.many.bind
  intro imports dotted
  apply ident_yields.bind
  intro name ident
  apply above.opt.bind
  intro superName named
  apply yields_after
  intro _
  apply member_yields.many.bind
  intro members written
  apply yields_after
  intro _
  apply yields_pure
  use ident, named, dotted, written

end Form

/-- A text that is read is read from its tokens. -/
theorem read_of_readUnit {text : String} {d : UnitDecl} (read : readUnit text = .ok d) :
  (Scan.ofText text).read = .ok d
  := by
  unfold readUnit at read
  cases done : (Scan.ofText text).read with
  | error e =>
      rw [done] at read
      cases read
  | ok d' =>
      rw [done] at read
      cases read
      rfl

/-- What is read from a text is written by the grammar. -/
theorem UnitDecl.isWritten_of_readUnit {text : String} {d : UnitDecl} (read : readUnit text = .ok d) :
  d.IsWritten
  := by
  obtain ⟨-, row⟩ := Scan.read_eq_ok_iff.1 (read_of_readUnit read)
  apply Form.unit_yields.holds _ d _ row
  intro t mem
  apply Scan.isLexical_of_mem_ofText mem

/-! ### The names of classes -/

/-- The names of classes in a type are proper. -/
def Ty.IsProper : Ty → Prop
  | .array elem => elem.IsProper
  | .object name => IsName name
  | _ => True

/-- Identifiers are made of their characters. -/
theorem IsIdent.isName {x : String} (ident : IsIdent x) :
  IsName x
  := by
  simpa using isName_of_matches ident.1

/-- A type whose classes are named by identifiers. -/
theorem Ty.IsNamed.isProper {ty : Ty} (named : ty.IsNamed) :
  ty.IsProper
  := by
  induction ty with
  | int | bool | string | void => trivial
  | object x => apply named.1.isName
  | array elem ih => apply ih named

/-- The type of a plain operand. -/
theorem Operand.IsPlain.isProper_ty {e : Operand} (plain : e.IsPlain) :
  e.ty.IsProper
  := by
  cases e with
  | literal value ty => apply plain.2.isProper
  | var x ty => apply plain.2.2.isProper
  | item x index ty => apply plain.2.2.isProper

/-- The names of classes in the signature of a call and in the type of a new object or array are proper. -/
def Instr.IsProper : Instr → Prop
  | .call _ _ _ args result => (∀ e ∈ args, e.ty.IsProper) ∧ result.IsProper
  | .new ty _ => ty.IsProper
  | .assign _ _ rhs => rhs.IsProper
  | _ => True

/-- The types in an expression that is read. -/
theorem Instr.IsWrittenExpr.isProper {i : Instr} (written : i.IsWrittenExpr) :
  i.IsProper
  := by
  cases i with
  | call kind receiver method args result =>
      obtain ⟨-, -, plain, named⟩ := written
      constructor
      · intro e mem
        apply (plain e mem).isProper_ty
      · apply named.isProper
  | new ty args => apply written.1.isProper
  | assign => apply written.elim
  | single | binary | unary | ret | getField | putField | goto | branch | arrayLength => trivial

/-- The types in a statement that is read. -/
theorem Instr.IsWritten.isProper {i : Instr} (written : i.IsWritten) :
  i.IsProper
  := by
  cases i with
  | assign dest ty rhs => apply written.2.2.isProper
  | call | new =>
      apply IsWrittenExpr.isProper
      apply written
  | single | binary | unary | ret | getField | putField | goto | branch | arrayLength => trivial

/-- A dotted name of proper names. -/
def IsPath (path : String) : Prop := ∀ c ∈ path.toList, LexRule.isIdentRest c = true ∨ c = '.'

/-- Names with dots between them. -/
theorem isPath_intercalate {names : List String} (proper : ∀ name ∈ names, IsName name) :
  IsPath (".".intercalate names)
  := by
  induction names with
  | nil => simp [IsPath]
  | cons name names ih =>
      rw [List.forall_mem_cons] at proper
      cases names with
      | nil =>
          rw [String.intercalate_singleton]
          intro c mem
          left
          apply proper.1 c mem
      | cons next names =>
          rw [String.intercalate_cons_cons]
          intro c mem
          simp only [String.toList_append, List.mem_append] at mem
          obtain (mem | mem) | mem := mem
          · left
            apply proper.1 c mem
          · right
            simpa using mem
          · apply ih proper.2 c mem

/-- The path of an import is made of the characters of names and dots. -/
theorem IsDotted.isPath {path : String} (dotted : IsDotted path) :
  IsPath path
  := by
  obtain ⟨head, tail, idents, rfl⟩ := dotted
  apply isPath_intercalate
  intro x mem
  apply (idents x mem).isName

end StackBackend
