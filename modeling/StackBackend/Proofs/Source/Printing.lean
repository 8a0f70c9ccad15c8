import Mathlib.Tactic.Use
import StackBackend.Proofs.Source.Spelling
import StackBackend.Proofs.Source.Statements
import StackBackend.Source.Check

/-!
# Printed programs

The texts of types, operands and instructions spell their forms, if names are identifiers, literals
are written as integers and instructions have the shapes of the language. What is read back is what
was printed, up to what the check of a method puts right: the type of the receiver.
-/

namespace StackBackend

/-! ### Types -/

namespace Ty

/-- The classes in the type are named by identifiers that are not the names of built-in types. -/
def IsNamed : Ty → Prop
  | .object x => IsIdent x ∧ x ∉ ["i32", "bool", "String", "V"]
  | .array elem => elem.IsNamed
  | .int | .bool | .string | .void => True

instance decidableIsNamed : (ty : Ty) → Decidable ty.IsNamed
  | .object _ => inferInstanceAs (Decidable (_ ∧ _))
  | .array elem => elem.decidableIsNamed
  | .int | .bool | .string | .void => .isTrue trivial

end Ty

/-- A name alone is a type, built-in or a class. -/
theorem name_spells_ty {x : String} (ident : IsIdent x) {ty : Ty} (names : Form.NamesTy x ty) :
  Spells Delimited x.toList Form.ty (· = ty)
  := by
  apply (ident_spells ident).mono
  rintro ts _ row rfl
  obtain ⟨t, rfl, word⟩ := Form.ident_iff.1 row
  use ty, .name word names

/-- The text of a type, dimension by dimension. -/
theorem ty_spells {ty : Ty} (named : ty.IsNamed) :
  Spells Delimited ty.text.toList Form.ty (· = ty)
  := by
  induction ty with
  | int => apply name_spells_ty (by decide) .int
  | bool => apply name_spells_ty (by decide) .bool
  | string => apply name_spells_ty (by decide) .string
  | void => apply name_spells_ty (by decide) .void
  | object x => apply name_spells_ty named.1 (.object named.2)
  | array elem ih =>
      have row : Spells Delimited (Ty.array elem).text.toList
          (do Form.word .wArray; Form.word .dot; Form.ty) (· = elem) := by
        apply Spells.of_eq
        · apply (word_spells _).andThen
          apply mark_spellsMarked (by decide) (ih named)
        · simp [Ty.text, Fixed.text]
      apply row.mono
      rintro _ _ ⟨us, _, _, rfl, first, vs, ws, _, rfl, second, writes⟩ rfl
      obtain ⟨a, rfl, word⟩ := Form.word_iff.1 first
      obtain ⟨d, rfl, dot⟩ := Form.word_iff.1 second
      exact ⟨_, .array word dot writes, rfl⟩

/-- A dot and the text of a type. -/
theorem tySuffix_spells {ty : Ty} (named : ty.IsNamed) :
  SpellsMarked Delimited (Fixed.dot.text.toList ++ ty.text.toList) Form.tySuffix (· = ty)
  := mark_spellsMarked (by decide) (ty_spells named)

/-! ### Operands -/

namespace Operand

/-- The names in the operand are identifiers, its literals are integers, and no variable is named
like a literal. -/
def IsPlain : Operand → Prop
  | .literal value ty => IsInteger value ∧ ty.IsNamed
  | .var x ty => IsIdent x ∧ x ∉ ["true", "false"] ∧ ty.IsNamed
  | .item x index ty => IsIdent x ∧ index.IsPlain ∧ ty.IsNamed

instance decidableIsPlain : (e : Operand) → Decidable e.IsPlain
  | .literal _ _ => inferInstanceAs (Decidable (_ ∧ _))
  | .var _ _ => inferInstanceAs (Decidable (_ ∧ _ ∧ _))
  | .item _ index _ =>
      have := index.decidableIsPlain
      inferInstanceAs (Decidable (_ ∧ _ ∧ _))

/-- An operand of a method of the class `owner`: plain, with the receiver typed by the class. -/
def IsPlainIn (owner : String) (e : Operand) : Prop :=
  e = .var "this" (.object owner) ∨ e.IsPlain ∧ typeReceiver owner e = e

instance (owner : String) (e : Operand) : Decidable (e.IsPlainIn owner) :=
  inferInstanceAs (Decidable (_ ∨ _))

end Operand

/-- A name with a type is a variable, or one of the two literals that have names. -/
theorem named_spells {x : String} (ident : IsIdent x) {ty ty' : Ty}
    (type : Spells Delimited ty.text.toList Form.ty (· = ty')) :
  Spells Delimited (Operand.var x ty).text.toList Form.operand (· = Reader.namedOperand x ty')
  := by
  have row : Spells Delimited (Operand.var x ty).text.toList (Form.ident >>= Form.operandAfter Form.operand)
      (· = Reader.namedOperand x ty') := by
    apply Spells.of_eq
    · apply (ident_spells ident).andThen
      apply SpellsMarked.left
      apply SpellsMarked.andThen (mark_spellsMarked (by decide) type)
      exact spellsMarked_pure rfl
    · simp [Operand.text, Fixed.text]
  apply row.mono
  intro _ e row same
  use e, Form.operand_iff.2 (.inr row), same

/-- The text of a plain operand; the index of an array element is a plain operand again. -/
theorem operand_spells {e : Operand} (plain : e.IsPlain) :
  Spells Delimited e.text.toList Form.operand (· = e)
  := by
  induction e with
  | literal value ty =>
      have row : Spells Delimited (Operand.literal value ty).text.toList Form.literal
          (· = .literal value ty) := by
        apply Spells.of_eq
        · apply (int_spells plain.1).andThen
          apply (tySuffix_spells plain.2).andThen
          exact spellsMarked_pure rfl
        · simp [Operand.text, Fixed.text]
      apply row.mono
      intro _ e row same
      use e, Form.operand_iff.2 (.inl row), same
  | var x ty =>
      obtain ⟨ident, unreserved, named⟩ := plain
      have same : Reader.namedOperand x ty = .var x ty := by
        simp_all [Reader.namedOperand]
      have spells := named_spells ident (ty_spells named)
      rwa [same] at spells
  | item x index ty ih =>
      obtain ⟨ident, inner, named⟩ := plain
      have row : Spells Delimited (Operand.item x index ty).text.toList
          (Form.ident >>= Form.operandAfter Form.operand) (· = .item x index ty) := by
        apply Spells.of_eq
        · apply (ident_spells ident).andThen
          apply SpellsMarked.right
          apply mark_spellsMarked (by decide)
          apply (ih inner).andThen
          apply mark_spellsMarked (by decide)
          apply (tySuffix_spells named).spells.bind
          rintro _ rfl
          exact spellsMarked_pure rfl
        · simp [Operand.text, Fixed.text]
      apply row.mono
      intro _ e row same
      use e, Form.operand_iff.2 (.inr row), same

variable {owner : String} {e : Operand}

/-- A printed operand is read back with another type for the receiver at most. -/
theorem operandIn_spells (home : IsIdent owner) (plain : e.IsPlainIn owner) :
  Spells Delimited e.text.toList Form.operand (typeReceiver owner · = e)
  := by
  obtain rfl | ⟨plain, same⟩ := plain
  · have type : Spells Delimited (Ty.object owner).text.toList Form.ty (· = .ofName owner) :=
      name_spells_ty home (Form.namesTy_iff.2 rfl)
    apply (named_spells (by decide) type).mono
    rintro ts _ row rfl
    exact ⟨_, row, rfl⟩
  · apply (operand_spells plain).mono
    rintro ts _ row rfl
    exact ⟨_, row, same⟩

/-- Each argument is printed after a comma and a blank. -/
theorem argsText_toList (args : List Operand) :
  (Instr.argsText args).toList = args.flatMap fun e => Fixed.comma.text.toList ++ (' ' :: e.text.toList)
  := by
  induction args with
  | nil => rfl
  | cons e args ih => simp_all [Instr.argsText, Fixed.text]

/-- The text of the arguments of a call. -/
theorem args_spells (home : IsIdent owner) {args : List Operand} (plain : ∀ e ∈ args, e.IsPlainIn owner) :
  SpellsMarked Delimited (Instr.argsText args).toList Form.args (·.map (typeReceiver owner) = args)
  := by
  rw [argsText_toList]
  have each : ∀ e ∈ args, SpellsMarked Delimited (Fixed.comma.text.toList ++ (' ' :: e.text.toList))
      (do Form.word .comma; Form.operand) (typeReceiver owner · = id e) := by
    intro e mem
    apply mark_spellsMarked (by decide)
    apply blank_spells rfl (operandIn_spells home (plain e mem))
  have spells := many_marked each
  rwa [List.map_id] at spells

/-- The receiver of a call: a static call on a name needs no more than the name. -/
def IsReceiver (owner : String) : CallKind → Operand → Prop
  | .static, .var x _ => IsIdent x
  | _, e => e.IsPlainIn owner

instance (owner : String) : (kind : CallKind) → (e : Operand) → Decidable (IsReceiver owner kind e)
  | .static, .var x _ => inferInstanceAs (Decidable (IsIdent x))
  | .static, .literal value ty => inferInstanceAs (Decidable ((Operand.literal value ty).IsPlainIn owner))
  | .static, .item x index ty => inferInstanceAs (Decidable ((Operand.item x index ty).IsPlainIn owner))
  | .virtual, e | .special, e => inferInstanceAs (Decidable (e.IsPlainIn owner))

/-- The receiver that is read back: of a static call on a name the name alone is printed. -/
def rereadReceiver (owner : String) : CallKind → Operand → Operand
  | .static, .var x _ => typeReceiver owner (.var x (.object x))
  | _, e => e

/-- The text of a receiver: without its type in a static call, with it in any other. -/
theorem receiver_spells (home : IsIdent owner) {kind : CallKind} (receiver : IsReceiver owner kind e) :
  Spells Delimited (Instr.receiverText kind e).toList Form.receiver
    (typeReceiver owner · = rereadReceiver owner kind e)
  := by
  by_cases named : kind = .static ∧ ∃ x ty, e = .var x ty
  · obtain ⟨rfl, x, ty, rfl⟩ := named
    apply Spells.right
    apply Spells.of_eq
    · apply (ident_spells receiver).andThen
      exact spellsMarked_pure rfl
    · simp [Instr.receiverText]
  · have text : Instr.receiverText kind e = e.text := by
      unfold Instr.receiverText
      split <;> simp_all
    have same : rereadReceiver owner kind e = e := by
      unfold rereadReceiver
      split <;> simp_all
    have plain : e.IsPlainIn owner := by
      unfold IsReceiver at receiver
      split at receiver <;> simp_all
    rw [text, same]
    apply (operandIn_spells home plain).left

/-- A word or mark of a table. -/
theorem oneOf_spells {α : Type} {table : List (Fixed × α)} {f : Fixed} {a : α} (listed : (f, a) ∈ table) :
  Spells Delimited f.text.toList (Form.oneOf table) (· = a)
  := by
  apply (word_spells f).mono
  intro ts _ row _
  use a
  constructor
  · use f, listed, row
  · rfl

/-- The symbol of each binary operator. -/
theorem binaryOp_spells (op : BinaryOp) :
  Spells Delimited op.symbol.toList Form.binaryOp (· = op)
  := by
  cases op with
  | add => apply oneOf_spells (f := .plus) (by simp)
  | sub => apply oneOf_spells (f := .minus) (by simp)
  | mul => apply oneOf_spells (f := .star) (by simp)
  | div => apply oneOf_spells (f := .slash) (by simp)
  | lt => apply oneOf_spells (f := .less) (by simp)
  | gt => apply oneOf_spells (f := .greater) (by simp)
  | le => apply oneOf_spells (f := .lessEqual) (by simp)
  | ge => apply oneOf_spells (f := .greaterEqual) (by simp)
  | eq => apply oneOf_spells (f := .equalEqual) (by simp)
  | ne => apply oneOf_spells (f := .notEqual) (by simp)
  | and => apply oneOf_spells (f := .andAnd) (by simp)
  | or => apply oneOf_spells (f := .orOr) (by simp)

theorem unaryOp_spells (op : UnaryOp) :
  Spells Delimited op.symbol.toList Form.unaryOp (· = op)
  := by
  cases op with
  | not => apply oneOf_spells (f := .bang) (by simp)
  | neg => apply oneOf_spells (f := .minus) (by simp)

/-- The word of each kind of call. -/
theorem callKind_spells (kind : CallKind) :
  Spells Delimited kind.text.toList Form.callKind (· = kind)
  := by
  cases kind with
  | static => apply oneOf_spells (f := .wInvokeStatic) (by simp)
  | virtual => apply oneOf_spells (f := .wInvokeVirtual) (by simp)
  | special => apply oneOf_spells (f := .wInvokeSpecial) (by simp)

/-! ### Expressions -/

namespace Instr

/-- An expression of a method of the class `owner` whose names and literals can be written. -/
def IsExpr (owner : String) : Instr → Prop
  | .single e | .arrayLength e => e.IsPlainIn owner
  | .binary _ lhs rhs ty => lhs.IsPlainIn owner ∧ rhs.IsPlainIn owner ∧ ty.IsNamed
  | .unary _ e ty => e.IsPlainIn owner ∧ ty.IsNamed
  | .call kind receiver method args result =>
      IsReceiver owner kind receiver ∧ IsQuotable method ∧ (∀ e ∈ args, e.IsPlainIn owner) ∧ result.IsNamed
  | .new ty args => ty.IsNamed ∧ ∀ e ∈ args, e.IsPlainIn owner
  | .getField object field ty => object.IsPlainIn owner ∧ IsIdent field ∧ ty.IsNamed
  | .assign .. | .ret .. | .putField .. | .goto _ | .branch .. => False

instance decidableIsExpr (owner : String) : (i : Instr) → Decidable (i.IsExpr owner)
  | .single e | .arrayLength e => inferInstanceAs (Decidable (e.IsPlainIn owner))
  | .binary .. | .call .. | .getField .. => inferInstanceAs (Decidable (_ ∧ _ ∧ _))
  | .unary .. | .new .. => inferInstanceAs (Decidable (_ ∧ _))
  | .assign .. | .ret .. | .putField .. | .goto _ | .branch .. => .isFalse id

/-- A statement of a method of the class `owner` whose names and literals can be written; nothing is
assigned to a literal. -/
def IsStatement (owner : String) : Instr → Prop
  | .assign dest ty rhs => dest.IsPlainIn owner ∧ dest.isLiteral = false ∧ ty.IsNamed ∧ rhs.IsExpr owner
  | .goto label => IsIdent label
  | .branch cond label => (∀ e ∈ cond.operands, e.IsPlainIn owner) ∧ IsIdent label
  | .ret ty value => ty.IsNamed ∧ ∀ e ∈ value, e.IsPlainIn owner
  | .putField object field ty value =>
      object.IsPlainIn owner ∧ IsIdent field ∧ ty.IsNamed ∧ value.IsPlainIn owner
  | i => i.IsExpr owner

instance decidableIsStatement (owner : String) : (i : Instr) → Decidable (i.IsStatement owner)
  | .assign _ _ rhs =>
      have := rhs.decidableIsExpr owner
      inferInstanceAs (Decidable (_ ∧ _ ∧ _ ∧ _))
  | .goto label => inferInstanceAs (Decidable (IsIdent label))
  | .branch .. | .ret .. | .putField .. => inferInstanceAs (Decidable (_ ∧ _))
  | .single e => decidableIsExpr owner (.single e)
  | .binary op lhs rhs ty => decidableIsExpr owner (.binary op lhs rhs ty)
  | .unary op e ty => decidableIsExpr owner (.unary op e ty)
  | .call kind receiver method args result => decidableIsExpr owner (.call kind receiver method args result)
  | .new ty args => decidableIsExpr owner (.new ty args)
  | .getField object field ty => decidableIsExpr owner (.getField object field ty)
  | .arrayLength e => decidableIsExpr owner (.arrayLength e)

/-- The instruction that is read back. -/
def reread (owner : String) : Instr → Instr
  | .assign dest ty rhs => .assign dest ty (rhs.reread owner)
  | .call kind receiver method args result =>
      .call kind (rereadReceiver owner kind receiver) method args result
  | i => i

section Texts

variable (op : BinaryOp) (op' : UnaryOp) (kind : CallKind) (e e' : Operand) (x : String) (ty : Ty)

theorem text_assign (rhs : Instr) :
  (assign e ty rhs).text = e.text ++ " :=." ++ ty.text ++ " " ++ rhs.text
  := rfl

theorem text_single :
  (single e).text = e.text
  := rfl

theorem text_binary :
  (binary op e e' ty).text = e.text ++ " " ++ op.symbol ++ "." ++ ty.text ++ " " ++ e'.text
  := rfl

theorem text_unary :
  (unary op' e ty).text = op'.symbol ++ "." ++ ty.text ++ " " ++ e.text
  := rfl

theorem text_ret_some :
  (ret ty (some e)).text = "ret." ++ ty.text ++ " " ++ e.text
  := rfl

theorem text_ret_none :
  (ret ty none).text = "ret." ++ ty.text
  := rfl

theorem text_call (args : List Operand) :
  (call kind e x args ty).text = kind.text ++ "(" ++ receiverText kind e ++ ", \"" ++ x ++ "\""
    ++ argsText args ++ ")." ++ ty.text
  := rfl

theorem text_getField :
  (getField e x ty).text = "getfield(" ++ e.text ++ ", " ++ x ++ "." ++ ty.text ++ ")." ++ ty.text
  := rfl

theorem text_putField :
  (putField e x ty e').text = "putfield(" ++ e.text ++ ", " ++ x ++ "." ++ ty.text ++ ", " ++ e'.text ++ ").V"
  := rfl

theorem text_goto :
  (goto x).text = "goto " ++ x
  := rfl

theorem text_branch (cond : Condition) :
  (branch cond x).text = "if (" ++ cond.text ++ ") goto " ++ x
  := rfl

theorem text_arrayLength :
  (arrayLength e).text = "arraylength(" ++ e.text ++ ").i32"
  := rfl

end Texts

end Instr

/-- The word after `new` is not kept. -/
theorem newWord_spells {x : String} (ident : IsIdent x) :
  Spells Delimited x.toList Form.newHead (· = ())
  := by
  apply Spells.right
  apply Spells.of_eq
  · apply (ident_spells ident).andThen
    apply spellsMarked_pure rfl
  · simp

/-- The name of a field and its type. -/
theorem fieldRef_spells {x : String} (ident : IsIdent x) {ty : Ty} (named : ty.IsNamed) :
  Spells Delimited (x.toList ++ (Fixed.dot.text.toList ++ ty.text.toList)) Form.fieldRef (· = (x, ty))
  := by
  apply Spells.of_eq
  · apply (ident_spells ident).andThen
    apply (tySuffix_spells named).andThen
    exact spellsMarked_pure rfl
  · simp

variable {i : Instr} (home : IsIdent owner)

include home

/-- A printed call is read back with its receiver as it is read again. -/
theorem call_spells {kind : CallKind} {method : String} {args : List Operand} {result : Ty}
    (receiver : IsReceiver owner kind e) (quotable : IsQuotable method)
    (plain : ∀ e ∈ args, e.IsPlainIn owner) (named : result.IsNamed) :
  Spells Delimited (Instr.call kind e method args result).text.toList Form.call
    (·.map (typeReceiver owner) = .call kind (rereadReceiver owner kind e) method args result)
  := by
  apply Spells.of_eq
  · apply (callKind_spells kind).andThen
    apply mark_spellsMarked (by decide)
    apply (receiver_spells home receiver).bind
    intro object same
    apply mark_spellsMarked (by decide)
    apply space_spells
    apply (str_spells quotable).andThen
    apply (args_spells home plain).bind
    intro args same'
    apply mark_spellsMarked (by decide)
    apply (tySuffix_spells named).spells.andThen
    exact spellsMarked_pure (by rw [← same, ← same']; rfl)
  · rw [Instr.text_call]
    simp [Fixed.text, Token.text]

/-- A printed `new`, for an array or an object. -/
theorem new_spells {ty : Ty} {args : List Operand} (named : ty.IsNamed)
    (plain : ∀ e ∈ args, e.IsPlainIn owner) :
  Spells Delimited (Instr.new ty args).text.toList Form.new
    (·.map (typeReceiver owner) = .new ty args)
  := by
  obtain ⟨head, text, spells⟩ : ∃ head : String,
      (Instr.new ty args).text = "new(" ++ head ++ Instr.argsText args ++ ")." ++ ty.text
        ∧ Spells Delimited head.toList Form.newHead (· = ()) := by
    cases ty with
    | array elem => exact ⟨_, rfl, (word_spells .wArray).left⟩
    | object x => exact ⟨_, rfl, newWord_spells named.1⟩
    | int | bool | string | void => exact ⟨_, rfl, newWord_spells (by decide)⟩
  apply Spells.of_eq
  · apply (word_spells _).andThen
    apply mark_spellsMarked (by decide)
    apply spells.andThen
    apply (args_spells home plain).bind
    intro args same
    apply mark_spellsMarked (by decide)
    apply (tySuffix_spells named).spells.andThen
    exact spellsMarked_pure (by rw [← same]; rfl)
  · simp [text, Fixed.text]

/-- A printed reading of a field. -/
theorem getField_spells {x : String} {ty : Ty} (plain : e.IsPlainIn owner) (ident : IsIdent x)
    (named : ty.IsNamed) :
  Spells Delimited (Instr.getField e x ty).text.toList Form.getField
    (·.map (typeReceiver owner) = .getField e x ty)
  := by
  apply Spells.of_eq
  · apply (word_spells _).andThen
    apply mark_spellsMarked (by decide)
    apply (operandIn_spells home plain).left.bind
    intro object same
    apply mark_spellsMarked (by decide)
    apply space_spells
    apply (fieldRef_spells ident named).andThen
    apply mark_spellsMarked (by decide)
    apply (tySuffix_spells named).spells.andThen
    exact spellsMarked_pure (by rw [← same]; rfl)
  · rw [Instr.text_getField]
    simp [Fixed.text]

/-- A printed writing of a field. -/
theorem putField_spells {x : String} {ty : Ty} {value : Operand} (plain : e.IsPlainIn owner) (ident : IsIdent x)
    (named : ty.IsNamed) (plain' : value.IsPlainIn owner) :
  Spells Delimited (Instr.putField e x ty value).text.toList Form.putField
    (·.map (typeReceiver owner) = .putField e x ty value)
  := by
  apply Spells.of_eq
  · apply (word_spells _).andThen
    apply mark_spellsMarked (by decide)
    apply (operandIn_spells home plain).left.bind
    intro object same
    apply mark_spellsMarked (by decide)
    apply space_spells
    apply (fieldRef_spells ident named).andThen
    apply mark_spellsMarked (by decide)
    apply space_spells
    apply (operandIn_spells home plain').bind
    intro value same'
    apply mark_spellsMarked (by decide)
    apply (tySuffix_spells (show Ty.IsNamed .void from trivial)).spells.andThen
    exact spellsMarked_pure (by rw [← same, ← same']; rfl)
  · rw [Instr.text_putField]
    simp [Fixed.text, Ty.text]

theorem arrayLength_spells (plain : e.IsPlainIn owner) :
  Spells Delimited (Instr.arrayLength e).text.toList Form.arrayLength
    (·.map (typeReceiver owner) = .arrayLength e)
  := by
  apply Spells.of_eq
  · apply (word_spells _).andThen
    apply mark_spellsMarked (by decide)
    apply (operandIn_spells home plain).bind
    intro e same
    apply mark_spellsMarked (by decide)
    apply (tySuffix_spells (show Ty.IsNamed .int from trivial)).spells.andThen
    exact spellsMarked_pure (by rw [← same]; rfl)
  · rw [Instr.text_arrayLength]
    simp [Fixed.text, Ty.text]

theorem unary_spells (op : UnaryOp) {ty : Ty} (plain : e.IsPlainIn owner) (named : ty.IsNamed) :
  Spells Delimited (Instr.unary op e ty).text.toList Form.unary
    (·.map (typeReceiver owner) = .unary op e ty)
  := by
  apply Spells.of_eq
  · apply (unaryOp_spells op).andThen
    apply (tySuffix_spells named).andThen
    apply space_spellsMarked
    apply (operandIn_spells home plain).bind
    intro e same
    exact spellsMarked_pure (by rw [← same]; rfl)
  · rw [Instr.text_unary]
    simp [Fixed.text]

theorem binary_spells (op : BinaryOp) {lhs rhs : Operand} {ty : Ty} (plain : lhs.IsPlainIn owner)
    (plain' : rhs.IsPlainIn owner) (named : ty.IsNamed) :
  Spells Delimited (Instr.binary op lhs rhs ty).text.toList Form.binary
    (·.map (typeReceiver owner) = .binary op lhs rhs ty)
  := by
  apply Spells.of_eq
  · apply (operandIn_spells home plain).bind
    intro lhs same
    apply space_spellsMarked
    apply (binaryOp_spells op).andThen
    apply (tySuffix_spells named).andThen
    apply space_spellsMarked
    apply (operandIn_spells home plain').bind
    intro rhs same'
    exact spellsMarked_pure (by rw [← same, ← same']; rfl)
  · rw [Instr.text_binary]
    simp [Fixed.text]

theorem single_spells (plain : e.IsPlainIn owner) :
  Spells Delimited (Instr.single e).text.toList Form.single (·.map (typeReceiver owner) = .single e)
  := by
  apply Spells.of_eq
  · apply (operandIn_spells home plain).bind
    intro e same
    exact spellsMarked_pure (by rw [← same]; rfl)
  · rw [Instr.text_single]
    simp

/-- The text of an expression spells its form. -/
theorem expr_spells (expr : i.IsExpr owner) :
  Spells Delimited i.text.toList Form.expr (·.map (typeReceiver owner) = i.reread owner)
  := by
  cases i with
  | assign | ret | putField | goto | branch => apply expr.elim
  | single e => apply (single_spells home expr).right
  | binary op lhs rhs ty =>
      obtain ⟨plain, plain', named⟩ := expr
      apply (binary_spells home op plain plain' named).right.left
  | unary op e ty =>
      obtain ⟨plain, named⟩ := expr
      apply (unary_spells home op plain named).mono
      intro _ i row same
      use i, Form.expr_of_head .not row, same
  | arrayLength e =>
      apply (arrayLength_spells home expr).mono
      intro _ i row same
      use i, Form.expr_of_head .arrayLength row, same
  | call kind receiver method args result =>
      obtain ⟨receiver, quotable, plain, named⟩ := expr
      apply (call_spells home receiver quotable plain named).mono
      intro _ i row same
      use i, Form.expr_of_head .callStatic row, same
  | new ty args =>
      apply (new_spells home expr.1 expr.2).mono
      intro _ i row same
      use i, Form.expr_of_head .new row, same
  | getField object field ty =>
      obtain ⟨plain, ident, named⟩ := expr
      apply (getField_spells home plain ident named).mono
      intro _ i row same
      use i, Form.expr_of_head .getField row, same

/-! ### Statements -/

/-- The text of a condition, by its three forms. -/
theorem condition_spells {cond : Condition} (plain : ∀ e ∈ cond.operands, e.IsPlainIn owner) :
  Spells Delimited cond.text.toList Form.condition (·.map (typeReceiver owner) = cond)
  := by
  cases cond with
  | compare op lhs rhs =>
      apply Spells.left
      apply Spells.right
      apply Spells.of_eq
      · apply (operandIn_spells home (plain lhs (by simp [Condition.operands]))).bind
        intro lhs same
        apply space_spellsMarked
        apply (binaryOp_spells op).andThen
        apply (tySuffix_spells (show Ty.IsNamed .bool from trivial)).andThen
        apply space_spellsMarked
        apply (operandIn_spells home (plain rhs (by simp [Condition.operands]))).bind
        intro rhs same'
        apply spellsMarked_pure (by simp [Condition.map, same, same'])
      · simp [Condition.text, Fixed.text, Ty.text]
  | not e =>
      apply Spells.left
      apply Spells.left
      apply Spells.of_eq
      · apply (word_spells _).andThen
        apply (tySuffix_spells (show Ty.IsNamed .bool from trivial)).andThen
        apply space_spellsMarked
        apply (operandIn_spells home (plain e (by simp [Condition.operands]))).bind
        intro e same
        apply spellsMarked_pure (by simp [Condition.map, same])
      · simp [Condition.text, Fixed.text, Ty.text]
  | test e =>
      apply Spells.right
      apply Spells.of_eq
      · apply (operandIn_spells home (plain e (by simp [Condition.operands]))).bind
        intro e same
        apply spellsMarked_pure (by simp [Condition.map, same])
      · simp [Condition.text]

/-- A printed assignment is read back with its right side as it is read again. -/
theorem assign_spells {dest : Operand} {ty : Ty} (plain : dest.IsPlainIn owner) (named : ty.IsNamed)
    (expr : i.IsExpr owner) :
  Spells Delimited (Instr.assign dest ty i).text.toList Form.assign
    (·.map (typeReceiver owner) = .assign dest ty (i.reread owner))
  := by
  apply Spells.of_eq
  · apply (operandIn_spells home plain).bind
    intro dest same
    apply space_spellsMarked
    apply (word_spells _).andThen
    apply (tySuffix_spells named).andThen
    apply space_spellsMarked
    apply (expr_spells home expr).bind
    intro rhs same'
    exact spellsMarked_pure (by rw [← same, ← same']; rfl)
  · rw [Instr.text_assign]
    simp [Fixed.text]

omit home in
theorem goto_spells {label : String} (ident : IsIdent label) :
  Spells Delimited (Instr.goto label).text.toList Form.goto (·.map (typeReceiver owner) = .goto label)
  := by
  apply Spells.of_eq
  · apply (word_spells _).andThen
    apply space_spellsMarked
    apply (ident_spells ident).andThen
    exact spellsMarked_pure rfl
  · rw [Instr.text_goto]
    simp [Fixed.text]

theorem branch_spells {cond : Condition} {label : String} (plain : ∀ e ∈ cond.operands, e.IsPlainIn owner)
    (ident : IsIdent label) :
  Spells Delimited (Instr.branch cond label).text.toList Form.branch
    (·.map (typeReceiver owner) = .branch cond label)
  := by
  apply Spells.of_eq
  · apply (word_spells _).andThen
    apply space_spellsMarked
    apply mark_spells (by decide)
    apply (condition_spells home plain).bind
    intro cond same
    apply mark_spellsMarked (by decide)
    apply space_spells
    apply (word_spells _).andThen
    apply space_spellsMarked
    apply (ident_spells ident).andThen
    exact spellsMarked_pure (by rw [← same]; rfl)
  · rw [Instr.text_branch]
    simp [Fixed.text]

/-- A printed return, with a value or without. -/
theorem ret_spells {ty : Ty} {value : Option Operand} (named : ty.IsNamed)
    (plain : ∀ e ∈ value, e.IsPlainIn owner) :
  Spells Delimited (Instr.ret ty value).text.toList Form.ret (·.map (typeReceiver owner) = .ret ty value)
  := by
  have row : Spells Delimited (Instr.ret ty value).text.toList
      (do Form.word .wRet; let ty ← Form.tySuffix; Form.retAfter ty)
      (·.map (typeReceiver owner) = .ret ty value) := by
    cases value with
    | none =>
        apply Spells.of_eq
        · apply (word_spells _).andThen
          apply (tySuffix_spells named).andThen
          apply SpellsMarked.right
          exact spellsMarked_pure rfl
        · rw [Instr.text_ret_none]
          simp [Fixed.text]
    | some e =>
        apply Spells.of_eq
        · apply (word_spells _).andThen
          apply (tySuffix_spells named).andThen
          apply SpellsMarked.left
          apply space_spellsMarked
          apply (operandIn_spells home (plain e rfl)).bind
          intro e same
          exact spellsMarked_pure (by rw [← same]; rfl)
        · rw [Instr.text_ret_some]
          simp [Fixed.text]
  apply row.mono
  intro _ i row same
  use i, Form.ret_iff.2 row, same

/-- The text of a statement spells its form. -/
theorem statement_spells (statement : i.IsStatement owner) :
  Spells Delimited i.text.toList Form.statement (·.map (typeReceiver owner) = i.reread owner)
  := by
  cases i with
  | assign dest ty rhs =>
      obtain ⟨plain, -, named, expr⟩ := statement
      apply (assign_spells home plain named expr).left.left.left.left.left
  | goto label =>
      apply (goto_spells statement).mono
      intro _ i row same
      use i, Form.statement_of_head .goto row, same
  | branch cond label =>
      apply (branch_spells home statement.1 statement.2).mono
      intro _ i row same
      use i, Form.statement_of_head .branch row, same
  | ret ty value =>
      apply (ret_spells home statement.1 statement.2).mono
      intro _ i row same
      use i, Form.statement_of_head .ret row, same
  | putField object field ty value =>
      obtain ⟨plain, ident, named, plain'⟩ := statement
      apply (putField_spells home plain ident named plain').mono
      intro _ i row same
      use i, Form.statement_of_head .putField row, same
  | single | binary | unary | call | new | getField | arrayLength =>
      apply Spells.right
      apply expr_spells home
      apply statement

end StackBackend
