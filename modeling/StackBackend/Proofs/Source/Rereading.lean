import StackBackend.Proofs.Source.RoundTrip

/-!
# Reading, printing and reading again

What is read from a text can be written again, and what the check of a method leaves is what a printed
method is read back as. Three things that can be read are not printed as they were written. The type of
the receiver of a static call is left out. A constructor is printed without its modifiers. And a bare name
on which a method is called or a field is used gets its type, with which the names of literals and of
built-in types mean something else.
-/

namespace StackBackend

/-! ### Operands -/

variable {owner : String} {e : Operand}

/-- With the receiver typed by its class, a plain operand is one of the class. -/
theorem Operand.IsPlain.isPlainIn (plain : e.IsPlain) :
  (typeReceiver owner e).IsPlainIn owner
  := by
  cases e with
  | literal | item =>
      right
      use plain
      rfl
  | var x ty =>
      by_cases receiver : x = "this"
      · left
        simp [typeReceiver, receiver]
      · have same : typeReceiver owner (.var x ty) = .var x ty := if_neg receiver
        rw [same]
        right
        use plain, same

/-- The same for a list of operands. -/
theorem isPlainIn_of_mem_map {es : List Operand} (plain : ∀ e ∈ es, e.IsPlain) :
  ∀ e ∈ es.map (typeReceiver owner), e.IsPlainIn owner
  := by
  rw [List.forall_mem_map]
  intro e mem
  apply (plain e mem).isPlainIn

/-- The names that mean something else with a type. -/
def reservedNames : List String := ["true", "false", "i32", "bool", "String", "V"]

/-- The operand is not one of the names alone. -/
def Operand.IsUnreserved (e : Operand) : Prop := ∀ x ∈ reservedNames, e ≠ .var x (.object x)

instance (e : Operand) : Decidable e.IsUnreserved := inferInstanceAs (Decidable (∀ x ∈ reservedNames, _))

/-- A bare name is typed by the class of its name, and is plain with that type unless it is reserved. -/
theorem Operand.IsWritten.isPlainIn (written : e.IsWritten) (unreserved : (typeReceiver owner e).IsUnreserved) :
  (typeReceiver owner e).IsPlainIn owner
  := by
  obtain plain | ⟨x, ident, rfl⟩ := written
  · apply plain.isPlainIn
  · by_cases receiver : x = "this"
    · left
      simp [typeReceiver, receiver]
    · have same : typeReceiver owner (.var x (.object x)) = .var x (.object x) := if_neg receiver
      rw [same] at unreserved ⊢
      have free : x ∉ reservedNames := fun mem => unreserved x mem rfl
      simp only [reservedNames, List.mem_cons, not_or] at free
      exact .inr ⟨⟨ident, by simp [free], ident, by simp [free]⟩, same⟩

/-- The receiver of a static call is printed without its type, so that it need not be free of the reserved
names. -/
theorem Operand.IsWritten.isReceiver (written : e.IsWritten) {kind : CallKind}
    (unreserved : kind ≠ .static → (typeReceiver owner e).IsUnreserved) :
  IsReceiver owner kind (typeReceiver owner e)
  := by
  cases kind with
  | virtual | special => apply written.isPlainIn (unreserved (by simp))
  | static =>
      obtain plain | ⟨x, ident, rfl⟩ := written
      · cases e with
        | literal | item => apply plain.isPlainIn
        | var x ty => by_cases receiver : x = "this" <;> simpa [typeReceiver, receiver, IsReceiver] using plain.1
      · by_cases receiver : x = "this" <;> simpa [typeReceiver, receiver, IsReceiver] using ident

/-! ### Instructions -/

namespace Instr

/-- The operand on which a method that is not static is called or a field is used. -/
def object? : Instr → Option Operand
  | .assign _ _ rhs => rhs.object?
  | .call .static _ _ _ _ => none
  | .call .virtual receiver _ _ _ | .call .special receiver _ _ _ => some receiver
  | .getField object _ _ | .putField object _ _ _ => some object
  | _ => none

variable {i : Instr}

/-- With the receiver typed by its class, an expression that is read can be printed. -/
theorem IsWrittenExpr.isExpr (written : i.IsWrittenExpr)
    (unreserved : ∀ e ∈ (i.map (typeReceiver owner)).object?, e.IsUnreserved) :
  (i.map (typeReceiver owner)).IsExpr owner
  := by
  cases i with
  | single | arrayLength => apply Operand.IsPlain.isPlainIn written
  | binary op lhs rhs ty => use written.1.isPlainIn, written.2.1.isPlainIn, written.2.2
  | unary op e ty => use written.1.isPlainIn, written.2
  | call kind receiver method args result =>
      refine ⟨written.1.isReceiver ?_, written.2.1, isPlainIn_of_mem_map written.2.2.1, written.2.2.2⟩
      intro dynamic
      apply unreserved
      cases kind <;> simp_all [map, object?]
  | new ty args => use written.1, isPlainIn_of_mem_map written.2
  | getField object field ty =>
      use written.1.isPlainIn (unreserved _ rfl)
      apply written.2
  | assign | ret | putField | goto | branch => apply written.elim

/-- The operands of a changed condition are the changed operands. -/
theorem operands_map (f : Operand → Operand) (cond : Condition) :
  (cond.map f).operands = cond.operands.map f
  := by
  cases cond <;> rfl

/-- With the receiver typed by its class, a statement that is read can be printed if it assigns to no
literal. -/
theorem IsWritten.isStatement (written : i.IsWritten)
    (unreserved : ∀ e ∈ (i.map (typeReceiver owner)).object?, e.IsUnreserved)
    (assignable : ∀ e ∈ i.target?, e.isLiteral = false) :
  (i.map (typeReceiver owner)).IsStatement owner
  := by
  cases i with
  | assign dest ty rhs =>
      and_intros
      · apply written.1.isPlainIn
      · rw [isLiteral_typeReceiver]
        apply assignable dest rfl
      · apply written.2.1
      · apply written.2.2.isExpr unreserved
  | goto label => apply written
  | branch cond label =>
      constructor
      · rw [operands_map]
        apply isPlainIn_of_mem_map written.1
      · apply written.2
  | ret ty value =>
      use written.1
      intro e mem
      obtain ⟨e', mem', rfl⟩ := Option.map_eq_some_iff.1 mem
      apply (written.2 e' mem').isPlainIn
  | putField object field ty value =>
      use written.1.isPlainIn (unreserved _ rfl), written.2.1, written.2.2.1, written.2.2.2.isPlainIn
  | single | binary | unary | call | new | getField | arrayLength =>
      rw [IsWritten] at written
      · apply written.isExpr unreserved
      all_goals simp

end Instr

/-! ### Checked declarations -/

/-- Labels are listed in the order of the places they name. -/
theorem placedLabels_sorted (index : Nat) (items : List (Located BodyItem)) :
  (placedLabels index items).Pairwise (·.2 ≤ ·.2) ∧ ∀ label ∈ placedLabels index items, index ≤ label.2
  := by
  fun_induction placedLabels index items with
  | case1 => simp
  | case2 index x span items ih =>
      rw [List.pairwise_cons, List.forall_mem_cons]
      constructor
      · use ih.2, ih.1
      · use Nat.le_refl _, ih.2
  | case3 index i span items ih =>
      use ih.1
      intro label mem
      apply Nat.le_of_succ_le (ih.2 label mem)

/-- A label that is placed is an item of the body. -/
theorem exists_of_mem_placedLabels {index : Nat} {items : List (Located BodyItem)} {label : String × Nat}
    (mem : label ∈ placedLabels index items) :
  ∃ item ∈ items, item.value = .label label.1
  := by
  fun_induction placedLabels index items with
  | case1 => simp at mem
  | case2 index x span items ih =>
      obtain rfl | mem := List.mem_cons.1 mem
      · exact ⟨_, List.mem_cons_self, rfl⟩
      · obtain ⟨item, mem, same⟩ := ih mem
        use item, List.mem_cons_of_mem _ mem, same
  | case3 index i span items ih =>
      obtain ⟨item, mem, same⟩ := ih mem
      use item, List.mem_cons_of_mem _ mem, same

/-- No instruction of a checked body assigns to a literal. -/
theorem isLiteral_of_itemFault? {seen : List String} {items : List (Located BodyItem)}
    (sound : itemFault? seen items = none) {i : Instr} (mem : i ∈ itemInstrs items) {e : Operand}
    (target : e ∈ i.target?) :
  e.isLiteral = false
  := by
  fun_induction itemFault? seen items with
  | case1 => simp [itemInstrs] at mem
  | case2 | case4 => simp at sound
  | case3 seen x span items new ih => apply ih sound mem
  | case5 seen i' span items other ih =>
      obtain rfl | mem := List.mem_cons.1 (show i ∈ i' :: itemInstrs items from mem)
      · cases i with
        | assign dest ty rhs =>
            obtain rfl : dest = e := by simpa [Instr.target?] using target
            cases dest with
            | literal value ty' => apply (other value ty' ty rhs rfl).elim
            | var | item => rfl
        | _ => simp [Instr.target?] at target
      · apply ih sound mem

/-- A constructor is one as it is printed: without modifiers it is public and not static. -/
def Method.IsPlainConstructor (m : Method) : Prop :=
  m.isConstructor = true → m.access = .everyone ∧ m.isStatic = false

instance (m : Method) : Decidable m.IsPlainConstructor := inferInstanceAs (Decidable (_ → _))

/-- No method is called and no field is used on one of the reserved names alone. -/
def Method.IsUnreserved (m : Method) : Prop := ∀ i ∈ m.body, ∀ e ∈ i.object?, e.IsUnreserved

instance (m : Method) : Decidable m.IsUnreserved := inferInstanceAs (Decidable (∀ i ∈ m.body, _))

/-- A method that is read and checked can be printed, its modifiers and the reserved names aside. -/
theorem MethodDecl.IsWritten.isPrintable {d : MethodDecl} {m : Method} (written : d.IsWritten)
    (checked : d.check owner = .ok m) (constructs : m.IsPlainConstructor) (unreserved : m.IsUnreserved) :
  m.IsPrintable owner
  := by
  obtain ⟨sound, rfl⟩ := eq_of_check checked
  constructor
  · have name := written.name
    cases isConstructor : d.isConstructor with
    | true => simpa [isConstructor] using ⟨by simpa [isConstructor] using name, constructs isConstructor⟩
    | false => simpa [isConstructor] using name
  · apply written.params
  · apply written.ret
  · intro i mem
    obtain ⟨i, mem', rfl⟩ := List.mem_map.1 mem
    apply (written.isWritten_of_mem mem').isStatement (unreserved _ mem)
    intro e
    apply isLiteral_of_itemFault? sound mem'
  · intro label mem
    obtain ⟨item, listed, value⟩ := exists_of_mem_placedLabels mem
    have holds := written.body item listed
    rwa [value] at holds

/-! ### Classes -/

/-- A class that is read can be printed, apart from its constructors and the reserved names. -/
theorem isPrintable_of_parse {text : String} {u : ClassUnit} (read : parse text = .ok u)
    (constructs : ∀ m ∈ u.methods, m.IsPlainConstructor) (unreserved : ∀ m ∈ u.methods, m.IsUnreserved) :
  u.IsPrintable ∧ ∀ m ∈ u.methods, m.IsSettled u.name
  := by
  obtain ⟨-, declared⟩ := declared_of_parse read
  obtain ⟨d, readUnit, checked⟩ := eq_ok_of_bind read
  have written := UnitDecl.isWritten_of_readUnit readUnit
  obtain ⟨methods, each, made⟩ := eq_ok_of_bind checked
  cases made
  constructor
  · use written.name, written.superName, written.imports
    · intro f mem
      obtain ⟨member, mem', same⟩ := List.mem_filterMap.1 mem
      have holds := written.members member mem'
      cases member with
      | method d' => simp at same
      | field f' =>
          obtain rfl : f' = f := by simpa using same
          apply holds
    · intro m mem
      obtain ⟨decl, holds, accepted⟩ := exists_isWritten_of_parse read mem
      apply holds.isPrintable accepted (constructs m mem) (unreserved m mem)
  · intro m mem
    obtain ⟨decl, listed, accepted⟩ := exists_of_mem_mapM each mem
    obtain ⟨-, rfl⟩ := MethodDecl.eq_of_check accepted
    use (declared _ mem).labelled, (placedLabels_sorted 0 decl.body).1

/-- A class that is read from a text is printed and read again: it comes back with the receivers of its
static calls typed by the classes they name, and unchanged only if they are so already. -/
theorem parse_text_of_parse {text : String} {u : ClassUnit} (read : parse text = .ok u)
    (constructs : ∀ m ∈ u.methods, m.IsPlainConstructor) (unreserved : ∀ m ∈ u.methods, m.IsUnreserved) :
  parse u.text = .ok u.reread
    ∧ (parse u.text = .ok u ↔ ∀ m ∈ u.methods, ∀ i ∈ m.body, i.HasClassReceiver u.name)
  := by
  obtain ⟨printable, settled⟩ := isPrintable_of_parse read constructs unreserved
  have again := parse_text printable settled
  use again
  rw [again, ← ClassUnit.reread_eq_self_iff, Except.ok.injEq]

/-- A class with a static call on a variable of another type than the class of its name. -/
def typedReceiverText : String := "A \x7b .method f().V \x7b invokestatic(x.i32, \"g\").V; \x7d \x7d"

/-- Printing leaves the type of that variable out, so that the class is not read back. -/
theorem typedReceiver_not_reread :
  ∃ u, parse typedReceiverText = .ok u ∧ parse u.text ≠ .ok u
  := by
  have checked : ((parse typedReceiverText).toOption.any fun u => decide ((parse u.text).toOption ≠ some u)) = true := by
    decide +kernel
  rw [Option.any_eq_true] at checked
  obtain ⟨u, parsed, differs⟩ := checked
  use u, eq_ok_of_toOption parsed
  intro same
  rw [same] at differs
  apply of_decide_eq_true differs rfl

/-- A class with a constructor and a method that has a loop, a call on the receiver and a static call. -/
def mixedText : String :=
  "A\x7b.construct A().V\x7b\x7d.method f(n.i32).V\x7bl:invokestatic(n.i32,\"g\").V;invokevirtual(this,\"h\").V;"
    ++ "if(n.i32)goto l;\x7d\x7d"

/-- The class is printed and read again. -/
theorem mixed_reread :
  ∃ u, parse mixedText = .ok u ∧ (∀ m ∈ u.methods, m.IsPlainConstructor) ∧ (∀ m ∈ u.methods, m.IsUnreserved)
    ∧ u.methods.length = 2 ∧ parse u.text = .ok u.reread
  := by
  have checked : ((parse mixedText).toOption.any fun u => decide ((∀ m ∈ u.methods, m.IsPlainConstructor)
      ∧ (∀ m ∈ u.methods, m.IsUnreserved) ∧ u.methods.length = 2)) = true := by
    decide +kernel
  rw [Option.any_eq_true] at checked
  obtain ⟨u, parsed, holds⟩ := checked
  obtain ⟨constructs, unreserved, two⟩ := of_decide_eq_true holds
  have parsed := eq_ok_of_toOption parsed
  use u, parsed, constructs, unreserved, two, (parse_text_of_parse parsed constructs unreserved).1

end StackBackend
