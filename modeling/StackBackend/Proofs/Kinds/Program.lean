import Mathlib.Data.List.Forall2
import StackBackend.Proofs.Kinds.Domain
import StackBackend.Proofs.Slots.Preservation

/-!
# Well-kinded programs

In a well-kinded method every variable is annotated with types of one kind, and every operand with a type
of the kind that its place asks for. Run with a cell for each name, such a method has no fault for the
sake of kinds, as long as the variables it reads hold values of their kinds.
-/

namespace StackBackend

open Domain (kinds)

/-! ### Well-kinded code -/

/-- The kind of an operand by its annotation. -/
def Operand.kind (e : Operand) : Kind := .ofTy e.ty

/-- The annotations of an operand agree with the kinds of the variables, and those of an index with an
integer. -/
def Operand.WellKinded (κ : String → Kind) : Operand → Prop
  | .literal _ ty => ty = .int ∨ ty = .bool ∨ ty = .string
  | .var x ty => κ x = .ofTy ty
  | .item x index _ => κ x = .ref ∧ index.WellKinded κ ∧ index.kind = .int

/-- A well-kinded operand of the kind. -/
def Operand.Has (κ : String → Kind) (kind : Kind) (e : Operand) : Prop :=
  e.WellKinded κ ∧ e.kind = kind

/-- The kind of the value of an expression. -/
def Instr.valueKind : Instr → Kind
  | .single e => e.kind
  | .call _ _ _ _ result => .ofTy result
  | .getField _ _ fieldTy => .ofTy fieldTy
  | .new .. => .ref
  | _ => .int

/-- Every operand of an instruction has a kind that its place asks for. -/
def Instr.WellKinded (κ : String → Kind) : Instr → Prop
  | .assign dest _ rhs =>
      dest.WellKinded κ ∧ rhs.WellKinded κ ∧ rhs.valueKind = dest.kind
  | .single e => e.WellKinded κ
  | .binary _ lhs rhs _ => lhs.Has κ .int ∧ rhs.Has κ .int
  | .unary _ e _ => e.Has κ .int
  | .ret ty value => ∀ e ∈ value, e.Has κ (.ofTy ty)
  | .call kind receiver _ args _ =>
      (kind ≠ .static → receiver.Has κ .ref) ∧ ∀ e ∈ args, e.WellKinded κ
  | .new (.array _) args => ∀ e ∈ args, e.Has κ .int
  | .new _ args => ∀ e ∈ args, e.WellKinded κ
  | .getField object _ _ => object.Has κ .ref
  | .putField object _ fieldTy value => object.Has κ .ref ∧ value.Has κ (.ofTy fieldTy)
  | .goto _ => True
  | .branch cond _ => ∀ e ∈ cond.operands, e.Has κ .int
  | .arrayLength e => e.Has κ .ref

/-- Every instruction of a method is well-kinded, and the parameters and the receiver are of the kinds
that they come with. -/
structure Method.WellKinded (m : Method) (κ : String → Kind) : Prop where
  body : ∀ i ∈ m.body, i.WellKinded κ
  params : ∀ p ∈ m.params, κ p.name = .ofTy p.ty
  receiver : m.isStatic = false → (∀ p ∈ m.params, p.name ≠ "this") → κ "this" = .ref

instance decidableWellKindedOperand (κ : String → Kind) : (e : Operand) → Decidable (e.WellKinded κ)
  | .literal _ ty => inferInstanceAs (Decidable (ty = .int ∨ ty = .bool ∨ ty = .string))
  | .var x ty => inferInstanceAs (Decidable (κ x = .ofTy ty))
  | .item x index _ =>
      have := decidableWellKindedOperand κ index
      inferInstanceAs (Decidable (κ x = .ref ∧ index.WellKinded κ ∧ index.kind = .int))

instance (κ : String → Kind) (kind : Kind) (e : Operand) : Decidable (e.Has κ kind) :=
  inferInstanceAs (Decidable (e.WellKinded κ ∧ e.kind = kind))

instance decidableWellKindedInstr (κ : String → Kind) : (i : Instr) → Decidable (i.WellKinded κ)
  | .assign dest _ rhs =>
      have := decidableWellKindedInstr κ rhs
      inferInstanceAs (Decidable (dest.WellKinded κ ∧ rhs.WellKinded κ ∧ rhs.valueKind = dest.kind))
  | .single e => inferInstanceAs (Decidable (e.WellKinded κ))
  | .binary _ lhs rhs _ => inferInstanceAs (Decidable (lhs.Has κ .int ∧ rhs.Has κ .int))
  | .unary _ e _ => inferInstanceAs (Decidable (e.Has κ .int))
  | .ret ty value => inferInstanceAs (Decidable (∀ e ∈ value, e.Has κ (.ofTy ty)))
  | .call kind receiver _ args _ => inferInstanceAs
      (Decidable ((kind ≠ .static → receiver.Has κ .ref) ∧ ∀ e ∈ args, e.WellKinded κ))
  | .new (.array _) args => inferInstanceAs (Decidable (∀ e ∈ args, e.Has κ .int))
  | .new .int args | .new .bool args | .new .string args | .new .void args
  | .new (.object _) args => inferInstanceAs (Decidable (∀ e ∈ args, e.WellKinded κ))
  | .getField object _ _ => inferInstanceAs (Decidable (object.Has κ .ref))
  | .putField object _ fieldTy value =>
      inferInstanceAs (Decidable (object.Has κ .ref ∧ value.Has κ (.ofTy fieldTy)))
  | .goto _ => inferInstanceAs (Decidable True)
  | .branch cond _ => inferInstanceAs (Decidable (∀ e ∈ cond.operands, e.Has κ .int))
  | .arrayLength e => inferInstanceAs (Decidable (e.Has κ .ref))

instance (m : Method) (κ : String → Kind) : Decidable (m.WellKinded κ) :=
  decidable_of_iff ((∀ i ∈ m.body, i.WellKinded κ) ∧ (∀ p ∈ m.params, κ p.name = .ofTy p.ty)
      ∧ (m.isStatic = false → (∀ p ∈ m.params, p.name ≠ "this") → κ "this" = .ref))
    ⟨fun ⟨body, params, receiver⟩ => ⟨body, params, receiver⟩,
      fun ⟨body, params, receiver⟩ => ⟨body, params, receiver⟩⟩

/-! ### The discipline of kinds -/

/-- There is no fault for the sake of kinds. -/
def Bounds.kinds : Bounds kinds where
  Allows _ := True
  Excuses f := ¬ f.OfKinds

/-- An action on values of the kinds it wants gives a value of the kind it gives. -/
theorem Action.obeys_kinds {a : Action} {vs : List (Option Kind)} {P : Option Kind → Prop}
    (wanted : vs = a.wants.map some) (given : P a.gives) :
  (Eff.act (D := kinds) a vs).Obeys .kinds P
  := by
  apply Eff.obeys_act trivial
  intro answers
  have done : kinds.act a vs answers = .ok (a.gives, answers) := by
    rw [wanted]
    apply actKinds_wants
  rw [done]
  apply given

/-- The discipline of kinds: a value is of the kind that is asked for. -/
def Discipline.kinds {u : ClassUnit} (imports : ∀ path ∈ u.imports, IsPath path) : Discipline kinds u where
  toBounds := .kinds
  S := Kind
  Has v kind := v = some kind
  sort := .ofTy
  made _ := .ref
  Fits kind kind' := kind = kind'
  Writes ty := ty = .int ∨ ty = .bool ∨ ty = .string
  Names := Ty.IsProper
  excuses other := other
  fits_sort _ := rfl
  int _ := rfl
  literal {value ty} written := by
    unfold literalConstant
    split
    · next string =>
        subst string
        rfl
    · next other =>
        have int : Kind.ofTy ty = .int := by
          obtain rfl | rfl | rfl := written
          · rfl
          · rfl
          · apply (other rfl).elim
        split
        · rw [int]
          rfl
        · apply id
  check := by
    rintro _ kind _ rfl rfl
    simp only [checkKind_self]
    trivial
  arith := by
    rintro _ _ _ _ op rfl rfl rfl rfl
    rfl
  neg := by
    rintro _ _ rfl rfl
    rfl
  test := by
    rintro _ _ p answers rfl rfl
    trivial
  compare := by
    rintro _ _ _ _ r answers rfl rfl rfl rfl
    trivial
  load := by
    rintro _ _ ty _ rfl rfl rfl
    apply Action.obeys_kinds rfl rfl
  store := by
    rintro _ _ _ ty _ _ rfl rfl rfl rfl rfl
    apply Action.obeys_kinds rfl trivial
  length := by
    rintro _ _ rfl rfl
    apply Action.obeys_kinds rfl rfl
  getField := by
    rintro _ _ field ty rfl rfl
    apply Action.obeys_kinds rfl
    rw [Action.gives, u.ofDescriptor_descriptor]
  putField := by
    rintro _ _ _ _ field ty rfl rfl rfl rfl
    apply Action.obeys_kinds _ trivial
    rw [Action.wants, u.ofDescriptor_descriptor]
    rfl
  invoke := by
    intro vs kind receiver args result owner method named named' reference all
    have signature := ClassUnit.signature_callTarget imports owner method named named'
    have values : vs = (callOperands kind receiver args).map fun e => some (.ofTy e.ty) := by
      rw [← List.forall₂_map_right_iff (R := Eq), List.forall₂_eq_eq_eq] at all
      apply all
    apply Action.obeys_kinds
    · rw [values, Action.wants, signature, callOperands]
      split
      · simp
      · next other => simp [reference other]
    · rw [Action.gives, signature]
      intro value
      simp [value]
  newArray := by
    rintro _ _ ty named rfl rfl
    apply Action.obeys_kinds
    · cases ty <;> rfl
    · cases ty <;> rfl
  new := by
    intro ty other
    apply Action.obeys_kinds rfl rfl

/-! ### Runs -/

section Runs

variable {κ : String → Kind} {u : ClassUnit} {m : Method} {i : Instr} {cells : String → kinds.Value}

/-- After an instruction the variable that it writes holds a value of its kind, and all others hold
what they held. -/
def Rewritten (κ : String → Kind) (i : Instr) (cells after : String → kinds.Value) : Prop :=
  ∀ x, (x ∈ i.defs → after x = some (κ x)) ∧ (x ∉ i.defs → after x = cells x)

/-- The types that an instruction spells out are proper. -/
theorem Instr.IsProper.spelled (proper : i.IsProper) :
  ∀ ty ∈ i.spelled, ty.IsProper
  := by
  induction i with
  | assign dest ty rhs ih => apply ih proper
  | call kind receiver method args result =>
      rw [Instr.spelled, List.forall_mem_cons, List.forall_mem_map]
      use proper.2, proper.1
  | new ty args =>
      intro ty' mem
      obtain rfl := List.mem_singleton.1 mem
      apply proper
  | single | binary | unary | ret | getField | putField | goto | branch | arrayLength => simp [Instr.spelled]

/-- The kind of the value of an expression is its sort. -/
theorem Instr.valueSort_kinds (imports : ∀ path ∈ u.imports, IsPath path) (i : Instr) :
  i.valueSort (.kinds imports) = i.valueKind
  := by
  cases i <;> rfl

/-- A well-kinded operand is sorted by kinds. -/
theorem Operand.WellKinded.sorted {imports : ∀ path ∈ u.imports, IsPath path} {e : Operand}
    (typed : e.WellKinded κ) :
  e.Sorted (.kinds imports)
  := by
  induction e with
  | literal value ty => apply typed
  | var x ty => trivial
  | item x index ty ih =>
      obtain ⟨-, typed, int⟩ := typed
      use ih typed
      apply int

/-- An operand of a kind suits a place for that kind. -/
theorem Operand.Has.suits {imports : ∀ path ∈ u.imports, IsPath path} {e : Operand} {kind : Kind}
    (has : e.Has κ kind) :
  e.Suits (.kinds imports) kind
  := by
  use has.1.sorted
  apply has.2

/-- The operands of a well-kinded instruction fit their places. -/
theorem Instr.WellKinded.sorted {imports : ∀ path ∈ u.imports, IsPath path} (typed : i.WellKinded κ) :
  i.Sorted (.kinds imports)
  := by
  induction i with
  | assign dest ty rhs ih =>
      obtain ⟨place, typed, same⟩ := typed
      use place.sorted, ih typed
      rw [valueSort_kinds]
      apply same
  | single e => apply Operand.WellKinded.sorted typed
  | binary op lhs rhs ty =>
      use typed.1.suits
      apply typed.2.suits
  | unary op e ty => apply Operand.Has.suits typed
  | getField object field fieldTy => apply Operand.Has.suits typed
  | arrayLength e => apply Operand.Has.suits typed
  | putField object field fieldTy value =>
      use typed.1.suits
      apply typed.2.suits
  | goto label => trivial
  | ret ty value =>
      intro e mem
      apply (typed e mem).suits
  | branch cond label =>
      intro e mem
      apply (typed e mem).suits
  | call kind receiver method args result =>
      constructor
      · intro other
        apply (typed.1 other).suits
      · intro e mem
        apply (typed.2 e mem).sorted
  | new ty args =>
      cases ty with
      | array elem =>
          intro e mem
          apply (typed e mem).suits
      | int | bool | string | void | object => trivial

/-- A name of a well-kinded operand has the kind of its type there. -/
theorem Operand.WellKinded.kind_eq {e : Operand} (typed : e.WellKinded κ) {x : String} {ty : Ty}
    (mem : (x, ty) ∈ e.typedNames) :
  κ x = .ofTy ty
  := by
  induction e with
  | literal value ty' => simp [typedNames] at mem
  | var y ty' =>
      obtain ⟨rfl, rfl⟩ : x = y ∧ ty = ty' := by simpa [typedNames] using mem
      apply typed
  | item y index ty' ih =>
      obtain ⟨array, typed, -⟩ := typed
      rw [typedNames, List.mem_cons, Prod.mk.injEq] at mem
      obtain ⟨rfl, rfl⟩ | mem := mem
      · apply array
      · apply ih typed mem

/-- The operands that a well-kinded instruction reads are well-kinded. -/
theorem Instr.WellKinded.reads (typed : i.WellKinded κ) :
  ∀ e ∈ i.reads, e.WellKinded κ
  := by
  induction i with
  | assign dest ty rhs ih =>
      obtain ⟨place, typed, -⟩ := typed
      cases dest with
      | item x index ty' =>
          intro e mem
          obtain mem | mem := List.mem_append.1 mem
          · apply ih typed e mem
          · obtain rfl := List.mem_singleton.1 mem
            apply place
      | var | literal => apply ih typed
  | call kind receiver method args result =>
      intro e mem
      rw [Instr.reads] at mem
      split at mem
      · apply typed.2 e mem
      · next other =>
          obtain rfl | mem := List.mem_cons.1 mem
          · apply (typed.1 other).1
          · apply typed.2 e mem
  | new ty args =>
      intro e mem
      cases ty with
      | array elem => apply (typed e mem).1
      | int | bool | string | void | object => apply typed e mem
  | ret ty value =>
      intro e mem
      apply (typed e (by simpa [Instr.reads] using mem)).1
  | branch cond label =>
      intro e mem
      apply (typed e mem).1
  | single | binary | unary | getField | putField | goto | arrayLength =>
      simp_all [Instr.reads, WellKinded, Operand.Has]

/-- The value that is assigned has the kind of the variable. -/
theorem Instr.Assigns.kind_eq {imports : ∀ path ∈ u.imports, IsPath path} {x : String} {v : kinds.Value}
    (assigns : i.Assigns (.kinds imports) x v) (typed : i.WellKinded κ) :
  v = some (κ x)
  := by
  cases i with
  | assign dest ty rhs =>
      obtain ⟨place, -, same⟩ := typed
      cases dest with
      | var y ty' =>
          obtain ⟨rfl, has⟩ := assigns
          rw [valueSort_kinds, same] at has
          rw [has, place]
          rfl
      | item | literal => cases assigns
  | single | binary | unary | ret | call | new | getField | putField | goto | branch | arrayLength => cases assigns

/-- A well-kinded instruction writes its variable with its kind and no other. -/
theorem Written.rewritten {imports : ∀ path ∈ u.imports, IsPath path} (typed : i.WellKinded κ)
    {cells' after after' : String → kinds.Value}
    (written : Written (.kinds imports) i some some cells cells' after after') :
  Rewritten κ i cells after
  := by
  cases written with
  | none free =>
      intro x
      constructor
      · intro defined
        apply (free x defined).elim
      · intro _
        rfl
  | @one x a b v assigns defs at_a at_b =>
      obtain rfl := Option.some.inj at_a
      intro y
      rw [defs y]
      constructor
      · rintro rfl
        rw [Function.update_self, assigns.kind_eq typed]
      · intro other
        rw [Function.update_of_ne other]

/-- The variables that are live at an index hold values of their kinds. -/
def Method.HoldsKinds (m : Method) (κ : String → Kind) (index : Nat) (cells : String → kinds.Value) :
    Prop :=
  ∀ x, LiveAt m.flowNodes x index → cells x = some (κ x)

/-- Live variables keep their kinds over an instruction. -/
theorem Method.HoldsKinds.rewritten {index next : Nat} {after : String → kinds.Value}
    (holds : m.HoldsKinds κ index cells) (at_index : m.body[index]? = some i)
    (goes : next ∈ m.successorsOf i index) (written : Rewritten κ i cells after) :
  m.HoldsKinds κ next after
  := by
  intro x live
  by_cases defined : x ∈ i.defs
  · apply (written x).1 defined
  · rw [(written x).2 defined]
    apply holds x (liveAt_of_successor at_index goes defined live)

/-- A well-kinded instruction has no fault for the sake of kinds where the live variables hold values of their
kinds, and leads to where they do. -/
theorem Instr.exec_obeys_kinds {index : Nat} (imports : ∀ path ∈ u.imports, IsPath path)
    (typed : i.WellKinded κ) (proper : i.IsProper) (at_index : m.body[index]? = some i)
    (holds : m.HoldsKinds κ index cells) :
  (i.exec u some cells).Obeys .kinds ((program u some kinds m).Leads (m.HoldsKinds κ) (index + 1))
  := by
  have held : (Discipline.kinds imports).Holds (fetch some cells) (fetch some cells) i.reads := by
    intro e mem x ty named
    use rfl
    have used : x ∈ i.uses := by
      rw [mem_uses]
      use e, mem
      rw [Operand.mem_names]
      use ty
    have value : cells x = some (.ofTy ty) := by
      rw [holds x (Method.liveAt_of_uses at_index used), (typed.reads e mem).kind_eq named]
    apply value
  have within := exec_within typed.sorted proper.spelled held fun _ _ => rfl
  apply within.with_gives.obeys_of
  rintro next next' ⟨both, given⟩
  have goes := exec_gives u some given
  cases both with
  | on written =>
      intro x live
      have inside : index + 1 < m.body.length := Method.lt_length_of_liveAt live
      have next : index + 1 ∈ m.successorsOf i index := Method.next_mem_successorsOf goes inside
      apply holds.rewritten at_index next (written.rewritten typed) x live
  | jump label written =>
      intro target found x live
      have inside : target < m.body.length := Method.lt_length_of_liveAt live
      have next : target ∈ m.successorsOf i index := Method.target_mem_successorsOf goes found inside
      apply holds.rewritten at_index next (written.rewritten typed) x live
  | ret v => trivial

/-- A well-kinded method, run with a cell for each name, has no fault for the sake of kinds. -/
theorem program_safe (imports : ∀ path ∈ u.imports, IsPath path) (typed : m.WellKinded κ)
    (proper : ∀ i ∈ m.body, i.IsProper) (holds : m.HoldsKinds κ 0 cells) {answers : List Bool}
    {tr : List (Request kinds.Value)} {e : Fault}
    (halts : (program u some kinds m).automaton.Halts ⟨0, cells, answers⟩ tr (.fault e)) :
  ¬ e.OfKinds
  := by
  have keeps : (program u some kinds m).Keeps .kinds (m.HoldsKinds κ) := by
    constructor
    · intro index exec cells found holds
      obtain ⟨i, at_index, rfl⟩ := Option.map_eq_some_iff.1 found
      have mem : i ∈ m.body := List.mem_of_getElem? at_index
      apply Instr.exec_obeys_kinds imports (typed.body i mem) (proper i mem) at_index holds
    · intro label
      apply id
    · intro f fault
      apply (program_atEnd_ne u some m f fault).elim
  apply keeps.excuses holds halts

end Runs

end StackBackend
