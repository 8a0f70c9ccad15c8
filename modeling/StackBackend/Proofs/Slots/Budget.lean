import StackBackend.Proofs.Lowering.Tables
import StackBackend.Proofs.Slots.Allocation
import StackBackend.Proofs.Source.Methods

/-!
# The budget and the outcome

Allocation gives variables other slots and enters those that the table lacks. Of the methods that a text
declares a table lacks the receiver of a static method at most: all other variables are entered when the
text is read. So the budget makes no difference to whether a class has code, or to why it has none, but
where lowering stops at a receiver that allocation enters.
-/

namespace StackBackend

/-! ### Variables of a body -/

/-- Each variable has the type of its first appearance in the body. -/
theorem getElem?_firstTypes (body : List Instr) (x : String) :
  (firstTypes body)[x]? = (body.flatMap Instr.typedNames).lookup x
  := by
  have gather (xs : List (String × Ty)) (types : NameMap Ty) :
      (xs.foldl (fun types x => types.insertIfNew x.1 x.2) types)[x]? = types[x]?.or (xs.lookup x) := by
    induction xs generalizing types with
    | nil => simp
    | cons y xs ih =>
        obtain ⟨name, ty⟩ := y
        simp only [List.foldl_cons, ih, Std.ExtTreeMap.getElem?_insertIfNew, Std.compare_eq_iff_eq,
          List.lookup_cons]
        by_cases same : name = x
        · subst same
          by_cases known : name ∈ types <;> simp [known]
        · simp [same, beq_eq_false_iff_ne.2 (Ne.symm same)]
  simp [firstTypes, gather]

/-- A variable with a type stands in an operand of the body. -/
theorem exists_of_mem_firstTypes {body : List Instr} {x : String} (mem : x ∈ firstTypes body) :
  ∃ i ∈ body, ∃ e ∈ i.target?.toList ++ i.reads, x ∈ e.names
  := by
  rw [Std.ExtTreeMap.mem_iff_isSome_getElem?, getElem?_firstTypes, Option.isSome_iff_exists] at mem
  obtain ⟨ty, found⟩ := mem
  obtain ⟨_, _, whole, -⟩ := List.lookup_eq_some_iff.1 found
  have typed : (x, ty) ∈ body.flatMap Instr.typedNames := by simp [whole]
  obtain ⟨i, listed, named⟩ := List.mem_flatMap.1 typed
  use i, listed
  obtain written | read := List.mem_append.1 named
  · split at written
    · next name ty' target =>
        obtain ⟨rfl, rfl⟩ := Prod.mk.inj (List.mem_singleton.1 written)
        use .var x ty
        constructor
        · simp [target]
        · simp [Operand.names, Operand.typedNames]
    · simp at written
  · obtain ⟨e, mem, named⟩ := List.mem_flatMap.1 read
    use e, List.mem_append_right _ mem, List.mem_map_of_mem named

/-! ### Allocated tables -/

namespace Method

variable {m : Method} {k : Nat} {x : String}

/-- No variable is lost. -/
theorem mem_allocated_of_mem (mem : x ∈ m.vars) :
  x ∈ (m.allocated k).vars
  := by
  rw [Std.ExtTreeMap.mem_iff_isSome_getElem?, Option.isSome_iff_exists] at mem ⊢
  obtain ⟨v, entry⟩ := mem
  by_cases body : m.body = []
  · have same : m.allocated k = m := by simp [allocated, allocate, body]
    rw [same]
    use v, entry
  · rw [getElem?_allocated body (vars_isEmpty_eq_false entry), entry]
    cases (m.coloring k).slots[x]? with
    | none => use v
    | some slot => exact ⟨_, rfl⟩

/-- A variable that is entered stands in the body and is written or live after some instruction. -/
theorem of_mem_allocated (missing : x ∉ m.vars) (mem : x ∈ (m.allocated k).vars) :
  m.vars.isEmpty = false ∧ x ∈ firstTypes m.body ∧ ∃ alive ∈ m.liveness.occupiedSets, x ∈ alive
  := by
  have changed : m.allocated k ≠ m := by
    intro same
    rw [same] at mem
    apply missing mem
  have body : m.body ≠ [] := by
    intro none
    apply changed
    simp [allocated, allocate, none]
  have vars : m.vars.isEmpty = false := by
    cases empty : m.vars.isEmpty with
    | false => rfl
    | true => apply (changed (by simp [allocated, allocate, empty])).elim
  have absent : m.vars[x]? = none := Std.ExtTreeMap.getElem?_eq_none missing
  rw [Std.ExtTreeMap.mem_iff_isSome_getElem?, getElem?_allocated body vars, absent] at mem
  cases given : (m.coloring k).slots[x]? with
  | none => simp [given] at mem
  | some slot =>
      have typed : x ∈ firstTypes m.body := by
        have types : m.liveness.types = firstTypes m.body := rfl
        simpa [given, VarTable.reslot, types] using mem
      have placed : x ∈ (m.coloring k).slots := by
        rw [Std.ExtTreeMap.mem_iff_isSome_getElem?, given]
        rfl
      obtain ⟨-, known | alive⟩ := contains_interference.1 (mem_coloring_slots.1 placed).1
      · apply (missing known).elim
      · use vars, typed

/-- The method is static and has no receiver, but the name of one, which is written or live after some
instruction; among other variables it is entered by allocation. -/
structure EntersReceiver (m : Method) : Prop where
  isStatic : m.isStatic = true
  missing : "this" ∉ m.vars
  others : m.vars.isEmpty = false
  occupied : ∃ alive ∈ m.liveness.occupiedSets, "this" ∈ alive

end Method

/-! ### Outcomes -/

variable {text : String} {u : ClassUnit}

/-- Allocation enters nothing but the receiver of a static method that a text declares. -/
theorem entersReceiver_of_parse (read : parse text = .ok u) {m : Method} (mem : m ∈ u.methods) {k : Nat}
    {x : String} (missing : x ∉ m.vars) (entered : x ∈ (m.allocated k).vars) :
  x = "this" ∧ m.EntersReceiver
  := by
  obtain ⟨others, typed, occupied⟩ := Method.of_mem_allocated missing entered
  have receiver : x = "this" := by
    apply Decidable.byContradiction
    intro other
    apply missing
    rw [vars_of_parse read mem]
    apply Registry.mem_foldl_enterInstr (.inr (exists_of_mem_firstTypes typed)) other
  subst receiver
  refine ⟨rfl, ?_, missing, others, occupied⟩
  cases isStatic : m.isStatic with
  | true => rfl
  | false =>
      obtain ⟨v, entry, -⟩ := ((declared_of_parse read).2 m mem).pinned "this" (.inr ⟨isStatic, rfl⟩)
      apply (missing (by simp [Std.ExtTreeMap.mem_iff_isSome_getElem?, entry])).elim

/-- A method of a text has code after allocation if it has code before, unless allocation enters its
receiver. -/
theorem methodCode_allocated_sameOutcome (read : parse text = .ok u) {m : Method} (mem : m ∈ u.methods) (k : Nat)
    (methods : List Method) :
  SameOutcome (u.methodCode m) ({ u with methods }.methodCode (m.allocated k))
    ∨ m.EntersReceiver ∧ ∃ instr, u.methodCode m = .error (.lowering (.missingVariable "this" m.name instr))
  := by
  have jumps : m.JumpsInside := ((declared_of_parse read).2 m mem).labelled.jumps
  rw [m.allocated_with_vars k]
  obtain same | ⟨e, failed, x, instr, missing, entered, rfl⟩ :=
    u.methodCode_sameOutcome jumps methods fun x => m.mem_allocated_of_mem (k := k)
  · left
    apply same
  · obtain ⟨rfl, enters⟩ := entersReceiver_of_parse read mem missing entered
    right
    use enters, instr, failed

/-- Steps with the same outcome in a row. -/
theorem SameOutcome.bind {α β γ δ : Type} {x : Except CodeFault α} {y : Except CodeFault β} {f : α → Except CodeFault γ}
    {g : β → Except CodeFault δ} (first : SameOutcome x y) (rest : ∀ a b, SameOutcome (f a) (g b)) :
  SameOutcome (x >>= f) (y >>= g)
  := by
  cases first with
  | code a b => apply rest a b
  | lowering e => apply SameOutcome.lowering e
  | overflow i j => apply SameOutcome.overflow i j

/-- In a row of methods the first one without code decides. -/
theorem mapM_sameOutcome {α β : Type} {f : Method → Except CodeFault α} {g : Method → Except CodeFault β}
    {change : Method → Method} {P : Method → CodeFault → Prop} {ms : List Method}
    (each : ∀ m ∈ ms, SameOutcome (f m) (g (change m)) ∨ ∃ e, f m = .error e ∧ P m e) :
  SameOutcome (ms.mapM f) ((ms.map change).mapM g) ∨ ∃ m ∈ ms, ∃ e, ms.mapM f = .error e ∧ P m e
  := by
  induction ms with
  | nil =>
      left
      apply SameOutcome.code [] []
  | cons m ms ih =>
      rw [List.forall_mem_cons] at each
      rw [List.map_cons, List.mapM_cons, List.mapM_cons]
      obtain same | ⟨e, failed, holds⟩ := each.1
      · generalize f m = x, g (change m) = y at same
        cases same with
        | code a b =>
            obtain same | ⟨m', mem, e, failed, holds⟩ := ih each.2
            · left
              apply same.bind
              intro as bs
              apply SameOutcome.code (a :: as) (b :: bs)
            · right
              refine ⟨m', List.mem_cons_of_mem m mem, e, ?_, holds⟩
              rw [failed]
              rfl
        | lowering e =>
            left
            apply SameOutcome.lowering e
        | overflow i j =>
            left
            apply SameOutcome.overflow i j
      · right
        refine ⟨m, List.mem_cons_self, e, ?_, holds⟩
        rw [failed]
        rfl

/-- A budget that is not negative allocates each method. -/
theorem ClassUnit.allocate_eq (u : ClassUnit) {k : Int} (budget : 0 ≤ k) :
  u.allocate k = { u with methods := u.methods.map (·.allocated k.toNat) }
  := by
  simp [allocate, allocation, ClassAllocation.result, Int.not_lt.2 budget, Function.comp_def, Method.allocated]

/-- Allocation makes no difference to whether the class that a text declares has code, or to why it has
none, but where it enters the receiver of a static method at which lowering stops without it. -/
theorem code_allocate_sameOutcome (read : parse text = .ok u) {k : Int} (budget : 0 ≤ k) :
  SameOutcome u.code (u.allocate k).code
    ∨ ∃ m ∈ u.codedMethods, m.EntersReceiver
      ∧ ∃ instr, u.code = .error (.lowering (.missingVariable "this" m.name instr))
  := by
  have coded : (u.allocate k).codedMethods = u.codedMethods.map (·.allocated k.toNat) := by
    have kept (m : Method) : (m.allocated k.toNat).isConstructor = m.isConstructor := by
      rw [m.allocated_with_vars k.toNat]
    simp [u.allocate_eq budget, ClassUnit.codedMethods, List.filter_map, Function.comp_def, kept]
  have each : ∀ m ∈ u.codedMethods, SameOutcome (u.methodCode m) ((u.allocate k).methodCode (m.allocated k.toNat))
      ∨ ∃ e, u.methodCode m = .error e ∧ m.EntersReceiver
        ∧ ∃ instr, e = .lowering (.missingVariable "this" m.name instr) := by
    intro m mem
    rw [u.allocate_eq budget]
    obtain same | ⟨enters, instr, failed⟩ :=
      methodCode_allocated_sameOutcome read (List.mem_of_mem_filter mem) k.toNat _
    · left
      apply same
    · exact .inr ⟨_, failed, enters, instr, rfl⟩
  obtain same | ⟨m, mem, e, failed, enters, instr, rfl⟩ := mapM_sameOutcome each
  · left
    rw [← coded] at same
    apply same.bind
    intro _ _
    apply SameOutcome.code
  · right
    use m, mem, enters, instr
    rw [ClassUnit.code, failed]
    rfl

/-- A class with a static method that calls a method on the receiver it does not have. -/
def staticReceiverText : String :=
  "A\x7b.method static f(x.i32).V\x7bx.i32:=.V 1.i32;invokevirtual(this,\"g\").V;\x7d\x7d"

/-- A static method that uses `this` has no code before allocation and has code after it. -/
theorem staticReceiver_outcomes :
  ∃ u, parse staticReceiverText = .ok u ∧ u.code.toOption = none ∧ (u.allocate 0).code.toOption.isSome = true
  := by
  have checked : ((parse staticReceiverText).toOption.any fun u =>
      u.code.toOption.isNone && (u.allocate 0).code.toOption.isSome) = true := by
    decide +kernel
  rw [Option.any_eq_true] at checked
  obtain ⟨u, parsed, checked⟩ := checked
  rw [Bool.and_eq_true, Option.isNone_iff_eq_none] at checked
  use u, eq_ok_of_toOption parsed

/-- Within a budget of no slots the class has code, and without allocation it has none. -/
theorem staticReceiver_code_of_allocate :
  ∃ u, parse staticReceiverText = .ok u ∧ ¬ ((∃ code, (u.allocate 0).code = .ok code) ↔ ∃ code, u.code = .ok code)
  := by
  obtain ⟨u, parsed, without, within⟩ := staticReceiver_outcomes
  use u, parsed
  obtain ⟨code, made⟩ := Option.isSome_iff_exists.1 within
  intro same
  obtain ⟨code', made'⟩ := same.1 ⟨code, eq_ok_of_toOption made⟩
  simp [made', Except.toOption] at without

/-- The class has its exception in the method that enters its receiver. -/
theorem staticReceiver_allocate_sameOutcome :
  ∃ u, parse staticReceiverText = .ok u ∧ (0 : Int) ≤ 2
    ∧ (SameOutcome u.code (u.allocate 2).code
      ∨ ∃ m ∈ u.codedMethods, m.EntersReceiver
        ∧ ∃ instr, u.code = .error (.lowering (.missingVariable "this" m.name instr)))
  := by
  obtain ⟨u, parsed, -⟩ := staticReceiver_outcomes
  use u, parsed
  constructor
  · decide
  · apply code_allocate_sameOutcome parsed (by decide)

end StackBackend
