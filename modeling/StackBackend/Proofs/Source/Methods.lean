import Mathlib.Data.List.Forall2
import StackBackend.Proofs.Lowering.Preservation
import StackBackend.Proofs.Source.Names

/-!
# Methods that are read

What holds of every method of a class that a text declares. Its labels are well placed, the names in its
calls are proper, and in its variable table all variables have slots of their own: the receiver and the
parameters those that they come in, and the temporaries later ones.
-/

namespace StackBackend

/-! ### Tables in the making -/

namespace Registry

variable {P : String → Variable → Prop} {Q : Variable → Prop} {r : Registry} {x : String} {v : Variable}

/-- Different variables have different slots, all of them below the next free one, and each entry is a
temporary or as `P` says. -/
structure Fits (P : String → Variable → Prop) (r : Registry) : Prop where
  apart : ∀ (x y : String) (v w : Variable), r.table[x]? = some v → r.table[y]? = some w →
    v.slot = w.slot → x = y
  below : ∀ (x : String) (v : Variable), r.table[x]? = some v → v.slot < r.next
  known : ∀ (x : String) (v : Variable), r.table[x]? = some v → v.scope = .temporary ∨ P x v

/-- An entry at the next slot fits, in place of an earlier one of that name. -/
theorem Fits.insert (fits : r.Fits P) {scope : Scope} {ty : Ty}
    (known : scope = .temporary ∨ P x ⟨scope, r.next, ty⟩) :
  Fits P ⟨r.table.insert x ⟨scope, r.next, ty⟩, r.next + 1⟩
  := by
  have entries (y : String) (w : Variable)
      (entry : (r.table.insert x ⟨scope, r.next, ty⟩)[y]? = some w) :
      x = y ∧ w = ⟨scope, r.next, ty⟩ ∨ r.table[y]? = some w := by
    rw [Std.ExtTreeMap.getElem?_insert] at entry
    split at entry
    · next same =>
        left
        use Std.compare_eq_iff_eq.1 same, (Option.some.inj entry).symm
    · right
      apply entry
  constructor
  · intro y z w w' at_y at_z same
    obtain ⟨rfl, rfl⟩ | at_y := entries y w at_y
    · obtain ⟨rfl, -⟩ | at_z := entries z w' at_z
      · rfl
      · apply absurd same (Nat.ne_of_gt (fits.below z w' at_z))
    · obtain ⟨rfl, rfl⟩ | at_z := entries z w' at_z
      · apply absurd same (Nat.ne_of_lt (fits.below y w at_y))
      · apply fits.apart y z w w' at_y at_z same
  · intro y w at_y
    obtain ⟨rfl, rfl⟩ | at_y := entries y w at_y
    · apply Nat.lt_succ_self r.next
    · apply Nat.lt_succ_of_lt (fits.below y w at_y)
  · intro y w at_y
    obtain ⟨rfl, rfl⟩ | at_y := entries y w at_y
    · apply known
    · apply fits.known y w at_y

/-- The variable has an entry with the property. -/
def Enters (Q : Variable → Prop) (r : Registry) (x : String) : Prop :=
  ∃ v, r.table[x]? = some v ∧ Q v

/-! ### Temporaries -/

/-- A temporary gets the next slot, unless its name is known. -/
theorem enter_fits (fits : r.Fits P) (name : String) (ty : Ty) :
  (r.enter name ty).Fits P
  := by
  unfold enter
  split
  · apply fits
  · apply fits.insert (.inl rfl)

/-- What is known of a name stays known. -/
theorem enter_enters (entered : r.Enters Q x) (name : String) (ty : Ty) :
  (r.enter name ty).Enters Q x
  := by
  obtain ⟨v, entry, holds⟩ := entered
  unfold enter
  split
  · use v, entry, holds
  · next new =>
      have other : name ≠ x := by
        rintro rfl
        apply new
        right
        rw [Std.ExtTreeMap.mem_iff_isSome_getElem?, entry]
        rfl
      refine ⟨v, ?_, holds⟩
      rw [Std.ExtTreeMap.getElem?_insert, if_neg, entry]
      rwa [Std.compare_eq_iff_eq]

/-- What each entry of a temporary keeps is kept by all entries of a body. -/
theorem foldl_enterInstr_induction {motive : Registry → Prop}
    (step : ∀ r name ty, motive r → motive (r.enter name ty)) (start : motive r)
    (body : List Instr) :
  motive (body.foldl enterInstr r)
  := by
  have operand (r : Registry) (e : Operand) (held : motive r) : motive (r.enterOperand e) := by
    induction e with
    | literal value ty => apply held
    | var name ty => apply step r name ty held
    | item name index ty ih => apply step _ name (.array ty) ih
  have operands (r : Registry) (es : List Operand) (held : motive r) :
      motive (es.foldl enterOperand r) := by
    induction es generalizing r with
    | nil => apply held
    | cons e es ih => apply ih _ (operand r e held)
  induction body generalizing r with
  | nil => apply start
  | cons i body ih => apply ih (operands r _ start)

/-! ### Parameters -/

/-- Parameters get the slots after one another; by induction on the list, with the slot of the first one
moving. -/
theorem foldl_enterParam_fits {params : List Param} (fits : r.Fits P)
    (known : ∀ (j : Nat) (p : Param), params[j]? = some p →
      P p.name ⟨.parameter, r.next + j, p.ty⟩) :
  (params.foldl enterParam r).Fits P
  := by
  induction params generalizing r with
  | nil => apply fits
  | cons p params ih =>
      apply ih
      · apply fits.insert (.inr (known 0 p rfl))
      · intro j q at_j
        have later := known (j + 1) q at_j
        rwa [Nat.add_left_comm, Nat.add_comm] at later

/-- After the parameters are entered each of them has an entry, and so has what had one before. -/
theorem foldl_enterParam_enters {params : List Param}
    (holds : ∀ slot ty, Q ⟨.parameter, slot, ty⟩)
    (entered : r.Enters Q x ∨ ∃ p ∈ params, p.name = x) :
  (params.foldl enterParam r).Enters Q x
  := by
  induction params generalizing r with
  | nil => simpa using entered
  | cons p params ih =>
      apply ih
      by_cases same : p.name = x
      · left
        refine ⟨⟨.parameter, r.next, p.ty⟩, ?_, holds _ _⟩
        simp [enterParam, same]
      · obtain ⟨v, entry, given⟩ | ⟨q, mem, named⟩ := entered
        · left
          refine ⟨v, ?_, given⟩
          simp only [enterParam]
          rw [Std.ExtTreeMap.getElem?_insert, if_neg, entry]
          rwa [Std.compare_eq_iff_eq]
        · obtain rfl | mem := List.mem_cons.1 mem
          · apply (same named).elim
          · right
            use q, mem, named

/-! ### Entered names -/

/-- A name that has been entered stays. -/
theorem mem_enter_of_mem (mem : x ∈ r.table) (name : String) (ty : Ty) :
  x ∈ (r.enter name ty).table
  := by
  unfold enter
  split
  · apply mem
  · apply Std.ExtTreeMap.mem_insert.2 (.inr mem)

/-- A name is in the table once it has been entered. -/
theorem mem_enter (other : x ≠ "this") (ty : Ty) :
  x ∈ (r.enter x ty).table
  := by
  unfold enter
  split
  · next known => apply known.resolve_left other
  · apply Std.ExtTreeMap.mem_insert_self

theorem mem_enterOperand_of_mem (mem : x ∈ r.table) (e : Operand) :
  x ∈ (r.enterOperand e).table
  := by
  induction e with
  | literal => apply mem
  | var name ty => apply mem_enter_of_mem mem name ty
  | item name index ty ih => apply mem_enter_of_mem ih name (.array ty)

/-- The names of an operand are in the table once it has been entered. -/
theorem mem_enterOperand {e : Operand} (named : x ∈ e.names) (other : x ≠ "this") :
  x ∈ (r.enterOperand e).table
  := by
  induction e with
  | literal => simp [Operand.names, Operand.typedNames] at named
  | var name ty =>
      obtain rfl : x = name := by simpa [Operand.names, Operand.typedNames] using named
      apply mem_enter other ty
  | item name index ty ih =>
      obtain rfl | inner : x = name ∨ x ∈ index.names := by
        simpa [Operand.names, Operand.typedNames] using named
      · apply mem_enter other (.array ty)
      · apply mem_enter_of_mem (ih inner) name (.array ty)

/-- The names of a list of operands. -/
theorem mem_foldl_enterOperand {es : List Operand} (named : x ∈ r.table ∨ ∃ e ∈ es, x ∈ e.names)
    (other : x ≠ "this") :
  x ∈ (es.foldl enterOperand r).table
  := by
  induction es generalizing r with
  | nil => simpa using named
  | cons e es ih =>
      apply ih
      obtain mem | ⟨e', mem, named⟩ := named
      · left
        apply mem_enterOperand_of_mem mem e
      · obtain rfl | mem := List.mem_cons.1 mem
        · left
          apply mem_enterOperand named other
        · right
          use e', mem, named

/-- The names of a body: those that its instructions assign to or read. -/
theorem mem_foldl_enterInstr {body : List Instr}
    (named : x ∈ r.table ∨ ∃ i ∈ body, ∃ e ∈ i.target?.toList ++ i.reads, x ∈ e.names) (other : x ≠ "this") :
  x ∈ (body.foldl enterInstr r).table
  := by
  induction body generalizing r with
  | nil => simpa using named
  | cons i body ih =>
      apply ih
      obtain mem | ⟨i', mem, named⟩ := named
      · left
        apply mem_foldl_enterOperand (.inl mem) other
      · obtain rfl | mem := List.mem_cons.1 mem
        · left
          apply mem_foldl_enterOperand (.inr named) other
        · right
          use i', mem

/-- The name of the receiver is never entered as a temporary. -/
theorem receiver_mem_foldl_enterInstr (body : List Instr) :
  "this" ∈ (body.foldl enterInstr r).table ↔ "this" ∈ r.table
  := by
  apply foldl_enterInstr_induction (motive := fun r' => "this" ∈ r'.table ↔ "this" ∈ r.table)
  · intro r' name ty same
    rw [← same, enter]
    split
    · rfl
    · next new =>
        have other : name ≠ "this" := fun receiver => new (.inl receiver)
        simp [Std.ExtTreeMap.mem_insert, other]
  · rfl

/-- The names of parameters, and those that were there before. -/
theorem mem_foldl_enterParam {params : List Param} :
  x ∈ (params.foldl enterParam r).table ↔ x ∈ r.table ∨ ∃ p ∈ params, p.name = x
  := by
  induction params generalizing r with
  | nil => simp
  | cons p params ih =>
      rw [List.foldl_cons, ih]
      simp only [enterParam, Std.ExtTreeMap.mem_insert, Std.compare_eq_iff_eq, List.mem_cons, exists_eq_or_imp]
      rw [or_assoc, or_left_comm]

end Registry

/-! ### Variable tables -/

/-- What comes into a method under a name: a parameter in its slot, or the receiver in the first one
where no parameter has its name. -/
def Incoming (isStatic : Bool) (params : List Param) (x : String) (v : Variable) : Prop :=
  (isStatic = false ∧ x = "this" ∧ v.slot = 0 ∧ v.ty.isIntLike = false
      ∧ ∀ p ∈ params, p.name ≠ "this")
    ∨ ∃ j p, params[j]? = some p ∧ p.name = x ∧ v.ty = p.ty
      ∧ v.slot = j + if isStatic then 0 else 1

section Table

variable {isStatic : Bool} {owner : String} {params : List Param} {body : List Instr} {x y : String}
  {v w : Variable}

/-- The receiver or a parameter, as it is entered. -/
def EnteredAs (isStatic : Bool) (params : List Param) (x : String) (v : Variable) : Prop :=
  (isStatic = false ∧ x = "this" ∧ v.scope = .receiver ∧ v.slot = 0 ∧ v.ty.isIntLike = false)
    ∨ v.scope = .parameter ∧ ∃ j p, params[j]? = some p ∧ p.name = x ∧ v.ty = p.ty
      ∧ v.slot = j + if isStatic then 0 else 1

/-- At the entry of a method only the receiver has a slot. -/
theorem entry_fits (isStatic : Bool) (owner : String) (params : List Param) :
  (Registry.entry isStatic owner).Fits (EnteredAs isStatic params)
  := by
  have none : Registry.Fits (EnteredAs isStatic params) ⟨∅, 0⟩ := by
    constructor <;> simp
  cases isStatic with
  | true => apply none
  | false => apply none.insert (.inr (.inl ⟨rfl, rfl, rfl, rfl, rfl⟩))

/-- The table of a method numbers its variables from the receiver on. -/
theorem variableTable_fits (isStatic : Bool) (owner : String) (params : List Param)
    (body : List Instr) :
  ∃ next, Registry.Fits (EnteredAs isStatic params)
    ⟨variableTable isStatic owner params body, next⟩
  := by
  refine ⟨_, Registry.foldl_enterInstr_induction (motive := Registry.Fits (EnteredAs isStatic params))
    (fun r name ty fits => Registry.enter_fits fits name ty) ?_ body⟩
  apply Registry.foldl_enterParam_fits (entry_fits isStatic owner params)
  intro j p at_j
  right
  use rfl, j, p, at_j, rfl, rfl
  cases isStatic <;> simp [Registry.entry, Nat.add_comm]

/-- The receiver and the parameters keep what they were entered with. -/
theorem variableTable_enters (isStatic : Bool) (owner : String) (body : List Instr)
    {Q : Variable → Prop} (holds : ∀ slot ty, Q ⟨.parameter, slot, ty⟩)
    (entered : (Registry.entry isStatic owner).Enters Q x ∨ ∃ p ∈ params, p.name = x) :
  ∃ v, (variableTable isStatic owner params body)[x]? = some v ∧ Q v
  := by
  apply Registry.foldl_enterInstr_induction (motive := fun r => r.Enters Q x)
  · intro r name ty entered
    apply Registry.enter_enters entered name ty
  · apply Registry.foldl_enterParam_enters holds entered

/-- The receiver is in the table of a method that is not static or has a parameter of that name. -/
theorem receiver_mem_variableTable :
  "this" ∈ variableTable isStatic owner params body ↔ isStatic = false ∨ ∃ p ∈ params, p.name = "this"
  := by
  rw [variableTable, Registry.receiver_mem_foldl_enterInstr, Registry.mem_foldl_enterParam]
  cases isStatic <;> simp [Registry.entry]

/-- A variable of the body is in the table, unless it is a receiver that does not come in. -/
theorem mem_variableTable {i : Instr} (listed : i ∈ body) {e : Operand} (operand : e ∈ i.target?.toList ++ i.reads)
    (named : x ∈ e.names) :
  x ∈ variableTable isStatic owner params body
    ↔ (x = "this" → isStatic = false ∨ ∃ p ∈ params, p.name = "this")
  := by
  by_cases receiver : x = "this"
  · subst receiver
    rw [receiver_mem_variableTable]
    simp
  · have entered : x ∈ variableTable isStatic owner params body :=
      Registry.mem_foldl_enterInstr (.inr ⟨i, listed, e, operand, named⟩) receiver
    simp [entered, receiver]

/-- The pinned entries are what comes into the method; a parameter of the name of the receiver replaces it. -/
theorem incoming_of_isPinned (entry : (variableTable isStatic owner params body)[x]? = some v)
    (pinned : v.isPinned = true) :
  Incoming isStatic params x v
  := by
  obtain ⟨next, fits⟩ := variableTable_fits isStatic owner params body
  obtain temporary | ⟨instance', rfl, receiver, first, reference⟩ | ⟨-, given⟩ :=
    fits.known x v entry
  · simp [Variable.isPinned, temporary] at pinned
  · left
    use instance', rfl, first, reference
    intro p mem named
    obtain ⟨w, entry', parameter⟩ :=
      variableTable_enters isStatic owner body (Q := fun w => w.scope = .parameter) (fun _ _ => rfl)
        (.inr ⟨p, mem, named⟩)
    obtain rfl := Option.some.inj (entry.symm.trans entry')
    simp [receiver] at parameter
  · right
    apply given

/-- The receiver and the parameters are pinned. -/
theorem isPinned_of_incoming
    (comes : (∃ p ∈ params, p.name = x) ∨ isStatic = false ∧ x = "this") :
  ∃ v, (variableTable isStatic owner params body)[x]? = some v ∧ v.isPinned = true
  := by
  apply variableTable_enters _ _ _ (fun _ _ => rfl)
  obtain parameter | ⟨rfl, rfl⟩ := comes
  · right
    apply parameter
  · left
    refine ⟨⟨.receiver, 0, .object owner⟩, ?_, rfl⟩
    simp [Registry.entry]

end Table

/-! ### Labels -/

section Labels

variable {items : List (Located BodyItem)} {seen : List String} {index : Nat}

/-- Where no label is repeated the labels differ from each other and from those before. -/
theorem labels_nodup_of_itemFault? (sound : itemFault? seen items = none) :
  ((placedLabels index items).map Prod.fst).Nodup
    ∧ ∀ label ∈ (placedLabels index items).map Prod.fst, label ∉ seen
  := by
  fun_induction itemFault? seen items generalizing index with
  | case1 => simp [placedLabels]
  | case2 | case4 => simp at sound
  | case3 seen name span items new ih =>
      obtain ⟨nodup, apart⟩ := @ih index sound
      simp only [placedLabels, List.map_cons, List.nodup_cons, List.forall_mem_cons]
      refine ⟨⟨fun mem => apart name mem (List.mem_cons_self ..), nodup⟩, new, ?_⟩
      intro label mem before
      apply apart label mem (List.mem_cons_of_mem name before)
  | case5 seen i span items _ ih => apply @ih (index + 1) sound

/-- Labels stand at or before the end of the instructions. -/
theorem le_length_of_mem_placedLabels {label : String × Nat} (mem : label ∈ placedLabels index items) :
  label.2 ≤ index + (itemInstrs items).length
  := by
  fun_induction placedLabels index items with
  | case1 => simp at mem
  | case2 index name span items ih =>
      simp only [itemInstrs, List.filterMap_cons]
      obtain rfl | mem := List.mem_cons.1 mem
      · apply Nat.le_add_right
      · apply ih mem
  | case3 index i span items ih =>
      have le := ih mem
      simp only [itemInstrs, List.filterMap_cons, List.length_cons] at le ⊢
      omega

/-- The instructions of a body are its items that are no labels. -/
theorem mem_itemInstrs {i : Instr} :
  i ∈ itemInstrs items ↔ ∃ item ∈ items, item.value = .instr i
  := by
  simp only [itemInstrs, List.mem_filterMap]
  apply exists_congr
  intro item
  cases item.value with
  | label x => simp
  | instr i' => simp

/-- A body without faults of jumps jumps to its labels. -/
theorem mem_of_jumpFault? {method : String} {labels : List String}
    (sound : jumpFault? method labels items = none) {i : Instr} (mem : i ∈ itemInstrs items)
    {label : String} (jumps : i.jumpLabel? = some label) :
  label ∈ labels
  := by
  obtain ⟨item, listed, value⟩ := mem_itemInstrs.1 mem
  have none := List.findSome?_eq_none_iff.1 sound item listed
  simpa [value, jumps] using none

end Labels

/-- Jumps do not depend on operands. -/
theorem Instr.jumpLabel?_map (f : Operand → Operand) (i : Instr) :
  (i.map f).jumpLabel? = i.jumpLabel?
  := by
  cases i <;> rfl

/-! ### Declared methods -/

/-- Typing the receiver puts the name of the class into types, which is proper. -/
theorem Instr.map_typeReceiver_isProper {owner : String} (named : IsName owner) {i : Instr}
    (proper : i.IsProper) :
  (i.map (typeReceiver owner)).IsProper
  := by
  have typed (e : Operand) (proper : e.ty.IsProper) : (typeReceiver owner e).ty.IsProper := by
    unfold typeReceiver
    split
    · split
      · apply named
      · apply proper
    · apply proper
  induction i with
  | call kind receiver method args result =>
      constructor
      · intro e mem
        obtain ⟨e', mem', rfl⟩ := List.mem_map.1 mem
        apply typed e' (proper.1 e' mem')
      · apply proper.2
  | assign dest ty rhs ih => apply ih proper
  | new ty args => apply proper
  | single | binary | unary | ret | getField | putField | goto | branch | arrayLength => trivial

/-- What is left of a method that is accepted. -/
theorem MethodDecl.eq_of_check {owner : String} {d : MethodDecl} {m : Method} (checked : d.check owner = .ok m) :
  itemFault? [] d.body = none ∧ m = {
    name := d.name, access := d.access, isStatic := d.isStatic, isConstructor := d.isConstructor
    params := d.params, ret := d.ret
    body := (itemInstrs d.body).map (Instr.map (typeReceiver owner))
    labels := placedLabels 0 d.body
    vars := variableTable d.isStatic owner d.params ((itemInstrs d.body).map (Instr.map (typeReceiver owner))) }
  := by
  simp only [check] at checked
  split at checked
  · cases checked
  · next sound =>
      simp only [Option.orElse_eq_orElse, Option.orElse_eq_or, Option.or_eq_none_iff] at sound
      use sound.1, (Except.ok.inj checked).symm

/-- What holds of a method that is declared in a text. -/
structure Method.Declared (m : Method) : Prop where
  labelled : m.WellLabelled
  apart : ∀ (x y : String) (v w : Variable), m.vars[x]? = some v → m.vars[y]? = some w →
    v.slot = w.slot → x = y
  unfielded : ∀ (x : String) (v : Variable), m.vars[x]? = some v → v.scope ≠ .field
  incoming : ∀ (x : String) (v : Variable), m.vars[x]? = some v → v.isPinned = true →
    Incoming m.isStatic m.params x v
  pinned : ∀ x, (∃ p ∈ m.params, p.name = x) ∨ m.isStatic = false ∧ x = "this" →
    ∃ v, m.vars[x]? = some v ∧ v.isPinned = true
  proper : ∀ i ∈ m.body, i.IsProper

/-- The instructions in the body of a method that is read. -/
theorem MethodDecl.IsWritten.isWritten_of_mem {d : MethodDecl} (written : d.IsWritten) {i : Instr}
    (mem : i ∈ itemInstrs d.body) :
  i.IsWritten
  := by
  obtain ⟨item, listed, value⟩ := mem_itemInstrs.1 mem
  have holds := written.body item listed
  rwa [value] at holds

/-- A method that is accepted is declared. -/
theorem MethodDecl.declared_of_check {owner : String} {d : MethodDecl} {m : Method}
    (named : IsName owner) (written : d.IsWritten) (checked : d.check owner = .ok m) :
  m.Declared
  := by
  simp only [check] at checked
  split at checked
  · simp at checked
  · next sound =>
      cases checked
      obtain ⟨items, jumps⟩ : itemFault? [] d.body = none
          ∧ jumpFault? d.name ((placedLabels 0 d.body).map Prod.fst) d.body = none := by
        simpa using sound
      obtain ⟨next, fits⟩ := variableTable_fits d.isStatic owner d.params
        ((itemInstrs d.body).map (Instr.map (typeReceiver owner)))
      refine ⟨⟨?_, ?_, ?_⟩, fits.apart, ?_, ?_, ?_, ?_⟩
      · apply (labels_nodup_of_itemFault? items).1
      · intro label mem
        simpa using le_length_of_mem_placedLabels mem
      · intro i mem label jump
        obtain ⟨i', mem', rfl⟩ := List.mem_map.1 mem
        rw [Instr.jumpLabel?_map] at jump
        apply mem_of_jumpFault? jumps mem' jump
      · intro x v entry field
        obtain temporary | ⟨-, -, receiver, -⟩ | ⟨parameter, -⟩ := fits.known x v entry
        · simp [field] at temporary
        · simp [field] at receiver
        · simp [field] at parameter
      · intro x v entry pinned
        apply incoming_of_isPinned entry pinned
      · intro x comes
        apply isPinned_of_incoming comes
      · intro i mem
        obtain ⟨i', mem', rfl⟩ := List.mem_map.1 mem
        apply Instr.map_typeReceiver_isProper named
        apply (written.isWritten_of_mem mem').isProper

theorem exists_of_forall₂ {α β : Type} {R : α → β → Prop} {as : List α} {bs : List β}
    (each : List.Forall₂ R as bs) {b : β} (mem : b ∈ bs) :
  ∃ a ∈ as, R a b
  := by
  obtain ⟨k, lt, rfl⟩ := List.mem_iff_getElem.1 mem
  have lt' : k < as.length := each.length_eq ▸ lt
  use as[k], List.getElem_mem lt', each.get lt' lt

theorem mapM_eq_ok_iff {ε α β : Type} {f : α → Except ε β} {as : List α} {bs : List β} :
  as.mapM f = .ok bs ↔ List.Forall₂ (fun a b => f a = .ok b) as bs
  := by
  constructor
  · intro made
    induction as generalizing bs with
    | nil =>
        cases made
        exact .nil
    | cons a as ih =>
        rw [List.mapM_cons] at made
        obtain ⟨b, first, rest⟩ := eq_ok_of_bind made
        obtain ⟨bs', later, same⟩ := eq_ok_of_bind rest
        cases same
        exact .cons first (ih later)
  · intro each
    induction each with
    | nil => rfl
    | cons first _ ih =>
        rw [List.mapM_cons, first, ih]
        rfl

/-- Each result of a list of checks is the result of one of them. -/
theorem exists_of_mem_mapM {ε α β : Type} {f : α → Except ε β} {as : List α} {bs : List β}
    (made : as.mapM f = .ok bs) {b : β} (mem : b ∈ bs) :
  ∃ a ∈ as, f a = .ok b
  := exists_of_forall₂ (mapM_eq_ok_iff.1 made) mem

/-- A method of a class that is read is declared by what is read. -/
theorem exists_isWritten_of_parse {text : String} {u : ClassUnit} (read : parse text = .ok u) {m : Method}
    (mem : m ∈ u.methods) :
  ∃ d : MethodDecl, d.IsWritten ∧ d.check u.name = .ok m
  := by
  obtain ⟨d, readUnit, checked⟩ := eq_ok_of_bind read
  have written := UnitDecl.isWritten_of_readUnit readUnit
  obtain ⟨methods, each, made⟩ := eq_ok_of_bind checked
  cases made
  obtain ⟨decl, listed, accepted⟩ := exists_of_mem_mapM each mem
  obtain ⟨member, mem', same⟩ := List.mem_filterMap.1 listed
  have holds := written.members member mem'
  cases member with
  | field f => simp at same
  | method d' =>
      obtain rfl : d' = decl := by simpa using same
      use d', holds, accepted

/-- The imports of a class that a text declares are proper names, and its methods are declared. -/
theorem declared_of_parse {text : String} {u : ClassUnit} (read : parse text = .ok u) :
  (∀ path ∈ u.imports, IsPath path) ∧ ∀ m ∈ u.methods, m.Declared
  := by
  obtain ⟨d, readUnit, checked⟩ := eq_ok_of_bind read
  have written := UnitDecl.isWritten_of_readUnit readUnit
  obtain ⟨methods, each, made⟩ := eq_ok_of_bind checked
  cases made
  constructor
  · intro path mem
    apply (written.imports path mem).isPath
  · intro m mem
    obtain ⟨decl, declared, accepted⟩ := exists_isWritten_of_parse read mem
    apply MethodDecl.declared_of_check written.name.isName declared accepted

/-- The variables of a method that a text declares have the entries of its table. -/
theorem vars_of_parse {text : String} {u : ClassUnit} (read : parse text = .ok u) {m : Method} (mem : m ∈ u.methods) :
  m.vars = variableTable m.isStatic u.name m.params m.body
  := by
  obtain ⟨d, -, checked⟩ := eq_ok_of_bind read
  obtain ⟨methods, each, made⟩ := eq_ok_of_bind checked
  cases made
  obtain ⟨decl, -, accepted⟩ := exists_of_mem_mapM each mem
  obtain ⟨-, rfl⟩ := MethodDecl.eq_of_check accepted
  rfl

end StackBackend
