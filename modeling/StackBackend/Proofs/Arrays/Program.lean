import StackBackend.Proofs.Arrays.Elements
import StackBackend.Proofs.Kinds.Program
import StackBackend.Proofs.Source.Numbering

/-!
# Programs with arrays

A method is uniform when every variable that it uses as an array is used with one type throughout: where it
comes in, where it is read, where its elements are read and written, and in what is assigned to it. Run with
its variables in slots of their own, a uniform method holds in such a variable arrays of its type alone, so
each access to an element goes by the kind of what the array holds.
-/

namespace StackBackend

/-! ### The types of variables -/

/-- The type of the value of an expression. -/
def Instr.valueTy : Instr → Ty
  | .single e => e.ty
  | .call _ _ _ _ result => result
  | .new ty _ => ty
  | .getField _ _ fieldTy => fieldTy
  | _ => .int

/-- The variable that a value is assigned to, with the type of the value. -/
def Instr.assigned : Instr → List (String × Ty)
  | .assign (.var x _) _ rhs => [(x, rhs.valueTy)]
  | _ => []

namespace Method

/-- The types that a method uses variables with: those they come in with and appear with, and those of the
values assigned to them. -/
def typings (m : Method) : List (String × Ty) :=
  m.params.map (fun p => (p.name, p.ty)) ++ m.body.flatMap fun i => i.appearances ++ i.assigned

variable {m : Method}

theorem param_mem_typings {p : Param} (mem : p ∈ m.params) :
  (p.name, p.ty) ∈ m.typings
  := by
  rw [typings, List.mem_append, List.mem_map]
  left
  use p

/-- A name that appears in the body is used with a type. -/
theorem appears_mem_typings {i : Instr} (mem : i ∈ m.body) {a : String × Ty} (appears : a ∈ i.appearances) :
  a ∈ m.typings
  := by
  rw [typings, List.mem_append, List.mem_flatMap]
  right
  use i, mem, List.mem_append_left _ appears

theorem assigned_mem_typings {i : Instr} (mem : i ∈ m.body) {a : String × Ty} (assigned : a ∈ i.assigned) :
  a ∈ m.typings
  := by
  rw [typings, List.mem_append, List.mem_flatMap]
  right
  use i, mem, List.mem_append_right _ assigned

/-- All uses of a variable agree on whether it is an array, and of what. -/
def IsUniform (m : Method) : Prop :=
  ∀ a ∈ m.typings, ∀ b ∈ m.typings, a.1 = b.1 → a.2.elem? = b.2.elem?

instance (m : Method) : Decidable m.IsUniform :=
  inferInstanceAs (Decidable (∀ a ∈ m.typings, ∀ b ∈ m.typings, a.1 = b.1 → a.2.elem? = b.2.elem?))

end Method

/-! ### The discipline of arrays -/

section Values

variable {D : Domain} {arrays : D.Arrays} {u : ClassUnit}

/-- An access to an array of the type is made by the kind of its elements. -/
theorem Domain.Arrays.Has.matches {v : D.Value} {elem : Ty} (has : arrays.Has v (.array elem)) {a : Action}
    (access : a = .arrayLoad (.ofTy elem) ∨ a = .arrayStore (.ofTy elem)) (args : List D.Value) :
  arrays.Matches ⟨a, v :: args⟩
  := by
  rintro kind same w ⟨⟩ e array
  have kinds : e.kind = .ofTy elem := by
    rw [(has e array).kind_eq, Element.kind_ofTy]
  rw [kinds]
  obtain rfl | rfl := access
  · simpa [eq_comm] using same
  · simpa [eq_comm] using same

/-- A request that is no access to an array is none of the wrong kind. -/
theorem Domain.Arrays.matches_of_ne {a : Action} (other : ∀ kind, a ≠ .arrayLoad kind ∧ a ≠ .arrayStore kind)
    (args : List D.Value) :
  arrays.Matches ⟨a, args⟩
  := by
  rintro kind (load | store)
  · apply ((other kind).1 load).elim
  · apply ((other kind).2 store).elim

/-- The target of a call names the type of its result. -/
theorem returns?_callTarget (imports : ∀ path ∈ u.imports, IsPath path) (kind : CallKind)
    (owner method : String) (args : List Operand) {result : Ty} (proper : result.IsProper) :
  (Action.invoke kind (callTarget u owner method args result)).returns? = some (.ofTy result)
  := by
  have chars : (callTarget u owner method args result).toList
      = (owner ++ "/" ++ method ++ "(" ++ u.descriptors (args.map Operand.ty)).toList
        ++ ')' :: (u.descriptor result).toList := by
    simp [callTarget]
  rw [Action.returns?, chars, afterLast_append_cons (u.not_mem_descriptor imports proper (.inr rfl)),
    u.element_descriptor]

/-- The action that makes an array names its elements. -/
theorem makes?_arrayAction (imports : ∀ path ∈ u.imports, IsPath path) {elem : Ty} (proper : elem.IsProper) :
  (arrayAction u elem).makes? = some (.ofTy elem)
  := by
  cases elem with
  | int | bool => simp [arrayAction, Action.makes?, Element.ofTy]
  | string | void | array | object =>
      simp only [arrayAction, Action.makes?, u.element_classPath imports proper rfl]

/-- Elements are got and set by the kind of what the array holds. -/
def Domain.Arrays.bounds (arrays : D.Arrays) : Bounds D where
  Allows := arrays.Matches
  Excuses _ := True

/-- Faults are excused, so that only results need hold. -/
theorem Domain.Arrays.grants {α : Type} {P : α → Prop} {x : Except Fault α} (given : ∀ a, x = .ok a → P a) :
  arrays.bounds.Grants P x
  := by
  cases x with
  | ok a => apply given a rfl
  | error f => trivial

theorem Domain.Arrays.obeys {a : Action} {vs : List D.Value} {P : D.Value → Prop} (matches' : arrays.Matches ⟨a, vs⟩)
    (given : ∀ h v h', D.act a vs h = .ok (v, h') → P v) :
  (Eff.act a vs).Obeys arrays.bounds P
  := by
  apply Eff.obeys_act matches'
  intro h
  apply grants
  rintro ⟨v, h'⟩ done
  apply given h v h' done

/-- The discipline of arrays: a value of a type is no array of another type. -/
def Domain.Arrays.discipline (arrays : D.Arrays) (imports : ∀ path ∈ u.imports, IsPath path) :
    Discipline D u where
  toBounds := arrays.bounds
  S := Ty
  Has := arrays.Has
  sort ty := ty
  made ty := ty
  Fits _ _ := True
  Writes _ := True
  Names := Ty.IsProper
  excuses _ := trivial
  fits_sort _ := trivial
  int _ := trivial
  literal {value ty} _ := by
    apply Domain.Arrays.grants
    intro v written
    unfold literalConstant at written
    split at written
    · next string =>
        subst string
        trivial
    · split at written
      · obtain rfl := Except.ok.inj written
        apply Domain.Arrays.has_of_none (arrays.int _)
      · cases written
  check _ _ := Domain.Arrays.grants fun _ _ => trivial
  arith _ _ _ _ _ := Domain.Arrays.grants fun _ _ => trivial
  neg _ _ := Domain.Arrays.grants fun _ _ => trivial
  test _ _ _ _ := Domain.Arrays.grants fun _ _ => trivial
  compare _ _ _ _ _ _ := Domain.Arrays.grants fun _ _ => trivial
  load has _ _ := by
    apply Domain.Arrays.obeys (has.matches (.inl rfl) _)
    intro h v h' given
    obtain ⟨e, array, within⟩ := arrays.loaded given
    apply Domain.Arrays.has_of_suits
    intro d nested
    apply (within d nested).trans (has e array)
  store has _ _ _ _ := by
    apply Domain.Arrays.obeys (has.matches (.inr rfl) _)
    intro h v h' given
    trivial
  length _ _ := by
    apply Domain.Arrays.obeys (arrays.matches_of_ne (by simp) _)
    intro h v h' given
    trivial
  getField field ty _ _ := by
    apply Domain.Arrays.obeys (arrays.matches_of_ne (by simp) _)
    intro h v h' given
    apply arrays.has_of_suits
    intro d array
    apply arrays.returned given _ array
    rw [Action.returns?, u.element_descriptor]
  putField field ty _ _ _ _ := by
    apply Domain.Arrays.obeys (arrays.matches_of_ne (by simp) _)
    intro h v h' given
    trivial
  invoke owner method _ named _ _ := by
    apply Domain.Arrays.obeys (arrays.matches_of_ne (by simp) _)
    intro h v h' given value
    apply arrays.has_of_suits
    intro d array
    apply arrays.returned given (returns?_callTarget imports _ owner method _ named) array
  newArray {_ _ ty} named _ _ := by
    apply Domain.Arrays.obeys
    · apply arrays.matches_of_ne
      cases ty <;> simp [arrayAction]
    · intro h v h' given d array
      rw [arrays.made given (makes?_arrayAction imports named)] at array
      obtain rfl := Option.some.inj array
      apply Element.Suits.refl
  new {ty} other := by
    apply Domain.Arrays.obeys (arrays.matches_of_ne (by simp) _)
    intro h v h' given
    cases ty with
    | array elem => apply (other elem rfl).elim
    | int | bool | string | void | object => trivial

end Values

/-! ### Runs -/

section Runs

variable {D : Domain} {arrays : D.Arrays} {u : ClassUnit} {m : Method} {i : Instr} {cells : Nat → D.Value}

/-- The variables hold no arrays of other types than these. -/
def Domain.Arrays.Held (arrays : D.Arrays) (read : String → Except Fault D.Value)
    (typings : List (String × Ty)) : Prop :=
  ∀ x ty v, (x, ty) ∈ typings → read x = .ok v → arrays.Has v ty

/-- Different variables of a method are in different slots. -/
def Method.IsApart (m : Method) : Prop :=
  ∀ x y n, m.slotOf x = some n → m.slotOf y = some n → x = y

/-- The variables of a declared method have slots of their own. -/
theorem Method.Declared.isApart (declared : m.Declared) :
  m.IsApart
  := by
  intro x y n slot slot'
  obtain ⟨v, entry, rfl⟩ := Option.map_eq_some_iff.1 slot
  obtain ⟨w, entry', same⟩ := Option.map_eq_some_iff.1 slot'
  apply declared.apart x y v w entry entry' same.symm

/-- The variables of a method hold no arrays of other types than they are used with. -/
def Method.HoldsArrays (m : Method) (arrays : D.Arrays) (cells : Nat → D.Value) : Prop :=
  arrays.Held (fetch m.slotOf cells) m.typings

namespace Method.HoldsArrays

/-- What an instruction reads holds arrays of the types it is read with. -/
theorem holds (holds : m.HoldsArrays arrays cells) (imports : ∀ path ∈ u.imports, IsPath path)
    (mem : i ∈ m.body) :
  (arrays.discipline imports).Holds (fetch m.slotOf cells) (fetch m.slotOf cells) i.reads
  := by
  intro e read x ty named
  use rfl
  apply Domain.Arrays.grants
  intro v value
  apply holds x ty v _ value
  apply appears_mem_typings mem
  apply List.mem_flatMap.2
  use e, List.mem_append_right _ read
  rwa [Operand.mem_appearances]

/-- After a value is written to a variable that is used with its type, no variable holds an array of another
type than it is used with: the type of the value and every other type of the variable agree on arrays. -/
theorem update (holds : m.HoldsArrays arrays cells) (uniform : m.IsUniform)
    (apart : m.IsApart) {x : String} {n : Nat}
    (slot : m.slotOf x = some n) {v : D.Value} {ty : Ty} (typed : (x, ty) ∈ m.typings)
    (has : arrays.Has v ty) :
  m.HoldsArrays arrays (Function.update cells n v)
  := by
  intro y ty' w typed' read
  by_cases same : m.slotOf x = m.slotOf y
  · obtain rfl := apart x y n slot (same ▸ slot)
    rw [fetch_update_self slot] at read
    obtain rfl := Except.ok.inj read
    apply has.of_elem?_eq (uniform _ typed _ typed' rfl)
  · rw [fetch_update_of_ne slot same] at read
    apply holds y ty' w typed' read

end Method.HoldsArrays

/-- The type of the value of an expression is its sort. -/
theorem Instr.valueSort_arrays (imports : ∀ path ∈ u.imports, IsPath path) (i : Instr) :
  i.valueSort (arrays.discipline imports) = i.valueTy
  := by
  cases i <;> rfl

/-- The value that is assigned is of a type that the variable is assigned with. -/
theorem Instr.Assigns.mem_assigned {imports : ∀ path ∈ u.imports, IsPath path} {x : String} {v : D.Value}
    (assigns : i.Assigns (arrays.discipline imports) x v) :
  ∃ ty, (x, ty) ∈ i.assigned ∧ arrays.Has v ty
  := by
  cases i with
  | assign dest ty rhs =>
      cases dest with
      | var y ty' =>
          obtain ⟨rfl, has⟩ := assigns
          use rhs.valueTy
          constructor
          · apply List.mem_singleton_self
          · rwa [valueSort_arrays] at has
      | item | literal => cases assigns
  | single | binary | unary | ret | call | new | getField | putField | goto | branch | arrayLength => cases assigns

/-- An instruction of a uniform method gets and sets elements by the kind of what the array holds, and leaves
in the variables no arrays of other types than they are used with. -/
theorem Instr.exec_obeys_arrays {index : Nat} (imports : ∀ path ∈ u.imports, IsPath path) (uniform : m.IsUniform)
    (apart : m.IsApart) (mem : i ∈ m.body) (proper : i.IsProper) (holds : m.HoldsArrays arrays cells) :
  (i.exec u m.slotOf cells).Obeys arrays.bounds
    ((program u m.slotOf D m).Leads (fun _ => m.HoldsArrays arrays) index)
  := by
  have sorted : i.Sorted (arrays.discipline imports) := by
    apply sorted_of_fits
    · intro ty
      trivial
    · intro s kind
      trivial
  have within := exec_within sorted proper.spelled (holds.holds imports mem) fun _ _ => rfl
  have kept {after after' : Nat → D.Value}
      (written : Written (arrays.discipline imports) i m.slotOf m.slotOf cells cells after after') :
      m.HoldsArrays arrays after := by
    cases written with
    | none _ => apply holds
    | one assigns _ slot _ =>
        obtain ⟨ty, assigned, has⟩ := assigns.mem_assigned
        apply holds.update uniform apart slot (Method.assigned_mem_typings mem assigned) has
  apply within.obeys_of
  intro next next' both
  cases both with
  | on written => apply kept written
  | jump label written =>
      intro target _
      apply kept written
  | ret v => trivial

/-- A uniform method, run with its variables in slots of their own, gets and sets elements by the kind of what
the array holds. -/
theorem program_matches (imports : ∀ path ∈ u.imports, IsPath path) (uniform : m.IsUniform)
    (apart : m.IsApart)
    (proper : ∀ i ∈ m.body, i.IsProper) (holds : m.HoldsArrays arrays cells) {heap : D.Heap}
    {tr : List (Request D.Value)}
    (emits : (program u m.slotOf D m).automaton.Emits ⟨0, cells, heap⟩ tr) :
  ∀ q ∈ tr, arrays.Matches q
  := by
  have keeps : (program u m.slotOf D m).Keeps arrays.bounds fun _ => m.HoldsArrays arrays := by
    constructor
    · intro index exec cells found holds
      obtain ⟨i, at_index, rfl⟩ := Option.map_eq_some_iff.1 found
      have mem : i ∈ m.body := List.mem_of_getElem? at_index
      apply Instr.exec_obeys_arrays imports uniform apart mem (proper i mem) holds
    · intro label
      trivial
    · intro f _
      trivial
  apply keeps.allows holds emits

end Runs

end StackBackend
