import StackBackend.Lowering.Instr
import StackBackend.Proofs.Execution.Program
import StackBackend.Proofs.Source.Names

/-!
# The signature in the name of a method

The machine knows the kinds that a call takes and gives from the text that names its target alone: after
the last opening bracket the descriptors of the parameters stand in a row up to a closing bracket, and
then that of the result. Read in this way, the target of a call has the kinds of its arguments and its
result, if the names of classes have none of the characters that mark descriptors.
-/

namespace StackBackend

/-- The kind of the values of a descriptor. -/
def Kind.ofDescriptor : List Char → Kind
  | 'I' :: _ | 'Z' :: _ => .int
  | _ => .ref

/-- The part of a text after the last `c`. -/
def afterLast (c : Char) (cs : List Char) : List Char := (cs.reverse.takeWhile (· ≠ c)).reverse

/-- The kinds of descriptors in a row, up to the closing bracket. The marks say whether the descriptor at
hand belongs to an array, and whether the name of a class is being read. -/
def rowKinds : Bool → Bool → List Char → List Kind
  | _, _, [] => []
  | array, true, c :: cs =>
      if c = ';' then .ref :: rowKinds false false cs else rowKinds array true cs
  | array, false, c :: cs =>
      if c = ')' then []
      else if c = '[' then rowKinds true false cs
      else if c = 'L' then rowKinds array true cs
      else (if array then .ref else .ofDescriptor [c]) :: rowKinds false false cs

/-- The kinds that a method takes and gives. -/
structure Signature where
  params : List Kind
  result : Option Kind
deriving DecidableEq, Repr

/-- The signature that a target names. -/
def Signature.ofTarget (target : String) : Signature :=
  let text := afterLast '(' target.toList
  let result := afterLast ')' text
  ⟨rowKinds false false text, if result = ['V'] then none else some (.ofDescriptor result)⟩

theorem forall_reverse_ne {c : Char} {ds : List Char} (free : c ∉ ds) :
  ∀ d ∈ ds.reverse, decide (d ≠ c) = true
  := by
  intro d mem
  rw [decide_eq_true_iff]
  rintro rfl
  apply free (List.mem_reverse.1 mem)

/-- What comes after the last of a character. -/
theorem afterLast_append_cons {c : Char} {ds : List Char} (free : c ∉ ds) (cs : List Char) :
  afterLast c (cs ++ c :: ds) = ds
  := by
  rw [afterLast, List.reverse_append, List.reverse_cons, List.append_assoc,
    List.takeWhile_append_of_pos (forall_reverse_ne free)]
  simp

/-! ### Characters of class names -/

/-- A character of the full name of a class. -/
def IsPlain (c : Char) : Prop := LexRule.isIdentRest c = true ∨ c = '/'

theorem isPlain_ne {c d : Char} (plain : IsPlain c)
    (mark : LexRule.isIdentRest d = false ∧ d ≠ '/') :
  c ≠ d
  := by
  rintro rfl
  obtain plain | plain := plain
  · simp [mark.1] at plain
  · apply mark.2 plain

namespace ClassUnit

variable {u : ClassUnit}

/-- The full name of a class has plain characters. -/
theorem resolve_isPlain (imports : ∀ path ∈ u.imports, IsPath path) {name : String}
    (proper : IsName name) :
  ∀ c ∈ (u.resolve name).toList, IsPlain c
  := by
  have own : ∀ c ∈ name.toList, IsPlain c := fun c mem => .inl (proper c mem)
  unfold resolve
  split
  · apply own
  · split
    · next path found =>
        intro c mem
        rw [slashed, String.toList_ofList, List.mem_map] at mem
        obtain ⟨d, mem, rfl⟩ := mem
        split
        · right
          rfl
        · next other =>
            obtain rest | dot := imports path (List.mem_of_find?_eq_some found) d mem
            · left
              apply rest
            · apply (other dot).elim
    · apply own

/-- A descriptor has no brackets of a signature. -/
theorem not_mem_descriptor (imports : ∀ path ∈ u.imports, IsPath path) {ty : Ty}
    (proper : ty.IsProper) {c : Char} (bracket : c = '(' ∨ c = ')') :
  c ∉ (u.descriptor ty).toList
  := by
  have mark : LexRule.isIdentRest c = false ∧ c ≠ '/' := by
    obtain rfl | rfl := bracket <;> decide
  induction ty with
  | int | bool | string | void =>
      simp only [descriptor]
      obtain rfl | rfl := bracket <;> decide
  | array elem ih =>
      simp only [descriptor, String.toList_append, List.mem_append, not_or]
      constructor
      · obtain rfl | rfl := bracket <;> decide
      · apply ih proper
  | object name =>
      simp only [descriptor, String.toList_append, List.mem_append, not_or]
      refine ⟨⟨?_, ?_⟩, ?_⟩
      · obtain rfl | rfl := bracket <;> decide
      · intro mem
        apply isPlain_ne (resolve_isPlain imports proper c mem) mark rfl
      · obtain rfl | rfl := bracket <;> decide

end ClassUnit

/-! ### Descriptors in a row -/

theorem rowKinds_name {array : Bool} {cs : List Char} (open' : ∀ c ∈ cs, c ≠ ';')
    (rest : List Char) :
  rowKinds array true (cs ++ ';' :: rest) = .ref :: rowKinds false false rest
  := by
  induction cs with
  | nil => simp [rowKinds]
  | cons c cs ih =>
      rw [List.forall_mem_cons] at open'
      rw [List.cons_append, rowKinds, if_neg open'.1, ih open'.2]

/-- The name of a class is passed over up to its semicolon. -/
theorem rowKinds_class {array : Bool} {cs : List Char} (open' : ∀ c ∈ cs, c ≠ ';')
    (rest : List Char) :
  rowKinds array false ('L' :: (cs ++ ';' :: rest)) = .ref :: rowKinds false false rest
  := by
  rw [rowKinds, if_neg (by decide), if_neg (by decide), if_pos rfl, rowKinds_name open']

namespace ClassUnit

variable {u : ClassUnit}

/-- A descriptor at the front of a row is read as the kind of its type. -/
theorem rowKinds_descriptor (imports : ∀ path ∈ u.imports, IsPath path) {ty : Ty}
    (proper : ty.IsProper) (array : Bool) (rest : List Char) :
  rowKinds array false ((u.descriptor ty).toList ++ rest)
    = (if array then .ref else .ofTy ty) :: rowKinds false false rest
  := by
  have reference (array : Bool) {ty : Ty} (no : ty.isIntLike = false) :
      (if array then .ref else Kind.ofTy ty) = .ref := by
    simp [Kind.ofTy, no]
  induction ty generalizing array with
  | int | bool | void =>
      cases array <;> simp [descriptor, rowKinds, Kind.ofDescriptor, Kind.ofTy, Ty.isIntLike]
  | string =>
      have chars : (u.descriptor .string).toList ++ rest
          = 'L' :: ("java/lang/String".toList ++ ';' :: rest) := by
        simp [descriptor]
      rw [reference array rfl, chars, rowKinds_class (by simp)]
  | array elem ih =>
      have chars : (u.descriptor (.array elem)).toList ++ rest
          = '[' :: ((u.descriptor elem).toList ++ rest) := by
        simp [descriptor]
      rw [reference array rfl, chars, rowKinds, if_neg (by decide), if_pos rfl, ih proper true]
      rfl
  | object name =>
      have open' : ∀ c ∈ (u.resolve name).toList, c ≠ ';' := by
        intro c mem
        apply isPlain_ne (resolve_isPlain imports proper c mem) (by decide)
      have chars : (u.descriptor (.object name)).toList ++ rest
          = 'L' :: ((u.resolve name).toList ++ ';' :: rest) := by
        simp [descriptor]
      rw [reference array rfl, chars, rowKinds_class open']

theorem toList_descriptors_cons (u : ClassUnit) (ty : Ty) (tys : List Ty) :
  (u.descriptors (ty :: tys)).toList = (u.descriptor ty).toList ++ (u.descriptors tys).toList
  := by
  simp [descriptors]

/-- No descriptor has a bracket of the signature in it. -/
theorem not_mem_descriptors (imports : ∀ path ∈ u.imports, IsPath path) {tys : List Ty}
    (proper : ∀ ty ∈ tys, ty.IsProper) {c : Char} (bracket : c = '(' ∨ c = ')') :
  c ∉ (u.descriptors tys).toList
  := by
  induction tys with
  | nil => simp [descriptors]
  | cons ty tys ih =>
      rw [List.forall_mem_cons] at proper
      rw [toList_descriptors_cons, List.mem_append, not_or]
      use not_mem_descriptor imports proper.1 bracket, ih proper.2

/-- The kinds of descriptors in a row are read back. -/
theorem rowKinds_descriptors (imports : ∀ path ∈ u.imports, IsPath path) {tys : List Ty}
    (proper : ∀ ty ∈ tys, ty.IsProper) (rest : List Char) :
  rowKinds false false ((u.descriptors tys).toList ++ ')' :: rest) = tys.map .ofTy
  := by
  induction tys with
  | nil => simp [descriptors, rowKinds]
  | cons ty tys ih =>
      rw [List.forall_mem_cons] at proper
      rw [toList_descriptors_cons, List.append_assoc, rowKinds_descriptor imports proper.1, ih proper.2]
      rfl

/-- The kind of a descriptor is that of its type. -/
theorem ofDescriptor_descriptor (u : ClassUnit) (ty : Ty) :
  Kind.ofDescriptor (u.descriptor ty).toList = .ofTy ty
  := by
  cases ty <;> simp [descriptor, Kind.ofDescriptor, Kind.ofTy, Ty.isIntLike]

/-- Only nothing is written as nothing. -/
theorem descriptor_eq_void {ty : Ty} :
  (u.descriptor ty).toList = ['V'] ↔ ty.isVoid = true
  := by
  cases ty <;> simp [descriptor, Ty.isVoid]

/-- The signature in the target of a call: the kinds of the arguments and of the result. -/
theorem signature_callTarget (imports : ∀ path ∈ u.imports, IsPath path) (owner method : String)
    {args : List Operand} {result : Ty} (proper : ∀ e ∈ args, e.ty.IsProper)
    (proper' : result.IsProper) :
  Signature.ofTarget (callTarget u owner method args result)
    = ⟨args.map fun e => .ofTy e.ty, if result.isVoid then none else some (.ofTy result)⟩
  := by
  have types : ∀ ty ∈ args.map Operand.ty, ty.IsProper := by
    intro ty mem
    obtain ⟨e, mem', rfl⟩ := List.mem_map.1 mem
    apply proper e mem'
  have text : afterLast '(' (callTarget u owner method args result).toList
      = (u.descriptors (args.map Operand.ty)).toList ++ ')' :: (u.descriptor result).toList := by
    have chars : (callTarget u owner method args result).toList
        = (owner ++ "/" ++ method).toList ++ '('
          :: ((u.descriptors (args.map Operand.ty)).toList ++ ')' :: (u.descriptor result).toList) := by
      simp [callTarget]
    rw [chars]
    apply afterLast_append_cons
    rw [List.mem_append, List.mem_cons, not_or, not_or]
    use not_mem_descriptors imports types (.inl rfl)
    constructor
    · decide
    · apply not_mem_descriptor imports proper' (.inl rfl)
  have last : afterLast ')' ((u.descriptors (args.map Operand.ty)).toList
      ++ ')' :: (u.descriptor result).toList) = (u.descriptor result).toList :=
    afterLast_append_cons (not_mem_descriptor imports proper' (.inr rfl)) _
  simp only [Signature.ofTarget, text, last, rowKinds_descriptors imports types,
    descriptor_eq_void, ofDescriptor_descriptor, List.map_map]
  rfl

end ClassUnit

end StackBackend
