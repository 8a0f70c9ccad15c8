import Mathlib.Data.List.TakeWhile
import StackBackend.Lowering.ClassCode
import StackBackend.Proofs.Kinds.Signature

/-!
# Descriptors are unambiguous

The full name of a class ends in the name that stands for it, so different names stand for different
classes. The descriptor of a class ends at its semicolon, and no other descriptor goes on after its first
letter but that of an array, which goes on as its elements do. So a text begins with one descriptor at most,
and descriptors in a row can be told apart: the signature of a method gives back its types.
-/

namespace StackBackend

/-! ### Names of classes -/

/-- The classes in the type have the characters of identifiers in their names, and none is named like the
class of strings. -/
def Ty.IsClear : Ty → Prop
  | .object name => IsName name ∧ name ≠ "String"
  | .array elem => elem.IsClear
  | .int | .bool | .string | .void => True

instance (name : String) : Decidable (IsName name) := List.decidableBAll _ name.toList

instance (path : String) : Decidable (IsPath path) := List.decidableBAll _ path.toList

instance Ty.decidableIsClear : (ty : Ty) → Decidable ty.IsClear
  | .object _ => inferInstanceAs (Decidable (_ ∧ _))
  | .array elem => elem.decidableIsClear
  | .int | .bool | .string | .void => .isTrue trivial

theorem Ty.IsClear.isProper {ty : Ty} (clear : ty.IsClear) :
  ty.IsProper
  := by
  induction ty with
  | int | bool | string | void => trivial
  | array elem ih => apply ih clear
  | object name => apply clear.1

theorem afterLast_eq_self {c : Char} {cs : List Char} (free : c ∉ cs) :
  afterLast c cs = cs
  := by
  rw [afterLast, List.takeWhile_eq_self_iff.2 (forall_reverse_ne free), List.reverse_reverse]

namespace ClassUnit

variable {u : ClassUnit}

/-- The last component of a path is what stands after the last of its slashes. -/
theorem afterLast_slashed {path : String} (proper : IsPath path) :
  afterLast '/' (slashed path).toList = (lastComponent path).toList
  := by
  have ends : ∀ cs : List Char, (∀ c ∈ cs, LexRule.isIdentRest c = true ∨ c = '.') →
      (cs.map fun c => if c = '.' then '/' else c).takeWhile (· ≠ '/') = cs.takeWhile (· ≠ '.') := by
    intro cs chars
    induction cs with
    | nil => rfl
    | cons c cs ih =>
        rw [List.forall_mem_cons] at chars
        by_cases dot : c = '.'
        · simp [dot]
        · have plain : c ≠ '/' := by
            rintro rfl
            apply absurd chars.1 (by decide)
          rw [List.map_cons, if_neg dot, List.takeWhile_cons_of_pos (by simpa using plain), ih chars.2,
            List.takeWhile_cons_of_pos (by simpa using dot)]
  rw [afterLast, slashed, lastComponent, String.toList_ofList, String.toList_ofList, ← List.map_reverse,
    ends path.toList.reverse fun c mem => proper c (List.mem_reverse.1 mem)]

/-- The full name of a class ends in the name that stands for it. -/
theorem afterLast_resolve (imports : ∀ path ∈ u.imports, IsPath path) {name : String}
    (proper : IsName name) :
  afterLast '/' (u.resolve name).toList = name.toList
  := by
  have own : afterLast '/' name.toList = name.toList := by
    apply afterLast_eq_self
    intro mem
    apply absurd (proper '/' mem) (by decide)
  unfold resolve
  split
  · apply own
  · split
    · next path found =>
        have last : lastComponent path = name := by simpa using List.find?_some found
        rw [afterLast_slashed (imports path (List.mem_of_find?_eq_some found)), last]
    · apply own

/-- Different names stand for different classes. -/
theorem resolve_inj (imports : ∀ path ∈ u.imports, IsPath path) {name name' : String}
    (proper : IsName name) (proper' : IsName name') (same : u.resolve name = u.resolve name') :
  name = name'
  := by
  have last := afterLast_resolve imports proper
  rw [same, afterLast_resolve imports proper'] at last
  apply String.toList_inj.1 last.symm

/-- Only the name `String` may stand for the class of strings. -/
theorem resolve_ne_string (imports : ∀ path ∈ u.imports, IsPath path) {name : String}
    (proper : IsName name) (other : name ≠ "String") :
  u.resolve name ≠ "java/lang/String"
  := by
  intro same
  have last := afterLast_resolve imports proper
  rw [same] at last
  apply other (String.toList_inj.1 last.symm)

end ClassUnit

/-! ### Descriptors in a row -/

/-- What stands before the first `c` and what stands after it can be told apart. -/
theorem append_cons_inj {c : Char} {cs cs' : List Char} (free : c ∉ cs) (free' : c ∉ cs')
    {rest rest' : List Char} (same : cs ++ c :: rest = cs' ++ c :: rest') :
  cs = cs' ∧ rest = rest'
  := by
  obtain ⟨more, rfl, tails⟩ | ⟨more, rfl, tails⟩ := List.append_eq_append_iff.1 same
  all_goals
    cases more with
    | nil => simpa using same
    | cons d ds =>
        obtain ⟨rfl, -⟩ := List.cons.inj tails
        simp at free free'

namespace ClassUnit

variable {u : ClassUnit}

/-- A text begins with one descriptor at most. The first letters differ unless both are arrays or both are
classes, and what follows the letter of a class is cut at the first semicolon. -/
theorem descriptor_append_inj (imports : ∀ path ∈ u.imports, IsPath path) {ty ty' : Ty}
    (clear : ty.IsClear) (clear' : ty'.IsClear) {rest rest' : List Char}
    (same : (u.descriptor ty).toList ++ rest = (u.descriptor ty').toList ++ rest') :
  ty = ty' ∧ rest = rest'
  := by
  have closed {name : String} (proper : IsName name) : ';' ∉ (u.resolve name).toList := by
    intro mem
    exact isPlain_ne (resolve_isPlain imports proper ';' mem) (by decide) rfl
  induction ty generalizing ty' with
  | int | bool | void =>
      cases ty' <;> simp_all [descriptor]
  | string =>
      cases ty' with
      | string => simpa [descriptor] using same
      | object name =>
          have same : "java/lang/String".toList ++ ';' :: rest
              = (u.resolve name).toList ++ ';' :: rest' := by
            simpa [descriptor] using same
          obtain ⟨path, -⟩ := append_cons_inj (by decide) (closed clear'.1) same
          apply absurd (String.toList_inj.1 path.symm) (resolve_ne_string imports clear'.1 clear'.2)
      | int | bool | void | array => simp [descriptor] at same
  | array elem ih =>
      cases ty' with
      | array elem' =>
          have same : (u.descriptor elem).toList ++ rest = (u.descriptor elem').toList ++ rest' := by
            simpa [descriptor] using same
          have inner : elem'.IsClear := clear'
          obtain ⟨rfl, rfl⟩ := ih clear inner same
          use rfl
      | int | bool | void | string | object => simp [descriptor] at same
  | object name =>
      cases ty' with
      | string =>
          have same : (u.resolve name).toList ++ ';' :: rest
              = "java/lang/String".toList ++ ';' :: rest' := by
            simpa [descriptor] using same
          obtain ⟨path, -⟩ := append_cons_inj (closed clear.1) (by decide) same
          apply absurd (String.toList_inj.1 path) (resolve_ne_string imports clear.1 clear.2)
      | object name' =>
          have same : (u.resolve name).toList ++ ';' :: rest
              = (u.resolve name').toList ++ ';' :: rest' := by
            simpa [descriptor] using same
          obtain ⟨path, rest⟩ := append_cons_inj (closed clear.1) (closed clear'.1) same
          obtain rfl := resolve_inj imports clear.1 clear'.1 (String.toList_inj.1 path)
          use rfl, rest
      | int | bool | void | array => simp [descriptor] at same

theorem descriptor_ne_nil (ty : Ty) :
  (u.descriptor ty).toList ≠ []
  := by
  cases ty <;> simp [descriptor]

/-- Descriptors in a row can be told apart. -/
theorem descriptors_inj (imports : ∀ path ∈ u.imports, IsPath path) {tys tys' : List Ty}
    (clear : ∀ ty ∈ tys, ty.IsClear) (clear' : ∀ ty ∈ tys', ty.IsClear)
    (same : u.descriptors tys = u.descriptors tys') :
  tys = tys'
  := by
  induction tys generalizing tys' with
  | nil =>
      cases tys' with
      | nil => rfl
      | cons ty' tys' =>
          have row := congrArg String.toList same
          rw [toList_descriptors_cons] at row
          apply absurd (List.append_eq_nil_iff.1 row.symm).1 (descriptor_ne_nil ty')
  | cons ty tys ih =>
      have row := congrArg String.toList same
      rw [toList_descriptors_cons] at row
      cases tys' with
      | nil => apply absurd (List.append_eq_nil_iff.1 row).1 (descriptor_ne_nil ty)
      | cons ty' tys' =>
          rw [List.forall_mem_cons] at clear clear'
          rw [toList_descriptors_cons] at row
          obtain ⟨rfl, rest⟩ := descriptor_append_inj imports clear.1 clear'.1 row
          rw [ih clear.2 clear'.2 (String.toList_inj.1 rest)]

end ClassUnit

/-! ### Signatures -/

/-- What the first line of the code of a method has before the types of the method. -/
def Method.headerFront (m : Method) : String :=
  ".method " ++ m.access.text ++ (if m.isStatic then "static " else "") ++ m.name

namespace ClassUnit

variable {u : ClassUnit}

/-- The types of a method as its name gives them: those that it takes in brackets, then that of its
result. -/
def signature (u : ClassUnit) (params : List Ty) (result : Ty) : String :=
  "(" ++ u.descriptors params ++ ")" ++ u.descriptor result

theorem toList_append_signature (front : String) (params : List Ty) (result : Ty) :
  (front ++ u.signature params result).toList
    = front.toList ++ '(' :: ((u.descriptors params).toList ++ ')' :: (u.descriptor result).toList)
  := by
  simp [signature]

theorem codeHeader_eq (u : ClassUnit) (m : Method) :
  u.codeHeader m = m.headerFront ++ u.signature (m.params.map Param.ty) m.ret
  := by
  simp only [Method.headerFront, signature, ← String.append_assoc]
  rfl

theorem callTarget_eq (u : ClassUnit) (owner method : String) (args : List Operand) (result : Ty) :
  callTarget u owner method args result
    = owner ++ "/" ++ method ++ u.signature (args.map Operand.ty) result
  := by
  simp only [signature, ← String.append_assoc]
  rfl

/-- A signature at the end of a text can be told from what stands before it: it begins at the last opening
bracket. -/
theorem append_signature_inj (imports : ∀ path ∈ u.imports, IsPath path) {params params' : List Ty}
    {result result' : Ty} (clear : ∀ ty ∈ result :: params, ty.IsClear)
    (clear' : ∀ ty ∈ result' :: params', ty.IsClear) {front front' : String} :
  front ++ u.signature params result = front' ++ u.signature params' result'
    ↔ front = front' ∧ params = params' ∧ result = result'
  := by
  constructor
  · intro same
    rw [List.forall_mem_cons] at clear clear'
    have chars := congrArg String.toList same
    rw [toList_append_signature, toList_append_signature] at chars
    have free {params : List Ty} {result : Ty} (clear : ∀ ty ∈ params, ty.IsClear)
        (clear' : result.IsClear) :
        '(' ∉ (u.descriptors params).toList ++ ')' :: (u.descriptor result).toList := by
      rw [List.mem_append, List.mem_cons, not_or, not_or]
      and_intros
      · apply not_mem_descriptors imports _ (.inl rfl)
        intro ty mem
        apply (clear ty mem).isProper
      · decide
      · apply not_mem_descriptor imports clear'.isProper (.inl rfl)
    have types := congrArg (afterLast '(') chars
    rw [afterLast_append_cons (free clear.2 clear.1), afterLast_append_cons (free clear'.2 clear'.1)] at types
    rw [types] at chars
    have closed {params : List Ty} (clear : ∀ ty ∈ params, ty.IsClear) :
        ')' ∉ (u.descriptors params).toList :=
      not_mem_descriptors imports (fun ty mem => (clear ty mem).isProper) (.inr rfl)
    obtain ⟨row, last⟩ := append_cons_inj (closed clear.2) (closed clear'.2) types
    obtain rfl := descriptors_inj imports clear.2 clear'.2 (String.toList_inj.1 row)
    have last : (u.descriptor result).toList ++ [] = (u.descriptor result').toList ++ [] := by rw [last]
    obtain ⟨rfl, -⟩ := descriptor_append_inj imports clear.1 clear'.1 last
    use String.toList_inj.1 (List.append_cancel_right chars)
  · rintro ⟨rfl, rfl, rfl⟩
    rfl

end ClassUnit

/-- Descriptors are unambiguous. If the components of imports and the names of classes have the characters of
identifiers, and no class is named `String`, then descriptors in a row are the same only for the same types,
and so are signatures, also at the end of the first line of a method and of the target of a call. -/
theorem descriptors_unambiguous {u : ClassUnit} (imports : ∀ path ∈ u.imports, IsPath path) :
  (∀ tys tys' : List Ty, (∀ ty ∈ tys, ty.IsClear) → (∀ ty ∈ tys', ty.IsClear) →
      (u.descriptors tys = u.descriptors tys' ↔ tys = tys'))
    ∧ (∀ (params params' : List Ty) (result result' : Ty),
      (∀ ty ∈ result :: params, ty.IsClear) → (∀ ty ∈ result' :: params', ty.IsClear) →
      (u.signature params result = u.signature params' result' ↔ params = params' ∧ result = result'))
    ∧ (∀ m m' : Method, (∀ ty ∈ m.ret :: m.params.map Param.ty, ty.IsClear) →
      (∀ ty ∈ m'.ret :: m'.params.map Param.ty, ty.IsClear) →
      (u.codeHeader m = u.codeHeader m' ↔
        m.headerFront = m'.headerFront ∧ m.params.map Param.ty = m'.params.map Param.ty ∧ m.ret = m'.ret))
    ∧ ∀ (owner owner' method method' : String) (args args' : List Operand) (result result' : Ty),
      (∀ ty ∈ result :: args.map Operand.ty, ty.IsClear) →
      (∀ ty ∈ result' :: args'.map Operand.ty, ty.IsClear) →
      (callTarget u owner method args result = callTarget u owner' method' args' result' ↔
        owner ++ "/" ++ method = owner' ++ "/" ++ method'
          ∧ args.map Operand.ty = args'.map Operand.ty ∧ result = result')
  := by
  and_intros
  · intro tys tys' clear clear'
    use ClassUnit.descriptors_inj imports clear clear', congrArg u.descriptors
  · intro params params' result result' clear clear'
    have inj : "" ++ u.signature params result = "" ++ u.signature params' result'
        ↔ "" = "" ∧ params = params' ∧ result = result' :=
      ClassUnit.append_signature_inj imports clear clear'
    simpa using inj
  · intro m m' clear clear'
    rw [u.codeHeader_eq, u.codeHeader_eq]
    apply ClassUnit.append_signature_inj imports clear clear'
  · intro owner owner' method method' args args' result result' clear clear'
    rw [u.callTarget_eq, u.callTarget_eq]
    apply ClassUnit.append_signature_inj imports clear clear'

/-- Imports that share components, and one that the class itself hides. -/
theorem imported_descriptors_unambiguous :
  let u : ClassUnit := ⟨"A", none, ["a.b.Foo", "b.Foo", "Foo.b", "a.A"], [], []⟩
  let tys : List Ty := [.object "Foo", .array (.object "b"), .object "A"]
  let tys' : List Ty := [.object "Foo", .object "b", .array (.object "A")]
  (∀ path ∈ u.imports, IsPath path) ∧ (∀ ty ∈ tys, ty.IsClear) ∧ (∀ ty ∈ tys', ty.IsClear)
    ∧ u.descriptors tys = "La/b/Foo;[LFoo/b;LA;"
    ∧ u.descriptors tys ≠ u.descriptors tys'
  := by
  intro u tys tys'
  have imports : ∀ path ∈ u.imports, IsPath path := by decide
  have clear : ∀ ty ∈ tys, ty.IsClear := by decide
  have clear' : ∀ ty ∈ tys', ty.IsClear := by decide
  and_intros
  · apply imports
  · apply clear
  · apply clear'
  · decide
  · rw [Ne, (descriptors_unambiguous imports).1 tys tys' clear clear']
    decide

/-- An imported class named `String` cannot be told from the class of strings. -/
example :
  let u : ClassUnit := ⟨"A", none, ["java.lang.String"], [], []⟩
  u.descriptor (.object "String") = u.descriptor .string
  := by decide

end StackBackend
