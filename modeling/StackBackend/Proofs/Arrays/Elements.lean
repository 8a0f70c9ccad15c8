import StackBackend.Proofs.Execution.Lenient
import StackBackend.Proofs.Kinds.Signature

/-!
# The elements of arrays

An array is made for elements of one sort: integers, booleans or references. The machine has instructions
of its own to get at the elements of each, and what an array holds can be told from the instruction that
made it, whose text names the elements. An array of references may stand in for one of a wider sort, as any
array does for an object; this never takes it from one of the three sorts to another.
-/

namespace StackBackend

/-- What an array holds: integers, booleans, objects, or arrays of one kind of element. -/
inductive Element where
  | int
  | bool
  | object
  | array (elem : Element)
deriving DecidableEq, Repr

namespace Element

/-- The letter that the instructions on such elements begin with. -/
def letter : Element → String
  | int => "i"
  | bool => "b"
  | object | array _ => "a"

/-- The instruction that gets an element. -/
def load (e : Element) : String := e.letter ++ "aload"

/-- The instruction that sets an element. -/
def store (e : Element) : String := e.letter ++ "astore"

/-- What an element is held as. -/
def kind : Element → Kind
  | int | bool => .int
  | object | array _ => .ref

/-- Elements of a type. -/
def ofTy : Ty → Element
  | .int => int
  | .bool => bool
  | .array elem => array (ofTy elem)
  | .string | .void | .object _ => object

/-- The kind of an element is that of its type. -/
@[simp]
theorem kind_ofTy (ty : Ty) :
  (ofTy ty).kind = .ofTy ty
  := by
  cases ty <;> rfl

/-- Elements of a descriptor. -/
def ofDescriptor : List Char → Element
  | 'I' :: _ => int
  | 'Z' :: _ => bool
  | '[' :: cs => array (ofDescriptor cs)
  | _ => object

/-- Elements that are references, by the text that names their class. -/
def ofPath : List Char → Element
  | '[' :: cs => array (ofDescriptor cs)
  | _ => object

/-- Values of the first sort may stand for values of the second: an array is an object, and an array of
elements that may stand for others may stand for an array of these. -/
inductive Suits : Element → Element → Prop where
  | refl (e : Element) : Suits e e
  | object (e : Element) : Suits (array e) object
  | array {e f : Element} (suits : Suits e f) : Suits (array e) (array f)

namespace Suits

variable {e f g : Element}

/-- What suits a type suits what that type suits. -/
theorem trans (first : Suits e f) (second : Suits f g) :
  Suits e g
  := by
  induction first generalizing g with
  | refl => apply second
  | object e =>
      cases second with
      | refl => apply Element.Suits.object e
  | array suits ih =>
      cases second with
      | refl => apply Element.Suits.array suits
      | object => apply Element.Suits.object
      | array suits' => apply Element.Suits.array (ih suits')

theorem of_array (suits : Suits (.array e) (.array f)) :
  Suits e f
  := by
  cases suits with
  | refl => apply Element.Suits.refl e
  | array suits => apply suits

/-- What may stand for another is held in the same way. -/
theorem kind_eq (suits : Suits e f) :
  e.kind = f.kind
  := by
  cases suits with
  | refl | object | array => rfl

end Suits

end Element

namespace ClassUnit

variable (u : ClassUnit)

/-- The element that a descriptor names. -/
theorem element_descriptor (ty : Ty) :
  Element.ofDescriptor (u.descriptor ty).toList = .ofTy ty
  := by
  induction ty with
  | array elem ih => simp [descriptor, Element.ofDescriptor, Element.ofTy, ih]
  | int | bool | string | void | object => simp [descriptor, Element.ofDescriptor, Element.ofTy]

variable {u : ClassUnit}

/-- The class of references is that of their type. -/
theorem element_classPath (imports : ∀ path ∈ u.imports, IsPath path) {ty : Ty} (proper : ty.IsProper)
    (reference : Kind.ofTy ty = .ref) :
  Element.ofPath (u.classPath ty).toList = .ofTy ty
  := by
  cases ty with
  | int | bool => simp [Kind.ofTy, Ty.isIntLike] at reference
  | string | void => simp [classPath, Element.ofPath, Element.ofTy]
  | array elem => simp [classPath, descriptor, Element.ofPath, Element.ofTy, element_descriptor]
  | object name =>
      simp only [classPath, Element.ofTy]
      unfold Element.ofPath
      split
      · next cs chars =>
          have plain : IsPlain '[' := resolve_isPlain imports proper '[' (by simp [chars])
          apply (isPlain_ne plain (by decide) rfl).elim
      · rfl

end ClassUnit

/-- The type of the elements, if the type is one of arrays. -/
def Ty.elem? : Ty → Option Ty
  | array elem => some elem
  | _ => none

/-! ### Actions on arrays -/

namespace Action

/-- The elements of the array that an action makes. -/
def makes? : Action → Option Element
  | newArray elem => if elem = "int" then some .int else if elem = "boolean" then some .bool else none
  | newRefArray path => some (.ofPath path.toList)
  | _ => none

/-- What an action gives, by the descriptor in its text. -/
def returns? : Action → Option Element
  | invoke _ target => some (.ofDescriptor (afterLast ')' target.toList))
  | getField _ desc => some (.ofDescriptor desc.toList)
  | _ => none

end Action

/-- The values of a domain that are arrays, each with its elements: a new array has those it is made for,
elements are got of arrays alone, and what calls, fields and arrays give are arrays only as their descriptors
and elements allow. -/
structure Domain.Arrays (D : Domain) where
  /-- The elements of the array that a value is. -/
  elem? : D.Value → Option Element
  int : ∀ n, elem? (D.int n) = none
  made : ∀ {a : Action} {args : List D.Value} {h h' : D.Heap} {v : D.Value} {e : Element},
    D.act a args h = .ok (v, h') → a.makes? = some e → elem? v = some e
  returned : ∀ {a : Action} {args : List D.Value} {h h' : D.Heap} {v : D.Value} {e d : Element},
    D.act a args h = .ok (v, h') → a.returns? = some e → elem? v = some d → (Element.array d).Suits e
  loaded : ∀ {kind : Kind} {w : D.Value} {args : List D.Value} {h h' : D.Heap} {v : D.Value},
    D.act (.arrayLoad kind) (w :: args) h = .ok (v, h') →
      ∃ e, elem? w = some e ∧ ∀ d, elem? v = some d → (Element.array d).Suits e

namespace Domain.Arrays

variable {D : Domain} (arrays : D.Arrays)

/-- The same arrays with other comparisons. -/
def comparing (test : (Int32 → Bool) → D.Value → D.Heap → Except Fault (Bool × D.Heap))
    (compare : (Int32 → Int32 → Bool) → D.Value → D.Value → D.Heap → Except Fault (Bool × D.Heap)) :
    (D.comparing test compare).Arrays where
  elem? := arrays.elem?
  int := arrays.int
  made := arrays.made
  returned := arrays.returned
  loaded := arrays.loaded

/-- The value is no array of other elements than the type has, if it is one of arrays. -/
def Has (v : D.Value) : Ty → Prop
  | .array elem => ∀ d, arrays.elem? v = some d → d.Suits (.ofTy elem)
  | _ => True

/-- The request, if it gets or sets an element of an array, does so by the kind of its elements. -/
def Matches (q : Request D.Value) : Prop :=
  ∀ kind, q.action = .arrayLoad kind ∨ q.action = .arrayStore kind →
    ∀ v ∈ q.args.head?, ∀ e, arrays.elem? v = some e → kind = e.kind

variable {arrays}

/-- A value is of a type if the array it is suits the type. -/
theorem has_of_suits {v : D.Value} {ty : Ty}
    (suits : ∀ d, arrays.elem? v = some d → (Element.array d).Suits (.ofTy ty)) :
  arrays.Has v ty
  := by
  cases ty with
  | array elem =>
      intro d array
      apply (suits d array).of_array
  | int | bool | string | void | object => trivial

/-- A value that is no array is of every type. -/
theorem has_of_none {v : D.Value} (none : arrays.elem? v = none) (ty : Ty) :
  arrays.Has v ty
  := by
  apply has_of_suits
  intro d array
  simp [none] at array

/-- Types with the same elements have the same arrays. -/
theorem Has.of_elem?_eq {v : D.Value} {ty ty' : Ty} (has : arrays.Has v ty) (same : ty.elem? = ty'.elem?) :
  arrays.Has v ty'
  := by
  cases ty' with
  | int | bool | string | void | object => trivial
  | array elem =>
      cases ty with
      | int | bool | string | void | object => simp [Ty.elem?] at same
      | array elem' =>
          obtain rfl : elem' = elem := by simpa [Ty.elem?] using same
          apply has

end Domain.Arrays

end StackBackend
