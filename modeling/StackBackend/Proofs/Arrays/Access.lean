import StackBackend.Proofs.Arrays.Program
import StackBackend.Proofs.Lowering.Preservation

/-!
# Access to arrays

Whenever the code of a uniform method gets at an element, the instruction is the one for what the array
holds, for integers as for references, and however the array came to the place: made by the method, passed to
it, taken from a field, a call or another array. The one exception are booleans: an array made for booleans
is read and written by the instructions for integers.
-/

namespace StackBackend

/-! ### Arrays that come in -/

section Receives

variable {D : Domain} {m : Method} {arrays : D.Arrays} {slots : Nat → D.Value}

/-- An array comes into a method as a parameter alone, in its slot and as its type allows. -/
def Method.Receives (m : Method) (arrays : D.Arrays) (slots : Nat → D.Value) : Prop :=
  ∀ n e, arrays.elem? (slots n) = some e →
    ∃ j p, m.params[j]? = some p ∧ n = m.paramBase + j ∧ (Element.array e).Suits (.ofTy p.ty)

/-- A variable in the slot of a parameter is that parameter. -/
theorem Method.Numbers.name_eq {owner x : String} {v : Variable} (numbered : m.Numbers owner x v) {j : Nat}
    {p : Param} (declared : m.params[j]? = some p) (slot : v.slot = m.paramBase + j) :
  p.name = x
  := by
  obtain ⟨inside, -⟩ := List.getElem?_eq_some_iff.1 declared
  cases numbered with
  | receiver instance' alone =>
      have base : m.paramBase = 1 := by simp [paramBase, instance']
      simp only [base] at slot
      omega
  | @parameter k q declared' last =>
      obtain rfl : k = j := by simpa using slot
      rw [declared] at declared'
      rw [Option.some.inj declared']
  | temporary appears =>
      simp only at slot
      omega

/-- What is fetched is in the cell of an address. -/
theorem fetch_eq_ok {α : Type} {address : String → Option α} {cells : α → D.Value} {x : String} {v : D.Value}
    (fetched : fetch address cells x = .ok v) :
  ∃ a, address x = some a ∧ v = cells a
  := by
  unfold fetch at fetched
  split at fetched
  · next a found => use a, found, (Except.ok.inj fetched).symm
  · cases fetched

/-- At the start of a method its parameters hold arrays of their types: an array there is that of a parameter,
and the variable in its slot is the parameter. -/
theorem Method.Receives.holdsArrays (receives : m.Receives arrays slots) (uniform : m.IsUniform)
    {owner : String} (numbers : ∀ x v, m.vars[x]? = some v → m.Numbers owner x v) :
  m.HoldsArrays arrays slots
  := by
  intro x ty w typed read
  obtain ⟨n, slot, rfl⟩ := fetch_eq_ok read
  obtain ⟨v, entry, rfl⟩ := Option.map_eq_some_iff.1 slot
  cases array : arrays.elem? (slots v.slot) with
  | none => apply Domain.Arrays.has_of_none array ty
  | some e =>
      obtain ⟨j, p, declared, at_slot, suits⟩ := receives v.slot e array
      obtain rfl := (numbers x v entry).name_eq declared at_slot
      have incoming := Method.param_mem_typings (List.mem_of_getElem? declared)
      have has : arrays.Has (slots v.slot) p.ty := by
        apply Domain.Arrays.has_of_suits
        intro d array'
        obtain rfl : e = d := by simpa [array] using array'
        apply suits
      apply has.of_elem?_eq (uniform _ incoming _ typed rfl)

end Receives

/-! ### The code of a method -/

section Code

variable {text : String} {u : ClassUnit} {m : Method} {code : MethodCode} {W : World}
  {arrays : W.domain.Arrays} {slots : Nat → W.domain.Value} {heap : W.domain.Heap}

/-- The code of a uniform method gets and sets elements by the kind of what the array holds. The lines behave
as the program only where references can be compared, since a comparison with the text "0" is lowered to a
test. -/
theorem requests_matches (read : parse text = .ok u) (mem : m ∈ u.methods) (uniform : m.IsUniform)
    (coded : u.methodCode m = .ok code) (receives : m.Receives arrays slots)
    {tr : List (Request W.domain.Value)}
    (emits : (machine W.domain code.listing.lines).automaton.Emits ⟨0, ⟨[], slots⟩, heap⟩ tr) :
  ∀ q ∈ tr, arrays.Matches q
  := by
  obtain ⟨imports, declared⟩ := declared_of_parse read
  have declared := declared m mem
  obtain ⟨body, left, f, f', made⟩ := u.methodCode_eq_ok coded
  have same := made.sameBehaviour_of_zeroIn W.lenient_lawful declared.labelled
    (fun _ _ e _ => W.zeroIn_lenient e) (fun _ _ _ _ => rfl) slots heap
  have emits := (same.emits tr).1 (emits_comparing W.admits_lenient emits)
  have numbers : ∀ x v, m.vars[x]? = some v → m.Numbers u.name x v := by
    intro x v entry
    rw [vars_of_parse read mem] at entry
    apply getElem?_variableTable.1 entry
  have receives : m.Receives (D := W.lenient) (arrays.comparing _ _) slots := receives
  have holds := receives.holdsArrays uniform numbers
  apply program_matches imports uniform declared.isApart declared.proper holds emits

/-- An instruction that is left to the surroundings makes its request, on the values on top of the stack. -/
theorem mem_step_of_action {D : Domain} {lines : List Line} {s : State D (Activation D.Value)} {i : Inst}
    {act : Action} {rest : List D.Value} {pushes : Nat} (args : List D.Value)
    (line : lines[s.index]? = some (.inst i)) (action : i.action? = some (act, args.length, pushes))
    (stack : s.data.stack = args.reverse ++ rest) :
  ⟨act, args⟩ ∈ ((machine D lines).automaton.step s).1
  := by
  have data : s.data = ⟨args.reverse ++ rest, s.data.slots⟩ := by rw [← stack]
  simp only [Control.automaton, perform_line line, Line.exec]
  rw [data, Inst.exec_action action, map_bind, Eff.bind_apply, Eff.act]
  rcases D.act act args s.heap with e | ⟨v, h⟩
  · simp [Control.settle]
  · simp [Control.settle, Control.follow]

end Code

/-- The letter of an instruction on elements of a kind is that for the elements of the array, but for booleans
that for integers. -/
theorem Element.letter_kind (e : Element) :
  e.kind.letter = (if e = .bool then .int else e : Element).letter
  := by
  cases e <;> rfl

/-! ### A world of arrays -/

/-- What an action gives is given by the world. -/
theorem World.act_of_domain {W : World} {a : Action} {args : List W.domain.Value} {h h' : W.domain.Heap}
    {v : W.domain.Value} (given : W.domain.act a args h = .ok (v, h')) :
  W.act a args h = some (v, h')
  := by
  simp only [World.domain] at given
  split at given
  · next result done =>
      cases given
      apply done
  · cases given

/-- A world in which a reference is known by the elements of the array it stands for, if it stands for one. -/
def World.sorts : World where
  Ref := Option Element
  Heap := Unit
  text _ := none
  act
    | .arrayLoad _, .ref (some e) :: _, _ =>
        match e with
        | .int | .bool => some (.int 0, ())
        | .object => some (.ref none, ())
        | .array d => some (.ref (some d), ())
    | .arrayStore _, _, _ => some (.int 0, ())
    | a, _, _ => a.makes?.map fun e => (.ref (some e), ())

namespace World.sorts

instance : DecidableEq sorts.domain.Value := inferInstanceAs (DecidableEq (Datum (Option Element)))

/-- The arrays of the world. -/
def arrays : sorts.domain.Arrays where
  elem?
    | .ref r => r
    | .int _ => none
  int _ := rfl
  made := by
    intro a args h h' v e given makes
    have given := act_of_domain given
    cases a with
    | newArray | newRefArray =>
        simp only [sorts, makes, Option.map_some] at given
        cases given
        rfl
    | invoke | new | arrayLoad | arrayStore | arrayLength | getField | putField =>
        simp [Action.makes?] at makes
  returned := by
    intro a args h h' v e d given returns
    have given := act_of_domain given
    cases a with
    | invoke | getField => simp [sorts, Action.makes?] at given
    | new | newArray | newRefArray | arrayLoad | arrayStore | arrayLength | putField =>
        simp [Action.returns?] at returns
  loaded := by
    intro kind w args h h' v given
    have given := act_of_domain given
    rcases w with x | _ | e
    · simp [sorts, Action.makes?] at given
    · simp [sorts, Action.makes?] at given
    · use e, rfl
      intro d array
      cases e with
      | int | bool =>
          cases given
          cases array
      | object => apply Element.Suits.object d
      | array d' =>
          cases given
          cases array
          apply Element.Suits.refl

/-- Whether the class of a text has first a uniform static method with the parameters, whose code gets in `n`
steps from the slots, with the requests `tr`, to the instruction and the stack. -/
def getsTo (text : String) (params : List Param) (slots : Nat → sorts.domain.Value) (n : Nat)
    (tr : List (Request sorts.domain.Value)) (i : Inst) (stack : List sorts.domain.Value) : Bool :=
  (parse text).toOption.any fun u => u.methods[0]?.any fun m => (u.methodCode m).toOption.any fun code =>
    decide (m.IsUniform ∧ m.isStatic = true ∧ m.params = params)
      && match (machine sorts.domain code.listing.lines).automaton.run n ⟨0, ⟨[], slots⟩, ()⟩ with
        | (made, .inl s) => decide (made = tr ∧ code.listing.lines[s.index]? = some (.inst i)
            ∧ s.data.stack = stack)
        | _ => false

/-- A run that has been computed. -/
theorem of_getsTo {text : String} {params : List Param} {slots : Nat → sorts.domain.Value} {n : Nat}
    {tr : List (Request sorts.domain.Value)} {i : Inst} {stack : List sorts.domain.Value}
    (gets : getsTo text params slots n tr i stack = true) :
  ∃ u m code s, parse text = .ok u ∧ m ∈ u.methods ∧ m.IsUniform ∧ m.isStatic = true ∧ m.params = params
    ∧ u.methodCode m = .ok code
    ∧ (machine sorts.domain code.listing.lines).automaton.Reaches n ⟨0, ⟨[], slots⟩, ()⟩ tr s
    ∧ code.listing.lines[s.index]? = some (.inst i) ∧ s.data.stack = stack
  := by
  simp only [getsTo, Option.any_eq_true, Bool.and_eq_true, decide_eq_true_eq] at gets
  obtain ⟨u, read, m, first, code, coded, ⟨uniform, static, params⟩, ran⟩ := gets
  split at ran
  · next made s reached =>
      obtain ⟨rfl, line, stack⟩ := of_decide_eq_true ran
      use u, m, code, s, eq_ok_of_toOption read, List.mem_of_getElem? first, uniform, static, params,
        eq_ok_of_toOption coded, reached, line, stack
  · simp at ran

end World.sorts

/-! ### Accesses -/

/-- Whenever the code of a uniform method gets or sets an element of an array, the instruction is the one for
the elements that the array was made with; but for booleans it is the one for integers. -/
theorem access_matches_elements {text : String} {u : ClassUnit} (read : parse text = .ok u) {m : Method}
    (mem : m ∈ u.methods) (uniform : m.IsUniform) {code : MethodCode} (coded : u.methodCode m = .ok code)
    (W : World) (arrays : W.domain.Arrays) {slots : Nat → Datum W.Ref} (receives : m.Receives arrays slots)
    {heap : W.Heap} {n : Nat} {tr : List (Request (Datum W.Ref))}
    {s : State W.domain (Activation (Datum W.Ref))}
    (reached : (machine W.domain code.listing.lines).automaton.Reaches n ⟨0, ⟨[], slots⟩, heap⟩ tr s)
    {v : Datum W.Ref} {e : Element} (array : arrays.elem? v = some e) :
  (∀ kind index rest, code.listing.lines[s.index]? = some (.inst (.arrayLoad kind)) →
      s.data.stack = index :: v :: rest →
      (Inst.arrayLoad kind).text = (if e = .bool then .int else e : Element).load)
    ∧ ∀ kind w index rest, code.listing.lines[s.index]? = some (.inst (.arrayStore kind)) →
      s.data.stack = w :: index :: v :: rest →
      (Inst.arrayStore kind).text = (if e = .bool then .int else e : Element).store
  := by
  have matched := requests_matches read mem uniform coded receives reached.emits
  constructor
  · intro kind index rest line stack
    have made := mem_step_of_action [v, index] line rfl stack
    have same := matched _ (List.mem_append_right tr made) kind (.inl rfl) v rfl e array
    calc (Inst.arrayLoad kind).text
      _ = kind.letter ++ "aload" := rfl
      _ = (if e = .bool then .int else e : Element).load := by rw [same, e.letter_kind, Element.load]
  · intro kind w index rest line stack
    have made := mem_step_of_action [v, index, w] line rfl stack
    have same := matched _ (List.mem_append_right tr made) kind (.inr rfl) v rfl e array
    calc (Inst.arrayStore kind).text
      _ = kind.letter ++ "astore" := rfl
      _ = (if e = .bool then .int else e : Element).store := by rw [same, e.letter_kind, Element.store]

/-- A class with a method that takes an array out of another and writes to it. -/
def nestedText : String :=
  "A\x7b.method static f(p.array.array.i32).V\x7ba.array.i32:=.array.i32 p[0.i32].array.i32;"
    ++ "a[1.i32].i32:=.i32 7.i32;\x7d\x7d"

/-- Slots with an array of arrays in the first one. -/
def nestedSlots (n : Nat) : Datum (Option Element) := if n = 0 then .ref (some (.array .int)) else .int 0

/-- The code loads from the array of arrays and stores to the one that is taken out. -/
theorem nested_access_matches :
  ∃ u m code s, parse nestedText = .ok u ∧ m ∈ u.methods ∧ m.IsUniform ∧ u.methodCode m = .ok code
    ∧ m.Receives World.sorts.arrays nestedSlots
    ∧ (machine World.sorts.domain code.listing.lines).automaton.Reaches 7 ⟨0, ⟨[], nestedSlots⟩, ()⟩
      [⟨.arrayLoad .ref, [.ref (some (.array .int)), .int 0]⟩] s
    ∧ code.listing.lines[s.index]? = some (.inst (.arrayStore .int))
    ∧ s.data.stack = [.int 7, .int 1, .ref (some .int)]
    ∧ (Inst.arrayStore .int).text = Element.int.store
  := by
  have checked : World.sorts.getsTo nestedText [⟨"p", .array (.array .int)⟩] nestedSlots 7
      [⟨.arrayLoad .ref, [.ref (some (.array .int)), .int 0]⟩] (.arrayStore .int)
      [.int 7, .int 1, .ref (some .int)] = true := by
    decide +kernel
  obtain ⟨u, m, code, s, read, mem, uniform, static, params, coded, reached, line, stack⟩ :=
    World.sorts.of_getsTo checked
  have receives : m.Receives World.sorts.arrays nestedSlots := by
    intro n e array
    cases n with
    | zero =>
        obtain rfl : Element.array .int = e := by simpa [nestedSlots, World.sorts.arrays] using array
        exact ⟨0, ⟨"p", .array (.array .int)⟩, by rw [params]; rfl, by simp [Method.paramBase, static], .refl _⟩
    | succ n => cases array
  have matched := access_matches_elements read mem uniform coded World.sorts World.sorts.arrays receives
    reached (v := .ref (some .int)) rfl
  use u, m, code, s, read, mem, uniform, coded, receives, reached, line, stack
  apply matched.2 .int (.int 7) (.int 1) [] line stack

/-- A class with a method that makes an array of booleans and writes to it. -/
def flagsText : String :=
  "A\x7b.method static f(n.i32).V\x7ba.array.bool:=.array.bool new(array,n.i32).array.bool;"
    ++ "a[0.i32].bool:=.bool true.bool;\x7d\x7d"

/-- An array of booleans is not written to by the instruction for booleans. -/
theorem flags_stored_as_integers :
  ∃ u m code s, parse flagsText = .ok u ∧ m ∈ u.methods ∧ m.IsUniform ∧ u.methodCode m = .ok code
    ∧ m.Receives World.sorts.arrays (fun _ => .int 1)
    ∧ (machine World.sorts.domain code.listing.lines).automaton.Reaches 6 ⟨0, ⟨[], fun _ => .int 1⟩, ()⟩
      [⟨.newArray "boolean", [.int 1]⟩] s
    ∧ code.listing.lines[s.index]? = some (.inst (.arrayStore .int))
    ∧ s.data.stack = [.int 1, .int 0, .ref (some .bool)]
    ∧ (Inst.arrayStore .int).text ≠ Element.bool.store
  := by
  have checked : World.sorts.getsTo flagsText [⟨"n", .int⟩] (fun _ => .int 1) 6
      [⟨.newArray "boolean", [.int 1]⟩] (.arrayStore .int) [.int 1, .int 0, .ref (some .bool)] = true := by
    decide +kernel
  obtain ⟨u, m, code, s, read, mem, uniform, -, -, coded, reached, line, stack⟩ :=
    World.sorts.of_getsTo checked
  have receives : m.Receives World.sorts.arrays (fun _ => .int 1) := by
    intro n e array
    cases array
  use u, m, code, s, read, mem, uniform, coded, receives, reached, line, stack
  decide

end StackBackend
