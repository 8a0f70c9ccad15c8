import StackBackend.Proofs.Kinds.Lines
import StackBackend.Proofs.Kinds.Machine
import StackBackend.Proofs.Kinds.Program
import StackBackend.Proofs.Source.Methods

/-!
# The code of a well-kinded method

In the code of a well-kinded method that reads no variable before it is written, every instruction finds
values of the kinds it takes, on every path through the lines and whatever slots were allocated. The
machine behaves as the method run by names, on the domain of kinds as on every other, and there the
method has no fault.
-/

namespace StackBackend

open Domain (kinds)

/-! ### Variables that are written -/

section Located

variable {u : ClassUnit} {m : Method} {s t : LabelSupply} {lines : List Line}

/-- An instruction that has code writes to a variable with a slot. -/
theorem Site.isSome_slotOf_of_lower {i : Instr} (written : (Site.lower ⟨u, m, i⟩).Writes s lines () t)
    {x : String} (defined : x ∈ i.defs) :
  (m.slotOf x).isSome
  := by
  obtain ⟨ty, target⟩ := Instr.mem_defs.1 defined
  cases i with
  | assign dest ty' rhs =>
      obtain rfl : dest = .var x ty := by simpa [Instr.target?] using target
      simp only [lower, assign] at written
      split at written
      · next name v found =>
          obtain ⟨same, -⟩ := increment?_eq_some found
          cases same
          obtain ⟨_, n, _, _, slot, -⟩ := written.of_bind
          obtain ⟨-, -, slot⟩ := slot_writes slot
          simp [slot]
      · obtain ⟨_, _, _, _, -, written, -⟩ := written.of_bind
        obtain ⟨_, n, _, _, slot, -⟩ := written.of_bind
        obtain ⟨-, -, slot⟩ := slot_writes slot
        simp [slot]
  | single | binary | unary | ret | call | new | getField | putField | goto | branch | arrayLength =>
      simp [Instr.target?] at target

/-- Each instruction of a body that is lowered is lowered. -/
theorem ClassUnit.exists_lower_of_lowerFrom {index : Nat} {is : List Instr}
    (written : (u.lowerFrom m index is).Writes s lines () t) {i : Instr} (mem : i ∈ is) :
  ∃ s' lines' t', (Site.lower ⟨u, m, i⟩).Writes s' lines' () t'
  := by
  induction is generalizing index s lines with
  | nil => simp at mem
  | cons i' is ih =>
      obtain ⟨_, _, _, _, -, written, -⟩ := written.of_bind
      obtain ⟨l₁, _, t₁, l₂, first, rest, -⟩ := written.of_bind
      obtain rfl | mem := List.mem_cons.1 mem
      · exact ⟨_, _, _, first⟩
      · apply ih rest mem

/-- The variables that a method with code defines have slots. -/
theorem MethodCode.Made.isSome_slotOf {code : MethodCode} {body : List Line} {left : LabelSupply}
    {f f' : Frame} (made : Made u m code body left f f') :
  ∀ i ∈ m.body, ∀ x ∈ i.defs, (m.slotOf x).isSome
  := by
  intro i mem x defined
  obtain ⟨s, lines, t, written⟩ := u.exists_lower_of_lowerFrom made.writes mem
  apply Site.isSome_slotOf_of_lower written defined

end Located

/-! ### Kinds at the start -/

namespace Method

variable {m : Method} {κ : String → Kind}

/-- The kinds that come into a method: that of the receiver, unless it is static, and those of the
parameters. -/
def entryKinds (m : Method) : List Kind :=
  (if m.isStatic then [] else [.ref]) ++ m.params.map fun p => .ofTy p.ty

/-- At the start the stack is empty, and the slots hold what comes into the method. -/
def entryShape (m : Method) : Shape := ⟨[], fun slot => m.entryKinds[slot]?⟩

/-- A variable that may be read before it is written is a parameter or the receiver. -/
def WritesFirst (m : Method) : Prop :=
  ∀ x, LiveAt m.flowNodes x 0 → (∃ p ∈ m.params, p.name = x) ∨ m.isStatic = false ∧ x = "this"

instance (m : Method) : Decidable m.WritesFirst :=
  decidable_of_iff (∀ x ∈ (m.liveness.sets.beforeAt 0).toList,
      (∃ p ∈ m.params, p.name = x) ∨ m.isStatic = false ∧ x = "this") (by
    simp only [Std.ExtTreeSet.mem_toList, liveness,
      mem_livenessInOrder_before m.mem_reverse_range_body, WritesFirst])

/-- What comes into a well-kinded method under a name is of the kind of the name. -/
theorem entryKinds_of_incoming (typed : m.WellKinded κ) {x : String} {v : Variable}
    (incoming : Incoming m.isStatic m.params x v) :
  m.entryKinds[v.slot]? = some (κ x)
  := by
  obtain ⟨instance', rfl, first, -, alone⟩ | ⟨j, p, at_j, rfl, -, slot⟩ := incoming
  · simp [entryKinds, instance', first, typed.receiver instance' alone]
  · have param := typed.params p (List.mem_of_getElem? at_j)
    cases static : m.isStatic <;> simp [entryKinds, static, slot, at_j, param]

end Method

/-! ### Slots within a budget -/

/-- The method with its slots allocated within the budget; a negative budget allocates nothing. -/
def Method.within (m : Method) (k : Int) : Method := if k < 0 then m else m.allocated k.toNat

/-- Allocation allocates each method in its place. -/
theorem ClassUnit.getElem?_allocate (u : ClassUnit) (k : Int) (n : Nat) :
  (u.allocate k).methods[n]? = u.methods[n]?.map fun m => m.within k
  := by
  have each (m : Method) :
      ((if k < 0 then none else m.allocate k.toNat).map MethodAllocation.method).getD m = m.within k := by
    unfold Method.within
    split <;> rfl
  simp only [allocate, allocation, ClassAllocation.result, List.getElem?_map, Option.map_map,
    Function.comp_def, each]

namespace Method

variable {m : Method} {k : Int} {κ : String → Kind}

/-- Allocation changes the table of a method alone. -/
theorem within_with_vars (m : Method) (k : Int) :
  m.within k = { m with vars := (m.within k).vars }
  := by
  unfold within
  split
  · rfl
  · apply m.allocated_with_vars k.toNat

/-- A pinned variable keeps its slot. -/
theorem slotOf_within_of_pinned (body : m.body ≠ []) {x : String} {v : Variable}
    (entry : m.vars[x]? = some v) (pinned : v.isPinned = true) :
  (m.within k).slotOf x = some v.slot
  := by
  unfold within
  split
  · rw [slotOf, entry, Option.map_some]
  · apply slotOf_allocated_of_pinned body
    apply VarTable.pinnedSlot?_eq_some.2
    use v, entry

/-- The slots of a declared method keep live variables apart, before and after allocation. -/
theorem Declared.separates (declared : m.Declared)
    (located : ∀ i ∈ m.body, ∀ x ∈ i.defs, ((m.within k).slotOf x).isSome) :
  m.Separates (m.within k).slotOf
  := by
  unfold within at located ⊢
  split
  · next negative =>
      rw [if_pos negative] at located
      use located
      intro index i next x y at_index written _ _ different
      obtain ⟨n, slot⟩ :=
        Option.isSome_iff_exists.1 (located i (List.mem_of_getElem? at_index) x written)
      rw [slot]
      intro slot'
      obtain ⟨v, entry, rfl⟩ := Option.map_eq_some_iff.1 slot
      obtain ⟨w, entry', same⟩ := Option.map_eq_some_iff.1 slot'.symm
      apply different (declared.apart x y v w entry entry' same.symm)
  · next budget =>
      rw [if_neg budget] at located
      apply separates_of_located declared.unfielded _ located
      intro x y n px py
      obtain ⟨v, entry, -, rfl⟩ := VarTable.pinnedSlot?_eq_some.1 px
      obtain ⟨w, entry', -, same⟩ := VarTable.pinnedSlot?_eq_some.1 py
      apply declared.apart x y v w entry entry' same.symm

/-- At the start the variables that may be read hold values of their kinds, by name and by slot. -/
theorem Declared.agreeAt_start (declared : m.Declared) (typed : m.WellKinded κ)
    (first : m.WritesFirst) :
  m.AgreeAt (D := kinds) some (m.within k).slotOf 0 (fun x => some (κ x)) m.entryShape.slots
  := by
  intro x live
  have body : m.body ≠ [] := List.length_pos_iff.1 (lt_length_of_liveAt live)
  obtain ⟨v, entry, pinned⟩ := declared.pinned x (first x live)
  have kind := entryKinds_of_incoming typed (declared.incoming x v entry pinned)
  simp only [fetch, slotOf_within_of_pinned body entry pinned, entryShape, kind]

end Method

/-! ### Paths -/

section Safety

variable {κ : String → Kind} {e : Operand} {i : Instr}

/-- An operand of the kind of integers has such a type. -/
theorem Operand.Has.isIntLike (has : e.Has κ .int) :
  e.ty.isIntLike = true
  := by
  have kind : Kind.ofTy e.ty = .int := has.2
  cases like : e.ty.isIntLike with
  | true => rfl
  | false => simp [Kind.ofTy, like] at kind

/-- What a well-kinded instruction compares are integers. -/
theorem Instr.WellKinded.comparands (typed : i.WellKinded κ) :
  ∀ e ∈ i.comparands, e.ty.isIntLike = true
  := by
  induction i with
  | assign dest ty rhs ih => apply ih typed.2.1
  | binary op lhs rhs ty =>
      intro e mem
      simp only [Instr.comparands] at mem
      split at mem
      · obtain rfl | rfl : e = lhs ∨ e = rhs := by simpa using mem
        · apply typed.1.isIntLike
        · apply typed.2.isIntLike
      · simp at mem
  | branch cond label =>
      intro e mem
      cases cond with
      | compare op lhs rhs =>
          simp only [Instr.comparands] at mem
          split at mem
          · apply (typed e mem).isIntLike
          · simp at mem
      | not | test => simp [Instr.comparands] at mem
  | single | unary | ret | call | new | getField | putField | goto | arrayLength =>
      simp [Instr.comparands]

/-- What a well-kinded instruction adds in place are integers. -/
theorem Instr.WellKinded.addends (typed : i.WellKinded κ) :
  ∀ e ∈ i.addends, Kind.ofTy e.ty = .int
  := by
  unfold Instr.addends
  split
  · next lhs rhs ty =>
      intro e mem
      obtain rfl | rfl : e = lhs ∨ e = rhs := by simpa using mem
      · apply typed.2.1.1.2
      · apply typed.2.1.2.2
  · simp

/-- The machine on the final lines of a well-kinded method has no fault for the sake of kinds. -/
theorem MethodCode.Made.kindSafe {u : ClassUnit} {m : Method} {k : Int} {code : MethodCode}
    {body : List Line} {left : LabelSupply} {f f' : Frame}
    (made : Made u (m.within k) code body left f f')
    (imports : ∀ path ∈ u.imports, IsPath path) (declared : m.Declared) (typed : m.WellKinded κ)
    (first : m.WritesFirst) :
  KindSafe code.listing.lines m.entryShape
  := by
  have same_body : (m.within k).body = m.body := by rw [m.within_with_vars k]
  have labelled : (m.within k).WellLabelled := by
    rw [m.within_with_vars k]
    use declared.labelled.nodup, declared.labelled.inside, declared.labelled.jumps
  have located := made.isSome_slotOf
  rw [same_body] at located
  have by_slot := made.sameBehaviour Domain.kinds_lawful labelled
    (by rw [same_body]; exact fun i mem => (typed.body i mem).comparands)
    (by rw [same_body]; intro i mem e summed; rw [(typed.body i mem).addends e summed])
    m.entryShape.slots
  have same_program : program u (m.within k).slotOf kinds (m.within k)
      = program u (m.within k).slotOf kinds m := by
    rw [program, program, m.within_with_vars k]
    rfl
  have by_name (answers : List Bool) : Automaton.SameBehaviour
      (program u some kinds m).automaton ⟨0, fun x => some (κ x), answers⟩
      (program u (m.within k).slotOf kinds m).automaton ⟨0, m.entryShape.slots, answers⟩ := by
    apply (Method.follows_of_separates m.separates_some (declared.separates located)).sameBehaviour
    use rfl, rfl, declared.agreeAt_start typed first
  intro answers tr e halts
  have halts := ((by_slot answers).halts tr (.fault e)).1 halts
  rw [same_program] at halts
  have halts := ((by_name answers).halts tr (.fault e)).2 halts
  apply program_safe imports typed declared.proper _ halts
  intro x _
  rfl

end Safety

/-- The code of a well-kinded method of a class that a text declares, in which no variable is read before
it is written, with the slots it was read with or with slots allocated within any budget. On every path
through its lines each instruction finds on the stack values of the kinds it takes, and an instruction that
reads a slot finds the value of its kind there that was written last. -/
theorem methodCode_kindSafe {text : String} {u : ClassUnit} (read : parse text = .ok u) {n : Nat}
    {m : Method} (declared : u.methods[n]? = some m) {κ : String → Kind} (typed : m.WellKinded κ)
    (first : m.WritesFirst) {k : Int} {m' : Method} (allocated : (u.allocate k).methods[n]? = some m')
    {code : MethodCode} (made : (u.allocate k).methodCode m' = .ok code) {p : Nat} {s : Shape}
    (path : Path code.listing.lines Inst.shape m.entryShape p s) {i : Inst}
    (here : code.listing.lines[p]? = some (.inst i)) :
  i.Finds s
  := by
  obtain ⟨imports, methods⟩ := declared_of_parse read
  have known := methods m (List.mem_of_getElem? declared)
  obtain rfl : m.within k = m' := by
    rw [u.getElem?_allocate k n, declared] at allocated
    apply Option.some.inj allocated
  obtain ⟨body, left, f, f', made⟩ := (u.allocate k).methodCode_eq_ok made
  have safe := made.kindSafe imports known typed first
  have proper : ∀ i ∈ (m.within k).body, i.IsProper := by
    rw [m.within_with_vars k]
    apply known.proper
  have nodup : ((m.within k).labels.map Prod.fst).Nodup := by
    rw [m.within_with_vars k]
    apply known.labelled.nodup
  have faithful (i : Inst) (mem : .inst i ∈ code.listing.lines) : i.IsFaithful :=
    made.isFaithful imports proper mem
  have gets := path.gets (made.final_labelNames_nodup nodup) faithful safe
  apply gets.finds safe here (faithful i (List.mem_of_getElem? here))

/-- A class with a method in which a reference and an integer are never live together. -/
def sharingText : String :=
  "A\x7b.method f(n.i32).V\x7bl:a.A:=.V new(A).A;n.i32:=.V getfield(a.A,x.i32).V;"
    ++ "b.i32:=.V n.i32*.V n.i32;if(b.i32)goto l;ret.V;\x7d\x7d"

/-- The kinds of its variables. -/
def sharingKinds (x : String) : Kind := if x = "n" ∨ x = "b" then .int else .ref

/-- The reference and the integer share a slot, and the code is safe. -/
theorem sharing_kindSafe :
  ∃ u m m' code, parse sharingText = .ok u ∧ u.methods[0]? = some m ∧ m.WellKinded sharingKinds
    ∧ m.WritesFirst ∧ (u.allocate 1).methods[0]? = some m'
    ∧ m'.slotOf "a" = some 2 ∧ m'.slotOf "b" = some 2
    ∧ (u.allocate 1).methodCode m' = .ok code
    ∧ ∀ p s, Path code.listing.lines Inst.shape m.entryShape p s →
      ∀ i, code.listing.lines[p]? = some (.inst i) → i.Finds s
  := by
  have checked : ((parse sharingText).toOption.any fun u =>
      u.methods[0]?.any (fun m => decide (m.WellKinded sharingKinds ∧ m.WritesFirst))
        && (u.allocate 1).methods[0]?.any fun m' =>
          decide (m'.slotOf "a" = some 2 ∧ m'.slotOf "b" = some 2)
            && ((u.allocate 1).methodCode m').toOption.isSome) = true := by
    decide +kernel
  rw [Option.any_eq_true] at checked
  obtain ⟨u, parsed, checked⟩ := checked
  rw [Bool.and_eq_true, Option.any_eq_true, Option.any_eq_true] at checked
  obtain ⟨⟨m, declared, typed⟩, m', allocated, coded⟩ := checked
  obtain ⟨typed, first⟩ := of_decide_eq_true typed
  rw [Bool.and_eq_true] at coded
  obtain ⟨⟨slot, slot'⟩, coded⟩ := And.imp_left of_decide_eq_true coded
  obtain ⟨code, made⟩ := Option.isSome_iff_exists.1 coded
  have parsed := eq_ok_of_toOption parsed
  have made := eq_ok_of_toOption made
  use u, m, m', code, parsed, declared, typed, first, allocated, slot, slot', made
  intro p s path i here
  apply methodCode_kindSafe parsed declared typed first allocated made path here

end StackBackend
