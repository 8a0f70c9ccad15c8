import StackBackend.Proofs.Execution.Fusion
import StackBackend.Proofs.Execution.World
import StackBackend.Proofs.Lowering.Body
import StackBackend.Proofs.Lowering.MethodCode

/-!
# The code of a method does what the method does

The lines of the body behave as the program, and fusing increments keeps their behaviour. So the machine
on the code of a method makes the same requests and ends in the same way as the program whose variables
are held in their slots, from any content of the slots and any heap, whatever the surroundings do.
-/

namespace StackBackend

variable {D : Domain} {u : ClassUnit} {m : Method} {code : MethodCode} {body : List Line}
  {left : LabelSupply} {f f' : Frame}

/-- The labels of a method differ and stand in it, and every jump names one of them. -/
structure Method.WellLabelled (m : Method) : Prop where
  nodup : (m.labels.map Prod.fst).Nodup
  inside : ∀ l ∈ m.labels, l.2 ≤ m.body.length
  jumps : ∀ i ∈ m.body, ∀ label, i.jumpLabel? = some label → label ∈ m.labels.map Prod.fst

/-- Every label has an index in the method. -/
theorem Method.WellLabelled.exists_labelIndex? (labelled : m.WellLabelled) {label : String}
    (mem : label ∈ m.labels.map Prod.fst) :
  ∃ j, m.labelIndex? label = some j ∧ j ≤ m.body.length
  := by
  obtain ⟨⟨name, j⟩, defined, rfl⟩ := List.mem_map.1 mem
  obtain ⟨⟨name', j'⟩, found⟩ : ∃ l, m.labels.find? (·.1 = name) = some l :=
    Option.isSome_iff_exists.1 (List.find?_isSome.2 ⟨(name, j), defined, by simp⟩)
  refine ⟨j', by rw [labelIndex?, found]; rfl, ?_⟩
  apply labelled.inside _ (List.mem_of_find?_eq_some found)

/-- Every jump goes to an index of the method. -/
theorem Method.WellLabelled.labelIndex?_jump (labelled : m.WellLabelled) :
  ∀ i ∈ m.body, ∀ label, i.jumpLabel? = some label →
    ∃ j, m.labelIndex? label = some j ∧ j ≤ m.body.length
  := by
  intro i mem label hl
  apply labelled.exists_labelIndex? (labelled.jumps i mem label hl)

/-- The supply of a method has its labels in use. -/
theorem LabelSupply.mem_reserved_ofLabels {labels : List String} {label : String} (mem : label ∈ labels) :
  label ∈ (ofLabels labels).reserved
  := by
  rwa [ofLabels, Std.ExtTreeSet.mem_ofList, List.contains_iff_mem]

/-- The lines of a body and its closing have different labels when the method has. -/
theorem MethodCode.Made.labelNames_nodup (made : Made u m code body left f f')
    (nodup : (m.labels.map Prod.fst).Nodup) :
  (Line.labelNames (body ++ m.closing f)).Nodup
  := by
  have none : Line.labelNames (m.closing f) = [] := by
    rw [Method.closing]
    split <;> rfl
  rw [Line.labelNames_append, none, List.append_nil]
  apply (labelNames_lowerFrom made.writes nodup fun _ => LabelSupply.mem_reserved_ofLabels).1

/-- Where control may come to the end of the body, the closing ends the run as the program does. -/
theorem MethodCode.Made.ending (made : Made u m code body left f f')
    (live : Line.ended false body = false) (a : Activation D.Value) :
  (machine D (body ++ m.closing f)).perform body.length a
    = pure (.inr (program u m.slotOf D m).atEnd)
  := by
  have open' : f.terminated = false := by
    rw [Frame.replay_terminated made.counted]
    apply live
  cases void : m.ret.isVoid with
  | true =>
      have closing : m.closing f = [.inst (.ret none)] := by simp [Method.closing, void, open']
      simp [Control.perform, machine, closing, Line.exec, Inst.exec, Control.follow, program, void]
  | false =>
      have closing : m.closing f = [] := by simp [Method.closing, void]
      simp [Control.perform, machine, closing, program, void]

/-- The lines of a body with its closing behave as the program with its variables in their slots. -/
theorem MethodCode.Made.lowered_sameBehaviour (made : Made u m code body left f f')
    (lawful : D.Lawful) (nodup : (m.labels.map Prod.fst).Nodup)
    (zeros : ∀ i ∈ m.body, ∀ e ∈ i.comparands, e.ZeroIn D)
    (sums : ∀ i ∈ m.body, ∀ e ∈ i.addends, D.check (.ofTy e.ty) = D.check .int)
    (jumps : ∀ i ∈ m.body, ∀ label, i.jumpLabel? = some label →
      ∃ j, m.labelIndex? label = some j ∧ j ≤ m.body.length)
    (slots : Nat → D.Value) (heap : D.Heap) :
  Automaton.SameBehaviour (program u m.slotOf D m).automaton ⟨0, slots, heap⟩
    (machine D (body ++ m.closing f)).automaton ⟨0, ⟨[], slots⟩, heap⟩
  := by
  have held : Holds (body ++ m.closing f) 0 body := List.prefix_append _ _
  obtain ⟨start, begins, layout⟩ := Layout.of_writes rfl (Nat.zero_le _) made.writes held
  have ending : Line.ended false ((body ++ m.closing f).take (0 + body.length)) = false →
      ∀ a : Activation D.Value, (machine D (body ++ m.closing f)).perform (0 + body.length) a
        = pure (.inr (program u m.slotOf D m).atEnd) := by
    intro live a
    rw [Nat.zero_add, List.take_left] at live
    rw [Nat.zero_add]
    apply made.ending live a
  have follows := layout.follows lawful (made.labelNames_nodup nodup) zeros sums jumps ending
  apply follows.sameBehaviour
  constructor
  · rfl
  · rfl
  · apply Nat.zero_le _
  · use 0, Nat.zero_le _, begins.symm
  · rw [layout.ended_codeStart (Nat.zero_le _), begins]
    rfl

/-- The final lines of a method behave as the program with its variables in their slots, on a domain where
comparisons with literal zeros are tests. -/
theorem MethodCode.Made.sameBehaviour_of_zeroIn (made : Made u m code body left f f')
    (lawful : D.Lawful) (labelled : m.WellLabelled)
    (zeros : ∀ i ∈ m.body, ∀ e ∈ i.comparands, e.ZeroIn D)
    (sums : ∀ i ∈ m.body, ∀ e ∈ i.addends, D.check (.ofTy e.ty) = D.check .int)
    (slots : Nat → D.Value) (heap : D.Heap) :
  Automaton.SameBehaviour (machine D code.listing.lines).automaton ⟨0, ⟨[], slots⟩, heap⟩
    (program u m.slotOf D m).automaton ⟨0, slots, heap⟩
  := by
  have fused := fuseIncrements_sameBehaviour lawful (body ++ m.closing f) ⟨[], slots⟩ heap
  have lowered := made.lowered_sameBehaviour lawful labelled.nodup zeros sums
    labelled.labelIndex?_jump slots heap
  rw [made.lines]
  apply fused.trans lowered.symm

/-- The final lines of a method behave as the program with its variables in their slots. -/
theorem MethodCode.Made.sameBehaviour (made : Made u m code body left f f')
    (lawful : D.Lawful) (labelled : m.WellLabelled)
    (ints : ∀ i ∈ m.body, ∀ e ∈ i.comparands, e.ty.isIntLike = true)
    (sums : ∀ i ∈ m.body, ∀ e ∈ i.addends, D.check (.ofTy e.ty) = D.check .int)
    (slots : Nat → D.Value) (heap : D.Heap) :
  Automaton.SameBehaviour (machine D code.listing.lines).automaton ⟨0, ⟨[], slots⟩, heap⟩
    (program u m.slotOf D m).automaton ⟨0, slots, heap⟩
  := by
  apply made.sameBehaviour_of_zeroIn lawful labelled _ sums
  intro i mem e compared
  apply Operand.zeroIn_of_isIntLike lawful (ints i mem e compared)

/-- The code of a method behaves as the method does when its instructions are run one by one with each
variable in its slot: in every world, from every content of the slots and every heap, both make the
same requests with the same arguments, and return the same value, fail alike, fall off the end or run
forever. -/
theorem methodCode_sameBehaviour (W : World) (labelled : m.WellLabelled)
    (ints : ∀ i ∈ m.body, ∀ e ∈ i.comparands, e.ty.isIntLike = true)
    (h : u.methodCode m = .ok code) (slots : Nat → Datum W.Ref) (heap : W.Heap) :
  Automaton.SameBehaviour (machine W.domain code.listing.lines).automaton ⟨0, ⟨[], slots⟩, heap⟩
    (program u m.slotOf W.domain m).automaton ⟨0, slots, heap⟩
  := by
  obtain ⟨body, left, f, f', made⟩ := u.methodCode_eq_ok h
  apply made.sameBehaviour W.domain_lawful labelled ints
  intro i _ e _
  rfl

/-- A method that takes one or nothing from its parameter until it is not positive. -/
def countdown : Method where
  name := "countdown"
  access := .everyone
  isStatic := true
  isConstructor := false
  params := [⟨"n", .int⟩]
  ret := .int
  body := [
    .branch (.compare .le (.var "n" .int) (.literal "0" .int)) "end",
    .assign (.var "t" .bool) .bool (.binary .lt (.var "n" .int) (.literal "7" .int) .bool),
    .assign (.var "n" .int) .int (.binary .sub (.var "n" .int) (.var "t" .int) .int),
    .goto "loop",
    .ret .int (some (.var "n" .int))]
  labels := [("loop", 0), ("end", 4)]
  vars := Std.ExtTreeMap.ofList
    [("n", Variable.mk .parameter 0 .int), ("t", Variable.mk .temporary 1 .bool)]

/-- The class of the method `countdown`. -/
def countdownUnit : ClassUnit := ⟨"Counter", none, [], [], [countdown]⟩

theorem countdown_wellLabelled :
  countdown.WellLabelled
  := by
  constructor
  · decide
  · decide
  · intro i mem label hl
    simp only [countdown, List.mem_cons, List.not_mem_nil, or_false] at mem
    rcases mem with rfl | rfl | rfl | rfl | rfl <;> simp_all [Instr.jumpLabel?, countdown]

theorem countdown_sameBehaviour :
  countdown.WellLabelled
    ∧ (∀ i ∈ countdown.body, ∀ e ∈ i.comparands, e.ty.isIntLike = true)
    ∧ ∃ code, countdownUnit.methodCode countdown = .ok code
      ∧ Automaton.SameBehaviour
        (machine World.barren.domain code.listing.lines).automaton ⟨0, ⟨[], fun _ => .int 9⟩, ()⟩
        (program countdownUnit countdown.slotOf World.barren.domain countdown).automaton
        ⟨0, fun _ => .int 9, ()⟩
  := by
  have ints : ∀ i ∈ countdown.body, ∀ e ∈ i.comparands, e.ty.isIntLike = true := by decide
  have coded : (countdownUnit.methodCode countdown).isOk = true := by decide +kernel
  use countdown_wellLabelled, ints
  cases h : countdownUnit.methodCode countdown with
  | error e => simp [h, Except.isOk, Except.toBool] at coded
  | ok code =>
      use code, rfl
      apply methodCode_sameBehaviour World.barren countdown_wellLabelled ints h _ _

end StackBackend
