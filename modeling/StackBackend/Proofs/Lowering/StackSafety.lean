import StackBackend.Proofs.Lowering.Heights
import StackBackend.Proofs.Lowering.MethodCode

/-!
# The operand stack of a method

When all jumps of a method go to labels of its own, the lines written for it are balanced, and they stay
so with the closing return and with increments fused. So the heights and slots in the header of its code
bound those of every run.
-/

namespace StackBackend

/-- The labels of a method. -/
def Method.IsLabel (m : Method) (name : String) : Prop := name ∈ m.labels.map Prod.fst

/-- Every jump of the method goes to one of its labels. -/
def Method.JumpsInside (m : Method) : Prop :=
  ∀ i ∈ m.body, ∀ label, i.jumpLabel? = some label → m.IsLabel label

instance (m : Method) : Decidable m.JumpsInside :=
  decidable_of_iff (∀ i ∈ m.body, ∀ label ∈ i.jumpLabel?, label ∈ m.labels.map Prod.fst) Iff.rfl

namespace ClassUnit

variable {u : ClassUnit} {m : Method}

theorem clear_start (m : Method) :
  Site.Clear m.IsLabel (.ofLabels (m.labels.map Prod.fst)) (.start m.entrySlots)
  := by
  use rfl
  constructor
  · simp [Frame.start]
  · intro label user
    simpa [LabelSupply.ofLabels, Method.IsLabel] using user
  · simp [Frame.start]

theorem closing_admits {U : String → Prop} (m : Method) (f g : Frame) :
  g.AdmitsAll U (m.closing f)
  := by
  unfold Method.closing
  split
  · constructor
    · use rfl, Nat.zero_le _
      simp [Inst.jumpLabel?]
    · intro _ _
      trivial
  · trivial

/-- The lines of a body with the closing one are balanced, as they are and with increments fused. -/
theorem closed_admits (jumps : m.JumpsInside) {f f' : Frame} {lines : List Line}
    (written : (u.lowerBody m (.ofLabels (m.labels.map Prod.fst))).1 = lines)
    (counted : (Frame.start m.entrySlots).replay lines = .ok f)
    (closed : f.replay (m.closing f) = .ok f') :
  (Frame.start m.entrySlots).AdmitsAll m.IsLabel (fuseIncrements (lines ++ m.closing f)).1
  := by
  have body := (u.lowerBody_keeps (fun _ mem => mem) jumps (clear_start m)).admits
  rw [written] at body
  apply Frame.AdmitsAll.fuseIn (e := f') _ _ (.refl _)
  · rw [Frame.admitsAll_append]
    use body
    intro g _
    apply closing_admits m f g
  · rw [Frame.replay_append_of_ok counted, closed]

/-- The code of a method has no underflow, whatever comes of it. -/
theorem methodCode_ne_underflow (jumps : m.JumpsInside) (i : Inst) :
  u.methodCode m ≠ .error (.frame (.underflow i))
  := by
  intro failed
  obtain ⟨body, written, failed | ⟨f, counted, failed | ⟨f', closed, failed⟩⟩⟩ :=
    methodCode_eq_frame failed
  · have admits := (u.lowerBody_keeps (fun _ mem => mem) jumps (clear_start m)).admits
    rw [written] at admits
    apply admits.ne_underflow i failed
  · apply (closing_admits (U := m.IsLabel) m f f).ne_underflow i failed
  · apply (closed_admits jumps written counted closed).ne_underflow i failed

/-- The lines of the code of a method are balanced. -/
theorem methodCode_balanced (jumps : m.JumpsInside) {code : MethodCode}
    (made : u.methodCode m = .ok code) :
  Balanced m.IsLabel m.entrySlots code.listing.lines code.listing.frame
  := by
  obtain ⟨body, left, f, f', made⟩ := methodCode_eq_ok made
  constructor
  · rw [made.lines]
    have written : (u.lowerBody m (.ofLabels (m.labels.map Prod.fst))).1 = body := by
      rw [made.writes]
    apply closed_admits jumps written made.counted made.closed
  · apply made.recounted

/-- The lines of the first instructions begin those of the body. -/
theorem lowerRow_prefix (u : ClassUnit) (m : Method) (n : Nat) (s : LabelSupply) :
  (u.lowerRow m 0 (m.body.take n) s).1 <+: (u.lowerBody m s).1
  := by
  have parts := u.lowerFrom_append m 0 (m.body.take n) (m.body.drop n)
  rw [List.take_append_drop] at parts
  rw [lowerBody, parts, Emit.bind_apply]
  rcases u.lowerRow m 0 (m.body.take n) s with ⟨lines, e | ⟨a, t⟩⟩
  · apply List.prefix_rfl
  · apply List.prefix_append lines _

/-- The stack is empty after the lines of the first instructions. -/
theorem lowerRow_height (jumps : m.JumpsInside) {n : Nat} {lines : List Line} {t : LabelSupply}
    {f : Frame}
    (written : (u.lowerRow m 0 (m.body.take n)).Writes (.ofLabels (m.labels.map Prod.fst)) lines () t)
    (counted : (Frame.start m.entrySlots).replay lines = .ok f) :
  f.height = 0
  := by
  have inside : ∀ i ∈ m.body.take n, ∀ label, i.jumpLabel? = some label → m.IsLabel label := by
    intro i mem
    apply jumps i (List.mem_of_mem_take mem)
  have keeps : Emit.Keeps m.IsLabel (u.lowerRow m 0 (m.body.take n)) _ _ _ :=
    u.lowerRow_keeps (fun _ mem => mem) inside (clear_start m)
  rw [Emit.Writes] at written
  apply (keeps.result () t f _ _).1
  · rw [written]
  · rw [written]
    apply counted

end ClassUnit

/-- The operand stack of a method whose jumps go to its own labels. Its code never has an underflow;
after each instruction the stack is empty; and on every path through the lines of its code the height at
a line is always the same, within the limit of the code, each instruction finds the values it takes, and
the slots it touches are within the limit of the code. -/
theorem methodCode_stackSafe {u : ClassUnit} {m : Method} (jumps : m.JumpsInside) :
  (∀ i, u.methodCode m ≠ .error (.frame (.underflow i)))
    ∧ (∀ n lines t f,
      (u.lowerRow m 0 (m.body.take n)).Writes (.ofLabels (m.labels.map Prod.fst)) lines () t →
      lines <+: (u.lowerBody m (.ofLabels (m.labels.map Prod.fst))).1
        ∧ ((Frame.start m.entrySlots).replay lines = .ok f → f.height = 0))
    ∧ ∀ code, u.methodCode m = .ok code → ∀ p h, Path code.listing.lines Inst.leave 0 p h →
      h ≤ code.listing.frame.maxHeight
        ∧ (∀ h', Path code.listing.lines Inst.leave 0 p h' → h' = h)
        ∧ ∀ i, code.listing.lines[p]? = some (.inst i) →
          i.pops ≤ h ∧ ∀ slot, i.slot? = some slot → slot < code.listing.frame.maxSlots
  := by
  use u.methodCode_ne_underflow jumps
  constructor
  · intro n lines t f written
    constructor
    · have begins := u.lowerRow_prefix m n (.ofLabels (m.labels.map Prod.fst))
      rwa [written] at begins
    · apply u.lowerRow_height jumps written
  · intro code made p h path
    have balanced := u.methodCode_balanced jumps made
    and_intros
    · apply balanced.path_le path
    · intro h' path'
      apply balanced.path_unique path' path
    · intro i here
      use balanced.path_enough path here
      intro slot touched
      apply balanced.slot_lt here touched

/-- A method that compares in the middle of an array store, and has code that nothing leads to. -/
def marking : Method where
  name := "marking"
  access := .everyone
  isStatic := true
  isConstructor := false
  params := [⟨"flags", .array .bool⟩, ⟨"n", .int⟩]
  ret := .void
  body := [
    .assign (.item "flags" (.var "n" .int) .bool) .bool
      (.binary .lt (.var "n" .int) (.literal "5" .int) .bool),
    .branch (.compare .and (.item "flags" (.var "n" .int) .bool) (.var "n" .int)) "again",
    .goto "out",
    .assign (.var "n" .int) .int (.binary .mul (.var "n" .int) (.var "n" .int) .int)]
  labels := [("again", 0), ("out", 4)]
  vars := Std.ExtTreeMap.ofList [("flags", Variable.mk .parameter 0 (.array .bool)),
    ("n", Variable.mk .parameter 1 .int)]

theorem marking_stackSafe :
  marking.JumpsInside
    ∧ ∃ code, (ClassUnit.mk "Marks" none [] [] [marking]).methodCode marking = .ok code
      ∧ code.listing.frame.maxHeight = 4
      ∧ ∀ p h, Path code.listing.lines Inst.leave 0 p h → h ≤ code.listing.frame.maxHeight
        ∧ ∀ i, code.listing.lines[p]? = some (.inst i) → i.pops ≤ h
  := by
  have inside : marking.JumpsInside := by decide
  have coded : ((ClassUnit.mk "Marks" none [] [] [marking]).methodCode marking).toOption.map
      (·.listing.frame.maxHeight) = some 4 := by decide +kernel
  use inside
  cases made : (ClassUnit.mk "Marks" none [] [] [marking]).methodCode marking with
  | error e => simp [made, Except.toOption] at coded
  | ok code =>
      refine ⟨code, rfl, by simpa [made, Except.toOption] using coded, ?_⟩
      intro p h path
      obtain ⟨le, -, found⟩ := (methodCode_stackSafe inside).2.2 code made p h path
      use le
      intro i here
      apply (found i here).1

end StackBackend
