import Mathlib.Tactic.Use
import StackBackend.Lowering.ClassCode
import StackBackend.Proofs.Assembly.LabelSupply
import StackBackend.Proofs.Assembly.Paths
import StackBackend.Proofs.Lowering.Emission

/-!
# Lowering writes balanced lines

An emission is followed with the frame that its lines are counted in, whether it succeeds or stops with
an error. The code of an operand raises the stack by one and records no label; a conditional jump is
taken at the height before its operands; the code of an expression raises the stack by the value it
leaves; and the code of an instruction of a method begins and ends with an empty stack.
-/

namespace StackBackend

/-! ### Emissions with frames -/

namespace Emit

variable {α β : Type} {U : String → Prop} {p : Emit α} {s : LabelSupply} {f : Frame}
  {Q Q' : α → LabelSupply → Frame → Prop}

/-- The lines that an emission writes after the frame `f` are balanced, also when it fails; when it
succeeds and they can be counted, `Q` holds of its result, the supply it leaves and the frame after
them. -/
structure Keeps (U : String → Prop) (p : Emit α) (s : LabelSupply) (f : Frame)
    (Q : α → LabelSupply → Frame → Prop) : Prop where
  admits : f.AdmitsAll U (p s).1
  result : ∀ a t g, (p s).2 = .ok (a, t) → f.replay (p s).1 = .ok g → Q a t g

theorem Keeps.pure {a : α} (holds : Q a s f) :
  (pure a : Emit α).Keeps U s f Q
  := by
  use trivial
  rintro b t g ⟨⟩ ⟨⟩
  apply holds

theorem Keeps.fail (e : LoweringError) :
  (fail e : Emit α).Keeps U s f Q
  := by
  use trivial
  rintro b t g ⟨⟩

theorem Keeps.bind {k : α → Emit β} {R : β → LabelSupply → Frame → Prop} (first : p.Keeps U s f Q)
    (rest : ∀ a t g, Q a t g → (k a).Keeps U t g R) :
  (p >>= k).Keeps U s f R
  := by
  rcases written : p s with ⟨lines, e | ⟨a, t⟩⟩
  · have both : (p >>= k) s = (lines, .error e) := by rw [bind_apply, written]
    constructor
    · rw [both]
      simpa [written] using first.admits
    · rw [both]
      rintro b t g ⟨⟩
  · have both : (p >>= k) s = (lines ++ (k a t).1, (k a t).2) := by rw [bind_apply, written]
    have after : ∀ g, f.replay lines = .ok g → (k a).Keeps U t g R := by
      intro g counted
      apply rest a t g
      apply first.result a t g
      · rw [written]
      · rw [written]
        apply counted
    constructor
    · rw [both, Frame.admitsAll_append]
      constructor
      · simpa [written] using first.admits
      · intro g counted
        apply (after g counted).admits
    · rw [both]
      intro b t' g' done counted
      obtain ⟨g, counted, counted'⟩ := Frame.replay_append_eq_ok.1 counted
      apply (after g counted).result b t' g' done counted'

theorem Keeps.mono (keeps : p.Keeps U s f Q) (weaker : ∀ a t g, Q a t g → Q' a t g) :
  p.Keeps U s f Q'
  := ⟨keeps.admits, fun a t g done counted => weaker a t g (keeps.result a t g done counted)⟩

theorem Keeps.inst {i : Inst} {Q : Unit → LabelSupply → Frame → Prop} (bears : f.Bears U i)
    (next : i.leave f.height < 0x80000000 → Q () s (f.passInst i (i.leave f.height))) :
  (Emit.inst i).Keeps U s f Q
  := by
  constructor
  · use bears
    intro _ _
    trivial
  · rintro ⟨⟩ t g ⟨⟩ counted
    obtain ⟨g', stepped, ⟨⟩⟩ := Frame.replay_cons_eq_ok.1 counted
    obtain ⟨small, rfl⟩ := bears.step_eq_ok stepped
    apply next small

theorem Keeps.label {name : String} {Q : Unit → LabelSupply → Frame → Prop}
    (admits : f.Admits U (.label name)) (next : Q () s (f.passLabel name)) :
  (Emit.label name).Keeps U s f Q
  := by
  constructor
  · use admits
    intro _ _
    trivial
  · rintro ⟨⟩ t g ⟨⟩ ⟨⟩
    apply next

end Emit

/-! ### What code does to a frame -/

namespace Frame

variable {U : String → Prop} {f g e : Frame} {i : Inst} {k : Nat} {label : String} {s : LabelSupply}

/-- The stack is higher by `k`, and nothing else is known to have changed: no label is recorded, and
control comes along as before. -/
structure Raised (k : Nat) (f g : Frame) : Prop where
  height : g.height = f.height + k
  terminated : g.terminated = f.terminated
  heights : g.heights = f.heights
  small : 0 < k → g.height < 0x80000000

theorem Raised.refl (f : Frame) :
  f.Raised 0 f
  := ⟨rfl, rfl, rfl, by omega⟩

/-- A jump to the label may have been taken at the height of the stack. -/
structure Jumped (label : String) (f g : Frame) : Prop where
  height : g.height = f.height
  terminated : g.terminated = f.terminated
  heights : g.heights = f.heights.insertIfNew label f.height

/-- A jump may be taken once more. -/
theorem Jumped.agrees (jumped : f.Jumped label g) (agrees : f.Agrees U label f.height) :
  g.Agrees U label g.height
  := by
  rw [jumped.height]
  constructor
  · intro h recorded
    rw [jumped.heights, getElem?_insertIfNew_self agrees.recorded] at recorded
    apply (Option.some.inj recorded).symm
  · apply agrees.known

theorem insertIfNew_insertIfNew (heights : NameMap Nat) (label : String) (h : Nat) :
  (heights.insertIfNew label h).insertIfNew label h = heights.insertIfNew label h
  := by
  apply Std.ExtTreeMap.ext_getElem?
  intro other
  simp only [Std.ExtTreeMap.getElem?_insertIfNew]
  split
  · next new => simp [Std.ExtTreeMap.mem_insertIfNew] at new
  · rfl

theorem Jumped.trans (first : f.Jumped label g) (second : g.Jumped label e) :
  f.Jumped label e
  where
  height := second.height.trans first.height
  terminated := second.terminated.trans first.terminated
  heights := by rw [second.heights, first.height, first.heights, insertIfNew_insertIfNew]

/-- What the frame has recorded is in use, and known labels, which are in use, have height zero. -/
structure Knows (U : String → Prop) (s : LabelSupply) (f : Frame) : Prop where
  recorded : ∀ (label : String) (h : Nat), f.heights[label]? = some h → label ∈ s.reserved
  known : ∀ label, U label → label ∈ s.reserved
  zero : ∀ (label : String) (h : Nat), U label → f.heights[label]? = some h → h = 0

theorem Knows.of_heights (knows : f.Knows U s) (same : g.heights = f.heights) :
  g.Knows U s
  := ⟨same ▸ knows.recorded, knows.known, same ▸ knows.zero⟩

/-- A label that is in use may be recorded, a known one with height zero. -/
theorem Knows.record {h : Nat} (knows : f.Knows U s)
    (same : g.heights = f.heights.insertIfNew label h) (used : label ∈ s.reserved)
    (zero : U label → h = 0) :
  g.Knows U s
  := by
  constructor
  · intro label' h' recorded
    rw [same] at recorded
    obtain old | ⟨rfl, -⟩ := getElem?_insertIfNew_cases recorded
    · apply knows.recorded label' h' old
    · apply used
  · apply knows.known
  · intro label' h' user recorded
    rw [same] at recorded
    obtain old | ⟨rfl, rfl⟩ := getElem?_insertIfNew_cases recorded
    · apply knows.zero label' h' user old
    · apply zero user

/-- A known label may be jumped to with an empty stack. -/
theorem Knows.agrees (knows : f.Knows U s) (user : U label) (empty : f.height = 0) :
  f.Agrees U label f.height
  := by
  rw [empty]
  constructor
  · intro h recorded
    apply knows.zero label h user recorded
  · intro _
    rfl

/-- A label that is not in use may be jumped to at any height. -/
theorem Knows.agrees_fresh (knows : f.Knows U s) (fresh : label ∉ s.reserved) (h : Nat) :
  f.Agrees U label h
  := by
  constructor
  · intro h' recorded
    apply (fresh (knows.recorded label h' recorded)).elim
  · intro user
    apply (fresh (knows.known label user)).elim

theorem Knows.mono {t : LabelSupply} (knows : f.Knows U s)
    (grows : ∀ label ∈ s.reserved, label ∈ t.reserved) :
  f.Knows U t
  where
  recorded label h recorded := grows label (knows.recorded label h recorded)
  known label user := grows label (knows.known label user)
  zero := knows.zero

end Frame

namespace Emit

variable {U : String → Prop} {s : LabelSupply} {f g : Frame} {i : Inst} {k : Nat}

/-- An instruction without a jump, on top of what was raised before. -/
theorem Keeps.raise (raised : f.Raised k g) (counted : i.IsCounted) (enough : i.pops ≤ k)
    (plain : i.jumpLabel? = none) (goes : i.isTerminator = false) :
  (Emit.inst i).Keeps U s g fun _ t e => t = s ∧ f.Raised (i.leave k) e
  := by
  have height := raised.height
  apply Keeps.inst
  · constructor
    · apply counted
    · omega
    · simp [plain]
  · intro small
    use rfl
    constructor
    · simp only [Frame.passInst, goes, Inst.leave, height]
      simp only [Bool.false_eq_true, if_false]
      omega
    · simp [Frame.passInst, goes, raised.terminated]
    · simp [Frame.passInst, plain, raised.heights]
    · intro _
      simpa [Frame.passInst, goes] using small

/-- A conditional jump takes what was raised, and jumps at the height before. -/
theorem Keeps.jump {label : String} (raised : f.Raised k g) (counted : i.IsCounted)
    (takes : i.pops = k) (leaves : i.pushes = 0) (jumps : i.jumpLabel? = some label)
    (goes : i.isTerminator = false) (agrees : f.Agrees U label f.height) :
  (Emit.inst i).Keeps U s g fun _ t e => t = s ∧ f.Jumped label e
  := by
  have height : i.leave g.height = f.height := by
    rw [Inst.leave, raised.height, takes, leaves]
    omega
  apply Keeps.inst
  · refine ⟨counted, by rw [raised.height]; omega, ?_⟩
    intro label' jumps'
    obtain rfl : label = label' := Option.some.inj (jumps.symm.trans jumps')
    rw [height]
    use raised.heights ▸ agrees.recorded, agrees.known
  · intro _
    use rfl
    constructor
    · simp [Frame.passInst, goes, height]
    · simp [Frame.passInst, goes, raised.terminated]
    · simp [Frame.passInst, jumps, raised.heights, height]

end Emit

end StackBackend
