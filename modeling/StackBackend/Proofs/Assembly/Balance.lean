import Mathlib.Tactic.Use
import StackBackend.Proofs.Assembly.Fusion
import StackBackend.Proofs.Assembly.Listing

/-!
# Balanced lines

Frames are counted along the lines from the first to the last. Lines are balanced when along the way
each instruction finds the values that it takes, and a label is jumped to and fallen into at one height
only; labels that are known from the start have height zero. Balanced lines have no underflow, and
stay balanced when their increments are fused.
-/

namespace StackBackend

namespace Inst

/-- The number of values that an instruction takes from the stack. -/
def pops : Inst → Nat
  | minusOne | const _ | bytePush _ | shortPush _ | loadConst _ | load .. | new _ | inc ..
  | goto _ | ret none => 0
  | store .. | neg | jumpIf .. | ret (some _) | newArray _ | newRefArray _ | arrayLength
  | getField .. | pop => 1
  | add | sub | mul | div | xor | jumpIfCompare .. | arrayLoad _ | putField .. => 2
  | arrayStore _ => 3
  | invoke _ _ pops _ => pops

/-- The number of values that an instruction leaves on the stack. -/
def pushes : Inst → Nat
  | minusOne | const _ | bytePush _ | shortPush _ | loadConst _ | load .. | new _ | neg | add | sub
  | mul | div | xor | arrayLoad _ | newArray _ | newRefArray _ | arrayLength | getField .. => 1
  | store .. | inc .. | jumpIf .. | jumpIfCompare .. | goto _ | ret _ | arrayStore _ | putField ..
  | pop => 0
  | invoke _ _ _ pushes => pushes

/-- The height of the stack after an instruction. -/
def leave (i : Inst) (height : Nat) : Nat := height - i.pops + i.pushes

/-- The change of the height is counted as it is: that of a call only when its counts are small. -/
def IsCounted (i : Inst) : Prop := i.effect = (i.pushes : Int) - (i.pops : Int)

theorem isCounted_invoke {kind : CallKind} {target : String} {pops pushes : Nat}
    (hp : pops < 0x80000000) (hq : pushes < 0x80000000) :
  (invoke kind target pops pushes).IsCounted
  := effect_invoke hp hq

/-- Pushing an integer takes nothing and leaves one value. -/
theorem push_pops (v : Int) :
  (push v).pops = 0 ∧ (push v).pushes = 1 ∧ (push v).IsCounted ∧ (push v).jumpLabel? = none
    ∧ (push v).isTerminator = false
  := by
  unfold push
  repeat' split
  all_goals exact ⟨rfl, rfl, rfl, rfl, rfl⟩

end Inst

namespace Frame

variable {U : String → Prop} {f f' g e : Frame} {i : Inst} {line : Line} {lines l₁ l₂ : List Line}
  {label : String} {h : Nat}

/-! ### One line -/

/-- The label may have this height: it was recorded with no other one, and a known label has height
zero. -/
structure Agrees (U : String → Prop) (f : Frame) (label : String) (h : Nat) : Prop where
  recorded : ∀ h', f.heights[label]? = some h' → h' = h
  known : U label → h = 0

/-- An instruction finds what it takes, and jumps at the height of its label. -/
structure Bears (U : String → Prop) (f : Frame) (i : Inst) : Prop where
  counted : i.IsCounted
  enough : i.pops ≤ f.height
  jump : ∀ label, i.jumpLabel? = some label → f.Agrees U label (i.leave f.height)

/-- The line is balanced after the frame: a label is entered at its height, or its height is known. -/
def Admits (U : String → Prop) (f : Frame) : Line → Prop
  | .inst i => f.Bears U i
  | .label label =>
      if f.terminated then U label ∨ f.heights[label]?.isSome else f.Agrees U label f.height

/-- An instruction that finds what it takes has a frame after it, unless the height is out of
range. -/
theorem Bears.step (bears : f.Bears U i) :
  f.step (.inst i) = if i.leave f.height < 0x80000000 then .ok (f.passInst i (i.leave f.height))
    else .error (.overflow i)
  := by
  have counted : i.effect = (i.pushes : Int) - (i.pops : Int) := bears.counted
  have enough := bears.enough
  have height : (f.height : Int) + i.effect = (i.leave f.height : Nat) := by
    rw [counted, Inst.leave]
    omega
  simp only [Frame.step, height, Int.toNat_natCast]
  split
  · omega
  · split
    · rw [if_pos (by omega)]
    · rw [if_neg (by omega)]

/-- An instruction that is borne and counted leaves what it leaves. -/
theorem Bears.step_eq_ok (bears : f.Bears U i) (ok : f.step (.inst i) = .ok g) :
  i.leave f.height < 0x80000000 ∧ g = f.passInst i (i.leave f.height)
  := by
  rw [bears.step] at ok
  split at ok
  · next small => use small, (Except.ok.inj ok).symm
  · simp at ok

/-! ### Lines -/

/-- The lines are balanced after the frame, as far as they can be counted. -/
def AdmitsAll (U : String → Prop) : Frame → List Line → Prop
  | _, [] => True
  | f, line :: lines => f.Admits U line ∧ ∀ g, f.step line = .ok g → g.AdmitsAll U lines

/-- Lines in a row are admitted if the second ones are where the first ones end. -/
theorem admitsAll_append :
  f.AdmitsAll U (l₁ ++ l₂)
    ↔ f.AdmitsAll U l₁ ∧ ∀ g, f.replay l₁ = .ok g → g.AdmitsAll U l₂
  := by
  induction l₁ generalizing f with
  | nil => simp [AdmitsAll, replay_nil]
  | cons line l₁ ih =>
      simp only [List.cons_append, AdmitsAll, ih, replay_cons_eq_ok]
      constructor
      · rintro ⟨first, rest⟩
        constructor
        · use first
          intro g stepped
          apply (rest g stepped).1
        · rintro g ⟨f₁, stepped, counted⟩
          apply (rest f₁ stepped).2 g counted
      · rintro ⟨⟨first, rest⟩, after⟩
        use first
        intro g stepped
        use rest g stepped
        intro g' counted
        apply after g'
        use g, stepped, counted

/-- Balanced lines have no underflow. -/
theorem AdmitsAll.ne_underflow (admits : f.AdmitsAll U lines) (i : Inst) :
  f.replay lines ≠ .error (.underflow i)
  := by
  induction lines generalizing f with
  | nil => simp [replay_nil]
  | cons line lines ih =>
      obtain ⟨first, rest⟩ := admits
      rw [replay_cons]
      cases stepped : f.step line with
      | ok g => apply ih (rest g stepped)
      | error e =>
          rintro ⟨⟩
          cases line with
          | label label => simp [step] at stepped
          | inst i' =>
              rw [Bears.step first] at stepped
              split at stepped <;> simp at stepped

/-! ### Fused increments -/

/-- The frames agree in what balance depends on; the greatest counts may differ. -/
structure SameCore (f g : Frame) : Prop where
  height : f.height = g.height
  terminated : f.terminated = g.terminated
  heights : f.heights = g.heights

theorem SameCore.refl (f : Frame) :
  SameCore f f
  := ⟨rfl, rfl, rfl⟩

theorem SameCore.symm (same : SameCore f g) :
  SameCore g f
  := ⟨same.height.symm, same.terminated.symm, same.heights.symm⟩

theorem SameCore.trans (same : SameCore f g) (same' : SameCore g e) :
  SameCore f e
  := ⟨same.height.trans same'.height, same.terminated.trans same'.terminated,
    same.heights.trans same'.heights⟩

/-- What is recorded for a label belongs to the core. -/
theorem SameCore.agrees (same : SameCore f g) (agrees : f.Agrees U label h) :
  g.Agrees U label h
  := ⟨same.heights ▸ agrees.recorded, agrees.known⟩

/-- What is admitted depends on the core alone. -/
theorem SameCore.admits (same : SameCore f g) (admits : f.Admits U line) :
  g.Admits U line
  := by
  cases line with
  | inst i =>
      obtain ⟨counted, enough, jump⟩ := admits
      use counted, same.height ▸ enough
      intro label jumps
      rw [← same.height]
      apply same.agrees (jump label jumps)
  | label label =>
      simp only [Admits] at admits ⊢
      rw [← same.terminated, ← same.heights, ← same.height]
      split
      · next ended => rwa [if_pos ended] at admits
      · next ended =>
          rw [if_neg ended] at admits
          apply same.agrees admits

/-- Frames with one core count a line alike. -/
theorem SameCore.step (same : SameCore f g) (stepped : f.step line = .ok f') :
  ∃ g', g.step line = .ok g' ∧ SameCore f' g'
  := by
  obtain ⟨height, terminated, heights⟩ := same
  cases line with
  | label label =>
      obtain rfl : f.passLabel label = f' := by simpa [Frame.step] using stepped
      use g.passLabel label, rfl
      simp only [passLabel, height, terminated, heights]
      split <;> exact ⟨rfl, rfl, rfl⟩
  | inst i =>
      simp only [Frame.step, height] at stepped
      split at stepped
      · simp at stepped
      · next nonneg =>
          split at stepped
          · next small =>
              obtain rfl := Except.ok.inj stepped
              use g.passInst i ((g.height : Int) + i.effect).toNat
              constructor
              · simp only [Frame.step, if_neg nonneg, if_pos small]
              · constructor
                · rfl
                · simp [passInst, terminated]
                · simp [passInst, heights]
          · simp at stepped

/-- An instruction is counted to the height of its effect. -/
theorem step_inst_eq (stepped : f.step (.inst i) = .ok g) :
  g = f.passInst i ((f.height : Int) + i.effect).toNat
  := by
  simp only [step] at stepped
  split at stepped
  · simp at stepped
  · split at stepped
    · apply (Except.ok.inj stepped).symm
    · simp at stepped

/-- What counting an instruction changes. -/
theorem step_inst_eq_ok (stepped : f.step (.inst i) = .ok g) :
  g.height = (if i.isTerminator then 0 else ((f.height : Int) + i.effect).toNat)
    ∧ g.terminated = (f.terminated || i.isTerminator)
    ∧ (i.jumpLabel? = none → g.heights = f.heights)
  := by
  obtain rfl := step_inst_eq stepped
  use rfl, rfl
  intro none
  simp [passInst, none]

/-- The lines of an increment leave the height as it was, and record nothing. -/
theorem sameCore_incrementWindow {n t : Nat} (counted : f.replay (incrementWindow n t) = .ok g) :
  SameCore f g
  := by
  simp only [incrementWindow, replay_cons_eq_ok] at counted
  obtain ⟨f₁, s₁, f₂, s₂, f₃, s₃, f₄, s₄, f₅, s₅, f₆, s₆, last⟩ := counted
  obtain rfl : f₆ = g := Except.ok.inj last
  obtain ⟨h₁, t₁, r₁⟩ := step_inst_eq_ok s₁
  obtain ⟨h₂, t₂, r₂⟩ := step_inst_eq_ok s₂
  obtain ⟨h₃, t₃, r₃⟩ := step_inst_eq_ok s₃
  obtain ⟨h₄, t₄, r₄⟩ := step_inst_eq_ok s₄
  obtain ⟨h₅, t₅, r₅⟩ := step_inst_eq_ok s₅
  obtain ⟨h₆, t₆, r₆⟩ := step_inst_eq_ok s₆
  simp only [Inst.isTerminator, Inst.effect, Bool.false_eq_true, if_false] at h₁ h₂ h₃ h₄ h₅ h₆
  constructor
  · omega
  · simp [t₆, t₅, t₄, t₃, t₂, t₁, Inst.isTerminator]
  · rw [r₆ rfl, r₅ rfl, r₄ rfl, r₃ rfl, r₂ rfl, r₁ rfl]

/-- Balanced lines that can be counted stay balanced when their increments are fused. -/
theorem AdmitsAll.fuseIn {all : List Line} (admits : f.AdmitsAll U lines)
    (counted : f.replay lines = .ok e) (same : SameCore f g) :
  g.AdmitsAll U (fuseIn all lines).1
  := by
  fun_induction StackBackend.fuseIn all lines generalizing f g with
  | case1 => trivial
  | case2 line rest n found fused count rest_fused ih =>
      rw [rest_fused] at ih
      obtain ⟨t, window, -⟩ := fusibleAt?_cons_eq_some found
      rw [window] at admits counted
      obtain ⟨f₁, through, counted⟩ := replay_append_eq_ok.1 counted
      have admits := (admitsAll_append.1 admits).2 f₁ through
      have same₁ : SameCore g f₁ := same.symm.trans (sameCore_incrementWindow through)
      refine ⟨⟨rfl, Nat.zero_le _, by simp [Inst.jumpLabel?]⟩, ?_⟩
      intro g₁ stepped
      apply ih admits counted
      obtain ⟨height, terminated, heights⟩ := step_inst_eq_ok stepped
      have unchanged : SameCore g g₁ := by
        constructor
        · simpa [Inst.isTerminator, Inst.effect] using height.symm
        · simp [terminated, Inst.isTerminator]
        · apply (heights rfl).symm
      apply same₁.symm.trans unchanged
  | case3 line rest none fused count rest_fused ih =>
      rw [rest_fused] at ih
      obtain ⟨first, others⟩ := admits
      obtain ⟨f₁, stepped, counted⟩ := replay_cons_eq_ok.1 counted
      use same.admits first
      intro g₁ stepped'
      obtain ⟨g₂, stepped'', same₁⟩ := same.step stepped
      obtain rfl : g₁ = g₂ := Except.ok.inj (stepped'.symm.trans stepped'')
      apply ih (others f₁ stepped) counted same₁

end Frame

end StackBackend
