import Mathlib.Tactic.Use
import StackBackend.Proofs.Assembly.Balance

/-!
# Paths through lines

A path goes from the first line to the next, or by a jump to a line with its label, and may go either
way at a conditional jump. Along balanced lines the heights that the frame counts, one line after
another, are the heights on every path.
-/

namespace StackBackend

/-- A path from the first line, where the state is `init`, gets to the line `p` with the state `s`. An
instruction changes the state by `effect`. -/
inductive Path {σ : Type} (lines : List Line) (effect : Inst → σ → σ) (init : σ) : Nat → σ → Prop
  | start : Path lines effect init 0 init
  | label {p : Nat} {s : σ} {label : String} (before : Path lines effect init p s)
      (here : lines[p]? = some (.label label)) : Path lines effect init (p + 1) s
  | next {p : Nat} {s : σ} {i : Inst} (before : Path lines effect init p s)
      (here : lines[p]? = some (.inst i)) (goes : i.isTerminator = false) :
      Path lines effect init (p + 1) (effect i s)
  | jump {p q : Nat} {s : σ} {i : Inst} {label : String} (before : Path lines effect init p s)
      (here : lines[p]? = some (.inst i)) (jumps : i.jumpLabel? = some label)
      (there : lines[q]? = some (.label label)) : Path lines effect init q (effect i s)

namespace Frame

variable {U : String → Prop} {f g e : Frame} {i : Inst} {line : Line} {lines : List Line}
  {label : String} {p h : Nat}

/-! ### What is recorded stays recorded -/

/-- The height of a label is recorded once. -/
theorem getElem?_insertIfNew {heights : NameMap Nat} {h' : Nat}
    (recorded : heights[label]? = some h) (label' : String) :
  (heights.insertIfNew label' h')[label]? = some h
  := by
  rw [Std.ExtTreeMap.getElem?_insertIfNew, if_neg, recorded]
  rintro ⟨same, new⟩
  apply new
  rw [Std.compare_eq_iff_eq] at same
  rw [same, Std.ExtTreeMap.mem_iff_isSome_getElem?, recorded]
  rfl

/-- A label that had no other height has the height it is recorded with. -/
theorem getElem?_insertIfNew_self {heights : NameMap Nat}
    (recorded : ∀ h', heights[label]? = some h' → h' = h) :
  (heights.insertIfNew label h)[label]? = some h
  := by
  cases old : heights[label]? with
  | some h' =>
      obtain rfl := recorded h' old
      apply getElem?_insertIfNew old
  | none =>
      rw [Std.ExtTreeMap.getElem?_insertIfNew, if_pos]
      constructor
      · simp
      · rw [Std.ExtTreeMap.mem_iff_isSome_getElem?, old]
        simp

/-- What a step does to the counts: it records no label again, and the greatest counts grow. -/
structure Grows (f g : Frame) : Prop where
  heights : ∀ (label : String) (h : Nat), f.heights[label]? = some h → g.heights[label]? = some h
  maxHeight : f.maxHeight ≤ g.maxHeight
  maxSlots : f.maxSlots ≤ g.maxSlots

theorem Grows.refl (f : Frame) :
  f.Grows f
  := ⟨fun _ _ recorded => recorded, Nat.le_refl _, Nat.le_refl _⟩

/-- What is recorded stays recorded, line after line. -/
theorem Grows.trans (first : f.Grows g) (second : g.Grows e) :
  f.Grows e
  where
  heights label h recorded := second.heights label h (first.heights label h recorded)
  maxHeight := Nat.le_trans first.maxHeight second.maxHeight
  maxSlots := Nat.le_trans first.maxSlots second.maxSlots

/-- A line takes nothing back that is recorded. -/
theorem step_grows (stepped : f.step line = .ok g) :
  f.Grows g
  := by
  cases line with
  | label label =>
      obtain rfl : f.passLabel label = g := by simpa [step] using stepped
      unfold passLabel
      split
      · constructor
        · intro _ _ recorded
          apply recorded
        · apply Nat.le_refl
        · apply Nat.le_refl
      · constructor
        · intro _ _ recorded
          apply getElem?_insertIfNew recorded _
        · apply Nat.le_refl
        · apply Nat.le_refl
  | inst i =>
      obtain rfl := step_inst_eq stepped
      constructor
      · intro label h recorded
        simp only [passInst]
        split
        · apply getElem?_insertIfNew recorded _
        · apply recorded
      · simp only [passInst]
        apply Nat.le_max_left
      · simp only [passInst]
        split <;> omega

/-- Nor do lines in a row. -/
theorem replay_grows (counted : f.replay lines = .ok g) :
  f.Grows g
  := by
  induction lines generalizing f with
  | nil =>
      obtain rfl : f = g := Except.ok.inj counted
      apply Frame.Grows.refl f
  | cons line lines ih =>
      obtain ⟨f₁, stepped, counted⟩ := replay_cons_eq_ok.1 counted
      apply (step_grows stepped).trans (ih counted)

/-! ### Frames along the lines -/

/-- What holds of a frame along balanced lines: the height and those recorded are within the greatest
one, and known labels are recorded with height zero. -/
structure Settled (U : String → Prop) (f : Frame) : Prop where
  height : f.height ≤ f.maxHeight
  heights : ∀ (label : String) (h : Nat), f.heights[label]? = some h → h ≤ f.maxHeight
  known : ∀ (label : String) (h : Nat), U label → f.heights[label]? = some h → h = 0

theorem settled_start (n : Nat) :
  (start n).Settled U
  where
  height := Nat.le_refl 0
  heights := by simp [start]
  known := by simp [start]

/-- A record that agrees with the label keeps the frame settled. -/
theorem getElem?_insertIfNew_cases {heights : NameMap Nat} {label' : String} {h' : Nat}
    (recorded : (heights.insertIfNew label' h')[label]? = some h) :
  heights[label]? = some h ∨ label = label' ∧ h = h'
  := by
  rw [Std.ExtTreeMap.getElem?_insertIfNew] at recorded
  split at recorded
  · next new =>
      right
      use (Std.compare_eq_iff_eq.1 new.1).symm, (Option.some.inj recorded).symm
  · left
    apply recorded

/-- A line that is admitted leaves the frame settled. -/
theorem Settled.step (settled : f.Settled U) (admits : f.Admits U line)
    (stepped : f.step line = .ok g) :
  g.Settled U
  := by
  cases line with
  | label label =>
      obtain rfl : f.passLabel label = g := by simpa [Frame.step] using stepped
      unfold passLabel
      split
      · constructor
        · cases recorded : f.heights[label]? with
          | none => apply Nat.zero_le
          | some h => apply settled.heights label h recorded
        · apply settled.heights
        · apply settled.known
      · next open' =>
          simp only [Admits, if_neg open'] at admits
          use settled.height
          · intro label' h recorded
            obtain old | ⟨rfl, rfl⟩ := getElem?_insertIfNew_cases recorded
            · apply settled.heights label' h old
            · apply settled.height
          · intro label' h user recorded
            obtain old | ⟨rfl, rfl⟩ := getElem?_insertIfNew_cases recorded
            · apply settled.known label' h user old
            · apply admits.known user
  | inst i =>
      obtain ⟨-, rfl⟩ := Bears.step_eq_ok admits stepped
      constructor
      · simp only [passInst]
        split <;> omega
      · intro label h recorded
        simp only [passInst] at recorded ⊢
        split at recorded
        · obtain old | ⟨rfl, rfl⟩ := getElem?_insertIfNew_cases recorded
          · have := settled.heights label h old
            omega
          · omega
        · have := settled.heights label h recorded
          omega
      · intro label h user recorded
        simp only [passInst] at recorded
        split at recorded
        · next jumps =>
            obtain old | ⟨rfl, rfl⟩ := getElem?_insertIfNew_cases recorded
            · apply settled.known label h user old
            · apply (admits.jump _ jumps).known user
        · apply settled.known label h user recorded

/-- So do lines in a row; by induction on the lines. -/
theorem Settled.replay (settled : f.Settled U) (admits : f.AdmitsAll U lines)
    (counted : f.replay lines = .ok g) :
  g.Settled U
  := by
  induction lines generalizing f with
  | nil =>
      obtain rfl : f = g := Except.ok.inj counted
      apply settled
  | cons line lines ih =>
      obtain ⟨first, rest⟩ := admits
      obtain ⟨f₁, stepped, counted⟩ := replay_cons_eq_ok.1 counted
      apply ih (settled.step first stepped) (rest f₁ stepped) counted

/-- The height at a label, as recorded in the frame after the last line. -/
def entry (e : Frame) (label : String) : Nat := e.heights[label]?.getD 0

/-- The height that a label is entered with is the one that is recorded for it. -/
theorem entry_of_recorded (grows : g.Grows e) (recorded : g.heights[label]? = some h) :
  e.entry label = h
  := by
  rw [entry, grows.heights label h recorded, Option.getD_some]

/-- A jump leaves its label at the height that the label has. -/
theorem Bears.entry_jump (bears : f.Bears U i) (jumps : i.jumpLabel? = some label)
    (stepped : f.step (.inst i) = .ok g) (grows : g.Grows e) :
  e.entry label = i.leave f.height
  := by
  obtain ⟨-, rfl⟩ := bears.step_eq_ok stepped
  apply entry_of_recorded grows
  simp only [passInst, jumps]
  apply getElem?_insertIfNew_self (bears.jump label jumps).recorded

/-- After a label the stack has the height of the label, and so it has before, if control comes from the line
before. Nothing is recorded for a known label, which has height zero at the end as well. -/
theorem Admits.entry_label (admits : f.Admits U (.label label))
    (stepped : f.step (.label label) = .ok g) (grows : g.Grows e) (settled : e.Settled U) :
  g.terminated = false ∧ g.height = e.entry label
    ∧ (f.terminated = false → f.height = e.entry label)
  := by
  obtain rfl : f.passLabel label = g := by simpa [step] using stepped
  simp only [Admits] at admits
  cases ended : f.terminated with
  | false =>
      rw [if_neg (by simp [ended])] at admits
      have recorded : (f.passLabel label).heights[label]? = some f.height := by
        simp only [passLabel, ended]
        apply getElem?_insertIfNew_self admits.recorded
      have same := entry_of_recorded grows recorded
      simp [passLabel, ended, same]
  | true =>
      rw [if_pos ended] at admits
      have kept : (f.passLabel label).heights = f.heights := by simp [passLabel, ended]
      simp only [passLabel, ended, if_true, true_and, Bool.true_eq_false, false_implies, and_true]
      cases recorded : f.heights[label]? with
      | some h =>
          rw [entry_of_recorded grows (kept ▸ recorded)]
          rfl
      | none =>
          have user : U label := by simpa [recorded] using admits
          rw [entry]
          cases later : e.heights[label]? with
          | none => rfl
          | some h => simp [settled.known label h user later]

end Frame

/-! ### Heights on paths -/

/-- Lines that are balanced from the start and counted to the end, where the frame is `e`. -/
structure Balanced (U : String → Prop) (n : Nat) (lines : List Line) (e : Frame) : Prop where
  admits : (Frame.start n).AdmitsAll U lines
  counted : (Frame.start n).replay lines = .ok e

namespace Balanced

variable {U : String → Prop} {n : Nat} {lines : List Line} {e : Frame} {p h : Nat}

theorem settled (b : Balanced U n lines e) :
  e.Settled U
  := (Frame.settled_start n).replay b.admits b.counted

/-- The lines before an index have a frame, which is settled and grows to the last one. -/
theorem frame (b : Balanced U n lines e) (p : Nat) :
  ∃ f, (Frame.start n).replay (lines.take p) = .ok f ∧ f.Settled U ∧ f.Grows e
    ∧ f.AdmitsAll U (lines.drop p) ∧ f.replay (lines.drop p) = .ok e
  := by
  have counted := b.counted
  have admits := b.admits
  rw [← List.take_append_drop p lines] at counted admits
  obtain ⟨f, first, second⟩ := Frame.replay_append_eq_ok.1 counted
  obtain ⟨before, after⟩ := Frame.admitsAll_append.1 admits
  use f, first, (Frame.settled_start n).replay before first, Frame.replay_grows second, after f first, second

/-- The frames before and after a line. -/
theorem line (b : Balanced U n lines e) {line : Line} (here : lines[p]? = some line) :
  ∃ f g, (Frame.start n).replay (lines.take p) = .ok f ∧ f.Admits U line ∧ f.step line = .ok g
    ∧ (Frame.start n).replay (lines.take (p + 1)) = .ok g ∧ g.Grows e
  := by
  obtain ⟨f, first, -, -, admits, counted⟩ := b.frame p
  rw [drop_eq_cons here] at admits counted
  obtain ⟨g, stepped, counted⟩ := Frame.replay_cons_eq_ok.1 counted
  refine ⟨f, g, first, admits.1, stepped, ?_, Frame.replay_grows counted⟩
  rw [List.take_add_one, here, Frame.replay_append_of_ok first]
  apply Frame.replay_cons_eq_ok.2 ⟨g, stepped, rfl⟩

/-- The height at an index: that of the frame, if control comes from the line before, or that of the
label there. -/
def HeightAt (n : Nat) (lines : List Line) (e : Frame) (p h : Nat) : Prop :=
  ∃ f, (Frame.start n).replay (lines.take p) = .ok f
    ∧ (f.terminated = false ∧ h = f.height
      ∨ ∃ label, lines[p]? = some (.label label) ∧ h = e.entry label)

/-- At an instruction the height is that of the frame. -/
theorem HeightAt.of_inst {i : Inst} {f : Frame} (at_p : HeightAt n lines e p h)
    (here : lines[p]? = some (.inst i)) (counted : (Frame.start n).replay (lines.take p) = .ok f) :
  f.terminated = false ∧ h = f.height
  := by
  obtain ⟨f', counted', reached | ⟨label, there, -⟩⟩ := at_p
  · obtain rfl : f' = f := Except.ok.inj (counted'.symm.trans counted)
    apply reached
  · simp [here] at there

/-- At a label the height is that of the label. -/
theorem HeightAt.of_label (b : Balanced U n lines e) {label : String}
    (at_p : HeightAt n lines e p h) (here : lines[p]? = some (.label label)) :
  h = e.entry label
  := by
  obtain ⟨f, counted, ⟨open', rfl⟩ | ⟨label', there, rfl⟩⟩ := at_p
  · obtain ⟨f', g, counted', admits, stepped, -, grows⟩ := b.line here
    obtain rfl : f = f' := Except.ok.inj (counted.symm.trans counted')
    apply (admits.entry_label stepped grows b.settled).2.2 open'
  · obtain rfl : label = label' := by simpa [here] using there
    rfl

/-- Every path has the height that is counted. -/
theorem heightAt (b : Balanced U n lines e) (path : Path lines Inst.leave 0 p h) :
  HeightAt n lines e p h
  := by
  induction path with
  | start =>
      use .start n, rfl
      left
      use rfl
      rfl
  | label before here ih =>
      obtain ⟨f, g, counted, admits, stepped, after, grows⟩ := b.line here
      obtain ⟨open', height, -⟩ := admits.entry_label stepped grows b.settled
      use g, after
      left
      use open', (ih.of_label b here).trans height.symm
  | next before here goes ih =>
      obtain ⟨f, g, counted, admits, stepped, after, grows⟩ := b.line here
      obtain ⟨open', rfl⟩ := ih.of_inst here counted
      obtain ⟨-, rfl⟩ := Frame.Bears.step_eq_ok admits stepped
      exact ⟨_, after, .inl ⟨by simp [Frame.passInst, open', goes], by simp [Frame.passInst, goes]⟩⟩
  | jump before here jumps there ih =>
      obtain ⟨f, g, counted, admits, stepped, after, grows⟩ := b.line here
      obtain ⟨-, rfl⟩ := ih.of_inst here counted
      obtain ⟨f', counted', -⟩ := b.frame _
      refine ⟨f', counted', .inr ⟨_, there, ?_⟩⟩
      apply (Frame.Bears.entry_jump admits jumps stepped grows).symm

/-- The height at a line is the same on all paths. -/
theorem path_unique (b : Balanced U n lines e) {h' : Nat} (path : Path lines Inst.leave 0 p h)
    (path' : Path lines Inst.leave 0 p h') :
  h = h'
  := by
  have at_p := b.heightAt path
  have at_p' := b.heightAt path'
  obtain ⟨f, counted, ⟨open', rfl⟩ | ⟨label, here, rfl⟩⟩ := b.heightAt path
  · obtain ⟨f', counted', ⟨-, rfl⟩ | ⟨label, here, rfl⟩⟩ := at_p'
    · obtain rfl : f = f' := Except.ok.inj (counted.symm.trans counted')
      rfl
    · apply at_p.of_label b here
  · apply (at_p'.of_label b here).symm

/-- On every path an instruction finds what it takes. -/
theorem path_enough (b : Balanced U n lines e) {i : Inst} (path : Path lines Inst.leave 0 p h)
    (here : lines[p]? = some (.inst i)) :
  i.pops ≤ h
  := by
  obtain ⟨f, g, counted, admits, -⟩ := b.line here
  obtain ⟨-, rfl⟩ := (b.heightAt path).of_inst here counted
  apply Frame.Bears.enough admits

/-- No path has a height beyond the greatest one counted. -/
theorem path_le (b : Balanced U n lines e) (path : Path lines Inst.leave 0 p h) :
  h ≤ e.maxHeight
  := by
  obtain ⟨f, counted, ⟨-, rfl⟩ | ⟨label, -, rfl⟩⟩ := b.heightAt path
  · obtain ⟨f', counted', settled, grows, -⟩ := b.frame p
    obtain rfl : f = f' := Except.ok.inj (counted.symm.trans counted')
    apply Nat.le_trans settled.height grows.maxHeight
  · rw [Frame.entry]
    cases recorded : e.heights[label]? with
    | none => apply Nat.zero_le
    | some h => apply b.settled.heights label h recorded

/-- The slots that are touched are below the greatest count. -/
theorem slot_lt (b : Balanced U n lines e) {i : Inst} {slot : Nat}
    (here : lines[p]? = some (.inst i)) (touched : i.slot? = some slot) :
  slot < e.maxSlots
  := by
  obtain ⟨f, g, -, -, stepped, -, grows⟩ := b.line here
  obtain rfl := Frame.step_inst_eq stepped
  have below := grows.maxSlots
  simp only [Frame.passInst, touched] at below
  omega

end Balanced

end StackBackend
