import Mathlib.Tactic.Use
import StackBackend.Lowering.ClassCode
import StackBackend.Proofs.Assembly.Listing
import StackBackend.Proofs.Lowering.Emission

/-!
# The making of the code of a method

When a method has code, its lines are those of the body and the return that is added to it, with
increments fused, and they are counted.
-/

namespace StackBackend

/-- The line that is added to a body whose lines leave the frame `f`. -/
def Method.closing (m : Method) (f : Frame) : List Line :=
  if m.ret.isVoid && !f.terminated then [.inst (.ret none)] else []

/-- How the code of a method is made: the lines of the body with their frame, and the frame of these
lines and the closing one. -/
structure MethodCode.Made (u : ClassUnit) (m : Method) (code : MethodCode) (body : List Line)
    (left : LabelSupply) (f f' : Frame) : Prop where
  writes : (u.lowerBody m).Writes (.ofLabels (m.labels.map Prod.fst)) body () left
  counted : (Frame.start m.entrySlots).replay body = .ok f
  closed : f.replay (m.closing f) = .ok f'
  lines : code.listing.lines = (fuseIncrements (body ++ m.closing f)).1
  recounted : (Frame.start m.entrySlots).replay code.listing.lines = .ok code.listing.frame

theorem Listing.close_eq (l : Listing) (m : Method) :
  l.close m.ret = l.pushAll (m.closing l.frame)
  := by
  rw [close, Method.closing]
  split
  · rw [pushAll, List.foldlM_cons]
    cases l.push (.inst (.ret none)) <;> rfl
  · rfl

theorem ClassUnit.methodCode_eq_ok {u : ClassUnit} {m : Method} {code : MethodCode}
    (h : u.methodCode m = .ok code) :
  ∃ body left f f', MethodCode.Made u m code body left f f'
  := by
  unfold methodCode at h
  rcases hw : u.lowerBody m (.ofLabels (m.labels.map Prod.fst)) with ⟨body, outcome⟩
  simp only [hw] at h
  obtain ⟨listing, pushed, h₁⟩ := eq_ok_of_bind h
  have extended := eq_ok_of_mapError pushed
  rw [Listing.pushAll_eq] at extended
  obtain ⟨f, counted, rfl⟩ := eq_ok_of_map extended
  obtain ⟨⟨_, left⟩, written, h₂⟩ := eq_ok_of_bind h₁
  have written := eq_ok_of_mapError written
  obtain ⟨closed, closing, h₃⟩ := eq_ok_of_bind h₂
  have closing := eq_ok_of_mapError closing
  rw [Listing.close_eq, Listing.pushAll_eq] at closing
  obtain ⟨f', counted', rfl⟩ := eq_ok_of_map closing
  obtain ⟨final, recount, h₄⟩ := eq_ok_of_bind h₃
  obtain ⟨frame, recounted, made⟩ := eq_ok_of_bind (eq_ok_of_mapError recount)
  obtain rfl := Except.ok.inj made
  obtain rfl := Except.ok.inj h₄
  rw [written] at hw
  use body, left, f, f', hw, counted, counted', rfl, recounted

/-- An error of lowering is the one that the body stops with. -/
theorem ClassUnit.methodCode_eq_lowering {u : ClassUnit} {m : Method} {e : LoweringError}
    (h : u.methodCode m = .error (.lowering e)) :
  (u.lowerBody m (.ofLabels (m.labels.map Prod.fst))).2 = .error e
  := by
  unfold methodCode at h
  obtain failed | ⟨listing, -, h₁⟩ := eq_error_of_bind h
  · obtain ⟨_, -, ⟨⟩⟩ := eq_error_of_mapError failed
  obtain failed | ⟨_, -, h₂⟩ := eq_error_of_bind h₁
  · obtain ⟨e', failed, ⟨⟩⟩ := eq_error_of_mapError failed
    apply failed
  obtain failed | ⟨_, -, h₃⟩ := eq_error_of_bind h₂
  · obtain ⟨_, -, ⟨⟩⟩ := eq_error_of_mapError failed
  obtain failed | ⟨_, -, ⟨⟩⟩ := eq_error_of_bind h₃
  obtain ⟨_, -, ⟨⟩⟩ := eq_error_of_mapError failed

/-- A fault of the frame arises along the lines of the body, at the closing line, or along the lines
with increments fused. -/
theorem ClassUnit.methodCode_eq_frame {u : ClassUnit} {m : Method} {e : FrameFault}
    (h : u.methodCode m = .error (.frame e)) :
  ∃ body, (u.lowerBody m (.ofLabels (m.labels.map Prod.fst))).1 = body
    ∧ ((Frame.start m.entrySlots).replay body = .error e
      ∨ ∃ f, (Frame.start m.entrySlots).replay body = .ok f
        ∧ (f.replay (m.closing f) = .error e
          ∨ ∃ f', f.replay (m.closing f) = .ok f'
            ∧ (Frame.start m.entrySlots).replay (fuseIncrements (body ++ m.closing f)).1 = .error e))
  := by
  unfold methodCode at h
  rcases hw : u.lowerBody m (.ofLabels (m.labels.map Prod.fst)) with ⟨body, outcome⟩
  simp only [hw] at h
  use body, rfl
  obtain failed | ⟨listing, pushed, h₁⟩ := eq_error_of_bind h
  · obtain ⟨e', failed, ⟨⟩⟩ := eq_error_of_mapError failed
    rw [Listing.pushAll_eq] at failed
    left
    apply eq_error_of_map failed
  right
  have extended := eq_ok_of_mapError pushed
  rw [Listing.pushAll_eq] at extended
  obtain ⟨f, counted, rfl⟩ := eq_ok_of_map extended
  use f, counted
  obtain failed | ⟨⟨_, left⟩, -, h₂⟩ := eq_error_of_bind h₁
  · obtain ⟨e', -, ⟨⟩⟩ := eq_error_of_mapError failed
  obtain failed | ⟨closed, closing, h₃⟩ := eq_error_of_bind h₂
  · obtain ⟨e', failed, ⟨⟩⟩ := eq_error_of_mapError failed
    rw [Listing.close_eq, Listing.pushAll_eq] at failed
    left
    apply eq_error_of_map failed
  right
  have closing := eq_ok_of_mapError closing
  rw [Listing.close_eq, Listing.pushAll_eq] at closing
  obtain ⟨f', counted', rfl⟩ := eq_ok_of_map closing
  use f', counted'
  obtain failed | ⟨_, -, ⟨⟩⟩ := eq_error_of_bind h₃
  obtain ⟨e', failed, ⟨⟩⟩ := eq_error_of_mapError failed
  obtain failed | ⟨_, -, ⟨⟩⟩ := eq_error_of_bind failed
  apply failed

end StackBackend
