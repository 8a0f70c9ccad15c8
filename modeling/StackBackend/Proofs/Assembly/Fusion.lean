import Mathlib.Tactic.Use
import StackBackend.Assembly.Fusion
import StackBackend.Proofs.Assembly.Lines

/-!
# Where increments are fused

The lines of an increment never overlap those of another one, and hold no label. So every line that is
not inside a fused increment has its place among the fused lines, in particular every line that a jump
goes to; and a slot through which another one is incremented is read nowhere else.
-/

namespace StackBackend

/-- The lines that increment `n` by way of `t`. -/
def incrementWindow (n t : Nat) : List Line :=
  [.inst (.load .int n), .inst (.const 1), .inst .add, .inst (.store .int t), .inst (.load .int t),
    .inst (.store .int n)]

variable {all lines rest : List Line} {n t : Nat}

/-- An increment begins with its six lines. -/
theorem incrementAt?_eq_some (h : incrementAt? lines = some (n, t)) :
  ∃ rest, lines = incrementWindow n t ++ rest
  := by
  unfold incrementAt? at h
  split at h
  · next n₁ t₁ t₂ n₂ rest =>
      split at h
      · next same =>
          obtain ⟨rfl, rfl⟩ := same
          obtain ⟨rfl, rfl⟩ : n₁ = n ∧ t₁ = t := by simpa using h
          use rest
          rfl
      · simp at h
  · simp at h

/-- Lines that can be fused begin with an increment by way of the slot itself, or by way of one that is
read once in all. -/
theorem fusibleAt?_eq_some (h : fusibleAt? all lines = some n) :
  ∃ t rest, lines = incrementWindow n t ++ rest ∧ (t = n ∨ all.countP (Line.reads t) = 1)
  := by
  unfold fusibleAt? at h
  split at h
  · next n₁ t₁ found =>
      split at h
      · next once =>
          obtain rfl : n₁ = n := by simpa using h
          obtain ⟨rest, rfl⟩ := incrementAt?_eq_some found
          use t₁, rest, rfl, once
      · simp at h
  · simp at h

/-- What follows an increment that can be fused is the rest after six lines. -/
theorem fusibleAt?_cons_eq_some {line : Line} (h : fusibleAt? all (line :: rest) = some n) :
  ∃ t, line :: rest = incrementWindow n t ++ rest.drop 5 ∧ (t = n ∨ all.countP (Line.reads t) = 1)
  := by
  obtain ⟨t, after, window, once⟩ := fusibleAt?_eq_some h
  have dropped : rest.drop 5 = after := by
    simpa [incrementWindow] using congrArg (List.drop 6) window
  use t
  constructor
  · rw [window, dropped]
  · apply once

theorem fuseIn_nil (all : List Line) :
  (fuseIn all []).1 = []
  := by
  rw [fuseIn]

/-- Six lines that can be fused become one. -/
theorem fuseIn_of_fusible (h : fusibleAt? all lines = some n) :
  (fuseIn all lines).1 = .inst (.inc n 1) :: (fuseIn all (lines.drop 6)).1
  := by
  cases lines with
  | nil => simp [fusibleAt?, incrementAt?] at h
  | cons line rest =>
      rw [fuseIn]
      simp [h]

/-- A line where nothing can be fused stays. -/
theorem fuseIn_of_not_fusible {line : Line} (h : fusibleAt? all (line :: rest) = none) :
  (fuseIn all (line :: rest)).1 = line :: (fuseIn all rest).1
  := by
  rw [fuseIn]
  simp [h]

/-! ### Places -/

/-- The index `p` is inside the lines of a fused increment, after the first of them. -/
def InsideFused (all : List Line) (p : Nat) : Prop :=
  ∃ w n, w < p ∧ p < w + 6 ∧ fusibleAt? all (all.drop w) = some n

theorem not_insideFused_zero (all : List Line) :
  ¬ InsideFused all 0
  := by
  rintro ⟨w, n, lt, -⟩
  omega

/-- No increment begins inside another one: its first two lines would be among the last five of the other. -/
theorem not_fusible_inside {w k n' : Nat} (h : fusibleAt? all (all.drop w) = some n) (hk : 0 < k)
    (hk' : k < 6) :
  fusibleAt? all (all.drop (w + k)) ≠ some n'
  := by
  intro h'
  obtain ⟨t, rest, lines, -⟩ := fusibleAt?_eq_some h
  obtain ⟨t', rest', lines', -⟩ := fusibleAt?_eq_some h'
  rw [← List.drop_drop, lines] at lines'
  have cases : k = 1 ∨ k = 2 ∨ k = 3 ∨ k = 4 ∨ k = 5 := by omega
  rcases cases with rfl | rfl | rfl | rfl | rfl <;> simp [incrementWindow] at lines'

/-- After a line that stays no fused increment has begun. -/
theorem not_insideFused_succ {p : Nat} (h : ¬ InsideFused all p)
    (none : fusibleAt? all (all.drop p) = none) :
  ¬ InsideFused all (p + 1)
  := by
  rintro ⟨w, n, lt, lt', found⟩
  rcases Nat.lt_or_eq_of_le (Nat.le_of_lt_succ lt) with before | rfl
  · apply h
    use w, n, before
    constructor
    · omega
    · apply found
  · simp [found] at none

/-- Right after a fused increment none has begun. -/
theorem not_insideFused_after {p : Nat} (h : fusibleAt? all (all.drop p) = some n) :
  ¬ InsideFused all (p + 6)
  := by
  rintro ⟨w, n', lt, lt', found⟩
  obtain ⟨k, rfl⟩ : ∃ k, w = p + k := ⟨w - p, by omega⟩
  apply not_fusible_inside h (by omega) (by omega) found

theorem drop_eq_cons {p : Nat} {line : Line} (h : lines[p]? = some line) :
  lines.drop p = line :: lines.drop (p + 1)
  := by
  obtain ⟨lt, rfl⟩ := List.getElem?_eq_some_iff.1 h
  apply List.drop_eq_getElem_cons lt

/-- The line at `p` has its place among the fused lines at `p'`. -/
structure FusedPlace (all : List Line) (p' p : Nat) : Prop where
  rest : (fuseIncrements all).1.drop p' = (fuseIn all (all.drop p)).1
  outside : ¬ InsideFused all p

theorem FusedPlace.zero (all : List Line) :
  FusedPlace all 0 0
  := ⟨rfl, not_insideFused_zero all⟩

/-- A place before a fused increment: its line is the increment, and the next place is after the six lines. -/
theorem FusedPlace.fused {p' p : Nat} (h : FusedPlace all p' p)
    (found : fusibleAt? all (all.drop p) = some n) :
  (fuseIncrements all).1[p']? = some (.inst (.inc n 1)) ∧ FusedPlace all (p' + 1) (p + 6)
  := by
  have here := h.rest
  rw [fuseIn_of_fusible found, List.drop_drop] at here
  refine ⟨?_, ?_, not_insideFused_after found⟩
  · have first := congrArg (fun l => l[0]?) here
    simpa using first
  · rw [← List.drop_drop, here]
    rfl

/-- A place before a line that stays: its line is the same, and so is the next place. -/
theorem FusedPlace.kept {p' p : Nat} {line : Line} (h : FusedPlace all p' p)
    (hl : all[p]? = some line) (none : fusibleAt? all (all.drop p) = none) :
  (fuseIncrements all).1[p']? = some line ∧ FusedPlace all (p' + 1) (p + 1)
  := by
  have split := drop_eq_cons hl
  have here := h.rest
  rw [split, fuseIn_of_not_fusible (split ▸ none)] at here
  refine ⟨?_, ?_, not_insideFused_succ h.outside none⟩
  · have first := congrArg (fun l => l[0]?) here
    simpa using first
  · rw [← List.drop_drop, here]
    rfl

theorem optionRel_map {α β γ δ : Type} {R : α → β → Prop} {R' : γ → δ → Prop} {f : α → γ}
    {g : β → δ} {a : Option α} {b : Option β} (h : Option.Rel R a b)
    (next : ∀ x y, R x y → R' (f x) (g y)) :
  Option.Rel R' (a.map f) (b.map g)
  := by
  cases h with
  | none => exact .none
  | some related => exact .some (next _ _ related)

/-- The search for a label from a place on finds the same line before and after fusing. -/
theorem FusedPlace.search {p' p : Nat} (h : FusedPlace all p' p) (label : String) :
  Option.Rel (fun k k' => FusedPlace all (p' + k') (p + k))
    ((all.drop p).findIdx? (· = .label label))
    (((fuseIncrements all).1.drop p').findIdx? (· = .label label))
  := by
  induction left : all.length - p using Nat.strongRecOn generalizing p p' with
  | ind left ih =>
      rcases hl : all[p]? with _ | line
      · have done : all.drop p = [] := List.drop_eq_nil_iff.2 (List.getElem?_eq_none_iff.1 hl)
        rw [h.rest, done, fuseIn_nil]
        exact .none
      · obtain ⟨lt, -⟩ := List.getElem?_eq_some_iff.1 hl
        rcases found : fusibleAt? all (all.drop p) with _ | n
        · obtain ⟨hl', next⟩ := h.kept hl found
          obtain ⟨lt', -⟩ := List.getElem?_eq_some_iff.1 hl'
          have before : all.drop p = line :: all.drop (p + 1) := drop_eq_cons hl
          have after : (fuseIncrements all).1.drop p' = line :: (fuseIncrements all).1.drop (p' + 1) :=
            drop_eq_cons hl'
          rw [before, after, List.findIdx?_cons, List.findIdx?_cons]
          split
          · exact .some h
          · have rest := ih (all.length - (p + 1)) (by omega) next rfl
            apply optionRel_map rest
            intro k k' place
            have shift : p' + 1 + k' = p' + (k' + 1) ∧ p + 1 + k = p + (k + 1) := by omega
            rwa [shift.1, shift.2] at place
        · obtain ⟨hl', next⟩ := h.fused found
          obtain ⟨t, others, window, -⟩ := fusibleAt?_eq_some found
          have after : (fuseIncrements all).1.drop p'
              = .inst (.inc n 1) :: (fuseIncrements all).1.drop (p' + 1) := drop_eq_cons hl'
          have rest := ih (all.length - (p + 6)) (by omega) next rfl
          have others_eq : all.drop (p + 6) = others := by
            rw [← List.drop_drop, window]
            rfl
          rw [others_eq] at rest
          rw [window, after]
          simp only [incrementWindow, List.cons_append, List.nil_append, List.findIdx?_cons,
            reduceCtorEq, decide_false, Bool.false_eq_true, if_false, Option.map_map]
          apply optionRel_map rest
          intro k k' place
          have shift : p' + 1 + k' = p' + (k' + 1)
              ∧ p + 6 + k = p + (k + 1 + 1 + 1 + 1 + 1 + 1) := by omega
          rwa [shift.1, shift.2] at place

/-- Jumps go to the same line before and after fusing. -/
theorem FusedPlace.target (all : List Line) (label : String) :
  Option.Rel (fun p p' => FusedPlace all p' p) (Line.target? all label)
    (Line.target? (fuseIncrements all).1 label)
  := by
  have found := (FusedPlace.zero all).search label
  simp only [Nat.zero_add, List.drop_zero] at found
  apply found

/-! ### Temporaries -/

/-- The slot `t` is one through which a fused increment of another slot goes. -/
def IsTemporary (all : List Line) (t : Nat) : Prop :=
  ∃ w n rest, all.drop w = incrementWindow n t ++ rest ∧ fusibleAt? all (all.drop w) = some n
    ∧ all.countP (Line.reads t) = 1

/-- Two lines that have a property count for two. -/
theorem two_le_countP {P : Line → Bool} {i j : Nat} {a b : Line} (lt : i < j)
    (hi : lines[i]? = some a) (hj : lines[j]? = some b) (ha : P a = true) (hb : P b = true) :
  2 ≤ lines.countP P
  := by
  have first : 0 < (lines.take (i + 1)).countP P := by
    apply List.countP_pos_iff.2
    refine ⟨a, List.mem_of_getElem? (i := i) ?_, ha⟩
    rwa [List.getElem?_take_of_lt (by omega)]
  have second : 0 < (lines.drop (i + 1)).countP P := by
    apply List.countP_pos_iff.2
    refine ⟨b, List.mem_of_getElem? (i := j - (i + 1)) ?_, hb⟩
    rw [List.getElem?_drop]
    rwa [show i + 1 + (j - (i + 1)) = j by omega]
  rw [← List.take_append_drop (i + 1) lines, List.countP_append]
  omega

/-- A line outside the fused increments reads no temporary. -/
theorem not_isTemporary_of_reads {p slot : Nat} {line : Line} (outside : ¬ InsideFused all p)
    (h : all[p]? = some line) (reads : line.reads slot = true) :
  ¬ IsTemporary all slot
  := by
  rintro ⟨w, n, rest, window, fusible, once⟩
  have load : all[w + 4]? = some (.inst (.load .int slot)) := by
    rw [← List.getElem?_drop, window]
    rfl
  have readsLoad : (Line.inst (.load .int slot)).reads slot = true := by simp [Line.reads]
  have two : 2 ≤ all.countP (Line.reads slot) := by
    rcases Nat.lt_trichotomy p (w + 4) with before | same | after
    · apply two_le_countP before h load reads readsLoad
    · apply absurd _ outside
      use w, n
      and_intros
      · omega
      · omega
      · apply fusible
    · apply two_le_countP after load h readsLoad reads
  omega

end StackBackend
