import Mathlib.Tactic.Use
import StackBackend.Proofs.Assembly.Fusion

/-!
# The pieces of fused lines

Fusing cuts the lines into pieces: a piece is a line that is kept, or an increment that becomes one line. So
the other lines stay in their order, the labels among them, and each fused increment takes five lines away.

A kept increment goes by way of a slot that is read elsewhere. Fusing others takes no such read away: the
line of a fused increment of `n` still reads `n`, and a slot by way of which another one is fused is read
nowhere else. So nothing that could be fused is left, and fusing again changes nothing.
-/

namespace StackBackend

/-- A piece of the lines: a line that is kept, or the increment of `n` by way of `t` that is fused. -/
inductive Piece where
  | kept (line : Line)
  | fused (n t : Nat)

namespace Piece

/-- The lines of a piece before fusing. -/
def before : Piece → List Line
  | kept line => [line]
  | fused n t => incrementWindow n t

/-- The line of a piece after fusing. -/
def after : Piece → Line
  | kept line => line
  | fused n _ => .inst (.inc n 1)

/-- Whether a piece is an increment that is fused. -/
def isFused : Piece → Bool
  | kept _ => false
  | fused _ _ => true

variable {pieces : List Piece}

/-- Each fused increment saves five lines. -/
theorem length_before (pieces : List Piece) :
  (pieces.flatMap before).length = (pieces.map after).length + 5 * pieces.countP isFused
  := by
  induction pieces with
  | nil => rfl
  | cons piece pieces ih =>
      rw [List.flatMap_cons, List.length_append, ih, List.map_cons, List.length_cons, List.countP_cons]
      cases piece with
      | kept line =>
          simp only [before, isFused, List.length_singleton, Bool.false_eq_true, if_false]
          omega
      | fused n t =>
          simp only [before, isFused, incrementWindow, List.length_cons, List.length_nil, if_true]
          omega

/-- The labels are kept. -/
theorem labelNames_map_after (pieces : List Piece) :
  Line.labelNames (pieces.map after) = Line.labelNames (pieces.flatMap before)
  := by
  induction pieces with
  | nil => rfl
  | cons piece pieces ih =>
      rw [List.map_cons, List.flatMap_cons, Line.labelNames_append, ← ih]
      cases piece with
      | kept line => cases line <;> rfl
      | fused n t => rfl

/-- A line after fusing was there before, or is that of an increment. -/
theorem mem_of_mem_map_after {line : Line} (mem : line ∈ pieces.map after) :
  line ∈ pieces.flatMap before ∨ ∃ n t, .fused n t ∈ pieces ∧ line = .inst (.inc n 1)
  := by
  obtain ⟨piece, among, rfl⟩ := List.mem_map.1 mem
  cases piece with
  | kept line =>
      left
      apply List.mem_flatMap.2 ⟨_, among, List.mem_singleton.2 rfl⟩
  | fused n t =>
      right
      use n, t, among
      rfl

/-- Pieces can be parted at each label, since an increment holds none. -/
theorem exists_of_flatMap_before_eq {pre post : List Line} {name : String}
    (written : pieces.flatMap before = pre ++ .label name :: post) :
  ∃ ps qs, pieces = ps ++ .kept (.label name) :: qs ∧ ps.flatMap before = pre ∧ qs.flatMap before = post
  := by
  induction pieces generalizing pre with
  | nil => simp at written
  | cons piece pieces ih =>
      rw [List.flatMap_cons] at written
      cases piece with
      | kept line =>
          obtain ⟨rfl, first⟩ | ⟨pre', rfl, rest⟩ := List.cons_eq_append_iff.1 written
          · obtain ⟨rfl, rfl⟩ := List.cons.inj first
            use [], pieces, rfl, rfl
            rfl
          · obtain ⟨ps, qs, rfl, rfl, rfl⟩ := ih rest
            exact ⟨.kept line :: ps, qs, rfl, rfl, rfl⟩
      | fused n t =>
          obtain ⟨pre', rfl, rest⟩ | ⟨within, own, rest⟩ := List.append_eq_append_iff.1 written
          · obtain ⟨ps, qs, rfl, rfl, rfl⟩ := ih rest
            exact ⟨.fused n t :: ps, qs, rfl, rfl, rfl⟩
          · cases within with
            | nil =>
                obtain ⟨ps, qs, rfl, none, rfl⟩ := @ih [] rest.symm
                refine ⟨.fused n t :: ps, qs, rfl, ?_, rfl⟩
                rw [List.flatMap_cons, none, own, List.append_nil, List.append_nil]
            | cons line within =>
                obtain ⟨rfl, -⟩ := List.cons.inj rest
                have mem : .label name ∈ incrementWindow n t := by
                  rw [before] at own
                  simp [own]
                simp [incrementWindow] at mem

/-- Lines without an increment instruction after fusing are kept lines. -/
theorem eq_map_kept {lines : List Line} (same : pieces.map after = lines)
    (plain : ∀ n v, .inst (.inc n v) ∉ lines) :
  pieces = lines.map kept
  := by
  induction pieces generalizing lines with
  | nil =>
      obtain rfl := same
      rfl
  | cons piece pieces ih =>
      obtain rfl := same
      simp only [List.map_cons, List.mem_cons, not_or] at plain ⊢
      have rest := ih rfl fun n v => (plain n v).2
      cases piece with
      | kept line => rw [after, ← rest]
      | fused n t => apply absurd rfl (plain n 1).1

theorem flatMap_before_kept (lines : List Line) :
  (lines.map kept).flatMap before = lines
  := by
  rw [List.flatMap_map]
  apply List.flatMap_singleton' lines

end Piece

open Piece

/-! ### Reads of the slot between -/

section Reads

variable {pre post : List Line} {n t slot : Nat} {line : Line}

/-- The lines of an increment read two slots. -/
theorem slot_of_mem_incrementWindow (mem : line ∈ incrementWindow n t) (reads : line.reads slot = true) :
  slot = n ∨ slot = t
  := by
  simp only [incrementWindow, List.mem_cons, List.not_mem_nil, or_false] at mem
  rcases mem with rfl | rfl | rfl | rfl | rfl | rfl
  · left
    simpa [Line.reads, eq_comm] using reads
  · simp [Line.reads] at reads
  · simp [Line.reads] at reads
  · simp [Line.reads] at reads
  · right
    simpa [Line.reads, eq_comm] using reads
  · simp [Line.reads] at reads

/-- An increment by way of another slot reads that slot once. -/
theorem countP_reads_around (apart : t ≠ n) :
  (pre ++ (incrementWindow n t ++ post)).countP (Line.reads t) = (pre ++ post).countP (Line.reads t) + 1
  := by
  have once : (incrementWindow n t).countP (Line.reads t) = 1 := by
    simp [incrementWindow, Line.reads, apart.symm]
  simp only [List.countP_append, once]
  omega

/-- The slot between is read once in all when it is read nowhere else. -/
theorem countP_reads_eq_one_iff (apart : t ≠ n) :
  (pre ++ (incrementWindow n t ++ post)).countP (Line.reads t) = 1
    ↔ ∀ line ∈ pre ++ post, line.reads t = false
  := by
  rw [countP_reads_around apart, Nat.add_eq_right, List.countP_eq_zero]
  simp only [Bool.not_eq_true]

/-- An increment cannot be fused when it goes by way of another slot that is read elsewhere. -/
theorem fusibleAt?_eq_none_iff :
  fusibleAt? (pre ++ (incrementWindow n t ++ post)) (incrementWindow n t ++ post) = none
    ↔ t ≠ n ∧ ∃ line ∈ pre ++ post, line.reads t = true
  := by
  have found : incrementAt? (incrementWindow n t ++ post) = some (n, t) := by
    simp [incrementWindow, incrementAt?]
  simp only [fusibleAt?, found, ite_eq_right_iff, reduceCtorEq, imp_false, not_or]
  apply and_congr_right
  intro apart
  rw [countP_reads_eq_one_iff apart]
  simp

end Reads

/-! ### How the lines are cut -/

/-- The pieces are those that fusing among the lines `all` cuts: a line is kept where no increment begins that
can be fused. -/
inductive Cut (all : List Line) : List Piece → Prop
  | nil : Cut all []
  | kept {line : Line} {pieces : List Piece}
      (stays : fusibleAt? all (line :: pieces.flatMap before) = none) (rest : Cut all pieces) :
      Cut all (.kept line :: pieces)
  | fused {n t : Nat} {pieces : List Piece} (once : t = n ∨ all.countP (Line.reads t) = 1)
      (rest : Cut all pieces) : Cut all (.fused n t :: pieces)

namespace Cut

variable {all : List Line} {pieces pieces' : List Piece} {n t : Nat}

/-- The end of a cut is a cut of the lines that are left. -/
theorem of_append (cut : Cut all (pieces ++ pieces')) :
  Cut all pieces'
  := by
  induction pieces with
  | nil => apply cut
  | cons piece pieces ih =>
      cases cut with
      | kept _ rest => apply ih rest
      | fused _ rest => apply ih rest

/-- Nothing can be fused at a line that is kept. -/
theorem stays (cut : Cut all pieces) {line : Line} (first : pieces.head? = some (.kept line)) :
  fusibleAt? all (pieces.flatMap before) = none
  := by
  cases cut with
  | nil => cases first
  | kept stays _ => apply stays
  | fused => cases first

/-- The slot between is read once, unless it is the one that is incremented. -/
theorem once (cut : Cut all pieces) (mem : .fused n t ∈ pieces) :
  t = n ∨ all.countP (Line.reads t) = 1
  := by
  obtain ⟨ps, qs, rfl⟩ := List.append_of_mem mem
  cases cut.of_append with
  | fused once _ => apply once

end Cut

/-- Fusing cuts lines into pieces; by the recursion of the search. -/
theorem exists_cut (all lines : List Line) :
  ∃ pieces, pieces.flatMap before = lines ∧ Cut all pieces
    ∧ fuseIn all lines = (pieces.map after, pieces.countP isFused)
  := by
  fun_induction fuseIn all lines with
  | case1 =>
      use [], rfl, .nil
      rfl
  | case2 line rest n found lines count eq ih =>
      obtain ⟨t, window, once⟩ := fusibleAt?_cons_eq_some found
      obtain ⟨pieces, written, cut, same⟩ := ih
      rw [eq, Prod.mk.injEq] at same
      refine ⟨.fused n t :: pieces, ?_, .fused once cut, ?_⟩
      · rw [List.flatMap_cons, written, window, before]
      · simp [same, after, isFused, List.countP_cons]
  | case3 line rest stays lines count eq ih =>
      obtain ⟨pieces, rfl, cut, same⟩ := ih
      rw [eq, Prod.mk.injEq] at same
      use .kept line :: pieces, rfl, .kept stays cut
      simp [same, after, isFused]

/-- Fusing increments writes no other line than increments. -/
theorem mem_of_mem_fuseIn {all lines : List Line} {line : Line} (mem : line ∈ (fuseIn all lines).1) :
  line ∈ lines ∨ ∃ n, line = .inst (.inc n 1)
  := by
  obtain ⟨pieces, rfl, -, same⟩ := exists_cut all lines
  rw [same] at mem
  obtain mem | ⟨n, t, -, rfl⟩ := mem_of_mem_map_after mem
  · left
    apply mem
  · right
    use n

/-- Fusing increments keeps the labels. -/
theorem labelNames_fuseIn (all lines : List Line) :
  Line.labelNames (fuseIn all lines).1 = Line.labelNames lines
  := by
  obtain ⟨pieces, rfl, -, same⟩ := exists_cut all lines
  rw [same, labelNames_map_after]

/-! ### Nothing is left to fuse -/

/-- An increment that is left after fusing was there before and was not fused, so it goes by way of another
slot that is still read elsewhere. -/
theorem Cut.reads_of_window {pieces : List Piece} (cut : Cut (pieces.flatMap before) pieces)
    {pre post : List Line} {n t : Nat} (left : pieces.map after = pre ++ (incrementWindow n t ++ post)) :
  t ≠ n ∧ ∃ line ∈ pre ++ post, line.reads t = true
  := by
  obtain ⟨ps, others, rfl, rfl, onward⟩ := List.map_eq_append_iff.1 left
  obtain ⟨ws, qs, rfl, window, rfl⟩ := List.map_eq_append_iff.1 onward
  obtain rfl : ws = (incrementWindow n t).map Piece.kept := by
    apply eq_map_kept window
    simp [incrementWindow]
  have stays := cut.of_append.stays rfl
  simp only [List.flatMap_append, flatMap_before_kept] at cut stays
  obtain ⟨apart, line, mem, reads⟩ := fusibleAt?_eq_none_iff.1 stays
  use apart
  have other : 2 ≤ (ps.flatMap before ++ (incrementWindow n t ++ qs.flatMap before)).countP (Line.reads t) := by
    have some : 0 < (ps.flatMap before ++ qs.flatMap before).countP (Line.reads t) :=
      List.countP_pos_iff.2 ⟨line, mem, reads⟩
    rw [countP_reads_around apart]
    omega
  rw [← List.flatMap_append, List.mem_flatMap] at mem
  obtain ⟨piece, among, mem⟩ := mem
  rw [← List.map_append]
  use piece.after, List.mem_map_of_mem among
  cases piece with
  | kept line' =>
      obtain rfl := List.mem_singleton.1 mem
      apply reads
  | fused n' t' =>
      obtain same | same := slot_of_mem_incrementWindow mem reads
      · simp [after, Line.reads, same]
      · subst same
        have listed : .fused n' t ∈ ps ++ ((incrementWindow n t).map Piece.kept ++ qs) := by
          rcases List.mem_append.1 among with first | second
          · apply List.mem_append_left _ first
          · apply List.mem_append_right _ (List.mem_append_right _ second)
        obtain rfl | once := cut.once listed
        · simp [after, Line.reads]
        · omega

/-- Where no increment can be fused, fusing changes nothing. -/
theorem fuseIn_eq_self {all lines : List Line}
    (none : ∀ pre rest, lines = pre ++ rest → fusibleAt? all rest = none) :
  fuseIn all lines = (lines, 0)
  := by
  induction lines with
  | nil => rw [fuseIn]
  | cons line lines ih =>
      have rest : fuseIn all lines = (lines, 0) := by
        apply ih
        intro pre rest split
        apply none (line :: pre) rest
        rw [split, List.cons_append]
      rw [fuseIn, none [] _ rfl, rest]

/-- Fusing is complete: fusing again changes nothing and counts nothing, for every increment that is left goes
by way of another slot that is still read elsewhere. Each increment that is counted takes five lines away. The
labels stay in their order, and so do all lines outside the increments that are fused, each of which goes by
way of its own slot or of one that no line outside it reads. -/
theorem fuseIncrements_complete (lines : List Line) :
  fuseIncrements (fuseIncrements lines).1 = ((fuseIncrements lines).1, 0)
    ∧ (∀ pre n t post, (fuseIncrements lines).1 = pre ++ (incrementWindow n t ++ post) →
      t ≠ n ∧ ∃ line ∈ pre ++ post, line.reads t = true)
    ∧ lines.length = (fuseIncrements lines).1.length + 5 * (fuseIncrements lines).2
    ∧ Line.labelNames (fuseIncrements lines).1 = Line.labelNames lines
    ∧ ∃ pieces : List Piece, pieces.flatMap before = lines
      ∧ pieces.map after = (fuseIncrements lines).1
      ∧ pieces.countP isFused = (fuseIncrements lines).2
      ∧ ∀ ps n t qs, pieces = ps ++ .fused n t :: qs →
        t = n ∨ ∀ line ∈ (ps ++ qs).flatMap before, line.reads t = false
  := by
  obtain ⟨pieces, rfl, cut, same⟩ := exists_cut lines lines
  have whole : fuseIncrements (pieces.flatMap before) = (pieces.map after, pieces.countP isFused) := same
  rw [whole]
  have left : ∀ pre n t post, pieces.map after = pre ++ (incrementWindow n t ++ post) →
      t ≠ n ∧ ∃ line ∈ pre ++ post, line.reads t = true := fun _ _ _ _ => cut.reads_of_window
  refine ⟨?_, left, length_before pieces, labelNames_map_after pieces, pieces, rfl, rfl, rfl, ?_⟩
  · apply fuseIn_eq_self
    intro pre rest split
    cases found : fusibleAt? (pieces.map after) rest with
    | none => rfl
    | some n =>
        obtain ⟨t, post, rfl, -⟩ := fusibleAt?_eq_some found
        have kept := fusibleAt?_eq_none_iff.2 (left pre n t post split)
        rw [← split, found] at kept
        cases kept
  · rintro ps n t qs rfl
    by_cases own : t = n
    · left
      apply own
    · right
      have once := (cut.once (List.mem_append_right _ (List.mem_cons_self ..))).resolve_left own
      rw [List.flatMap_append, List.flatMap_cons] at once
      rw [List.flatMap_append]
      apply (countP_reads_eq_one_iff own).1 once

end StackBackend
