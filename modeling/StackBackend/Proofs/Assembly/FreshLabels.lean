import Mathlib.Order.Bounds.Basic
import StackBackend.Proofs.Assembly.LabelSupply
import StackBackend.Proofs.Assembly.Listing

/-!
# Fresh labels while a method is written

The search for fresh labels is a loop: it tries number after number until no label with the number is in
use. It always comes to an end, at the least number that it may try and that all stems are free at, and the
search with a bound finds the same labels. While a method is written, lines and requests for labels alternate;
the labels in use are those from the start and those made so far, and the numbers tried go up without a gap. So
the labels made at one request are new, and differ from those made at any other, whatever the stems are.
-/

namespace StackBackend

namespace LabelSupply

variable {s t : LabelSupply} {stems labels : List String} {tried : List Nat}

/-! ### The search as a loop -/

/-- A number is free if no label of it is reserved. -/
theorem isFree_iff {n : Nat} :
  s.isFree stems n = true ↔ ∀ stem ∈ stems, numbered stem n ∉ s.reserved
  := by
  simp [isFree]

/-- The number that is found is the least one not tried yet at which all stems are free. -/
theorem isLeast_number (s : LabelSupply) (stems : List String) :
  IsLeast {n | s.next ≤ n ∧ ∀ stem ∈ stems, numbered stem n ∉ s.reserved} (s.number stems)
  := by
  constructor
  · use le_leastFrom _ _ _, isFree_iff.1 (isFree_number s stems)
  · rintro n ⟨from_next, free⟩
    by_contra! less
    have taken := not_of_lt_leastFrom from_next less
    rw [isFree_iff.2 free] at taken
    contradiction

/-- One turn of the search: the next number is tried, and the labels with it are made unless one of them is
in use. -/
def attempt (s : LabelSupply) (stems : List String) : Option (List String) × LabelSupply :=
  let labels := stems.map (numbered · s.next)
  if labels.all (· ∉ s.reserved) then (some labels, ⟨s.next + 1, s.reserved.insertMany labels⟩)
  else (none, ⟨s.next + 1, s.reserved⟩)

/-- The search without a bound: turns follow each other until labels are made. It goes with the numbers that
are tried. -/
inductive Searches (stems : List String) :
    LabelSupply → List Nat → List String → LabelSupply → Prop
  | found {s t : LabelSupply} {labels : List String} (made : s.attempt stems = (some labels, t)) :
      Searches stems s [s.next] labels t
  | again {s t t' : LabelSupply} {tried : List Nat} {labels : List String}
      (failed : s.attempt stems = (none, t)) (rest : Searches stems t tried labels t') :
      Searches stems s (s.next :: tried) labels t'

/-- The numbers that are tried between two states of a supply. -/
def between (s t : LabelSupply) : List Nat := List.range' s.next (t.next - s.next)

theorem between_self (s : LabelSupply) :
  s.between s = []
  := by
  simp [between]

/-- The numbers that have been tried between two supplies. -/
theorem mem_between {n : Nat} :
  n ∈ s.between t ↔ s.next ≤ n ∧ n < t.next
  := by
  rw [between, List.mem_range'_1]
  omega

theorem all_map_numbered (s : LabelSupply) (stems : List String) (n : Nat) :
  ((stems.map (numbered · n)).all (· ∉ s.reserved)) = s.isFree stems n
  := by
  rw [List.all_map]
  rfl

/-- Where the next number is free, it is taken. -/
theorem fresh_of_made (made : s.attempt stems = (some labels, t)) :
  s.fresh stems = (labels, t)
  := by
  simp only [attempt, all_map_numbered] at made
  split at made
  · next free =>
      have number : s.number stems = s.next :=
        (s.isLeast_number stems).unique ⟨⟨Nat.le_refl _, isFree_iff.1 free⟩, fun n mem => mem.1⟩
      simpa [fresh, number] using made
  · simp at made

/-- Where the next number is not free, the search goes on after it. -/
theorem fresh_of_failed (failed : s.attempt stems = (none, t)) :
  s.fresh stems = t.fresh stems
  := by
  simp only [attempt, all_map_numbered] at failed
  split at failed
  · simp at failed
  · next taken =>
      obtain rfl : (⟨s.next + 1, s.reserved⟩ : LabelSupply) = t := by simpa using failed
      have number : s.number stems = number ⟨s.next + 1, s.reserved⟩ stems := by
        apply (s.isLeast_number stems).unique
        obtain ⟨⟨from_next, free⟩, least⟩ := isLeast_number ⟨s.next + 1, s.reserved⟩ stems
        constructor
        · use Nat.le_of_succ_le from_next, free
        · rintro n ⟨le, free⟩
          have other : s.next ≠ n := by
            rintro rfl
            apply taken (isFree_iff.2 free)
          apply least
          use Nat.lt_of_le_of_ne le other, free
      simp [fresh, number]

/-- An attempt moves the next number on by one. -/
theorem next_attempt (s : LabelSupply) (stems : List String) :
  (s.attempt stems).2.next = s.next + 1
  := by
  simp only [attempt]
  split <;> rfl

/-- Making labels moves the next number on. -/
theorem next_lt_of_fresh (made : s.fresh stems = (labels, t)) :
  s.next < t.next
  := by
  simp only [fresh, Prod.mk.injEq] at made
  obtain ⟨-, rfl⟩ := made
  apply Nat.lt_succ_of_le (s.isLeast_number stems).1.1

/-- The first number that is tried is the next one. -/
theorem between_of_attempt {outcome : Option (List String)} {t' : LabelSupply}
    (tries : s.attempt stems = (outcome, t)) (le : t.next ≤ t'.next) :
  s.between t' = s.next :: t.between t'
  := by
  have next : t.next = s.next + 1 := by rw [← next_attempt s stems, tries]
  have more : t'.next - s.next = t'.next - t.next + 1 := by omega
  rw [between, between, more, List.range'_succ, next]

/-- The search without a bound comes to an end, and in one way only: with the labels that the search with a
bound finds. Each turn that fails brings the next number nearer to the one where the search ends. -/
theorem searches_iff :
  Searches stems s tried labels t ↔ s.fresh stems = (labels, t) ∧ tried = s.between t
  := by
  constructor
  · intro search
    induction search with
    | found made =>
        use fresh_of_made made
        rw [between_of_attempt made (Nat.le_refl _), between_self]
    | again failed _ ih =>
        obtain ⟨made, rfl⟩ := ih
        use (fresh_of_failed failed).trans made
        rw [between_of_attempt failed (Nat.le_of_lt (next_lt_of_fresh made))]
  · rintro ⟨made, rfl⟩
    induction left : t.next - s.next using Nat.strong_induction_on generalizing s with
    | _ left ih =>
        rcases tries : s.attempt stems with ⟨outcome, t'⟩
        have next : t'.next = s.next + 1 := by rw [← next_attempt s stems, tries]
        have later := next_lt_of_fresh made
        cases outcome with
        | some labels' =>
            obtain ⟨rfl, rfl⟩ := Prod.mk.inj ((fresh_of_made tries).symm.trans made)
            rw [between_of_attempt tries (Nat.le_refl _), between_self]
            apply LabelSupply.Searches.found tries
        | none =>
            rw [fresh_of_failed tries] at made
            rw [between_of_attempt tries (Nat.le_of_lt (next_lt_of_fresh made))]
            apply LabelSupply.Searches.again tries (ih (t.next - t'.next) (by omega) made rfl)

end LabelSupply

/-! ### Labels drawn while a method is written -/

/-- Labels that are made together: the stems, the supply before and after, and the labels. -/
structure Draw where
  stems : List String
  supply : LabelSupply
  labels : List String
  left : LabelSupply

namespace Draw

/-- The numbers that are tried for the labels. -/
def tried (d : Draw) : List Nat := d.supply.between d.left

/-- After a draw the numbers not tried yet are those before it that come after all it tried. -/
theorem next_left_le_iff {d : Draw} (drawn : d.supply.fresh d.stems = (d.labels, d.left)) {n : Nat} :
  d.left.next ≤ n ↔ d.supply.next ≤ n ∧ ∀ k ∈ d.tried, k < n
  := by
  have later := LabelSupply.next_lt_of_fresh drawn
  constructor
  · intro le
    constructor
    · omega
    · intro k mem
      apply Nat.lt_of_lt_of_le (LabelSupply.mem_between.1 mem).2 le
  · rintro ⟨-, above⟩
    have last := above (d.left.next - 1) (LabelSupply.mem_between.2 (by omega))
    omega

/-- Each draw is made from the supply that the one before it left, the first from `s`. -/
inductive Linked : LabelSupply → List Draw → Prop
  | nil {s : LabelSupply} : Linked s []
  | cons {d : Draw} {ds : List Draw} (drawn : d.supply.fresh d.stems = (d.labels, d.left))
      (rest : Linked d.left ds) : Linked d.supply (d :: ds)

variable {s : LabelSupply} {before ds : List Draw}

/-- The supply after draws: the labels in use are those from the start and those drawn, and the numbers not
tried yet come after all that were. -/
theorem Linked.after (linked : Linked s (before ++ ds)) :
  ∃ t, Linked t ds
    ∧ (∀ label, label ∈ t.reserved ↔ label ∈ s.reserved ∨ ∃ e ∈ before, label ∈ e.labels)
    ∧ ∀ n, t.next ≤ n ↔ s.next ≤ n ∧ ∀ e ∈ before, ∀ k ∈ e.tried, k < n
  := by
  induction before generalizing s with
  | nil =>
      use s, linked
      constructor
      · simp
      · simp
  | cons e before ih =>
      cases linked with
      | cons drawn rest =>
          obtain ⟨t, linked, reserved, next⟩ := ih rest
          use t, linked
          constructor
          · intro label
            rw [reserved, LabelSupply.mem_reserved_of_fresh drawn]
            simp only [List.mem_cons, exists_eq_or_imp]
            apply or_assoc.trans or_left_comm
          · intro n
            rw [next, List.forall_mem_cons, next_left_le_iff drawn, and_assoc]

end Draw

namespace Listing

/-- A use of a listing while a method is written: a line is added, or labels are made. -/
inductive Use where
  | write (line : Line)
  | take (stems : List String)

/-- The stems that labels are made for. -/
def Use.stems? : Use → Option (List String)
  | write _ => none
  | take stems => some stems

/-- The draws made in uses one after the other, and the listing at the end. A line that cannot be counted ends
the uses. -/
def serve (l : Listing) : List Use → List Draw × Except FrameFault Listing
  | [] => ([], .ok l)
  | .write line :: uses =>
      match l.push line with
      | .error fault => ([], .error fault)
      | .ok l' => l'.serve uses
  | .take stems :: uses =>
      let (labels, l') := l.fresh stems
      let (draws, outcome) := l'.serve uses
      (⟨stems, l.supply, labels, l'.supply⟩ :: draws, outcome)

theorem serve_take (l : Listing) (stems : List String) (uses : List Use) :
  l.serve (.take stems :: uses)
    = (⟨stems, l.supply, (l.fresh stems).1, (l.fresh stems).2.supply⟩ :: ((l.fresh stems).2.serve uses).1,
      ((l.fresh stems).2.serve uses).2)
  := rfl

/-- Lines leave the supply as it is, so the draws follow from each other. -/
theorem linked_serve (l : Listing) (uses : List Use) :
  Draw.Linked l.supply (l.serve uses).1
  := by
  induction uses generalizing l with
  | nil => apply Draw.Linked.nil
  | cons use uses ih =>
      cases use with
      | write line =>
          rw [serve]
          split
          · apply Draw.Linked.nil
          · next l' pushed =>
              rw [push_eq] at pushed
              obtain ⟨frame, -, rfl⟩ := eq_ok_of_map pushed
              apply ih { l with lines := l.lines ++ [line], frame := frame }
      | take stems =>
          rw [serve_take]
          apply Draw.Linked.cons (d := ⟨stems, l.supply, _, _⟩) rfl (ih (l.fresh stems).2)

/-- Labels are made at every request, unless a line cannot be counted. -/
theorem stems_serve {l l' : Listing} {uses : List Use} (done : (l.serve uses).2 = .ok l') :
  (l.serve uses).1.map Draw.stems = uses.filterMap Use.stems?
  := by
  induction uses generalizing l with
  | nil => rfl
  | cons use uses ih =>
      cases use with
      | write line =>
          rw [serve] at done ⊢
          split at done
          · contradiction
          · rw [List.filterMap_cons_none rfl]
            apply ih done
      | take stems =>
          rw [serve_take] at done ⊢
          apply congrArg (stems :: ·) (ih done)

end Listing

/-- Fresh labels exist, are new and have the least number. Whatever labels are reserved at the start, and however
lines and requests for labels alternate while a method is written, labels are made at every request unless a line
cannot be counted. At each request the search without a bound ends, and in one way only. Its labels have the least
number after those tried before at which none of them is in use, where those in use are the reserved ones and
those made before. So the labels are new, and those of different requests differ. -/
theorem fresh_labels_least_and_new (entrySlots : Nat) (reserved : List String) (uses : List Listing.Use) :
  let run := (Listing.start entrySlots (.ofLabels reserved)).serve uses
  (∀ l, run.2 = .ok l → run.1.map Draw.stems = uses.filterMap Listing.Use.stems?)
    ∧ ∀ (before : List Draw) (d : Draw) (after : List Draw), run.1 = before ++ d :: after →
      (∀ tried labels left, d.supply.Searches d.stems tried labels left ↔
          tried = d.tried ∧ labels = d.labels ∧ left = d.left)
        ∧ (∀ label, label ∈ d.supply.reserved ↔ label ∈ reserved ∨ ∃ e ∈ before, label ∈ e.labels)
        ∧ (∃ n, d.labels = d.stems.map (LabelSupply.numbered · n)
          ∧ IsLeast {k | (∀ e ∈ before, ∀ j ∈ e.tried, j < k)
            ∧ ∀ stem ∈ d.stems, LabelSupply.numbered stem k ∉ d.supply.reserved} n)
        ∧ (∀ label ∈ d.labels, label ∉ d.supply.reserved)
        ∧ ∀ e ∈ before, ∀ label ∈ e.labels, label ∉ d.labels
  := by
  intro run
  refine ⟨fun l done => Listing.stems_serve done, ?_⟩
  intro before d after split
  have linked := Listing.linked_serve (Listing.start entrySlots (.ofLabels reserved)) uses
  rw [split] at linked
  obtain ⟨_, linked, inUse, next⟩ := linked.after
  cases linked with
  | cons drawn _ =>
      have inUse (label : String) :
          label ∈ d.supply.reserved ↔ label ∈ reserved ∨ ∃ e ∈ before, label ∈ e.labels := by
        rw [inUse]
        simp [Listing.start, LabelSupply.ofLabels, Std.ExtTreeSet.mem_ofList]
      have next (k : Nat) : (∀ e ∈ before, ∀ j ∈ e.tried, j < k) ↔ d.supply.next ≤ k := by
        rw [next]
        simp [Listing.start, LabelSupply.ofLabels]
      have new : ∀ label ∈ d.labels, label ∉ d.supply.reserved := by
        intro label mem
        apply LabelSupply.not_mem_of_fresh drawn mem
      refine ⟨?_, inUse, ?_, new, ?_⟩
      · intro tried labels left
        rw [LabelSupply.searches_iff, drawn, Prod.mk.injEq]
        constructor
        · rintro ⟨⟨rfl, rfl⟩, rfl⟩
          use rfl
        · rintro ⟨rfl, rfl, rfl⟩
          constructor
          · use rfl
          · rfl
      · use d.supply.number d.stems, (Prod.mk.inj drawn).1.symm
        simp only [next]
        apply d.supply.isLeast_number d.stems
      · intro e mem label made again
        apply new label again
        apply (inUse label).2
        right
        use e, mem, made

/-- Reserved labels that look like fresh ones, and a stem that ends like a label. -/
theorem imitated_labels_fresh :
  let run := (Listing.start 0 (.ofLabels ["j_end_0", "j_1_2"])).serve
    [.take ["j_true", "j_end"], .write (.label "j_true_1"), .take ["j_1", "j"], .take ["j_1"]]
  run.1.map Draw.labels = [["j_true_1", "j_end_1"], ["j_1_3", "j_3"], ["j_1_4"]]
    ∧ ∃ before d, run.1 = before ++ [d] ∧ (∀ label ∈ d.labels, label ∉ d.supply.reserved)
      ∧ ∀ e ∈ before, ∀ label ∈ e.labels, label ∉ d.labels
  := by
  intro run
  have made : run.1.map Draw.labels = [["j_true_1", "j_end_1"], ["j_1_3", "j_3"], ["j_1_4"]] := by
    decide +kernel
  have some : run.1 ≠ [] := by
    intro none
    simp [none] at made
  have split := (List.dropLast_concat_getLast some).symm
  exact ⟨made, _, _, split, ((fresh_labels_least_and_new 0 ["j_end_0", "j_1_2"] _).2 _ _ [] split).2.2.2⟩

end StackBackend
