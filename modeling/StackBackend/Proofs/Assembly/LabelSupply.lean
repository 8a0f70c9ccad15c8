import Mathlib.Tactic.Use
import StackBackend.Assembly.LabelSupply

/-!
# Fresh labels are new

The number of a label can be read off its end, so a label in use rules out one number at most, and
the search for a number at which all stems are free succeeds. Labels made together differ from each
other and from all labels in use before, and are in use afterwards.
-/

namespace StackBackend.LabelSupply

/-- A numbered label determines its stem and its number: digits hold no underscore. -/
theorem numbered_inj {stem stem' : String} {n n' : Nat} (h : numbered stem n = numbered stem' n') :
  stem = stem' ∧ n = n'
  := by
  have digits (k : Nat) : ∀ c ∈ (Nat.toDigits 10 k).reverse, (c != '_') = true := by
    intro c hc
    have digit := Nat.isDigit_of_mem_toDigits (by decide) (by decide) (List.mem_reverse.1 hc)
    rw [bne_iff_ne]
    rintro rfl
    simp at digit
  have chars (stem : String) (k : Nat) : (numbered stem k).toList.reverse
      = (Nat.toDigits 10 k).reverse ++ '_' :: stem.toList.reverse := by
    have text : toString k = String.ofList (Nat.toDigits 10 k) := Nat.repr_eq_ofList_toDigits
    simp [numbered, String.toList_append, text]
  have same := congrArg (fun s => s.toList.reverse) h
  simp only [chars] at same
  have numbers := congrArg (List.takeWhile (· != '_')) same
  rw [List.takeWhile_append_of_pos (digits n), List.takeWhile_append_of_pos (digits n')] at numbers
  have equal : Nat.toDigits 10 n = Nat.toDigits 10 n' := by simpa using numbers
  have number : n = n' := by
    rw [← Nat.ofDigitChars_toDigits (b := 10) (n := n) (by decide) (by decide), equal]
    apply Nat.ofDigitChars_toDigits (by decide) (by decide)
  subst number
  constructor
  · have stems := List.append_cancel_left same
    simp only [List.cons.injEq, true_and, List.reverse_inj] at stems
    apply String.toList_inj.1 stems
  · rfl

/-- At the number that is found all stems are free. -/
theorem isFree_number (s : LabelSupply) (stems : List String) :
  s.isFree stems (s.number stems) = true
  := by
  have one (m n : Nat) (b : String) (hm : ∃ stem, numbered stem m = b)
      (hn : ∃ stem, numbered stem n = b) : m = n := by
    obtain ⟨stem, rfl⟩ := hm
    obtain ⟨stem', h⟩ := hn
    apply (numbered_inj h).2.symm
  have few : s.reserved.toList.length ≤ s.reserved.size :=
    Nat.le_of_eq Std.ExtTreeSet.length_toList
  apply leastFrom_of_obstacles one few
  intro n _ taken
  have used : ∃ stem ∈ stems, numbered stem n ∈ s.reserved := by simpa [isFree] using taken
  obtain ⟨stem, -, used⟩ := used
  use numbered stem n, Std.ExtTreeSet.mem_toList.2 used, stem

variable {s t : LabelSupply} {stems labels : List String}

/-- A label made new was not in use. -/
theorem not_mem_of_fresh (h : s.fresh stems = (labels, t)) {label : String} (hl : label ∈ labels) :
  label ∉ s.reserved
  := by
  simp only [fresh, Prod.mk.injEq] at h
  obtain ⟨rfl, -⟩ := h
  obtain ⟨stem, hs, rfl⟩ := List.mem_map.1 hl
  have free := isFree_number s stems
  simp only [isFree, List.all_eq_true, decide_eq_true_eq] at free
  apply free stem hs

/-- After labels are made, they are in use together with those before. -/
theorem mem_reserved_of_fresh (h : s.fresh stems = (labels, t)) {label : String} :
  label ∈ t.reserved ↔ label ∈ labels ∨ label ∈ s.reserved
  := by
  simp only [fresh, Prod.mk.injEq] at h
  obtain ⟨rfl, rfl⟩ := h
  rw [Std.ExtTreeSet.mem_insertMany_list, List.contains_iff_mem]
  apply Or.comm

/-- Labels of different stems made together differ. -/
theorem nodup_of_fresh (h : s.fresh stems = (labels, t)) (nodup : stems.Nodup) :
  labels.Nodup
  := by
  simp only [fresh, Prod.mk.injEq] at h
  obtain ⟨rfl, -⟩ := h
  apply List.Pairwise.map _ _ nodup
  intro stem stem' differ same
  apply differ (numbered_inj same).1

end StackBackend.LabelSupply
