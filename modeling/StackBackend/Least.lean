/-!
# The least number with a property

`leastFrom p start bound` is the least number from `start` on with the property `p`, looked
for among `bound` numbers; when none of them has it, the number after them is taken. With
`bound` at least the number of obstacles in the way the result always has the property.
-/

namespace StackBackend

/-- The least `n` with `start ≤ n < start + bound` and `p n`, or `start + bound`. -/
def leastFrom (p : Nat → Bool) (start : Nat) : Nat → Nat
  | 0 => start
  | bound + 1 => if p start then start else leastFrom p (start + 1) bound

theorem le_leastFrom (p : Nat → Bool) (start bound : Nat) :
  start ≤ leastFrom p start bound
  := by
  induction bound generalizing start with
  | zero => simp [leastFrom]
  | succ bound ih =>
      simp only [leastFrom]
      split
      · exact Nat.le_refl start
      · exact Nat.le_of_succ_le (ih (start + 1))

/-- No number passed over has the property. -/
theorem not_of_lt_leastFrom {p : Nat → Bool} {start bound n : Nat} (hs : start ≤ n)
    (hn : n < leastFrom p start bound) :
  p n = false
  := by
  induction bound generalizing start with
  | zero => exact absurd hn (by simp only [leastFrom]; omega)
  | succ bound ih =>
      simp only [leastFrom] at hn
      split at hn
      · omega
      · next h =>
          by_cases he : start = n
          · subst he
            simpa using h
          · exact ih (by omega) hn

/-- Where each number without the property is ruled out by an obstacle, and an obstacle rules out one
number at most, a search as long as the obstacles are many finds a number with the property. -/
theorem leastFrom_of_obstacles {β : Type} [DecidableEq β] {p : Nat → Bool} {start bound : Nat}
    {blocks : Nat → β → Prop} (one : ∀ m n b, blocks m b → blocks n b → m = n)
    {obstacles : List β} (few : obstacles.length ≤ bound)
    (found : ∀ n, start ≤ n → p n = false → ∃ b ∈ obstacles, blocks n b) :
  p (leastFrom p start bound) = true
  := by
  induction bound generalizing start obstacles with
  | zero =>
      cases h : p start with
      | true => exact h
      | false =>
          obtain ⟨b, hb, -⟩ := found start (Nat.le_refl start) h
          obtain rfl : obstacles = [] := List.length_eq_zero_iff.1 (Nat.le_zero.1 few)
          simp at hb
  | succ bound ih =>
      simp only [leastFrom]
      split
      · next h => exact h
      · next h =>
          obtain ⟨b, hb, blocked⟩ := found start (Nat.le_refl start) (by simpa using h)
          have fewer : (obstacles.erase b).length ≤ bound := by
            rw [List.length_erase_of_mem hb]
            omega
          apply ih fewer
          intro n hn failed
          obtain ⟨c, hc, blocked'⟩ := found n (by omega) failed
          have other : c ≠ b := by
            intro same
            have := one n start c blocked' (same ▸ blocked)
            omega
          exact ⟨c, (List.mem_erase_of_ne other).2 hc, blocked'⟩

end StackBackend
