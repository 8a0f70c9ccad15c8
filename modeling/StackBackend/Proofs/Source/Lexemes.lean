import Mathlib.Tactic.Use
import StackBackend.Source.Lexer

/-!
# What lexemes are made of

A derivative of an expression matches rests of words of the expression, so the prefix that matching
finds is a word of it. Each lexeme with a rule is a word of the rule, and the characters of an
identifier are those that identifiers may have.
-/

namespace StackBackend

namespace Regex

variable {r a b : Regex} {w : List Char}

/-- A nullable expression matches the empty word. -/
theorem matches_nil_of_nullable (h : r.nullable = true) :
  Matches r []
  := by
  induction r with
  | never | one => simp [nullable] at h
  | empty => apply Regex.Matches.empty
  | star => apply Regex.Matches.starNil
  | seq a b iha ihb =>
      simp only [nullable, Bool.and_eq_true] at h
      apply Regex.Matches.seq (iha h.1) (ihb h.2)
  | alt a b iha ihb =>
      simp only [nullable, Bool.or_eq_true] at h
      obtain h | h := h
      · apply Regex.Matches.altLeft (iha h)
      · apply Regex.Matches.altRight (ihb h)

/-- The short sequence matches nothing else. -/
theorem matches_of_andThen (h : Matches (a.andThen b) w) :
  Matches (.seq a b) w
  := by
  unfold andThen at h
  split at h
  · cases h
  · apply Regex.Matches.seq .empty h
  · apply h

/-- The short alternative matches nothing else. -/
theorem matches_of_orElse (h : Matches (a.orElse b) w) :
  Matches a w ∨ Matches b w
  := by
  unfold orElse at h
  split at h
  · right
    apply h
  · left
    apply h
  · cases h with
    | altLeft h =>
        left
        apply h
    | altRight h =>
        right
        apply h

/-- A word of the derivative is the rest of a word that begins with the character. -/
theorem matches_of_deriv {c : Char} (h : Matches (r.deriv c) w) :
  Matches r (c :: w)
  := by
  induction r generalizing w with
  | never | empty => cases h
  | one p =>
      simp only [deriv] at h
      split at h
      · next holds =>
          cases h
          apply Regex.Matches.one holds
      · cases h
  | seq a b iha ihb =>
      have first (h : Matches ((a.deriv c).andThen b) w) : Matches (.seq a b) (c :: w) := by
        cases matches_of_andThen h with
        | seq ha hb => apply Regex.Matches.seq (iha ha) hb
      simp only [deriv] at h
      split at h
      · next nullable =>
          obtain h | h := matches_of_orElse h
          · apply first h
          · apply Regex.Matches.seq (matches_nil_of_nullable nullable) (ihb h)
      · apply first h
  | alt a b iha ihb =>
      obtain h | h := matches_of_orElse h
      · apply Regex.Matches.altLeft (iha h)
      · apply Regex.Matches.altRight (ihb h)
  | star a ih =>
      cases matches_of_andThen h with
      | seq ha hs => apply Regex.Matches.starCons (ih ha) hs

/-- The prefix that is found is a word of the expression. -/
theorem matches_of_longest? {cs : List Char} {n : Nat} (h : r.longest? cs = some n) :
  Matches r (cs.take n)
  := by
  induction cs generalizing r n with
  | nil =>
      unfold longest? at h
      split at h
      · simp at h
      · split at h
        · next nullable => simpa using matches_nil_of_nullable nullable
        · simp at h
  | cons c cs ih =>
      unfold longest? at h
      split at h
      · simp at h
      · cases later : (r.deriv c).longest? cs with
        | some k =>
            obtain rfl : k + 1 = n := by simpa [later] using h
            apply matches_of_deriv (ih later)
        | none =>
            by_cases nullable : r.nullable = true
            · obtain rfl : 0 = n := by simpa [later, nullable] using h
              apply matches_nil_of_nullable nullable
            · simp [later, nullable] at h

theorem forall_of_matches_star {p : Char → Bool} (h : Matches (.star (.one p)) w) :
  ∀ c ∈ w, p c = true
  := by
  generalize same : Regex.star (.one p) = r at h
  induction h with
  | starNil => simp
  | starCons ha hs _ ih =>
      cases same
      cases ha with
      | one holds =>
          intro c mem
          obtain rfl | mem := List.mem_cons.1 mem
          · apply holds
          · apply ih rfl c mem
  | empty | one | seq | altLeft | altRight => cases same

end Regex

/-! ### Lexemes -/

namespace Lexeme

/-- The best of a list of matches is one of them. -/
theorem mem_of_foldl_better {xs : List (LexRule × Nat)} {start : Option (LexRule × Nat)}
    {e : LexRule × Nat} (h : xs.foldl better start = some e) :
  start = some e ∨ e ∈ xs
  := by
  induction xs generalizing start with
  | nil =>
      left
      apply h
  | cons x xs ih =>
      rw [List.foldl_cons] at h
      obtain kept | mem := ih h
      · unfold better at kept
        split at kept
        · cases kept
          right
          apply List.mem_cons_self ..
        · split at kept
          · cases kept
            right
            apply List.mem_cons_self ..
          · left
            apply kept
      · right
        apply List.mem_cons_of_mem x mem

/-- The best match is a word of its rule. -/
theorem matches_of_best? {c : Char} {cs : List Char} {rule : LexRule} {n : Nat}
    (h : best? c cs = some (rule, n)) :
  rule.regex.Matches (c :: cs.take n)
  := by
  obtain none | mem := mem_of_foldl_better h
  · cases none
  · obtain ⟨e, listed, found⟩ := List.mem_filterMap.1 mem
    obtain ⟨k, longest, same⟩ := Option.map_eq_some_iff.1 found
    obtain ⟨rule', -, rfl⟩ := List.mem_map.1 listed
    obtain ⟨rfl, rfl⟩ : rule' = rule ∧ k = n := by simpa using same
    apply Regex.matches_of_deriv (Regex.matches_of_longest? longest)

/-- A lexeme with a rule is a word of the rule. -/
theorem matches_of_mem_ofChars {cs : List Char} {l : Lexeme} (mem : l ∈ ofChars cs)
    {rule : LexRule} (ruled : l.rule = some rule) :
  rule.regex.Matches l.chars
  := by
  fun_induction ofChars cs with
  | case1 => simp at mem
  | case2 c cs rule' n best ih =>
      obtain rfl | mem := List.mem_cons.1 mem
      · cases ruled
        apply matches_of_best? best
      · apply ih mem
  | case3 c cs none ih =>
      obtain rfl | mem := List.mem_cons.1 mem
      · cases ruled
      · apply ih mem

end Lexeme

/-! ### Identifiers -/

/-- A text of characters that identifiers may have. -/
def IsName (name : String) : Prop := ∀ c ∈ name.toList, LexRule.isIdentRest c = true

/-- An identifier is made of the characters of identifiers. -/
theorem isName_of_matches {cs : List Char} (h : LexRule.ident.regex.Matches cs) :
  IsName (String.ofList cs)
  := by
  intro c mem
  rw [String.toList_ofList] at mem
  cases h with
  | seq first rest =>
      cases first with
      | one starts =>
          obtain rfl | mem := List.mem_cons.1 mem
          · simp [LexRule.isIdentRest, starts]
          · apply Regex.forall_of_matches_star rest c mem

/-- A token of a text is that of a lexeme. -/
theorem Scan.mem_tokens_ofLexemes {start : Nat} {ls : List Lexeme} {t : Located Token}
    (mem : t ∈ (ofLexemes start ls).tokens) :
  ∃ l ∈ ls, l.token? = some t.value
  := by
  induction ls generalizing start with
  | nil => simp [ofLexemes] at mem
  | cons l ls ih =>
      simp only [ofLexemes] at mem
      split at mem
      · simp at mem
      · split at mem
        · next token =>
            obtain rfl | mem := List.mem_cons.1 mem
            · use l, List.mem_cons_self .., token
            · obtain ⟨l', mem', token'⟩ := ih mem
              use l', List.mem_cons_of_mem l mem', token'
        · obtain ⟨l', mem', token'⟩ := ih mem
          use l', List.mem_cons_of_mem l mem', token'

end StackBackend
