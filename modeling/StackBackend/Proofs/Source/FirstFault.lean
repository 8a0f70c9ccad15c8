import Mathlib.Tactic.Use
import StackBackend.Proofs.Source.Openings

/-!
# The first fault of a text

Reading a text fails at the first place where what has been read opens no class any more. The reader
passes only tokens that open a class, and it stops at a token just when that token cannot follow: it
has looked no further, so a class that went on with the token would have been read to its end. The
tokens of a text are not empty and follow each other, so the place of a fault tells its token.
-/

namespace StackBackend

/-! ### Places of tokens -/

/-- The lexemes of a text are not empty. -/
theorem Lexeme.chars_ne_nil_of_mem_ofChars {cs : List Char} {l : Lexeme} (mem : l ∈ ofChars cs) :
  l.chars ≠ []
  := by
  fun_induction ofChars cs with
  | case1 => simp at mem
  | case2 c cs rule n best ih =>
      obtain rfl | mem := List.mem_cons.1 mem
      · simp
      · apply ih mem
  | case3 c cs best ih =>
      obtain rfl | mem := List.mem_cons.1 mem
      · simp
      · apply ih mem

theorem byteLength_pos {cs : List Char} (filled : cs ≠ []) :
  0 < byteLength cs
  := by
  obtain ⟨c, cs, rfl⟩ := List.exists_cons_of_ne_nil filled
  apply Nat.add_pos_left c.utf8Size_pos _

namespace Scan

/-- Tokens of lexemes that begin at byte `start` begin there or later, each one after the one before. -/
theorem pairwise_ofLexemes {ls : List Lexeme} (filled : ∀ l ∈ ls, l.chars ≠ []) (start : Nat) :
  (∀ t ∈ (ofLexemes start ls).tokens, start ≤ t.span.start)
    ∧ (ofLexemes start ls).tokens.Pairwise (·.span.start < ·.span.start)
  := by
  induction ls generalizing start with
  | nil => simp [ofLexemes]
  | cons l ls ih =>
      have longer := byteLength_pos (filled l List.mem_cons_self)
      obtain ⟨later, sorted⟩ := ih (fun l' mem => filled l' (List.mem_cons_of_mem l mem))
        (start + byteLength l.chars)
      simp only [ofLexemes]
      split
      · simp
      · split
        · constructor
          · intro t mem
            obtain rfl | mem := List.mem_cons.1 mem
            · apply Nat.le_refl start
            · have := later t mem
              omega
          · apply List.pairwise_cons.2 ⟨_, sorted⟩
            intro t mem
            apply Nat.lt_of_lt_of_le (Nat.lt_add_of_pos_right longer) (later t mem)
        · constructor
          · intro t mem
            have := later t mem
            omega
          · apply sorted

/-- Two tokens of a text do not have the same place. -/
theorem eq_of_span_eq {text : String} {i j : Nat} (lt : i < (ofText text).tokens.length)
    (lt' : j < (ofText text).tokens.length)
    (same : (ofText text).tokens[i].span = (ofText text).tokens[j].span) :
  i = j
  := by
  have sorted : (ofText text).tokens.Pairwise (·.span.start < ·.span.start) :=
    (pairwise_ofLexemes (fun l mem => Lexeme.chars_ne_nil_of_mem_ofChars mem) 0).2
  rw [List.pairwise_iff_getElem] at sorted
  obtain lt'' | rfl | gt := Nat.lt_trichotomy i j
  · apply absurd (congrArg Span.start same) (Nat.ne_of_lt (sorted i j lt lt' lt''))
  · rfl
  · apply absurd (congrArg Span.start same).symm (Nat.ne_of_lt (sorted j i lt' lt gt))

end Scan

/-! ### Where the reader of classes stops -/

namespace Reader

variable {o : Option UnitDecl} {c d : Cursor} {passed : List (Located Token)}

/-- What is passed opens a class. -/
theorem opens_of_unit (read : unit c = ending o d) (left : c.rest = passed ++ d.rest) :
  Form.Opens Form.unit passed
  := by
  cases o with
  | some decl =>
      obtain ⟨ts, left', row, -⟩ := unit_reads.sound read
      obtain rfl : passed = ts := List.append_cancel_right (left.symm.trans left')
      apply Form.Opens.of_row row
  | none =>
      obtain ⟨ts, left', opens⟩ := unit_tracks.stuck read
      obtain rfl : passed = ts := List.append_cancel_right (left.symm.trans left')
      apply opens

/-- The token it stops at cannot follow: in a class that goes on with it the reader would stop at the
same place, but it reads a class to its end. -/
theorem not_opens_of_unit {t : Located Token} {rest : List (Located Token)} (read : unit c = ending o d)
    (left : c.rest = passed ++ d.rest) (next : d.rest = t :: rest) :
  ¬ Form.Opens Form.unit (passed ++ [t])
  := by
  rintro ⟨more, decl, row⟩
  obtain ⟨tokens, n, ended⟩ := c
  obtain ⟨_, n', ended'⟩ := d
  obtain rfl : _ = t :: rest := next
  obtain rfl : tokens = passed ++ t :: rest := left
  have stops : unit (Cursor.append ⟨passed ++ [t], n, ended⟩ more)
      = ending o (Cursor.append ⟨[t], n', ended'⟩ more) := by
    apply (unit_tracks.steady _).same rest more (Nat.le_refl _) (List.cons_ne_nil t [])
    simpa [Cursor.append] using read
  obtain ⟨e, taken, done⟩ := unit_reads.complete (c := Cursor.append ⟨passed ++ [t], n, ended⟩ more)
    (List.append_nil _).symm row trivial
  obtain ⟨-, rfl⟩ := ending_inj (o := some decl) (taken.symm.trans stops)
  simp at done

end Reader

/-! ### Verdicts -/

/-- How reading a scanned text ends, with what it says of the tokens. -/
inductive Verdict (scan : Scan) : Except SourceError UnitDecl → Prop
  | unexpected {i : Nat} {expected : String} (lt : i < scan.tokens.length)
      (opens : Form.Opens Form.unit (scan.tokens.take i))
      (fault : ¬ Form.Opens Form.unit (scan.tokens.take (i + 1))) :
      Verdict scan (.error ⟨.unexpectedToken scan.tokens[i].value expected, scan.tokens[i].span⟩)
  | stray {bad : Located String} (found : scan.stray = some bad)
      (opens : Form.Opens Form.unit scan.tokens) : Verdict scan (.error ⟨.stray bad.value, bad.span⟩)
  | ended (clean : scan.stray = none) (opens : Form.Opens Form.unit scan.tokens)
      (incomplete : ¬ ∃ decl, Form.unit scan.tokens decl) :
      Verdict scan (.error ⟨.endOfText, ⟨stopAfter 0 scan.tokens, stopAfter 0 scan.tokens⟩⟩)
  | accepted {decl : UnitDecl} (clean : scan.stray = none) (row : Form.unit scan.tokens decl) :
      Verdict scan (.ok decl)

namespace Scan

variable {scan : Scan} {o : Option UnitDecl} {d : Cursor}

/-- A reading that is stuck or has not come to the end of the text fails where it stops. -/
theorem read_of_ending (read : Reader.unit ⟨scan.tokens, 0, none⟩ = Reader.ending o d)
    (fails : o = none ∨ d.rest ≠ [] ∨ scan.stray ≠ none) :
  scan.read = .error (scan.failureAt d)
  := by
  unfold Scan.read
  rw [read]
  cases o with
  | none => rfl
  | some decl =>
      apply if_neg
      simp only [Bool.and_eq_true, List.isEmpty_iff, Option.isNone_iff_eq_none]
      grind

/-- A token that is left where reading ends is the first fault. -/
theorem verdict_of_left (read : Reader.unit ⟨scan.tokens, 0, none⟩ = Reader.ending o d)
    {passed rest : List (Located Token)} {t : Located Token} (left : scan.tokens = passed ++ d.rest)
    (next : d.rest = t :: rest) :
  Verdict scan (scan.read.mapError GrammarFailure.toError)
  := by
  have opens := Reader.opens_of_unit read left
  have fault := Reader.not_opens_of_unit read left next
  rw [next] at left
  have lt : passed.length < scan.tokens.length := by simp [left]
  have token : scan.tokens[passed.length] = t := by simp [left]
  have before : scan.tokens.take passed.length = passed := by simp [left]
  have after : scan.tokens.take (passed.length + 1) = passed ++ [t] := by
    rw [List.take_add_one, before, List.getElem?_eq_getElem lt, token]
    rfl
  rw [read_of_ending read (.inr (.inl (by simp [next]))), failureAt, next]
  rw [← before] at opens
  rw [← after] at fault
  subst token
  apply Verdict.unexpected lt opens fault

/-- Reading a scanned text ends with a verdict on its tokens. -/
theorem read_verdict (scan : Scan) :
  Verdict scan (scan.read.mapError GrammarFailure.toError)
  := by
  obtain ⟨o, d, read⟩ := Reader.exists_ending (Reader.unit ⟨scan.tokens, 0, none⟩)
  obtain ⟨passed, left, stop⟩ := (Reader.unit_tracks.steady 0).moves read
  cases rest : d.rest with
  | cons t rest => apply verdict_of_left read left ‹_›
  | nil =>
      obtain rfl : scan.tokens = passed := by simpa [rest] using left
      have opens := Reader.opens_of_unit read left
      cases stray : scan.stray with
      | some bad =>
          rw [read_of_ending read (.inr (.inr (by simp [stray]))), failureAt, rest, stray]
          apply Verdict.stray stray opens
      | none =>
          cases o with
          | some decl =>
              obtain ⟨ts, all, row, -⟩ := Reader.unit_reads.sound read
              obtain rfl : scan.tokens = ts := by simpa [rest] using all
              rw [read_eq_ok_iff.2 ⟨stray, row⟩]
              apply Verdict.accepted stray row
          | none =>
              have incomplete : ¬ ∃ decl, Form.unit scan.tokens decl := by
                rintro ⟨decl, row⟩
                have accepted := read_eq_ok_iff.2 ⟨stray, row⟩
                rw [read_of_ending read (.inl rfl)] at accepted
                cases accepted
              rw [read_of_ending read (.inl rfl), failureAt, rest, stray]
              obtain ⟨_, offset, _⟩ := d
              obtain rfl : offset = stopAfter 0 scan.tokens := stop
              apply Verdict.ended stray opens incomplete

end Scan

namespace Verdict

variable {scan : Scan} {result : Except SourceError UnitDecl}

/-- Tokens are told apart by their places; reading that ends otherwise than at an unexpected token has
passed all tokens, and they open a class. -/
theorem unexpected_iff (verdict : Verdict scan result)
    (places : ∀ {i j : Nat} (lt : i < scan.tokens.length) (lt' : j < scan.tokens.length),
      scan.tokens[i].span = scan.tokens[j].span → i = j) (i : Fin scan.tokens.length) :
  (∃ expected, result = .error ⟨.unexpectedToken scan.tokens[i].value expected, scan.tokens[i].span⟩)
    ↔ Form.Opens Form.unit (scan.tokens.take i) ∧ ¬ Form.Opens Form.unit (scan.tokens.take (i + 1))
  := by
  constructor
  · rintro ⟨expected, refused⟩
    cases verdict with
    | @unexpected j expected' lt opens fault =>
        have place := congrArg Located.span (Except.error.inj refused)
        obtain rfl : j = i := places lt i.2 place
        exact ⟨opens, fault⟩
    | stray | ended | accepted => cases refused
  · rintro ⟨opens, fault⟩
    cases verdict with
    | @unexpected j expected lt opens' fault' =>
        obtain rfl : j = i := Nat.le_antisymm (opens'.le_of_fault fault) (opens.le_of_fault fault')
        use expected
        rfl
    | stray _ all | ended _ all => apply (fault (all.initial (List.take_prefix _ _))).elim
    | accepted _ row => apply (fault ((Form.Opens.of_row row).initial (List.take_prefix _ _))).elim

/-- The verdict is a stray character if all tokens open a class. -/
theorem stray_iff (verdict : Verdict scan result) (bad : Located String) :
  result = .error ⟨.stray bad.value, bad.span⟩
    ↔ scan.stray = some bad ∧ Form.Opens Form.unit scan.tokens
  := by
  constructor
  · intro refused
    cases verdict with
    | @stray bad' found opens =>
        obtain ⟨value, span⟩ := bad
        obtain ⟨value', span'⟩ := bad'
        cases refused
        use found
    | unexpected | ended | accepted => cases refused
  · rintro ⟨found, opens⟩
    cases verdict with
    | unexpected _ _ fault => apply (fault (opens.initial (List.take_prefix _ _))).elim
    | stray found' =>
        cases found'.symm.trans found
        rfl
    | ended clean | accepted clean => cases clean.symm.trans found

/-- The verdict is the end of the text if all tokens open a class but make none. -/
theorem ended_iff (verdict : Verdict scan result) :
  result = .error ⟨.endOfText, ⟨stopAfter 0 scan.tokens, stopAfter 0 scan.tokens⟩⟩
    ↔ scan.stray = none ∧ Form.Opens Form.unit scan.tokens ∧ ¬ ∃ decl, Form.unit scan.tokens decl
  := by
  constructor
  · intro refused
    cases verdict with
    | ended clean opens incomplete => use clean, opens, incomplete
    | unexpected | stray | accepted => cases refused
  · rintro ⟨clean, opens, incomplete⟩
    cases verdict with
    | unexpected _ _ fault => apply (fault (opens.initial (List.take_prefix _ _))).elim
    | stray found => cases clean.symm.trans found
    | ended => rfl
    | accepted _ row => apply (incomplete ⟨_, row⟩).elim

end Verdict

/-- A text is refused at its first fault. A token is refused if the tokens before it open a class and
do not open one with it. A stray is refused if all tokens before it open a class. The end of the text
is refused if the tokens open a class and are not one. -/
theorem readUnit_refuses_first_fault (text : String) :
  (∀ i : Fin (Scan.ofText text).tokens.length,
    (∃ expected, readUnit text = .error
      ⟨.unexpectedToken (Scan.ofText text).tokens[i].value expected, (Scan.ofText text).tokens[i].span⟩)
    ↔ Form.Opens Form.unit ((Scan.ofText text).tokens.take i)
      ∧ ¬ Form.Opens Form.unit ((Scan.ofText text).tokens.take (i + 1)))
  ∧ (∀ bad : Located String,
    readUnit text = .error ⟨.stray bad.value, bad.span⟩
    ↔ (Scan.ofText text).stray = some bad ∧ Form.Opens Form.unit (Scan.ofText text).tokens)
  ∧ (readUnit text = .error
      ⟨.endOfText, ⟨stopAfter 0 (Scan.ofText text).tokens, stopAfter 0 (Scan.ofText text).tokens⟩⟩
    ↔ (Scan.ofText text).stray = none ∧ Form.Opens Form.unit (Scan.ofText text).tokens
      ∧ ¬ ∃ decl, Form.unit (Scan.ofText text).tokens decl)
  := by
  have verdict : Verdict (Scan.ofText text) (readUnit text) := Scan.read_verdict _
  use verdict.unexpected_iff Scan.eq_of_span_eq, verdict.stray_iff
  apply verdict.ended_iff

end StackBackend
