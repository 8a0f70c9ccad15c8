import Mathlib.Tactic.Use
import StackBackend.Proofs.Source.Sentences

/-!
# One token ahead

A reader never looks past the token it stops at. If it stops before a token of the known beginning of
a list, whatever comes after that beginning may be exchanged and the reader ends in the same way:
with the same value or stuck, at the same place. Readers that repeat or nest are bounded by a count
that grows with the list, so the comparison is made between two readers, on a bounded number of known
tokens; each round or level passes one of them.
-/

namespace StackBackend

variable {α β : Type} {c d e : Cursor} {tail : List (Located Token)}

/-! ### Cursors -/

namespace Cursor

/-- The cursor with further tokens after those that are left. -/
def append (c : Cursor) (tail : List (Located Token)) : Cursor := { c with rest := c.rest ++ tail }

/-- The second cursor is reached from the first one by passing tokens. -/
def Reaches (c d : Cursor) : Prop := ∃ ts, c.rest = ts ++ d.rest ∧ d.offset = stopAfter c.offset ts

@[simp]
theorem rest_append (c : Cursor) (tail : List (Located Token)) :
  (c.append tail).rest = c.rest ++ tail
  := rfl

/-- The tokens that come after those of a cursor can be taken away again. -/
theorem append_inj (same : c.append tail = d.append tail) :
  c = d
  := by
  obtain ⟨rest, offset, ended⟩ := c
  obtain ⟨rest', offset', ended'⟩ := d
  simpa [append] using same

/-- A cursor is reached by passing nothing. -/
theorem Reaches.refl (c : Cursor) :
  c.Reaches c
  := ⟨[], rfl, rfl⟩

/-- Tokens that are passed one row after the other. -/
theorem Reaches.trans (first : c.Reaches d) (second : d.Reaches e) :
  c.Reaches e
  := by
  obtain ⟨us, left, stop⟩ := first
  obtain ⟨vs, left', stop'⟩ := second
  use us ++ vs
  constructor
  · rw [left, left', List.append_assoc]
  · rw [stop', stop, stopAfter_append]

/-- What is left becomes no longer. -/
theorem Reaches.length_le (reaches : c.Reaches d) :
  d.rest.length ≤ c.rest.length
  := by
  obtain ⟨ts, left, -⟩ := reaches
  simp [left]

/-- Before a place in a list with further tokens come only places in that list. -/
theorem Reaches.exists_append (reaches : c.Reaches (d.append tail)) :
  ∃ e : Cursor, c = e.append tail ∧ e.Reaches d
  := by
  obtain ⟨ts, left, stop⟩ := reaches
  refine ⟨⟨ts ++ d.rest, c.offset, c.ended⟩, ?_, ts, rfl, stop⟩
  simp only [append] at left ⊢
  rw [List.append_assoc, ← left]

/-- A place that is reached with further tokens is reached without them. -/
theorem Reaches.of_append (reaches : (c.append tail).Reaches (d.append tail)) :
  c.Reaches d
  := by
  obtain ⟨e, same, reaches⟩ := reaches.exists_append
  rwa [append_inj same]

/-- Where a token is left, one was left before. -/
theorem Reaches.rest_ne_nil (reaches : c.Reaches d) (left : d.rest ≠ []) :
  c.rest ≠ []
  := by
  have fewer := reaches.length_le
  rw [← List.length_pos_iff] at left ⊢
  omega

end Cursor

namespace Reader

/-! ### Readers that agree -/

section Agreement

variable {j k : Nat} {r r' : Reader α} {s s' : α → Reader β}

/-- A reader has ended at a cursor: with a value, or stuck. -/
def ending (o : Option α) (d : Cursor) : Except Cursor (α × Cursor) :=
  match o with
  | some a => .ok (a, d)
  | none => .error d

/-- A reader ends at some cursor. -/
theorem exists_ending (result : Except Cursor (α × Cursor)) :
  ∃ o d, result = ending o d
  := by
  cases result with
  | ok result =>
      use some result.1, result.2
      rfl
  | error d =>
      use none, d
      rfl

/-- It ends in one way, at one cursor. -/
theorem ending_inj {o o' : Option α} (same : ending o d = ending o' e) :
  o = o' ∧ d = e
  := by
  cases o <;> cases o' <;> cases same <;> exact ⟨rfl, rfl⟩

/-- A sequence ends where its second reader ends, or where the first one is stuck. -/
theorem ending_of_bind {o : Option β} (read : (r >>= s) c = ending o d) :
  (∃ a e, r c = ending (some a) e ∧ s a e = ending o d) ∨ o = none ∧ r c = ending none d
  := by
  obtain ⟨first, e, taken⟩ := exists_ending (r c)
  rw [bind_apply, taken] at read
  cases first with
  | some a =>
      left
      use a, e, taken, read
  | none =>
      obtain ⟨rfl, rfl⟩ := ending_inj (o := none) read
      right
      use rfl, taken

/-- What `r` does where it stops before one of `k` known tokens, `r'` does too, whatever comes after
the known tokens. -/
structure Agree (k : Nat) (r r' : Reader α) : Prop where
  moves : ∀ {c d : Cursor} {o : Option α}, r c = ending o d → c.Reaches d
  same : ∀ {c d : Cursor} {o : Option α} (tail tail' : List (Located Token)), c.rest.length ≤ k →
    d.rest ≠ [] → r (c.append tail) = ending o (d.append tail) →
    r' (c.append tail') = ending o (d.append tail')

/-- A reader looks at no token after the one it stops at. -/
def Steady (r : Reader α) : Prop := ∀ k, Agree k r r

/-- A reader that gives a value passes a token. -/
def Passing (r : Reader α) : Prop :=
  ∀ ⦃c d : Cursor⦄ ⦃a : α⦄, r c = .ok (a, d) → d.rest.length < c.rest.length

/-- Where no token is known there is nothing to agree on. -/
theorem Agree.unknown (agree : Agree k r r) :
  Agree 0 r r'
  := by
  use agree.moves
  intro c d o tail tail' known left read
  have some_left := (agree.moves read).of_append.rest_ne_nil left
  apply (some_left (List.eq_nil_of_length_eq_zero (Nat.le_zero.1 known))).elim

/-- Readers in a row; the second ones agree on the tokens that the first one leaves. -/
theorem Agree.seq (first : Agree k r r') (second : ∀ a, Agree j (s a) (s' a))
    (fewer : ∀ {c d : Cursor} {a : α}, r c = .ok (a, d) → d.rest.length + k ≤ c.rest.length + j) :
  Agree k (r >>= s) (r' >>= s')
  := by
  constructor
  · intro c d o read
    obtain ⟨a, e, taken, read⟩ | ⟨rfl, stuck⟩ := ending_of_bind read
    · apply (first.moves taken).trans ((second a).moves read)
    · apply first.moves (o := none) stuck
  · intro c d o tail tail' known left read
    obtain ⟨a, e, taken, read⟩ | ⟨rfl, stuck⟩ := ending_of_bind read
    · obtain ⟨e, rfl, reaches⟩ := ((second a).moves read).exists_append
      have known' : e.rest.length ≤ j := by
        have := fewer taken
        simp only [Cursor.rest_append, List.length_append] at this
        omega
      rw [bind_eq_of_ok (first.same tail tail' known (reaches.rest_ne_nil left) taken)]
      apply (second a).same tail tail' known' left read
    · rw [bind_apply, first.same (o := none) tail tail' known left stuck]
      rfl

/-- Readers in a row that agree on the same known tokens. -/
theorem Agree.bind (first : Agree k r r') (second : ∀ a, Agree k (s a) (s' a)) :
  Agree k (r >>= s) (r' >>= s')
  := by
  apply first.seq second
  intro c d a read
  apply Nat.add_le_add_right (first.moves (o := some a) read).length_le k

/-- Readers in a row where the first one passes a token. -/
theorem Agree.after (first : Agree k r r') (passing : Passing r)
    (second : ∀ a, Agree (k - 1) (s a) (s' a)) :
  Agree k (r >>= s) (r' >>= s')
  := by
  apply first.seq second
  intro c d a read
  have := passing read
  omega

/-- A choice between readers that agree. -/
theorem Agree.ite {p : Prop} [Decidable p] {q q' : Reader α} (yes : Agree k r r') (no : Agree k q q') :
  Agree k (if p then r else q) (if p then r' else q')
  := by
  split
  · apply yes
  · apply no

/-- A sequence looks no further ahead than its parts. -/
theorem Steady.bind (first : Steady r) (second : ∀ a, Steady (s a)) :
  Steady (r >>= s)
  := fun k => (first k).bind fun a => second a k

theorem Steady.ite {p : Prop} [Decidable p] (yes : Steady r) (no : Steady r') :
  Steady (if p then r else r')
  := fun k => (yes k).ite (no k)

/-- A reader of rows that are not empty passes a token. -/
theorem Reads.passing {G : Form α} {F : Option Token → Prop} {P : Token → Prop} (reads : Reads r G F)
    (begins : Form.Begins P G) :
  Passing r
  := by
  intro c d a read
  obtain ⟨ts, left, row, -⟩ := reads.sound read
  have := begins.length_pos row
  rw [left, List.length_append]
  omega

/-! ### Bounded readers -/

/-- Readers that call each other with a bound that counts down agree as long as their bounds cover
the known tokens: a token is passed before the bound is lowered. -/
theorem Agree.of_bound {ι : Type} {f : ι → Nat → Reader α} (last : ∀ i, Agree 0 (f i 0) (f i 0))
    (next : ∀ {n n' k : Nat}, (∀ i, Agree (k - 1) (f i n) (f i n')) →
      ∀ i, Agree k (f i (n + 1)) (f i (n' + 1)))
    {n n' : Nat} (known : k ≤ n) (known' : k ≤ n') (i : ι) :
  Agree k (f i n) (f i n')
  := by
  induction n generalizing n' k i with
  | zero =>
      obtain rfl : k = 0 := Nat.le_zero.1 known
      apply (last i).unknown
  | succ n ih =>
      cases n' with
      | zero =>
          obtain rfl : k = 0 := Nat.le_zero.1 known'
          apply (next (k := 0) (fun i => ih (Nat.zero_le n) (Nat.zero_le n) i) i).unknown
      | succ n' =>
          apply next
          intro i
          apply ih (by omega) (by omega) i

/-- A reader whose bound is at least the number of tokens that are left. -/
theorem Steady.of_bound {f : Nat → Reader α} {bound : Cursor → Nat}
    (enough : ∀ c : Cursor, c.rest.length ≤ bound c)
    (agree : ∀ {n n' k : Nat}, k ≤ n → k ≤ n' → Agree k (f n) (f n')) :
  Steady fun c => f (bound c) c
  := by
  intro k
  constructor
  · intro c d o read
    apply (agree (Nat.zero_le (bound c)) (Nat.zero_le (bound c))).moves read
  · intro c d o tail tail' _ left read
    have covers (tail : List (Located Token)) : c.rest.length ≤ bound (c.append tail) := by
      have := enough (c.append tail)
      simp only [Cursor.rest_append, List.length_append] at this
      omega
    apply (agree (covers tail) (covers tail')).same tail tail' (Nat.le_refl _) left read

end Agreement

/-! ### Single tokens -/

/-- A look at the place or the next token. -/
theorem look_steady {f : Cursor → α}
    (ahead : ∀ (c : Cursor) (tail tail' : List (Located Token)), c.rest ≠ [] →
      f (c.append tail) = f (c.append tail')) :
  Steady fun c => ending (some (f c)) c
  := by
  intro k
  constructor
  · intro c d o read
    obtain ⟨rfl, rfl⟩ := ending_inj read
    apply Cursor.Reaches.refl c
  · intro c d o tail tail' _ left read
    obtain ⟨rfl, place⟩ := ending_inj read
    obtain rfl := Cursor.append_inj place
    rw [ahead c tail tail' left]

theorem pure_steady (a : α) :
  Steady (pure a)
  := look_steady fun _ _ _ _ => rfl

theorem offset_steady :
  Steady offset
  := look_steady fun _ _ _ _ => rfl

/-- The next token is the one the reader stops at. -/
theorem peek_steady :
  Steady peek
  := by
  apply look_steady
  intro c tail tail' left
  obtain ⟨t, rest, known⟩ := List.exists_cons_of_ne_nil left
  simp [known]

/-- The start of the next token is known with the token. -/
theorem start_steady :
  Steady start
  := by
  apply look_steady
  intro c tail tail' left
  obtain ⟨t, rest, known⟩ := List.exists_cons_of_ne_nil left
  simp [known]

theorem nextIs_steady (f : Fixed) :
  Steady (nextIs f)
  := peek_steady.bind fun _ => pure_steady _

/-- A reader that is stuck at once. -/
theorem stuck_steady :
  Steady (stuck : Reader α)
  := by
  intro k
  constructor
  · intro c d o read
    obtain ⟨rfl, rfl⟩ := ending_inj (o := none) read
    apply Cursor.Reaches.refl c
  · intro c d o tail tail' _ _ read
    obtain ⟨rfl, place⟩ := ending_inj (o := none) read
    obtain rfl := Cursor.append_inj place
    rfl

theorem endType_steady (role : TypeRole) :
  Steady (endType role)
  := by
  intro k
  constructor
  · intro c d o read
    obtain ⟨rfl, rfl⟩ := ending_inj (o := some ()) read
    use [], rfl
    rfl
  · intro c d o tail tail' _ _ read
    obtain ⟨rfl, place⟩ := ending_inj (o := some ()) read
    obtain rfl := Cursor.append_inj (c := { c with ended := some role }) place
    rfl

/-- At the end nothing is accepted. -/
theorem accept_nil {f : Token → Option α} (done : c.rest = []) :
  accept f c = ending none c
  := by
  simp [accept, done, ending]

/-- The next token is accepted and passed, or is left. -/
theorem accept_cons {f : Token → Option α} {t : Located Token} {rest : List (Located Token)}
    (left : c.rest = t :: rest) :
  accept f c = match f t.value with
    | some a => ending (some a) ⟨rest, t.span.stop, none⟩
    | none => ending none c
  := by
  simp only [accept, left]
  rfl

/-- A reader of one token stops behind it or where it began. -/
theorem accept_moves {f : Token → Option α} {o : Option α} (read : accept f c = ending o d) :
  c.Reaches d
  := by
  cases left : c.rest with
  | nil =>
      rw [accept_nil left] at read
      obtain ⟨rfl, rfl⟩ := ending_inj read
      apply Cursor.Reaches.refl c
  | cons t rest =>
      rw [accept_cons left] at read
      split at read
      · obtain ⟨rfl, rfl⟩ := ending_inj read
        use [t], left
        rfl
      · obtain ⟨rfl, rfl⟩ := ending_inj read
        apply Cursor.Reaches.refl c

/-- A reader of one token looks at that token alone. -/
theorem accept_steady (f : Token → Option α) :
  Steady (accept f)
  := by
  intro k
  use accept_moves
  intro c d o tail tail' _ left read
  obtain ⟨t, rest, known⟩ := List.exists_cons_of_ne_nil ((accept_moves read).of_append.rest_ne_nil left)
  have first (tail : List (Located Token)) : (c.append tail).rest = t :: (rest ++ tail) := by
    simp [known]
  rw [accept_cons (first tail)] at read
  rw [accept_cons (first tail')]
  split at read
  · obtain ⟨rfl, place⟩ := ending_inj read
    obtain rfl := Cursor.append_inj (c := ⟨rest, t.span.stop, none⟩) place
    rfl
  · obtain ⟨rfl, place⟩ := ending_inj read
    obtain rfl := Cursor.append_inj place
    rfl

/-- A token that is accepted is passed. -/
theorem accept_passing (f : Token → Option α) :
  Passing (accept f)
  := by
  intro c d a read
  cases left : c.rest with
  | nil =>
      rw [accept_nil left] at read
      cases read
  | cons t rest =>
      rw [accept_cons left] at read
      split at read
      · cases read
        simp
      · cases read

theorem fixed_steady (f : Fixed) :
  Steady (fixed f)
  := accept_steady _

theorem ident_steady :
  Steady ident
  := accept_steady _

/-! ### Repetition and nesting -/

section Repetition

variable {starts : Token → Bool} {r : Reader α}

/-- Repetition: each round passes a token, so that the bound does not show. -/
theorem many_steady (steady : Steady r) (passing : Passing r) :
  Steady (many starts r)
  := by
  apply Steady.of_bound (f := manyUpTo starts r) fun c => Nat.le_refl c.rest.length
  intro n n' k known known'
  apply Agree.of_bound (ι := Unit) (f := fun _ => manyUpTo starts r) _ _ known known' ()
  · intro _
    apply pure_steady _ 0
  · intro n n' k shorter _
    apply (peek_steady k).bind
    intro t
    apply Agree.ite _ (pure_steady _ k)
    apply (steady k).after passing
    intro a
    apply (shorter ()).bind
    intro as
    apply pure_steady

/-- A list with commas: each element passes a token, so that the bound does not show. -/
theorem listed_steady (steady : Steady r) (passing : Passing r) :
  Steady (listed starts r)
  := by
  apply Steady.of_bound (f := listedUpTo starts r) fun c => Nat.le_refl c.rest.length
  intro n n' k known known'
  apply Agree.of_bound (ι := Unit) (f := fun _ => listedUpTo starts r) _ _ known known' ()
  · intro _
    apply pure_steady _ 0
  · intro n n' k shorter _
    apply (peek_steady k).bind
    intro t
    apply Agree.ite _ (pure_steady _ k)
    apply (steady k).after passing
    intro a
    apply (nextIs_steady _ _).bind
    intro comma
    apply Agree.ite _ (pure_steady _ _)
    apply (fixed_steady _ _).bind
    intro _
    apply (shorter ()).bind
    intro as
    apply pure_steady

end Repetition

end Reader

end StackBackend
