import Mathlib.Tactic.Use
import StackBackend.Proofs.Source.Grammar
import StackBackend.Source.Cursor

/-!
# Recognising forms

A reader recognises a form when it passes exactly the rows of the form: what it passes is a row with
the value it gives, and it passes every row that stands at the front of the tokens. The second half
may depend on the token after the row, since a reader that repeats or that may stop early goes on as
long as the next token lets it. Each way of putting readers together recognises the form that is put
together in the same way.
-/

namespace StackBackend

/-- The token that a row begins with. -/
def front (ts : List (Located Token)) : Option Token := ts.head?.map Located.value

@[simp]
theorem front_nil :
  front [] = none
  := rfl

@[simp]
theorem front_cons (t : Located Token) (ts : List (Located Token)) :
  front (t :: ts) = some t.value
  := rfl

/-- The end of the last token of a row that is passed from `offset` on. -/
def stopAfter (offset : Nat) (ts : List (Located Token)) : Nat :=
  (ts.getLast?.map (·.span.stop)).getD offset

@[simp]
theorem stopAfter_nil (offset : Nat) :
  stopAfter offset [] = offset
  := rfl

@[simp]
theorem stopAfter_singleton (offset : Nat) (t : Located Token) :
  stopAfter offset [t] = t.span.stop
  := rfl

/-- The end of two rows, one passed after the other. -/
theorem stopAfter_append (offset : Nat) (us vs : List (Located Token)) :
  stopAfter offset (us ++ vs) = stopAfter (stopAfter offset us) vs
  := by
  unfold stopAfter
  rw [List.getLast?_append]
  cases vs.getLast? <;> rfl

namespace Form

variable {α β γ : Type} {P : Token → Prop} {G G' : Form α} {H K : α → Form β}

/-! ### Laws of forms -/

section Laws

variable {ts us vs : List (Located Token)} {a : α} {b : β}

/-- The empty row. -/
theorem row_pure :
  (pure a : Form α) [] a
  := ⟨rfl, rfl⟩

/-- A row of a form and one of the form that follows. -/
theorem row_bind (row : G us a) (rest : H a vs b) :
  (G >>= H) (us ++ vs) b
  := ⟨us, vs, a, rfl, row, rest⟩

/-- A common beginning can be taken out of two alternatives. -/
theorem bind_union :
  ((G >>= H) ∪ (G >>= K)) ts b ↔ (G >>= fun a => H a ∪ K a) ts b
  := by
  constructor
  · rintro (⟨us, vs, a, rfl, row, rest⟩ | ⟨us, vs, a, rfl, row, rest⟩)
    · use us, vs, a, rfl, row
      left
      apply rest
    · use us, vs, a, rfl, row
      right
      apply rest
  · rintro ⟨us, vs, a, rfl, row, rest | rest⟩
    · left
      use us, vs, a, rfl, row, rest
    · right
      use us, vs, a, rfl, row, rest

/-- Forms in a row need no brackets. -/
theorem bind_assoc {L : β → Form γ} {c : γ} :
  (G >>= H >>= L) ts c ↔ (G >>= fun a => H a >>= L) ts c
  := by
  constructor
  · rintro ⟨_, ws, b, rfl, ⟨us, vs, a, rfl, row, row'⟩, rest⟩
    use us, vs ++ ws, a, List.append_assoc .., row, vs, ws, b, rfl, row', rest
  · rintro ⟨us, _, a, rfl, row, vs, ws, b, rfl, row', rest⟩
    use us ++ vs, ws, b, (List.append_assoc ..).symm
    constructor
    · use us, vs, a, rfl, row, row'
    · apply rest

/-- The rest of a sequence may be exchanged for a form with the same rows. -/
theorem bind_congr (same : ∀ a vs, H a vs b ↔ K a vs b) :
  (G >>= H) ts b ↔ (G >>= K) ts b
  := by
  constructor
  · rintro ⟨us, vs, a, rfl, row, rest⟩
    use us, vs, a, rfl, row, (same a vs).1 rest
  · rintro ⟨us, vs, a, rfl, row, rest⟩
    use us, vs, a, rfl, row, (same a vs).2 rest

end Laws

/-! ### How rows of a form begin -/

/-- The rows of the form begin with such a token. -/
def Begins (P : Token → Prop) (G : Form α) : Prop :=
  ∀ ⦃ts a⦄, G ts a → ∃ t, front ts = some t ∧ P t

/-- What comes after a row does not change how it begins. -/
theorem front_append_of_begins (begins : Begins P G) {ts : List (Located Token)} {a : α}
    (row : G ts a) (rest : List (Located Token)) :
  ∃ t, front (ts ++ rest) = some t ∧ P t
  := by
  obtain ⟨t, first, holds⟩ := begins row
  refine ⟨t, ?_, holds⟩
  cases ts with
  | nil => simp at first
  | cons u us => simpa using first

/-- A row that begins with a token is not empty. -/
theorem Begins.length_pos (begins : Begins P G) {ts : List (Located Token)} {a : α} (row : G ts a) :
  0 < ts.length
  := by
  obtain ⟨t, first, -⟩ := begins row
  cases ts with
  | nil => simp at first
  | cons u us => simp

/-- A sequence begins like its first form. -/
theorem Begins.bind (begins : Begins P G) :
  Begins P (G >>= H)
  := by
  rintro _ b ⟨us, vs, a, rfl, row, -⟩
  apply front_append_of_begins begins row vs

/-- Alternatives that begin alike. -/
theorem Begins.union (begins : Begins P G) (begins' : Begins P G') :
  Begins P (G ∪ G')
  := by
  rintro ts a (row | row)
  · apply begins row
  · apply begins' row

/-- A weaker property of the first token. -/
theorem Begins.mono {Q : Token → Prop} (begins : Begins P G) (weaker : ∀ t, P t → Q t) :
  Begins Q G
  := by
  intro ts a row
  obtain ⟨t, first, holds⟩ := begins row
  use t, first, weaker t holds

/-- A single token begins itself. -/
theorem terminal_begins (token : α → Token) :
  Begins (fun t => ∃ a, t = token a) (terminal token)
  := by
  intro ts a row
  refine ⟨token a, ?_, a, rfl⟩
  rw [terminal, List.map_eq_singleton_iff] at row
  obtain ⟨t, rfl, value⟩ := row
  simp [value]

theorem word_begins (f : Fixed) :
  Begins (· = .fixed f) (word f)
  := by
  apply (terminal_begins _).mono
  rintro t ⟨-, rfl⟩
  rfl

/-- The words and marks of a table. -/
theorem oneOf_begins {table : List (Fixed × α)} (listed : ∀ e ∈ table, P (.fixed e.1)) :
  Begins P (oneOf table)
  := by
  rintro ts a ⟨f, mem, row⟩
  obtain ⟨t, first, rfl⟩ := word_begins f row
  exact ⟨_, first, listed _ mem⟩

end Form

/-! ### Readers and forms -/

namespace Reader

variable {α β : Type} {t : Option Token} {r r' : Reader α} {s : α → Reader β} {G G' : Form α}
  {H : α → Form β} {F F' : Option Token → Prop} {E : Option Token → Prop}

/-- Where the next token is `t` the reader recognises the form, rows being followed as `F` says. -/
structure ReadsFrom (t : Option Token) (r : Reader α) (G : Form α) (F : Option Token → Prop) :
    Prop where
  sound : ∀ {c d : Cursor} {a : α}, front c.rest = t → r c = .ok (a, d) →
    ∃ ts, c.rest = ts ++ d.rest ∧ G ts a ∧ d.offset = stopAfter c.offset ts
  complete : ∀ {c : Cursor} {ts rest : List (Located Token)} {a : α}, front c.rest = t →
    c.rest = ts ++ rest → G ts a → F (front rest) → ∃ d, r c = .ok (a, d) ∧ d.rest = rest

/-- The reader recognises the form, rows being followed as `F` says. -/
def Reads (r : Reader α) (G : Form α) (F : Option Token → Prop) : Prop := ∀ t, ReadsFrom t r G F

/-- Any token may follow. -/
def Any : Option Token → Prop := fun _ => True

/-- What a reader passes from one place on: a row of the form. -/
theorem Reads.sound (reads : Reads r G F) {c d : Cursor} {a : α} (read : r c = .ok (a, d)) :
  ∃ ts, c.rest = ts ++ d.rest ∧ G ts a ∧ d.offset = stopAfter c.offset ts
  := (reads _).sound rfl read

/-- A row that may be followed by what comes next is read. -/
theorem Reads.complete (reads : Reads r G F) {c : Cursor} {ts rest : List (Located Token)} {a : α}
    (left : c.rest = ts ++ rest) (row : G ts a) (follows : F (front rest)) :
  ∃ d, r c = .ok (a, d) ∧ d.rest = rest
  := (reads _).complete rfl left row follows

/-- The end of what is passed is that of the row. -/
theorem Reads.complete_offset (reads : Reads r G F) {c : Cursor} {ts rest : List (Located Token)} {a : α}
    (left : c.rest = ts ++ rest) (row : G ts a) (follows : F (front rest)) :
  ∃ d, r c = .ok (a, d) ∧ d.rest = rest ∧ d.offset = stopAfter c.offset ts
  := by
  obtain ⟨d, taken, rfl⟩ := reads.complete left row follows
  obtain ⟨us, left', -, stop⟩ := reads.sound taken
  obtain rfl : us = ts := List.append_cancel_right (left'.symm.trans left)
  use d, taken, rfl, stop

/-- A reader of one form reads another one if, where it is used, their rows are the same. -/
theorem ReadsFrom.of_rows (reads : ReadsFrom t r G F)
    (row : ∀ ts a rest, front (ts ++ rest) = t → G ts a → G' ts a)
    (only : ∀ ts a rest, front (ts ++ rest) = t → G' ts a → F' (front rest) →
      G ts a ∧ F (front rest)) :
  ReadsFrom t r G' F'
  := by
  constructor
  · intro c d a place read
    obtain ⟨ts, left, inside, stop⟩ := reads.sound place read
    use ts, left, row ts a d.rest (left ▸ place) inside, stop
  · intro c ts rest a place left inside follows
    obtain ⟨inside, follows⟩ := only ts a rest (left ▸ place) inside follows
    apply reads.complete place left inside follows

/-- Two forms with the same rows before a token. -/
theorem ReadsFrom.congr (reads : ReadsFrom t r G F)
    (same : ∀ ts a rest, front (ts ++ rest) = t → (G' ts a ↔ G ts a)) :
  ReadsFrom t r G' F
  := by
  apply reads.of_rows
  · intro ts a rest place row
    apply (same ts a rest place).2 row
  · intro ts a rest place row follows
    use (same ts a rest place).1 row, follows

theorem Reads.congr (reads : Reads r G F) (same : ∀ ts a, G' ts a ↔ G ts a) :
  Reads r G' F
  := fun t => (reads t).congr fun ts a _ _ => same ts a

/-- A reader that is used where less may follow. -/
theorem Reads.follows (reads : Reads r G F) (stronger : ∀ t, E t → F t) :
  Reads r G E
  := by
  intro t
  apply (reads t).of_rows
  · intro ts a rest _ row
    apply row
  · intro ts a rest _ row follows
    use row, stronger _ follows

/-- A reader that needs nothing of what follows. -/
theorem Reads.any (reads : Reads r G Any) :
  Reads r G F
  := reads.follows fun _ _ => trivial

/-- A sequence that succeeds is made of two readers that do. -/
theorem eq_ok_of_bind {c d : Cursor} {b : β} (read : (r >>= s) c = .ok (b, d)) :
  ∃ a c', r c = .ok (a, c') ∧ s a c' = .ok (b, d)
  := by
  rw [bind_apply] at read
  cases taken : r c with
  | error e => simp [taken] at read
  | ok result =>
      obtain ⟨a, c'⟩ := result
      rw [taken] at read
      use a, c', rfl, read

theorem bind_eq_of_ok {c c' : Cursor} {a : α} (read : r c = .ok (a, c')) :
  (r >>= s) c = s a c'
  := by
  rw [bind_apply, read]

/-- Readers in a row: what follows the first one is a row of the second. -/
theorem ReadsFrom.bind (first : ReadsFrom t r G F) (second : ∀ a, Reads (s a) (H a) E)
    (between : ∀ a ts b rest, H a ts b → E (front rest) → F (front (ts ++ rest))) :
  ReadsFrom t (r >>= s) (G >>= H) E
  := by
  constructor
  · intro c d b place read
    obtain ⟨a, c', taken, taken'⟩ := eq_ok_of_bind read
    obtain ⟨us, left, row, stop⟩ := first.sound place taken
    obtain ⟨vs, left', row', stop'⟩ := (second a).sound taken'
    refine ⟨us ++ vs, ?_, ⟨us, vs, a, rfl, row, row'⟩, ?_⟩
    · rw [left, left', List.append_assoc]
    · rw [stop', stop, stopAfter_append]
  · rintro c _ rest b place left ⟨us, vs, a, rfl, row, row'⟩ follows
    rw [List.append_assoc] at left
    obtain ⟨d, taken, left'⟩ := first.complete place left row (between a vs b rest row' follows)
    obtain ⟨d', taken', left''⟩ := (second a).complete left' row' follows
    use d', (bind_eq_of_ok taken).trans taken', left''

/-- A sequence, if what begins a row of the second form may follow the first one. -/
theorem Reads.bind (first : Reads r G F) (second : ∀ a, Reads (s a) (H a) E)
    (between : ∀ a ts b rest, H a ts b → E (front rest) → F (front (ts ++ rest))) :
  Reads (r >>= s) (G >>= H) E
  := fun t => (first t).bind second between

/-- Readers in a row where the first one needs nothing of what follows. -/
theorem Reads.step (first : Reads r G Any) (second : ∀ a, Reads (s a) (H a) E) :
  Reads (r >>= s) (G >>= H) E
  := first.bind second fun _ _ _ _ _ _ => trivial

/-- Readers in a row where a fixed word or mark stands after the first. -/
theorem Reads.before {f : Fixed} {H : α → Unit → Form β} (first : Reads r G F)
    (second : ∀ a, Reads (s a) (Form.word f >>= H a) E) (between : F (some (.fixed f))) :
  Reads (r >>= s) (G >>= fun a => Form.word f >>= H a) E
  := by
  apply first.bind second
  intro a ts b rest row _
  obtain ⟨_, place, rfl⟩ := Form.front_append_of_begins (Form.word_begins f).bind row rest
  rwa [place]

/-- A value, with no token. -/
theorem pure_reads (a : α) :
  Reads (pure a) (pure a) Any
  := by
  intro t
  constructor
  · rintro c _ _ _ ⟨⟩
    use [], rfl
    constructor
    · use rfl
    · rfl
  · rintro c _ rest _ _ left ⟨rfl, rfl⟩ _
    use c, rfl, left

/-- A note on a type that has ended passes nothing. -/
theorem Reads.endType {s : Unit → Reader β} {H : Form β} (reads : Reads (s ()) H E)
    (role : TypeRole) :
  Reads (endType role >>= s) H E
  := by
  intro t
  constructor
  · intro c d b place read
    apply (reads t).sound (c := { c with ended := some role }) place read
  · intro c ts rest b place left row follows
    apply (reads t).complete (c := { c with ended := some role }) place left row follows

/-! ### Single tokens -/

/-- A reader of one token, for a form of single tokens. -/
theorem accept_reads {f : Token → Option α}
    (tokens : ∀ ts a, G ts a ↔ ∃ t : Located Token, ts = [t] ∧ f t.value = some a) :
  Reads (accept f) G Any
  := by
  intro t
  constructor
  · intro c d a _ read
    unfold accept at read
    split at read
    · simp at read
    · next u rest left =>
        split at read
        · next b found =>
            cases read
            use [u], left
            constructor
            · apply (tokens _ _).2
              use u, rfl, found
            · rfl
        · simp at read
  · intro c ts rest a _ left row _
    obtain ⟨u, rfl, found⟩ := (tokens _ _).1 row
    refine ⟨⟨rest, u.span.stop, none⟩, ?_, rfl⟩
    simp [accept, left, found]

/-- A token that carries a value. -/
theorem terminal_reads {f : Token → Option α} {token : α → Token}
    (found : ∀ t a, f t = some a ↔ t = token a) :
  Reads (accept f) (Form.terminal token) Any
  := by
  apply accept_reads
  intro ts a
  simp only [Form.terminal, List.map_eq_singleton_iff, found]

theorem fixed_reads (f : Fixed) :
  Reads (fixed f) (Form.word f) Any
  := by
  apply terminal_reads
  intro t a
  simp

theorem ident_reads :
  Reads ident Form.ident Any
  := by
  apply terminal_reads
  intro t a
  cases t <;> simp

theorem str_reads :
  Reads str Form.str Any
  := by
  apply terminal_reads
  intro t a
  cases t <;> simp

/-- A reader of the words of a table: it takes each of them for its value, and no other token. -/
theorem oneOf_reads {f : Token → Option α} {table : List (Fixed × α)}
    (listed : ∀ e ∈ table, f (.fixed e.1) = some e.2)
    (only : ∀ t a, f t = some a → ∃ g, (g, a) ∈ table ∧ t = .fixed g) :
  Reads (accept f) (Form.oneOf table) Any
  := by
  apply accept_reads
  intro ts a
  constructor
  · rintro ⟨g, mem, row⟩
    obtain ⟨t, rfl, value⟩ := List.map_eq_singleton_iff.1 row
    use t, rfl
    rw [value]
    apply listed _ mem
  · rintro ⟨t, rfl, found⟩
    obtain ⟨g, mem, value⟩ := only _ _ found
    use g, mem
    apply List.map_eq_singleton_iff.2
    use t, rfl, value

/-! ### Choices -/

theorem peek_apply (c : Cursor) :
  peek c = .ok (front c.rest, c)
  := rfl

theorem nextIs_apply (f : Fixed) (c : Cursor) :
  nextIs f c = .ok (decide (front c.rest = some (.fixed f)), c)
  := rfl

/-- A choice by the next token. -/
theorem ReadsFrom.peek {s : Option Token → Reader β} {H : Form β} (reads : ReadsFrom t (s t) H E) :
  ReadsFrom t (peek >>= s) H E
  := by
  constructor
  · rintro c d b rfl read
    apply reads.sound rfl read
  · rintro c ts rest b rfl left row follows
    apply reads.complete rfl left row follows

/-- A choice by whether the next token is a fixed word or mark. -/
theorem ReadsFrom.nextIs {f : Fixed} {s : Bool → Reader β} {H : Form β}
    (reads : ReadsFrom t (s (decide (t = some (.fixed f)))) H E) :
  ReadsFrom t (nextIs f >>= s) H E
  := ReadsFrom.peek (s := fun t => s (decide (t = some (.fixed f)))) reads

/-- Of two alternatives the one that can begin with the next token. -/
theorem ReadsFrom.left {P : Token → Prop} (reads : ReadsFrom t r G F) (other : Form.Begins P G')
    (apart : ∀ u, t = some u → ¬ P u) :
  ReadsFrom t r (G ∪ G') F
  := by
  apply reads.of_rows
  · intro ts a rest _ row
    left
    apply row
  · rintro ts a rest place (row | row) follows
    · use row, follows
    · obtain ⟨u, first, holds⟩ := Form.front_append_of_begins other row rest
      apply (apart u (place.symm.trans first) holds).elim

theorem ReadsFrom.right {P : Token → Prop} (reads : ReadsFrom t r G' F) (other : Form.Begins P G)
    (apart : ∀ u, t = some u → ¬ P u) :
  ReadsFrom t r (G ∪ G') F
  := by
  apply (reads.left other apart).of_rows
  · rintro ts a rest _ (row | row)
    · right
      apply row
    · left
      apply row
  · rintro ts a rest _ (row | row) follows
    · constructor
      · right
        apply row
      · apply follows
    · constructor
      · left
        apply row
      · apply follows

/-- Going on where the row could not end. -/
theorem ReadsFrom.goOn {a : α} (reads : ReadsFrom t r G F) (goes : ¬ F t) :
  ReadsFrom t r (G ∪ pure a) F
  := by
  apply reads.of_rows
  · intro ts b rest _ row
    left
    apply row
  · rintro ts b rest place (row | ⟨rfl, rfl⟩) follows
    · use row, follows
    · apply (goes (place ▸ follows)).elim

/-- Stopping where the row could not go on. -/
theorem ReadsFrom.stop {P : Token → Prop} {a : α} (other : Form.Begins P G)
    (apart : ∀ u, t = some u → ¬ P u) :
  ReadsFrom t (Pure.pure a) (G ∪ pure a) F
  := ((pure_reads a).any t).right other apart

/-! ### Repetition -/

section Repetition

variable {starts : Token → Bool}

/-- The token is one of those that begin another round. -/
abbrev Goes (starts : Token → Bool) (t : Option Token) : Prop := t.any starts = true

/-- After rows of a form comes another row or what follows them. -/
theorem front_many (begins : Form.Begins (starts · = true) G) {ts : List (Located Token)}
    {as : List α} (rows : Form.Many G ts as) (rest : List (Located Token)) :
  Goes starts (front (ts ++ rest)) ∨ front (ts ++ rest) = front rest
  := by
  cases rows with
  | nil =>
      right
      rfl
  | @cons us vs a as row _ =>
      left
      rw [List.append_assoc]
      obtain ⟨t, first, holds⟩ := Form.front_append_of_begins begins row (vs ++ rest)
      simpa [Goes, first] using holds

/-- There are no more rows than tokens. -/
theorem length_le_of_many (begins : Form.Begins (starts · = true) G)
    {ts : List (Located Token)} {as : List α} (rows : Form.Many G ts as) :
  as.length ≤ ts.length
  := by
  induction rows with
  | nil => simp
  | cons first _ ih =>
      have := begins.length_pos first
      grind

/-- One round of a repetition. -/
theorem manyUpTo_of_goes {c : Cursor} (goes : Goes starts (front c.rest)) (fuel : Nat) :
  manyUpTo starts r (fuel + 1) c = (do
    let a ← r
    let as ← manyUpTo starts r fuel
    return a :: as) c
  := by
  rw [manyUpTo, bind_eq_of_ok (peek_apply c), if_pos goes]

/-- A repetition ends where no round begins, whatever its bound. -/
theorem manyUpTo_of_not_goes {c : Cursor} (stops : ¬ Goes starts (front c.rest)) (fuel : Nat) :
  manyUpTo starts r fuel c = .ok ([], c)
  := by
  cases fuel with
  | zero => rfl
  | succ fuel => rw [manyUpTo, bind_eq_of_ok (peek_apply c), if_neg stops, pure_apply]

/-- By induction on the bound: what is read is a number of rows. -/
theorem manyUpTo_sound (reads : Reads r G F) (fuel : Nat) {c d : Cursor} {as : List α}
    (read : manyUpTo starts r fuel c = .ok (as, d)) :
  ∃ ts, c.rest = ts ++ d.rest ∧ Form.Many G ts as ∧ d.offset = stopAfter c.offset ts
  := by
  induction fuel generalizing c as with
  | zero =>
      cases read
      use [], rfl, .nil
      rfl
  | succ fuel ih =>
      by_cases goes : Goes starts (front c.rest)
      · rw [manyUpTo_of_goes goes] at read
        obtain ⟨a, c', taken, read⟩ := eq_ok_of_bind read
        obtain ⟨as', c'', later, read⟩ := eq_ok_of_bind read
        cases read
        obtain ⟨us, left, row, stop⟩ := reads.sound taken
        obtain ⟨vs, left', rows, stop'⟩ := ih later
        refine ⟨us ++ vs, ?_, .cons row rows, ?_⟩
        · rw [left, left', List.append_assoc]
        · rw [stop', stop, stopAfter_append]
      · rw [manyUpTo_of_not_goes goes] at read
        cases read
        use [], rfl, .nil
        rfl

/-- By induction on the rows: each is read, if the bound covers their number. -/
theorem manyUpTo_complete (reads : Reads r G F) (begins : Form.Begins (starts · = true) G)
    (again : ∀ t, Goes starts t → F t) (stops : ∀ t, E t → ¬ Goes starts t ∧ F t)
    {ts : List (Located Token)} {as : List α} (rows : Form.Many G ts as) {fuel : Nat}
    (enough : as.length ≤ fuel) {c : Cursor} {rest : List (Located Token)}
    (left : c.rest = ts ++ rest) (follows : E (front rest)) :
  ∃ d, manyUpTo starts r fuel c = .ok (as, d) ∧ d.rest = rest
  := by
  induction rows generalizing fuel c with
  | nil =>
      refine ⟨c, manyUpTo_of_not_goes ?_ fuel, left⟩
      rw [left]
      apply (stops _ follows).1
  | @cons us vs a as row rows ih =>
      obtain ⟨fuel, rfl⟩ : ∃ n, fuel = n + 1 := ⟨fuel - 1, by grind⟩
      rw [List.append_assoc] at left
      have goes : Goes starts (front c.rest) := by
        obtain ⟨t, first, holds⟩ := Form.front_append_of_begins begins row (vs ++ rest)
        simpa [Goes, left, first] using holds
      have after : F (front (vs ++ rest)) := by
        obtain more | done := front_many begins rows rest
        · apply again _ more
        · apply done ▸ (stops _ follows).2
      obtain ⟨d, taken, left'⟩ := reads.complete left row after
      obtain ⟨d', taken', left''⟩ := ih (by grind : as.length ≤ fuel) left'
      refine ⟨d', ?_, left''⟩
      rw [manyUpTo_of_goes goes, bind_eq_of_ok taken, bind_eq_of_ok taken', pure_apply]

/-- Repetition as long as the next token begins another round. -/
theorem many_reads (reads : Reads r G F) (begins : Form.Begins (starts · = true) G)
    (again : ∀ t, Goes starts t → F t) (stops : ∀ t, E t → ¬ Goes starts t ∧ F t) :
  Reads (many starts r) (Form.Many G) E
  := by
  intro t
  constructor
  · intro c d as _ read
    apply manyUpTo_sound reads _ read
  · intro c ts rest as _ left rows follows
    apply manyUpTo_complete reads begins again stops rows _ left follows
    rw [left, List.length_append]
    apply Nat.le_add_right_of_le (length_le_of_many begins rows)

/-! ### Lists with commas -/

/-- One element of a list and the comma after it. -/
theorem listedUpTo_of_goes {c : Cursor} (goes : Goes starts (front c.rest)) (fuel : Nat) :
  listedUpTo starts r (fuel + 1) c = (do
    let a ← r
    if ← nextIs .comma then
      fixed .comma
      let as ← listedUpTo starts r fuel
      return a :: as
    else
      return [a]) c
  := by
  rw [listedUpTo, bind_eq_of_ok (peek_apply c), if_pos goes]

/-- A list ends where no element begins, whatever its bound. -/
theorem listedUpTo_of_not_goes {c : Cursor} (stops : ¬ Goes starts (front c.rest)) (fuel : Nat) :
  listedUpTo starts r fuel c = .ok ([], c)
  := by
  cases fuel with
  | zero => rfl
  | succ fuel => rw [listedUpTo, bind_eq_of_ok (peek_apply c), if_neg stops, pure_apply]

/-- The empty list. -/
theorem listed_nil :
  Form.listed G [] []
  := by
  have none : Form.opt G [] none := .inr Form.row_pure
  apply Form.row_bind Form.Many.nil
  apply Form.row_bind none
  apply Form.row_pure

/-- A list of one element without a comma. -/
theorem listed_last {ts : List (Located Token)} {a : α} (row : G ts a) :
  Form.listed G ts [a]
  := by
  have last : Form.opt G (ts ++ []) (some a) := .inl (Form.row_bind row Form.row_pure)
  rw [List.append_nil] at last
  rw [← List.append_nil ts]
  apply Form.row_bind Form.Many.nil
  apply Form.row_bind last
  apply Form.row_pure

/-- An element with a comma in front of a list. -/
theorem listed_cons {us vs : List (Located Token)} {u : Located Token} {a : α} {as : List α}
    (row : G us a) (comma : u.value = .fixed .comma) (rows : Form.listed G vs as) :
  Form.listed G (us ++ u :: vs) (a :: as)
  := by
  obtain ⟨ws, zs, as', rfl, many, zs', _, last, rfl, option, rfl, rfl⟩ := rows
  have mark : Form.word .comma [u] () := by
    apply List.map_eq_singleton_iff.2
    use u, rfl, comma
  have first : (do let a ← G; Form.word .comma; return a) (us ++ ([u] ++ [])) a := by
    apply Form.row_bind row
    apply Form.row_bind mark
    apply Form.row_pure
  have whole : Form.listed G (us ++ ([u] ++ []) ++ ws ++ (zs' ++ [])) (a :: as' ++ last.toList) := by
    apply Form.row_bind (Form.Many.cons first many)
    apply Form.row_bind option
    apply Form.row_pure
  simpa using whole

/-- A list is empty, a last row, or a row with a comma and a list. -/
theorem listed_cases {ts : List (Located Token)} {as : List α} (rows : Form.listed G ts as) :
  ts = [] ∧ as = [] ∨ (∃ a, as = [a] ∧ G ts a)
    ∨ ∃ us u vs a as', ts = us ++ u :: vs ∧ as = a :: as' ∧ G us a ∧ u.value = .fixed .comma
      ∧ Form.listed G vs as'
  := by
  obtain ⟨ws, zs, as', rfl, many, zs', _, last, rfl, option, rfl, rfl⟩ := rows
  cases many with
  | nil =>
      obtain ⟨xs, _, a, rfl, row, rfl, rfl⟩ | ⟨rfl, rfl⟩ := option
      · right
        left
        use a, rfl
        simpa using row
      · left
        use rfl
        rfl
  | @cons _ _ a as first many =>
      obtain ⟨us, _, _, rfl, row, vs, _, _, rfl, comma, rfl, rfl⟩ := first
      obtain ⟨u, rfl, mark⟩ := List.map_eq_singleton_iff.1 comma
      have rest : Form.listed G _ _ := Form.row_bind many (Form.row_bind option Form.row_pure)
      right
      right
      refine ⟨us, u, _, a, _, ?_, rfl, row, mark, rest⟩
      simp

/-- By induction on the bound: what is read is a list with commas. -/
theorem listedUpTo_sound (reads : Reads r G F) (fuel : Nat) {c d : Cursor} {as : List α}
    (read : listedUpTo starts r fuel c = .ok (as, d)) :
  ∃ ts, c.rest = ts ++ d.rest ∧ Form.listed G ts as ∧ d.offset = stopAfter c.offset ts
  := by
  induction fuel generalizing c as with
  | zero =>
      cases read
      use [], rfl, listed_nil
      rfl
  | succ fuel ih =>
      by_cases goes : Goes starts (front c.rest)
      · rw [listedUpTo_of_goes goes] at read
        obtain ⟨a, c', taken, read⟩ := eq_ok_of_bind read
        rw [bind_eq_of_ok (nextIs_apply .comma c')] at read
        obtain ⟨us, left, row, stop⟩ := reads.sound taken
        split at read
        · obtain ⟨_, c'', passed, read⟩ := eq_ok_of_bind read
          obtain ⟨as', d', later, read⟩ := eq_ok_of_bind read
          cases read
          obtain ⟨vs, left', comma, stop'⟩ := (fixed_reads .comma).sound passed
          obtain ⟨u, rfl, mark⟩ := List.map_eq_singleton_iff.1 comma
          obtain ⟨ws, left'', rows, stop''⟩ := ih later
          refine ⟨us ++ u :: ws, ?_, listed_cons row mark rows, ?_⟩
          · simp [left, left', left'']
          · rw [stop'', stop', stop, ← stopAfter_append, ← stopAfter_append]
            simp
        · cases read
          exact ⟨us, left, listed_last row, stop⟩
      · rw [listedUpTo_of_not_goes goes] at read
        cases read
        exact ⟨[], rfl, listed_nil, rfl⟩

/-- By induction on the bound: a list is read, if the bound covers its elements. -/
theorem listedUpTo_complete (reads : Reads r G F) (begins : Form.Begins (starts · = true) G)
    (comma : F (some (.fixed .comma)))
    (stops : ∀ t, E t → ¬ Goes starts t ∧ t ≠ some (.fixed .comma) ∧ F t)
    {ts : List (Located Token)} {as : List α} (rows : Form.listed G ts as) {fuel : Nat}
    (enough : as.length ≤ fuel) {c : Cursor} {rest : List (Located Token)}
    (left : c.rest = ts ++ rest) (follows : E (front rest)) :
  ∃ d, listedUpTo starts r fuel c = .ok (as, d) ∧ d.rest = rest
  := by
  have goes {us vs : List (Located Token)} {a : α} (row : G us a) : Goes starts (front (us ++ vs)) := by
    obtain ⟨t, first, holds⟩ := Form.front_append_of_begins begins row vs
    simpa [Goes, first] using holds
  induction fuel generalizing ts as c with
  | zero =>
      obtain rfl : as = [] := List.eq_nil_of_length_eq_zero (Nat.le_zero.1 enough)
      obtain ⟨rfl, -⟩ | ⟨a, ⟨⟩, -⟩ | ⟨us, u, vs, a, as', -, ⟨⟩, -⟩ := listed_cases rows
      use c, rfl, left
  | succ fuel ih =>
      obtain ⟨rfl, rfl⟩ | ⟨a, rfl, row⟩ | ⟨us, u, vs, a, as', rfl, rfl, row, mark, rows⟩ := listed_cases rows
      · refine ⟨c, listedUpTo_of_not_goes ?_ _, left⟩
        rw [left]
        apply (stops _ follows).1
      · obtain ⟨d, taken, left'⟩ := reads.complete left row (stops _ follows).2.2
        refine ⟨d, ?_, left'⟩
        have last : front d.rest ≠ some (.fixed .comma) := left' ▸ (stops _ follows).2.1
        rw [listedUpTo_of_goes (left ▸ goes row), bind_eq_of_ok taken, bind_eq_of_ok (nextIs_apply .comma d),
          if_neg (by simpa using last), pure_apply]
      · have left₁ : c.rest = us ++ ([u] ++ (vs ++ rest)) := by simpa using left
        have after : front ([u] ++ (vs ++ rest)) = some (.fixed .comma) := by simp [mark]
        obtain ⟨d, taken, left₂⟩ := reads.complete left₁ row (after ▸ comma)
        obtain ⟨d', taken', left₃⟩ := (fixed_reads .comma).complete left₂ (a := ())
          (List.map_eq_singleton_iff.2 ⟨u, rfl, mark⟩) trivial
        obtain ⟨d'', taken'', left₄⟩ := ih rows (by simpa using enough) left₃
        refine ⟨d'', ?_, left₄⟩
        rw [listedUpTo_of_goes (left₁ ▸ goes row), bind_eq_of_ok taken, bind_eq_of_ok (nextIs_apply .comma d),
          if_pos (by simpa [left₂] using mark), bind_eq_of_ok taken', bind_eq_of_ok taken'', pure_apply]

/-- There are no more elements than tokens. -/
theorem length_le_of_listed (begins : Form.Begins (starts · = true) G) {ts : List (Located Token)}
    {as : List α} (rows : Form.listed G ts as) :
  as.length ≤ ts.length
  := by
  induction as generalizing ts with
  | nil => simp
  | cons a as ih =>
      obtain ⟨-, ⟨⟩⟩ | ⟨a, same, row⟩ | ⟨us, u, vs, a, as', rfl, same, row, mark, rows⟩ := listed_cases rows
      · have := begins.length_pos row
        grind
      · have := begins.length_pos row
        cases same
        have := ih rows
        grind

/-- Lists as long as the next token begins another row. -/
theorem listed_reads (reads : Reads r G F) (begins : Form.Begins (starts · = true) G)
    (comma : F (some (.fixed .comma)))
    (stops : ∀ t, E t → ¬ Goes starts t ∧ t ≠ some (.fixed .comma) ∧ F t) :
  Reads (listed starts r) (Form.listed G) E
  := by
  intro t
  constructor
  · intro c d as _ read
    apply listedUpTo_sound reads _ read
  · intro c ts rest as _ left rows follows
    apply listedUpTo_complete reads begins comma stops rows _ left follows
    rw [left, List.length_append]
    apply Nat.le_add_right_of_le (length_le_of_listed begins rows)

end Repetition

end Reader

end StackBackend
