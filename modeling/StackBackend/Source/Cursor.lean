import StackBackend.Source.Token

/-!
# Readers

A cursor is a place in a list of tokens. A reader takes tokens from the front and gives a value
with the cursor after them, or gets stuck at the first token that cannot continue what it has
read. A reader decides by the next token alone, so a token it has passed is never looked at
again.
-/

namespace StackBackend

/-- What a type belongs to: an operand, the field of a field access, or something else. -/
inductive TypeRole where
  | operand | fieldAccess | other
deriving DecidableEq, Repr, Inhabited

/-- A place in a list of tokens. -/
structure Cursor where
  /-- The tokens that are left. -/
  rest : List (Located Token)
  /-- The end of the last token passed. -/
  offset : Nat
  /-- What the type belongs to that the last token passed has ended, if it has ended one. -/
  ended : Option TypeRole
deriving DecidableEq, Repr, Inhabited

/-- A reader of values of type `α`; it fails with the cursor at which it is stuck. -/
def Reader (α : Type) : Type := Cursor → Except Cursor (α × Cursor)

namespace Reader

variable {α β : Type}

instance : Monad Reader where
  pure a := fun c => .ok (a, c)
  bind p f := fun c =>
    match p c with
    | .ok (a, d) => f a d
    | .error d => .error d

@[simp]
theorem pure_apply (a : α) (c : Cursor) :
  (pure a : Reader α) c = .ok (a, c)
  := rfl

theorem bind_apply (p : Reader α) (f : α → Reader β) (c : Cursor) :
  (p >>= f) c = match p c with
    | .ok (a, d) => f a d
    | .error d => .error d
  := rfl

/-- The reader that is stuck. -/
def stuck : Reader α := fun c => .error c

/-- The next token, left in place. -/
def peek : Reader (Option Token) := fun c => .ok (c.rest.head?.map Located.value, c)

/-- The start of the next token, or the end of the last one when none is left. -/
def start : Reader Nat := fun c =>
  .ok (match c.rest with
    | t :: _ => t.span.start
    | [] => c.offset, c)

/-- The end of the last token passed. -/
def offset : Reader Nat := fun c => .ok (c.offset, c)

/-- Notes what the type just read belongs to. -/
def endType (role : TypeRole) : Reader Unit := fun c => .ok ((), { c with ended := some role })

/-- Passes the next token if `f` gives a value for it. -/
def accept (f : Token → Option α) : Reader α := fun c =>
  match c.rest with
  | [] => .error c
  | t :: rest =>
      match f t.value with
      | some a => .ok (a, ⟨rest, t.span.stop, none⟩)
      | none => .error c

/-- Passes a fixed word or mark. -/
def fixed (f : Fixed) : Reader Unit := accept fun t => if t = .fixed f then some () else none

/-- Passes an identifier. -/
def ident : Reader String := accept fun
  | .ident name => some name
  | _ => none

/-- Passes a quoted string. -/
def str : Reader String := accept fun
  | .str content => some content
  | _ => none

/-- Whether the next token is the fixed word or mark `f`. -/
def nextIs (f : Fixed) : Reader Bool := do
  return (← peek) = some (.fixed f)

/-- Reads with `body` as long as the next token satisfies `starts`, at most `fuel` times. -/
def manyUpTo (starts : Token → Bool) (body : Reader α) : Nat → Reader (List α)
  | 0 => pure []
  | fuel + 1 => do
      if (← peek).any starts then
        let a ← body
        let as ← manyUpTo starts body fuel
        return a :: as
      else
        return []

/-- Reads with `body` as long as the next token satisfies `starts`. Each round passes a token,
so the tokens that are left bound the rounds. -/
def many (starts : Token → Bool) (body : Reader α) : Reader (List α) := fun c =>
  manyUpTo starts body c.rest.length c

/-- Reads with `body`, with a comma between neighbours and perhaps after the last one, at most
`fuel` times. -/
def listedUpTo (starts : Token → Bool) (body : Reader α) : Nat → Reader (List α)
  | 0 => pure []
  | fuel + 1 => do
      if (← peek).any starts then
        let a ← body
        if ← nextIs .comma then
          fixed .comma
          let as ← listedUpTo starts body fuel
          return a :: as
        else
          return [a]
      else
        return []

/-- Reads with `body`, with a comma between neighbours and perhaps after the last one. -/
def listed (starts : Token → Bool) (body : Reader α) : Reader (List α) := fun c =>
  listedUpTo starts body c.rest.length c

end Reader

end StackBackend
