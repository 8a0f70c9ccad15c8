/-!
# Texts

Lists written between brackets, texts made of whole lines, and integers. An integer is written as
an optional sign, `+` or `-`, and one or more decimal digits; leading zeros are allowed, and nothing
else is. `integer? bits` reads such a text when its value fits a signed word of that many bits.
-/

namespace StackBackend.Text

/-! ### Layout -/

/-- The items in order with `sep` between neighbours, after `left` and before `right`. -/
def enclose (items : List String) (left sep right : String) : String :=
  left ++ sep.intercalate items ++ right

/-- The lines in order, each ended by a newline. -/
def ofLines (lines : List String) : String :=
  String.join (lines.map (· ++ "\n"))

/-! ### Integers -/

/-- The number that decimal digits write, most significant first. -/
def decimal (digits : List Char) : Nat :=
  digits.foldl (fun n c => 10 * n + (c.toNat - '0'.toNat)) 0

/-- The number a nonempty run of decimal digits writes. -/
def natural? (cs : List Char) : Option Nat :=
  if cs ≠ [] ∧ cs.all Char.isDigit then some (decimal cs) else none

/-- The integer a signed run of decimal digits writes. -/
def signed? : List Char → Option Int
  | '+' :: cs => (natural? cs).map Int.ofNat
  | '-' :: cs => (natural? cs).map fun n => -Int.ofNat n
  | cs => (natural? cs).map Int.ofNat

/-- The number of values that are not negative in a signed word of `bits` bits. -/
def halfRange (bits : Nat) : Nat := Nat.pow 2 (bits - 1)

/-- The integer `v` fits a signed word of `bits` bits. -/
def Fits (bits : Nat) (v : Int) : Prop :=
  -(halfRange bits : Int) ≤ v ∧ v < (halfRange bits : Int)

instance (bits : Nat) (v : Int) : Decidable (Fits bits v) :=
  inferInstanceAs (Decidable (_ ∧ _))

/-- The integer that `s` writes, if it fits a signed word of `bits` bits. -/
def integer? (bits : Nat) (s : String) : Option Int :=
  (signed? s.toList).filter fun v => Fits bits v

/-- An integer that is read fits its word. -/
theorem fits_of_integer? {bits : Nat} {s : String} {v : Int} (h : integer? bits s = some v) :
  Fits bits v
  := by
  simp only [integer?, Option.filter_eq_some_iff, decide_eq_true_eq] at h
  exact h.2

end StackBackend.Text
