import StackBackend.Least
import StackBackend.Program.Variable

/-!
# Fresh labels

Labels that a method makes for itself are a stem and a number, and labels made together share
the number. The numbers go up, past every number at which one of the labels is already in use.
-/

namespace StackBackend

/-- The labels in use, and the first number not tried yet. -/
structure LabelSupply where
  next : Nat
  reserved : NameSet
deriving DecidableEq

namespace LabelSupply

/-- The supply of a method with these labels of its own. -/
def ofLabels (labels : List String) : LabelSupply := ⟨0, .ofList labels⟩

/-- The label with that stem and number. -/
def numbered (stem : String) (n : Nat) : String := stem ++ "_" ++ toString n

/-- Whether no stem with the number `n` is in use. -/
def isFree (s : LabelSupply) (stems : List String) (n : Nat) : Bool :=
  stems.all fun stem => numbered stem n ∉ s.reserved

/-- The least number from the next one on at which all stems are free. A label in use rules out
one number at most, so the labels in use bound the search. -/
def number (s : LabelSupply) (stems : List String) : Nat :=
  leastFrom (s.isFree stems) s.next s.reserved.size

/-- One new label for each stem, all with the same number. -/
def fresh (s : LabelSupply) (stems : List String) : List String × LabelSupply :=
  let n := s.number stems
  let labels := stems.map (numbered · n)
  (labels, ⟨n + 1, s.reserved.insertMany labels⟩)

end LabelSupply

end StackBackend
