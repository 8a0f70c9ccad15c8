import Mathlib.Data.Nat.Digits.Defs
import StackBackend.Text

/-!
# Writing and reading integers

A decimal numeral stands for the sum of its digits, each times the power of ten of its place, and a word
of 32 bits for a signed integer. What is read from a text is the word that the text writes in this sense.
An integer that is written out in decimal digits is read back.
-/

namespace StackBackend.Text

/-- The digits of a number stand for it. -/
theorem decimal_toDigits (n : Nat) :
  decimal (Nat.toDigits 10 n) = n
  := Nat.ofDigitChars_toDigits (by decide) (by decide)

theorem toDigits_all_isDigit (n : Nat) :
  (Nat.toDigits 10 n).all Char.isDigit = true
  := by
  rw [List.all_eq_true]
  intro c hc
  apply Nat.isDigit_of_mem_toDigits (by decide) (by decide) hc

/-- They are read back as the number. -/
theorem natural?_toDigits (n : Nat) :
  natural? (Nat.toDigits 10 n) = some n
  := by
  rw [natural?, if_pos ⟨Nat.toDigits_ne_nil, toDigits_all_isDigit n⟩, decimal_toDigits]

/-- A text of digits alone has no sign. -/
theorem signed?_of_digits {cs : List Char} (h : cs.all Char.isDigit = true) :
  signed? cs = (natural? cs).map Int.ofNat
  := by
  unfold signed?
  split
  · simp at h
  · simp at h
  · rfl

/-- The text of an integer is read back as the integer. -/
theorem signed?_toString (v : Int) :
  signed? (toString v).toList = some v
  := by
  rw [Int.toString_eq_repr]
  cases v with
  | ofNat n =>
      change signed? n.repr.toList = _
      rw [Nat.repr_eq_ofList_toDigits, String.toList_ofList,
        signed?_of_digits (toDigits_all_isDigit n), natural?_toDigits]
      rfl
  | negSucc n =>
      change signed? ("-" ++ n.succ.repr).toList = _
      rw [Nat.repr_eq_ofList_toDigits, String.toList_append, String.toList_ofList,
        String.toList_ofList]
      change (natural? (Nat.toDigits 10 n.succ)).map (fun n => -Int.ofNat n) = _
      rw [natural?_toDigits]
      rfl

/-- An integer that fits is read back from its text. -/
theorem integer?_toString {bits : Nat} {v : Int} (h : Fits bits v) :
  integer? bits (toString v) = some v
  := by
  rw [integer?, signed?_toString, Option.filter_some, if_pos (by simpa using h)]

/-- A text that is read as zero is so at any width. -/
theorem integer?_zero {bits bits' : Nat} {s : String} (h : integer? bits s = some 0) :
  integer? bits' s = some 0
  := by
  have read : signed? s.toList = some 0 := by
    simp only [integer?, Option.filter_eq_some_iff] at h
    apply h.1
  have fits : Fits bits' 0 := by
    have pos : 0 < halfRange bits' := Nat.two_pow_pos _
    constructor
    · omega
    · omega
  rw [integer?, read, Option.filter_some, if_pos (by simpa using fits)]

/-! ### The meaning of numerals -/

/-- The number that a decimal digit writes. -/
def digit? (c : Char) : Option Nat := ['0', '1', '2', '3', '4', '5', '6', '7', '8', '9'].idxOf? c

/-- The number that a row of decimal digits writes, the digit of the ones last. -/
def numeral? (cs : List Char) : Option Nat :=
  if cs = [] then none else (cs.mapM digit?).map fun digits => Nat.ofDigits 10 digits.reverse

/-- The integer that a row of decimal digits writes, with or without a sign. -/
def signedNumeral? : List Char → Option Int
  | '+' :: cs => (numeral? cs).map Int.ofNat
  | '-' :: cs => (numeral? cs).map fun n => -Int.ofNat n
  | cs => (numeral? cs).map Int.ofNat

/-- The integer that a text writes, if a word of 32 bits holds it. -/
def word? (s : String) : Option Int :=
  (signedNumeral? s.toList).filter fun v => (Int32.ofInt v).toInt = v

/-- A decimal digit writes its distance from `0`. -/
theorem digit?_of_isDigit {c : Char} (digit : c.isDigit = true) :
  digit? c = some (c.toNat - '0'.toNat)
  := by
  have digits : ∀ n ≤ 57, 48 ≤ n → digit? (Char.ofNat n) = some (n - '0'.toNat) := by decide
  have range : 48 ≤ c.toNat ∧ c.toNat ≤ 57 := by simpa [Char.isDigit, UInt32.le_iff_toNat_le] using digit
  have read := digits c.toNat range.2 range.1
  rwa [Char.ofNat_toNat] at read

/-- Other characters are no digits. -/
theorem digit?_of_not_isDigit {c : Char} (other : c.isDigit = false) :
  digit? c = none
  := by
  rw [digit?, List.idxOf?_eq_none_iff]
  intro mem
  have digit : c.isDigit = true := by
    apply List.all_eq_true.1 _ c mem
    rfl
  rw [digit] at other
  cases other

/-- A row is one of digits when all its characters are digits. -/
theorem mapM_digit? (cs : List Char) :
  cs.mapM digit? = if cs.all Char.isDigit then some (cs.map fun c => c.toNat - '0'.toNat) else none
  := by
  induction cs with
  | nil => rfl
  | cons c cs ih =>
      rw [List.mapM_cons, ih]
      cases digit : c.isDigit with
      | false => simp [digit?_of_not_isDigit digit, digit]
      | true =>
          rw [digit?_of_isDigit digit]
          cases all : cs.all Char.isDigit <;> simp [digit, all]

/-- The digits of a numeral count for their places. -/
theorem ofDigits_reverse (cs : List Char) :
  Nat.ofDigits 10 (cs.map fun c => c.toNat - '0'.toNat).reverse = decimal cs
  := by
  rw [Nat.ofDigits_eq_foldr, List.foldr_reverse, List.foldl_map, decimal]
  simp only [Nat.cast_id, Nat.add_comm]

/-- The value of a numeral is what is read from it. -/
theorem numeral?_eq_natural? (cs : List Char) :
  numeral? cs = natural? cs
  := by
  rw [numeral?, natural?, mapM_digit?]
  cases cs with
  | nil => rfl
  | cons c cs =>
      split <;> simp_all [← ofDigits_reverse]

/-- With a sign as well. -/
theorem signedNumeral?_eq_signed? (cs : List Char) :
  signedNumeral? cs = signed? cs
  := by
  unfold signedNumeral? signed?
  split <;> simp only [numeral?_eq_natural?]

/-- A word holds the integers that fit it. -/
theorem toInt_ofInt_iff_fits {v : Int} :
  (Int32.ofInt v).toInt = v ↔ Fits 32 v
  := by
  constructor
  · intro same
    rw [← same]
    use Int32.le_toInt _, Int32.toInt_lt _
  · rintro ⟨least, most⟩
    apply Int32.toInt_ofInt_of_le least most

/-- What is read as an integer of 32 bits is the word that a text writes. -/
theorem word?_eq_integer? (s : String) :
  word? s = integer? 32 s
  := by
  rw [word?, integer?, signedNumeral?_eq_signed?]
  simp only [toInt_ofInt_iff_fits]

end StackBackend.Text
