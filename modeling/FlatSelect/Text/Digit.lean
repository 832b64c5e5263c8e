/-!
# Digits

Numbers are read from digits in some base up to sixteen. Letters count as digits in either case.
-/

namespace FlatSelect

namespace Text

/-- The value of a character as a digit. -/
def digit? (c : Char) : Option Nat :=
  if c.isDigit then some (c.toNat - '0'.toNat)
  else if 'a' ≤ c && c ≤ 'f' then some (c.toNat - 'a'.toNat + 10)
  else if 'A' ≤ c && c ≤ 'F' then some (c.toNat - 'A'.toNat + 10)
  else none

/-- The number that digits in some base spell after digits that spell `seen`. -/
def numberFrom? (base seen : Nat) : List Char → Option Nat
  | [] => some seen
  | c :: cs =>
    (digit? c).bind fun digit =>
      if digit < base then numberFrom? base (base * seen + digit) cs else none

/-- The number that digits in some base spell. There has to be a digit. -/
def number? (base : Nat) (cs : List Char) : Option Nat :=
  if cs.isEmpty then none else numberFrom? base 0 cs

end Text

end FlatSelect
