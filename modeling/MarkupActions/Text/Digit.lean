import MarkupActions.Text.Basic

/-!
# Digits

Digits of the bases up to sixteen, with their values. Letters are read in either case and written in
lower case.
-/

namespace MarkupActions.Text

def digitValue? (c : Char) : Option Nat :=
  if c.isDigit then some (c.toNat - 48)
  else if 'a' ≤ c ∧ c ≤ 'f' then some (c.toNat - 87)
  else if 'A' ≤ c ∧ c ≤ 'F' then some (c.toNat - 55)
  else none

def hexDigit (n : Nat) : Char := if n < 10 then Char.ofNat (48 + n) else Char.ofNat (87 + n)

def isHexDigit (c : Char) : Bool := (digitValue? c).isSome

def isOctalDigit (c : Char) : Bool := '0' ≤ c && c ≤ '7'

def isBinaryDigit (c : Char) : Bool := c == '0' || c == '1'

/-- The number that digits write, the first of them the most significant. -/
def numberOf (base : Nat) (digits : Text) : Nat :=
  digits.foldl (fun n c => base * n + (digitValue? c).getD 0) 0

/-- The number that exactly `n` hexadecimal digits write at the head of a text. -/
def hexNumber? (n : Nat) (s : Text) : Option (Nat × Text) :=
  let digits := s.take n
  if digits.length = n ∧ digits.all isHexDigit then some (numberOf 16 digits, s.drop n) else none

end MarkupActions.Text
