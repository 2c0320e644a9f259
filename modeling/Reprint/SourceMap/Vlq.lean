import Reprint.Text

/-!
# Base64 variable-length quantities

An integer is written with the sign in the lowest bit, five bits to a
digit, the lowest digit first.  A digit that is not the last has 32 added
to it.  Digits are written in the Base64 alphabet.
-/

namespace Reprint.Vlq

/-- The character of a digit below 64. -/
def digitChar (d : Nat) : Char :=
  if d < 26 then Char.ofNat ('A'.toNat + d)
  else if d < 52 then Char.ofNat ('a'.toNat + (d - 26))
  else if d < 62 then Char.ofNat ('0'.toNat + (d - 52))
  else if d = 62 then '+'
  else '/'

/-- The digits of a number, five bits to a digit. -/
def digits (n : Nat) : Text :=
  if h : n < 32 then [digitChar n]
  else digitChar (n % 32 + 32) :: digits (n / 32)
termination_by n
decreasing_by exact Nat.div_lt_self (by omega) (by decide)

/-- An integer as a number with the sign in the lowest bit. -/
def signed : Int → Nat
  | .ofNat n => 2 * n
  | .negSucc n => 2 * (n + 1) + 1

/-- The written form of an integer. -/
def encode (n : Int) : Text := digits (signed n)

end Reprint.Vlq
