/-!
# Digits

Numbers as text: the digits of a number, and the number that digits spell in a base up to 16.
-/

namespace BootConfig.Digits

/-! ## Writing -/

/-- The decimal text of a number. -/
def decimal (n : Nat) : String := String.ofList (Nat.toDigits 10 n)

/-- The lower-case hexadecimal digit of a number below 16. -/
def lowerHex (n : Nat) : Char :=
  if n < 10 then Char.ofNat (48 + n) else Char.ofNat (87 + n)

/-- The upper-case hexadecimal digit of a number below 16. -/
def upperHex (n : Nat) : Char :=
  if n < 10 then Char.ofNat (48 + n) else Char.ofNat (55 + n)

/-! ## Reading -/

/-- The value of a hexadecimal digit of either case. -/
def value? (c : Char) : Option Nat :=
  if '0' ≤ c ∧ c ≤ '9' then some (c.toNat - 48)
  else if 'a' ≤ c ∧ c ≤ 'f' then some (c.toNat - 87)
  else if 'A' ≤ c ∧ c ≤ 'F' then some (c.toNat - 55)
  else none

def isDigit (base : Nat) (c : Char) : Bool := (value? c).any (· < base)

/-- The number that digits continue. -/
def append (base n : Nat) (ds : List Char) : Nat :=
  ds.foldl (fun n d => base * n + (value? d).getD 0) n

/-- The number that digits spell. -/
def number (base : Nat) (ds : List Char) : Nat := append base 0 ds

/-- The number that one or more digits spell, and nothing else. -/
def number? (base : Nat) (cs : List Char) : Option Nat :=
  if cs.isEmpty || !cs.all (isDigit base) then none else some (number base cs)

/-- Whether a minus sign stands in front, and what follows the sign if there is one. -/
def sign : List Char → Bool × List Char
  | '-' :: cs => (true, cs)
  | '+' :: cs => (false, cs)
  | cs => (false, cs)

/-- The number with or without a minus sign. -/
def signed (negative : Bool) (n : Nat) : Int := if negative then -n else n

end BootConfig.Digits
