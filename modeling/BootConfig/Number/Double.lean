/-!
# Double-precision numbers

A finite number is `± significand * 2 ^ exponent` in canonical form: the significand has 53 bits, or
fewer and then the exponent is the least one. `Double.nearest` rounds a fraction to the nearest
number, a half to the even neighbour.
-/

namespace BootConfig

inductive Double where
  | nan
  | infinite (negative : Bool)
  | finite (negative : Bool) (significand : Nat) (exponent : Int)
deriving DecidableEq, Inhabited

namespace Double

/-- The exponent of the smallest numbers. -/
def minExponent : Int := -1074

/-- The exponent of the largest numbers. -/
def maxExponent : Int := 971

def zero (negative : Bool) : Double := .finite negative 0 minExponent

def isFinite : Double → Bool
  | finite .. => true
  | _ => false

/-- Equality of keys: NaN equals itself and the two zeros are equal. -/
def same : Double → Double → Bool
  | nan, nan => true
  | infinite n, infinite n' => n == n'
  | finite n m e, finite n' m' e' => m == m' && (m == 0 || (n == n' && e == e'))
  | _, _ => false

/-- The quotient rounded to the nearest natural number, a half to the even one. -/
def roundDiv (num den : Nat) : Nat :=
  let q := num / den
  let r := num % den
  if 2 * r < den then q
  else if den < 2 * r then q + 1
  else q + q % 2

/-- A power; 1 where the exponent is negative. -/
def power (base : Nat) (e : Int) : Nat := Nat.pow base e.toNat

/-- The greatest `k` with `2 ^ k ≤ num / den`, for a positive fraction. -/
def floorLog2 (num den : Nat) : Int :=
  let k : Int := (num.log2 : Int) - (den.log2 : Int)
  if den * power 2 k ≤ num * power 2 (-k) then k else k - 1

/-- The number nearest to `± num / den`; what lies half a step above the largest one or further is
infinite. -/
def nearest (negative : Bool) (num den : Nat) : Double :=
  if num = 0 then zero negative
  else
    let e := max minExponent (floorLog2 num den - 52)
    let m := roundDiv (num * power 2 (-e)) (den * power 2 e)
    let (m, e) := if m = power 2 53 then (power 2 52, e + 1) else (m, e)
    if e > maxExponent then infinite negative else finite negative m e

/-- The number nearest to an integer. -/
def ofInt (n : Int) : Double :=
  nearest (n < 0) n.natAbs 1

end Double

end BootConfig
