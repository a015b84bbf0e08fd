import BootConfig.Number.Double

/-!
# Shortest decimal digits

Of all decimals that read back as a given double, `Double.shortest` takes one on the coarsest grid
of powers of ten, and there the one nearest to the number, an exact tie going to the even digit.
`Double.text` spells it: positional for magnitudes from `10 ^ -5` up to `10 ^ 16`, with an exponent
elsewhere.
-/

namespace BootConfig.Double

/-- A positive fraction. -/
structure Fraction where
  num : Nat
  den : Nat

/-- `n * 2 ^ e`. -/
def Fraction.ofScaled (n : Nat) (e : Int) : Fraction :=
  ⟨n * power 2 e, power 2 (-e)⟩

/-- `n * 10 ^ k`. -/
def Fraction.ofDecimal (n : Nat) (k : Int) : Fraction :=
  ⟨n * power 10 k, power 10 (-k)⟩

def Fraction.le (a b : Fraction) : Bool := a.num * b.den ≤ b.num * a.den

def Fraction.lt (a b : Fraction) : Bool := a.num * b.den < b.num * a.den

/-- The integer part of `a / 10 ^ k`. -/
def Fraction.floorAt (a : Fraction) (k : Int) : Nat :=
  a.num * power 10 (-k) / (a.den * power 10 k)

/-- The fractions that read back as `significand * 2 ^ exponent`: those nearer to it than to its
neighbours, and the halfway points themselves when its significand is even. -/
structure Reach where
  lower : Fraction
  upper : Fraction
  closed : Bool

def reach (significand : Nat) (exponent : Int) : Reach :=
  let narrow := significand = power 2 52 && exponent > minExponent
  { lower := .ofScaled (4 * significand - if narrow then 1 else 2) (exponent - 2)
    upper := .ofScaled (4 * significand + 2) (exponent - 2)
    closed := significand % 2 = 0 }

def Reach.contains (r : Reach) (a : Fraction) : Bool :=
  if r.closed then r.lower.le a && a.le r.upper else r.lower.lt a && a.lt r.upper

/-- The nearest multiple of `10 ^ k` in reach of `value`, given as its quotient by `10 ^ k`. -/
def candidate? (r : Reach) (value : Fraction) (k : Int) : Option Nat :=
  let below := value.floorAt k
  let above := below + 1
  match r.contains (.ofDecimal below k), r.contains (.ofDecimal above k) with
  | true, true =>
    let twice : Fraction := ⟨2 * value.num, value.den⟩
    let middle := Fraction.ofDecimal (below + above) k
    if twice.lt middle then some below
    else if middle.lt twice then some above
    else some (if below % 2 = 0 then below else above)
  | true, false => some below
  | false, true => some above
  | false, false => none

/-- Looks for a candidate on ever finer grids. -/
def search (r : Reach) (value : Fraction) : Nat → Int → Nat × Int
  | 0, k => (value.floorAt k, k)
  | fuel + 1, k =>
    match candidate? r value k with
    | some d => (d, k)
    | none => search r value fuel (k - 1)

/-- The digits and the power of ten of the shortest decimal that reads back as
`significand * 2 ^ exponent`. -/
def shortest (significand : Nat) (exponent : Int) : Nat × Int :=
  let bits : Int := significand.log2 + exponent
  let start := (bits + 1) * 30103 / 100000 + 2
  search (reach significand exponent) (.ofScaled significand exponent) 40 start

/-- The text of `digits * 10 ^ k`, at least one digit standing on either side of a point. -/
def spell (digits : List Char) (k : Int) : List Char :=
  let n : Int := digits.length
  let e := k + n - 1
  if -5 ≤ e ∧ e < 16 then
    if 0 ≤ k then digits ++ List.replicate k.toNat '0' ++ ['.', '0']
    else if 0 ≤ e then
      digits.take (e + 1).toNat ++ '.' :: digits.drop (e + 1).toNat
    else '0' :: '.' :: List.replicate (-e - 1).toNat '0' ++ digits
  else
    let mantissa := match digits with
      | [] => []
      | [d] => [d]
      | d :: ds => d :: '.' :: ds
    let mark := if e < 0 then '-' else '+'
    mantissa ++ 'e' :: mark :: Nat.toDigits 10 e.natAbs

/-- The text of a finite number, which is the number token of the output; infinities and NaN have
names of their own. -/
def text : Double → String
  | nan => "nan"
  | infinite negative => if negative then "-inf" else "inf"
  | finite negative significand exponent =>
    let unsigned :=
      if significand = 0 then ['0', '.', '0']
      else
        let (d, k) := shortest significand exponent
        spell (Nat.toDigits 10 d) k
    String.ofList (if negative then '-' :: unsigned else unsigned)

end BootConfig.Double
