import BootConfig.Number.Double
import BootConfig.Text.Digits

/-!
# Decimal numbers

Reading a decimal literal and finding the double nearest to it.
-/

namespace BootConfig

/-- The number `± digits * 10 ^ exponent`. -/
structure Decimal where
  negative : Bool
  digits : Nat
  exponent : Int
deriving DecidableEq

namespace Decimal

/-- What may follow the digits: nothing, or `e` or `E`, an optional sign and at least one digit. -/
def exponentPart? : List Char → Option Int
  | [] => some 0
  | c :: cs =>
    if c == 'e' || c == 'E' then
      let (negative, ds) := Digits.sign cs
      (Digits.number? 10 ds).map (Digits.signed negative)
    else none

/-- An optional sign, digits with an optional point among, before or after them, and an optional
exponent. -/
def read? (text : List Char) : Option Decimal :=
  let (negative, cs) := Digits.sign text
  let whole := cs.takeWhile Char.isDigit
  let afterWhole := cs.dropWhile Char.isDigit
  let (fraction, tail) := match afterWhole with
    | '.' :: ds => (ds.takeWhile Char.isDigit, ds.dropWhile Char.isDigit)
    | _ => ([], afterWhole)
  if whole.isEmpty && fraction.isEmpty then none
  else (exponentPart? tail).map fun e =>
    { negative, digits := Digits.number 10 (whole ++ fraction), exponent := e - fraction.length }

/-- The double nearest to a decimal. A number beyond `10 ^ 400` is infinite and one below
`10 ^ -400` zero, so that no power of ten grows with the exponent's text. -/
def toDouble (d : Decimal) : Double :=
  if d.digits = 0 then .zero d.negative
  else
    let magnitude := d.exponent + (d.digits.log2 : Int) * 3 / 10
    if magnitude > 400 then .infinite d.negative
    else if d.exponent + (d.digits.log2 : Int) + 1 < -400 then .zero d.negative
    else .nearest d.negative (d.digits * Double.power 10 d.exponent) (Double.power 10 (-d.exponent))

end Decimal

end BootConfig
