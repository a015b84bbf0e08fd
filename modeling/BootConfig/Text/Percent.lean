import BootConfig.Text.Digits

/-!
# Percent coding

A byte is written as itself when it is an ASCII letter, a digit or one of `-._`, and as `%XX` with
upper-case hexadecimal digits otherwise. `decode?` reads exactly what `encode` writes.
-/

namespace BootConfig.Percent

/-- The bytes that stand for themselves. -/
def isUnreserved (b : UInt8) : Bool :=
  let c := Char.ofNat b.toNat
  c.isAlphanum || c == '-' || c == '.' || c == '_'

def encodeByte (b : UInt8) : List Char :=
  if isUnreserved b then [Char.ofNat b.toNat]
  else ['%', Digits.upperHex (b.toNat / 16), Digits.upperHex (b.toNat % 16)]

def encode (bytes : List UInt8) : List Char :=
  bytes.flatMap encodeByte

/-- The value of an upper-case hexadecimal digit. -/
def digit? (c : Char) : Option Nat :=
  if c.isLower then none else Digits.value? c

/-- Refuses a character that must be escaped and an escape of a byte that needs none. -/
def decode? : List Char → Option (List UInt8)
  | [] => some []
  | '%' :: high :: low :: rest => do
    let b := UInt8.ofNat (16 * (← digit? high) + (← digit? low))
    if isUnreserved b then none else (decode? rest).map (b :: ·)
  | c :: rest =>
    if c.toNat < 128 && isUnreserved (UInt8.ofNat c.toNat) then
      (decode? rest).map (UInt8.ofNat c.toNat :: ·)
    else none

end BootConfig.Percent
