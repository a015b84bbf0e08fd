import BootConfig.Number.Decimal
import BootConfig.Yaml.Document
import BootConfig.Yaml.Words

/-!
# What a scalar means

A plain scalar is read as null, a boolean, an integer or a float where its text has the form of one,
and as text otherwise. Text that stands literally in the input, with no quote right in front of it,
is then read by the words of version 1.1.
-/

namespace BootConfig.Yaml

/-- The forms that a tag can ask for. -/
inductive Form where
  | boolean
  | integer
  | float
  | null
deriving DecidableEq

def Form.message : Form → String
  | boolean => "a boolean"
  | integer => "an integer"
  | float => "a float"
  | null => "null"

namespace Resolve

/-! ## Forms -/

def isNull (text : String) : Bool :=
  ["null", "Null", "NULL", "~"].contains text

def bool? (text : String) : Option Bool :=
  if ["true", "True", "TRUE"].contains text then some true
  else if ["false", "False", "FALSE"].contains text then some false
  else none

/-- The base that a number begins with, 10 if it names none, and the digits. -/
def base : List Char → Nat × List Char
  | '0' :: 'x' :: cs => (16, cs)
  | '0' :: 'o' :: cs => (8, cs)
  | '0' :: 'b' :: cs => (2, cs)
  | cs => (10, cs)

/-- Two or more digits, the first of them a zero, behind an optional sign. -/
def isZeroLed (text : List Char) : Bool :=
  match (Digits.sign text).2 with
  | '0' :: c :: cs => (c :: cs).all Char.isDigit
  | _ => false

/-- An optional sign and digits, in base 16, 8 or 2 behind `0x`, `0o` or `0b`, in base 10
otherwise. -/
def integer? (text : List Char) : Option Int :=
  let (negative, unsigned) := Digits.sign text
  let (b, ds) := base unsigned
  if b = 10 && isZeroLed text then none
  else (Digits.number? b ds).map (Digits.signed negative)

/-- Whether a number of the given width, with or without a sign, can be the integer. -/
def fits (bits : Nat) (n : Int) : Bool :=
  -(Int.ofNat (Nat.pow 2 (bits - 1))) ≤ n && n < Int.ofNat (Nat.pow 2 bits)

/-- An integer of 64 bits is an integer, one of 128 bits the double nearest to it. -/
def ofInteger? (n : Int) : Option Tree :=
  if fits 64 n then some (.int n)
  else if fits 128 n then some (.float (.ofInt n))
  else none

def int? (text : List Char) : Option Tree := (integer? text).bind ofInteger?

/-- A finite decimal, an infinity or NaN. -/
def float? (text : String) : Option Double :=
  if [".inf", ".Inf", ".INF", "+.inf", "+.Inf", "+.INF"].contains text then some (.infinite false)
  else if ["-.inf", "-.Inf", "-.INF"].contains text then some (.infinite true)
  else if [".nan", ".NaN", ".NAN"].contains text then some .nan
  else
    match (Decimal.read? text.toList).map Decimal.toDouble with
    | some x => if x.isFinite then some x else none
    | none => none

/-- A form other than text. -/
def plain? (text : String) : Option Tree :=
  if text.isEmpty || isNull text then some .null
  else
    match bool? text with
    | some b => some (.bool b)
    | none =>
      match int? text.toList with
      | some t => some t
      | none =>
        if isZeroLed text.toList then none
        else (float? text).map .float

/-- The value of a text that must have the given form. -/
def formed? (text : String) : Form → Option Tree
  | .boolean => (bool? text).map .bool
  | .integer => int? text.toList
  | .float => (float? text).map .float
  | .null => if isNull text then some .null else none

/-! ## Text in the input -/

/-- Whether the byte in front of an offset is a quote. -/
def quoteBefore (input : ByteArray) (offset : Nat) : Bool :=
  match offset with
  | 0 => false
  | n + 1 => input[n]? == some 34 || input[n]? == some 39

/-- How many characters of its source follow the text of a scalar that is written literally. -/
def closingQuotes? : Style → Option Nat
  | .plain => some 0
  | .singleQuoted | .doubleQuoted => some 1
  | .literal | .folded => none

/-- Where the text of a scalar stands literally at the end of its source. -/
def literal? (input : ByteArray) (s : Scalar) : Option Nat :=
  match closingQuotes? s.style with
  | none => none
  | some quotes =>
    let size := s.text.utf8ByteSize
    if s.start + size + quotes ≤ s.stop then
      let offset := s.stop - quotes - size
      if (input.extract offset (offset + size)).data = s.text.toUTF8.data then some offset else none
    else none

/-- A scalar that is no other form. -/
def text (input : ByteArray) (s : Scalar) : Tree :=
  match literal? input s with
  | some offset => if quoteBefore input offset then .str s.text else Words.read s.text
  | none => .str s.text

/-! ## Tags -/

def core (name : String) : TagText := Utf8.encode ("tag:yaml.org,2002:" ++ name).toList

/-- The form that a tag asks for. -/
def form? (tag : TagText) : Option Form :=
  if tag = core "bool" then some .boolean
  else if tag = core "int" then some .integer
  else if tag = core "float" then some .float
  else if tag = core "null" then some .null
  else none

/-- The name in a tag that begins with a `!`. Behind the `!` that marks the tag, one more is left
out as well. -/
def tagName? (tag : TagText) : Option String :=
  match tag with
  | 33 :: _ => (String.fromUTF8? ⟨tag.toArray⟩).map fun text => tagName (tagName text)
  | _ => none

/-- A plain scalar whose form is open. -/
def untagged (input : ByteArray) (s : Scalar) : Tree :=
  (plain? s.text).getD (text input s)

/-- Whether a tag leaves the form of a plain text open. -/
def isOpen : Option TagText → Bool
  | none => true
  | some tag => tag.head? = some 33

/-- The value of a scalar, or the form that its text should have. -/
def scalar (input : ByteArray) (s : Scalar) : Except Form Tree :=
  match s.tag.bind form? with
  | some form =>
    match formed? s.text form with
    | some t => .ok t
    | none => .error form
  | none => .ok (if isOpen s.tag && s.style = .plain then untagged input s else text input s)

end Resolve

end BootConfig.Yaml
