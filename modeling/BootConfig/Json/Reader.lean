import BootConfig.Json.Value

/-!
# Reading JSON

The grammar of JSON texts, read strictly: nothing is accepted that the grammar does not have. Each
reader gives what it has read and what is left; the fuel exceeds the length of the text.
-/

namespace BootConfig.Json

def isSpace (c : Char) : Bool := c == ' ' || c == '\t' || c == '\n' || c == '\r'

def skipSpace (cs : List Char) : List Char := cs.dropWhile isSpace

/-! ## Strings -/

/-- What a letter behind a backslash stands for. -/
def shortEscape? : Char → Option Char
  | '"' => some '"'
  | '\\' => some '\\'
  | '/' => some '/'
  | 'b' => some '\x08'
  | 'f' => some '\x0c'
  | 'n' => some '\n'
  | 'r' => some '\r'
  | 't' => some '\t'
  | _ => none

/-- Four hexadecimal digits. -/
def readUnit? : List Char → Option (Nat × List Char)
  | a :: b :: c :: d :: rest => (Digits.number? 16 [a, b, c, d]).map (·, rest)
  | _ => none

/-- The character of an escape, behind its backslash. One beyond U+FFFF takes two units. -/
def readEscape? : List Char → Option (Char × List Char)
  | 'u' :: rest => do
    let (high, rest) ← readUnit? rest
    if 0xDC00 ≤ high && high < 0xE000 then none
    else if 0xD800 ≤ high && high < 0xDC00 then
      match rest with
      | '\\' :: 'u' :: rest =>
        let (low, rest) ← readUnit? rest
        if 0xDC00 ≤ low && low < 0xE000 then
          return (Char.ofNat (0x10000 + 0x400 * (high - 0xD800) + (low - 0xDC00)), rest)
        else none
      | _ => none
    else return (Char.ofNat high, rest)
  | c :: rest => (shortEscape? c).map (·, rest)
  | [] => none

/-- The characters of a string up to its closing quote. -/
def readChars : Nat → List Char → Option (List Char × List Char)
  | _ + 1, '"' :: rest => some ([], rest)
  | fuel + 1, '\\' :: rest => do
    let (c, rest) ← readEscape? rest
    let (cs, rest) ← readChars fuel rest
    return (c :: cs, rest)
  | fuel + 1, c :: rest =>
    if c.toNat < 32 then none
    else do
      let (cs, rest) ← readChars fuel rest
      return (c :: cs, rest)
  | _, _ => none

/-- A string behind its opening quote. -/
def readString? (cs : List Char) : Option (String × List Char) :=
  (readChars (cs.length + 1) cs).map fun (cs, rest) => (String.ofList cs, rest)

/-! ## Numbers -/

/-- One or more digits. -/
def readDigits? (cs : List Char) : Option (List Char × List Char) :=
  let ds := cs.takeWhile Char.isDigit
  if ds.isEmpty then none else some (ds, cs.dropWhile Char.isDigit)

/-- The digits in front of the point. Only a zero that stands alone comes first. -/
def readWhole? (cs : List Char) : Option (List Char × List Char) :=
  (readDigits? cs).filter fun (ds, _) => ds.head? != some '0' || ds.length == 1

/-- A point and digits, if there is a point. -/
def readFraction? : List Char → Option (List Char × List Char)
  | '.' :: cs => (readDigits? cs).map fun (ds, rest) => ('.' :: ds, rest)
  | cs => some ([], cs)

/-- The sign of an exponent. -/
def readSign : List Char → List Char × List Char
  | '+' :: cs => (['+'], cs)
  | '-' :: cs => (['-'], cs)
  | cs => ([], cs)

/-- The letter of an exponent, its sign and its digits, if there is the letter. -/
def readExponent? : List Char → Option (List Char × List Char)
  | [] => some ([], [])
  | c :: cs =>
    if c == 'e' || c == 'E' then
      let (sign, cs) := readSign cs
      (readDigits? cs).map fun (ds, rest) => (c :: (sign ++ ds), rest)
    else some ([], c :: cs)

/-- The minus sign of a number. -/
def readMinus : List Char → Bool × List Char
  | '-' :: cs => (true, cs)
  | cs => (false, cs)

def readNumber? (cs : List Char) : Option (Value × List Char) := do
  let (negative, unsigned) := readMinus cs
  let (whole, rest) ← readWhole? unsigned
  let (fraction, rest) ← readFraction? rest
  let (exponent, rest) ← readExponent? rest
  if fraction.isEmpty && exponent.isEmpty then
    return (.int (Digits.signed negative (Digits.number 10 whole)), rest)
  else
    let digits := whole ++ (fraction ++ exponent)
    return (.number (String.ofList (if negative then '-' :: digits else digits)), rest)

/-! ## Values -/

mutual

def readValue : Nat → List Char → Option (Value × List Char)
  | 0, _ => none
  | fuel + 1, cs =>
    match skipSpace cs with
    | 'n' :: 'u' :: 'l' :: 'l' :: rest => some (.null, rest)
    | 't' :: 'r' :: 'u' :: 'e' :: rest => some (.bool true, rest)
    | 'f' :: 'a' :: 'l' :: 's' :: 'e' :: rest => some (.bool false, rest)
    | '"' :: rest => (readString? rest).map fun (text, rest) => (.str text, rest)
    | '[' :: rest =>
      match skipSpace rest with
      | ']' :: rest => some (.array [], rest)
      | _ => (readItems fuel rest).map fun (items, rest) => (.array items, rest)
    | '{' :: rest =>
      match skipSpace rest with
      | '}' :: rest => some (.object [], rest)
      | _ => (readMembers fuel rest).map fun (members, rest) => (.object members, rest)
    | cs => readNumber? cs

/-- The elements of an array, of which there is at least one, and the closing bracket. -/
def readItems : Nat → List Char → Option (List Value × List Char)
  | 0, _ => none
  | fuel + 1, cs => do
    let (value, rest) ← readValue fuel cs
    match skipSpace rest with
    | ',' :: rest =>
      let (values, rest) ← readItems fuel rest
      return (value :: values, rest)
    | ']' :: rest => return ([value], rest)
    | _ => none

/-- The members of an object, of which there is at least one, and the closing brace. -/
def readMembers : Nat → List Char → Option (Members × List Char)
  | 0, _ => none
  | fuel + 1, cs =>
    match skipSpace cs with
    | '"' :: rest => do
      let (name, rest) ← readString? rest
      match skipSpace rest with
      | ':' :: rest =>
        let (value, rest) ← readValue fuel rest
        match skipSpace rest with
        | ',' :: rest =>
          let (members, rest) ← readMembers fuel rest
          return ((name, value) :: members, rest)
        | '}' :: rest => return ([(name, value)], rest)
        | _ => none
      | _ => none
    | _ => none

end

/-- Reads one value in front of anything. -/
def readFirst? (cs : List Char) : Option (Value × List Char) :=
  readValue (2 * cs.length + 1) cs

/-- Reads a text that holds one value and nothing else but spaces around it. -/
def read? (text : String) : Option Value :=
  match readFirst? text.toList with
  | some (value, rest) => if (skipSpace rest).isEmpty then some value else none
  | none => none

end BootConfig.Json
