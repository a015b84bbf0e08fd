import BootConfig.Text.Utf8
import BootConfig.Yaml.Cursor
import BootConfig.Yaml.Token

/-!
# Tags and names

Tags are written `!<uri>`, `!handle!uri` or `!uri`; anchors and aliases are names behind `&` and
`*`.
-/

namespace BootConfig.Yaml.Scan

/-- Where a handle or URI stands, which decides how its problems are named. -/
inductive TagPlace where
  | directive
  | node
deriving DecidableEq

def TagPlace.uriActivity : TagPlace → Activity
  | directive => .tagDirectiveUri
  | node => .tagUri

/-- The bytes in front of the first zero byte. -/
def untilZero (bytes : List UInt8) : List UInt8 := bytes.takeWhile (· != 0)

/-- The number of octets of a character that begins with the given one. -/
def octetCount (octet : Nat) : Nat :=
  if octet < 0x80 then 1
  else if 0xC0 ≤ octet && octet < 0xE0 then 2
  else if 0xE0 ≤ octet && octet < 0xF0 then 3
  else if 0xF0 ≤ octet && octet < 0xF8 then 4
  else 0

/-- One escape `%XX`. -/
def octet (place : TagPlace) (began : Mark) : Scan Nat := do
  need 3
  match (← get).rest with
  | '%' :: high :: low :: _ =>
    match Digits.number? 16 [high, low] with
    | some n => return n
    | none => fail .missingOctet place.uriActivity began
  | _ => fail .missingOctet place.uriActivity began

/-- The octets that continue a character. -/
def trailingOctets (place : TagPlace) (began : Mark) : Nat → Scan (List UInt8)
  | 0 => return []
  | n + 1 => do
    let o ← octet place began
    if o / 0x40 ≠ 2 then fail .badTrailingOctet place.uriActivity began
    skipMany 3
    return UInt8.ofNat o :: (← trailingOctets place began n)

/-- The escapes of one character. -/
def escapedChar (place : TagPlace) (began : Mark) : Scan (List UInt8) := do
  let o ← octet place began
  if octetCount o = 0 then fail .badLeadingOctet place.uriActivity began
  skipMany 3
  return UInt8.ofNat o :: (← trailingOctets place began (octetCount o - 1))

/-- The characters of a URI and whether there was any. -/
def uriChars (verbatim : Bool) (place : TagPlace) (began : Mark) : Nat → Scan (List UInt8 × Bool)
  | 0 => return ([], false)
  | fuel + 1 => do
    need 1
    match ← peek with
    | none => return ([], false)
    | some c =>
      if c = '%' then
        let bytes ← escapedChar place began
        return (bytes ++ (← uriChars verbatim place began fuel).1, true)
      else if isName c || isUriMark c || (verbatim && (c == ',' || c == '[' || c == ']')) then
        skip
        return (String.utf8EncodeChar c ++ (← uriChars verbatim place began fuel).1, true)
      else return ([], false)

/-- A URI behind what a `!` has already taken of it, which may be all there is. -/
def uri (verbatim : Bool) (place : TagPlace) (taken : List Char) (began : Mark) : Scan TagText := do
  let (bytes, any) ← uriChars verbatim place began (← bound)
  if taken.isEmpty && !any then fail .missingUri place.uriActivity began
  return untilZero (Utf8.encode (taken.drop 1) ++ bytes)

/-- A `!`, a name and a closing `!`, where name and closing mark may be missing in a node. -/
def handle (place : TagPlace) (began : Mark) : Scan (List Char) := do
  need 1
  if (← peek) ≠ some '!' then
    fail .missingTagMark (if place = .directive then .directiveHandleStart else .tag) began
  skip
  need 1
  let name ← takeWhile isName
  if (← peek) = some '!' then
    skip
    return '!' :: name ++ ['!']
  else if place = .directive && !name.isEmpty then fail .missingTagMark .directiveHandle began
  else return '!' :: name

/-- The handle and the suffix of a tag. A tag without a handle has the handle `!`, and the lone `!`
is a suffix. -/
def tagParts (began : Mark) : Scan (String × TagText) := do
  need 2
  if (← peekAt 1) = some '<' then
    skipMany 2
    let suffix ← uri true .node [] began
    if (← peek) ≠ some '>' then fail .missingTagEnd .tag began
    skip
    return ("", suffix)
  else
    let taken ← handle .node began
    if 2 ≤ taken.length && taken.getLast? = some '!' then
      return (String.ofList taken, ← uri false .node [] began)
    else
      let suffix ← uri false .node taken began
      return if suffix.isEmpty then ("", Utf8.encode ['!']) else ("!", suffix)

def tag (inFlow : Bool) : Scan Token := do
  let began ← mark
  let (handle, suffix) ← tagParts began
  need 1
  let next ← peek
  if !(inFlow && next = some ',') && !atGapOrEnd next then fail .missingGap .tag began
  return ⟨.tag handle suffix, began, ← mark⟩

/-- The characters that may follow a name. -/
def endsName (c : Option Char) : Bool :=
  atGapOrEnd c || c.any (fun c => "?:,]\x7d%@`".toList.contains c)

def anchorName (activity : Activity) (began : Mark) : Scan String := do
  skip
  need 1
  let name ← takeWhile isName
  if name.isEmpty || !endsName (← peek) then fail .missingName activity began
  return String.ofList name

def anchor : Scan Token := do
  let began ← mark
  let name ← anchorName .anchor began
  return ⟨.anchor name, began, ← mark⟩

def aliasOf : Scan Token := do
  let began ← mark
  let name ← anchorName .aliasName began
  return ⟨.aliasOf name, began, ← mark⟩

end BootConfig.Yaml.Scan
